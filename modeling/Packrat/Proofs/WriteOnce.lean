import Packrat.Proofs.Moments
import Packrat.Proofs.Taint

set_option autoImplicit false

namespace Packrat

open Packrat.Parser (opened settle popped settled inactive_of_find?)

variable {ν : Type}

-- What a history says about the time since a text was bound.

def since (history : List (Signal ν)) : List (Signal ν) :=
  history.takeWhile fun signal => !signal.binds

def Signal.put? : Signal ν → Option Call
  | .step call _ .stored => some call
  | _ => none

def puts (history : List (Signal ν)) : List Call :=
  (since history).filterMap Signal.put?

section History

variable {signal : Signal ν} {history : List (Signal ν)} {call : Call} {index : Nat}

theorem since_cons (unbound : signal.binds = false) : since (signal :: history) = signal :: since history := by
  simp [since, unbound]

theorem puts_cons (unbound : signal.binds = false) (unstored : signal.put? = none) :
    puts (signal :: history) = puts history := by
  simp [puts, since_cons unbound, unstored]

@[simp] theorem puts_ended (outcome : Except Failure ν) :
    puts (.step call index (.ended outcome) :: history) = puts history := by
  cases outcome <;> rfl

theorem puts_stored (stop : Nat) (outcome : Except Failure ν) :
    puts (.step call stop (.ended outcome) :: .step call index .stored :: history) = call :: puts history :=
  puts_ended outcome

theorem Signal.Idle.binds (idle : signal.Idle) : signal.binds = false := by
  cases signal <;> first | rfl | exact idle.elim

theorem Signal.Idle.put? (idle : signal.Idle) : signal.put? = none := by
  cases signal <;> first | rfl | exact idle.elim

theorem openCalls_idle (idle : signal.Idle) : openCalls (signal :: history) = openCalls history := by
  cases signal <;> first | rfl | exact idle.elim

theorem openCalls_ended (outcome : Except Failure ν) :
    openCalls (.step call index (.ended outcome) :: history) = (openCalls history).tail := by
  cases outcome <;> rfl

theorem BoundOutside.older {newer : List (Signal ν)} (outside : BoundOutside (newer ++ history)) :
    BoundOutside history := by
  rintro later source older rfl
  exact outside (newer ++ later) source older (by simp)

end History

theorem MemoTable.isSome_find? (table : MemoTable ν) (call : Call) :
    (table.find? call).isSome = true ↔ call ∈ table.entries.map Prod.fst := by
  rw [MemoTable.find?_eq, ← not_iff_not, Bool.not_eq_true, Option.isSome_eq_false_iff,
    Option.isNone_iff_eq_none, List.lookup_eq_none_iff]
  simp only [bne_iff_ne, ne_eq, List.mem_map, not_exists, not_and]
  exact forall₂_congr fun entry _ => not_congr eq_comm

theorem MemoTable.keys_insert {table : MemoTable ν} {call : Call}
    (new : call ∉ table.entries.map Prod.fst) (verdict : Verdict ν) :
    (table.insert call verdict).entries.map Prod.fst = call :: table.entries.map Prod.fst := by
  have others : table.entries.filter (·.1 ≠ call) = table.entries := by
    rw [List.filter_eq_self]
    intro entry member
    have different : entry.1 ≠ call := fun same => new (same ▸ List.mem_map_of_mem member)
    simpa using different
  rw [MemoTable.entries_insert, others, List.map_cons]

namespace Moment

open Packrat.Grammar

variable {grammar : Grammar} {before after : Moment}

theorem Next.history (next : Next grammar before after) :
    ∃ added, after.history = added ++ before.history := by
  cases next with
  | aside | handed => exact ⟨[], rfl⟩
  | told | bound | regrown => exact ⟨[_], rfl⟩
  | hit => exact ⟨[_, _, _], rfl⟩
  | @reentered _ _ _ own =>
    obtain ⟨call, memoized⟩ := own
    cases memoized with
    | false => exact ⟨[_, _, _], rfl⟩
    | true => exact ⟨[_, _, _, _], rfl⟩
  | @begun _ _ _ own =>
    obtain ⟨call, memoized⟩ := own
    cases memoized with
    | false => exact ⟨[_], rfl⟩
    | true => exact ⟨[_, _], rfl⟩
  | @closed machine _ _ own outcome =>
    have result := settled own.call own.memoized outcome machine
    generalize settle own.call own.memoized outcome machine = last at result ⊢
    cases result with
    | withheld | stored => exact ⟨[_, _], rfl⟩
    | dropped => exact ⟨[_], rfl⟩

theorem Passes.history (passes : Passes grammar before after) :
    ∃ added, after.history = added ++ before.history := by
  induction passes with
  | refl => exact ⟨[], rfl⟩
  | tail _ next ih =>
    obtain ⟨added, same⟩ := ih
    obtain ⟨more, equal⟩ := next.history
    exact ⟨more ++ added, by rw [equal, same, List.append_assoc]⟩

structure Tallied (config : Config) (moment : Moment) : Prop where
  config : moment.machine.config = config
  entered : openCalls moment.history = moment.pending.map Pending.call
  active : moment.machine.calls = moment.pending.map Pending.call
  keys : moment.machine.memo.entries.map Prod.fst = puts moment.history
  once : (puts moment.history).Nodup
  unstored : ∀ own ∈ moment.pending, own.memoized = true → own.call ∉ puts moment.history
  distinct : (moment.pending.map Pending.call).Nodup

namespace Tallied

variable {config : Config} {machine : Machine Stored} {pending : List Pending}
  {past : List (Signal Stored)} {own : Pending} {call : Call}

theorem find?_isSome (tallied : before.Tallied config) (call : Call) :
    (before.machine.memo.find? call).isSome = true ↔ call ∈ puts before.history := by
  rw [MemoTable.isSome_find?, tallied.keys]

theorem start (source : Source) (config : Config) : (Moment.start source config).Tallied config where
  config := rfl
  entered := rfl
  active := rfl
  keys := rfl
  once := .nil
  unstored _ member := nomatch member
  distinct := .nil

theorem told (tallied : before.Tallied config) {signal : Signal Stored} (idle : signal.Idle) :
    Tallied config { before with machine := before.machine.write signal } where
  __ := tallied
  entered := (openCalls_idle idle).trans tallied.entered
  keys := tallied.keys.trans (puts_cons idle.binds idle.put?).symm
  once := (puts_cons idle.binds idle.put?).symm ▸ tallied.once
  unstored own member memo := (puts_cons idle.binds idle.put?).symm ▸ tallied.unstored own member memo

theorem unopened (tallied : before.Tallied config) {source : Source}
    (outside : BoundOutside (.bound source :: before.history)) : before.pending = [] := by
  have none : openCalls before.history = [] := outside [] source before.history rfl
  simpa [tallied.entered] using none

theorem bound (tallied : before.Tallied config) (source : Source) (none : before.pending = []) :
    Tallied config { before with machine := before.machine.bind source } := by
  exact
    { config := tallied.config
      entered := tallied.entered
      active := by
        simp only [none]
        rfl
      keys := rfl
      once := .nil
      unstored := by simp [none]
      distinct := tallied.distinct }

theorem begun (tallied : Tallied config ⟨machine, pending, past⟩)
    (unknown : own.memoized = true → machine.memo.find? own.call = none)
    (inactive : machine.active.find? own.call = none) :
    Tallied config ⟨opened own.call (machine.missed own.call own.memoized), own :: pending, past⟩ := by
  have new : own.call ∉ pending.map Pending.call := tallied.active ▸ inactive_of_find? inactive
  have unstored : ∀ other ∈ own :: pending, other.memoized = true →
      other.call ∉ puts (machine.journal ++ past) := by
    intro other member memo
    rcases List.mem_cons.mp member with rfl | member
    next =>
      have absent := (tallied.find?_isSome other.call).not.mp (by simp [unknown memo])
      exact absent
    next => exact tallied.unstored other member memo
  obtain ⟨call, memoized⟩ := own
  cases memoized with
  | false | true =>
    exact
      { config := tallied.config
        entered := congrArg (List.cons call) tallied.entered
        active := congrArg (List.cons call) tallied.active
        keys := tallied.keys
        once := tallied.once
        unstored
        distinct := List.nodup_cons.mpr ⟨new, tallied.distinct⟩ }

theorem closed (tallied : Tallied config ⟨machine, own :: pending, past⟩) (outcome : Except Failure Stored) :
    Tallied config
      ⟨(settle own.call own.memoized outcome machine).report own.call (.ended outcome), pending, past⟩ := by
  have distinct := List.nodup_cons.mp tallied.distinct
  have entered {added : List (Signal Stored)}
      (silent : openCalls (added ++ (machine.journal ++ past)) = openCalls (machine.journal ++ past)) :
      openCalls (.step own.call machine.cursor.index (.ended outcome) ::
        (added ++ (machine.journal ++ past))) = pending.map Pending.call := by
    have opened : openCalls (machine.journal ++ past) = _ := tallied.entered
    rw [openCalls_ended, silent, opened]
    rfl
  have active : (popped machine).calls = pending.map Pending.call := by
    have inner := congrArg List.tail tallied.active
    simpa [Machine.calls, popped, Active.pop, List.map_tail] using inner
  have result := settled own.call own.memoized outcome machine
  generalize settle own.call own.memoized outcome machine = last at result ⊢
  have unstored : ∀ other ∈ pending, other.memoized = true →
      other.call ∉ puts (machine.journal ++ past) :=
    fun other member => tallied.unstored other (List.mem_cons_of_mem _ member)
  cases result with
  | withheld =>
    exact
      { config := tallied.config
        entered := @entered [_] rfl
        active
        keys := tallied.keys.trans (puts_ended outcome).symm
        once := (puts_ended outcome).symm ▸ tallied.once
        unstored := (puts_ended outcome).symm ▸ unstored
        distinct := distinct.2 }
  | dropped =>
    exact
      { config := tallied.config
        entered := @entered [] rfl
        active
        keys := tallied.keys.trans (puts_ended outcome).symm
        once := (puts_ended outcome).symm ▸ tallied.once
        unstored := (puts_ended outcome).symm ▸ unstored
        distinct := distinct.2 }
  | stored _ memo =>
    have new : own.call ∉ puts (machine.journal ++ past) := tallied.unstored own List.mem_cons_self memo
    exact
      { config := tallied.config
        entered := @entered [_] rfl
        active
        keys := (MemoTable.keys_insert (tallied.keys.symm ▸ new) _).trans
          ((congrArg (List.cons own.call) tallied.keys).trans (puts_stored _ outcome).symm)
        once := (puts_stored _ outcome).symm ▸ List.nodup_cons.mpr ⟨new, tallied.once⟩
        unstored := by
          intro other member memo
          refine (puts_stored _ outcome).symm ▸ List.not_mem_cons_of_ne_of_not_mem ?_ (unstored other member memo)
          rintro same
          exact distinct.1 (same ▸ List.mem_map_of_mem member)
        distinct := distinct.2 }

theorem answered (tallied : Tallied config ⟨machine, pending, past⟩) {last : Machine Stored}
    {outcome : Except Failure Stored} {index : Nat} {checks : List (Signal Stored)}
    (same : last.journal = .step call index (.ended outcome) :: (checks ++ machine.journal))
    (silent : openCalls (checks ++ (machine.journal ++ past)) = call :: openCalls (machine.journal ++ past))
    (unstored : puts (checks ++ (machine.journal ++ past)) = puts (machine.journal ++ past))
    (settings : last.config = machine.config) (memo : last.memo = machine.memo)
    (calls : last.calls = machine.calls) : Tallied config ⟨last, pending, past⟩ := by
  have history : Moment.history ⟨last, pending, past⟩ =
      .step call index (.ended outcome) :: (checks ++ (machine.journal ++ past)) := by
    simp [Moment.history, same]
  have stored : puts (Moment.history ⟨last, pending, past⟩) = puts (machine.journal ++ past) := by
    rw [history, puts_ended, unstored]
  exact
    { config := settings.trans tallied.config
      entered := by
        rw [history, openCalls_ended, silent]
        exact tallied.entered
      active := calls.trans tallied.active
      keys := (congrArg (List.map Prod.fst ∘ MemoTable.entries) memo).trans
        (tallied.keys.trans stored.symm)
      once := stored.symm ▸ tallied.once
      unstored := stored.symm ▸ tallied.unstored
      distinct := tallied.distinct }

end Tallied

theorem Next.tallied {config : Config} (next : Next grammar before after)
    (outside : BoundOutside after.history) (tallied : before.Tallied config) : after.Tallied config := by
  cases next with
  | aside | handed => exact { tallied with }
  | told _ idle => exact tallied.told idle
  | bound _ source => exact tallied.bound source (tallied.unopened outside)
  | hit outcome =>
    exact @Tallied.answered _ _ _ _ _ tallied _ _ _ [_, _] rfl rfl rfl rfl rfl rfl
  | @reentered machine pending past own activation cursor seeded outcome =>
    have calls : (machine.active.reenter own.call).activations.map Activation.call = machine.calls := by
      simp [Machine.calls, Active.reenter]
    obtain ⟨call, memoized⟩ := own
    cases memoized with
    | false => exact @Tallied.answered _ _ _ _ _ tallied _ _ _ [_, _] rfl rfl rfl rfl rfl calls
    | true => exact @Tallied.answered _ _ _ _ _ tallied _ _ _ [_, _, _] rfl rfl rfl rfl rfl calls
  | begun _ unknown inactive => exact tallied.begun unknown inactive
  | @regrown machine _ _ own _ seed =>
    have calls : (machine.active.plant seed).activations.map Activation.call = machine.calls := by
      simp [Machine.calls, Active.plant]
    exact { tallied with active := calls.trans tallied.active }
  | closed outcome => exact tallied.closed outcome

theorem Passes.tallied {config : Config} (passes : Passes grammar before after)
    (outside : BoundOutside after.history) (tallied : before.Tallied config) : after.Tallied config := by
  induction passes with
  | refl => exact tallied
  | tail _ next ih =>
    obtain ⟨added, same⟩ := next.history
    exact next.tallied outside (ih (same ▸ outside).older)

section Lasting

variable {config : Config} {call : Call} {verdict : Verdict Stored} {added : List (Signal Stored)}

theorem Next.keeps (next : Next grammar before after) (same : after.history = added ++ before.history)
    (unbound : Unbound added) (tallied : before.Tallied config)
    (stored : before.machine.memo.find? call = some verdict) :
    after.machine.memo.find? call = some verdict := by
  cases next with
  | aside | handed | told | hit | regrown => exact stored
  | bound _ source =>
    have only : [.bound source] ++ before.history = added ++ before.history := same
    obtain rfl := List.append_cancel_right only
    exact absurd List.mem_cons_self (unbound source)
  | @reentered _ _ _ own | @begun _ _ _ own =>
    obtain ⟨other, memoized⟩ := own
    cases memoized <;> exact stored
  | @closed machine pending past own outcome =>
    have result := settled own.call own.memoized outcome machine
    generalize settle own.call own.memoized outcome machine = last at result ⊢
    cases result with
    | withheld | dropped => exact stored
    | stored _ memo =>
      refine (MemoTable.find?_insert_of_ne _ _ ?_).trans stored
      -- The call that is closed has not been stored before.
      rintro rfl
      exact tallied.unstored own List.mem_cons_self memo ((tallied.find?_isSome _).mp (by simp [stored]))

theorem Passes.keeps (passes : Passes grammar before after) (same : after.history = added ++ before.history)
    (unbound : Unbound added) (outside : BoundOutside after.history) (tallied : before.Tallied config)
    (stored : before.machine.memo.find? call = some verdict) :
    after.machine.memo.find? call = some verdict := by
  induction passes generalizing added with
  | refl => exact stored
  | tail led next ih =>
    obtain ⟨more, first⟩ := Passes.history led
    obtain ⟨last, second⟩ := next.history
    obtain rfl : added = last ++ more :=
      List.append_cancel_right (by rw [← same, second, first, List.append_assoc])
    rw [Unbound.append] at unbound
    have earlier := (second ▸ outside).older
    exact next.keeps second unbound.1 (Passes.tallied led earlier tallied) (ih first unbound.2 earlier)

end Lasting

end Moment

end Packrat
