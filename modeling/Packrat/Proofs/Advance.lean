import Packrat.Proofs.Bookkeeping

set_option autoImplicit false

namespace Packrat

variable {ν : Type}

/-- What the memo table and the seeds hold is final and can be reached from where its call
starts. -/
structure Machine.Sound (machine : Machine ν) : Prop where
  final : ∀ {call verdict}, machine.memo.find? call = some verdict →
    verdict.outcome ≠ .error .exhausted
  memo : ∀ {call verdict}, machine.memo.find? call = some verdict →
    machine.source.Reaches call.cursor verdict.cursor
  seeds : ∀ {activation seed}, activation ∈ machine.active.activations →
    activation.seed = some seed → machine.source.Reaches activation.call.cursor seed.cursor

structure Machine.Advanced (before after : Machine ν) : Prop where
  source : after.source = before.source
  sound : after.Sound
  reaches : before.source.Reaches before.cursor after.cursor

namespace Machine

variable {before middle after machine : Machine ν}

theorem Sound.fresh (source : Source) (config : Config) (cursor : Cursor) :
    Machine.Sound (ν := ν) { source, config, cursor } where
  final found := by simp [MemoTable.find?_eq, MemoTable.entries] at found
  memo found := by simp [MemoTable.find?_eq, MemoTable.entries] at found
  seeds member := by simp at member

theorem Sound.follows (sound : before.Sound) (source : after.source = before.source)
    (memo : after.memo = before.memo)
    (follows : List.Forall₂ Activation.Follows before.active.activations
      after.active.activations) : after.Sound where
  final found := sound.final (memo ▸ found)
  memo found := source ▸ sound.memo (memo ▸ found)
  seeds {activation seed} member seeded := by
    obtain ⟨former, present, same⟩ := Activation.exists_former follows member
    rw [source, same.call]
    exact sound.seeds present (same.seed ▸ seeded)

namespace Advanced

theorem refl (sound : machine.Sound) : machine.Advanced machine :=
  ⟨rfl, sound, .refl _ _⟩

theorem trans (first : before.Advanced middle) (second : middle.Advanced after) :
    before.Advanced after where
  source := second.source.trans first.source
  sound := second.sound
  reaches := first.reaches.trans (first.source ▸ second.reaches)

theorem moveTo {cursor : Cursor} (advanced : before.Advanced after)
    (reaches : before.source.Reaches before.cursor cursor) :
    before.Advanced (after.moveTo cursor) where
  source := advanced.source
  sound := { advanced.sound with }
  reaches := reaches

theorem back (advanced : before.Advanced after) : before.Advanced (after.moveTo before.cursor) :=
  advanced.moveTo (.refl _ _)

theorem register (advanced : before.Advanced after) (index : Nat) (label : String) :
    before.Advanced (after.register index label) :=
  { advanced with sound := { advanced.sound with } }

theorem expect (advanced : before.Advanced after) (label : Option (Nat × String)) :
    before.Advanced (after.expect label) := by
  cases label with
  | none => exact advanced
  | some label => exact advanced.register label.1 label.2

theorem report (advanced : before.Advanced after) (call : Call) (step : Step ν) :
    before.Advanced (after.report call step) :=
  { advanced with sound := { advanced.sound with } }

theorem dropFrame {index : Nat} (advanced : (before.pushFrame index).Advanced after) :
    before.Advanced after.dropFrame :=
  { advanced with sound := { advanced.sound with } }

end Advanced

structure Further (before after : Machine ν) : Prop where
  later : before.Later after
  advanced : before.Advanced after

namespace Further

theorem refl (sound : machine.Sound) : machine.Further machine :=
  ⟨.refl machine, .refl sound⟩

theorem trans (first : before.Further middle) (second : middle.Further after) :
    before.Further after :=
  ⟨first.later.trans second.later, first.advanced.trans second.advanced⟩

theorem moveTo {cursor : Cursor} (further : before.Further after)
    (reaches : before.source.Reaches before.cursor cursor) : before.Further (after.moveTo cursor) :=
  ⟨further.later.moveTo cursor, further.advanced.moveTo reaches⟩

theorem register (further : before.Further after) (index : Nat) (label : String) :
    before.Further (after.register index label) :=
  ⟨further.later.register index label, further.advanced.register index label⟩

end Further

end Machine

namespace Parser

variable {α β : Type}

def Advances (parser : Parser ν α) : Prop :=
  ∀ machine : Machine ν, machine.Sound → machine.Advanced (Ending.machine (parser machine))

theorem advances_stop : Advances (fail .exhausted : Parser ν α) :=
  fun _ => .refl

theorem course_advanced : Course (ν := ν) Machine.Sound Machine.Advanced where
  refl := .refl
  trans := .trans
  ready _ advanced := advanced.sound
  moveTo := .moveTo
  register index label advanced := advanced.register index label
  pushFrame _ sound := { sound with }
  dropFrame := .dropFrame
  setLevel _ sound := { sound with }
  putBack advanced :=
    ⟨advanced.source, { advanced.sound with }, advanced.reaches.setLevel⟩

theorem advances_blocks : Closed (ν := ν) fun _ parser => Advances parser :=
  course_advanced.closed

section Invoke

variable {codec : Codec ν α} {call : Call} {body : Parser ν α} {start machine : Machine ν}

theorem reaches_seed {seed : Seed ν} {activation : Activation ν} (sound : machine.Sound)
    (own : machine.calls.head? = some call)
    (innermost : machine.active.innermost? = some activation)
    (seeded : activation.seed = some seed) : machine.source.Reaches call.cursor seed.cursor := by
  have same : activation.call = call := by
    simpa [Machine.calls, ← Active.innermost?.eq_def, innermost] using own
  exact same ▸ sound.seeds (List.mem_of_head? innermost) seeded

theorem advanced_replant {value : α} (advanced : start.Advanced machine)
    (origin : start.cursor = call.cursor) (own : machine.calls.head? = some call) :
    start.Advanced (replant codec call value machine) where
  source := advanced.source
  sound :=
    { advanced.sound with
      seeds := by
        intro activation seed member seeded
        simp only [replant, Active.plant] at member
        cases active : machine.active.activations with
        | nil => simp [active, Activation.plant] at member
        | cons innermost outer =>
          simp only [active, Activation.plant, List.mem_cons] at member
          rcases member with rfl | member
          next =>
            obtain rfl : innermost.call = call := by simpa [Machine.calls, active] using own
            cases seeded
            have reaches := advanced.reaches
            rwa [origin, ← advanced.source] at reaches
          next => exact advanced.sound.seeds (by simp [active, member]) seeded }
  reaches := origin ▸ .refl _ _

theorem advanced_round (codec : Codec ν α) {ending : Ending ν α}
    (advanced : start.Advanced ending.machine) (origin : start.cursor = call.cursor)
    (own : ending.machine.calls.head? = some call) :
    start.Advanced (round codec call ending).machine := by
  have seeded {activation : Activation ν} {seed : Seed ν}
      (innermost : ending.machine.active.innermost? = some activation)
      (seeded : activation.seed = some seed) :
      start.Advanced (Ending.machine (useSeed codec call seed ending.machine)) := by
    rw [machine_useSeed]
    refine advanced.moveTo ?_
    rw [origin, ← advanced.source]
    exact reaches_seed advanced.sound own innermost seeded
  cases ending with
  | error failure after =>
    simp only [round]
    cases found : after.active.innermost?.bind Activation.seed with
    | none => exact advanced
    | some seed =>
      obtain ⟨activation, innermost, has⟩ := Option.bind_eq_some_iff.mp found
      cases failure.recoverable with
      | false => exact advanced
      | true => exact seeded innermost has
  | ok value after =>
    simp only [round]
    cases innermost : after.active.innermost? with
    | none => exact advanced
    | some activation =>
      simp only
      split
      next => exact advanced
      next =>
        split
        next seed has => exact seeded innermost (Option.eq_some_of_filter_eq_some has)
        next => exact advanced_replant advanced origin own

theorem cursor_of_again {ending : Ending ν α} {next : Machine ν}
    (again : round codec call ending = .again next) : next.cursor = call.cursor := by
  obtain ⟨value, after, _, rfl, rfl, _⟩ := round_again again
  rfl

theorem advanced_grow (codec : Codec ν α) (orderly : Orderly body) (advances : Advances body)
    (n : Nat) (sound : machine.Sound) (origin : machine.cursor = call.cursor)
    (own : machine.calls.head? = some call) :
    machine.Advanced (Ending.machine (grow codec call body n machine)) := by
  induction n generalizing machine with
  | zero => exact .refl sound
  | succ n ih =>
    have ran : (Ending.machine (body machine)).calls.head? = some call :=
      (orderly machine).calls ▸ own
    have first := advanced_round codec (advances machine sound) origin ran
    have calls := (inside_round codec call (body machine)).calls
    rw [grow_succ]
    cases result : round codec call (body machine) with
    | done ending => rwa [result] at first
    | again next =>
      rw [result] at first calls
      exact first.trans (ih first.sound (cursor_of_again result) (calls ▸ ran))

theorem advanced_settle {memoized : Bool} {outcome : Except Failure ν}
    (advanced : start.Advanced machine) (origin : start.cursor = call.cursor) :
    start.Advanced (settle call memoized outcome machine) := by
  have closed : start.Advanced (popped machine) :=
    { advanced with
      sound :=
        { advanced.sound with
          seeds := fun member => advanced.sound.seeds (List.mem_of_mem_tail member) } }
  have reaches : machine.source.Reaches call.cursor machine.cursor := by
    rw [← origin, advanced.source]
    exact advanced.reaches
  have result := settled call memoized outcome machine
  generalize settle call memoized outcome machine = last at result ⊢
  cases result with
  | withheld => exact closed.report _ _
  | dropped => exact closed
  | stored _ _ final =>
    have stored {other : Call} {verdict : Verdict ν}
        (found : (stashed call outcome machine).memo.find? other = some verdict) :
        verdict.outcome ≠ .error .exhausted ∧
          machine.source.Reaches other.cursor verdict.cursor := by
      rcases MemoTable.of_find?_insert found with ⟨rfl, rfl⟩ | earlier
      next =>
        refine ⟨fun exhausted => ?_, reaches⟩
        cases final .exhausted exhausted
      next => exact ⟨advanced.sound.final earlier, advanced.sound.memo earlier⟩
    have inserted : start.Advanced (stashed call outcome machine) :=
      { closed with
        sound :=
          { closed.sound with
            final := fun found => (stored found).1
            memo := fun found => (stored found).2 } }
    exact inserted.report _ _

theorem sound_opened (sound : machine.Sound) (call : Call) : (opened call machine).Sound :=
  { sound with
    seeds := by
      intro activation seed member seeded
      simp only [opened, Active.push, List.mem_cons] at member
      rcases member with rfl | member
      next => cases seeded
      next => exact sound.seeds member seeded }

theorem advanced_activate (orderly : Orderly body) (advances : Advances body) (n : Nat)
    (memoized : Bool) (sound : machine.Sound) (origin : machine.cursor = call.cursor) :
    machine.Advanced (Ending.machine (activate codec call memoized body n machine)) := by
  have grown : machine.Advanced (Ending.machine (grow codec call body n (opened call machine))) :=
    { advanced_grow codec orderly advances n (sound_opened sound call) origin rfl with }
  rw [activate_eq]
  cases ending : grow codec call body n (opened call machine) with
  | ok value after =>
    rw [ending] at grown
    exact advanced_settle grown origin
  | error failure after =>
    rw [ending] at grown
    exact advanced_settle (grown.moveTo (origin ▸ .refl _ _)) origin

theorem advanced_reenter {activation : Activation ν} (sound : machine.Sound)
    (origin : machine.cursor = call.cursor) (found : machine.active.find? call = some activation) :
    machine.Advanced (Ending.machine (reenter codec call activation machine)) := by
  obtain ⟨member, own⟩ := mem_of_find? found
  have marked : machine.Advanced { machine with active := machine.active.reenter call } :=
    ⟨rfl, sound.follows rfl rfl (Activation.follows_reenter call _), .refl _ _⟩
  simp only [reenter]
  cases seeded : activation.seed with
  | none => exact marked.report _ _
  | some seed =>
    simp only [machine_useSeed]
    refine (marked.report _ _).moveTo ?_
    rw [origin, ← own]
    exact sound.seeds member seeded

theorem advanced_evaluate (orderly : Orderly body) (advances : Advances body) (n : Nat)
    (memoized : Bool) (sound : machine.Sound) (origin : machine.cursor = call.cursor) :
    machine.Advanced (Ending.machine (evaluate codec call memoized body n machine)) := by
  unfold evaluate
  split
  next found => exact advanced_reenter sound origin found
  next => exact advanced_activate orderly advances n memoized sound origin

theorem advanced_answer (codec : Codec ν α) (call : Call) (orderly : Orderly body)
    (advances : Advances body) (n : Nat) (memoized : Bool) (sound : machine.Sound)
    (origin : machine.cursor = call.cursor) :
    machine.Advanced (Ending.machine (answer codec call memoized body n machine)) := by
  unfold answer
  split
  next =>
    have checked (hit : Bool) := (Machine.Advanced.refl sound).report call (.checked hit)
    split
    next verdict found =>
      rw [machine_replay]
      exact ⟨rfl, { sound with }, origin ▸ sound.memo found⟩
    next =>
      exact (checked false).trans
        (advanced_evaluate orderly advances n memoized (checked false).sound origin)
  next => exact advanced_evaluate orderly advances n memoized sound origin

theorem Advances.invoke (advances : Advances body) (orderly : Orderly body) (codec : Codec ν α)
    (rule : Rule) (args : List Arg) (n : Nat) : Advances (invoke codec rule args body n) := by
  intro machine sound
  rw [invoke_eq]
  have entered := (Machine.Advanced.refl sound).report (callOf rule args machine) .entering
  generalize (rule.memoized && machine.config.memoize) = memoized
  have answered := advanced_answer codec (callOf rule args machine) orderly advances n
    memoized entered.sound rfl
  cases ending : answer codec (callOf rule args machine) memoized body n
      (machine.report (callOf rule args machine) .entering) with
  | ok value after | error failure after =>
    rw [ending] at answered
    exact (entered.trans answered).report _ _

end Invoke

end Parser

namespace Grammar

open Packrat.Parser

theorem Pure.advances {grammar : Grammar} (pure : grammar.Pure)
    (n : Nat) (args : List Arg) {term : Term} (termPure : term.Pure) :
    Advances (term.parser grammar n args) :=
  pure.holds advances_blocks advances_stop
    (fun found advances => advances.invoke (pure.orderly _ _ (pure.body found)) _ _ _ _)
    n args termPure

end Grammar

end Packrat
