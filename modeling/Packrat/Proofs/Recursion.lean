import Packrat.Proofs.Locality
import Packrat.Proofs.Termination
import Packrat.Proofs.Visits

set_option autoImplicit false

namespace Packrat

variable {ν : Type}

def Reentered (call : Call) (journal : List (Signal ν)) : Prop :=
  ∃ index seeded, .step call index (.reentered seeded) ∈ journal

def Signal.retry? (call : Call) : Signal ν → Option Nat
  | .step other index .grew => if other = call then some index else none
  | _ => none

def retries (call : Call) (journal : List (Signal ν)) : List Nat :=
  journal.reverse.filterMap (Signal.retry? call)

theorem retries_append (call : Call) (added journal : List (Signal ν)) :
    retries call (added ++ journal) = retries call journal ++ retries call added := by
  simp [retries]

theorem retries_cons {call : Call} {signal : Signal ν} (other : signal.retry? call = none)
    (journal : List (Signal ν)) : retries call (signal :: journal) = retries call journal := by
  simp [retries, other]

theorem Reentered.append {call : Call} {added journal : List (Signal ν)} :
    Reentered call (added ++ journal) ↔ Reentered call added ∨ Reentered call journal := by
  simp [Reentered, exists_or]

structure Signal.Foreign (call : Call) (signal : Signal ν) : Prop where
  entering : signal.enters (only call) = false
  reentered : ¬ Reentered call [signal]
  grew : signal.retry? call = none

theorem Signal.foreign_of_ne {call other : Call} (different : other ≠ call) (index : Nat)
    (step : Step ν) : Signal.Foreign call (.step other index step) where
  entering := by cases step <;> simp [Signal.enters, only, different]
  reentered := by simp [Reentered, Ne.symm different]
  grew := by cases step <;> simp [Signal.retry?, different]

namespace Activation

def raised (call : Call) (activations : List (Activation ν)) : Bool :=
  (activations.find? fun activation => activation.call = call).any Activation.recursive

variable {call other : Call} {activations outer : List (Activation ν)}

theorem raised_cons_of_ne {activation : Activation ν} (different : activation.call ≠ call) :
    raised call (activation :: outer) = raised call outer := by
  simp [raised, different]

theorem raised_reenter_self (active : call ∈ activations.map Activation.call) :
    raised call (reenter call activations) = true := by
  induction activations with
  | nil => simp at active
  | cons activation outer ih =>
    by_cases same : activation.call = call
    next => simp [raised, reenter, same]
    next =>
      have inside : call ∈ outer.map Activation.call := by simpa [Ne.symm same] using active
      simpa [raised, reenter, same] using ih inside

theorem raised_reenter (before : raised call activations = true) :
    raised call (reenter other activations) = true := by
  induction activations with
  | nil => exact before
  | cons activation outer ih =>
    by_cases own : activation.call = call
    next => by_cases same : activation.call = other <;> simp_all [raised, reenter]
    next =>
      rw [raised_cons_of_ne own] at before
      by_cases same : activation.call = other
      next => simpa [reenter, same, raised, same ▸ own] using before
      next => simpa [reenter, same, raised, own] using ih before

end Activation

structure Machine.Marked (call : Call) (before after : Machine ν) : Prop where
  config : after.config = before.config
  calls : after.calls = before.calls
  raised : Activation.raised call before.active.activations = true →
    Activation.raised call after.active.activations = true
  journal : ∃ added, after.journal = added ++ before.journal ∧
    retries call added = [] ∧
    (0 < entries (only call) added ↔ Reentered call added) ∧
    (Reentered call added → Activation.raised call after.active.activations = true)

structure Machine.Holding (call : Call) (machine : Machine ν) : Prop where
  plain : machine.config.memoize = false
  active : call ∈ machine.calls

namespace Machine.Marked

variable {call : Call} {before middle after : Machine ν}

theorem still (config : after.config = before.config) (calls : after.calls = before.calls)
    (journal : after.journal = before.journal)
    (raised : Activation.raised call before.active.activations = true →
      Activation.raised call after.active.activations = true) : before.Marked call after :=
  ⟨config, calls, raised, [], journal, rfl, by simp [entries, Reentered], by simp [Reentered]⟩

theorem refl (call : Call) (machine : Machine ν) : machine.Marked call machine :=
  still rfl rfl rfl id

theorem trans (first : before.Marked call middle) (second : middle.Marked call after) :
    before.Marked call after where
  config := second.config.trans first.config
  calls := second.calls.trans first.calls
  raised := second.raised ∘ first.raised
  journal := by
    obtain ⟨added, same, quiet, entered, marked⟩ := first.journal
    obtain ⟨more, equal, silent, begun, raised⟩ := second.journal
    refine ⟨more ++ added, by rw [equal, same, List.append_assoc], ?_, ?_, ?_⟩
    next => rw [retries_append, quiet, silent, List.append_nil]
    next => rw [entries_append, Reentered.append, ← begun, ← entered, Nat.add_pos_iff_pos_or_pos]
    next =>
      rw [Reentered.append]
      rintro (again | again)
      next => exact raised again
      next => exact second.raised (marked again)

theorem write (marked : before.Marked call after) {signal : Signal ν}
    (foreign : signal.Foreign call) : before.Marked call (after.write signal) :=
  marked.trans
    { refl call after with
      journal := by
        refine ⟨[signal], rfl, ?_, ?_, fun again => absurd again foreign.reentered⟩
        next => simp [retries, foreign.grew]
        next => simp [entries, foreign.entering, foreign.reentered] }

theorem report (marked : before.Marked call after) {other : Call} (different : other ≠ call)
    (step : Step ν) : before.Marked call (after.report other step) :=
  marked.write (Signal.foreign_of_ne different _ step)

theorem register (marked : before.Marked call after) (index : Nat) (label : String) :
    before.Marked call (after.register index label) :=
  { marked.write (⟨rfl, by simp [Reentered], rfl⟩ : Signal.Foreign call (.expected index label)) with }

theorem holding (marked : before.Marked call after) (holding : before.Holding call) :
    after.Holding call :=
  ⟨marked.config ▸ holding.plain, marked.calls ▸ holding.active⟩

end Machine.Marked

theorem course_marked (call : Call) :
    Parser.Course (ν := ν) (Machine.Holding call) (Machine.Marked call) where
  refl _ := .refl call _
  trans := .trans
  ready holding marked := marked.holding holding
  moveTo marked _ := { marked with }
  register index label marked := marked.register index label
  pushFrame _ holding := { holding with }
  dropFrame marked := { marked with }
  setLevel _ holding := { holding with }
  putBack marked := { marked with }

namespace Parser

variable {α : Type}

def Marks (call : Call) (parser : Parser ν α) : Prop :=
  ∀ machine : Machine ν, machine.Holding call →
    machine.Marked call (Ending.machine (parser machine))

theorem Marks.stop (call : Call) : Marks call (fail .exhausted : Parser ν α) :=
  fun machine _ => .refl call machine

section Invoke

variable {codec : Codec ν α} {call other : Call} {body : Parser ν α} {machine : Machine ν}

theorem marked_replant (codec : Codec ν α) (different : other ≠ call)
    (own : machine.calls.head? = some other) (value : α) :
    machine.Marked call (replant codec other value machine) := by
  have planted : machine.Marked call { machine with
      active := machine.active.plant { value := codec.encode value, cursor := machine.cursor } } := by
    refine .still rfl (Activation.calls_plant _ _) rfl ?_
    simp only [Machine.calls, Active.plant] at own ⊢
    cases active : machine.active.activations with
    | nil => exact id
    | cons activation outer =>
      have inner : activation.call = other := by simpa [active] using own
      have apart : activation.call ≠ call := inner ▸ different
      simp [Activation.plant, Activation.raised, apart]
  exact { planted.report different .grew with }

theorem marked_round (codec : Codec ν α) (different : other ≠ call) {ending : Ending ν α}
    (own : ending.machine.calls.head? = some other) :
    ending.machine.Marked call (round codec other ending).machine := by
  have stay := Machine.Marked.refl call ending.machine
  have moved (seed : Seed ν) : ending.machine.Marked call
      (Ending.machine (useSeed codec other seed ending.machine)) := by
    rw [machine_useSeed]
    exact { stay with }
  cases ending with
  | error failure after =>
    simp only [round]
    repeat' split
    all_goals first | exact stay | exact moved _
  | ok value after =>
    simp only [round]
    repeat' split
    all_goals first | exact stay | exact moved _ | exact marked_replant codec different own value

theorem Marks.grow (marks : Marks call body) (codec : Codec ν α) (different : other ≠ call) (n : Nat)
    (holding : machine.Holding call) (own : machine.calls.head? = some other) :
    machine.Marked call (Ending.machine (grow codec other body n machine)) := by
  induction n generalizing machine with
  | zero => exact .refl call machine
  | succ n ih =>
    have ran := marks machine holding
    have first := ran.trans (marked_round codec different (ran.calls ▸ own))
    rw [grow_succ]
    cases result : round codec other (body machine) with
    | done ending => rwa [result] at first
    | again next =>
      rw [result] at first
      exact first.trans (ih (first.holding holding) (first.calls.symm ▸ own))

theorem Marks.activate (marks : Marks call body) (codec : Codec ν α) (different : other ≠ call)
    (n : Nat) (holding : machine.Holding call) :
    machine.Marked call (Ending.machine (Parser.activate codec other false body n machine)) := by
  have inside : (opened other machine).Holding call :=
    ⟨holding.plain, List.mem_cons_of_mem _ holding.active⟩
  have grown : (opened other machine).Marked call
      (rewound other (Parser.grow codec other body n (opened other machine))) := by
    have rounds := marks.grow codec different n inside rfl
    generalize Parser.grow codec other body n (opened other machine) = ending at rounds
    cases ending <;> exact { rounds with }
  rw [activate_eq, machine_close]
  generalize Except.map codec.encode _ = outcome
  generalize rewound other (Parser.grow codec other body n (opened other machine)) = last at grown
  -- The activation that is popped is the one that was pushed.
  have around (activations : List (Activation ν))
      (calls : activations.map Activation.call = other :: machine.calls) :
      Activation.raised call activations.tail = Activation.raised call activations := by
    cases activations with
    | nil => rfl
    | cons activation outer =>
      have own : activation.call = other := by simpa using congrArg List.head? calls
      exact (Activation.raised_cons_of_ne (own ▸ different)).symm
  have closed : machine.Marked call (popped last) :=
    { grown with
      calls := by
        have calls := congrArg List.tail grown.calls
        simpa [popped, Machine.calls, Active.pop, opened, Active.push] using calls
      raised := by
        intro before
        rw [popped, Active.pop, around _ grown.calls]
        exact grown.raised (by rwa [opened, Active.push, Activation.raised_cons_of_ne different])
      journal := by
        rw [popped, Active.pop, around _ grown.calls]
        exact grown.journal }
  have result := settled other false outcome last
  generalize settle other false outcome last = final at result ⊢
  cases result with
  | withheld => exact closed.report different .withheld
  | stored _ memo => cases memo
  | dropped => exact closed

theorem marked_reenter {before : Machine ν} (codec : Codec ν α) (activation : Activation ν)
    (again : before.Marked call ({ machine with active := machine.active.reenter other }.report other
      (.reentered activation.seed.isSome))) :
    before.Marked call (Ending.machine (reenter codec other activation machine)) := by
  obtain ⟨cursor, ran⟩ := machine_reenter codec other activation machine
  rw [ran]
  exact { again with }

theorem marked_reported {before : Machine ν} (codec : Codec ν α) (other : Call) {ending : Ending ν α}
    (marked : before.Marked call ending.machine) :
    before.Marked call (reported codec other ending).machine := by
  cases ending with
  | ok value after => exact marked.write ⟨rfl, by simp [Reentered], rfl⟩
  | error failure after => exact marked.write ⟨rfl, by simp [Reentered], rfl⟩

theorem marked_again (codec : Codec ν α) (body : Parser ν α) (n : Nat)
    (holding : machine.Holding call) :
    machine.Marked call (Ending.machine
      (evaluate codec call false body n (machine.report call .entering))) := by
  unfold evaluate
  cases found : (machine.report call .entering).active.find? call with
  | none => exact absurd holding.active (inactive_of_find? found)
  | some activation =>
    refine marked_reenter codec activation ⟨rfl, Activation.calls_reenter _ _, ?_, ?_⟩
    next => exact fun _ => Activation.raised_reenter_self holding.active
    next =>
      refine ⟨[_, _], rfl, rfl, ?_, fun _ => Activation.raised_reenter_self holding.active⟩
      simp [entries, Signal.enters, only, Reentered]

theorem Marks.evaluate (marks : Marks call body) (codec : Codec ν α) (different : other ≠ call)
    (n : Nat) (holding : machine.Holding call) :
    machine.Marked call (Ending.machine (Parser.evaluate codec other false body n machine)) := by
  unfold Parser.evaluate
  cases machine.active.find? other with
  | none => exact marks.activate codec different n holding
  | some activation =>
    have again : machine.Marked call { machine with active := machine.active.reenter other } :=
      .still rfl (Activation.calls_reenter _ _) rfl Activation.raised_reenter
    exact marked_reenter codec activation (again.report different _)

theorem Marks.invoke (marks : Marks call body) (codec : Codec ν α) (rule : Rule) (args : List Arg)
    (n : Nat) : Marks call (invoke codec rule args body n) := by
  intro machine holding
  rw [invoke_eq, holding.plain, Bool.and_false]
  refine marked_reported codec _ ?_
  by_cases same : callOf rule args machine = call
  next => rw [same]; exact marked_again codec body n holding
  next =>
    have entered := (Machine.Marked.refl call machine).report same .entering
    exact entered.trans (marks.evaluate codec same n (entered.holding holding))

end Invoke

end Parser

structure Run (ν α : Type) where
  start : Machine ν
  ending : Ending ν α

namespace Run

variable {α : Type}

def Reenters (call : Call) (run : Run ν α) : Prop :=
  ∃ added, run.ending.machine.journal = added ++ run.start.journal ∧ Reentered call added

def seed? (run : Run ν α) : Option (Seed ν) :=
  run.start.active.innermost?.bind Activation.seed

end Run

namespace Parser

variable {α : Type}

/-- The runs of a body until its result is final, in order. -/
def runs (codec : Codec ν α) (call : Call) (body : Parser ν α) :
    Nat → Machine ν → List (Run ν α)
  | 0, _ => []
  | n + 1, machine =>
    { start := machine, ending := body machine } ::
      match round codec call (body machine) with
      | .done _ => []
      | .again next => runs codec call body n next

structure Restarts (call : Call) (first next : Machine ν) : Prop where
  source : next.source = first.source
  config : next.config = first.config
  cursor : next.cursor = first.cursor
  calls : next.calls = first.calls
  seeds : ∀ other, other ≠ call →
    seedIn first.active.activations other = seedIn next.active.activations other

theorem seedIn_tail {call other : Call} {activations : List (Activation ν)}
    (own : (activations.map Activation.call).head? = some call) (different : other ≠ call) :
    seedIn activations other = seedIn activations.tail other := by
  cases activations with
  | nil => rfl
  | cons activation outer =>
    have same : activation.call = call := by simpa using own
    simp [seedIn, same, Ne.symm different]

section Runs

variable {codec : Codec ν α} {call : Call} {body : Parser ν α} {first start machine : Machine ν}

theorem seed_later {before after : Machine ν} (later : before.Later after) :
    after.active.innermost?.bind Activation.seed =
      before.active.innermost?.bind Activation.seed := by
  have follows := later.active.follows
  unfold Active.innermost?
  generalize before.active.activations = activations, after.active.activations = others at follows
  cases follows with
  | nil => rfl
  | cons same _ => exact same.seed

theorem seed_replant (codec : Codec ν α) (own : machine.calls.head? = some call) (value : α) :
    (replant codec call value machine).active.innermost?.bind Activation.seed =
      some { value := codec.encode value, cursor := machine.cursor } := by
  simp only [Machine.calls] at own
  cases active : machine.active.activations with
  | nil => simp [active] at own
  | cons activation outer => simp [replant, Active.plant, Active.innermost?, active, Activation.plant]

theorem Restarts.again (orderly : Orderly body) (restarts : Restarts call first start)
    (origin : first.cursor = call.cursor) (own : first.calls.head? = some call) {next : Machine ν}
    (again : round codec call (body start) = .again next) : Restarts call first next := by
  have inside := (orderly start).inside.trans (inside_round codec call (body start))
  rw [again] at inside
  refine ⟨inside.source.trans restarts.source, inside.config.trans restarts.config,
    (cursor_of_again again).trans origin.symm, inside.calls.trans restarts.calls, ?_⟩
  intro other different
  have began : start.calls.head? = some call := restarts.calls ▸ own
  have later : next.calls.head? = some call := inside.calls.symm ▸ began
  rw [restarts.seeds other different, seedIn_tail began different, seedIn_tail later different]
  exact (seedIn_of_follows inside.active.outer other).symm

theorem Restarts.reenters (restarts : Restarts call first start) (isLocal : Local body)
    (marks : Marks call body) (holding : first.Holding call)
    (again : Run.Reenters call ⟨first, body first⟩) : Run.Reenters call ⟨start, body start⟩ := by
  have beside : Beside ⟨only call, entries (only call) first.journal,
      entries (only call) start.journal⟩ False [] first.active.activations
      start.active.activations first start :=
    { source := restarts.source
      cursor := restarts.cursor
      frame := False.elim
      first := rfl
      second := rfl
      seeds := fun other unwatched => restarts.seeds other (by simpa [only] using unwatched)
      plain := ⟨holding.plain, restarts.config ▸ holding.plain⟩
      entered := ⟨rfl, rfl⟩ }
  -- Both runs do the same until the call is made again.
  obtain ⟨added, same, _, entered, _⟩ := (marks first holding).journal
  obtain ⟨more, equal, _, begun, _⟩ :=
    (marks start ⟨restarts.config ▸ holding.plain, restarts.calls ▸ holding.active⟩).journal
  obtain ⟨_, split, reentered⟩ := again
  obtain rfl := List.append_cancel_right (same.symm.trans split)
  have count := entered.mpr reentered
  refine ⟨more, equal, begun.mp ?_⟩
  rcases isLocal.alike beside with met | matched
  next =>
    have later : entries (only call) start.journal <
        entries (only call) (Ending.machine (body start)).journal := met.2
    rw [equal, entries_append] at later
    omega
  next =>
    -- The runs match only if neither has made the call.
    have none : entries (only call) (Ending.machine (body first)).journal =
        entries (only call) first.journal := matched.entered.1
    rw [same, entries_append] at none
    omega

theorem round_done {ending : Ending ν α} {value : α} {last : Machine ν}
    (done : round codec call ending = .done (.ok value last))
    (recursive : ∃ activation, ending.machine.active.innermost? = some activation ∧
      activation.recursive = true) :
    ∃ seed, ending.machine.active.innermost?.bind Activation.seed = some seed ∧
      codec.decode seed.value = some value ∧ last.cursor = seed.cursor ∧
      ∀ found after, ending = .ok found after → after.cursor.index ≤ seed.cursor.index := by
  obtain ⟨activation, innermost, raised⟩ := recursive
  have used {seed : Seed ν} {machine : Machine ν}
      (same : useSeed codec call seed machine = .ok value last) :
      codec.decode seed.value = some value ∧ last.cursor = seed.cursor := by
    unfold useSeed Codec.read at same
    cases read : codec.decode seed.value <;> rw [read] at same <;> cases same
    exact ⟨rfl, rfl⟩
  cases ending with
  | error failure after =>
    simp only [round] at done
    split at done
    next seed seeded =>
      split at done
      next =>
        obtain ⟨read, moved⟩ := used (Round.done.inj done)
        exact ⟨seed, seeded, read, moved, by simp⟩
      next => cases done
    next => cases done
  | ok found after =>
    have active : after.active.innermost? = some activation := innermost
    simp only [round, active, raised, Bool.not_true, Bool.false_eq_true, if_false] at done
    split at done
    next seed kept =>
      obtain ⟨read, moved⟩ := used (Round.done.inj done)
      obtain ⟨seeded, shorter⟩ := Option.filter_eq_some_iff.mp kept
      refine ⟨seed, by simpa [active] using seeded, read, moved, ?_⟩
      rintro _ _ ⟨⟩
      simpa using shorter
    next => cases done

structure Grows (codec : Codec ν α) (call : Call) (start : Machine ν) (value : α)
    (after next : Machine ν) : Prop where
  config : next.config = start.config
  calls : next.calls = start.calls
  seed : next.active.innermost?.bind Activation.seed =
    some { value := codec.encode value, cursor := after.cursor }
  journal : next.journal = .step call after.cursor.index .grew :: after.journal
  farther : ∀ seed, start.active.innermost?.bind Activation.seed = some seed →
    seed.cursor.index < after.cursor.index

theorem grows_of_again (orderly : Orderly body) (own : start.calls.head? = some call)
    {next : Machine ν} (again : round codec call (body start) = .again next) :
    ∃ value after, body start = .ok value after ∧ Grows codec call start value after next := by
  obtain ⟨value, after, activation, ended, rfl, innermost, farther⟩ := round_again again
  have later := orderly start
  rw [ended] at later
  have calls : after.calls = start.calls := later.calls
  refine ⟨value, after, ended, later.config, (Activation.calls_plant _ _).trans calls,
    seed_replant codec (calls ▸ own) value, rfl, fun seed seeded => farther seed ?_⟩
  have same : after.active.innermost?.bind Activation.seed = some seed :=
    (seed_later later).trans seeded
  rwa [innermost] at same

theorem raised_innermost (own : machine.calls.head? = some call)
    (raised : Activation.raised call machine.active.activations = true) :
    ∃ activation, machine.active.innermost? = some activation ∧ activation.recursive = true := by
  simp only [Machine.calls] at own
  cases active : machine.active.activations with
  | nil => simp [active] at own
  | cons activation outer =>
    have same : activation.call = call := by simpa [active] using own
    exact ⟨activation, by simp [Active.innermost?, active],
      by simpa [active, Activation.raised, same] using raised⟩

theorem runs_reenter (isLocal : Local body) (marks : Marks call body)
    (origin : first.cursor = call.cursor) (own : first.calls.head? = some call)
    (plain : first.config.memoize = false) (again : Run.Reenters call ⟨first, body first⟩)
    (codec : Codec ν α) (n : Nat) (restarts : Restarts call first start) :
    ∀ run ∈ runs codec call body n start, run.Reenters call := by
  induction n generalizing start with
  | zero => simp [runs]
  | succ n ih =>
    intro run member
    rcases List.mem_cons.mp member with rfl | member
    next => exact restarts.reenters isLocal marks ⟨plain, List.mem_of_head? own⟩ again
    next =>
      cases result : round codec call (body start) with
      | done ending => simp [result] at member
      | again next =>
        rw [result] at member
        exact ih (restarts.again isLocal.orderly origin own result) run member

theorem runs_longest (orderly : Orderly body) (marks : Marks call body)
    (plain : start.config.memoize = false) (own : start.calls.head? = some call) {n : Nat}
    (again : ∀ run ∈ runs codec call body n start, run.Reenters call) {value : α} {last : Machine ν}
    (grown : grow codec call body n start = .ok value last) :
    ∃ seed, (runs codec call body n start).getLast?.bind Run.seed? = some seed ∧
      codec.decode seed.value = some value ∧ last.cursor = seed.cursor ∧
      (∀ run ∈ runs codec call body n start, ∀ found after, run.ending = .ok found after →
        after.cursor.index ≤ seed.cursor.index) ∧
      ∀ earlier, start.active.innermost?.bind Activation.seed = some earlier →
        earlier.cursor.index ≤ seed.cursor.index := by
  -- Carried through the rounds: the seed that a run starts with is no longer than the last one.
  induction n generalizing start with
  | zero => cases grown
  | succ n ih =>
    rw [grow_succ] at grown
    cases result : round codec call (body start) with
    | done ending =>
      rw [result] at grown
      obtain ⟨added, same, _, _, raised⟩ :=
        (marks start ⟨plain, List.mem_of_head? own⟩).journal
      obtain ⟨_, split, reentered⟩ := again ⟨start, body start⟩ (by simp [runs])
      obtain rfl := List.append_cancel_right (same.symm.trans split)
      have ran : (Ending.machine (body start)).calls.head? = some call :=
        (orderly start).calls ▸ own
      obtain ⟨seed, kept, read, moved, farthest⟩ :=
        round_done (result.trans (congrArg Round.done grown)) (raised_innermost ran (raised reentered))
      rw [seed_later (orderly start)] at kept
      refine ⟨seed, ?_, read, moved, ?_, fun earlier before => ?_⟩
      next => simpa [runs, result, Run.seed?] using kept
      next => simpa [runs, result] using farthest
      next =>
        obtain rfl := Option.some.inj (before.symm.trans kept)
        exact Nat.le_refl _
    | again next =>
      rw [result] at grown
      obtain ⟨found, after, ended, grows⟩ := grows_of_again orderly own result
      have rest : runs codec call body (n + 1) start =
          ⟨start, body start⟩ :: runs codec call body n next := by
        simp [runs, result]
      obtain ⟨seed, kept, read, moved, farthest, longer⟩ := ih (grows.config ▸ plain)
        (grows.calls ▸ own) (fun run member => again run (rest ▸ List.mem_cons_of_mem _ member)) grown
      have reached : after.cursor.index ≤ seed.cursor.index := longer _ grows.seed
      refine ⟨seed, ?_, read, moved, fun run member other stop stopped => ?_, fun earlier before => ?_⟩
      next =>
        obtain ⟨final, isLast, has⟩ := Option.bind_eq_some_iff.mp kept
        rw [rest, List.getLast?_cons, isLast]
        exact has
      next =>
        rw [rest] at member
        rcases List.mem_cons.mp member with rfl | member
        next =>
          obtain ⟨rfl, rfl⟩ := EStateM.Result.ok.inj (ended.symm.trans stopped)
          exact reached
        next => exact farthest run member other stop stopped
      next => exact Nat.le_of_lt (Nat.lt_of_lt_of_le (grows.farther earlier before) reached)

theorem retries_grow (orderly : Orderly body) (marks : Marks call body)
    (plain : start.config.memoize = false) (own : start.calls.head? = some call) (n : Nat) :
    ∃ added, (Ending.machine (grow codec call body n start)).journal = added ++ start.journal ∧
      (retries call added).Pairwise (· < ·) ∧
      ∀ seed, start.active.innermost?.bind Activation.seed = some seed →
        ∀ index ∈ retries call added, seed.cursor.index < index := by
  -- A seed is only replaced by one that got farther, hence all that follow are beyond it.
  induction n generalizing start with
  | zero => exact ⟨[], rfl, by simp [retries], by simp [retries]⟩
  | succ n ih =>
    obtain ⟨added, same, quiet, _⟩ := (marks start ⟨plain, List.mem_of_head? own⟩).journal
    rw [grow_succ]
    cases result : round codec call (body start) with
    | done ending =>
      exact ⟨added, (journal_of_done result).trans same, by simp [quiet], by simp [quiet]⟩
    | again next =>
      obtain ⟨found, after, ended, grows⟩ := grows_of_again orderly own result
      obtain ⟨more, equal, increasing, farther⟩ := ih (grows.config ▸ plain) (grows.calls ▸ own)
      rw [ended] at same
      have all : retries call (more ++ .step call after.cursor.index .grew :: added) =
          after.cursor.index :: retries call more := by
        rw [retries_append, ← List.singleton_append, retries_append, quiet]
        simp [retries, Signal.retry?]
      have beyond := farther _ grows.seed
      refine ⟨more ++ .step call after.cursor.index .grew :: added, ?_, ?_, fun seed seeded => ?_⟩
      next => simp [equal, grows.journal, ← same]
      next => rw [all]; exact .cons beyond increasing
      next =>
        rw [all]
        have first := grows.farther seed seeded
        intro index member
        rcases List.mem_cons.mp member with rfl | member
        next => exact first
        next => exact Nat.lt_trans first (beyond index member)

/-- What an activation comes to, by the runs of its body. -/
structure LongestSeed (codec : Codec ν α) (call : Call) (attempts : List (Run ν α))
    (before : Machine ν) (ending : Ending ν α) : Prop where
  again : ∀ first, attempts.head? = some first → first.Reenters call →
    ∀ run ∈ attempts, run.Reenters call
  increasing : ∃ added, ending.machine.journal = added ++ before.journal ∧
    (retries call added).Pairwise (· < ·)
  -- A run that got no farther than the last seed is not returned in its place.
  longest : ∀ first, attempts.head? = some first → first.Reenters call →
    ∀ value last, ending = .ok value last →
      ∃ seed, attempts.getLast?.bind Run.seed? = some seed ∧
        codec.decode seed.value = some value ∧ last.cursor = seed.cursor ∧
        ∀ run ∈ attempts, ∀ found after, run.ending = .ok found after →
          after.cursor.index ≤ seed.cursor.index
  failed : ∀ first failure after, attempts.head? = some first →
    first.ending = .error failure after →
      ∃ last, ending = .error failure last ∧ last.cursor = before.cursor

theorem first_of_runs {n : Nat} {run : Run ν α}
    (head : (runs codec call body n start).head? = some run) :
    (∃ more, n = more + 1) ∧ run = ⟨start, body start⟩ := by
  cases n with
  | zero => cases head
  | succ n => exact ⟨⟨n, rfl⟩, (Option.some.inj head).symm⟩

theorem begins_plain {before : Machine ν} (begun : begins? call false before = some start) :
    start = opened call before := by
  unfold begins? at begun
  split at begun
  next => cases begun
  next =>
    split at begun
    next => cases begun
    next => exact (Option.some.inj begun).symm

theorem retries_closed (codec : Codec ν α) (call : Call) {before : Machine ν} {ending : Ending ν α}
    {added : List (Signal ν)}
    (grown : ending.machine.journal = added ++ (before.report call .entering).journal) :
    ∃ more, (reported codec call (close codec call false ending)).machine.journal =
      more ++ before.journal ∧ retries call more = retries call added := by
  have closed : ∃ more, (close codec call false ending).machine.journal = more ++ before.journal ∧
      retries call more = retries call added := by
    have result := settled call false (ending.outcome.map codec.encode) (rewound call ending)
    have entered : retries call (added ++ [.step call before.cursor.index .entering]) =
        retries call added := by
      rw [retries_append]
      rfl
    rw [machine_close]
    generalize settle call false _ (rewound call ending) = last at result ⊢
    cases result with
    | withheld =>
      refine ⟨.step call (popped (rewound call ending)).cursor.index .withheld ::
        (added ++ [.step call before.cursor.index .entering]), ?_, ?_⟩
      next => simp [Machine.report, Machine.write, popped, grown]
      next => rw [retries_cons rfl, entered]
    | stored _ memo => cases memo
    | dropped =>
      exact ⟨_, by simp [popped, grown, Machine.report, Machine.write], entered⟩
  obtain ⟨more, same, quiet⟩ := closed
  generalize close codec call false ending = last at same
  cases last with
  | ok value after =>
    exact ⟨_ :: more, congrArg (List.cons _) same, (retries_cons rfl more).trans quiet⟩
  | error failure after =>
    exact ⟨_ :: more, congrArg (List.cons _) same, (retries_cons rfl more).trans quiet⟩

theorem longest_seed (isLocal : Local body) (marks : ∀ call, Marks call body) (codec : Codec ν α)
    (rule : Rule) (args : List Arg) (n : Nat) (off : machine.config.memoize = false)
    (begun : begins? (callOf rule args machine) (rule.memoized && machine.config.memoize)
      (machine.report (callOf rule args machine) .entering) = some start) :
    LongestSeed codec (callOf rule args machine)
      (runs codec (callOf rule args machine) body n start) machine
      (invoke codec rule args body n machine) := by
  have answered := answer_begun codec body begun n
  rw [invoke_eq, answered]
  rw [off, Bool.and_false] at begun ⊢
  obtain rfl := begins_plain begun
  generalize own : callOf rule args machine = call
  generalize began : opened call (machine.report call .entering) = start
  have origin : start.cursor = call.cursor := began ▸ own ▸ rfl
  have back : machine.cursor = call.cursor := own ▸ rfl
  have head : start.calls.head? = some call := began ▸ rfl
  have plain : start.config.memoize = false := began ▸ off
  have unseeded : start.active.innermost?.bind Activation.seed = none := began ▸ rfl
  have journal : start.journal = (machine.report call .entering).journal := began ▸ rfl
  have reenter {first : Run ν α} (isFirst : (runs codec call body n start).head? = some first)
      (again : first.Reenters call) : ∀ run ∈ runs codec call body n start, run.Reenters call := by
    obtain ⟨_, rfl⟩ := first_of_runs isFirst
    exact runs_reenter isLocal (marks call) origin head plain again codec n
      ⟨rfl, rfl, rfl, rfl, fun _ _ => rfl⟩
  refine ⟨fun first => reenter, ?_, ?_, ?_⟩
  next =>
    obtain ⟨added, same, increasing, _⟩ :=
      @retries_grow _ _ codec _ _ _ isLocal.orderly (marks call) plain head n
    obtain ⟨more, equal, quiet⟩ := retries_closed codec call (journal ▸ same)
    exact ⟨more, equal, quiet ▸ increasing⟩
  next =>
    intro first isFirst again value last ended
    cases grown : grow codec call body n start with
    | error failure after =>
      rw [grown] at ended
      cases ended
    | ok found after =>
      rw [grown] at ended
      obtain ⟨seed, kept, read, moved, farthest, _⟩ :=
        runs_longest isLocal.orderly (marks call) plain head (reenter isFirst again) grown
      cases ended
      exact ⟨seed, kept, read, (popped_settle _ _ _ _).cursor.trans moved, farthest⟩
  next =>
    intro first failure after isFirst failed
    obtain ⟨⟨n, rfl⟩, rfl⟩ := first_of_runs isFirst
    have still := (seed_later (isLocal.orderly start)).trans unseeded
    have ended : body start = .error failure after := failed
    have grown : grow codec call body (n + 1) start = .error failure after := by
      rw [ended] at still
      have none : after.active.innermost?.bind Activation.seed = none := still
      rw [grow_succ, ended]
      simp only [round, none]
    rw [grown]
    exact ⟨_, rfl, (popped_settle _ _ _ _).cursor.trans back.symm⟩

end Runs

end Parser

namespace Grammar

open Packrat.Parser

theorem Pure.marks {grammar : Grammar} (pure : grammar.Pure) (call : Call) (n : Nat)
    (args : List Arg) {term : Term} (termPure : term.Pure) :
    Marks call (term.parser grammar n args) :=
  pure.holds (course_marked call).closed (Marks.stop call) (fun _ marks => Marks.invoke marks _ _ _ _)
    n args termPure

variable {grammar : Grammar}

theorem Pure.kept (pure : grammar.Pure) : Kept (fun _ _ => True) grammar Term.Pure where
  part := Term.Pure.part
  body := pure.body
  preserves n args _ termPure :=
    ⟨pure.orderly n args termPure, pure.advances n args termPure, fun _ _ _ => trivial⟩

/-- Without memoization, an activation that builds on itself ends with the longest seed that its runs
come to, however deep in a run it is and whatever other activations grow around it. -/
theorem Pure.returns_longest_seed (pure : grammar.Pure) {outer : Evaluation}
    (termPure : outer.term.Pure) (off : outer.machine.config.memoize = false) {n : Nat}
    {args passed : List Arg} {shape : Shape} {key : String} {argTerms : List ArgTerm}
    {definition : Definition} {call : Call} {machine start : Machine Stored}
    (visits : outer.Visits grammar ⟨n + 1, args, .call shape key argTerms, machine⟩)
    (found : grammar.find? key = some definition)
    (resolved : passed = argTerms.map (ArgTerm.resolve args))
    (own : call = callOf definition.rule passed machine)
    (begun : begins? call (definition.rule.memoized && machine.config.memoize)
      (machine.report call .entering) = some start) :
    LongestSeed (Stored.codec shape) call
      (runs (Stored.codec shape) call (definition.body.parser grammar n passed) n start) machine
      ((Term.call shape key argTerms).parser grammar (n + 1) args machine) := by
  subst resolved own
  have plain : machine.config.memoize = false :=
    (pure.kept.visits visits termPure).2.config ▸ off
  have bodyPure := pure.body found
  rw [Term.parser_call found]
  exact longest_seed (pure.isLocal n _ bodyPure) (fun call => pure.marks call n _ bodyPure) _ _ _ n
    plain begun

def crossingCall : Call where
  cursor := {}
  rule := { grammar := "crossed", rule := "A" }

def crossing : Machine Stored :=
  .start (.ofString "kxyxy") { memoize := false }

theorem returns_longest_seed_crossed :
    crossed.Pure ∧ crossing.config.memoize = false ∧
    (∃ definition start, crossed.find? "A" = some definition ∧
      begins? crossingCall (definition.rule.memoized && crossing.config.memoize)
        (crossing.report crossingCall .entering) = some start ∧
      LongestSeed (Stored.codec .plain) crossingCall
        (runs (Stored.codec .plain) crossingCall (definition.body.parser crossed 11 []) 11 start)
        crossing ((Term.call .plain "A" []).parser crossed 12 [] crossing)) ∧
    retries crossingCall
      (Ending.machine ((Term.call .plain "A" []).trial crossed crossing)).journal = [1, 3, 5] := by
  refine ⟨crossed_pure, rfl, ?_, by decide +kernel⟩
  let evaluation : Evaluation :=
    { budget := 12, term := .call .plain "A" [], machine := crossing }
  have termPure : evaluation.term.Pure := by decide
  have visits : evaluation.Visits crossed evaluation := .refl
  have found : crossed.find? "A" = some _ := rfl
  have begun : begins? crossingCall false (crossing.report crossingCall .entering) = some _ := rfl
  exact ⟨_, _, found, begun, crossed_pure.returns_longest_seed termPure rfl visits found rfl rfl begun⟩

end Grammar

end Packrat
