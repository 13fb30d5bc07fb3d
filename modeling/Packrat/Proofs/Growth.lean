import Packrat.Proofs.Blocks

set_option autoImplicit false

namespace Packrat

inductive Round (ν α : Type) where
  | done (ending : Ending ν α)
  | again (machine : Machine ν)

def Round.machine {ν α : Type} : Round ν α → Machine ν
  | .done ending => ending.machine
  | .again machine => machine

namespace Parser

variable {ν α : Type}

def replant (codec : Codec ν α) (call : Call) (value : α) (machine : Machine ν) : Machine ν :=
  { machine.report call .grew with
    active := machine.active.plant { value := codec.encode value, cursor := machine.cursor }
    cursor := call.cursor }

/-- What a run of the body, by its ending, leads to. -/
def round (codec : Codec ν α) (call : Call) : Ending ν α → Round ν α
  | .error failure after =>
    match after.active.innermost?.bind Activation.seed with
    | some seed =>
      if failure.recoverable then .done (useSeed codec call seed after)
      else .done (.error failure after)
    | none => .done (.error failure after)
  | .ok value after =>
    match after.active.innermost? with
    | none => .done (.ok value after)
    | some activation =>
      if !activation.recursive then .done (.ok value after)
      else
        match activation.seed.filter (after.cursor.index ≤ ·.cursor.index) with
        | some seed => .done (useSeed codec call seed after)
        | none => .again (replant codec call value after)

theorem grow_succ (codec : Codec ν α) (call : Call) (body : Parser ν α) (n : Nat)
    (machine : Machine ν) :
    grow codec call body (n + 1) machine =
      match round codec call (body machine) with
      | .done ending => ending
      | .again next => grow codec call body n next := by
  simp only [grow]
  cases body machine with
  | error failure after =>
    simp only [round]
    cases after.active.innermost?.bind Activation.seed with
    | none => rfl
    | some seed => cases failure <;> rfl
  | ok value after =>
    simp only [round]
    cases after.active.innermost? with
    | none => rfl
    | some activation =>
      simp only
      cases activation.recursive with
      | false => rfl
      | true =>
        simp only [Bool.not_true, Bool.false_eq_true, if_false]
        cases activation.seed.filter (after.cursor.index ≤ ·.cursor.index) <;> rfl

theorem round_again {codec : Codec ν α} {call : Call} {ending : Ending ν α} {next : Machine ν}
    (again : round codec call ending = .again next) :
    ∃ value after activation, ending = .ok value after ∧ next = replant codec call value after ∧
      after.active.innermost? = some activation ∧
      ∀ seed, activation.seed = some seed → seed.cursor.index < after.cursor.index := by
  cases ending with
  | error failure after =>
    simp only [round] at again
    repeat' split at again
    all_goals cases again
  | ok value after =>
    simp only [round] at again
    cases innermost : after.active.innermost? with
    | none => simp [innermost] at again
    | some activation =>
      simp only [innermost] at again
      split at again
      next => cases again
      next =>
        split at again
        next => cases again
        next shorter =>
          cases again
          refine ⟨value, after, activation, rfl, rfl, innermost, fun seed seeded => ?_⟩
          simpa [seeded] using shorter

theorem machine_conclude (outcome : Except Failure α) (machine : Machine ν) :
    Ending.machine (conclude outcome machine) = machine := by
  cases outcome <;> rfl

@[simp] theorem machine_useSeed (codec : Codec ν α) (call : Call) (seed : Seed ν)
    (machine : Machine ν) :
    Ending.machine (useSeed codec call seed machine) = machine.moveTo seed.cursor :=
  machine_conclude _ _

@[simp] theorem machine_replay (codec : Codec ν α) (call : Call) (verdict : Verdict ν)
    (machine : Machine ν) :
    Ending.machine (replay codec call verdict machine) =
      { machine with
        cursor := verdict.cursor
        farthest := machine.farthest.merge verdict.frame } :=
  machine_conclude _ _

theorem machine_reenter (codec : Codec ν α) (call : Call) (activation : Activation ν)
    (machine : Machine ν) :
    ∃ cursor, Ending.machine (reenter codec call activation machine) =
      ({ machine with active := machine.active.reenter call }.report call
        (.reentered activation.seed.isSome)).moveTo cursor := by
  simp only [reenter]
  cases activation.seed with
  | none => exact ⟨machine.cursor, rfl⟩
  | some seed => exact ⟨seed.cursor, machine_useSeed _ _ _ _⟩

def opened (call : Call) (machine : Machine ν) : Machine ν :=
  { machine with
    active := machine.active.push call
    farthest := machine.farthest.push call.cursor.index }

def popped (machine : Machine ν) : Machine ν :=
  { machine with farthest := machine.farthest.popMerge.2, active := machine.active.pop }

def stashed (call : Call) (outcome : Except Failure ν) (machine : Machine ν) : Machine ν :=
  { popped machine with
    memo := machine.memo.insert call
      { outcome, cursor := machine.cursor, frame := machine.farthest.innermost } }

inductive Settled (call : Call) (memoized : Bool) (outcome : Except Failure ν)
    (machine : Machine ν) : Machine ν → Prop
  | withheld (tainted : machine.active.innermost?.any Activation.tainted = true) :
      Settled call memoized outcome machine ((popped machine).report call .withheld)
  | stored (untainted : machine.active.innermost?.any Activation.tainted = false)
      (memo : memoized = true)
      (final : ∀ failure, outcome = .error failure → failure.recoverable = true) :
      Settled call memoized outcome machine ((stashed call outcome machine).report call .stored)
  | dropped (untainted : machine.active.innermost?.any Activation.tainted = false)
      (unstored : memoized = true →
        ∃ failure, outcome = .error failure ∧ failure.recoverable = false) :
      Settled call memoized outcome machine (popped machine)

theorem settled (call : Call) (memoized : Bool) (outcome : Except Failure ν)
    (machine : Machine ν) :
    Settled call memoized outcome machine (settle call memoized outcome machine) := by
  have frame : machine.farthest.popMerge.1 = machine.farthest.innermost := by
    unfold Farthest.Stack.popMerge Farthest.Stack.pop
    cases machine.farthest.outer <;> rfl
  have flag : (machine.active.innermost?.map Activation.tainted).getD false =
      machine.active.innermost?.any Activation.tainted := by
    cases machine.active.innermost? <;> rfl
  simp only [settle, flag]
  split
  next tainted => exact .withheld tainted
  next untainted =>
    simp only [Bool.not_eq_true] at untainted
    split
    next memo =>
      rw [frame]
      cases outcome with
      | ok value => exact .stored untainted memo (by simp)
      | error failure =>
        simp only [store]
        split
        next recoverable => exact .stored untainted memo (by simp [recoverable])
        next fatal => exact .dropped untainted fun _ => ⟨failure, rfl, by simpa using fatal⟩
    next unmemoized => exact .dropped untainted fun memo => absurd memo unmemoized

structure Popped (machine last : Machine ν) : Prop where
  source : last.source = machine.source
  config : last.config = machine.config
  cursor : last.cursor = machine.cursor
  farthest : last.farthest = machine.farthest.popMerge.2
  active : last.active = machine.active.pop
  journal : ∃ added, last.journal = added ++ machine.journal

theorem popped_settle (call : Call) (memoized : Bool) (outcome : Except Failure ν)
    (machine : Machine ν) : Popped machine (settle call memoized outcome machine) := by
  have result := settled call memoized outcome machine
  generalize settle call memoized outcome machine = last at result ⊢
  cases result with
  | withheld => exact ⟨rfl, rfl, rfl, rfl, rfl, [_], rfl⟩
  | stored => exact ⟨rfl, rfl, rfl, rfl, rfl, [_], rfl⟩
  | dropped => exact ⟨rfl, rfl, rfl, rfl, rfl, [], rfl⟩

def close (codec : Codec ν α) (call : Call) (memoized : Bool) : Ending ν α → Ending ν α
  | .ok value after => .ok value (settle call memoized (.ok (codec.encode value)) after)
  | .error failure after =>
    .error failure (settle call memoized (.error failure) (after.moveTo call.cursor))

def rewound (call : Call) : Ending ν α → Machine ν
  | .ok _ after => after
  | .error _ after => after.moveTo call.cursor

@[simp] theorem source_rewound (call : Call) (ending : Ending ν α) :
    (rewound call ending).source = ending.machine.source := by
  cases ending <;> rfl

@[simp] theorem memo_rewound (call : Call) (ending : Ending ν α) :
    (rewound call ending).memo = ending.machine.memo := by
  cases ending <;> rfl

@[simp] theorem active_rewound (call : Call) (ending : Ending ν α) :
    (rewound call ending).active = ending.machine.active := by
  cases ending <;> rfl

@[simp] theorem journal_rewound (call : Call) (ending : Ending ν α) :
    (rewound call ending).journal = ending.machine.journal := by
  cases ending <;> rfl

theorem machine_close (codec : Codec ν α) (call : Call) (memoized : Bool) (ending : Ending ν α) :
    (close codec call memoized ending).machine =
      settle call memoized (ending.outcome.map codec.encode) (rewound call ending) := by
  cases ending <;> rfl

theorem activations_close (codec : Codec ν α) (call : Call) (memoized : Bool)
    (ending : Ending ν α) :
    (close codec call memoized ending).machine.active.activations =
      ending.machine.active.activations.tail := by
  rw [machine_close, (popped_settle _ _ _ _).active, active_rewound]
  rfl

theorem journal_close (codec : Codec ν α) (call : Call) (memoized : Bool) (ending : Ending ν α) :
    ∃ added, (close codec call memoized ending).machine.journal =
      added ++ ending.machine.journal := by
  obtain ⟨added, same⟩ :=
    (popped_settle call memoized (ending.outcome.map codec.encode) (rewound call ending)).journal
  exact ⟨added, by rw [machine_close, same, journal_rewound]⟩

theorem activate_eq (codec : Codec ν α) (call : Call) (memoized : Bool) (body : Parser ν α)
    (n : Nat) (machine : Machine ν) :
    activate codec call memoized body n machine =
      close codec call memoized (grow codec call body n (opened call machine)) := by
  simp only [activate, opened]
  cases grow codec call body n _ <;> rfl

def reported (codec : Codec ν α) (call : Call) : Ending ν α → Ending ν α
  | .ok value after => .ok value (after.report call (.leaving (codec.encode value)))
  | .error failure after => .error failure (after.report call (.failed failure))

def callOf (rule : Rule) (args : List Arg) (machine : Machine ν) : Call :=
  { cursor := machine.cursor, rule := rule.name, args }

theorem invoke_eq (codec : Codec ν α) (rule : Rule) (args : List Arg) (body : Parser ν α) (n : Nat)
    (machine : Machine ν) :
    invoke codec rule args body n machine =
      reported codec (callOf rule args machine)
        (answer codec (callOf rule args machine) (rule.memoized && machine.config.memoize) body n
          (machine.report (callOf rule args machine) .entering)) := by
  simp only [invoke, callOf]
  cases answer codec _ _ body n _ <;> rfl

@[simp] theorem outcome_reported (codec : Codec ν α) (call : Call) (ending : Ending ν α) :
    (reported codec call ending).outcome = ending.outcome := by
  cases ending <;> rfl

@[simp] theorem outcome_close (codec : Codec ν α) (call : Call) (memoized : Bool)
    (ending : Ending ν α) : (close codec call memoized ending).outcome = ending.outcome := by
  cases ending <;> rfl

@[simp] theorem exhausted_reported (codec : Codec ν α) (call : Call) (ending : Ending ν α) :
    (reported codec call ending).Exhausted ↔ ending.Exhausted := by
  simp [Ending.Exhausted]

@[simp] theorem exhausted_close (codec : Codec ν α) (call : Call) (memoized : Bool)
    (ending : Ending ν α) : (close codec call memoized ending).Exhausted ↔ ending.Exhausted := by
  simp [Ending.Exhausted]

end Parser

end Packrat
