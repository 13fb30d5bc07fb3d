import Packrat.Proofs.Recursion

set_option autoImplicit false

namespace Packrat

variable {ν : Type}

def Filed (call : Call) (journal : List (Signal ν)) : Prop :=
  ∃ index, .step call index .stored ∈ journal

theorem Filed.append {call : Call} {added journal : List (Signal ν)} :
    Filed call (added ++ journal) ↔ Filed call added ∨ Filed call journal := by
  simp [Filed, exists_or]

def Unbound (journal : List (Signal ν)) : Prop :=
  ∀ source, .bound source ∉ journal

theorem Unbound.append {added journal : List (Signal ν)} :
    Unbound (added ++ journal) ↔ Unbound added ∧ Unbound journal := by
  simp [Unbound, forall_and]

def Signal.binds : Signal ν → Bool
  | .bound _ => true
  | _ => false

theorem unbound_iff {journal : List (Signal ν)} :
    Unbound journal ↔ ∀ signal ∈ journal, signal.binds = false := by
  constructor
  next =>
    intro unbound signal member
    cases signal with
    | bound source => exact absurd member (unbound source)
    | _ => rfl
  next =>
    intro silent source member
    cases silent _ member

instance (journal : List (Signal ν)) : Decidable (Unbound journal) :=
  decidable_of_iff _ unbound_iff.symm

def Around (depth : Nat) (calls : List Call) (call : Call) : Prop :=
  call ∈ calls ∧ call ∉ calls.take (depth + 1)

theorem Around.lt_length {depth : Nat} {calls : List Call} {call : Call}
    (around : Around depth calls call) : depth < calls.length := by
  by_contra beyond
  have whole : calls.take (depth + 1) = calls := List.take_of_length_le (by omega)
  have outside := around.2
  rw [whole] at outside
  exact outside around.1

theorem around_cons {depth : Nat} {calls : List Call} {call other : Call} (new : call ∉ calls) :
    Around (depth + 1) (call :: calls) other ↔ Around depth calls other := by
  simp only [Around, List.take_succ_cons, List.mem_cons, not_or]
  constructor
  next =>
    rintro ⟨member, different, outside⟩
    exact ⟨member.resolve_left different, outside⟩
  next =>
    rintro ⟨member, outside⟩
    refine ⟨.inr member, ?_, outside⟩
    rintro rfl
    exact new member

theorem around_zero {calls : List Call} {call other : Call} (new : call ∉ calls) :
    Around 0 (call :: calls) other ↔ other ∈ calls := by
  simp only [Around, Nat.zero_add, List.take_succ_cons, List.take_zero, List.mem_cons,
    List.not_mem_nil, or_false]
  constructor
  next => exact fun around => around.1.resolve_left around.2
  next =>
    intro member
    refine ⟨.inr member, ?_⟩
    rintro rfl
    exact new member

namespace Activation

def taintedAt (depth : Nat) (activations : List (Activation ν)) : Bool :=
  activations[depth]?.any tainted

theorem taintedAt_reenter (call : Call) (depth : Nat) (activations : List (Activation ν)) :
    taintedAt depth (reenter call activations) = true ↔
      taintedAt depth activations = true ∨
        depth < activations.length ∧ call ∉ (activations.map Activation.call).take (depth + 1) := by
  -- Marking stops at the first activation of the call.
  induction activations generalizing depth with
  | nil => simp [taintedAt, reenter]
  | cons activation outer ih =>
    by_cases same : activation.call = call
    next => cases depth <;> simp [taintedAt, reenter, same]
    next =>
      cases depth with
      | zero => simp [taintedAt, reenter, same, Ne.symm same]
      | succ depth => simpa [taintedAt, reenter, same, Ne.symm same] using ih depth

theorem taintedAt_plant (seed : Seed ν) (depth : Nat) (activations : List (Activation ν)) :
    taintedAt depth (plant seed activations) = taintedAt depth activations := by
  cases activations with
  | nil => rfl
  | cons activation outer => cases depth <;> rfl

end Activation

open Activation (taintedAt)

/-- What a run does to the activations around it, by what it adds to the journal. -/
structure Machine.Taints (before after : Machine ν) (added : List (Signal ν)) : Prop where
  calls : after.calls = before.calls
  unfiled : ∀ call ∈ before.calls, ¬ Filed call added
  memo : ∀ call ∈ before.calls, after.memo.find? call = before.memo.find? call
  tainted : ∀ depth, taintedAt depth after.active.activations = true ↔
    taintedAt depth before.active.activations = true ∨
      ∃ call, Around depth before.calls call ∧ Reentered call added

def Machine.Spreads (before after : Machine ν) : Prop :=
  ∃ added, after.journal = added ++ before.journal ∧ (Unbound added → before.Taints after added)

def Neutral (journal : List (Signal ν)) : Prop :=
  ∀ call, ¬ Reentered call journal ∧ ¬ Filed call journal

namespace Neutral

theorem nil : Neutral (ν := ν) [] := by
  simp [Neutral, Reentered, Filed]

theorem append {added journal : List (Signal ν)} (first : Neutral added) (second : Neutral journal) :
    Neutral (added ++ journal) := by
  intro call
  rw [Reentered.append, Filed.append]
  simp [first call, second call]

theorem expected (index : Nat) (label : String) : Neutral (ν := ν) [.expected index label] := by
  simp [Neutral, Reentered, Filed]

theorem allowed (lines : Option Nat) : Neutral (ν := ν) [.allowed lines] := by
  simp [Neutral, Reentered, Filed]

theorem step {step : Step ν} (call : Call) (index : Nat)
    (other : ∀ seeded, step ≠ .reentered seeded) (unstored : step ≠ .stored) :
    Neutral [.step call index step] := by
  intro asked
  simp only [Reentered, Filed, List.mem_singleton, Signal.step.injEq, not_exists, not_and]
  exact ⟨fun _ seeded _ _ same => other seeded same.symm, fun _ _ _ same => unstored same.symm⟩

end Neutral

namespace Machine

variable {before middle after machine : Machine ν} {call : Call} {added more : List (Signal ν)}

namespace Taints

theorem still (calls : after.calls = before.calls)
    (flags : ∀ depth, taintedAt depth after.active.activations =
      taintedAt depth before.active.activations) (memo : after.memo = before.memo)
    (neutral : Neutral added) : before.Taints after added where
  calls := calls
  unfiled call _ := (neutral call).2
  memo call _ := by rw [memo]
  tainted depth := by simp [flags, (neutral _).1]

theorem trans (first : before.Taints middle added) (second : middle.Taints after more) :
    before.Taints after (more ++ added) where
  calls := second.calls.trans first.calls
  unfiled call member := by
    rw [Filed.append, not_or]
    exact ⟨second.unfiled call (first.calls ▸ member), first.unfiled call member⟩
  memo call member := by
    rw [second.memo call (first.calls ▸ member), first.memo call member]
  tainted depth := by
    rw [second.tainted, first.tainted, first.calls]
    simp only [Reentered.append, and_or_left, exists_or]
    exact or_assoc.trans (or_congr_right or_comm)

theorem reenter {activation : Activation ν} (found : machine.active.find? call = some activation)
    (index : Nat) (seeded : Bool) :
    machine.Taints { machine with active := machine.active.reenter call }
      [.step call index (.reentered seeded)] where
  calls := by simp [Machine.calls, Active.reenter]
  unfiled other _ := by simp [Filed]
  memo _ _ := rfl
  tainted depth := by
    have active : call ∈ machine.calls := by
      obtain ⟨member, own⟩ := Parser.mem_of_find? found
      exact own ▸ List.mem_map_of_mem member
    simp only [Active.reenter, Activation.taintedAt_reenter]
    apply or_congr Iff.rfl
    constructor
    next =>
      rintro ⟨_, outside⟩
      exact ⟨call, ⟨active, outside⟩, index, seeded, by simp⟩
    next =>
      rintro ⟨other, around, reentered⟩
      obtain rfl : other = call := by simpa [Reentered] using reentered
      have inside := around.lt_length
      rw [Machine.calls, List.length_map] at inside
      exact ⟨inside, around.2⟩

theorem popped (taints : (Parser.opened call machine).Taints after added) (new : call ∉ machine.calls) :
    machine.Taints (Parser.popped after) added where
  calls := by
    have same := congrArg List.tail taints.calls
    simpa [Machine.calls, Parser.popped, Parser.opened, Active.pop, Active.push, List.map_tail]
      using same
  unfiled other member := taints.unfiled other (List.mem_cons_of_mem _ member)
  memo other member := taints.memo other (List.mem_cons_of_mem _ member)
  tainted depth := by
    have outer := taints.tainted (depth + 1)
    have calls : (Parser.opened call machine).calls = call :: machine.calls := rfl
    simp only [calls, around_cons new] at outer
    simpa [taintedAt, Parser.popped, Parser.opened, Active.pop, Active.push, List.getElem?_tail]
      using outer

end Taints

namespace Spreads

theorem still (active : after.active = before.active) (memo : after.memo = before.memo)
    (journal : after.journal = before.journal) : before.Spreads after := by
  refine ⟨[], journal, fun _ => .still ?_ ?_ memo .nil⟩
  next => simp only [Machine.calls, active]
  next => simp only [active, implies_true]

theorem trans (first : before.Spreads middle) (second : middle.Spreads after) :
    before.Spreads after := by
  obtain ⟨added, same, taints⟩ := first
  obtain ⟨more, equal, further⟩ := second
  refine ⟨more ++ added, by rw [equal, same, List.append_assoc], fun unbound => ?_⟩
  rw [Unbound.append] at unbound
  exact (taints unbound.2).trans (further unbound.1)

theorem write (machine : Machine ν) {signal : Signal ν} (neutral : Neutral [signal]) :
    machine.Spreads (machine.write signal) :=
  ⟨[signal], rfl, fun _ => .still rfl (fun _ => rfl) rfl neutral⟩

theorem report (machine : Machine ν) (call : Call) {step : Step ν}
    (other : ∀ seeded, step ≠ .reentered seeded) (unstored : step ≠ .stored) :
    machine.Spreads (machine.report call step) :=
  write machine (.step call _ other unstored)

end Spreads

end Machine

namespace Parser

variable {α : Type} {call : Call} {machine after : Machine ν}

theorem spreads_settle (memoized : Bool) (outcome : Except Failure ν) (new : call ∉ machine.calls)
    (ran : (opened call machine).Spreads after) :
    machine.Spreads (settle call memoized outcome after) := by
  obtain ⟨added, same, taints⟩ := ran
  have closed : machine.Spreads (popped after) :=
    ⟨added, same, fun unbound => (taints unbound).popped new⟩
  have result := settled call memoized outcome after
  generalize settle call memoized outcome after = last at result ⊢
  cases result with
  | withheld => exact closed.trans (.report _ call (by simp) (by simp))
  | dropped => exact closed
  | stored =>
    refine ⟨_ :: added, congrArg _ same, fun unbound => ?_⟩
    have earlier : Unbound added := fun source member => unbound source (.tail _ member)
    have inner := (taints earlier).popped new
    exact
      { calls := inner.calls
        unfiled := by
          rintro other member ⟨index, filed⟩
          rcases List.mem_cons.mp filed with own | earlier
          next =>
            cases own
            exact new member
          next => exact inner.unfiled other member ⟨index, earlier⟩
        memo := by
          intro other member
          have different : other ≠ call := fun own => new (own ▸ member)
          have kept := MemoTable.find?_insert_of_ne after.memo
            { outcome, cursor := after.cursor, frame := after.farthest.innermost } different
          exact kept.trans (inner.memo other member)
        tainted := by
          intro depth
          refine (inner.tainted depth).trans ?_
          simp [Reentered] }

theorem calling_spreads : Machine.Calling (ν := ν) Machine.Spreads where
  aside _ _ _ _ := .still rfl rfl rfl
  trans := .trans
  register machine index label :=
    (Machine.Spreads.write machine (.expected index label)).trans (.still rfl rfl rfl)
  allow machine lines := .write machine (.allowed lines)
  dropFrame := fun ⟨added, same, taints⟩ => ⟨added, same, fun unbound => { taints unbound with }⟩
  checked machine call hit := .report machine call (by simp) (by simp)
  merge _ _ := .still rfl rfl rfl
  reenter found seeded := ⟨[_], rfl, fun _ => { Machine.Taints.reenter found _ seeded with }⟩
  plant machine call seed := by
    have grew := Neutral.step call machine.cursor.index (by simp) (by simp : (.grew : Step ν) ≠ _)
    refine ⟨[_], rfl, fun _ => .still ?_ (fun depth => ?_) rfl grew⟩
    next => simp [Machine.calls, Active.plant]
    next => exact Activation.taintedAt_plant seed depth _
  settle _ inactive _ ran _ := spreads_settle _ _ (inactive_of_find? inactive) ran
  reported {_ machine call} codec {ending} ran := by
    have entered : machine.Spreads (machine.report call .entering) :=
      .report machine call (by simp) (by simp)
    have answered := entered.trans ran
    cases ending with
    | ok value after | error failure after =>
      exact answered.trans (.report after call (by simp) (by simp))

theorem tainted_iff {added : List (Signal ν)} (taints : (opened call machine).Taints after added)
    (new : call ∉ machine.calls) :
    after.active.innermost?.any Activation.tainted = true ↔
      ∃ other ∈ machine.calls, Reentered other added := by
  have innermost := taints.tainted 0
  have calls : (opened call machine).calls = call :: machine.calls := rfl
  simp only [calls, around_zero new] at innermost
  have flag :
      taintedAt 0 after.active.activations = after.active.innermost?.any Activation.tainted := by
    rw [taintedAt, Active.innermost?, List.head?_eq_getElem?]
  have fresh : taintedAt 0 (opened call machine).active.activations = false := rfl
  rw [flag, fresh] at innermost
  simpa using innermost

/-- Exactly the outcome of an activation that is memoized, not fatal and untainted goes into the memo
table. -/
structure Files (call : Call) (memoized : Bool) (outcome : Except Failure ν) (before after : Machine ν)
    (added : List (Signal ν)) : Prop where
  filed : Filed call added ↔
    memoized = true ∧ (∀ failure, outcome = .error failure → failure.recoverable = true) ∧
      ∀ other ∈ before.calls, ¬ Reentered other added
  stored : Filed call added →
    ∃ frame, after.memo.find? call = some { outcome, cursor := after.cursor, frame }
  kept : ¬ Filed call added → after.memo.find? call = before.memo.find? call

theorem Files.between {memoized : Bool} {outcome : Except Failure ν}
    {newer added older : List (Signal ν)} (files : Files call memoized outcome machine after added)
    (later : Neutral newer) (earlier : Neutral older) :
    Files call memoized outcome machine after (newer ++ (added ++ older)) := by
  have filed : Filed call (newer ++ (added ++ older)) ↔ Filed call added := by
    simp [Filed.append, (later call).2, (earlier call).2]
  have reentered (other : Call) :
      Reentered other (newer ++ (added ++ older)) ↔ Reentered other added := by
    simp [Reentered.append, (later other).1, (earlier other).1]
  exact
    { filed := by simpa only [filed, reentered] using files.filed
      stored := files.stored ∘ filed.mp
      kept := fun unfiled => files.kept (unfiled ∘ filed.mpr) }

theorem Files.of_flag {memoized : Bool} {outcome : Except Failure ν} {last : Machine ν}
    {added signals : List (Signal ν)} (taints : (opened call machine).Taints after added)
    (new : call ∉ machine.calls) (silent : ∀ other, ¬ Reentered other signals)
    (decided : Filed call signals ↔
      memoized = true ∧ (∀ failure, outcome = .error failure → failure.recoverable = true) ∧
        after.active.innermost?.any Activation.tainted = false)
    (stored : Filed call signals →
      ∃ frame, last.memo.find? call = some { outcome, cursor := last.cursor, frame })
    (kept : ¬ Filed call signals → last.memo = after.memo) :
    Files call memoized outcome machine last (signals ++ added) := by
  have filed : Filed call (signals ++ added) ↔ Filed call signals := by
    rw [Filed.append, or_iff_left (taints.unfiled call List.mem_cons_self)]
  have flag : after.active.innermost?.any Activation.tainted = false ↔
      ∀ other ∈ machine.calls, ¬ Reentered other (signals ++ added) := by
    rw [← Bool.not_eq_true, tainted_iff taints new]
    simp only [Reentered.append, silent, false_or, not_exists, not_and]
  exact
    { filed := by rw [filed, decided, flag]
      stored := stored ∘ filed.mp
      kept := by
        intro unfiled
        rw [kept (unfiled ∘ filed.mpr)]
        exact taints.memo call List.mem_cons_self }

theorem files_settle (memoized : Bool) (outcome : Except Failure ν) (after : Machine ν)
    (new : call ∉ machine.calls) :
    ∃ signals, (settle call memoized outcome after).journal = signals ++ after.journal ∧
      ∀ added, (opened call machine).Taints after added →
        Files call memoized outcome machine (settle call memoized outcome after)
          (signals ++ added) := by
  have result := settled call memoized outcome after
  generalize settle call memoized outcome after = last at result ⊢
  cases result with
  | withheld tainted =>
    refine ⟨[_], rfl, fun added taints => .of_flag taints new ?_ ?_ ?_ fun _ => rfl⟩
    next => simp [Reentered]
    next => simp [Filed, tainted]
    next => simp [Filed]
  | dropped untainted unstored =>
    refine ⟨[], rfl, fun added taints => .of_flag taints new ?_ ?_ ?_ fun _ => rfl⟩
    next => simp [Reentered]
    next =>
      simp only [Filed, List.not_mem_nil, exists_false, untainted, and_true, false_iff, not_and]
      intro memo final
      obtain ⟨failure, failed, fatal⟩ := unstored memo
      simp [final failure failed] at fatal
    next => simp [Filed]
  | stored untainted memo final =>
    refine ⟨[_], rfl, fun added taints => .of_flag taints new ?_ ?_ ?_ ?_⟩
    next => simp [Reentered]
    next => simpa [Filed, untainted, memo] using final
    next => exact fun _ => ⟨_, MemoTable.find?_insert_self _ _ _⟩
    next => simp [Filed]

section Invoke

variable {codec : Codec ν α} {body : Parser ν α}

theorem answer_activates {memoized : Bool} (codec : Codec ν α) (body : Parser ν α) (n : Nat)
    (machine : Machine ν) (unknown : memoized = true → machine.memo.find? call = none)
    (inactive : machine.active.find? call = none) :
    ∃ checks, Neutral checks ∧
      answer codec call memoized body n machine =
        activate codec call memoized body n { machine with journal := checks ++ machine.journal } := by
  cases memoized with
  | false =>
    refine ⟨[], .nil, ?_⟩
    simp [answer, evaluate, inactive]
  | true =>
    have checked := Neutral.step call machine.cursor.index (by simp)
      (by simp : (.checked false : Step ν) ≠ _)
    have still : (machine.report call (.checked false)).active.find? call = none := inactive
    refine ⟨_, checked, ?_⟩
    simp only [answer, evaluate, unknown rfl, still, if_true]
    rfl

theorem files_activate {memoized : Bool} (runs : Runs Machine.Spreads body) (codec : Codec ν α) (n : Nat)
    (machine : Machine ν) (inactive : machine.active.find? call = none) :
    let ending := activate codec call memoized body n machine
    ∃ added, (Ending.machine ending).journal = added ++ machine.journal ∧
      (Unbound added → Files call memoized ((Ending.outcome ending).map codec.encode) machine
        (Ending.machine ending) added) := by
  have grown := calling_spreads.grow runs codec call n (opened call machine)
  simp only [activate_eq, machine_close, outcome_close]
  generalize grow codec call body n (opened call machine) = ending at grown ⊢
  obtain ⟨added, same, taints⟩ : (opened call machine).Spreads (rewound call ending) := by
    cases ending with
    | ok value after => exact grown
    | error failure after => exact grown.trans (.still rfl rfl rfl)
  obtain ⟨signals, journal, files⟩ := files_settle memoized
    ((Ending.outcome ending).map codec.encode)
    (rewound call ending) (inactive_of_find? inactive)
  refine ⟨signals ++ added, ?_, fun unbound => ?_⟩
  next =>
    rw [journal, same, List.append_assoc]
    rfl
  next => exact files added (taints (Unbound.append.mp unbound).2)

theorem exists_left (codec : Codec ν α) (call : Call) (ending : Ending ν α) :
    ∃ step, Neutral [.step call ending.machine.cursor.index step] ∧
      (reported codec call ending).machine = ending.machine.report call step := by
  cases ending with
  | ok value after => exact ⟨_, .step call _ (by simp) (by simp), rfl⟩
  | error failure after => exact ⟨_, .step call _ (by simp) (by simp), rfl⟩

theorem files_invoke (runs : Runs Machine.Spreads body) (codec : Codec ν α) (rule : Rule)
    (args : List Arg) (n : Nat)
    (unknown : (rule.memoized && machine.config.memoize) = true →
      machine.memo.find? (callOf rule args machine) = none)
    (inactive : machine.active.find? (callOf rule args machine) = none) :
    let ending := invoke codec rule args body n machine
    ∃ added, (Ending.machine ending).journal = added ++ machine.journal ∧
      (Unbound added → Files (callOf rule args machine) (rule.memoized && machine.config.memoize)
        ((Ending.outcome ending).map codec.encode) machine (Ending.machine ending) added) := by
  obtain ⟨checks, quiet, activates⟩ := answer_activates codec body n
    (machine.report (callOf rule args machine) .entering) unknown inactive
  have began := Neutral.step (callOf rule args machine) machine.cursor.index (by simp)
    (by simp : (.entering : Step ν) ≠ _)
  simp only [invoke_eq, outcome_reported, activates]
  obtain ⟨added, same, files⟩ := files_activate runs codec n
    { machine.report (callOf rule args machine) .entering with
      journal := checks ++ (machine.report (callOf rule args machine) .entering).journal } inactive
  generalize activate codec (callOf rule args machine) _ body n _ = ending at same files ⊢
  obtain ⟨step, last, left⟩ := exists_left codec (callOf rule args machine) ending
  rw [left]
  refine ⟨[.step (callOf rule args machine) (Ending.machine ending).cursor.index step] ++
    (added ++ (checks ++ [.step (callOf rule args machine) machine.cursor.index .entering])), ?_,
    fun unbound => ?_⟩
  next => simp [Machine.report, Machine.write, same]
  next =>
    simp only [Unbound.append] at unbound
    exact { (files unbound.2.1).between last (quiet.append began) with }

end Invoke

end Parser

namespace Grammar

open Packrat.Parser

theorem Term.spreads (grammar : Grammar) (n : Nat) (args : List Arg) (term : Term) :
    Runs Machine.Spreads (term.parser grammar n args) :=
  Term.runs_always calling_spreads
    (fun _ source => ⟨[.bound source], rfl, fun unbound => absurd List.mem_cons_self (unbound source)⟩)
    n args term

/-- In every grammar and on every machine, an activation that runs its body and in which no text is bound
stores its outcome exactly if it is memoized, does not end the whole parse, and no call that was active
before it was made again while it ran. -/
theorem activation_stores_iff_untainted {grammar : Grammar} {key : String} {definition : Definition}
    (found : grammar.find? key = some definition) (shape : Shape) (argTerms : List ArgTerm) (n : Nat)
    (args : List Arg) (machine : Machine Stored) :
    let call := callOf definition.rule (argTerms.map (ArgTerm.resolve args)) machine
    let memoized := definition.rule.memoized && machine.config.memoize
    let ending := (Term.call shape key argTerms).parser grammar (n + 1) args machine
    (memoized = true → machine.memo.find? call = none) → machine.active.find? call = none →
      ∃ added, (Ending.machine ending).journal = added ++ machine.journal ∧
        (Unbound added →
          Files call memoized ((Ending.outcome ending).map (Stored.codec shape).encode) machine
            (Ending.machine ending) added) := by
  intro call memoized ending unknown inactive
  have runs := Term.spreads grammar n (argTerms.map (ArgTerm.resolve args)) definition.body
  have files := files_invoke runs (Stored.codec shape) definition.rule _ n unknown inactive
  rwa [← Term.parser_call found] at files

def crossedCall : Call where
  cursor := {}
  rule := { grammar := "crossed", rule := "B" }

def crossedMachine : Machine Stored :=
  opened crossingCall (.start (.ofString "bxy") {})

theorem activation_stores_iff_untainted_crossed :
    let ending := (Term.call .plain "B" []).parser crossed 12 [] crossedMachine
    Unbound (Ending.machine ending).journal ∧ ¬ Filed crossedCall (Ending.machine ending).journal ∧
      Reentered crossingCall (Ending.machine ending).journal := by
  intro ending
  have found : crossed.find? "B" = some _ := rfl
  have inactive : (crossedMachine.active.find? crossedCall).isNone = true := by decide +kernel
  have unbound : Unbound (Ending.machine ending).journal := by decide +kernel
  have missing : ((Ending.machine ending).memo.find? crossedCall).isNone = true := by decide +kernel
  have matched : (Ending.outcome ending).toBool = true := by decide +kernel
  obtain ⟨added, same, files⟩ := activation_stores_iff_untainted found .plain [] 11 [] crossedMachine
    (fun _ => rfl) (Option.isNone_iff_eq_none.mp inactive)
  obtain rfl : added = (Ending.machine ending).journal := by
    rw [← List.append_nil added]
    exact same.symm
  have unfiled : ¬ Filed crossedCall (Ending.machine ending).journal := by
    intro filed
    obtain ⟨frame, stored⟩ := (files unbound).stored filed
    cases (Option.isNone_iff_eq_none.mp missing).symm.trans stored
  refine ⟨unbound, unfiled, ?_⟩
  -- If the first rule had not been called again, the outcome of the second one would have been stored.
  by_contra untouched
  refine unfiled ((files unbound).filed.mpr ⟨rfl, fun failure failed => ?_, fun other member => ?_⟩)
  next =>
    change (Ending.outcome ending).map _ = _ at failed
    cases outcome : Ending.outcome ending with
    | ok value =>
      rw [outcome] at failed
      cases failed
    | error other =>
      rw [outcome] at matched
      cases matched
  next =>
    obtain rfl : other = crossingCall := List.mem_singleton.mp member
    exact untouched

end Grammar

end Packrat
