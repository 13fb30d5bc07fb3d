import Packrat.Proofs.Storage

set_option autoImplicit false

namespace Packrat

open Packrat.Parser (opened settle settled)
open Packrat.Grammar (Stored)

variable {ν : Type}

namespace Parser

section Rounds

variable {α : Type} {codec : Codec ν α} {call : Call} {body : Parser ν α} {start : Machine ν}

/-- How often a call that is not answered otherwise runs its body. -/
def rounds (codec : Codec ν α) (call : Call) (body : Parser ν α) : Nat → Machine ν → Nat
  | 0, _ => 0
  | budget + 1, machine =>
    match round codec call (body machine) with
    | .done _ => 1
    | .again next => rounds codec call body budget next + 1

theorem rounds_done {n : Nat} {ending : Ending ν α} (final : round codec call (body start) = .done ending) :
    rounds codec call body (n + 1) start = 1 := by
  rw [rounds, final]

theorem rounds_again {n : Nat} {next : Machine ν} (again : round codec call (body start) = .again next) :
    rounds codec call body (n + 1) start = rounds codec call body n next + 1 := by
  rw [rounds, again]

/-- These are the runs that are reached from the first one by storing one seed after another. -/
theorem lt_rounds_iff {done n : Nat} :
    done < rounds codec call body n start ↔
      done < n ∧ ∃ middle, Regrows codec call body done start middle := by
  induction n generalizing done start with
  | zero => simp [rounds]
  | succ n ih =>
    cases result : round codec call (body start) with
    | done ending =>
      rw [rounds_done result]
      constructor
      next =>
        intro first
        obtain rfl : done = 0 := by omega
        exact ⟨Nat.succ_pos n, start, .none start⟩
      next =>
        rintro ⟨_, middle, regrows⟩
        cases regrows with
        | none => exact Nat.one_pos
        | next again => cases result.symm.trans again
    | again next =>
      rw [rounds_again result]
      constructor
      next =>
        intro first
        cases done with
        | zero => exact ⟨Nat.succ_pos n, start, .none start⟩
        | succ done =>
          obtain ⟨left, middle, regrows⟩ := ih.mp (Nat.lt_of_succ_lt_succ first)
          exact ⟨Nat.succ_lt_succ left, middle, .next result regrows⟩
      next =>
        rintro ⟨left, middle, regrows⟩
        cases regrows with
        | none => exact Nat.succ_pos _
        | next again rest =>
          cases result.symm.trans again
          exact Nat.succ_lt_succ (ih.mpr ⟨Nat.lt_of_succ_lt_succ left, middle, rest⟩)

end Rounds

end Parser

/-- What a step says of the runs of a body: one more, or one less than it seemed when the call was
made. -/
def Step.runs : Step ν → Int
  | .entering | .grew => 1
  | .checked true | .reentered _ => -1
  | _ => 0

def Signal.runs (call : Call) : Signal ν → Int
  | .step other _ taken => if other = call then taken.runs else 0
  | _ => 0

def runsIn (call : Call) (signals : List (Signal ν)) : Int :=
  (signals.map (Signal.runs call)).sum

section Counts

variable {call other : Call} {signal : Signal ν} {signals more history : List (Signal ν)}

@[simp] theorem runsIn_nil : runsIn call ([] : List (Signal ν)) = 0 := rfl

@[simp] theorem runsIn_cons : runsIn call (signal :: signals) = signal.runs call + runsIn call signals := by
  simp [runsIn]

@[simp] theorem runsIn_append : runsIn call (more ++ signals) = runsIn call more + runsIn call signals := by
  simp [runsIn]

@[simp] theorem Step.runs_ended (outcome : Except Failure ν) : Step.runs (.ended outcome) = 0 := by
  cases outcome <;> rfl

theorem runsIn_eq (call : Call) (signals : List (Signal ν)) :
    runsIn call signals =
      signals.countP (Signal.marks call Step.enters) - signals.countP (Signal.marks call Step.hits) -
          signals.countP (Signal.marks call Step.reenters) +
        signals.countP (Signal.marks call Step.grows) := by
  induction signals with
  | nil => rfl
  | cons signal signals ih =>
    rw [runsIn_cons, ih]
    cases signal with
    | step other index step =>
      by_cases own : other = call
      next =>
        subst own
        rcases step with _ | (_ | _) | _ | _ | _ | _ | _ | _ <;>
          simp [Signal.runs, Step.runs, Signal.marks, Step.enters, Step.hits, Step.reenters, Step.grows] <;>
          omega
      next => simp [Signal.runs, Signal.marks, own]
    | _ => simp [Signal.runs, Signal.marks]

theorem bodyRuns_eq (answered : often call Step.hits history + often call Step.reenters history ≤
    often call Step.enters history) : bodyRuns call history = runsIn call (since history) := by
  rw [runsIn_eq]
  unfold bodyRuns
  change _ = (often call Step.enters history : Int) - often call Step.hits history -
    often call Step.reenters history + often call Step.grows history
  omega

theorem since_append (unbound : Unbound more) : since (more ++ history) = more ++ since history := by
  unfold since
  rw [List.takeWhile_append_of_pos]
  intro signal member
  rw [unbound_iff.mp unbound signal member]
  rfl

end Counts

structure Machine.Spares (call : Call) (before after : Machine ν) : Prop where
  stays : before.Stays after
  spares : ∀ added, after.journal = added ++ before.journal → Unbound added → call ∈ before.calls →
    runsIn call added = 0

namespace Machine.Spares

variable {call : Call} {before middle after : Machine ν}

theorem of_added (stays : before.Stays after) (added : List (Signal ν))
    (same : after.journal = added ++ before.journal)
    (spares : Unbound added → call ∈ before.calls → runsIn call added = 0) : before.Spares call after := by
  refine ⟨stays, fun others equal => ?_⟩
  obtain rfl : added = others := List.append_cancel_right (same.symm.trans equal)
  exact spares

theorem trans (first : before.Spares call middle) (second : middle.Spares call after) :
    before.Spares call after := by
  obtain ⟨added, same, inside⟩ := first.stays
  obtain ⟨more, equal, _⟩ := second.stays
  refine .of_added (Parser.calling_stays.trans first.stays second.stays) (more ++ added)
    (by rw [equal, same, List.append_assoc]) fun unbound active => ?_
  rw [Unbound.append] at unbound
  have still : call ∈ middle.calls := (inside unbound.2).calls ▸ active
  rw [runsIn_append, first.spares added same unbound.2 active, second.spares more equal unbound.1 still]
  rfl

theorem indifferent (call : Call) : Machine.Indifferent (Machine.Spares (ν := ν) call) where
  aside machine cursor slots counters :=
    .of_added (Parser.calling_stays.aside machine cursor slots counters) [] rfl fun _ _ => rfl
  trans := .trans
  register machine index label :=
    .of_added (Parser.calling_stays.register machine index label) [.expected index label] rfl fun _ _ => rfl
  allow machine lines :=
    .of_added (Parser.calling_stays.allow machine lines) [.allowed lines] rfl fun _ _ => rfl
  dropFrame ran := ⟨Parser.calling_stays.dropFrame ran.stays, ran.spares⟩

theorem bind (machine : Machine ν) (source : Source) : machine.Spares call (machine.bind source) :=
  have never (unbound : Unbound [Signal.bound (ν := ν) source]) : False :=
    unbound source List.mem_cons_self
  .of_added ⟨[.bound source], rfl, fun unbound => (never unbound).elim⟩ [.bound source] rfl
    fun unbound _ => (never unbound).elim

end Machine.Spares

namespace Parser

section Counting

variable {α : Type} {codec : Codec ν α} {call target : Call} {body : Parser ν α}
  {machine start : Machine ν} {memoized : Bool}

theorem runsIn_grow (spares : Runs (Machine.Spares target) body) (n : Nat)
    (active : target ∈ start.calls) {added : List (Signal ν)}
    (same : (Ending.machine (grow codec call body n start)).journal = added ++ start.journal)
    (unbound : Unbound added) :
    (call ≠ target → runsIn target added = 0) ∧
      (call = target → ¬ Ending.Exhausted (grow codec call body n start) →
        runsIn target added + 1 = rounds codec call body n start) := by
  induction n generalizing start added with
  | zero =>
    obtain rfl : [] = added := List.append_cancel_right (show [] ++ start.journal = _ from same)
    exact ⟨fun _ => rfl, fun _ whole => absurd rfl whole⟩
  | succ n ih =>
    obtain ⟨first, begun, inside⟩ := (spares start).stays
    rw [grow_succ] at same ⊢
    cases result : round codec call (body start) with
    | done ending =>
      rw [result] at same
      obtain rfl : first = added :=
        List.append_cancel_right (begun.symm.trans ((journal_of_done result).symm.trans same))
      have spared := (spares start).spares first begun unbound active
      refine ⟨fun _ => spared, fun _ _ => ?_⟩
      rw [spared, rounds_done result]
      rfl
    | again next =>
      rw [result] at same
      obtain ⟨value, after, _, ended, rfl, _⟩ := round_again result
      obtain ⟨more, equal, _⟩ := calling_stays.grow (fun machine => (spares machine).stays) codec call n
        (replant codec call value after)
      rw [ended] at begun inside
      have journal : (replant codec call value after).journal =
          .step call after.cursor.index .grew :: (first ++ start.journal) := congrArg _ begun
      obtain rfl : more ++ .step call after.cursor.index .grew :: first = added := by
        rw [equal, journal] at same
        exact List.append_cancel_right (by simpa using same)
      obtain ⟨later, _, earlier⟩ : Unbound more ∧ True ∧ Unbound first := by
        simpa [Unbound, forall_and] using unbound
      have calls : (replant codec call value after).calls = after.calls := Activation.calls_plant _ _
      have still : target ∈ (replant codec call value after).calls :=
        calls ▸ (inside earlier).calls ▸ active
      obtain ⟨other, own⟩ := ih still equal later
      -- The call is active while its body runs, so that only the new seed counts.
      have spared := (spares start).spares first (by rw [ended]; exact begun) earlier active
      rw [rounds_again result]
      refine ⟨fun different => ?_, ?_⟩
      next => simp [spared, other different, Signal.runs, different]
      next =>
        rintro rfl whole
        have ran := own rfl whole
        simp [spared, Signal.runs, Step.runs]
        omega

theorem runsIn_asked (call : Call) (memoized : Bool) (machine : Machine ν) :
    ∃ asked, (if memoized then machine.report call (.checked false) else machine).journal =
        asked ++ machine.journal ∧
      ∀ target, runsIn target asked = 0 := by
  cases memoized with
  | false => exact ⟨[], rfl, fun _ => rfl⟩
  | true => exact ⟨[_], rfl, fun target => by simp [Signal.runs, Step.runs]⟩

theorem runsIn_idle (idle : begins? call memoized machine = none) (codec : Codec ν α)
    (body : Parser ν α) (n : Nat) :
    ∃ added, (Ending.machine (answer codec call memoized body n machine)).journal =
        added ++ machine.journal ∧
      ∀ target, runsIn target added = if call = target then -1 else 0 := by
  obtain ⟨_, _, same⟩ | ⟨_, seeded, same⟩ := answer_idle idle codec body n
  next => exact ⟨[_], same, fun target => by simp [Signal.runs, Step.runs]⟩
  next =>
    obtain ⟨asked, journal, quiet⟩ := runsIn_asked call memoized machine
    rw [journal] at same
    refine ⟨.step call machine.cursor.index (.reentered seeded) :: asked, same, fun target => ?_⟩
    simp [quiet, Signal.runs, Step.runs]

theorem runsIn_close (codec : Codec ν α) (call : Call) (memoized : Bool) (ending : Ending ν α) :
    ∃ added, (close codec call memoized ending).machine.journal = added ++ ending.machine.journal ∧
      ∀ target, runsIn target added = 0 := by
  rw [machine_close, ← journal_rewound call ending]
  have result := settled call memoized (ending.outcome.map codec.encode) (rewound call ending)
  generalize settle call memoized (ending.outcome.map codec.encode) (rewound call ending) = last
    at result ⊢
  cases result with
  | withheld | stored => exact ⟨[_], rfl, fun target => by simp [Signal.runs, Step.runs]⟩
  | dropped => exact ⟨[], rfl, fun _ => rfl⟩

theorem journal_begun (begun : begins? call memoized machine = some start) :
    ∃ asked, start.journal = asked ++ machine.journal ∧ ∀ target, runsIn target asked = 0 := by
  rw [begun_eq begun]
  exact runsIn_asked call memoized machine

theorem calls_begun (begun : begins? call memoized machine = some start) :
    start.calls = call :: machine.calls := by
  obtain ⟨_, rfl, rfl | rfl⟩ := opened_of_begun begun <;> rfl

theorem inactive_of_begun (begun : begins? call memoized machine = some start) : call ∉ machine.calls := by
  unfold begins? at begun
  split at begun
  next => cases begun
  next =>
    split at begun
    next => cases begun
    next inactive => exact inactive_of_find? (by simpa using inactive)

theorem runsIn_begun (spares : Runs (Machine.Spares target) body) {n : Nat}
    (begun : begins? call memoized machine = some start) (active : target ∈ start.calls)
    {added : List (Signal ν)} (unbound : Unbound added)
    (same : (Ending.machine (answer codec call memoized body n machine)).journal =
      added ++ machine.journal) :
    (call ≠ target → runsIn target added = 0) ∧
      (call = target → ¬ Ending.Exhausted (answer codec call memoized body n machine) →
        runsIn target added + 1 = rounds codec call body n start) := by
  rw [answer_begun codec body begun] at same ⊢
  obtain ⟨asked, entered, quiet⟩ := journal_begun begun
  obtain ⟨closing, closed, silent⟩ := runsIn_close codec call memoized (grow codec call body n start)
  obtain ⟨grown, ran, _⟩ := calling_stays.grow (fun machine => (spares machine).stays) codec call n start
  obtain rfl : closing ++ (grown ++ asked) = added := by
    rw [closed, ran, entered] at same
    exact List.append_cancel_right (by simpa using same)
  obtain ⟨_, unbound, _⟩ : Unbound closing ∧ Unbound grown ∧ Unbound asked := by
    simpa [Unbound, forall_and] using unbound
  have counts := runsIn_grow spares n active ran unbound
  simpa [quiet, silent] using counts

theorem runsIn_invoke (stays : Runs Machine.Stays body) (rule : Rule) (args : List Arg) (n : Nat)
    (machine : Machine ν) {added : List (Signal ν)}
    (same : (Ending.machine (invoke codec rule args body n machine)).journal =
      added ++ machine.journal) :
    let call := callOf rule args machine
    let entered := machine.report call .entering
    ∃ inner, (Ending.machine (answer codec call (rule.memoized && machine.config.memoize) body n
        entered)).journal = inner ++ entered.journal ∧
      (Unbound added → Unbound inner) ∧
      ∀ target, runsIn target added = runsIn target inner + if call = target then 1 else 0 := by
  intro call entered
  obtain ⟨inner, journal, _⟩ : entered.Stays (Ending.machine (answer codec call
      (rule.memoized && machine.config.memoize) body n entered)) :=
    calling_stays.answer stays _ (calling_stays.refl entered)
  rw [invoke_eq] at same
  generalize answer codec call (rule.memoized && machine.config.memoize) body n entered = ending
    at journal same ⊢
  obtain ⟨outcome, left⟩ := machine_reported codec call ending
  have signals : .step call (Ending.machine ending).cursor.index (.ended outcome) ::
      (inner ++ [.step call machine.cursor.index .entering]) ++ machine.journal =
        added ++ machine.journal := by
    rw [← same, left]
    simp [Machine.report, Machine.write, journal, entered]
  obtain rfl := List.append_cancel_right signals
  refine ⟨inner, journal, fun unbound => ?_, fun target => ?_⟩
  next => simpa [Unbound, forall_and] using unbound
  next =>
    have entering : Step.runs (.entering : Step ν) = 1 := rfl
    simp [Signal.runs, entering]

theorem spares_invoke (spares : Runs (Machine.Spares target) body) (codec : Codec ν α) (rule : Rule)
    (args : List Arg) (n : Nat) : Runs (Machine.Spares target) (invoke codec rule args body n) := by
  intro machine
  have stays : Runs Machine.Stays body := fun machine => (spares machine).stays
  refine ⟨calling_stays.invoke stays codec rule args n machine, fun added same unbound active => ?_⟩
  obtain ⟨inner, answered, unbinds, counts⟩ := runsIn_invoke stays rule args n machine same
  rw [counts target]
  generalize callOf rule args machine = call at answered
  cases begun : begins? call (rule.memoized && machine.config.memoize) (machine.report call .entering) with
  | none =>
    obtain ⟨others, equal, once⟩ := runsIn_idle begun codec body n
    obtain rfl : inner = others := List.append_cancel_right (answered.symm.trans equal)
    rw [once target]
    split <;> rfl
  | some start =>
    have different : call ≠ target := by
      rintro rfl
      exact inactive_of_begun begun active
    have still : target ∈ start.calls := calls_begun begun ▸ List.mem_cons_of_mem _ active
    rw [(runsIn_begun spares begun still (unbinds unbound) answered).1 different, if_neg different]
    rfl

end Counting

end Parser

namespace Grammar

open Packrat.Parser

theorem Term.spares (grammar : Grammar) (call : Call) (n : Nat) (args : List Arg) (term : Term) :
    Runs (Machine.Spares call) (term.parser grammar n args) :=
  @Term.runs _ grammar (Machine.Spares.indifferent call) (fun _ => True) (fun _ _ => trivial)
    (fun _ _ => trivial)
    (fun _ machine => .bind machine _)
    (fun _ spares => spares_invoke spares _ _ _ _) n args term trivial

namespace Invocation

variable {grammar : Grammar}

def runs (own : Invocation grammar) (machine : Machine Stored) : Nat :=
  match begins? (own.call machine) (own.memoized machine) (machine.report (own.call machine) .entering) with
  | none => 0
  | some start => rounds (Stored.codec own.shape) (own.call machine) own.body own.budget start

theorem runsIn_ending (own : Invocation grammar) {machine : Machine Stored} {added : List (Signal Stored)}
    (same : (own.ending machine).machine.journal = added ++ machine.journal) (unbound : Unbound added)
    (whole : ¬ (own.ending machine).Exhausted) :
    runsIn (own.call machine) added = own.runs machine := by
  have invoked := own.ending_invoke machine
  rw [invoked] at same
  have spares : Runs (Machine.Spares (own.call machine)) own.body :=
    Term.spares grammar (own.call machine) own.budget own.passed own.definition.body
  obtain ⟨inner, answered, unbinds, counts⟩ :=
    runsIn_invoke (fun machine => (spares machine).stays) _ _ _ machine same
  have counted : runsIn (own.call machine) added =
      runsIn (own.call machine) inner + if own.call machine = own.call machine then 1 else 0 :=
    counts (own.call machine)
  rw [counted, if_pos rfl]
  unfold runs
  cases begun : begins? (own.call machine) (own.memoized machine)
      (machine.report (own.call machine) .entering) with
  | none =>
    obtain ⟨others, equal, once⟩ := runsIn_idle begun (Stored.codec own.shape) own.body own.budget
    obtain rfl : inner = others := List.append_cancel_right (answered.symm.trans equal)
    rw [once, if_pos rfl]
    rfl
  | some start =>
    have active : own.call machine ∈ start.calls := calls_begun begun ▸ List.mem_cons_self
    have answering : ¬ Ending.Exhausted (Parser.answer (Stored.codec own.shape) (own.call machine)
        (own.memoized machine) own.body own.budget (machine.report (own.call machine) .entering)) := by
      rwa [own.ending_eq, exhausted_reported] at whole
    exact (runsIn_begun spares begun active (unbinds unbound) answered).2 rfl answering

end Invocation

end Grammar

namespace Moment

open Packrat.Grammar

variable {grammar : Grammar} {before after moment : Moment} {call : Call}

def Answered (call : Call) (history : List (Signal Stored)) : Prop :=
  often call Step.hits history + often call Step.reenters history ≤ often call Step.enters history

theorem Answered.step {history : List (Signal Stored)} {step : Step Stored}
    (answered : Answered call history) (hits : step.hits = false) (reenters : step.reenters = false)
    (other : Call) (index : Nat) : Answered call (.step other index step :: history) := by
  unfold Answered at answered ⊢
  simp only [often_step, hits, reenters]
  simp only [Bool.false_eq_true, and_false, if_false]
  omega

theorem Answered.ended {history : List (Signal Stored)} (answered : Answered call history)
    (outcome : Except Failure Stored) (other : Call) (index : Nat) :
    Answered call (.step other index (.ended outcome) :: history) := by
  cases outcome <;> exact answered.step rfl rfl other index

theorem Next.answered (next : Next grammar before after) (answered : Answered call before.history) :
    Answered call after.history := by
  cases next with
  | aside | handed => exact answered
  | told _ idle =>
    unfold Answered
    change often call Step.hits (_ :: before.history) + often call Step.reenters (_ :: before.history) ≤
      often call Step.enters (_ :: before.history)
    simpa only [Answered, often_idle idle] using answered
  | bound => exact Nat.le_refl 0
  | @hit machine pending past own verdict outcome =>
    refine Answered.ended ?_ outcome own _
    change Answered call (.step own _ (.checked true) :: .step own _ .entering :: (machine.journal ++ past))
    unfold Answered at answered ⊢
    simp only [often_step, Moment.history] at answered ⊢
    by_cases same : own = call
    next =>
      simp [same, Step.hits, Step.reenters, Step.enters]
      omega
    next => simpa [same] using answered
  | @reentered machine pending past own _ cursor seeded outcome =>
    refine Answered.ended ?_ outcome own.call _
    change Answered call (.step own.call _ (.reentered seeded) ::
      ((machine.missed own.call own.memoized).journal ++ past))
    unfold Answered at answered ⊢
    simp only [often_step, often_missed, Moment.history] at answered ⊢
    by_cases same : own.call = call
    next =>
      simp [same, Step.hits, Step.reenters, Step.enters]
      omega
    next => simpa [same] using answered
  | @begun machine pending past own =>
    change Answered call ((machine.missed own.call own.memoized).journal ++ past)
    unfold Machine.missed
    split
    next => exact (answered.step rfl rfl _ _).step rfl rfl _ _
    next => exact answered.step rfl rfl _ _
  | regrown => exact answered.step rfl rfl _ _
  | @closed machine pending past own outcome =>
    refine Answered.ended ?_ outcome own.call _
    have result := Parser.settled own.call own.memoized outcome machine
    generalize Parser.settle own.call own.memoized outcome machine = last at result ⊢
    cases result with
    | withheld | stored => exact answered.step rfl rfl _ _
    | dropped => exact answered

theorem Passes.answered {source : Source} {config : Config}
    (passes : Passes grammar (.start source config) moment) (call : Call) :
    Answered call moment.history := by
  induction passes with
  | refl => exact Nat.le_refl 0
  | tail _ next ih => exact next.answered ih

/-- The count of the runs of a body goes up, with each invocation of the call, by as often as the body is
run. -/
theorem Passes.bodyRuns {source : Source} {config : Config}
    (passes : Passes grammar (.start source config) moment) (own : Invocation grammar)
    {added : List (Signal Stored)}
    (same : (own.ending moment.machine).machine.journal = added ++ moment.machine.journal)
    (unbound : Unbound added) (whole : ¬ (own.ending moment.machine).Exhausted) :
    bodyRuns (own.call moment.machine) (added ++ moment.history) =
      bodyRuns (own.call moment.machine) moment.history + own.runs moment.machine := by
  have earlier := Passes.answered passes (own.call moment.machine)
  have later := Passes.answered (Passes.invoked passes own) (own.call moment.machine)
  have history : Moment.history { moment with machine := (own.ending moment.machine).machine } =
      added ++ moment.history := by
    simp [Moment.history, same]
  rw [history] at later
  have ran := own.runsIn_ending same unbound whole
  have before := bodyRuns_eq earlier
  have after := bodyRuns_eq later
  rw [since_append unbound, runsIn_append] at after
  omega

end Moment

end Packrat
