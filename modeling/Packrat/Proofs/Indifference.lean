import Packrat.Proofs.Composition
import Packrat.Proofs.Growth

set_option autoImplicit false

namespace Packrat

open Packrat.Parser (opened settle reported)

variable {ν : Type}

namespace Machine

structure Indifferent (R : Machine ν → Machine ν → Prop) : Prop where
  aside : ∀ (machine : Machine ν) (cursor : Cursor) (slots : List (String × Snapshot))
    (counters : List (String × Nat)), R machine { machine with cursor, slots, counters }
  trans : ∀ {before middle after}, R before middle → R middle after → R before after
  register : ∀ machine (index : Nat) (label : String), R machine (machine.register index label)
  allow : ∀ machine (lines : Option Nat), R machine (machine.write (.allowed lines))
  dropFrame : ∀ {before after} {index : Nat}, R (before.pushFrame index) after →
    R before after.dropFrame

structure Calling (R : Machine ν → Machine ν → Prop) : Prop extends Indifferent R where
  checked : ∀ (machine : Machine ν) (call : Call) (hit : Bool),
    R machine (machine.report call (.checked hit))
  merge : ∀ (machine : Machine ν) (frame : Farthest.Frame),
    R machine { machine with farthest := machine.farthest.merge frame }
  reenter : ∀ {machine : Machine ν} {call : Call} {activation : Activation ν},
    machine.active.find? call = some activation → ∀ seeded : Bool,
      R machine ({ machine with active := machine.active.reenter call }.report call
        (.reentered seeded))
  plant : ∀ (machine : Machine ν) (call : Call) (seed : Seed ν),
    R machine { machine.report call .grew with active := machine.active.plant seed }
  -- The call was entered by the first machine and is being closed.
  settle : ∀ {first machine after : Machine ν} {call : Call} {memoized : Bool}
    {outcome : Except Failure ν}, R (first.report call .entering) machine →
      machine.active.find? call = none →
      (memoized = true → machine.memo.find? call = none) → R (opened call machine) after →
      (∀ failure, outcome = .error failure → after.cursor = call.cursor) →
        R machine (settle call memoized outcome after)
  reported : ∀ {α : Type} {machine : Machine ν} {call : Call} (codec : Codec ν α) {ending : Ending ν α},
    R (machine.report call .entering) ending.machine →
      R machine (reported codec call ending).machine

end Machine

namespace Parser

variable {α : Type} {R : Machine ν → Machine ν → Prop}

def Runs (R : Machine ν → Machine ν → Prop) (parser : Parser ν α) : Prop :=
  ∀ machine : Machine ν, R machine (Ending.machine (parser machine))

end Parser

namespace Machine.Indifferent

open Packrat.Parser

variable {α : Type} {R : Machine ν → Machine ν → Prop} (indifferent : Indifferent R)

include indifferent

theorem refl (machine : Machine ν) : R machine machine :=
  indifferent.aside machine machine.cursor machine.slots machine.counters

theorem moveTo (machine : Machine ν) (cursor : Cursor) : R machine (machine.moveTo cursor) :=
  indifferent.aside machine cursor machine.slots machine.counters

theorem course : Course (fun _ => True) R where
  refl _ := indifferent.refl _
  trans := indifferent.trans
  ready _ _ := trivial
  moveTo ran _ := indifferent.trans ran (indifferent.moveTo _ _)
  register index label ran := indifferent.trans ran (indifferent.register _ index label)
  pushFrame _ _ := trivial
  dropFrame := indifferent.dropFrame
  setLevel _ _ := trivial
  putBack ran :=
    indifferent.trans (indifferent.moveTo _ _)
      (indifferent.trans ran (indifferent.moveTo _ _))

theorem closed : Closed fun _ parser => Runs R parser := by
  simpa only [Runs, true_implies] using indifferent.course.closed

theorem stop (failure : Failure) : Runs R (fail failure : Parser ν α) :=
  indifferent.refl

end Machine.Indifferent

namespace Machine.Calling

open Packrat.Parser

variable {α : Type} {R : Machine ν → Machine ν → Prop} (calling : Calling R)
variable {codec : Codec ν α} {call : Call} {body : Parser ν α} {n : Nat} {machine first : Machine ν}

include calling

theorem round (codec : Codec ν α) (call : Call) (ending : Ending ν α) :
    R ending.machine (round codec call ending).machine := by
  have stay := calling.refl ending.machine
  have moved (seed : Seed ν) :
      R ending.machine (Ending.machine (useSeed codec call seed ending.machine)) := by
    rw [machine_useSeed]
    exact calling.moveTo _ _
  cases ending with
  | error failure after =>
    simp only [Parser.round]
    repeat' split
    all_goals first | exact stay | exact moved _
  | ok value after =>
    simp only [Parser.round]
    repeat' split
    all_goals first
      | exact stay
      | exact moved _
      | exact calling.trans (calling.plant after call _) (calling.moveTo _ _)

theorem grow (runs : Runs R body) (codec : Codec ν α) (call : Call) (n : Nat) :
    Runs R (grow codec call body n) := by
  induction n with
  | zero => exact calling.stop _
  | succ n ih =>
    intro machine
    have once := calling.trans (runs machine) (calling.round codec call (body machine))
    rw [grow_succ]
    cases result : Parser.round codec call (body machine) with
    | done ending => rwa [result] at once
    | again next =>
      rw [result] at once
      exact calling.trans once (ih next)

theorem activate (runs : Runs R body) {memoized : Bool}
    (entered : R (first.report call .entering) machine)
    (inactive : machine.active.find? call = none)
    (unknown : memoized = true → machine.memo.find? call = none) :
    R machine (Ending.machine (activate codec call memoized body n machine)) := by
  have grown := calling.grow runs codec call n (opened call machine)
  rw [activate_eq]
  cases ending : Parser.grow codec call body n (opened call machine) with
  | ok value after =>
    rw [ending] at grown
    exact calling.settle entered inactive unknown grown (by simp)
  | error failure after =>
    rw [ending] at grown
    exact calling.settle entered inactive unknown
      (calling.trans grown (calling.moveTo after call.cursor)) fun _ _ => rfl

theorem evaluate (runs : Runs R body) {memoized : Bool}
    (entered : R (first.report call .entering) machine)
    (unknown : memoized = true → machine.memo.find? call = none) :
    R machine (Ending.machine (evaluate codec call memoized body n machine)) := by
  unfold Parser.evaluate
  split
  next activation found =>
    obtain ⟨cursor, ran⟩ := machine_reenter codec call activation machine
    rw [ran]
    exact calling.trans (calling.reenter found _) (calling.moveTo _ cursor)
  next inactive => exact calling.activate runs entered inactive unknown

theorem answer (runs : Runs R body) (memoized : Bool)
    (entered : R (first.report call .entering) machine) :
    R machine (Ending.machine (answer codec call memoized body n machine)) := by
  unfold Parser.answer
  split
  next =>
    split
    next verdict _ =>
      rw [machine_replay]
      exact calling.trans (calling.checked machine call true)
        (calling.trans (calling.merge _ verdict.frame) (calling.moveTo _ _))
    next unknown =>
      have asked := calling.checked machine call false
      exact calling.trans asked
        (calling.evaluate runs (calling.trans entered asked) fun _ => unknown)
  next unmemoized => exact calling.evaluate runs entered fun memo => absurd memo unmemoized

theorem invoke (runs : Runs R body) (codec : Codec ν α) (rule : Rule) (args : List Arg) (n : Nat) :
    Runs R (invoke codec rule args body n) := by
  intro machine
  rw [invoke_eq]
  exact calling.reported codec (calling.answer runs _ (calling.refl _))

end Machine.Calling

namespace Grammar

open Packrat.Parser

variable {R : Machine Stored → Machine Stored → Prop} {grammar : Grammar}

theorem Term.runs_impure (indifferent : Machine.Indifferent R) {n : Nat} {args : List Arg} {term : Term}
    (impure : ¬ term.plain = true) (parts : ∀ part ∈ term.parts, Runs R (part.parser grammar n args))
    (bind : ∀ text, term = .bind text →
      ∀ machine : Machine Stored, R machine (machine.bind (.ofString text))) :
    Runs R (term.parser grammar (n + 1) args) := by
  intro machine
  have stay := indifferent.refl machine
  cases term <;> simp only [Term.plain, not_true_eq_false] at impure
  case fail failure => exact stay
  case save slot => exact indifferent.aside machine machine.cursor _ machine.counters
  case restore slot keep =>
    simp only [Term.parser, restoreSlot]
    split
    next => exact stay
    next => exact stay
    next cursor _ => exact indifferent.aside machine cursor _ machine.counters
  case inspect slot => exact stay
  case count name term =>
    have counted := indifferent.aside machine machine.cursor machine.slots
      (put machine.counters name (counter machine name + 1))
    exact indifferent.trans counted (parts term (by simp [Term.parts]) _)
  case ifCount name limit yes no =>
    simp only [Term.parser]
    split
    next => exact parts yes (by simp [Term.parts]) machine
    next => exact parts no (by simp [Term.parts]) machine
  case bind text => exact bind text rfl machine
  case allow lines => exact indifferent.allow machine lines
  case ask query => exact stay

theorem Term.runs (indifferent : Machine.Indifferent R) {Fits : Term → Prop}
    (part : ∀ {term part}, Fits term → part ∈ term.parts → Fits part)
    (body : ∀ {shape key argTerms definition}, Fits (.call shape key argTerms) →
      grammar.find? key = some definition → Fits definition.body)
    (bind : ∀ {text}, Fits (.bind text) →
      ∀ machine : Machine Stored, R machine (machine.bind (.ofString text)))
    (call : ∀ {shape key} {definition : Definition} {n passed},
      grammar.find? key = some definition → Runs R (definition.body.parser grammar n passed) →
        Runs R (invoke (Stored.codec shape) definition.rule passed
          (definition.body.parser grammar n passed) n))
    (n : Nat) (args : List Arg) {term : Term} (fits : Fits term) :
    Runs R (term.parser grammar n args) := by
  refine Term.throughout (P := fun _ parser => Runs R parser) (indifferent.stop _)
    (indifferent.stop _) ?_ part body (fun _ found => call found) n args fits
  intro n args term fits parts call
  by_cases plain : term.plain = true
  next =>
    exact Term.holds indifferent.closed plain parts
      (fun runs => indifferent.closed.many (indifferent.stop _) runs n) call
  next =>
    apply Term.runs_impure indifferent plain parts
    rintro text rfl
    exact bind fits

theorem Term.runs_always (calling : Machine.Calling R)
    (bind : ∀ (machine : Machine Stored) (source : Source), R machine (machine.bind source))
    (n : Nat) (args : List Arg) (term : Term) : Runs R (term.parser grammar n args) :=
  @Term.runs R grammar calling.toIndifferent (fun _ => True) (fun _ _ => trivial)
    (fun _ _ => trivial) (fun _ machine => bind machine _)
    (fun _ runs => calling.invoke runs _ _ _ _) n args term trivial

end Grammar

end Packrat
