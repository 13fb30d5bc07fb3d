import Mathlib.Logic.Relation
import Packrat.Proofs.Logging

set_option autoImplicit false

namespace Packrat

open Packrat.Parser (opened settle callOf)

def Signal.Idle {ν : Type} : Signal ν → Prop
  | .bound _ | .step _ _ _ => False
  | .expected _ _ | .allowed _ | .rejected _ _ | .broken _ => True

def Step.ended {ν : Type} : Except Failure ν → Step ν
  | .ok value => .leaving value
  | .error failure => .failed failure

def Machine.missed {ν : Type} (machine : Machine ν) (call : Call) (memoized : Bool) : Machine ν :=
  if memoized then (machine.report call .entering).report call (.checked false)
  else machine.report call .entering

theorem Machine.active_missed {ν : Type} (machine : Machine ν) (call : Call) (memoized : Bool) :
    (machine.missed call memoized).active = machine.active := by
  cases memoized <;> rfl

def Machine.answered {ν : Type} (machine : Machine ν) (call : Call) (verdict : Verdict ν)
    (outcome : Except Failure ν) : Machine ν :=
  { (machine.report call .entering).report call (.checked true) with
    cursor := verdict.cursor
    farthest := machine.farthest.merge verdict.frame }.report call (.ended outcome)

/-- A call that is made, and whether its outcome is looked up and stored. -/
structure Pending where
  call : Call
  memoized : Bool

/-- A machine in the course of a session, the calls that are open in it, innermost first, and what has
been handed to the observers. -/
structure Moment where
  machine : Machine Grammar.Stored
  pending : List Pending := []
  past : List (Signal Grammar.Stored) := []

namespace Moment

open Packrat.Grammar

def start (source : Source) (config : Config) : Moment where
  machine := .start source config

def history (moment : Moment) : List (Signal Stored) :=
  moment.machine.journal ++ moment.past

def Declared (grammar : Grammar) (config : Config) (own : Pending) : Prop :=
  ∃ key definition, grammar.find? key = some definition ∧ definition.rule.name = own.call.rule ∧
    own.memoized = (definition.rule.memoized && config.memoize)

/-- One step of a session. What its terms compute, and hence where the cursor goes and which calls are
made, is left open. -/
inductive Next (grammar : Grammar) : Moment → Moment → Prop
  | aside (moment : Moment) (cursor : Cursor) (farthest : Farthest.Stack)
      (slots : List (String × Snapshot)) (counters : List (String × Nat)) :
      Next grammar moment
        { moment with machine := { moment.machine with cursor, farthest, slots, counters } }
  | told (moment : Moment) {signal : Signal Stored} (idle : signal.Idle) :
      Next grammar moment { moment with machine := moment.machine.write signal }
  | bound (moment : Moment) (source : Source) :
      Next grammar moment { moment with machine := moment.machine.bind source }
  | handed (moment : Moment) :
      Next grammar moment
        { moment with machine := { moment.machine with journal := [] }, past := moment.history }
  | hit {machine : Machine Stored} {pending : List Pending} {past : List (Signal Stored)} {call : Call}
      {verdict : Verdict Stored} (outcome : Except Failure Stored)
      (declared : Declared grammar machine.config ⟨call, true⟩)
      (stored : machine.memo.find? call = some verdict) :
      Next grammar ⟨machine, pending, past⟩ ⟨machine.answered call verdict outcome, pending, past⟩
  | reentered {machine : Machine Stored} {pending : List Pending} {past : List (Signal Stored)}
      {own : Pending} {activation : Activation Stored} (cursor : Cursor) (seeded : Bool)
      (outcome : Except Failure Stored) (declared : Declared grammar machine.config own)
      (unknown : own.memoized = true → machine.memo.find? own.call = none)
      (active : machine.active.find? own.call = some activation) :
      Next grammar ⟨machine, pending, past⟩
        ⟨((({ machine.missed own.call own.memoized with
            active := machine.active.reenter own.call }.report own.call
              (.reentered seeded)).moveTo cursor).report own.call (.ended outcome)), pending, past⟩
  | begun {machine : Machine Stored} {pending : List Pending} {past : List (Signal Stored)}
      {own : Pending} (declared : Declared grammar machine.config own)
      (unknown : own.memoized = true → machine.memo.find? own.call = none)
      (inactive : machine.active.find? own.call = none) :
      Next grammar ⟨machine, pending, past⟩
        ⟨opened own.call (machine.missed own.call own.memoized), own :: pending, past⟩
  | regrown {machine : Machine Stored} {pending : List Pending} {past : List (Signal Stored)}
      {own : Pending} {activation : Activation Stored} (seed : Seed Stored)
      (innermost : machine.active.innermost? = some activation)
      (recursive : activation.recursive = true) :
      Next grammar ⟨machine, own :: pending, past⟩
        ⟨{ machine.report own.call .grew with active := machine.active.plant seed },
          own :: pending, past⟩
  | closed {machine : Machine Stored} {pending : List Pending} {past : List (Signal Stored)}
      {own : Pending} (outcome : Except Failure Stored) :
      Next grammar ⟨machine, own :: pending, past⟩
        ⟨(settle own.call own.memoized outcome machine).report own.call (.ended outcome),
          pending, past⟩

def Passes (grammar : Grammar) : Moment → Moment → Prop :=
  Relation.ReflTransGen (Next grammar)

theorem Passes.moveTo (grammar : Grammar) (moment : Moment) (cursor : Cursor) :
    Passes grammar moment { moment with machine := moment.machine.moveTo cursor } :=
  .single (.aside moment cursor _ _ _)

end Moment

def Machine.Strides (grammar : Grammar) (before after : Machine Grammar.Stored) : Prop :=
  ∀ pending past, Moment.Passes grammar ⟨before, pending, past⟩ ⟨after, pending, past⟩

namespace Parser

open Packrat.Grammar (Stored)
open Moment (Passes Next)

variable {α : Type} {codec : Codec Stored α} {body : Parser Stored α} {grammar : Grammar}
  {pending : List Pending} {past : List (Signal Stored)} {own : Pending}

theorem strides_told (machine : Machine Stored) (signal : Signal Stored) (idle : signal.Idle) :
    machine.Strides grammar (machine.write signal) :=
  fun pending past => .single (.told ⟨machine, pending, past⟩ idle)

theorem indifferent_strides : Machine.Indifferent (Machine.Strides grammar) where
  aside machine cursor slots counters pending past :=
    .single (.aside ⟨machine, pending, past⟩ cursor _ slots counters)
  trans first second pending past := (first pending past).trans (second pending past)
  register machine index label pending past :=
    (strides_told machine (.expected index label) trivial pending past).trans
      (.single (.aside _ _ _ _ _))
  allow machine lines := strides_told machine (.allowed lines) trivial
  dropFrame {before after index} ran pending past := by
    have pushed : Passes grammar ⟨before, pending, past⟩ ⟨before.pushFrame index, pending, past⟩ :=
      .single (.aside _ _ _ _ _)
    exact (pushed.trans (ran pending past)).trans (.single (.aside _ _ _ _ _))

theorem steps_round (codec : Codec Stored α) (ending : Ending Stored α) :
    Passes grammar ⟨ending.machine, own :: pending, past⟩
      ⟨(round codec own.call ending).machine, own :: pending, past⟩ := by
  have moved (seed : Seed Stored) : Passes grammar ⟨ending.machine, own :: pending, past⟩
      ⟨Ending.machine (useSeed codec own.call seed ending.machine), own :: pending, past⟩ := by
    rw [machine_useSeed]
    exact .moveTo grammar ⟨ending.machine, own :: pending, past⟩ seed.cursor
  cases ending with
  | error failure after =>
    simp only [round]
    cases after.active.innermost?.bind Activation.seed with
    | none => exact .refl
    | some seed =>
      cases failure.recoverable with
      | false => exact .refl
      | true => exact moved seed
  | ok value after =>
    simp only [round]
    cases innermost : after.active.innermost? with
    | none => exact .refl
    | some activation =>
      cases recursive : activation.recursive with
      | false =>
        simp only [recursive, Bool.not_false, if_true]
        exact .refl
      | true =>
        simp only [recursive, Bool.not_true, Bool.false_eq_true, if_false]
        cases activation.seed.filter (after.cursor.index ≤ ·.cursor.index) with
        | some seed => exact moved seed
        | none =>
          have again : Passes grammar ⟨after, own :: pending, past⟩ _ :=
            .single (.regrown { value := codec.encode value, cursor := after.cursor } innermost recursive)
          exact again.trans (Passes.moveTo grammar _ own.call.cursor)

theorem steps_grow (runs : Runs (Machine.Strides grammar) body) (codec : Codec Stored α) (n : Nat)
    (machine : Machine Stored) :
    Passes grammar ⟨machine, own :: pending, past⟩
      ⟨Ending.machine (grow codec own.call body n machine), own :: pending, past⟩ := by
  induction n generalizing machine with
  | zero => exact .refl
  | succ n ih =>
    have once : Passes grammar ⟨machine, own :: pending, past⟩
        ⟨(round codec own.call (body machine)).machine, own :: pending, past⟩ :=
      (runs machine (own :: pending) past).trans (steps_round codec (body machine))
    rw [grow_succ]
    cases result : round codec own.call (body machine) with
    | done ending => rwa [result] at once
    | again next =>
      rw [result] at once
      exact once.trans (ih next)

theorem steps_close (codec : Codec Stored α) (ending : Ending Stored α) :
    Passes grammar ⟨ending.machine, own :: pending, past⟩
      ⟨(reported codec own.call (close codec own.call own.memoized ending)).machine, pending, past⟩ := by
  cases ending with
  | ok value after => exact .single (.closed (.ok (codec.encode value)))
  | error failure after =>
    exact (Passes.moveTo grammar ⟨after, own :: pending, past⟩ own.call.cursor).trans
      (.single (.closed (.error failure)))

theorem machine_reported {ν : Type} (codec : Codec ν α) (call : Call) (ending : Ending ν α) :
    ∃ outcome, (reported codec call ending).machine = ending.machine.report call (.ended outcome) := by
  cases ending with
  | ok value after => exact ⟨.ok (codec.encode value), rfl⟩
  | error failure after => exact ⟨.error failure, rfl⟩

theorem steps_evaluate (runs : Runs (Machine.Strides grammar) body) (codec : Codec Stored α) (n : Nat)
    {machine : Machine Stored} (declared : Moment.Declared grammar machine.config own)
    (unknown : own.memoized = true → machine.memo.find? own.call = none) :
    Passes grammar ⟨machine, pending, past⟩
      ⟨(reported codec own.call (evaluate codec own.call own.memoized body n
        (machine.missed own.call own.memoized))).machine, pending, past⟩ := by
  have active := machine.active_missed own.call own.memoized
  unfold evaluate
  rw [active]
  cases found : machine.active.find? own.call with
  | none =>
    have began : Passes grammar ⟨machine, pending, past⟩ _ :=
      .single (.begun declared unknown found)
    simp only [activate_eq]
    exact (began.trans (steps_grow runs codec n _)).trans (steps_close codec _)
  | some activation =>
    obtain ⟨outcome, left⟩ := machine_reported codec own.call
      (reenter codec own.call activation (machine.missed own.call own.memoized))
    obtain ⟨cursor, ran⟩ := machine_reenter codec own.call activation
      (machine.missed own.call own.memoized)
    rw [left, ran, active]
    exact .single (.reentered cursor _ outcome declared unknown found)

theorem steps_invoke (runs : Runs (Machine.Strides grammar) body) (codec : Codec Stored α) {key : String}
    {definition : Grammar.Definition} (found : grammar.find? key = some definition) (args : List Arg)
    (n : Nat) : Runs (Machine.Strides grammar) (invoke codec definition.rule args body n) := by
  intro machine pending past
  have declared : Moment.Declared grammar machine.config
      ⟨callOf definition.rule args machine, definition.rule.memoized && machine.config.memoize⟩ :=
    ⟨key, definition, found, rfl, rfl⟩
  rw [invoke_eq]
  generalize callOf definition.rule args machine = call at declared ⊢
  cases memoized : definition.rule.memoized && machine.config.memoize with
  | false =>
    rw [memoized] at declared
    have led : Passes grammar ⟨machine, pending, past⟩ ⟨_, pending, past⟩ :=
      steps_evaluate runs codec n declared (by simp)
    simpa only [answer, Machine.missed, Bool.false_eq_true, if_false] using led
  | true =>
    rw [memoized] at declared
    cases stored : machine.memo.find? call with
    | none =>
      have same : (machine.report call .entering).memo.find? call = none := stored
      have led : Passes grammar ⟨machine, pending, past⟩ ⟨_, pending, past⟩ :=
        steps_evaluate runs codec n declared fun _ => stored
      simpa only [answer, Machine.missed, same, if_true] using led
    | some verdict =>
      have same : (machine.report call .entering).memo.find? call = some verdict := stored
      simp only [answer, if_true, same]
      obtain ⟨outcome, left⟩ := machine_reported codec call
        (replay codec call verdict ((machine.report call .entering).report call (.checked true)))
      rw [left, machine_replay]
      exact .single (.hit outcome declared stored)

end Parser

namespace Grammar

open Packrat.Parser
open Moment (Passes)

structure Invocation (grammar : Grammar) where
  shape : Shape
  key : String
  argTerms : List ArgTerm
  definition : Definition
  found : grammar.find? key = some definition
  budget : Nat
  args : List Arg

namespace Invocation

variable {grammar : Grammar} (invocation : Invocation grammar)

def passed : List Arg :=
  invocation.argTerms.map (ArgTerm.resolve invocation.args)

def body : Parser Stored Value :=
  invocation.definition.body.parser grammar invocation.budget invocation.passed

def call (machine : Machine Stored) : Call :=
  callOf invocation.definition.rule invocation.passed machine

def ending (machine : Machine Stored) : Ending Stored Value :=
  (Term.call invocation.shape invocation.key invocation.argTerms).parser grammar (invocation.budget + 1)
    invocation.args machine

def memoized (machine : Machine Stored) : Bool :=
  invocation.definition.rule.memoized && machine.config.memoize

theorem ending_invoke (machine : Machine Stored) :
    invocation.ending machine = invoke (Stored.codec invocation.shape) invocation.definition.rule
      invocation.passed invocation.body invocation.budget machine := by
  simp only [ending, Term.parser, invocation.found]
  rfl

theorem ending_eq (machine : Machine Stored) :
    invocation.ending machine =
      reported (Stored.codec invocation.shape) (invocation.call machine)
        (Parser.answer (Stored.codec invocation.shape) (invocation.call machine)
          (invocation.memoized machine) invocation.body invocation.budget
          (machine.report (invocation.call machine) .entering)) := by
  rw [ending_invoke, invoke_eq]
  rfl

end Invocation

theorem Term.strides (grammar : Grammar) (n : Nat) (args : List Arg) (term : Term) :
    Runs (Machine.Strides grammar) (term.parser grammar n args) :=
  @Term.runs _ grammar indifferent_strides (fun _ => True) (fun _ _ => trivial) (fun _ _ => trivial)
    (fun _ _ _ _ => .single (.bound _ _)) (fun found runs => steps_invoke runs _ found _ _) n args term
    trivial

theorem strides_parse (grammar : Grammar) (term : Term) (machine : Machine Stored) :
    machine.Strides grammar ((grammar.parser term).parse machine).2 := by
  have ran := Term.strides grammar requestBudget [] term machine
  unfold ParserTo.parse Grammar.parser
  cases ending : term.parser grammar requestBudget [] machine with
  | ok value after =>
    rw [ending] at ran
    exact ran
  | error failure after =>
    rw [ending] at ran
    simp only
    split
    next => exact indifferent_strides.trans ran (strides_told after _ trivial)
    next => exact indifferent_strides.trans ran (strides_told after _ trivial)

theorem passes_enter (grammar : Grammar) (session : Session Stored) (request : Request)
    {past : List (Signal Stored)} (handed : session.machine.journal = []) :
    Passes grammar ⟨session.machine, [], past⟩
      ⟨(enter grammar session request).2.machine, [], noted grammar session request ++ past⟩ := by
  cases request with
  | run term =>
    have ran := Term.strides grammar requestBudget [] term session.machine [] past
    simp only [enter, answer, run_eq]
    exact ran.tail (.handed _)
  | parse term =>
    have ran := strides_parse grammar term session.machine [] past
    simp only [enter, answer, parse_eq, noted]
    generalize (grammar.parser term).parse session.machine = result at ran ⊢
    exact ran.tail (.handed _)
  | _ =>
    simp only [noted, handed, List.nil_append]
    exact .refl

theorem passes_enterAll (grammar : Grammar) {session : Session Stored} (requests : List Request)
    {past : List (Signal Stored)} (handed : session.machine.journal = []) :
    Passes grammar ⟨session.machine, [], past⟩
      ⟨(enterAll grammar session requests).2.machine, [], chronicle grammar session requests ++ past⟩ := by
  induction requests generalizing session past with
  | nil => exact .refl
  | cons request rest ih =>
    rw [chronicle, List.append_assoc]
    exact (passes_enter grammar session request handed).trans (ih (journal_enter grammar request handed))

end Grammar

end Packrat
