import Packrat.Proofs.Backtracking
import Packrat.Proofs.Containment
import Packrat.Proofs.Moments
import Packrat.Proofs.Transparency

set_option autoImplicit false

namespace Packrat

open Packrat.Parser
open Packrat.Grammar (Stored)
open Trace (Event Kind)

def Call.event (call : Call) (kind : Kind) (index : Nat) : Event :=
  { kind, rule := call.rule, args := call.args, index }

namespace Grammar.Invocation

variable {grammar : Grammar} (own : Invocation grammar) (machine : Machine Stored)

def entered : Machine Stored :=
  machine.report (own.call machine) .entering

def codec : Codec Stored Value :=
  Stored.codec own.shape

end Grammar.Invocation

open Grammar (Invocation)

inductive Machine.Quiet : Machine Stored → Machine Stored → Prop
  | aside (machine : Machine Stored) (cursor : Cursor) (farthest : Farthest.Stack)
      (slots : List (String × Snapshot)) (counters : List (String × Nat)) :
      Quiet machine { machine with cursor, farthest, slots, counters }
  | registered (machine : Machine Stored) (index : Nat) (label : String) :
      Quiet machine (machine.register index label)
  | allowed (machine : Machine Stored) (lines : Option Nat) :
      Quiet machine (machine.write (.allowed lines))
  | bound (machine : Machine Stored) (source : Source) : Quiet machine (machine.bind source)

namespace Trace

inductive Ends {grammar : Grammar} (own : Invocation grammar) (call : Call) :
    Ending Stored Grammar.Value → Event → Prop
  | leaving (value : Grammar.Value) (after : Machine Stored) :
      Ends own call (.ok value after)
        { call.event .leaving after.cursor.index with
          result := some (Stored.text { shape := own.shape, value }) }
  | failed (failure : Failure) (after : Machine Stored)
      (back : failure.recoverable = true → after.cursor.index = call.cursor.index) :
      Ends own call (.error failure after) (call.event .failed after.cursor.index)

def asked (call : Call) (memoized : Bool) : List Event :=
  if memoized then [call.event .cacheMiss call.cursor.index] else []

inductive Puts (call : Call) (memoized : Bool) : List Event → Prop
  | none : Puts call memoized []
  | put (index : Nat) (looked : memoized = true) : Puts call memoized [call.event .cachePut index]

mutual

/-- The events of a call, from entering its rule to leaving it the way the call ends. -/
inductive Visit (grammar : Grammar) : Invocation grammar → Machine Stored → List Event → Prop
  | enclosed {own : Invocation grammar} {machine : Machine Stored} {inner : List Event} {last : Event}
      (answers : Replies grammar own machine inner)
      (ends : Ends own (own.call machine) (own.ending machine) last) :
      Visit grammar own machine
        ((own.call machine).event .entering machine.cursor.index :: (inner ++ [last]))

/-- How a call is answered: from the memo table, by its own activation, or by rounds of its body. -/
inductive Replies (grammar : Grammar) : Invocation grammar → Machine Stored → List Event → Prop
  | hit {own : Invocation grammar} {machine : Machine Stored} (memoized : own.memoized machine = true)
      (known : (machine.memo.find? (own.call machine)).isSome = true) :
      Replies grammar own machine [(own.call machine).event .cacheHit machine.cursor.index]
  | reentered {own : Invocation grammar} {machine : Machine Stored}
      (active : (machine.active.find? (own.call machine)).isSome = true) :
      Replies grammar own machine (asked (own.call machine) (own.memoized machine) ++
        [(own.call machine).event .recursive machine.cursor.index])
  | ran {own : Invocation grammar} {machine start : Machine Stored} {rounds puts : List Event}
      (begun : begins? (own.call machine) (own.memoized machine) (own.entered machine) = some start)
      (runs : Rounds grammar own (own.call machine) own.budget start rounds)
      (stored : Puts (own.call machine) (own.memoized machine) puts) :
      Replies grammar own machine (asked (own.call machine) (own.memoized machine) ++ (rounds ++ puts))

/-- Runs of the body of a call from the machine on, with a retry between them. -/
inductive Rounds (grammar : Grammar) : Invocation grammar → Call → Nat → Machine Stored → List Event → Prop
  | spent (own : Invocation grammar) (call : Call) (machine : Machine Stored) :
      Rounds grammar own call 0 machine []
  | last {own : Invocation grammar} {call : Call} {n : Nat} {machine : Machine Stored}
      {body : List Event} {ending : Ending Stored Grammar.Value}
      (final : round own.codec call (own.body machine) = .done ending)
      (visits : Visits grammar machine body (Ending.machine (own.body machine))) :
      Rounds grammar own call (n + 1) machine body
  | again {own : Invocation grammar} {call : Call} {n : Nat} {machine next : Machine Stored}
      {body rest : List Event} (regrown : round own.codec call (own.body machine) = .again next)
      (visits : Visits grammar machine body (Ending.machine (own.body machine)))
      (runs : Rounds grammar own call n next rest) :
      Rounds grammar own call (n + 1) machine
        (body ++ call.event .retrying (Ending.machine (own.body machine)).cursor.index :: rest)

/-- The events of one call after another, each of a rule of the grammar, on the way from one machine to
another one. A call is made on the machine that is reached by then and leads to the one with which it
ends. -/
inductive Visits (grammar : Grammar) : Machine Stored → List Event → Machine Stored → Prop
  | nil (machine : Machine Stored) : Visits grammar machine [] machine
  | quiet {machine next last : Machine Stored} {events : List Event} (silent : machine.Quiet next)
      (visits : Visits grammar next events last) : Visits grammar machine events last
  | cons {own : Invocation grammar} {machine last : Machine Stored} {first rest : List Event}
      (visit : Visit grammar own machine first)
      (visits : Visits grammar (own.ending machine).machine rest last) :
      Visits grammar machine (first ++ rest) last

end

theorem Visits.append {grammar : Grammar} {middle after : Machine Stored} {second : List Event} :
    ∀ {before : Machine Stored} {first : List Event}, Visits grammar before first middle →
      Visits grammar middle second after → Visits grammar before (first ++ second) after
  | _, _, .nil _, later => later
  | _, _, .quiet silent visits, later => .quiet silent (visits.append later)
  | _, _, .cons visit visits, later => by
    rw [List.append_assoc]
    exact .cons visit (visits.append later)

theorem Visits.of_quiet {grammar : Grammar} {before after : Machine Stored}
    (silent : before.Quiet after) : Visits grammar before [] after :=
  .quiet silent (.nil after)

end Trace

open Trace (Visit Replies Rounds Visits Puts Ends asked)

structure Machine.Tells (grammar : Grammar) (before after : Machine Stored) : Prop where
  restores : before.memo.Restores → after.memo.Restores
  journal : before.memo.Restores → ∃ added, after.journal = added ++ before.journal ∧
    Visits grammar before (events added) after

namespace Machine.Tells

variable {grammar : Grammar} {before middle after machine : Machine Stored}

theorem of_quiet (quiet : before.Quiet after) (added : List (Signal Stored))
    (restores : before.memo.Restores → after.memo.Restores)
    (journal : after.journal = added ++ before.journal) (silent : events added = []) :
    before.Tells grammar after :=
  ⟨restores, fun _ => ⟨added, journal, silent ▸ .of_quiet quiet⟩⟩

theorem trans (first : before.Tells grammar middle) (second : middle.Tells grammar after) :
    before.Tells grammar after where
  restores := second.restores ∘ first.restores
  journal restores := by
    obtain ⟨added, same, visits⟩ := first.journal restores
    obtain ⟨more, equal, others⟩ := second.journal (first.restores restores)
    refine ⟨more ++ added, by rw [equal, same, List.append_assoc], ?_⟩
    rw [events_append]
    exact visits.append others

theorem aside (machine : Machine Stored) (cursor : Cursor) (farthest : Farthest.Stack)
    (slots : List (String × Snapshot)) (counters : List (String × Nat)) :
    machine.Tells grammar { machine with cursor, farthest, slots, counters } :=
  .of_quiet (.aside machine cursor farthest slots counters) [] id rfl rfl

theorem indifferent (grammar : Grammar) : Machine.Indifferent (Machine.Tells grammar) where
  aside machine cursor slots counters := .aside machine cursor machine.farthest slots counters
  trans := .trans
  register machine index label :=
    .of_quiet (.registered machine index label) [.expected index label] id rfl rfl
  allow machine lines := .of_quiet (.allowed machine lines) [.allowed lines] id rfl rfl
  dropFrame {before after index} ran :=
    (Machine.Tells.aside before before.cursor (before.farthest.push index) before.slots
      before.counters).trans (ran.trans
        (.aside after after.cursor after.farthest.pop.2 after.slots after.counters))

theorem bind (machine : Machine Stored) (source : Source) :
    machine.Tells grammar (machine.bind source) :=
  .of_quiet (.bound machine source) [.bound source] (fun _ => .of_empty rfl) rfl rfl

end Machine.Tells

namespace Grammar.Invocation

variable {grammar : Grammar} {own : Invocation grammar} {call : Call} {machine before : Machine Stored}

theorem rounds_grow (runs : Runs (Machine.Tells grammar) own.body) (call : Call) (n : Nat)
    (restores : machine.memo.Restores) :
    ∃ added, (Ending.machine (grow own.codec call own.body n machine)).journal =
        added ++ machine.journal ∧
      Rounds grammar own call n machine (events added) := by
  induction n generalizing machine with
  | zero => exact ⟨[], rfl, .spent own call machine⟩
  | succ n ih =>
    have ran := runs machine
    obtain ⟨added, same, visits⟩ := ran.journal restores
    rw [grow_succ]
    cases result : round own.codec call (own.body machine) with
    | done ending => exact ⟨added, (journal_of_done result).trans same, .last result visits⟩
    | again next =>
      have whole (rest : List Event) := @Rounds.again grammar own call n machine next _ rest result visits
      obtain ⟨value, after, _, ended, rfl, _⟩ := round_again result
      rw [ended] at ran same whole
      obtain ⟨more, equal, rounds⟩ := @ih (replant own.codec call value after) (ran.restores restores)
      have journal : (replant own.codec call value after).journal =
          .step call after.cursor.index .grew :: (added ++ machine.journal) := congrArg _ same
      refine ⟨more ++ .step call after.cursor.index .grew :: added, ?_, ?_⟩
      next => simp [equal, journal]
      next =>
        rw [events_append, events_cons]
        have retried : (Signal.step (ν := Stored) call after.cursor.index .grew).event? =
            some (call.event .retrying after.cursor.index) := rfl
        rw [retried, Option.toList_some, List.append_assoc, List.singleton_append]
        exact whole _ rounds

theorem puts_settle (call : Call) (memoized : Bool) (outcome : Except Failure Stored)
    (machine : Machine Stored) :
    ∃ added, (settle call memoized outcome machine).journal = added ++ machine.journal ∧
      Puts call memoized (events added) := by
  have result := settled call memoized outcome machine
  generalize settle call memoized outcome machine = last at result ⊢
  cases result with
  | withheld => exact ⟨[_], rfl, .none⟩
  | stored _ looked => exact ⟨[_], rfl, .put machine.cursor.index looked⟩
  | dropped => exact ⟨[], rfl, .none⟩

theorem events_asked (call : Call) (memoized : Bool) (origin : machine.cursor = call.cursor) :
    ∃ added, (if memoized then machine.report call (.checked false) else machine).journal =
        added ++ machine.journal ∧
      events added = asked call memoized := by
  cases memoized with
  | false => exact ⟨[], rfl, rfl⟩
  | true => exact ⟨[.step call machine.cursor.index (.checked false)], rfl, by rw [origin]; rfl⟩

theorem replies_idle
    (idle : begins? (own.call machine) (own.memoized machine) (own.entered machine) = none) :
    ∃ added, (Ending.machine (Parser.answer own.codec (own.call machine) (own.memoized machine) own.body
        own.budget (own.entered machine))).journal = added ++ (own.entered machine).journal ∧
      Replies grammar own machine (events added) := by
  obtain ⟨memoized, known, same⟩ | ⟨active, seeded, same⟩ := answer_idle idle own.codec own.body own.budget
  next => exact ⟨[_], same, .hit memoized known⟩
  next =>
    obtain ⟨looked, journal, looks⟩ :=
      @events_asked (own.entered machine) (own.call machine) (own.memoized machine) rfl
    rw [journal] at same
    refine ⟨.step (own.call machine) machine.cursor.index (.reentered seeded) :: looked, same, ?_⟩
    rw [events_cons, looks]
    exact .reentered active

theorem replies_begun {start : Machine Stored} (runs : Runs (Machine.Tells grammar) own.body)
    (restores : machine.memo.Restores)
    (begun : begins? (own.call machine) (own.memoized machine) (own.entered machine) = some start) :
    ∃ added, (Ending.machine (Parser.answer own.codec (own.call machine) (own.memoized machine) own.body
        own.budget (own.entered machine))).journal = added ++ (own.entered machine).journal ∧
      Replies grammar own machine (events added) := by
  have opens := begun_eq begun
  obtain ⟨looked, journal, looks⟩ :=
    @events_asked (own.entered machine) (own.call machine) (own.memoized machine) rfl
  have memo : start.memo = machine.memo := by
    rw [opens]
    split <;> rfl
  have entered : start.journal = looked ++ (own.entered machine).journal := by
    rw [opens, ← journal]
    rfl
  obtain ⟨added, same, rounds⟩ :=
    @rounds_grow grammar own start runs (own.call machine) own.budget (memo ▸ restores)
  rw [answer_begun own.codec own.body begun, machine_close]
  generalize grow own.codec (own.call machine) own.body own.budget start = ending at same
  obtain ⟨more, equal, puts⟩ := puts_settle (own.call machine) (own.memoized machine)
    ((Ending.outcome ending).map own.codec.encode) (rewound (own.call machine) ending)
  refine ⟨more ++ (added ++ looked), ?_, ?_⟩
  next => simp [equal, journal_rewound, same, entered]
  next =>
    rw [events_append, events_append, looks, List.append_assoc]
    exact .ran begun rounds puts

theorem replies_answer (runs : Runs (Machine.Tells grammar) own.body)
    (restores : machine.memo.Restores) :
    ∃ added, (Ending.machine (Parser.answer own.codec (own.call machine) (own.memoized machine) own.body
        own.budget (own.entered machine))).journal = added ++ (own.entered machine).journal ∧
      Replies grammar own machine (events added) := by
  cases begun : begins? (own.call machine) (own.memoized machine) (own.entered machine) with
  | none => exact replies_idle begun
  | some start => exact replies_begun runs restores begun

theorem ends_reported (own : Invocation grammar) {call : Call} {ending : Ending Stored Value}
    (back : ∀ failure after, ending = .error failure after → failure.recoverable = true →
      after.cursor = call.cursor) :
    ∃ signal last,
      (reported own.codec call ending).machine.journal = signal :: ending.machine.journal ∧
      signal.event? = some last ∧ Ends own call (reported own.codec call ending) last := by
  cases ending with
  | ok value after => exact ⟨_, _, rfl, rfl, .leaving value _⟩
  | error failure after =>
    refine ⟨_, _, rfl, rfl, .failed failure _ fun recoverable => ?_⟩
    exact congrArg Cursor.index (back failure after rfl recoverable)

theorem visit_ending (runs : Runs (Machine.Tells grammar) own.body) (restores : machine.memo.Restores) :
    ∃ added, (own.ending machine).machine.journal = added ++ machine.journal ∧
      Visit grammar own machine (events added) := by
  obtain ⟨added, same, answers⟩ := replies_answer runs restores
  have back : ∀ failure after, Parser.answer own.codec (own.call machine) (own.memoized machine) own.body
      own.budget (own.entered machine) = .error failure after → failure.recoverable = true →
        after.cursor = (own.call machine).cursor :=
    returns_answer (own.memoized machine) own.budget rfl restores
  have whole : own.ending machine = reported own.codec (own.call machine) (Parser.answer own.codec
      (own.call machine) (own.memoized machine) own.body own.budget (own.entered machine)) :=
    own.ending_eq machine
  generalize Parser.answer own.codec (own.call machine) (own.memoized machine) own.body own.budget
    (own.entered machine) = answered at same back whole
  obtain ⟨signal, last, journal, told, ends⟩ := own.ends_reported back
  rw [← whole] at journal ends
  refine ⟨signal :: (added ++ [.step (own.call machine) machine.cursor.index .entering]), ?_, ?_⟩
  next =>
    rw [journal, same]
    simp [entered, Machine.report, Machine.write]
  next =>
    rw [events_cons, events_append, told]
    exact .enclosed answers ends

end Grammar.Invocation

namespace Grammar

theorem tells_invoke {grammar : Grammar} {key : String} {definition : Definition}
    (found : grammar.find? key = some definition) {n : Nat} {args : List Arg}
    (runs : Runs (Machine.Tells grammar) (definition.body.parser grammar n args)) (shape : Shape) :
    Runs (Machine.Tells grammar) (invoke (Stored.codec shape) definition.rule args
      (definition.body.parser grammar n args) n) := by
  intro machine
  refine ⟨calling_restores.invoke (fun inner => (runs inner).restores) _ _ _ _ machine,
    fun restores => ?_⟩
  -- Any term that passes these arguments makes this call.
  let own : Invocation grammar :=
    { shape, key, argTerms := args.map .given, definition, found, budget := n, args := [] }
  have passed : own.passed = args := by simp [Invocation.passed, own, ArgTerm.resolve, Function.comp_def]
  obtain ⟨added, same, visit⟩ := own.visit_ending (by rwa [Invocation.body, passed]) restores
  have made : own.ending machine = invoke (Stored.codec shape) definition.rule args
      (definition.body.parser grammar n args) n machine := by
    rw [own.ending_invoke, Invocation.body, passed]
  rw [← made]
  refine ⟨added, same, ?_⟩
  rw [← List.append_nil (events added)]
  exact .cons visit (.nil _)

theorem Term.tells (grammar : Grammar) (n : Nat) (args : List Arg) (term : Term) :
    Runs (Machine.Tells grammar) (term.parser grammar n args) :=
  @Term.runs _ grammar (Machine.Tells.indifferent grammar) (fun _ => True) (fun _ _ => trivial)
    (fun _ _ => trivial) (fun _ machine => Machine.Tells.bind machine _)
    (fun found runs => tells_invoke found runs _) n args term trivial

theorem log_of_holds {session : Session Stored} {events : List Event}
    (holds : session.audience.Holds events) : session.log.events.toList = events :=
  holds.log

/-- Whatever a term does and however it ends, a log that is kept of the session gets the events of the
calls that are made on the way, one after another and each with those inside of it, and every call is
left with the event of its own outcome. If the term is a call, it is the only one. -/
theorem Reachable.log_is_bracketed {grammar : Grammar} {session : Session Stored}
    (reachable : grammar.Reachable session.machine) (handed : session.machine.journal = [])
    {earlier : List Event} (holds : session.audience.Holds earlier) (n : Nat) (args : List Arg)
    (term : Term) :
    let result := session.run (term.parser grammar n args)
    let ending : Ending Stored Value := term.parser grammar n args session.machine
    ∃ added, result.2.audience.Holds (earlier ++ added) ∧ result.1 = ending.outcome ∧
      Visits grammar session.machine added ending.machine ∧
      ∀ own : Invocation grammar, own.args = args → n = own.budget + 1 →
        term = .call own.shape own.key own.argTerms → Visit grammar own session.machine added := by
  intro result ending
  have ran : result = _ := term.run_eq grammar session n args
  obtain ⟨added, journal, visits⟩ :=
    (Term.tells grammar n args term session.machine).journal reachable.restores
  rw [handed, List.append_nil] at journal
  refine ⟨events added, ?_, by rw [ran], visits, ?_⟩
  next =>
    have told := holds.read (Ending.machine (term.parser grammar n args session.machine)).journal
    rw [ran]
    simp only [Session.publish]
    rwa [journal] at told ⊢
  next =>
    rintro own rfl rfl rfl
    obtain ⟨more, equal, visit⟩ :=
      own.visit_ending (Term.tells grammar own.budget own.passed own.definition.body) reachable.restores
    rw [handed, List.append_nil, Invocation.ending, journal] at equal
    rwa [equal]

theorem log_is_bracketed_sums :
    let session : Session Stored := (Session.start (.ofString "1")).observe .log
    let term : Term := .call .plain "sum" []
    let result := session.run (term.parser sums 12 [])
    let ending : Ending Stored Value := term.parser sums 12 [] session.machine
    sums.Reachable session.machine ∧ session.machine.journal = [] ∧ session.audience.Holds [] ∧
    Visits sums session.machine result.2.log.events.toList ending.machine ∧
    (∃ own : Invocation sums, own.key = "sum" ∧
      Visit sums own session.machine result.2.log.events.toList) ∧
    result.2.log.events.toList.map (fun event => (event.kind, event.rule.rule)) =
      [(.entering, "sum"), (.cacheMiss, "sum"),
        (.entering, "sum"), (.cacheMiss, "sum"), (.recursive, "sum"), (.failed, "sum"),
        (.entering, "number"), (.cacheMiss, "number"), (.cachePut, "number"), (.leaving, "number"),
        (.retrying, "sum"),
        (.entering, "sum"), (.cacheMiss, "sum"), (.recursive, "sum"), (.leaving, "sum"),
        (.entering, "number"), (.cacheHit, "number"), (.leaving, "number"),
        (.cachePut, "sum"), (.leaving, "sum")] := by
  intro session term result ending
  have reachable : sums.Reachable session.machine := .start _ _
  have holds : session.audience.Holds [] := ⟨rfl, rfl⟩
  obtain ⟨added, after, _, visits, visit⟩ := reachable.log_is_bracketed rfl holds 12 [] term
  let own : Invocation sums :=
    { shape := .plain
      key := "sum"
      argTerms := []
      definition := _
      found := rfl
      budget := 11
      args := [] }
  refine ⟨reachable, rfl, holds, ?_⟩
  rw [List.nil_append] at after
  rw [log_of_holds after]
  refine ⟨visits, ⟨own, rfl, visit own rfl rfl rfl⟩, ?_⟩
  rw [← log_of_holds after]
  decide +kernel

end Grammar

end Packrat
