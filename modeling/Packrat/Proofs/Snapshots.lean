import Packrat.Proofs.Termination
import Packrat.Proofs.Typing

set_option autoImplicit false

namespace Packrat

open Packrat.Grammar (Shape Stored Value)

variable {ν α : Type}

/-- What a parser fails with that asks for what is not there: a cursor after it was given back, the seed
of a call without one, or a result of another type. -/
structure Mishaps where
  stale : Failure
  seedless : Failure
  mismatched : RuleName → Failure

namespace Activation

def shed (activation : Activation ν) : Activation ν :=
  { activation with seed := none }

def regrown (seed : Seed ν) (activation : Activation ν) : Activation ν :=
  { activation with recursive := false, seed := some seed }

theorem call_shed (activation : Activation ν) : activation.shed.call = activation.call := rfl

theorem call_regrown (seed : Seed ν) (activation : Activation ν) :
    (activation.regrown seed).call = activation.call := rfl

def update (call : Call) (change : Activation ν → Activation ν) :
    List (Activation ν) → List (Activation ν)
  | [] => []
  | activation :: outer =>
    if activation.call = call then change activation :: outer
    else activation :: update call change outer

theorem calls_update (call : Call) {change : Activation ν → Activation ν}
    (same : ∀ activation, (change activation).call = activation.call)
    (activations : List (Activation ν)) :
    (update call change activations).map Activation.call = activations.map Activation.call := by
  induction activations with
  | nil => rfl
  | cons activation outer ih =>
    by_cases own : activation.call = call <;> simp [update, own, same, ih]

end Activation

def Active.update (active : Active ν) (call : Call) (change : Activation ν → Activation ν)
    (same : ∀ activation, (change activation).call = activation.call) : Active ν where
  activations := Activation.update call change active.activations
  calls := active.calls
  calls_eq := by rw [active.calls_eq, Activation.calls_update call same]

namespace Parser.Checked

variable (mishaps : Mishaps)

def restore (snapshot : Snapshot) : Parser ν Snapshot := fun machine =>
  match snapshot with
  | some cursor => .ok none (machine.moveTo cursor)
  | none => .error mishaps.stale machine

def restoreKept (snapshot : Snapshot) : Parser ν Unit := fun machine =>
  match snapshot with
  | some cursor => .ok () (machine.moveTo cursor)
  | none => .error mishaps.stale machine

def attempt (parser : Parser ν α) : Parser ν α := fun machine =>
  let snapshot : Snapshot := some machine.cursor
  match parser machine with
  | .ok value after => .ok value after
  | .error failure after =>
    if failure.recoverable then (restore mishaps snapshot >>= fun _ => fail failure) after
    else .error failure after

def notHere (label : String) (parser : Parser ν α) : Parser ν Unit := fun machine =>
  let snapshot : Snapshot := some machine.cursor
  let ending : Ending ν α := parser (machine.pushFrame machine.cursor.index)
  (do
    let _ ← restore mishaps snapshot
    match ending.outcome with
    | .ok _ => fun after => failAt after.cursor.index label after
    | .error failure => if failure.recoverable then pure () else fail failure)
    ending.machine.dropFrame

def ahead (parser : Parser ν α) : Parser ν α := fun machine =>
  let snapshot : Snapshot := some machine.cursor
  match parser machine with
  | .ok value after => (restore mishaps snapshot >>= fun _ => pure value) after
  | .error failure after =>
    if failure.recoverable then (restore mishaps snapshot >>= fun _ => fail failure) after
    else .error failure after

def read (codec : Codec ν α) (rule : RuleName) (stored : ν) : Except Failure α :=
  match codec.decode stored with
  | some value => .ok value
  | none => .error (mishaps.mismatched rule)

def replay (codec : Codec ν α) (call : Call) (verdict : Verdict ν) : Parser ν α := fun machine =>
  conclude (verdict.outcome.bind (read mishaps codec call.rule))
    { machine with
      cursor := verdict.cursor
      farthest := machine.farthest.merge verdict.frame }

def reenter (codec : Codec ν α) (call : Call) (activation : Activation ν) : Parser ν α :=
  fun machine =>
    let machine := { machine with active := machine.active.reenter call }
    let machine := machine.report call (.reentered activation.seed.isSome)
    match activation.seed with
    | some seed =>
      (do
        restoreKept mishaps (some seed.cursor)
        conclude (read mishaps codec call.rule seed.value)) machine
    | none => .error .unseeded machine

def useSeed (codec : Codec ν α) (call : Call) : Parser ν α := fun machine =>
  match (machine.active.find? call).bind Activation.seed with
  | some seed =>
    (do
      let _ ← restore mishaps (some seed.cursor)
      conclude (read mishaps codec call.rule seed.value))
      { machine with active := machine.active.update call Activation.shed Activation.call_shed }
  | none => .error mishaps.seedless machine

def grow (codec : Codec ν α) (call : Call) (body : Parser ν α) (start : Snapshot) :
    Nat → Nat → Parser ν α
  | _, 0 => fail .exhausted
  | progress, budget + 1 => fun machine =>
    match body machine with
    | .error failure after =>
      let seeded := ((after.active.find? call).bind Activation.seed).isSome
      if failure.recoverable && seeded then useSeed mishaps codec call after
      else .error failure after
    | .ok value after =>
      let seeded := ((after.active.find? call).bind Activation.seed).isSome
      let recursive := (after.active.find? call).any Activation.recursive
      if !recursive then .ok value after
      else if seeded && after.cursor.index ≤ progress then useSeed mishaps codec call after
      else
        let seed : Seed ν := { value := codec.encode value, cursor := after.cursor }
        (do
          restoreKept mishaps start
          grow codec call body start after.cursor.index budget)
          { after.report call .grew with
            active := after.active.update call (Activation.regrown seed) (Activation.call_regrown seed) }

def activate (codec : Codec ν α) (call : Call) (memoized : Bool) (body : Parser ν α)
    (budget : Nat) : Parser ν α := fun machine =>
  close codec call memoized
    (grow mishaps codec call body (some machine.cursor) machine.cursor.index budget
      (opened call machine))

def evaluate (codec : Codec ν α) (call : Call) (memoized : Bool) (body : Parser ν α)
    (budget : Nat) : Parser ν α := fun machine =>
  match machine.active.find? call with
  | some activation => reenter mishaps codec call activation machine
  | none => activate mishaps codec call memoized body budget machine

def answer (codec : Codec ν α) (call : Call) (memoized : Bool) (body : Parser ν α)
    (budget : Nat) : Parser ν α := fun machine =>
  if memoized then
    match machine.memo.find? call with
    | some verdict => replay mishaps codec call verdict (machine.report call (.checked true))
    | none =>
      evaluate mishaps codec call memoized body budget (machine.report call (.checked false))
  else evaluate mishaps codec call memoized body budget machine

def invoke (codec : Codec ν α) (rule : Rule) (args : List Arg) (body : Parser ν α)
    (budget : Nat) : Parser ν α := fun machine =>
  let call := callOf rule args machine
  reported codec call
    (answer mishaps codec call (rule.memoized && machine.config.memoize) body budget
      (machine.report call .entering))

-- A cursor that a combinator saved is still there when it goes back.

theorem attempt_eq (parser : Parser ν α) : attempt mishaps parser = Parser.attempt parser := by
  funext machine
  simp only [attempt, Parser.attempt]
  cases parser machine <;> rfl

theorem notHere_eq (label : String) (parser : Parser ν α) :
    notHere mishaps label parser = Parser.notHere label parser := by
  funext machine
  simp only [notHere, Parser.notHere]
  cases parser (machine.pushFrame machine.cursor.index) with
  | ok value after => rfl
  | error failure after => cases failure <;> rfl

theorem ahead_eq (parser : Parser ν α) : ahead mishaps parser = Parser.ahead parser := by
  funext machine
  simp only [ahead, Parser.ahead]
  cases parser machine <;> rfl

section Calls

variable {shapes : RuleName → Shape} {call : Call} {body : Parser Stored Value}
  {machine : Machine Stored}

theorem read_typed {shape : Shape} {stored : Stored} (typed : stored.shape = shape)
    (rule : RuleName) :
    read mishaps (Stored.codec shape) rule stored = (Stored.codec shape).read rule stored := by
  simp [read, Codec.read, Stored.codec, typed]

theorem replay_eq {verdict : Verdict Stored} (typed : verdict.Typed (shapes call.rule)) :
    replay mishaps (Stored.codec (shapes call.rule)) call verdict =
      Parser.replay (Stored.codec (shapes call.rule)) call verdict := by
  funext machine
  unfold replay Parser.replay
  cases outcome : verdict.outcome with
  | ok stored => simp only [Except.bind, read_typed mishaps (typed.matched stored outcome)]
  | error failure => rfl

theorem reenter_eq {activation : Activation Stored} (typed : machine.Typed shapes)
    (found : machine.active.find? call = some activation) :
    reenter mishaps (Stored.codec (shapes call.rule)) call activation machine =
      Parser.reenter (Stored.codec (shapes call.rule)) call activation machine := by
  obtain ⟨member, own⟩ := mem_of_find? found
  unfold reenter Parser.reenter
  cases seeded : activation.seed with
  | none => rfl
  | some seed =>
    have shape := typed.seeds member seeded
    rw [own] at shape
    simp only [read_typed mishaps shape]
    rfl

theorem find?_innermost (own : machine.calls.head? = some call) :
    machine.active.find? call = machine.active.innermost? := by
  rw [Active.find?_eq, Active.innermost?]
  cases active : machine.active.activations with
  | nil => rfl
  | cons activation outer =>
    obtain rfl : activation.call = call := by simpa [Machine.calls, active] using own
    simp

theorem activations_update (own : machine.calls.head? = some call)
    (change : Activation Stored → Activation Stored)
    (same : ∀ activation, (change activation).call = activation.call) :
    (machine.active.update call change same).activations =
      (machine.active.innermost?.map change).toList ++ machine.active.pop.activations := by
  cases active : machine.active.activations with
  | nil => simp [Machine.calls, active] at own
  | cons activation outer =>
    obtain rfl : activation.call = call := by simpa [Machine.calls, active] using own
    simp [Active.update, Activation.update, Active.innermost?, Active.pop, active]

theorem update_regrown (own : machine.calls.head? = some call) (seed : Seed Stored) :
    machine.active.update call (Activation.regrown seed) (Activation.call_regrown seed) =
      machine.active.plant seed := by
  apply Active.eq_of_activations
  rw [activations_update own]
  cases active : machine.active.activations with
  | nil => simp [Machine.calls, active] at own
  | cons activation outer => simp [Active.plant, Activation.plant, Active.pop, Active.innermost?,
      Activation.regrown, active]

theorem settle_shed (own : machine.calls.head? = some call) (memoized : Bool)
    (outcome : Except Failure Stored) :
    settle call memoized outcome
        { machine with active := machine.active.update call Activation.shed Activation.call_shed } =
      settle call memoized outcome machine := by
  have updated := activations_update own Activation.shed Activation.call_shed
  cases active : machine.active.activations with
  | nil => simp [Machine.calls, active] at own
  | cons activation outer =>
    simp only [active, Active.innermost?, Active.pop, List.head?_cons, Option.map_some,
      Option.toList_some, List.tail_cons, List.singleton_append] at updated
    have popped : (machine.active.update call Activation.shed Activation.call_shed).pop =
        machine.active.pop := by
      apply Active.eq_of_activations
      simp [Active.pop, updated, active]
    simp [settle, popped, Active.innermost?, updated, active, Activation.shed]

theorem close_useSeed {activation : Activation Stored} {seed : Seed Stored}
    (typed : machine.Typed shapes) (own : machine.calls.head? = some call)
    (innermost : machine.active.innermost? = some activation)
    (seeded : activation.seed = some seed) (memoized : Bool) :
    close (Stored.codec (shapes call.rule)) call memoized
        (useSeed mishaps (Stored.codec (shapes call.rule)) call machine) =
      close (Stored.codec (shapes call.rule)) call memoized
        (Parser.useSeed (Stored.codec (shapes call.rule)) call seed machine) := by
  have shape := typed.seed_innermost own innermost seeded
  have moved : (machine.moveTo seed.cursor).calls.head? = some call := own
  unfold useSeed Parser.useSeed
  simp only [find?_innermost own, innermost, Option.bind_some, seeded, Parser.read_typed shape]
  rw [read_typed mishaps shape, Parser.read_typed shape]
  exact congrArg (EStateM.Result.ok seed.value.value) (settle_shed moved memoized _)

def Reached (progress : Nat) (machine : Machine Stored) : Prop :=
  ∀ activation seed, machine.active.innermost? = some activation → activation.seed = some seed →
    seed.cursor.index = progress

theorem Reached.later {progress : Nat} {after : Machine Stored} (reached : Reached progress machine)
    (later : machine.Later after) : Reached progress after := by
  intro activation seed innermost seeded
  have follows := later.active.follows
  unfold Reached Active.innermost? at *
  cases before : machine.active.activations with
  | nil =>
    rw [before] at follows
    simp [List.forall₂_nil_left_iff.mp follows] at innermost
  | cons first outer =>
    rw [before] at follows
    cases around : after.active.activations with
    | nil => simp [around] at innermost
    | cons last rest =>
      rw [around, List.forall₂_cons] at follows
      obtain rfl : last = activation := by simpa [around] using innermost
      exact reached first seed (by simp [before]) (follows.1.seed ▸ seeded)

theorem reached_replant (codec : Codec Stored Value) (value : Value) :
    Reached machine.cursor.index (replant codec call value machine) := by
  intro activation seed innermost seeded
  simp only [replant, Active.innermost?, Active.plant] at innermost
  cases active : machine.active.activations with
  | nil => simp [active, Activation.plant] at innermost
  | cons first outer =>
    simp only [active, Activation.plant, List.head?_cons, Option.some.injEq] at innermost
    subst innermost
    cases seeded
    rfl

theorem grow_eq (orderly : Orderly body) (safe : Safe shapes body) (memoized : Bool) (n : Nat)
    {progress : Nat} (typed : machine.Typed shapes) (own : machine.calls.head? = some call)
    (reached : Reached progress machine) :
    close (Stored.codec (shapes call.rule)) call memoized
        (grow mishaps (Stored.codec (shapes call.rule)) call body (some call.cursor) progress n
          machine) =
      close (Stored.codec (shapes call.rule)) call memoized
        (Parser.grow (Stored.codec (shapes call.rule)) call body n machine) := by
  induction n generalizing machine progress with
  | zero => rfl
  | succ n ih =>
    have later := orderly machine
    have ran : (Ending.machine (body machine)).calls.head? = some call := later.calls ▸ own
    have kept := safe.typed machine typed
    have still := reached.later later
    rw [grow_succ]
    simp only [grow]
    cases ending : body machine with
    | error failure after =>
      rw [ending] at ran kept
      change after.calls.head? = some call at ran
      simp only [find?_innermost ran, round]
      cases found : after.active.innermost?.bind Activation.seed with
      | none => simp
      | some seed =>
        obtain ⟨activation, innermost, seeded⟩ := Option.bind_eq_some_iff.mp found
        cases recoverable : failure.recoverable with
        | false => simp
        | true => simpa using close_useSeed mishaps kept ran innermost seeded memoized
    | ok value after =>
      rw [ending] at ran kept still
      change after.calls.head? = some call at ran
      -- A further round starts over from the cursor that was saved, which is kept.
      have again := ih (typed_replant kept ran value) ((inside_replant value).calls.symm ▸ ran)
        (reached_replant _ value)
      simp only [find?_innermost ran, update_regrown ran, round]
      cases innermost : after.active.innermost? with
      | none => rfl
      | some activation =>
        cases recursive : activation.recursive with
        | false => simp [recursive]
        | true =>
          cases seeded : activation.seed with
          | none =>
            simp only [Option.any_some, recursive, Bool.not_true, Bool.false_eq_true, if_false,
              Option.bind_some, seeded, Option.isSome_none, Bool.false_and, Option.filter_none]
            exact again
          | some seed =>
            have same := still activation seed innermost seeded
            by_cases stuck : after.cursor.index ≤ progress
            next =>
              have used := close_useSeed mishaps kept ran innermost seeded memoized
              simpa [recursive, seeded, same, stuck, Option.filter] using used
            next =>
              simp only [Option.any_some, recursive, Bool.not_true, Bool.false_eq_true, if_false,
                Option.bind_some, seeded, same, stuck, Option.filter, decide_false, Bool.and_false]
              exact again

theorem activate_eq (orderly : Orderly body) (safe : Safe shapes body) (memoized : Bool) (n : Nat)
    (typed : machine.Typed shapes) (origin : machine.cursor = call.cursor) :
    activate mishaps (Stored.codec (shapes call.rule)) call memoized body n machine =
      Parser.activate (Stored.codec (shapes call.rule)) call memoized body n machine := by
  rw [activate, Parser.activate_eq, origin]
  refine grow_eq mishaps orderly safe memoized n (typed_opened typed call) rfl ?_
  rintro activation seed ⟨⟩ seeded
  cases seeded

theorem evaluate_eq (orderly : Orderly body) (safe : Safe shapes body) (memoized : Bool) (n : Nat)
    (typed : machine.Typed shapes) (origin : machine.cursor = call.cursor) :
    evaluate mishaps (Stored.codec (shapes call.rule)) call memoized body n machine =
      Parser.evaluate (Stored.codec (shapes call.rule)) call memoized body n machine := by
  unfold evaluate Parser.evaluate
  cases found : machine.active.find? call with
  | some activation => exact reenter_eq mishaps typed found
  | none => exact activate_eq mishaps orderly safe memoized n typed origin

theorem answer_eq (call : Call) (orderly : Orderly body) (safe : Safe shapes body)
    (memoized : Bool) (n : Nat) (typed : machine.Typed shapes) (origin : machine.cursor = call.cursor) :
    answer mishaps (Stored.codec (shapes call.rule)) call memoized body n machine =
      Parser.answer (Stored.codec (shapes call.rule)) call memoized body n machine := by
  unfold answer Parser.answer
  cases memoized with
  | false => exact evaluate_eq mishaps orderly safe false n typed origin
  | true =>
    cases found : machine.memo.find? call with
    | some verdict => simp only [if_true, replay_eq mishaps (typed.memo found)]
    | none => exact evaluate_eq mishaps orderly safe true n (typed.report call _) origin

theorem invoke_eq (orderly : Orderly body) (safe : Safe shapes body) {shape : Shape} {rule : Rule}
    (same : shape = shapes rule.name) (args : List Arg) (n : Nat) (typed : machine.Typed shapes) :
    invoke mishaps (Stored.codec shape) rule args body n machine =
      Parser.invoke (Stored.codec shape) rule args body n machine := by
  subst same
  rw [Parser.invoke_eq, invoke]
  exact congrArg _ (answer_eq mishaps (callOf rule args machine) orderly safe _ n
    (typed.report _ _) rfl)

end Calls

end Parser.Checked

namespace Grammar

open Packrat.Parser

variable {grammar : Grammar} {shapes : RuleName → Shape}

/-- The ending of an evaluation. A call checks all that it asks for. -/
def Evaluation.checked (mishaps : Mishaps) (grammar : Grammar) (evaluation : Evaluation) :
    Ending Stored Value :=
  match evaluation with
  | { budget := n + 1, args, term := .call shape key argTerms, machine } =>
    match grammar.find? key with
    | none => Parser.fail .noMatch machine
    | some definition =>
      let passed := argTerms.map (ArgTerm.resolve args)
      Checked.invoke mishaps (Stored.codec shape) definition.rule passed
        (definition.body.parser grammar n passed) n machine
  | other => other.ending grammar

theorem Typed.checked_eq (typed : grammar.Typed shapes) (pure : grammar.Pure)
    {evaluation : Evaluation}
    (admitted : evaluation.term.Pure ∧ evaluation.term.Typed grammar shapes)
    (machine : evaluation.machine.Typed shapes) (mishaps : Mishaps) :
    evaluation.checked mishaps grammar = evaluation.ending grammar := by
  unfold Evaluation.checked
  split
  next n args shape key argTerms asking =>
    simp only [Evaluation.ending, Evaluation.parser, Term.parser]
    cases found : grammar.find? key with
    | none => rfl
    | some definition =>
      have body := pure.body found
      exact Checked.invoke_eq mishaps (pure.orderly n _ body)
        (typed.safe pure n _ body (typed.body found)) (admitted.2.shape found) _ n machine
  next => rfl

/-- Runs of a pure grammar that calls each rule for results of one shape only misuse nothing, whatever is
memoized and however rules call themselves. A whole parse matches or mismatches. Of all that is evaluated
on the way, nothing ends otherwise, every result that is read back has the shape it is read at, and no
call asks for a saved cursor or a seed that is not there, nor does any combinator. -/
theorem Typed.never_misused (typed : grammar.Typed shapes) (pure : grammar.Pure) {term : Term}
    (termPure : term.Pure) (termTyped : term.Typed grammar shapes) (args : List Arg)
    {machine : Machine Stored} (sound : machine.Sound) (held : machine.Typed shapes) :
    ∃ least, ∀ budget ≥ least,
      let parsed := (term.parser grammar budget args).parse machine
      ((∃ value, parsed.1 = .ok value) ∨ ∃ report, parsed.1 = .error (.mismatch report)) ∧
      (parsed.2.Sound ∧ parsed.2.Typed shapes) ∧
      ∀ inner, Evaluation.Visits grammar { budget, args, term, machine } inner →
        (inner.ending grammar).Clean ∧ inner.machine.Typed shapes ∧
        ∀ mishaps, inner.checked mishaps grammar = inner.ending grammar ∧
          ∀ (parser : Parser Stored Value) (label : String),
            Checked.attempt mishaps parser = attempt parser ∧
            Checked.notHere mishaps label parser = notHere label parser ∧
            Checked.ahead mishaps parser = ahead parser := by
  obtain ⟨least, ends⟩ := pure.exists_budget termPure args machine.source machine.cursor.index
  have whole := ends machine sound rfl (Nat.le_refl _)
  refine ⟨least, fun budget enough => ?_⟩
  have safe := typed.safe pure budget args termPure termTyped
  have kept := safe.typed machine held
  have clean := safe.clean machine held
  have advanced := (pure.advances budget args termPure machine sound).sound
  rw [(pure.prolongs enough args termPure machine).resolve_left whole] at whole
  refine ⟨?_, ?_, ?_⟩
  next =>
    unfold ParserTo.parse
    cases ending : term.parser grammar budget args machine with
    | ok value after => exact .inl ⟨value, rfl⟩
    | error failure after =>
      rw [ending] at clean whole
      have recoverable := Failure.recoverable_of_usable ((Ending.clean_error _ _).mp clean)
        (fun cut => whole ((Ending.exhausted_error _ _).mpr cut))
      exact .inr ⟨after.farthestReport, by simp [recoverable]⟩
  next =>
    unfold ParserTo.parse
    cases ending : term.parser grammar budget args machine with
    | ok value after =>
      rw [ending] at kept advanced
      exact ⟨advanced, kept⟩
    | error failure after =>
      rw [ending] at kept advanced
      simp only
      split <;> exact ⟨{ advanced with }, { kept with }⟩
  next =>
    intro inner visits
    obtain ⟨admitted, fit⟩ := typed.visits pure visits ⟨termPure, termTyped⟩ held
    have evaluated := typed.safe pure inner.budget inner.args admitted.1 admitted.2
    refine ⟨evaluated.clean inner.machine fit, fit, fun mishaps => ?_⟩
    exact ⟨typed.checked_eq pure admitted fit mishaps, fun parser label =>
      ⟨Checked.attempt_eq mishaps parser, Checked.notHere_eq mishaps label parser,
        Checked.ahead_eq mishaps parser⟩⟩

def tally : Grammar where
  definitions :=
    [("sum",
      { rule := { name := { grammar := "tally", rule := "sum" } }
        body := .choice
          [.sequence [.call .plain "sum" [], .literal "+", .call .alternate "digit" []],
           .call .alternate "digit" []] }),
     ("digit",
      { rule := { name := { grammar := "tally", rule := "digit" } }
        body := .charBetween '0' '9' })]

def tallyShapes (name : RuleName) : Shape :=
  if name.rule = "digit" then .alternate else .plain

theorem never_misused_tally :
    tally.Typed tallyShapes ∧ tally.Pure ∧ ∀ source config, ∃ least, ∀ budget ≥ least,
      let parsed := ((Term.call .plain "sum" []).parser tally budget []).parse
        (.start source config)
      (∃ value, parsed.1 = .ok value) ∨ ∃ report, parsed.1 = .error (.mismatch report) := by
  have typed : tally.Typed tallyShapes := by decide
  have pure : tally.Pure := by decide
  refine ⟨typed, pure, fun source config => ?_⟩
  obtain ⟨least, runs⟩ := typed.never_misused pure
    (by decide : (Term.call .plain "sum" []).Pure) (by decide) []
    (.fresh source config {}) (.start source config)
  exact ⟨least, fun budget enough => (runs budget enough).1⟩

end Grammar

end Packrat
