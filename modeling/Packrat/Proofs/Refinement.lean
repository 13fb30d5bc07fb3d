import Packrat.Proofs.Meaning
import Packrat.Proofs.Termination

set_option autoImplicit false

namespace Packrat.Grammar

open Ending (Exhausted)
open Packrat.Parser

def told? (shape : Shape) (verdict : Verdict Stored) : Option (Result Value) :=
  match verdict.outcome with
  | .ok stored => ((Stored.codec shape).decode stored).map (.matched · verdict.cursor.index)
  | .error failure => if failure.recoverable then some .failed else none

def Faithful (grammar : Grammar) (shapes : RuleName → Shape) (source : Source)
    (memo : MemoTable Stored) : Prop :=
  ∀ call verdict, memo.find? call = some verdict → ∀ key definition,
    grammar.find? key = some definition → definition.rule.name = call.rule →
    ∃ result, told? (shapes call.rule) verdict = some result ∧
      definition.body.means grammar call.args source call.cursor result

theorem shown?_close (codec : Codec Stored Value) (call : Call) (memoized : Bool)
    (ending : Ending Stored Value) : shown? (close codec call memoized ending) = shown? ending := by
  cases ending with
  | ok value after => simp only [close, shown?, (popped_settle _ _ _ _).cursor]
  | error failure after => rfl

theorem shown?_replay (shape : Shape) (call : Call) (verdict : Verdict Stored)
    (machine : Machine Stored) :
    shown? (replay (Stored.codec shape) call verdict machine) = told? shape verdict := by
  unfold replay told? Codec.read
  cases verdict.outcome with
  | error failure => rfl
  | ok stored =>
    simp only [Except.bind]
    cases (Stored.codec shape).decode stored <;> rfl

theorem told?_verdictOf (shape : Shape) (call : Call) (ending : Ending Stored Value) :
    told? shape (verdictOf (Stored.codec shape) call ending) = shown? ending := by
  cases ending with
  | ok value after => simp only [told?, verdictOf, Codec.decode_encode, Option.map_some, shown?]
  | error failure after => rfl

section Invoke

variable {grammar : Grammar} {shapes : RuleName → Shape} {key : String} {definition : Definition}
  {call : Call} {body : Parser Stored Value} {machine : Machine Stored}

structure Answers (grammar : Grammar) (shapes : RuleName → Shape) (meaning : Meaning Value)
    (machine : Machine Stored) (ending : Ending Stored Value) : Prop where
  faithful : Faithful grammar shapes machine.source (Ending.machine ending).memo
  meant : Meant meaning machine ending

theorem Answers.unreported {meaning : Meaning Value} {step : Step Stored}
    {ending : Ending Stored Value}
    (answers : Answers grammar shapes meaning (machine.report call step) ending) :
    Answers grammar shapes meaning machine ending :=
  ⟨answers.faithful, answers.meant.active, answers.meant.result⟩

theorem Answers.reported {meaning : Meaning Value} {ending : Ending Stored Value}
    (answers : Answers grammar shapes meaning machine ending) (codec : Codec Stored Value)
    (call : Call) : Answers grammar shapes meaning machine (reported codec call ending) := by
  obtain ⟨faithful, active, result⟩ := answers
  cases ending <;> exact ⟨faithful, active, result⟩

theorem grow_once {codec : Codec Stored Value} {n : Nat} {meaning : Meaning Value}
    (refines : Refines (Faithful grammar shapes) body meaning)
    (fit : machine.Fit (Faithful grammar shapes))
    (unbroken : (opened call machine).Unbroken (grow codec call body n (opened call machine))) :
    grow codec call body n (opened call machine) = body (opened call machine) ∧
      (opened call machine).Unbroken (body (opened call machine)) := by
  cases n with
  | zero => exact absurd rfl unbroken.whole
  | succ n =>
    have opens : (opened call machine).Fit (Faithful grammar shapes) :=
      ⟨sound_opened fit.sound call, fit.within, fit.memo⟩
    have own : (opened call machine).Unbroken (body (opened call machine)) :=
      unbroken.part ⟨[], rfl⟩ (refines.preserves.orderly.appends _)
        (leads_grow refines.preserves.orderly n _).precedes
    -- No active call was made, so that the activation is not recursive after its first run.
    have active := (refines.meant _ opens own).active
    have innermost : (Ending.machine (body (opened call machine))).active.innermost? =
        some { call } := by
      rw [active]
      rfl
    refine ⟨?_, own⟩
    rw [grow_succ]
    cases ran : body (opened call machine) with
    | ok value after | error failure after =>
      rw [ran] at innermost
      simp only [Ending.machine_ok, Ending.machine_error] at innermost
      simp [Parser.round, innermost]

theorem faithful_insert (uniform : grammar.Uniform shapes)
    (found : grammar.find? key = some definition) (named : definition.rule.name = call.rule)
    {source : Source} {memo : MemoTable Stored} (faithful : Faithful grammar shapes source memo)
    {verdict : Verdict Stored} {result : Result Value}
    (told : told? (shapes call.rule) verdict = some result)
    (means : definition.body.means grammar call.args source call.cursor result) :
    Faithful grammar shapes source (memo.insert call verdict) := by
  intro other stored present key alternative again same
  rcases MemoTable.of_find?_insert present with ⟨rfl, rfl⟩ | earlier
  next =>
    rw [uniform.unique again found (same.trans named.symm)]
    exact ⟨result, told, means⟩
  next => exact faithful other stored earlier key alternative again same

theorem answers_activate (uniform : grammar.Uniform shapes)
    (found : grammar.find? key = some definition) (named : definition.rule.name = call.rule)
    (refines : Refines (Faithful grammar shapes) body (definition.body.means grammar call.args))
    (memoized : Bool) (n : Nat) (fit : machine.Fit (Faithful grammar shapes))
    (origin : machine.cursor = call.cursor)
    (unbroken : machine.Unbroken
      (activate (Stored.codec (shapes call.rule)) call memoized body n machine)) :
    Answers grammar shapes (definition.body.means grammar call.args) machine
      (activate (Stored.codec (shapes call.rule)) call memoized body n machine) := by
  let codec := Stored.codec (shapes call.rule)
  rw [activate_eq] at unbroken ⊢
  have rounds : (opened call machine).Unbroken (grow codec call body n (opened call machine)) :=
    unbroken.part ⟨[], rfl⟩ (inside_grow refines.preserves.orderly n _).onward.journal
      (precedes_close codec call memoized _)
  obtain ⟨once, own⟩ := grow_once refines fit rounds
  have opens : (opened call machine).Fit (Faithful grammar shapes) :=
    ⟨sound_opened fit.sound call, fit.within, fit.memo⟩
  have faithful : Faithful grammar shapes machine.source
      (Ending.machine (body (opened call machine))).memo :=
    refines.preserves.memo _ opens own
  have meant := refines.meant _ opens own
  rw [once]
  generalize body (opened call machine) = ending at faithful meant ⊢
  obtain ⟨result, shows, means⟩ := meant.result
  have means : definition.body.means grammar call.args machine.source call.cursor result :=
    origin ▸ means
  refine ⟨?_, ?_, result, (shown?_close codec call memoized ending).trans shows, origin ▸ means⟩
  next =>
    have result := settled call memoized ((Ending.outcome ending).map codec.encode)
      (rewound call ending)
    rw [machine_close]
    generalize settle call memoized _ (rewound call ending) = last at result ⊢
    cases result with
    | withheld => simpa [Machine.report, Machine.write, popped] using faithful
    | dropped => simpa [popped] using faithful
    | stored =>
      have inserted : (stashed call ((Ending.outcome ending).map codec.encode)
          (rewound call ending)).memo =
          (Ending.machine ending).memo.insert call (verdictOf codec call ending) := by
        cases ending <;> rfl
      simp only [Machine.report, Machine.write, inserted]
      exact faithful_insert uniform found named faithful
        ((told?_verdictOf _ call ending).trans shows) means
  next =>
    apply Active.eq_of_activations
    rw [activations_close, meant.active]
    rfl

theorem answers_reenter {codec : Codec Stored Value} {activation : Activation Stored}
    {meaning : Meaning Value} (unbroken : machine.Unbroken (reenter codec call activation machine)) :
    Answers grammar shapes meaning machine (reenter codec call activation machine) := by
  -- The re-entry is in the journal.
  have steady := unbroken.steady
  have once : reentries (Ending.machine (reenter codec call activation machine)).journal =
      reentries machine.journal + 1 := by
    obtain ⟨cursor, ran⟩ := machine_reenter codec call activation machine
    rw [ran]
    exact List.countP_cons_of_pos rfl
  omega

theorem answers_evaluate (uniform : grammar.Uniform shapes)
    (found : grammar.find? key = some definition) (named : definition.rule.name = call.rule)
    (refines : Refines (Faithful grammar shapes) body (definition.body.means grammar call.args))
    (memoized : Bool) (n : Nat) (fit : machine.Fit (Faithful grammar shapes))
    (origin : machine.cursor = call.cursor)
    (unbroken : machine.Unbroken
      (evaluate (Stored.codec (shapes call.rule)) call memoized body n machine)) :
    Answers grammar shapes (definition.body.means grammar call.args) machine
      (evaluate (Stored.codec (shapes call.rule)) call memoized body n machine) := by
  unfold evaluate at unbroken ⊢
  cases active : machine.active.find? call with
  | some activation =>
    simp only [active] at unbroken
    exact answers_reenter unbroken
  | none =>
    simp only [active] at unbroken
    exact answers_activate uniform found named refines memoized n fit origin unbroken

theorem answers_answer (uniform : grammar.Uniform shapes)
    (found : grammar.find? key = some definition) (named : definition.rule.name = call.rule)
    (refines : Refines (Faithful grammar shapes) body (definition.body.means grammar call.args))
    (memoized : Bool) (n : Nat) (fit : machine.Fit (Faithful grammar shapes))
    (origin : machine.cursor = call.cursor)
    (unbroken : machine.Unbroken
      (answer (Stored.codec (shapes call.rule)) call memoized body n machine)) :
    Answers grammar shapes (definition.body.means grammar call.args) machine
      (answer (Stored.codec (shapes call.rule)) call memoized body n machine) := by
  have checked (hit : Bool) : (machine.report call (.checked hit)).Fit (Faithful grammar shapes) :=
    ⟨{ fit.sound with }, fit.within, fit.memo⟩
  unfold answer at unbroken ⊢
  cases memoized with
  | false => exact answers_evaluate uniform found named refines false n fit origin unbroken
  | true =>
    simp only [if_true] at unbroken ⊢
    cases stored : machine.memo.find? call with
    | some verdict =>
      obtain ⟨result, told, means⟩ := fit.memo call verdict stored key definition found named
      refine ⟨?_, ?_, result, (shown?_replay _ call verdict _).trans told, origin ▸ means⟩
      next => rw [machine_replay]; exact fit.memo
      next => rw [machine_replay]; rfl
    | none =>
      simp only [stored] at unbroken ⊢
      have orderly := refines.preserves.orderly
      have own : (machine.report call (.checked false)).Unbroken
          (evaluate (Stored.codec (shapes call.rule)) call true body n
            (machine.report call (.checked false))) :=
        ⟨unbroken.whole, unbroken.steady⟩
      exact (answers_evaluate uniform found named refines true n (checked false) origin
        own).unreported

theorem Refines.invoke (uniform : grammar.Uniform shapes)
    (found : grammar.find? key = some definition) {passed : List Arg}
    (refines : Refines (Faithful grammar shapes) body (definition.body.means grammar passed))
    (n : Nat) :
    Refines (Faithful grammar shapes)
      (invoke (Stored.codec (shapes definition.rule.name)) definition.rule passed body n)
      (definition.body.means grammar passed) := by
  have answers (machine : Machine Stored) (fit : machine.Fit (Faithful grammar shapes))
      (unbroken : machine.Unbroken (Parser.invoke (Stored.codec (shapes definition.rule.name))
        definition.rule passed body n machine)) :
      Answers grammar shapes (definition.body.means grammar passed) machine
        (Parser.invoke (Stored.codec (shapes definition.rule.name)) definition.rule passed body n
          machine) := by
    have entered : (machine.report (callOf definition.rule passed machine) .entering).Fit
        (Faithful grammar shapes) :=
      ⟨{ fit.sound with }, fit.within, fit.memo⟩
    rw [invoke_eq] at unbroken ⊢
    have own := unbroken.part ⟨[_], rfl⟩
      (later_answer (definition.rule.memoized && machine.config.memoize) refines.preserves.orderly
        n).onward.journal (leads_reported _ _ _).precedes
    exact (answers_answer uniform found rfl refines _ n entered rfl own).unreported.reported _ _
  have orderly := refines.preserves.orderly
  exact ⟨⟨orderly.invoke _ _ _ n, refines.preserves.advances.invoke orderly _ _ _ n,
    fun machine fit unbroken => (answers machine fit unbroken).faithful⟩,
    fun machine fit unbroken => (answers machine fit unbroken).meant⟩

end Invoke

section Terms

variable {Holds : Source → MemoTable Stored → Prop} {grammar : Grammar} {shapes : RuleName → Shape}

theorem times_eq_sequence {α : Type} (parser : Parser Stored α) (n : Nat) :
    times parser n = Parser.sequence (List.replicate n parser) := by
  induction n with
  | zero => rfl
  | succ n ih => rw [times, ih]; rfl

theorem Refines.many1 {parser : Parser Stored Value} {args : List Arg} {term : Term}
    (refines : Refines Holds parser (term.means grammar args)) (n : Nat) :
    Refines Holds (Parser.many1 parser n) fun source cursor result =>
      (Term.many1 term).means grammar args source cursor (result.map .list) := by
  have round : Refines Holds parser (picked id (term.means grammar args)) :=
    refines.imp fun _ _ result holds => ⟨result, holds, by cases result <;> rfl⟩
  refine Refines.headed refines (round.many n) ?_ fun _ _ failed => .many1_failed failed
  intro source cursor value middle items stop matched rest
  rw [List.map_id]
  exact .many1 matched rest

theorem Refines.sepBy1 {parser separator : Parser Stored Value} {args : List Arg}
    {term between : Term} (refines : Refines Holds parser (term.means grammar args))
    (separates : Refines Holds separator (between.means grammar args)) (n : Nat) :
    Refines Holds (Parser.sepBy1 parser separator n) fun source cursor result =>
      (Term.sepBy1 term between).means grammar args source cursor (result.map .list) := by
  -- A round is the sequence of a separator and a match, of which the second value is picked.
  have round : Refines Holds (do let _ ← separator; parser)
      (picked Value.second ((Term.sequence [between, term]).means grammar args)) := by
    refine separates.bind (fun _ => refines) ?_ fun _ _ failed =>
      ⟨.failed, .sequence_first failed, rfl⟩
    intro source cursor found middle result separated matched
    cases result with
    | matched value stop =>
      exact ⟨.matched (.list [found, value]) stop,
        .sequence_cons separated (.sequence_cons matched .sequence_nil), rfl⟩
    | failed => exact ⟨.failed, .sequence_later separated (.sequence_first matched), rfl⟩
  refine Refines.headed refines (round.many n) ?_ fun _ _ failed => .sepBy1_failed failed
  exact fun source cursor value middle items stop matched rest => .sepBy1 matched rest

theorem Uniform.refines (uniform : grammar.Uniform shapes) (pure : grammar.Pure) (n : Nat)
    (args : List Arg) {term : Term} (termPure : term.Pure) (typed : term.Typed grammar shapes) :
    Refines (Faithful grammar shapes) (term.parser grammar n args) (term.means grammar args) := by
  induction n generalizing args term with
  | zero =>
    simp only [Term.parser]
    exact .stop
  | succ n ih =>
    have part {part : Term} (member : part ∈ term.parts) :
        Refines (Faithful grammar shapes) (part.parser grammar n args) (part.means grammar args) :=
      ih args (termPure.part member) (typed.part member)
    cases term with
    | literal text =>
      simp only [Term.parser, literal_eq]
      exact .matcher _ (forward_literal text) fun _ _ within =>
        result_literal text within ▸ .literal text
    | charWhere test label =>
      simp only [Term.parser, charWhere_eq]
      exact .matcher _ (forward_char test label) fun _ _ within =>
        result_char test label within ▸ .charWhere test label
    | charBetween first last =>
      simp only [Term.parser, Parser.charBetween, charWhere_eq]
      exact .matcher _ (forward_char _ _) fun _ _ within =>
        result_char _ _ within ▸ .charBetween first last
    | noneOf excluded =>
      simp only [Term.parser, Parser.noneOf, charWhere_eq]
      exact .matcher _ (forward_char _ _) fun _ _ within => result_char _ _ within ▸ .noneOf excluded
    | anyChar =>
      simp only [Term.parser, Parser.anyChar, charWhere_eq]
      exact .matcher _ (forward_char _ _) fun _ _ within => result_char _ _ within ▸ .anyChar
    | endOfInput =>
      simp only [Term.parser, endOfInput_eq]
      exact .matcher _ forward_end fun _ _ _ => result_end ▸ .endOfInput
    | run test label =>
      simp only [Term.parser, run_eq]
      exact .matcher _ (forward_run test label) fun _ _ within =>
        result_run test label within ▸ .run test label
    | run1 test label =>
      simp only [Term.parser, run1_eq]
      exact .matcher _ (forward_run1 test label) fun _ _ within =>
        result_run1 test label within ▸ .run1 test label
    | peek =>
      simp only [Term.parser, peek_eq]
      exact .matcher _ forward_peek fun _ _ _ => result_peek ▸ .peek
    | consume =>
      simp only [Term.parser, consume_eq]
      exact .matcher _ forward_consume fun _ _ _ => result_consume ▸ .consume
    | sequence terms => exact .map _ (.sequence fun item => part) fun _ _ _ => id
    | attempt term =>
      exact (part (.head [])).attempt.imp fun _ _ _ => .attempt
    | choice terms => exact .choice fun item => part
    | many term =>
      have round : Refines (Faithful grammar shapes) (term.parser grammar n args)
          (picked id (term.means grammar args)) :=
        (part (.head [])).imp fun _ _ result holds => ⟨result, holds, by cases result <;> rfl⟩
      refine .map _ (round.many n) ?_
      rintro source cursor _ ⟨items, stop, holds, rfl⟩
      simpa [Result.map] using holds
    | many1 term => exact .map _ ((part (.head [])).many1 n) fun _ _ _ => id
    | sepBy term separator =>
      have listed := (part (.head [separator])).sepBy1 (part (.tail _ (.head []))) n
      have chosen : Refines (Faithful grammar shapes) (Parser.optional (Parser.sepBy1
          (term.parser grammar n args) (separator.parser grammar n args) n))
          fun source cursor result => (Term.sepBy term separator).means grammar args source cursor
            (result.map fun values => .list (values.getD [])) :=
        listed.optional (fun _ _ _ _ => .sepBy) fun _ _ => .sepBy_none
      refine .map _ (.bind chosen (fun values => .pure (values.getD [])) ?_ fun _ _ => id)
        fun _ _ _ => id
      rintro source cursor values stop _ holds rfl
      exact holds
    | sepBy1 term separator =>
      exact .map _ ((part (.head [separator])).sepBy1 (part (.tail _ (.head []))) n)
        fun _ _ _ => id
    | optional term =>
      have chosen : Refines (Faithful grammar shapes) (Parser.optional (term.parser grammar n args))
          fun source cursor result => (Term.optional term).means grammar args source cursor
            (result.map fun found => .list found.toList) :=
        (part (.head [])).optional (fun _ _ _ _ => .optional) fun _ _ => .optional_none
      exact .map _ chosen fun _ _ _ => id
    | notHere label term =>
      have absent : Refines (Faithful grammar shapes)
          (Parser.notHere label (term.parser grammar n args))
          fun source cursor result => (Term.notHere label term).means grammar args source cursor
            (result.map fun _ => .null) :=
        (part (.head [])).notHere label (fun _ _ _ _ => .notHere_failed label)
          fun _ _ => .notHere label
      exact .map _ absent fun _ _ _ => id
    | ahead term =>
      exact (part (.head [])).ahead (fun _ _ _ _ => .ahead) fun _ _ => .ahead_failed
    | atomic label term =>
      exact ((part (.head [])).atomic label).imp fun _ _ _ => .atomic label
    | expect label term =>
      exact ((part (.head [])).expect label).imp fun _ _ _ => .expect label
    | precedence level term =>
      exact (part (.head [])).precedence level (fun _ _ _ => .precedence)
        fun _ _ => .precedence_failed
    | atLevel level term =>
      exact ((part (.head [])).atLevel level).imp fun _ _ _ => .atLevel
    | register label =>
      refine (Refines.register (fun _ cursor => cursor.index) label Value.null).imp ?_
      rintro source cursor _ rfl
      exact .register label
    | registerAt index label =>
      refine (Refines.register (fun _ _ => index) label Value.null).imp ?_
      rintro source cursor _ rfl
      exact .registerAt index label
    | failAt index label =>
      refine (Refines.miss noMatch (some (index, label))).imp ?_
      rintro source cursor _ rfl
      exact .failAt index label
    | call shape key argTerms =>
      simp only [Term.parser]
      cases found : grammar.find? key with
      | none =>
        refine (Refines.miss noMatch none).imp ?_
        rintro source cursor _ rfl
        exact .call_unknown found
      | some definition =>
        obtain rfl : shape = shapes definition.rule.name := typed.shape found
        exact ((ih (argTerms.map (ArgTerm.resolve args)) (pure.body found)
          (uniform.typed found)).invoke uniform found n).imp fun _ _ _ => .call found
    | ifArg index arg yes no =>
      simp only [Term.parser]
      split
      next same =>
        refine (part (.head [no])).imp fun source cursor result holds => .ifArg ?_
        simpa only [same, if_true] using holds
      next different =>
        refine (part (.tail _ (.head []))).imp fun source cursor result holds => .ifArg ?_
        simpa only [different, if_false] using holds
    | literalArg index =>
      simp only [Term.parser]
      cases spelled : textArg? (argAt args index) with
      | some text =>
        simp only [literal_eq]
        exact .matcher _ (forward_literal text) fun _ _ within =>
          result_literal text within ▸ .literalArg spelled
      | none =>
        refine (Refines.miss noMatch none).imp ?_
        rintro source cursor _ rfl
        exact .literalArg_failed spelled
    | timesArg index term =>
      have parts : ∀ item ∈ List.replicate (repetitions (argAt args index)) term,
          Refines (Faithful grammar shapes) (item.parser grammar n args)
            (item.means grammar args) := by
        intro item member
        obtain rfl := List.eq_of_mem_replicate member
        exact part (.head [])
      have listed := Refines.sequence parts
      rw [List.map_replicate, ← times_eq_sequence] at listed
      exact .map _ listed fun _ _ _ => .timesArg
    | precedenceArg index term =>
      exact (part (.head [])).precedence (levelOf (argAt args index))
        (fun _ _ _ allowed holds => .precedenceArg (.precedence allowed holds))
        fun _ _ below => .precedenceArg (.precedence_failed below)
    | textOf term =>
      rw [Term.parser_textOf]
      refine .looking _ fun start => .bind (part (.head [])) (fun _ => .look _) ?_ ?_
      next => rintro source cursor value stop _ matched rfl rfl; exact .textOf matched
      next => exact fun source cursor failed _ => .textOf_failed failed
    | tag name term => exact .map _ (part (.head [])) fun _ _ _ => .tag name
    | const value =>
      refine (Refines.pure value).imp ?_
      rintro source cursor _ rfl
      exact .const value
    | fail | save | restore | inspect | count | ifCount | bind | allow | ask =>
      cases termPure.plain

theorem Uniform.kept (uniform : grammar.Uniform shapes) (pure : grammar.Pure) :
    Kept (Faithful grammar shapes) grammar fun term => term.Pure ∧ term.Typed grammar shapes where
  part admitted member := ⟨admitted.1.part member, admitted.2.part member⟩
  body found := ⟨pure.body found, uniform.typed found⟩
  preserves n args _ admitted := (uniform.refines pure n args admitted.1 admitted.2).preserves

/-- A run in which no active call is made refines the meaning of its term as a parsing expression,
whatever is memoized: the term and all that is evaluated on the way show the one result that they
have. -/
theorem Uniform.shows_parsing_expressions (uniform : grammar.Uniform shapes) (pure : grammar.Pure)
    {term : Term} (termPure : term.Pure) (typed : term.Typed grammar shapes) (source : Source)
    (config : Config) :
    ∃ ending, term.EndsWith grammar [] { source, config } ending ∧
      ((∀ call index seeded,
          .step call index (.reentered seeded) ∉ (Ending.machine ending).journal) →
        ∃ least, ∀ budget ≥ least, ∀ inner : Evaluation,
          Evaluation.Visits grammar { budget, term, machine := { source, config } } inner →
          ∃ result, shown? (inner.ending grammar) = some result ∧
            ∀ other, Peg grammar source inner.args inner.machine.cursor.level inner.term
              inner.machine.cursor.index other ↔ other = result) := by
  have sound := Machine.Sound.fresh (ν := Stored) source config {}
  obtain ⟨ending, ends⟩ := pure.exists_ending termPure [] sound
  refine ⟨ending, ends, fun absent => ?_⟩
  obtain ⟨whole, least, runs⟩ := ends
  refine ⟨least, fun budget enough inner visits => ?_⟩
  have fit : Machine.Fit (Faithful grammar shapes) { source, config } :=
    ⟨sound, Nat.zero_le _, fun call verdict found => by
      simp [MemoTable.find?_eq, MemoTable.entries] at found⟩
  have unbroken :
      Machine.Unbroken { source, config } (term.parser grammar budget [] { source, config }) := by
    rw [runs budget enough]
    exact ⟨whole, reentries_eq_zero.mpr absent⟩
  obtain ⟨admitted, sees⟩ := (uniform.kept pure).visits visits ⟨termPure, typed⟩
  have refines := uniform.refines pure inner.budget inner.args admitted.1 admitted.2
  have meant := refines.meant inner.machine (sees.fit fit unbroken)
    (sees.unbroken refines.preserves.orderly.appends unbroken)
  obtain ⟨result, shows, means⟩ := meant.result
  rw [sees.source] at means
  exact ⟨result, shows, fun other => ⟨fun also => also.unique means, fun same => same ▸ means⟩⟩

end Terms

def nests : Grammar where
  definitions :=
    [("nest",
      { rule := { name := { grammar := "nests", rule := "nest" } }
        body := .choice [.sequence [.literal "(", .many (.call .plain "nest" []), .literal ")"],
          .charBetween '0' '9'] })]

theorem shows_parsing_expressions_nests :
    nests.Uniform (fun _ => .plain) ∧ nests.Pure ∧ ∀ memoize : Bool,
      ∃ least, ∀ budget ≥ least, ∀ inner : Evaluation,
        Evaluation.Visits nests { budget, term := .call .plain "nest" [], machine :=
          { source := .ofString "(1(2))", config := { memoize } } } inner →
        ∃ result, shown? (inner.ending nests) = some result ∧
          ∀ other, Peg nests (.ofString "(1(2))") inner.args inner.machine.cursor.level inner.term
            inner.machine.cursor.index other ↔ other = result := by
  have uniform : nests.Uniform fun _ => .plain := .of_distinct (by decide) (by decide)
  have pure : nests.Pure := by decide
  have termPure : (Term.call .plain "nest" []).Pure := by decide
  refine ⟨uniform, pure, fun memoize => ?_⟩
  obtain ⟨ending, ends, shows⟩ := uniform.shows_parsing_expressions pure termPure (by decide)
    (.ofString "(1(2))") { memoize }
  refine shows (reentries_eq_zero.mp ?_)
  have same : ending = (Term.call .plain "nest" []).trial nests
      { source := .ofString "(1(2))", config := { memoize } } :=
    ends.unique (Term.trial_ends pure termPure (by cases memoize <;> decide +kernel))
  rw [same]
  cases memoize <;> decide +kernel

end Packrat.Grammar
