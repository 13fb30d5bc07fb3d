import Mathlib.Logic.Relation
import Packrat.Proofs.Containment
import Packrat.Proofs.Purity

set_option autoImplicit false

namespace Packrat.Grammar

open Packrat.Parser

structure Evaluation where
  budget : Nat
  args : List Arg := []
  term : Term
  machine : Machine Stored

namespace Evaluation

def parser (grammar : Grammar) (evaluation : Evaluation) : Parser Stored Value :=
  evaluation.term.parser grammar evaluation.budget evaluation.args

def ending (grammar : Grammar) (evaluation : Evaluation) : Ending Stored Value :=
  evaluation.parser grammar evaluation.machine

/-- What the evaluation of a term has evaluated next below it. -/
inductive Has (grammar : Grammar) : Evaluation → Evaluation → Prop
  | sequence {n : Nat} {args : List Arg} {before after : List Term} {part : Term}
      {machine middle : Machine Stored} {values : List Value}
      (matched : Parser.sequence (before.map (Term.parser grammar n args)) machine =
        .ok values middle) :
      Has grammar ⟨n + 1, args, .sequence (before ++ part :: after), machine⟩ ⟨n, args, part, middle⟩
  | choice {n : Nat} {args : List Arg} {before after : List Term} {part : Term}
      {machine middle : Machine Stored} {failure : Failure}
      (failed : Parser.choice (before.map (Term.parser grammar n args)) machine =
        .error failure middle) (recoverable : failure.recoverable = true) :
      Has grammar ⟨n + 1, args, .choice (before ++ part :: after), machine⟩ ⟨n, args, part, middle⟩
  | times {n index done : Nat} {args : List Arg} {part : Term} {machine middle : Machine Stored}
      {values : List Value} (left : done < repetitions (argAt args index))
      (matched : Parser.times (part.parser grammar n args) done machine = .ok values middle) :
      Has grammar ⟨n + 1, args, .timesArg index part, machine⟩ ⟨n, args, part, middle⟩
  | many {n done : Nat} {args : List Arg} {part : Term} {machine middle : Machine Stored}
      (left : done < n) (rounds : Repeats (part.parser grammar n args) done machine middle) :
      Has grammar ⟨n + 1, args, .many part, machine⟩ ⟨n, args, part, middle⟩
  | many1_first {n : Nat} {args : List Arg} {part : Term} {machine : Machine Stored} :
      Has grammar ⟨n + 1, args, .many1 part, machine⟩ ⟨n, args, part, machine⟩
  | many1_later {n done : Nat} {args : List Arg} {part : Term}
      {machine between middle : Machine Stored} {value : Value}
      (matched : part.parser grammar n args machine = .ok value between) (left : done < n)
      (rounds : Repeats (part.parser grammar n args) done between middle) :
      Has grammar ⟨n + 1, args, .many1 part, machine⟩ ⟨n, args, part, middle⟩
  | sepBy_first {n : Nat} {args : List Arg} {whole part separator : Term}
      {machine : Machine Stored}
      (either : whole = .sepBy part separator ∨ whole = .sepBy1 part separator) :
      Has grammar ⟨n + 1, args, whole, machine⟩ ⟨n, args, part, machine⟩
  | sepBy_separator {n done : Nat} {args : List Arg} {whole part separator : Term}
      {machine between middle : Machine Stored} {value : Value}
      (either : whole = .sepBy part separator ∨ whole = .sepBy1 part separator)
      (matched : part.parser grammar n args machine = .ok value between) (left : done < n)
      (rounds : Repeats (do
        let _ ← separator.parser grammar n args
        part.parser grammar n args) done between middle) :
      Has grammar ⟨n + 1, args, whole, machine⟩ ⟨n, args, separator, middle⟩
  | sepBy_later {n done : Nat} {args : List Arg} {whole part separator : Term}
      {machine between middle last : Machine Stored} {value found : Value}
      (either : whole = .sepBy part separator ∨ whole = .sepBy1 part separator)
      (matched : part.parser grammar n args machine = .ok value between) (left : done < n)
      (rounds : Repeats (do
        let _ ← separator.parser grammar n args
        part.parser grammar n args) done between middle)
      (separated : separator.parser grammar n args middle = .ok found last) :
      Has grammar ⟨n + 1, args, whole, machine⟩ ⟨n, args, part, last⟩
  | attempt {n : Nat} {args : List Arg} {part : Term} {machine : Machine Stored} :
      Has grammar ⟨n + 1, args, .attempt part, machine⟩ ⟨n, args, part, machine⟩
  | optional {n : Nat} {args : List Arg} {part : Term} {machine : Machine Stored} :
      Has grammar ⟨n + 1, args, .optional part, machine⟩ ⟨n, args, part, machine⟩
  | ahead {n : Nat} {args : List Arg} {part : Term} {machine : Machine Stored} :
      Has grammar ⟨n + 1, args, .ahead part, machine⟩ ⟨n, args, part, machine⟩
  | notHere {n : Nat} {args : List Arg} {part : Term} {machine : Machine Stored} (label : String) :
      Has grammar ⟨n + 1, args, .notHere label part, machine⟩
        ⟨n, args, part, machine.pushFrame machine.cursor.index⟩
  | atomic {n : Nat} {args : List Arg} {part : Term} {machine : Machine Stored} (label : String) :
      Has grammar ⟨n + 1, args, .atomic label part, machine⟩
        ⟨n, args, part, machine.pushFrame machine.cursor.index⟩
  | expect {n : Nat} {args : List Arg} {part : Term} {machine : Machine Stored} (label : String) :
      Has grammar ⟨n + 1, args, .expect label part, machine⟩
        ⟨n, args, part, machine.pushFrame machine.cursor.index⟩
  | precedence {n : Nat} {args : List Arg} {part : Term} {machine : Machine Stored} {level : Int32}
      (allowed : ¬ level < machine.cursor.level) :
      Has grammar ⟨n + 1, args, .precedence level part, machine⟩
        ⟨n, args, part, machine.setLevel level⟩
  | precedenceArg {n index : Nat} {args : List Arg} {part : Term} {machine : Machine Stored}
      (allowed : ¬ levelOf (argAt args index) < machine.cursor.level) :
      Has grammar ⟨n + 1, args, .precedenceArg index part, machine⟩
        ⟨n, args, part, machine.setLevel (levelOf (argAt args index))⟩
  | atLevel {n : Nat} {args : List Arg} {part : Term} {machine : Machine Stored} (level : Int32) :
      Has grammar ⟨n + 1, args, .atLevel level part, machine⟩
        ⟨n, args, part, machine.setLevel level⟩
  | ifArg_yes {n index : Nat} {args : List Arg} {arg : Arg} {yes no : Term}
      {machine : Machine Stored} (same : argAt args index = arg) :
      Has grammar ⟨n + 1, args, .ifArg index arg yes no, machine⟩ ⟨n, args, yes, machine⟩
  | ifArg_no {n index : Nat} {args : List Arg} {arg : Arg} {yes no : Term}
      {machine : Machine Stored} (different : argAt args index ≠ arg) :
      Has grammar ⟨n + 1, args, .ifArg index arg yes no, machine⟩ ⟨n, args, no, machine⟩
  | textOf {n : Nat} {args : List Arg} {part : Term} {machine : Machine Stored} :
      Has grammar ⟨n + 1, args, .textOf part, machine⟩ ⟨n, args, part, machine⟩
  | tag {n : Nat} {args : List Arg} {part : Term} {machine : Machine Stored} (name : String) :
      Has grammar ⟨n + 1, args, .tag name part, machine⟩ ⟨n, args, part, machine⟩
  | call {n done : Nat} {args passed : List Arg} {shape : Shape} {key : String}
      {argTerms : List ArgTerm} {definition : Definition} {call : Call}
      {machine start middle : Machine Stored} (found : grammar.find? key = some definition)
      (resolved : passed = argTerms.map (ArgTerm.resolve args))
      (own : call = callOf definition.rule passed machine)
      (begun : begins? call (definition.rule.memoized && machine.config.memoize)
        (machine.report call .entering) = some start)
      (left : done < n)
      (regrows : Regrows (Stored.codec shape) call (definition.body.parser grammar n passed) done
        start middle) :
      Has grammar ⟨n + 1, args, .call shape key argTerms, machine⟩
        ⟨n, passed, definition.body, middle⟩

/-- What the evaluation of a term has evaluated on the way, near or far below it, and the term
itself. -/
def Visits (grammar : Grammar) : Evaluation → Evaluation → Prop :=
  Relation.ReflTransGen (Has grammar)

end Evaluation

structure Kept (Holds : Source → MemoTable Stored → Prop) (grammar : Grammar)
    (Admits : Term → Prop) : Prop where
  part : ∀ {term part}, Admits term → part ∈ term.parts → Admits part
  body : ∀ {key definition}, grammar.find? key = some definition → Admits definition.body
  preserves : ∀ (n : Nat) (args : List Arg) {term}, Admits term →
    Preserves Holds (term.parser grammar n args)

def headed {α : Type} (parser loop : Parser Stored α) (n : Nat) : Parser Stored (List α) := do
  let value ← attempt parser
  let values ← many loop n
  return value :: values

theorem orderly_headed {α : Type} {parser loop : Parser Stored α} (orderly : Orderly parser)
    (rounds : Orderly loop) (n : Nat) : Orderly (headed parser loop n) :=
  orderly_blocks.bind (orderly_blocks.attempt orderly) fun value =>
    orderly_blocks.bind (orderly_blocks.many orderly_stop rounds n) fun values =>
      orderly_blocks.pure (value :: values)

namespace Kept

variable {Holds : Source → MemoTable Stored → Prop} {grammar : Grammar} {Admits : Term → Prop}
  {outer inner : Evaluation}

theorem map {α β : Type} {part : Parser Stored α} {parser : Parser Stored β}
    {before machine : Machine Stored} (f : β → Value) (orderly : Orderly parser)
    (sees : Sees Holds part before parser machine) : Sees Holds part before (f <$> parser) machine := by
  rw [map_eq]
  exact sees.trans (.bind_first (fun value => orderly_blocks.pure (f value)) machine) orderly.appends

theorem sees_attempt {α : Type} {parser : Parser Stored α} (machine : Machine Stored) :
    Sees Holds parser machine (attempt parser) machine := by
  rw [attempt_eq]
  exact .branch_first (fun value => orderly_blocks.pure value)
    (fun mismatch => orderly_blocks.structural.miss mismatch) machine

theorem sees_optional {α : Type} {parser : Parser Stored α} (machine : Machine Stored) :
    Sees Holds parser machine (optional parser) machine := by
  rw [optional_eq]
  exact .branch_first (fun value => orderly_blocks.pure (some value))
    (fun _ => orderly_blocks.pure none) machine

theorem sees_first {α : Type} {parser loop : Parser Stored α} (orderly : Orderly parser)
    (rounds : Orderly loop) (n : Nat) (machine : Machine Stored) :
    Sees Holds parser machine (headed parser loop n) machine := by
  have attempted : Orderly (attempt parser) := orderly_blocks.attempt orderly
  refine (sees_attempt machine).trans (.bind_first (fun value => ?_) machine) attempted.appends
  exact orderly_blocks.bind (orderly_blocks.many orderly_stop rounds n) fun values =>
    orderly_blocks.pure (value :: values)

theorem sees_loop {α : Type} {parser loop : Parser Stored α} (preserves : Preserves Holds parser)
    (rounds : Orderly loop) {n : Nat} {machine between : Machine Stored} {value : α}
    (matched : parser machine = .ok value between) :
    Sees Holds (many loop n) between (headed parser loop n) machine := by
  have repeated : Orderly (many loop n) := orderly_blocks.many orderly_stop rounds n
  have followed (values : List α) : Orderly (ν := Stored) (pure (value :: values)) :=
    orderly_blocks.pure (value :: values)
  refine (Sees.bind_first followed between).trans (.next preserves ?_ matched ?_) ?_
  next => exact orderly_blocks.bind repeated followed
  next => rw [headed, bind_apply, attempt, matched]
  next => exact (orderly_blocks.bind repeated followed).appends

theorem sees_precedence {α : Type} {parser : Parser Stored α} {level : Int32}
    {machine : Machine Stored} (allowed : ¬ level < machine.cursor.level) :
    Sees Holds parser (machine.setLevel level) (precedence level parser) machine := by
  have same : precedence level parser machine = atLevel level parser machine := by
    simp only [precedence, allowed, if_false]
  have sees : Sees Holds parser (machine.setLevel level) (atLevel level parser) machine :=
    .atLevel parser level machine
  exact { sees with precedes := same ▸ sees.precedes, fit := same ▸ sees.fit }

theorem sees_isolated {α β : Type} {parser : Parser Stored α} {whole : Parser Stored β}
    {next : Except (Mismatch × Nat) α → Parser Stored β} (orderly : Orderly parser)
    (continued : ∀ result, Orderly (next result)) {machine : Machine Stored}
    (same : whole machine = (isolated parser >>= next) machine) :
    Sees Holds parser (machine.pushFrame machine.cursor.index) whole machine := by
  refine .trans (.pushFrame machine _ (leads_isolated parser machine))
    (.trans (.bind_first continued machine) (.start rfl rfl rfl id ?_)
      (orderly_blocks.bind (orderly_blocks.isolated orderly) continued).appends)
    (orderly_blocks.isolated orderly).appends
  rw [same]
  exact ⟨id, (Machine.Later.refl _).onward⟩

theorem sees_atomic {α : Type} (label : String) {parser : Parser Stored α} (orderly : Orderly parser)
    (machine : Machine Stored) :
    Sees Holds parser (machine.pushFrame machine.cursor.index) (atomic label parser) machine := by
  refine sees_isolated orderly (fun result => ?_) (by rw [atomic_eq, bind_look])
  cases result with
  | ok value => exact orderly_blocks.pure value
  | error missed => exact orderly_blocks.compositional.miss missed.1 _

theorem sees_expect {α : Type} (label : String) {parser : Parser Stored α} (orderly : Orderly parser)
    (machine : Machine Stored) :
    Sees Holds parser (machine.pushFrame machine.cursor.index) (expect label parser) machine := by
  refine sees_isolated orderly (fun result => ?_) (by rw [expect_eq])
  cases result with
  | ok value => exact orderly_blocks.pure value
  | error missed => exact orderly_blocks.compositional.miss missed.1 _

theorem separated_parts {whole part separator : Term}
    (either : whole = .sepBy part separator ∨ whole = .sepBy1 part separator) :
    part ∈ whole.parts ∧ separator ∈ whole.parts := by
  rcases either with rfl | rfl <;> simp [Term.parts]

theorem sees_separated {α : Type} {inner : Parser Stored α} {before machine : Machine Stored}
    {n : Nat} {args : List Arg} {whole part separator : Term}
    (either : whole = .sepBy part separator ∨ whole = .sepBy1 part separator)
    (orderly : Orderly (part.parser grammar n args))
    (separators : Orderly (separator.parser grammar n args))
    (sees : Sees Holds inner before (headed (part.parser grammar n args) (do
      let _ ← separator.parser grammar n args
      part.parser grammar n args) n) machine) :
    Sees Holds inner before (whole.parser grammar (n + 1) args) machine := by
  have listed := orderly_headed orderly (orderly_blocks.bind separators fun _ => orderly) n
  rcases either with rfl | rfl
  next =>
    have chosen := orderly_blocks.optional listed
    have collected (values : Option (List Value)) : Orderly (ν := Stored) (pure (values.getD [])) :=
      orderly_blocks.pure (values.getD [])
    have optional := sees.trans (sees_optional machine) listed.appends
    exact map Value.list (orderly_blocks.bind chosen collected)
      (optional.trans (.bind_first collected machine) chosen.appends)
  next => exact map Value.list listed sees

theorem sees (kept : Kept Holds grammar Admits) (has : outer.Has grammar inner)
    (admitted : Admits outer.term) :
    Admits inner.term ∧ Sees Holds (inner.parser grammar) inner.machine (outer.parser grammar)
      outer.machine := by
  induction has with
  | @sequence n args before after part machine middle values matched =>
    have preserves (item : Term) (member : item ∈ before ++ part :: after) :
        Preserves Holds (item.parser grammar n args) :=
      kept.preserves n args (kept.part admitted member)
    have orderly := orderly_blocks.sequence fun item member => (preserves item member).orderly
    exact ⟨kept.part admitted (by simp [Term.parts]),
      map Value.list orderly (sees_sequence preserves matched)⟩
  | @choice n args before after part machine middle failure failed recoverable =>
    have preserves (item : Term) (member : item ∈ before ++ part :: after) :
        Preserves Holds (item.parser grammar n args) :=
      kept.preserves n args (kept.part admitted member)
    exact ⟨kept.part admitted (by simp [Term.parts]), sees_choice preserves failed recoverable⟩
  | @times n index done args part machine middle values left matched =>
    have preserves := kept.preserves n args (kept.part admitted (.head []))
    exact ⟨kept.part admitted (.head []), map Value.list
      (orderly_blocks.times preserves.orderly _) (sees_times preserves left matched)⟩
  | @many n done args part machine middle left rounds =>
    have preserves := kept.preserves n args (kept.part admitted (.head []))
    exact ⟨kept.part admitted (.head []), map Value.list
      (orderly_blocks.many orderly_stop preserves.orderly n) (sees_many preserves left rounds)⟩
  | @many1_first n args part machine =>
    have orderly := (kept.preserves n args (kept.part admitted (.head []))).orderly
    exact ⟨kept.part admitted (.head []), map Value.list (orderly_headed orderly orderly n)
      (sees_first orderly orderly n machine)⟩
  | @many1_later n done args part machine between middle value matched left rounds =>
    have preserves := kept.preserves n args (kept.part admitted (.head []))
    have loop := orderly_blocks.many orderly_stop preserves.orderly n
    have sees := (sees_many preserves left rounds).trans
      (sees_loop preserves preserves.orderly matched) loop.appends
    exact ⟨kept.part admitted (.head []),
      map Value.list (orderly_headed preserves.orderly preserves.orderly n) sees⟩
  | @sepBy_first n args whole part separator machine either =>
    have members := separated_parts either
    have preserves := kept.preserves n args (kept.part admitted members.1)
    have separators := kept.preserves n args (kept.part admitted members.2)
    have loop := orderly_blocks.bind separators.orderly fun _ => preserves.orderly
    exact ⟨kept.part admitted members.1, sees_separated either preserves.orderly separators.orderly
      (sees_first preserves.orderly loop n machine)⟩
  | @sepBy_separator n done args whole part separator machine between middle value either matched
      left rounds =>
    have members := separated_parts either
    have preserves := kept.preserves n args (kept.part admitted members.1)
    have separators := kept.preserves n args (kept.part admitted members.2)
    have loop := preserves_blocks.bind separators fun _ => preserves
    have repeated := orderly_blocks.many orderly_stop loop.orderly n
    have first : Sees Holds (separator.parser grammar n args) middle _ middle :=
      .bind_first (fun _ => preserves.orderly) middle
    have sees := (first.trans (sees_many loop left rounds) loop.orderly.appends).trans
      (sees_loop preserves loop.orderly matched) repeated.appends
    exact ⟨kept.part admitted members.2,
      sees_separated either preserves.orderly separators.orderly sees⟩
  | @sepBy_later n done args whole part separator machine between middle last value found either
      matched left rounds separated =>
    have members := separated_parts either
    have preserves := kept.preserves n args (kept.part admitted members.1)
    have separators := kept.preserves n args (kept.part admitted members.2)
    have loop := preserves_blocks.bind separators fun _ => preserves
    have repeated := orderly_blocks.many orderly_stop loop.orderly n
    have second : Sees Holds (part.parser grammar n args) last
        (separator.parser grammar n args >>= fun _ => part.parser grammar n args) middle :=
      .next separators preserves.orderly separated (by rw [bind_apply, separated])
    have sees := (second.trans (sees_many loop left rounds) loop.orderly.appends).trans
      (sees_loop preserves loop.orderly matched) repeated.appends
    exact ⟨kept.part admitted members.1,
      sees_separated either preserves.orderly separators.orderly sees⟩
  | @attempt n args part machine =>
    have preserves := kept.preserves n args (kept.part admitted (.head []))
    exact ⟨kept.part admitted (.head []), sees_attempt machine⟩
  | @optional n args part machine =>
    have preserves := kept.preserves n args (kept.part admitted (.head []))
    exact ⟨kept.part admitted (.head []), map _ (orderly_blocks.optional preserves.orderly)
      (sees_optional machine)⟩
  | @ahead n args part machine =>
    exact ⟨kept.part admitted (.head []), .start rfl rfl rfl id (leads_ahead machine)⟩
  | @notHere n args part machine label =>
    have preserves := kept.preserves n args (kept.part admitted (.head []))
    exact ⟨kept.part admitted (.head []), map _ (orderly_blocks.notHere label preserves.orderly)
      (.pushFrame machine _ (leads_notHere _ label machine))⟩
  | @atomic n args part machine label =>
    have orderly := (kept.preserves n args (kept.part admitted (.head []))).orderly
    exact ⟨kept.part admitted (.head []), sees_atomic label orderly machine⟩
  | @expect n args part machine label =>
    have orderly := (kept.preserves n args (kept.part admitted (.head []))).orderly
    exact ⟨kept.part admitted (.head []), sees_expect label orderly machine⟩
  | @precedence n args part machine level allowed =>
    exact ⟨kept.part admitted (.head []), sees_precedence allowed⟩
  | @precedenceArg n index args part machine allowed =>
    exact ⟨kept.part admitted (.head []), sees_precedence allowed⟩
  | @atLevel n args part machine level =>
    exact ⟨kept.part admitted (.head []), .atLevel _ level machine⟩
  | @ifArg_yes n index args arg yes no machine same =>
    have selected : (Term.ifArg index arg yes no).parser grammar (n + 1) args =
        (yes.parser grammar n args : Parser Stored Value) := by
      simp only [Term.parser, same, if_true]
    refine ⟨kept.part admitted (.head _), ?_⟩
    simp only [Evaluation.parser, selected]
    exact .start rfl rfl rfl id ⟨id, (Machine.Later.refl _).onward⟩
  | @ifArg_no n index args arg yes no machine different =>
    have selected : (Term.ifArg index arg yes no).parser grammar (n + 1) args =
        (no.parser grammar n args : Parser Stored Value) := by
      simp only [Term.parser, different, if_false]
    refine ⟨kept.part admitted (.tail _ (.head _)), ?_⟩
    simp only [Evaluation.parser, selected]
    exact .start rfl rfl rfl id ⟨id, (Machine.Later.refl _).onward⟩
  | @textOf n args part machine =>
    have orderly := (kept.preserves n args (kept.part admitted (.head []))).orderly
    refine ⟨kept.part admitted (.head []), ?_⟩
    simp only [Evaluation.parser, Term.parser_textOf]
    have looked (start : Source × Nat) (value : Value) : Orderly (ν := Stored)
        (look fun _ cursor => Value.text (start.1.slice start.2 cursor.index)) :=
      orderly_blocks.structural.look _
    refine .trans (.bind_first (looked (machine.source, machine.cursor.index)) machine) ?_
      (orderly_blocks.bind orderly (looked _)).appends
    refine .start rfl rfl rfl id ?_
    rw [bind_look]
    exact ⟨id, (Machine.Later.refl _).onward⟩
  | @tag n args part machine name =>
    have preserves := kept.preserves n args (kept.part admitted (.head []))
    exact ⟨kept.part admitted (.head []), map _ preserves.orderly
      (.start rfl rfl rfl id ⟨id, (Machine.Later.refl _).onward⟩)⟩
  | @call n done args passed shape key argTerms definition call machine start middle found resolved
      own begun left regrows =>
    subst resolved own
    have body := kept.body found
    refine ⟨body, ?_⟩
    simp only [Evaluation.parser, Term.parser, found]
    exact sees_body (kept.preserves n _ body) begun left regrows

theorem visits (kept : Kept Holds grammar Admits) (visits : outer.Visits grammar inner)
    (admitted : Admits outer.term) :
    Admits inner.term ∧ Sees Holds (inner.parser grammar) inner.machine (outer.parser grammar)
      outer.machine := by
  induction visits with
  | refl => exact ⟨admitted, .start rfl rfl rfl id ⟨id, (Machine.Later.refl _).onward⟩⟩
  | @tail middle last _ has ih =>
    have found := kept.sees has ih.1
    have orderly := (kept.preserves middle.budget middle.args ih.1).orderly
    exact ⟨found.1, found.2.trans ih.2 orderly.appends⟩

end Kept

end Packrat.Grammar
