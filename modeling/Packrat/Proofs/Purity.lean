import Mathlib.Data.List.Nodup
import Packrat.Grammar.TermParser

set_option autoImplicit false

namespace Packrat.Grammar

def Term.parts : Term → List Term
  | .sequence terms | .choice terms => terms
  | .attempt term | .many term | .many1 term | .optional term | .ahead term => [term]
  | .notHere _ term | .atomic _ term | .expect _ term => [term]
  | .precedence _ term | .atLevel _ term | .timesArg _ term | .precedenceArg _ term => [term]
  | .textOf term | .tag _ term | .count _ term => [term]
  | .sepBy term separator | .sepBy1 term separator => [term, separator]
  | .ifArg _ _ yes no | .ifCount _ _ yes no => [yes, no]
  | _ => []

mutual

def Term.all (test : Term → Bool) (term : Term) : Bool :=
  test term &&
    match term with
    | .sequence terms | .choice terms => allOf test terms
    | .attempt term | .many term | .many1 term | .optional term | .ahead term => term.all test
    | .notHere _ term | .atomic _ term | .expect _ term => term.all test
    | .precedence _ term | .atLevel _ term | .timesArg _ term | .precedenceArg _ term =>
      term.all test
    | .textOf term | .tag _ term | .count _ term => term.all test
    | .sepBy term separator | .sepBy1 term separator => term.all test && separator.all test
    | .ifArg _ _ yes no | .ifCount _ _ yes no => yes.all test && no.all test
    | _ => true

def allOf (test : Term → Bool) : List Term → Bool
  | [] => true
  | term :: terms => term.all test && allOf test terms

end

theorem allOf_iff {test : Term → Bool} {terms : List Term} :
    allOf test terms = true ↔ ∀ term ∈ terms, term.all test = true := by
  induction terms with
  | nil => simp [allOf]
  | cons term terms ih => simp [allOf, ih]

namespace Term

variable {test : Term → Bool} {term : Term}

theorem passes_of_all (all : term.all test = true) : test term = true := by
  rw [Term.all.eq_def, Bool.and_eq_true] at all
  exact all.1

theorem all_of_part {part : Term} (all : term.all test = true) (member : part ∈ term.parts) :
    part.all test = true := by
  rw [Term.all.eq_def, Bool.and_eq_true] at all
  have inner := all.2
  cases term <;> simp only [Term.parts, List.mem_cons, List.not_mem_nil, or_false] at member
  case sequence | choice => exact allOf_iff.mp inner part member
  case sepBy | sepBy1 | ifArg | ifCount =>
    have both := (Bool.and_eq_true _ _).mp inner
    rcases member with rfl | rfl
    next => exact both.1
    next => exact both.2
  all_goals
    subst member
    exact inner

def plain : Term → Bool
  | .fail _ | .save _ | .restore _ _ | .inspect _ | .count _ _ | .ifCount _ _ _ _ => false
  | .bind _ | .allow _ | .ask _ => false
  | _ => true

def Pure (term : Term) : Prop :=
  term.all plain = true

instance (term : Term) : Decidable term.Pure :=
  inferInstanceAs (Decidable (_ = true))

def consistent (grammar : Grammar) (shapes : RuleName → Shape) : Term → Bool
  | .call shape key _ =>
    match grammar.find? key with
    | none => true
    | some definition => shape = shapes definition.rule.name
  | _ => true

def Typed (grammar : Grammar) (shapes : RuleName → Shape) (term : Term) : Prop :=
  term.all (consistent grammar shapes) = true

instance (grammar : Grammar) (shapes : RuleName → Shape) (term : Term) :
    Decidable (term.Typed grammar shapes) :=
  inferInstanceAs (Decidable (_ = true))

theorem Pure.plain (pure : term.Pure) : term.plain = true :=
  passes_of_all pure

theorem Pure.part {part : Term} (pure : term.Pure) (member : part ∈ term.parts) : part.Pure :=
  all_of_part pure member

theorem Typed.part {grammar : Grammar} {shapes : RuleName → Shape} {part : Term}
    (typed : term.Typed grammar shapes) (member : part ∈ term.parts) :
    part.Typed grammar shapes :=
  all_of_part typed member

theorem Typed.shape {grammar : Grammar} {shapes : RuleName → Shape} {shape : Shape} {key : String}
    {argTerms : List ArgTerm} {definition : Definition}
    (typed : (Term.call shape key argTerms).Typed grammar shapes)
    (found : grammar.find? key = some definition) : shape = shapes definition.rule.name := by
  have same := passes_of_all typed
  simpa [consistent, found] using same

end Term

def Pure (grammar : Grammar) : Prop :=
  ∀ entry ∈ grammar.definitions, entry.2.body.Pure

instance (grammar : Grammar) : Decidable grammar.Pure :=
  inferInstanceAs (Decidable (∀ entry ∈ grammar.definitions, entry.2.body.Pure))

theorem mem_of_find? {grammar : Grammar} {key : String} {definition : Definition}
    (found : grammar.find? key = some definition) : (key, definition) ∈ grammar.definitions := by
  unfold Grammar.find? at found
  obtain ⟨before, after, split, _⟩ := List.lookup_eq_some_iff.mp found
  simp [split]

theorem Pure.body {grammar : Grammar} {key : String} {definition : Definition}
    (pure : grammar.Pure) (found : grammar.find? key = some definition) : definition.body.Pure :=
  pure _ (mem_of_find? found)

/-- Every rule has one body, however many keys define it, and one type of results. -/
structure Uniform (grammar : Grammar) (shapes : RuleName → Shape) : Prop where
  typed : ∀ {key definition}, grammar.find? key = some definition →
    definition.body.Typed grammar shapes
  unique : ∀ {key other definition alternative}, grammar.find? key = some definition →
    grammar.find? other = some alternative → definition.rule.name = alternative.rule.name →
    definition.body = alternative.body

theorem Uniform.of_distinct {grammar : Grammar} {shapes : RuleName → Shape}
    (distinct : (grammar.definitions.map fun entry => entry.2.rule.name).Nodup)
    (typed : ∀ entry ∈ grammar.definitions, entry.2.body.Typed grammar shapes) :
    grammar.Uniform shapes where
  typed found := typed _ (mem_of_find? found)
  unique found other same := by
    have equal := List.inj_on_of_nodup_map distinct (mem_of_find? found) (mem_of_find? other) same
    exact congrArg (fun entry => entry.2.body) equal

end Packrat.Grammar
