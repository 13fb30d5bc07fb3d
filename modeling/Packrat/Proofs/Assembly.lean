import Packrat.Proofs.Progress
import Packrat.Proofs.Purity

set_option autoImplicit false

namespace Packrat

namespace Parser

variable {ν : Type}

/-- A matcher registers its label only at an index that it can reach. -/
def Anchored {α : Type} (act : Source → Cursor → Move α) : Prop :=
  ∀ (source : Source) (cursor : Cursor) (index : Nat) (label : String),
    (act source cursor).label = some (index, label) → source.Reaches cursor { cursor with index }

theorem anchored_of_here {α : Type} {act : Source → Cursor → Move α}
    (here : ∀ source cursor index label, (act source cursor).label = some (index, label) →
      index = cursor.index) : Anchored act := by
  intro source cursor index label labelled
  rw [here source cursor index label labelled]
  exact .refl source cursor

theorem anchored_literal (text : String) : Anchored (literalMove text) := by
  apply anchored_of_here
  intro source cursor index label labelled
  unfold literalMove at labelled
  split at labelled <;> simp_all

theorem anchored_char (test : Char → Bool) (label : String) : Anchored (charMove test label) := by
  apply anchored_of_here
  intro source cursor index label labelled
  unfold charMove at labelled
  split at labelled
  next => split at labelled <;> simp_all
  next => simp_all

theorem anchored_peek : Anchored peekMove := by
  apply anchored_of_here
  intro source cursor index label labelled
  unfold peekMove at labelled
  split at labelled <;> simp_all

theorem anchored_consume : Anchored consumeMove := by
  apply anchored_of_here
  intro source cursor index label labelled
  unfold consumeMove at labelled
  split at labelled <;> simp_all

theorem anchored_end : Anchored endMove := by
  apply anchored_of_here
  intro source cursor index label labelled
  unfold endMove at labelled
  split at labelled <;> simp_all

theorem anchored_run (test : Char → Bool) (label : String) : Anchored (runMove test label) := by
  -- The label stands where the run stopped, which the cursor has reached.
  intro source cursor index other labelled
  have reached := forward_run test label source cursor
  simp only [runMove, Option.some.injEq, Prod.mk.injEq] at labelled reached
  rw [← labelled.1]
  exact reached

theorem anchored_run1 (test : Char → Bool) (label : String) : Anchored (run1Move test label) :=
  anchored_run test label

def levelMove (level : Int32) (_ : Source) (cursor : Cursor) : Move Unit :=
  if level < cursor.level then
    { outcome := .error noMatch
      cursor
      label := some (cursor.index,
        "term of precedence above or equal " ++ toString cursor.level.toInt) }
  else { outcome := .ok (), cursor }

theorem precedence_bind {α : Type} (level : Int32) (parser : Parser ν α) :
    precedence level parser = leaf (levelMove level) >>= fun _ => atLevel level parser := by
  funext machine
  by_cases below : level < machine.cursor.level <;>
    simp only [precedence, bind_apply, leaf, levelMove, below, if_true, if_false] <;> rfl

theorem forward_level (level : Int32) : Forward (levelMove level) := by
  intro source cursor
  unfold levelMove
  split <;> exact .refl source cursor

theorem anchored_level (level : Int32) : Anchored (levelMove level) := by
  apply anchored_of_here
  intro source cursor index label labelled
  unfold levelMove at labelled
  split at labelled <;> simp_all

structure Sequential (R : (α : Type) → Parser ν α → Parser ν α → Prop) : Prop where
  leaf : ∀ {α : Type} {act : Source → Cursor → Move α}, Forward act → Anchored act →
    R α (leaf act) (leaf act)
  bind : ∀ {α β : Type} {first second : Parser ν α} {next other : α → Parser ν β},
    R α first second → (∀ value, R β (next value) (other value)) →
      R β (first >>= next) (second >>= other)
  branch : ∀ {α β : Type} {first second : Parser ν α} {found other : α → Parser ν β}
    {missed lost : Mismatch → Parser ν β}, R α first second →
      (∀ value, R β (found value) (other value)) →
      (∀ mismatch, R β (missed mismatch) (lost mismatch)) →
      R β (branch first found missed) (branch second other lost)

/-- A relation between parsers that matchers and combinators respect. -/
structure Structural (R : (α : Type) → Parser ν α → Parser ν α → Prop) : Prop
    extends Sequential R where
  ahead : ∀ {α : Type} {first second : Parser ν α}, R α first second →
    R α (ahead first) (ahead second)
  notHere : ∀ {α : Type} {first second : Parser ν α} (label : String), R α first second →
    R Unit (notHere label first) (notHere label second)
  atomic : ∀ {α : Type} {first second : Parser ν α} (label : String), R α first second →
    R α (atomic label first) (atomic label second)
  expect : ∀ {α : Type} {first second : Parser ν α} (label : String), R α first second →
    R α (expect label first) (expect label second)
  atLevel : ∀ {α : Type} {first second : Parser ν α} (level : Int32), R α first second →
    R α (atLevel level first) (atLevel level second)

namespace Sequential

variable {R : (α : Type) → Parser ν α → Parser ν α → Prop} (respected : Sequential R)
variable {α β : Type} {first second : Parser ν α}

include respected

theorem look (read : Source → Cursor → α) : R α (look read) (look read) := by
  apply respected.leaf
  next => exact fun source cursor => .refl source cursor
  next => exact anchored_of_here (by simp)

theorem pure (value : α) : R α (pure value) (pure value) :=
  respected.look fun _ _ => value

theorem miss (mismatch : Mismatch) : R α (miss mismatch) (miss mismatch) := by
  apply respected.leaf
  next => exact fun source cursor => .refl source cursor
  next => exact anchored_of_here (by simp)

theorem noMatch : R α (fail .noMatch) (fail .noMatch) :=
  respected.miss Parser.noMatch

theorem register (label : String) (value : α) :
    R α (fun machine => .ok value (machine.register machine.cursor.index label))
      (fun machine => .ok value (machine.register machine.cursor.index label)) := by
  rw [register_eq fun _ cursor => cursor.index]
  apply respected.leaf
  next => exact fun source cursor => .refl source cursor
  next => exact anchored_of_here (by simp +contextual)

theorem map (f : α → β) (same : R α first second) : R β (f <$> first) (f <$> second) := by
  rw [map_eq, map_eq]
  exact respected.bind same fun value => respected.pure (f value)

theorem attempt (same : R α first second) : R α (attempt first) (attempt second) := by
  rw [attempt_eq, attempt_eq]
  exact respected.branch same respected.pure respected.miss

theorem sequence {γ : Type} {parts : List γ} {left right : γ → Parser ν α}
    (same : ∀ part ∈ parts, R α (left part) (right part)) :
    R (List α) (sequence (parts.map left)) (sequence (parts.map right)) := by
  induction parts with
  | nil => exact respected.pure []
  | cons part parts ih =>
    refine respected.bind (same part (by simp)) fun value => ?_
    refine respected.bind (ih fun part member => same part (by simp [member])) fun values => ?_
    exact respected.pure (value :: values)

theorem times (same : R α first second) (n : Nat) :
    R (List α) (times first n) (times second n) := by
  induction n with
  | zero => exact respected.pure []
  | succ n ih =>
    refine respected.bind same fun value => respected.bind ih fun values => ?_
    exact respected.pure (value :: values)

theorem choice {γ : Type} {parts : List γ} {left right : γ → Parser ν α}
    (same : ∀ part ∈ parts, R α (left part) (right part)) :
    R α (choice (parts.map left)) (choice (parts.map right)) := by
  induction parts with
  | nil => exact respected.noMatch
  | cons part parts ih =>
    rw [List.map_cons, List.map_cons, choice_cons, choice_cons]
    refine respected.branch (same part (by simp)) respected.pure fun _ => ?_
    exact ih fun part member => same part (by simp [member])

theorem optional (same : R α first second) :
    R (Option α) (optional first) (optional second) := by
  rw [optional_eq, optional_eq]
  exact respected.branch same (fun value => respected.pure (some value))
    fun _ => respected.pure none

theorem many_succ {n m : Nat} (same : R α first second)
    (rest : R (List α) (many first n) (many second m)) :
    R (List α) (many first (n + 1)) (many second (m + 1)) := by
  rw [Parser.many_succ, Parser.many_succ]
  refine respected.bind (respected.look _) fun start => ?_
  refine respected.branch same (fun value => ?_) fun _ => respected.pure []
  refine respected.bind (respected.look _) fun stop => ?_
  split
  next => exact respected.pure [value]
  next => exact respected.bind rest fun values => respected.pure (value :: values)

theorem many {n m : Nat}
    (stop : ∀ {α : Type} (parser : Parser ν α), R α (fail .exhausted) parser)
    (within : n ≤ m) (same : R α first second) : R (List α) (many first n) (many second m) := by
  induction n generalizing m with
  | zero => exact stop _
  | succ n ih =>
    obtain ⟨m, rfl⟩ : ∃ less, m = less + 1 := ⟨m - 1, by omega⟩
    exact respected.many_succ same (ih (by omega))

variable {n m : Nat} {separator other : Parser ν β}

theorem many1 (same : R α first second)
    (loop : R (List α) (Parser.many first n) (Parser.many second m)) :
    R (List α) (many1 first n) (many1 second m) :=
  respected.bind (respected.attempt same) fun value =>
    respected.bind loop fun values => respected.pure (value :: values)

theorem sepBy1 (same : R α first second) (separators : R β separator other)
    (loop : ∀ {left right : Parser ν α}, R α left right →
      R (List α) (Parser.many left n) (Parser.many right m)) :
    R (List α) (sepBy1 first separator n) (sepBy1 second other m) :=
  respected.bind (respected.attempt same) fun value =>
    respected.bind (loop (respected.bind separators fun _ => same)) fun values =>
      respected.pure (value :: values)

theorem sepBy (same : R α first second) (separators : R β separator other)
    (loop : ∀ {left right : Parser ν α}, R α left right →
      R (List α) (Parser.many left n) (Parser.many right m)) :
    R (List α) (sepBy first separator n) (sepBy second other m) :=
  respected.bind (respected.optional (respected.sepBy1 same separators loop)) fun values =>
    respected.pure (values.getD [])

theorem precedence (level : Int32)
    (same : R α (Parser.atLevel level first) (Parser.atLevel level second)) :
    R α (precedence level first) (precedence level second) := by
  rw [precedence_bind, precedence_bind]
  exact respected.bind (respected.leaf (forward_level level) (anchored_level level)) fun _ => same

end Sequential

end Parser

namespace Grammar

open Packrat.Parser

def Term.anchored : Term → Bool
  | .registerAt _ _ | .failAt _ _ => false
  | _ => true

theorem Term.parser_textOf (grammar : Grammar) (n : Nat) (args : List Arg) (term : Term) :
    (Term.textOf term).parser grammar (n + 1) args =
      look (fun source cursor => (source, cursor.index)) >>= fun start =>
        term.parser grammar n args >>= fun _ =>
          look fun _ cursor => .text (start.1.slice start.2 cursor.index) := by
  funext machine
  rw [bind_look, bind_apply]
  simp only [Term.parser]
  cases term.parser grammar n args machine <;> rfl

def Term.wraps : Term → Bool
  | .notHere _ _ | .ahead _ | .atomic _ _ | .expect _ _ | .precedence _ _ | .precedenceArg _ _
  | .atLevel _ _ => true
  | _ => false

theorem Term.sequenced {R : (α : Type) → Parser Stored α → Parser Stored α → Prop}
    (respected : Sequential R) {left right : Grammar} {n m : Nat} {args : List Arg} {term : Term}
    (plain : term.plain = true) (anchored : term.anchored = true)
    (wrapped : term.wraps = true →
      R Value (term.parser left (n + 1) args) (term.parser right (m + 1) args))
    (parts : ∀ part ∈ term.parts,
      R Value (part.parser left n args) (part.parser right m args))
    (loop : ∀ {α : Type} {first second : Parser Stored α}, R α first second →
      R (List α) (Parser.many first n) (Parser.many second m))
    (call : ∀ shape key argTerms, term = .call shape key argTerms →
      R Value (term.parser left (n + 1) args) (term.parser right (m + 1) args)) :
    R Value (term.parser left (n + 1) args) (term.parser right (m + 1) args) := by
  cases term with
  | literal text =>
    simp only [Term.parser, literal_eq]
    exact respected.map _ (respected.leaf (forward_literal text) (anchored_literal text))
  | charWhere test label =>
    simp only [Term.parser, charWhere_eq]
    exact respected.map _ (respected.leaf (forward_char test label) (anchored_char test label))
  | charBetween first last =>
    simp only [Term.parser, Parser.charBetween, charWhere_eq]
    exact respected.map _ (respected.leaf (forward_char _ _) (anchored_char _ _))
  | noneOf excluded =>
    simp only [Term.parser, Parser.noneOf, charWhere_eq]
    exact respected.map _ (respected.leaf (forward_char _ _) (anchored_char _ _))
  | anyChar =>
    simp only [Term.parser, Parser.anyChar, charWhere_eq]
    exact respected.map _ (respected.leaf (forward_char _ _) (anchored_char _ _))
  | endOfInput =>
    simp only [Term.parser, endOfInput_eq]
    exact respected.map _ (respected.leaf forward_end anchored_end)
  | run test label =>
    simp only [Term.parser, run_eq]
    exact respected.map _ (respected.leaf (forward_run test label) (anchored_run test label))
  | run1 test label =>
    simp only [Term.parser, run1_eq]
    exact respected.map _ (respected.leaf (forward_run1 test label) (anchored_run1 test label))
  | peek =>
    simp only [Term.parser, peek_eq]
    exact respected.map _ (respected.leaf forward_peek anchored_peek)
  | consume =>
    simp only [Term.parser, consume_eq]
    exact respected.map _ (respected.leaf forward_consume anchored_consume)
  | sequence terms => exact respected.map _ (respected.sequence parts)
  | attempt term => exact respected.attempt (parts term (by simp [Term.parts]))
  | choice terms => exact respected.choice parts
  | many term => exact respected.map _ (loop (parts term (by simp [Term.parts])))
  | many1 term =>
    have same := parts term (by simp [Term.parts])
    exact respected.map _ (respected.many1 same (loop same))
  | sepBy term separator =>
    exact respected.map _ (respected.sepBy (parts term (by simp [Term.parts]))
      (parts separator (by simp [Term.parts])) loop)
  | sepBy1 term separator =>
    exact respected.map _ (respected.sepBy1 (parts term (by simp [Term.parts]))
      (parts separator (by simp [Term.parts])) loop)
  | optional term => exact respected.map _ (respected.optional (parts term (by simp [Term.parts])))
  | notHere | ahead | atomic | expect | precedence | precedenceArg | atLevel => exact wrapped rfl
  | register label => exact respected.register label Value.null
  | registerAt | failAt => cases anchored
  | call shape key argTerms => exact call shape key argTerms rfl
  | ifArg index arg yes no =>
    simp only [Term.parser]
    split
    next => exact parts yes (by simp [Term.parts])
    next => exact parts no (by simp [Term.parts])
  | literalArg index =>
    simp only [Term.parser]
    split
    next =>
      rw [literal_eq]
      exact respected.map _ (respected.leaf (forward_literal _) (anchored_literal _))
    next => exact respected.noMatch
  | timesArg index term =>
    exact respected.map _ (respected.times (parts term (by simp [Term.parts])) _)
  | textOf term =>
    rw [Term.parser_textOf, Term.parser_textOf]
    refine respected.bind (respected.look _) fun start => ?_
    exact respected.bind (parts term (by simp [Term.parts])) fun _ => respected.look _
  | tag name term => exact respected.map _ (parts term (by simp [Term.parts]))
  | const value => exact respected.pure value
  | fail | save | restore | inspect | count | ifCount | bind | allow | ask => cases plain

theorem Term.assembled {R : (α : Type) → Parser Stored α → Parser Stored α → Prop}
    (respected : Structural R) {left right : Grammar} {n m : Nat} {args : List Arg} {term : Term}
    (plain : term.plain = true) (anchored : term.anchored = true)
    (parts : ∀ part ∈ term.parts,
      R Value (part.parser left n args) (part.parser right m args))
    (loop : ∀ {α : Type} {first second : Parser Stored α}, R α first second →
      R (List α) (Parser.many first n) (Parser.many second m))
    (call : ∀ shape key argTerms, term = .call shape key argTerms →
      R Value (term.parser left (n + 1) args) (term.parser right (m + 1) args)) :
    R Value (term.parser left (n + 1) args) (term.parser right (m + 1) args) := by
  refine Term.sequenced respected.toSequential plain anchored (fun wraps => ?_) parts loop call
  cases term <;> simp only [Term.wraps, Bool.false_eq_true] at wraps
  case notHere label term =>
    exact respected.map _ (respected.notHere label (parts term (by simp [Term.parts])))
  case ahead term => exact respected.ahead (parts term (by simp [Term.parts]))
  case atomic label term => exact respected.atomic label (parts term (by simp [Term.parts]))
  case expect label term => exact respected.expect label (parts term (by simp [Term.parts]))
  case precedence level term | precedenceArg level term =>
    exact respected.precedence _ (respected.atLevel _ (parts term (by simp [Term.parts])))
  case atLevel level term => exact respected.atLevel level (parts term (by simp [Term.parts]))

theorem Term.parser_call {σ : Type} [Journal σ Stored] {grammar : Grammar} {key : String}
    {definition : Definition}
    (found : grammar.find? key = some definition) (shape : Shape) (argTerms : List ArgTerm)
    (n : Nat) (args : List Arg) :
    ((Term.call shape key argTerms).parser grammar (n + 1) args : ParserTo Stored σ Value) =
      invoke (Stored.codec shape) definition.rule (argTerms.map (ArgTerm.resolve args))
        (definition.body.parser grammar n (argTerms.map (ArgTerm.resolve args))) n := by
  simp only [Term.parser, found]

theorem Term.throughout {P : (α : Type) → Parser Stored α → Prop} {grammar : Grammar}
    {Fits : Term → Prop} (stop : P Value (Parser.fail .exhausted))
    (noMatch : P Value (Parser.fail .noMatch))
    (term : ∀ {n args term}, Fits term →
      (∀ part ∈ term.parts, P Value (part.parser grammar n args)) →
      (∀ shape key argTerms, term = .call shape key argTerms →
        P Value (term.parser grammar (n + 1) args)) →
      P Value (term.parser grammar (n + 1) args))
    (part : ∀ {term part}, Fits term → part ∈ term.parts → Fits part)
    (body : ∀ {shape key argTerms definition}, Fits (.call shape key argTerms) →
      grammar.find? key = some definition → Fits definition.body)
    (call : ∀ {shape key argTerms definition n passed}, Fits (.call shape key argTerms) →
      grammar.find? key = some definition → P Value (definition.body.parser grammar n passed) →
      P Value (invoke (Stored.codec shape) definition.rule passed
        (definition.body.parser grammar n passed) n))
    (n : Nat) (args : List Arg) {start : Term} (fits : Fits start) :
    P Value (start.parser grammar n args) := by
  -- The induction is on the budget, which bounds how deep terms nest through calls.
  induction n generalizing args start with
  | zero =>
    simp only [Term.parser]
    exact stop
  | succ n ih =>
    refine term fits (fun _ member => ih args (part fits member)) ?_
    rintro shape key argTerms rfl
    cases found : grammar.find? key with
    | none =>
      simp only [Term.parser, found]
      exact noMatch
    | some definition =>
      rw [Term.parser_call found]
      exact call fits found (ih _ (body fits found))

end Grammar

end Packrat
