import Packrat.Grammar.Term
import Packrat.Parser.Combine
import Packrat.Parser.Match

set_option autoImplicit false

namespace Packrat.Grammar

def clamp (low high n : Int) : Int :=
  max low (min high n)

def addTo (arg : Arg) (n : Int) : Arg :=
  match arg with
  | .int value =>
    .int (Int64.ofInt (clamp Int64.minValue.toInt Int64.maxValue.toInt (value.toInt + n)))
  | .word value => .word (UInt64.ofNat (clamp 0 (UInt64.size - 1) (value.toNat + n)).toNat)
  | other => other

def argAt (args : List Arg) (index : Nat) : Arg :=
  args[index]?.getD (.int 0)

def ArgTerm.resolve (args : List Arg) : ArgTerm → Arg
  | .given arg => arg
  | .passed index add => addTo (argAt args index) add

def repetitions : Arg → Nat
  | .int value => value.toInt.toNat
  | .word value => value.toNat
  | _ => 0

def levelOf : Arg → Int32
  | .int value => Int32.ofInt (clamp Int32.minValue.toInt Int32.maxValue.toInt value.toInt)
  | .word value => Int32.ofInt (clamp Int32.minValue.toInt Int32.maxValue.toInt value.toNat)
  | _ => 0

def textArg? : Arg → Option String
  | .text value => some value
  | .char value => some (String.singleton value)
  | _ => none

def put {α : Type} (entries : List (String × α)) (name : String) (value : α) :
    List (String × α) :=
  (name, value) :: entries.filter (·.1 ≠ name)

def noSlot : Value :=
  .text "no slot"

def positionValue (position : Position) : Value :=
  .list [.nat position.offset, .nat position.lineNumber, .text position.line,
    .nat position.column, .text position.foundText]

def frameValue (frame : Farthest.Frame) : Value :=
  .list [.nat frame.position, .list (frame.labels.map .text), .bool frame.isEmpty]

def Query.answer {ν σ : Type} (query : Query) (machine : Machine ν σ) : Value :=
  match query with
  | .index => .nat machine.cursor.index
  | .level => .int machine.cursor.level.toInt
  | .hasNext => .bool machine.hasNext
  | .rest => .text (String.ofList machine.rest)
  | .input => .text machine.source.text
  | .cached => .nat machine.memo.size
  | .cursor => .text machine.cursor.text
  | .frame => frameValue machine.farthest.innermost
  | .position => positionValue machine.position
  | .report => .text machine.farthestReport.text

def restoreSlot {ν σ : Type} (slot : String) (keep : Bool) : ParserTo ν σ Value := fun machine =>
  match machine.slots.lookup slot with
  | none => .ok noSlot machine
  | some none => .error .staleSnapshot machine
  | some (some cursor) =>
    let slots := if keep then machine.slots else put machine.slots slot none
    .ok .null { machine with cursor, slots }

def inspectSlot {ν σ : Type} (slot : String) (machine : Machine ν σ) : Value :=
  match machine.slots.lookup slot with
  | none => noSlot
  | some none => .list [.bool true, .null]
  | some (some cursor) => .list [.bool false, .text cursor.text]

def counter {ν σ : Type} (machine : Machine ν σ) (name : String) : Nat :=
  (machine.counters.lookup name).getD 0

def Term.parser {σ : Type} [Journal σ Stored] (grammar : Grammar) :
    Nat → List Arg → Term → ParserTo Stored σ Value
  | 0, _, _ => Parser.fail .exhausted
  | budget + 1, args, term =>
    let sub := Term.parser grammar budget args
    match term with
    | .literal text => .text <$> Parser.literal text
    | .charWhere test label => .char <$> Parser.charWhere test label
    | .charBetween first last => .char <$> Parser.charBetween first last
    | .noneOf excluded => .char <$> Parser.noneOf excluded
    | .anyChar => .char <$> Parser.anyChar
    | .endOfInput => (fun _ => .null) <$> Parser.endOfInput
    | .run test label => .text <$> Parser.run test label
    | .run1 test label => .text <$> Parser.run1 test label
    | .peek => .char <$> Parser.peek
    | .consume => .char <$> Parser.consume
    | .sequence terms => .list <$> Parser.sequence (terms.map sub)
    | .attempt term => Parser.attempt (sub term)
    | .choice terms => Parser.choice (terms.map sub)
    | .many term => .list <$> Parser.many (sub term) budget
    | .many1 term => .list <$> Parser.many1 (sub term) budget
    | .sepBy term separator => .list <$> Parser.sepBy (sub term) (sub separator) budget
    | .sepBy1 term separator => .list <$> Parser.sepBy1 (sub term) (sub separator) budget
    | .optional term => (fun found => .list found.toList) <$> Parser.optional (sub term)
    | .notHere label term => (fun _ => .null) <$> Parser.notHere label (sub term)
    | .ahead term => Parser.ahead (sub term)
    | .atomic label term => Parser.atomic label (sub term)
    | .expect label term => Parser.expect label (sub term)
    | .precedence level term => Parser.precedence level (sub term)
    | .atLevel level term => Parser.atLevel level (sub term)
    | .register label => fun machine => .ok .null (machine.register machine.cursor.index label)
    | .registerAt index label => fun machine => .ok .null (machine.register index label)
    | .failAt index label => Parser.failAt index label
    | .fail failure => Parser.fail failure
    | .call shape key argTerms =>
      match grammar.find? key with
      | none => Parser.fail .noMatch
      | some definition =>
        let passed := argTerms.map (ArgTerm.resolve args)
        Parser.invoke (Stored.codec shape) definition.rule passed
          (Term.parser grammar budget passed definition.body) budget
    | .ifArg index arg yes no => if argAt args index = arg then sub yes else sub no
    | .literalArg index =>
      match textArg? (argAt args index) with
      | some text => .text <$> Parser.literal text
      | none => Parser.fail .noMatch
    | .timesArg index term => .list <$> Parser.times (sub term) (repetitions (argAt args index))
    | .precedenceArg index term => Parser.precedence (levelOf (argAt args index)) (sub term)
    | .save slot => fun machine =>
      .ok .null { machine with slots := put machine.slots slot (some machine.cursor) }
    | .restore slot keep => restoreSlot slot keep
    | .inspect slot => Parser.view (inspectSlot slot)
    | .count name term => fun machine =>
      sub term { machine with counters := put machine.counters name (counter machine name + 1) }
    | .ifCount name limit yes no => fun machine =>
      if counter machine name < limit then sub yes machine else sub no machine
    | .textOf term => fun machine =>
      let source := machine.source
      let start := machine.cursor.index
      match sub term machine with
      | .ok _ machine => .ok (.text (source.slice start machine.cursor.index)) machine
      | .error failure machine => .error failure machine
    | .tag name term => (fun value => .list [.text name, value]) <$> sub term
    | .const value => pure value
    | .bind text => fun machine => .ok .null (machine.bind (.ofString text))
    | .allow lines => fun machine => .ok .null (machine.write (.allowed lines))
    | .ask query => Parser.view query.answer

end Packrat.Grammar
