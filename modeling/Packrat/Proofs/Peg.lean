import Packrat.Grammar.TermParser

set_option autoImplicit false

namespace Packrat.Grammar

inductive Result (α : Type) where
  | matched (value : α) (stop : Nat)
  | failed

namespace Result

def map {α β : Type} (f : α → β) : Result α → Result β
  | .matched value stop => .matched (f value) stop
  | .failed => .failed

variable (source : Source) (start : Nat)

def literal (text : String) : Result Value :=
  if text.toList.isPrefixOf (source.rest start) then
    .matched (.text text) (start + Text.size text.toList)
  else .failed

def char (test : Char → Bool) : Result Value :=
  match source.rest start with
  | c :: _ => if test c then .matched (.char c) (start + c.utf8Size) else .failed
  | [] => .failed

def peek : Result Value :=
  match source.rest start with
  | c :: _ => .matched (.char c) start
  | [] => .failed

def endOfInput : Result Value :=
  if start < source.size then .failed else .matched .null start

def run (test : Char → Bool) : Result Value :=
  let taken := (source.rest start).takeWhile test
  .matched (.text (String.ofList taken)) (start + Text.size taken)

def run1 (test : Char → Bool) : Result Value :=
  if (source.rest start).takeWhile test = [] then .failed else run source start test

end Result

def Value.second : Value → Value
  | .list [_, value] => value
  | value => value

inductive Peg (grammar : Grammar) (source : Source) :
    List Arg → Int32 → Term → Nat → Result Value → Prop
  | literal {args level start} (text : String) :
      Peg grammar source args level (.literal text) start (.literal source start text)
  | charWhere {args level start} (test : Char → Bool) (label : String) :
      Peg grammar source args level (.charWhere test label) start (.char source start test)
  | charBetween {args level start} (first last : Char) :
      Peg grammar source args level (.charBetween first last) start
        (.char source start fun c => first ≤ c && c ≤ last)
  | noneOf {args level start} (excluded : String) :
      Peg grammar source args level (.noneOf excluded) start
        (.char source start fun c => !excluded.toList.contains c)
  | anyChar {args level start} :
      Peg grammar source args level .anyChar start (.char source start fun _ => true)
  | endOfInput {args level start} :
      Peg grammar source args level .endOfInput start (.endOfInput source start)
  | run {args level start} (test : Char → Bool) (label : String) :
      Peg grammar source args level (.run test label) start (.run source start test)
  | run1 {args level start} (test : Char → Bool) (label : String) :
      Peg grammar source args level (.run1 test label) start (.run1 source start test)
  | peek {args level start} : Peg grammar source args level .peek start (.peek source start)
  | consume {args level start} :
      Peg grammar source args level .consume start (.char source start fun _ => true)
  | const {args level start} (value : Value) :
      Peg grammar source args level (.const value) start (.matched value start)
  | register {args level start} (label : String) :
      Peg grammar source args level (.register label) start (.matched .null start)
  | registerAt {args level start} (index : Nat) (label : String) :
      Peg grammar source args level (.registerAt index label) start (.matched .null start)
  | failAt {args level start} (index : Nat) (label : String) :
      Peg grammar source args level (.failAt index label) start .failed
  | sequence_nil {args level start} :
      Peg grammar source args level (.sequence []) start (.matched (.list []) start)
  | sequence_cons {args level first others start middle stop value values}
      (matched : Peg grammar source args level first start (.matched value middle))
      (rest : Peg grammar source args level (.sequence others) middle (.matched (.list values) stop)) :
      Peg grammar source args level (.sequence (first :: others)) start
        (.matched (.list (value :: values)) stop)
  | sequence_first {args level first others start}
      (failed : Peg grammar source args level first start .failed) :
      Peg grammar source args level (.sequence (first :: others)) start .failed
  | sequence_later {args level first others start middle value}
      (matched : Peg grammar source args level first start (.matched value middle))
      (failed : Peg grammar source args level (.sequence others) middle .failed) :
      Peg grammar source args level (.sequence (first :: others)) start .failed
  | choice_nil {args level start} : Peg grammar source args level (.choice []) start .failed
  | choice_first {args level first others start stop value}
      (matched : Peg grammar source args level first start (.matched value stop)) :
      Peg grammar source args level (.choice (first :: others)) start (.matched value stop)
  | choice_later {args level first others start result}
      (failed : Peg grammar source args level first start .failed)
      (rest : Peg grammar source args level (.choice others) start result) :
      Peg grammar source args level (.choice (first :: others)) start result
  | many_done {args level term start} (failed : Peg grammar source args level term start .failed) :
      Peg grammar source args level (.many term) start (.matched (.list []) start)
  -- A match that consumes nothing is kept and is the last one.
  | many_empty {args level term start value}
      (matched : Peg grammar source args level term start (.matched value start)) :
      Peg grammar source args level (.many term) start (.matched (.list [value]) start)
  | many_more {args level term start middle stop value values}
      (matched : Peg grammar source args level term start (.matched value middle))
      (moved : middle ≠ start)
      (rest : Peg grammar source args level (.many term) middle (.matched (.list values) stop)) :
      Peg grammar source args level (.many term) start (.matched (.list (value :: values)) stop)
  | many1 {args level term start middle stop value values}
      (matched : Peg grammar source args level term start (.matched value middle))
      (rest : Peg grammar source args level (.many term) middle (.matched (.list values) stop)) :
      Peg grammar source args level (.many1 term) start (.matched (.list (value :: values)) stop)
  | many1_failed {args level term start}
      (failed : Peg grammar source args level term start .failed) :
      Peg grammar source args level (.many1 term) start .failed
  | sepBy1 {args level term separator start middle stop value pairs}
      (matched : Peg grammar source args level term start (.matched value middle))
      (rest : Peg grammar source args level (.many (.sequence [separator, term])) middle
        (.matched (.list pairs) stop)) :
      Peg grammar source args level (.sepBy1 term separator) start
        (.matched (.list (value :: pairs.map Value.second)) stop)
  | sepBy1_failed {args level term separator start}
      (failed : Peg grammar source args level term start .failed) :
      Peg grammar source args level (.sepBy1 term separator) start .failed
  | sepBy {args level term separator start stop value}
      (matched : Peg grammar source args level (.sepBy1 term separator) start
        (.matched value stop)) :
      Peg grammar source args level (.sepBy term separator) start (.matched value stop)
  | sepBy_none {args level term separator start}
      (failed : Peg grammar source args level (.sepBy1 term separator) start .failed) :
      Peg grammar source args level (.sepBy term separator) start (.matched (.list []) start)
  | attempt {args level term start result} (same : Peg grammar source args level term start result) :
      Peg grammar source args level (.attempt term) start result
  | optional {args level term start stop value}
      (matched : Peg grammar source args level term start (.matched value stop)) :
      Peg grammar source args level (.optional term) start (.matched (.list [value]) stop)
  | optional_none {args level term start}
      (failed : Peg grammar source args level term start .failed) :
      Peg grammar source args level (.optional term) start (.matched (.list []) start)
  | notHere {args level term start} (label : String)
      (failed : Peg grammar source args level term start .failed) :
      Peg grammar source args level (.notHere label term) start (.matched .null start)
  | notHere_failed {args level term start stop value} (label : String)
      (matched : Peg grammar source args level term start (.matched value stop)) :
      Peg grammar source args level (.notHere label term) start .failed
  | ahead {args level term start stop value}
      (matched : Peg grammar source args level term start (.matched value stop)) :
      Peg grammar source args level (.ahead term) start (.matched value start)
  | ahead_failed {args level term start}
      (failed : Peg grammar source args level term start .failed) :
      Peg grammar source args level (.ahead term) start .failed
  | atomic {args level term start result} (label : String)
      (same : Peg grammar source args level term start result) :
      Peg grammar source args level (.atomic label term) start result
  | expect {args level term start result} (label : String)
      (same : Peg grammar source args level term start result) :
      Peg grammar source args level (.expect label term) start result
  | precedence {args ambient level term start result} (allowed : ¬ level < ambient)
      (same : Peg grammar source args level term start result) :
      Peg grammar source args ambient (.precedence level term) start result
  | precedence_failed {args ambient level term start} (below : level < ambient) :
      Peg grammar source args ambient (.precedence level term) start .failed
  | atLevel {args ambient level term start result}
      (same : Peg grammar source args level term start result) :
      Peg grammar source args ambient (.atLevel level term) start result
  | call {args level shape key argTerms definition start result}
      (found : grammar.find? key = some definition)
      (body : Peg grammar source (argTerms.map (ArgTerm.resolve args)) level definition.body start
        result) :
      Peg grammar source args level (.call shape key argTerms) start result
  | call_unknown {args level shape key argTerms start} (missing : grammar.find? key = none) :
      Peg grammar source args level (.call shape key argTerms) start .failed
  | ifArg {args level index arg yes no start result}
      (chosen : Peg grammar source args level (if argAt args index = arg then yes else no) start
        result) :
      Peg grammar source args level (.ifArg index arg yes no) start result
  | literalArg {args level index text start} (spelled : textArg? (argAt args index) = some text) :
      Peg grammar source args level (.literalArg index) start (.literal source start text)
  | literalArg_failed {args level index start} (spelled : textArg? (argAt args index) = none) :
      Peg grammar source args level (.literalArg index) start .failed
  | timesArg {args level index term start result}
      (repeated : Peg grammar source args level
        (.sequence (List.replicate (repetitions (argAt args index)) term)) start result) :
      Peg grammar source args level (.timesArg index term) start result
  | precedenceArg {args level index term start result}
      (same : Peg grammar source args level (.precedence (levelOf (argAt args index)) term) start
        result) :
      Peg grammar source args level (.precedenceArg index term) start result
  | textOf {args level term start stop value}
      (matched : Peg grammar source args level term start (.matched value stop)) :
      Peg grammar source args level (.textOf term) start
        (.matched (.text (source.slice start stop)) stop)
  | textOf_failed {args level term start}
      (failed : Peg grammar source args level term start .failed) :
      Peg grammar source args level (.textOf term) start .failed
  | tag {args level term start result} (name : String)
      (same : Peg grammar source args level term start result) :
      Peg grammar source args level (.tag name term) start
        (result.map fun value => .list [.text name, value])

namespace Peg

variable {grammar : Grammar} {source : Source} {args : List Arg} {level : Int32} {term : Term}
  {start : Nat} {result other : Result Value}

theorem unique (first : Peg grammar source args level term start result)
    (second : Peg grammar source args level term start other) : result = other := by
  induction first generalizing other with
  | sequence_cons _ _ first rest => cases second with
    | sequence_cons matched others => cases first matched; cases rest others; rfl
    | sequence_first failed => cases first failed
    | sequence_later matched failed => cases first matched; cases rest failed
  | sequence_first _ first => cases second with
    | sequence_cons matched others => cases first matched
    | sequence_first failed => rfl
    | sequence_later matched failed => cases first matched
  | sequence_later _ _ first rest => cases second with
    | sequence_cons matched others => cases first matched; cases rest others
    | sequence_first failed => rfl
    | sequence_later matched failed => rfl
  | choice_first _ first => cases second with
    | choice_first matched => exact first matched
    | choice_later failed _ => cases first failed
  | choice_later _ _ first rest => cases second with
    | choice_first matched => cases first matched
    | choice_later _ others => exact rest others
  | many_done _ round => cases second with
    | many_done => rfl
    | many_empty matched => cases round matched
    | many_more matched _ _ => cases round matched
  | many_empty _ round => cases second with
    | many_done failed => cases round failed
    | many_empty matched => cases round matched; rfl
    | many_more matched moved _ => cases round matched; exact absurd rfl moved
  | many_more _ moved _ round rest => cases second with
    | many_done failed => cases round failed
    | many_empty matched => cases round matched; exact absurd rfl moved
    | many_more matched _ others => cases round matched; cases rest others; rfl
  | many1 _ _ round rest => cases second with
    | many1 matched others => cases round matched; cases rest others; rfl
    | many1_failed failed => cases round failed
  | many1_failed _ round => cases second with
    | many1 matched _ => cases round matched
    | many1_failed _ => rfl
  | sepBy1 _ _ round rest => cases second with
    | sepBy1 matched others => cases round matched; cases rest others; rfl
    | sepBy1_failed failed => cases round failed
  | sepBy1_failed _ round => cases second with
    | sepBy1 matched _ => cases round matched
    | sepBy1_failed _ => rfl
  | sepBy _ ih | sepBy_none _ ih => cases second with
    | sepBy same | sepBy_none same => cases ih same <;> rfl
  | optional _ ih | optional_none _ ih => cases second with
    | optional same | optional_none same => cases ih same <;> rfl
  | notHere _ _ ih | notHere_failed _ _ ih => cases second with
    | notHere _ same | notHere_failed _ same => cases ih same <;> rfl
  | ahead _ ih | ahead_failed _ ih => cases second with
    | ahead same | ahead_failed same => cases ih same <;> rfl
  | textOf _ ih | textOf_failed _ ih => cases second with
    | textOf same | textOf_failed same => cases ih same <;> rfl
  | attempt _ ih => cases second with | attempt same => exact ih same
  | atomic _ _ ih => cases second with | atomic _ same => exact ih same
  | expect _ _ ih => cases second with | expect _ same => exact ih same
  | atLevel _ ih => cases second with | atLevel same => exact ih same
  | ifArg _ ih => cases second with | ifArg same => exact ih same
  | timesArg _ ih => cases second with | timesArg same => exact ih same
  | precedenceArg _ ih => cases second with | precedenceArg same => exact ih same
  | tag _ _ ih => cases second with | tag _ same => exact congrArg _ (ih same)
  | precedence allowed _ ih => cases second with
    | precedence _ same => exact ih same
    | precedence_failed below => exact absurd below allowed
  | precedence_failed below => cases second with
    | precedence allowed _ => exact absurd below allowed
    | precedence_failed => rfl
  | call found _ ih => cases second with
    | call again body => cases found.symm.trans again; exact ih body
    | call_unknown missing => cases found.symm.trans missing
  | call_unknown missing => cases second with
    | call found _ => cases found.symm.trans missing
    | call_unknown => rfl
  | literalArg spelled => cases second with
    | literalArg again => cases spelled.symm.trans again; rfl
    | literalArg_failed again => cases spelled.symm.trans again
  | literalArg_failed spelled => cases second with
    | literalArg again => cases spelled.symm.trans again
    | literalArg_failed => rfl
  | _ => cases second; rfl

end Peg

end Packrat.Grammar
