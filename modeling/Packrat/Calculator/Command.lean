import Packrat.Calculator.Parse
import Packrat.Session

set_option autoImplicit false

namespace Packrat.Calculator

inductive Command where
  | eval
  | tree
deriving DecidableEq, Repr

def Command.name : Command → String
  | .eval => "Eval"
  | .tree => "Tree"

inductive TraceMode where
  | off
  | print
  | log
deriving DecidableEq, Repr

/-- A command line that makes sense. A source of `-` stands for the standard input. -/
structure Options where
  command : Command
  source : String
  memoize : Bool := true
  trace : TraceMode := .off
deriving DecidableEq, Repr

inductive UsageError where
  | unknownOption (argument : String)
  | unknownCommand (argument : String)
  | unexpected (argument : String)
  | missingCommand
  | missingExpression
deriving DecidableEq, Repr

def usage : String :=
  "Usage: pegrat <command> <expr> [options]\n\n" ++
  "Commands:\n" ++
  "  eval <expr>     Evaluate an integer expression\n" ++
  "  tree <expr>     Print the expression fully parenthesized\n\n" ++
  "<expr> may be `-` to read standard input.\n\n" ++
  "Options:\n" ++
  "  --no-memo       Disable memoization\n" ++
  "  --trace         Print rule invocations to stderr\n" ++
  "  --trace=log     Emit rule invocations as tracing events"

def UsageError.message : UsageError → String
  | .unknownOption argument => "unknown option `" ++ argument ++ "`"
  | .unknownCommand argument => "unknown command `" ++ argument ++ "`"
  | .unexpected argument => "unexpected argument `" ++ argument ++ "`"
  | .missingCommand => usage
  | .missingExpression => "missing expression"

inductive Error where
  | usage (cause : UsageError)
  | unreadable
  | rejected (cause : Rejection)
  | evaluation (cause : EvalError)
deriving DecidableEq, Repr

def Error.message : Error → String
  | .usage cause => cause.message
  | .unreadable => "cannot read input: stream did not contain valid UTF-8"
  | .rejected cause => cause.message
  | .evaluation cause => "evaluation failed: " ++ cause.message

-- What has been read of a command line.
structure Draft where
  command : Option Command := none
  source : Option String := none
  memoize : Bool := true
  trace : TraceMode := .off
deriving DecidableEq, Repr

namespace Draft

def place (draft : Draft) (argument : String) : Except UsageError Draft :=
  match draft.command, draft.source with
  | none, _ =>
    if argument = "eval" then .ok { draft with command := some .eval }
    else if argument = "tree" then .ok { draft with command := some .tree }
    else if argument.toList.take 2 = ['-', '-'] then .error (.unknownOption argument)
    else .error (.unknownCommand argument)
  | some _, source =>
    if argument.toList.take 2 = ['-', '-'] then .error (.unknownOption argument)
    else
      match source with
      | none => .ok { draft with source := some argument }
      | some _ => .error (.unexpected argument)

def add (draft : Draft) (argument : String) : Except UsageError Draft :=
  if argument = "--no-memo" then .ok { draft with memoize := false }
  else if argument = "--trace" then .ok { draft with trace := .print }
  else if argument = "--trace=log" then .ok { draft with trace := .log }
  else draft.place argument

def finish (draft : Draft) : Except UsageError Options :=
  match draft.command, draft.source with
  | none, _ => .error .missingCommand
  | some _, none => .error .missingExpression
  | some command, some source =>
    .ok { command, source, memoize := draft.memoize, trace := draft.trace }

def addAll : Draft → List String → Except UsageError Draft
  | draft, [] => .ok draft
  | draft, argument :: rest => do addAll (← draft.add argument) rest

end Draft

namespace Options

def ofArguments (arguments : List String) : Except UsageError Options := do
  let draft ← Draft.addAll {} arguments
  draft.finish

def readsInput (options : Options) : Bool :=
  options.source = "-"

def text (options : Options) (input : ByteArray) : Except Error String :=
  if options.readsInput then
    match String.fromUTF8? input with
    | some text => .ok text
    | none => .error .unreadable
  else .ok options.source

def observers (options : Options) : List Trace.Observer :=
  match options.trace with
  | .off => []
  | .print => [.writer {}]
  | .log => [.recorder]

end Options

def Command.answer (command : Command) (expr : Expr) : Except Error String :=
  match command with
  | .tree => .ok expr.text
  | .eval =>
    match expr.eval with
    | .ok value => .ok (toString value.toInt)
    | .error cause => .error (.evaluation cause)

structure Outcome where
  answer : Except Error String
  written : String
  records : Array Trace.Record

def Options.run (options : Options) (text : String) : Outcome :=
  let session := options.observers.foldl Session.observe
    (Session.start (.ofString text) { memoize := options.memoize })
  let parsed := session.parse expression
  let shared := parsed.2.audience.shared
  match parsed.1 with
  | .error cause =>
    { answer := .error (.rejected cause)
      written := shared.output.written
      records := shared.records }
  | .ok expr =>
    let entry := Trace.Record.parsed options.command.name parsed.2.machine.memo.size
    { answer := options.command.answer expr
      written := shared.output.written
      records := shared.records.push entry }

structure Exit where
  code : UInt8
  output : String
  errors : String
deriving DecidableEq, Repr

namespace Exit

def failure : Error → Exit
  | .usage .missingCommand =>
    { code := 2, output := "", errors := "error: " ++ usage ++ "\n" }
  | .usage cause =>
    { code := 2, output := "", errors := "error: " ++ cause.message ++ "\n\n" ++ usage ++ "\n" }
  | cause => { code := 1, output := "", errors := cause.message ++ "\n" }

def ofAnswer : Except Error String → Exit
  | .ok output => { code := 0, output := output ++ "\n", errors := "" }
  | .error cause => failure cause

def ofOptions (options : Options) (input : ByteArray) : Exit :=
  match options.text input with
  | .error cause => failure cause
  | .ok text =>
    let outcome := options.run text
    let exit := ofAnswer outcome.answer
    { exit with errors := outcome.written ++ exit.errors }

def ofArguments (arguments : List String) (input : ByteArray) : Exit :=
  match Options.ofArguments arguments with
  | .error cause => failure (.usage cause)
  | .ok options => ofOptions options input

end Exit

end Packrat.Calculator
