import Packrat.Text.Position
import Packrat.Trace.Event
import Packrat.Trace.Output

set_option autoImplicit false

namespace Packrat.Trace

structure Writer where
  depth : Nat := 0
  excerptAt : Option Nat := none
  source : Source := .empty
  lines : LineTable := .ofSource .empty

namespace Writer

def indent (depth : Nat) : String :=
  String.ofList (List.replicate (2 * depth) ' ')

def excerpt (writer : Writer) (depth index : Nat) : String :=
  let margin := indent depth
  let position := Position.lookup writer.lines writer.source index
  margin ++ "index " ++ toString index ++ " line " ++ toString position.lineNumber ++ "\n" ++
    margin ++ position.line ++ "\n" ++ margin ++ position.underline {} ++ "\n"

def writeExcerpt (writer : Writer) (depth index : Nat) (output : Output) :
    Writer × Output × Bool :=
  if writer.excerptAt = some index then (writer, output, true)
  else
    match output.write (writer.excerpt depth index) with
    | (output, true) => ({ writer with excerptAt := some index }, output, true)
    -- A refused excerpt stays due.
    | (output, false) => (writer, output, false)

def writeLine (writer : Writer) (depth index : Nat) (text : String) (output : Output) :
    Writer × Output × Bool :=
  match writer.writeExcerpt depth index output with
  | (writer, output, false) => (writer, output, false)
  | (writer, output, true) => (writer, output.write (indent depth ++ text ++ "\n"))

def bound (source : Source) : Writer :=
  { source, lines := .ofSource source }

def eventText (event : Event) : String :=
  let rule := event.rule.text
  let index := toString event.index
  match event.kind with
  | .entering => rule ++ " Entering, index: " ++ index
  | .leaving =>
    rule ++ " Leaving, index: " ++ index ++
      (match event.result with
      | some result => " -> " ++ result
      | none => "")
  | .failed => rule ++ " Failed, index: " ++ index
  | .retrying => rule ++ " Retrying, was at index: " ++ index
  | .recursive => rule ++ " recursive, index: " ++ index
  | .cacheHit => rule ++ " cache hit, index: " ++ index
  | .cacheMiss | .cachePut => ""

def event (writer : Writer) (event : Event) (output : Output) : Writer × Output × Bool :=
  let text := eventText event
  match event.kind with
  -- An activation counts as entered once its line has been accepted.
  | .entering =>
    match writer.writeLine writer.depth event.index text output with
    | (writer, output, true) => ({ writer with depth := writer.depth + 1 }, output, true)
    | (writer, output, false) => (writer, output, false)
  -- It counts as left whether or not its line is accepted.
  | .leaving | .failed =>
    let left := { writer with depth := writer.depth - 1 }
    left.writeLine left.depth event.index text output
  | .retrying => writer.writeLine (writer.depth - 1) event.index text output
  | .recursive | .cacheHit => writer.writeLine writer.depth event.index text output
  -- These would only double the length of the trace.
  | .cacheMiss | .cachePut => (writer, output, true)

def expectation (writer : Writer) (index : Nat) (label : String) (output : Output) :
    Writer × Output × Bool :=
  writer.writeLine writer.depth index
    ("index " ++ toString index ++ " unmet expectation: " ++ label) output

end Writer

end Packrat.Trace
