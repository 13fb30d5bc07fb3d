import Packrat.Calculator.Command

set_option autoImplicit false

namespace Packrat.Calculator

partial def readAll (stream : IO.FS.Stream) (read : ByteArray) : IO ByteArray := do
  let chunk ← stream.read 65536
  if chunk.isEmpty then return read else readAll stream (read ++ chunk)

def inputFor (arguments : List String) : IO ByteArray := do
  match Options.ofArguments arguments with
  | .error _ => return .empty
  | .ok options =>
    if options.readsInput then readAll (← IO.getStdin) .empty else return .empty

end Packrat.Calculator

def main (arguments : List String) : IO UInt32 := do
  let exit := Packrat.Calculator.Exit.ofArguments arguments (← Packrat.Calculator.inputFor arguments)
  IO.eprint exit.errors
  IO.print exit.output
  return exit.code.toUInt32
