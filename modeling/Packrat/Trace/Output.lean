set_option autoImplicit false

namespace Packrat.Trace

/-- Where trace text goes. An allowance is the number of further lines that are accepted. -/
structure Output where
  written : String := ""
  allowance : Option Nat := none
deriving DecidableEq, Repr

namespace Output

def accept : Nat → List Char → List Char × List Char × Nat
  | 0, text => ([], text, 0)
  | lines + 1, [] => ([], [], lines + 1)
  | lines + 1, c :: rest =>
    let parts := if c = '\n' then accept lines rest else accept (lines + 1) rest
    (c :: parts.1, parts.2)

def write (output : Output) (text : String) : Output × Bool :=
  match output.allowance with
  | none => ({ output with written := output.written ++ text }, true)
  | some lines =>
    let parts := accept lines text.toList
    ({ written := output.written ++ String.ofList parts.1, allowance := some parts.2.2 },
      parts.2.1.isEmpty)

end Output

end Packrat.Trace
