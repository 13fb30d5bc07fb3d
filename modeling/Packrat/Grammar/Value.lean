import Packrat.Parser.Invoke

set_option autoImplicit false

namespace Packrat.Grammar

inductive Value where
  | null
  | bool (value : Bool)
  | int (value : Int)
  | text (value : String)
  | list (items : List Value)
deriving Repr, Inhabited

namespace Value

def char (c : Char) : Value :=
  .text (String.singleton c)

def nat (n : Nat) : Value :=
  .int n

def escape (c : Char) : List Char :=
  if c = '"' then ['\\', '"']
  else if c = '\\' then ['\\', '\\']
  else if c = '\x08' then ['\\', 'b']
  else if c = '\t' then ['\\', 't']
  else if c = '\n' then ['\\', 'n']
  else if c = '\x0c' then ['\\', 'f']
  else if c = '\r' then ['\\', 'r']
  else if c.toNat < 0x10 then ['\\', 'u', '0', '0', '0'] ++ Quoted.hex c.toNat
  else if c.toNat < 0x20 then ['\\', 'u', '0', '0'] ++ Quoted.hex c.toNat
  else [c]

def quote (text : String) : String :=
  String.ofList ('"' :: text.toList.flatMap escape ++ ['"'])

mutual

def json : Value → String
  | .null => "null"
  | .bool value => if value then "true" else "false"
  | .int value => toString value
  | .text value => quote value
  | .list items => "[" ++ ",".intercalate (jsonItems items) ++ "]"

def jsonItems : List Value → List String
  | [] => []
  | item :: items => json item :: jsonItems items

end

end Value

inductive Shape where
  | plain
  | alternate
deriving DecidableEq, Repr

/-- A result as the memo table and the seeds hold it. -/
structure Stored where
  shape : Shape
  value : Value

namespace Stored

def text (stored : Stored) : String :=
  match stored.shape with
  | .plain => stored.value.json
  | .alternate => "Alt(" ++ stored.value.json ++ ")"

def codec (shape : Shape) : Codec Stored Value where
  encode value := { shape, value }
  decode stored := if stored.shape = shape then some stored.value else none
  decode_encode _ := by simp

end Stored

end Packrat.Grammar
