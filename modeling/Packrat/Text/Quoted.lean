import Packrat.Text.Unprinted

set_option autoImplicit false

namespace Packrat.Quoted

def hex (code : Nat) : List Char :=
  Nat.toDigits 16 code

def escape (quote c : Char) : List Char :=
  if c = Char.ofNat 0 then ['\\', '0']
  else if c = '\t' then ['\\', 't']
  else if c = '\n' then ['\\', 'n']
  else if c = '\r' then ['\\', 'r']
  else if c = '\\' then ['\\', '\\']
  else if c = quote then ['\\', c]
  else if CharSet.unprinted.contains c then
    ['\\', 'u', '\x7b'] ++ hex c.toNat ++ ['\x7d']
  else [c]

def char (c : Char) : String :=
  String.ofList ('\'' :: escape '\'' c ++ ['\''])

def text (s : String) : String :=
  String.ofList ('"' :: s.toList.flatMap (escape '"') ++ ['"'])

end Packrat.Quoted
