import Reckon.Text.Printable

/-! Quoted characters and texts, as they stand in messages and in the written form of a tree. -/

namespace Reckon.Text

def codePoint (char : Char) : List Char :=
  ['\\', 'u', '\x7b'] ++ Nat.toDigits 16 char.toNat ++ ['\x7d']

def escape (quote char : Char) : List Char :=
  if char = '\x00' then ['\\', '0']
  else if char = '\t' then ['\\', 't']
  else if char = '\r' then ['\\', 'r']
  else if char = '\n' then ['\\', 'n']
  else if char = '\\' ∨ char = quote then ['\\', char]
  else if isShown char then [char]
  else codePoint char

def quotedChar (char : Char) : String := String.ofList ('\'' :: escape '\'' char ++ ['\''])

def quoted (text : String) : String :=
  String.ofList ('"' :: text.toList.flatMap (escape '"') ++ ['"'])

end Reckon.Text
