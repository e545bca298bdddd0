import Reckon.Text.Graphic

/-! # Quoted characters and texts

A quoted text stands between quotes of its own kind, and every character without a mark of its own
is written by its code point.
-/

namespace Reckon.Text

def hexDigit (n : Nat) : Char :=
  if n < 10 then Char.ofNat (48 + n) else Char.ofNat (87 + n)

def hexOnto (n : Nat) (tail : List Char) : List Char :=
  if n < 16 then hexDigit n :: tail else hexOnto (n / 16) (hexDigit (n % 16) :: tail)
termination_by n

def quotedChar (quote c : Char) : List Char :=
  if c = '\x00' then ['\\', '0']
  else if c = '\t' then ['\\', 't']
  else if c = '\n' then ['\\', 'n']
  else if c = '\r' then ['\\', 'r']
  else if c = '\\' ∨ c = quote then ['\\', c]
  else if isGraphic c then [c]
  else '\\' :: 'u' :: '\x7b' :: hexOnto c.toNat ['\x7d']

def quoteChar (c : Char) : String := String.ofList ('\'' :: quotedChar '\'' c ++ ['\''])

def quoteText (text : String) : String :=
  String.ofList ('"' :: text.toList.flatMap (quotedChar '"') ++ ['"'])

end Reckon.Text
