import Reckon.Decimal
import Reckon.Text.Quoted

/-! # Values in constructor notation

A value is written as the constructor that builds it. Notations are appended to the text so far, so
that a long value costs no more than its length.
-/

namespace Reckon

/-- Types whose values have a constructor notation. -/
class Inspect (α : Type) where
  onto : α → String → String

def inspect {α : Type} [Inspect α] (a : α) : String := Inspect.onto a ""

namespace Inspect

def separated : List (String → String) → String → String
  | [], out => out
  | [piece], out => piece out
  | piece :: next :: rest, out => separated (next :: rest) (piece out ++ ", ")

def listed (name : String) (fields : List (String → String)) (out : String) : String :=
  separated fields (out ++ name ++ "(") ++ ")"

def named (name : String) (fields : List (String × (String → String))) (out : String) : String :=
  let pieces := fields.map fun field text => field.2 (text ++ field.1 ++ ": ")
  separated pieces (out ++ name ++ " \x7b ") ++ " \x7d"

instance : Inspect Nat where
  onto n out := out ++ Decimal.natText n

instance : Inspect Int64 where
  onto n out := out ++ Decimal.intText n.toInt

instance : Inspect UInt64 where
  onto n out := out ++ Decimal.natText n.toNat

instance : Inspect Bool where
  onto b out := out ++ if b then "true" else "false"

instance : Inspect Char where
  onto c out := out ++ Text.quoteChar c

instance : Inspect String where
  onto text out := out ++ Text.quoteText text

instance {α : Type} [Inspect α] : Inspect (List α) where
  onto items out := separated (items.map onto) (out ++ "[") ++ "]"

instance {α : Type} [Inspect α] : Inspect (Option α) where
  onto
    | none, out => out ++ "None"
    | some a, out => listed "Some" [onto a] out

instance {ε α : Type} [Inspect ε] [Inspect α] : Inspect (Except ε α) where
  onto
    | .error e, out => listed "Err" [onto e] out
    | .ok a, out => listed "Ok" [onto a] out

end Inspect

end Reckon
