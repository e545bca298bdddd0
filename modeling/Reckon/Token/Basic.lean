import Reckon.Operator

/-! # Tokens -/

namespace Reckon

inductive Kind where
  | integer
  | operator (op : Operator)
  | opening
  | closing
  | finish
  deriving DecidableEq, Repr

inductive Token where
  | integer (value : Int64)
  | operator (op : Operator)
  | opening
  | closing
  | finish
  deriving DecidableEq, Repr

namespace Token

def kind : Token → Kind
  | integer _ => .integer
  | operator op => .operator op
  | opening => .opening
  | closing => .closing
  | finish => .finish

def value? : Token → Option Int64
  | integer n => some n
  | _ => none

def operator? : Token → Option Operator
  | operator op => some op
  | _ => none

/-- The character of a token that is always written in the same way. -/
def symbol? : Token → Option Char
  | operator op => some op.symbol
  | opening => some '('
  | closing => some ')'
  | integer _ | finish => none

def ofSymbol? (c : Char) : Option Token :=
  if c = '(' then some opening
  else if c = ')' then some closing
  else (Operator.ofSymbol? c).map operator

end Token

structure Spanned where
  start : Nat
  token : Token
  stop : Nat
  deriving DecidableEq, Repr

end Reckon
