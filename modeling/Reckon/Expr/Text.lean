import Reckon.Expr.Basic
import Reckon.Token.Text

/-! # The text of expressions

The text is made from a list of pieces still to be written, so that the depth of a tree is not
limited by the call stack.
-/

namespace Reckon

namespace Expr

/-- A part of a text that is still to be written. -/
inductive Piece where
  | tree (e : Expr)
  | mark (c : Char)

def Piece.weight : Piece → Nat
  | tree e => 2 * e.weight
  | mark _ => 1

def Piece.totalWeight : List Piece → Nat
  | [] => 0
  | piece :: pieces => piece.weight + totalWeight pieces

def write (out : String) : List Piece → String
  | [] => out
  | .mark c :: pieces => write (out.push c) pieces
  | .tree (number n) :: pieces => write (out ++ Decimal.intText n.toInt) pieces
  | .tree (binary op lhs rhs) :: pieces =>
    write (((out.push '(').push op.symbol).push ' ')
      (.tree lhs :: .mark ' ' :: .tree rhs :: .mark ')' :: pieces)
termination_by pieces => Piece.totalWeight pieces
decreasing_by
  all_goals simp only [Piece.totalWeight, Piece.weight, weight]
  all_goals omega

def text (e : Expr) : String := write "" [.tree e]

/-- Append the constructor notation of an expression to a text. -/
def inspectOnto : Expr → String → String
  | number n => Inspect.listed "Num" [Inspect.onto n]
  | binary op lhs rhs =>
    Inspect.named "BinOp"
      [("lhs", lhs.inspectOnto), ("op", Inspect.onto op), ("rhs", rhs.inspectOnto)]

instance : Inspect Expr where
  onto := inspectOnto

end Expr

end Reckon
