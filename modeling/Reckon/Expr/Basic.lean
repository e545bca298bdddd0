import Reckon.Operator

/-! # Expressions -/

namespace Reckon

inductive Expr where
  | number (value : Int64)
  | binary (op : Operator) (lhs rhs : Expr)
  deriving DecidableEq, Repr

namespace Expr

/-- The number of steps that a walk with an explicit stack takes over the tree. -/
def weight : Expr → Nat
  | number _ => 1
  | binary _ lhs rhs => lhs.weight + rhs.weight + 2

end Expr

end Reckon
