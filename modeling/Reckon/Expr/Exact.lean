import Reckon.Expr.Value

/-! # The exact meaning of an expression

The value of a tree is the one over unbounded integers, unless an operation has no result in range:
the first such one is the fault of the tree.
-/

namespace Reckon.Expr

def exact : Expr → Int
  | number n => n.toInt
  | binary op lhs rhs => op.exact lhs.exact rhs.exact

/-- Why an operation on given exact operands has no result, if it has none. -/
def faultOf? (op : Operator) (a b : Int) : Option EvalError :=
  if op = .div ∧ b = 0 then some .divisionByZero
  else if InRange (op.exact a b) then none
  else some (.overflow (Int64.ofInt a) op (Int64.ofInt b))

/-- The first operation without a result. -/
def fault? : Expr → Option EvalError
  | number _ => none
  | binary op lhs rhs => lhs.fault?.or (rhs.fault?.or (faultOf? op lhs.exact rhs.exact))

/-- The operations of a tree in post-order, with their exact operands and results. -/
def postOrder : Expr → List Operation
  | number _ => []
  | binary op lhs rhs =>
    lhs.postOrder ++ rhs.postOrder ++
      [⟨Int64.ofInt lhs.exact, op, Int64.ofInt rhs.exact,
        Int64.ofInt (op.exact lhs.exact rhs.exact)⟩]

end Reckon.Expr
