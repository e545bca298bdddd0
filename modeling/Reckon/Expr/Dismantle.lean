import Reckon.Expr.Basic

/-! # Taking a tree apart

A tree of any depth is released without recursion: the operations among the children of a node are
moved to a stack and leave a zero behind.
-/

namespace Reckon.Expr

/-- What a child leaves behind in its parent: a leaf stays, an operation becomes zero. -/
def stump : Expr → Expr
  | number n => number n
  | binary _ _ _ => number 0

def pushTo (stack : List Expr) : Expr → List Expr
  | number _ => stack
  | e => e :: stack

/-- Move the operations among the children of a node to a stack, the left one first. -/
def detach (stack : List Expr) : Expr → Expr × List Expr
  | number n => (number n, stack)
  | binary op lhs rhs => (binary op lhs.stump rhs.stump, (rhs.pushTo (lhs.pushTo stack)))

def stackWeight : List Expr → Nat
  | [] => 0
  | e :: stack => e.weight + stackWeight stack

theorem stackWeight_pushTo_le (stack : List Expr) (e : Expr) :
    stackWeight (e.pushTo stack) ≤ e.weight + stackWeight stack := by
  cases e <;> simp [pushTo, stackWeight]

theorem stackWeight_detach_lt (stack : List Expr) (e : Expr) :
    stackWeight (e.detach stack).2 < stackWeight (e :: stack) := by
  cases e with
  | number n => simp [detach, stackWeight, weight]
  | binary op lhs rhs =>
    have hr := stackWeight_pushTo_le (lhs.pushTo stack) rhs
    have hl := stackWeight_pushTo_le stack lhs
    simp only [detach, stackWeight, weight]
    omega

/-- Release the trees on a stack and give the nodes as they are when they go. -/
def releaseAll : List Expr → List Expr
  | [] => []
  | e :: stack => (e.detach stack).1 :: releaseAll (e.detach stack).2
termination_by stack => stackWeight stack
decreasing_by exact stackWeight_detach_lt stack e

/-- Release a tree, whose root is the last node to go. -/
def dismantle (e : Expr) : List Expr :=
  releaseAll (e.detach []).2 ++ [(e.detach []).1]

end Reckon.Expr
