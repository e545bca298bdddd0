import Reckon.Expr.Basic
import Reckon.Token.Basic

/-! # The grammar -/

namespace Reckon

inductive Level where
  | sum
  | product
  | operand
  deriving DecidableEq, Repr

/-- The tokens of a level derive a tree. -/
inductive Derives : Level → List Token → Expr → Prop where

  | literal (n : Int64) : Derives .operand [.integer n] (.number n)

  | group {ts : List Token} {e : Expr} : Derives .sum ts e →
      Derives .operand (.opening :: ts ++ [.closing]) e

  | operand {ts : List Token} {e : Expr} : Derives .operand ts e → Derives .product ts e

  | product {ls rs : List Token} {lhs rhs : Expr} {op : Operator} : op.isAdditive = false →
      Derives .product ls lhs → Derives .operand rs rhs →
      Derives .product (ls ++ .operator op :: rs) (.binary op lhs rhs)

  | term {ts : List Token} {e : Expr} : Derives .product ts e → Derives .sum ts e

  | sum {ls rs : List Token} {lhs rhs : Expr} {op : Operator} : op.isAdditive = true →
      Derives .sum ls lhs → Derives .product rs rhs →
      Derives .sum (ls ++ .operator op :: rs) (.binary op lhs rhs)

/-- How many more groups the tokens open than they close. -/
def depth (ts : List Token) : Int := (ts.count .opening : Int) - ts.count .closing

/-- No token stands inside more groups than the limit allows. -/
def Shallow (limit : Nat) (ts : List Token) : Prop := ∀ p, p <+: ts → depth p ≤ limit

end Reckon
