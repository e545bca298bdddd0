import Reckon.Token.Basic

/-! # Failures -/

namespace Reckon

inductive ScanError where
  | unexpected (char : Char) (position : Nat)
  | outOfRange (literal : String) (position : Nat)
  deriving DecidableEq, Repr

def ScanError.position : ScanError → Nat
  | unexpected _ position => position
  | outOfRange _ position => position

inductive ParseError where
  | scan (error : ScanError)
  | mismatch (expected : List Kind) (found : Token) (position : Nat)
  | tooDeep (limit : UInt64) (position : Nat)
  deriving DecidableEq, Repr

inductive EvalError where
  | divisionByZero
  | overflow (lhs : Int64) (op : Operator) (rhs : Int64)
  | missingValue
  deriving DecidableEq, Repr

inductive Failure where
  | parse (error : ParseError)
  | eval (error : EvalError)
  deriving DecidableEq, Repr

end Reckon
