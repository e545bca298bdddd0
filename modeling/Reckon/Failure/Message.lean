import Reckon.Failure
import Reckon.Token.Text

/-! # The wording of failures -/

namespace Reckon

open Decimal

def ScanError.message : ScanError → String
  | unexpected c position =>
    "unexpected character " ++ Text.quoteChar c ++ " at offset " ++ natText position
  | outOfRange literal position =>
    "integer literal `" ++ literal ++ "' at offset " ++ natText position ++ " is out of range"

/-- What was expected: one kind by its name, any other number of kinds as a choice. -/
def ParseError.oneOf : List Kind → String
  | [kind] => kind.text
  | kinds => "one of " ++ ", ".intercalate (kinds.map Kind.text)

def ParseError.message : ParseError → String
  | scan error => "from lexer: " ++ error.message
  | mismatch expected found position =>
    "syntax error at offset " ++ natText position ++ ": expected " ++ oneOf expected ++
      ", found `" ++ found.text ++ "'"
  | tooDeep limit position =>
    "parentheses nested deeper than " ++ natText limit.toNat ++ " levels at offset " ++
      natText position

def EvalError.message : EvalError → String
  | divisionByZero => "division by zero"
  | overflow lhs op rhs =>
    "integer overflow in `" ++ intText lhs.toInt ++ " " ++ op.text ++ " " ++ intText rhs.toInt ++
      "'"
  | missingValue => "empty value stack"

namespace Failure

def message : Failure → String
  | parse error => error.message
  | eval error => error.message

/-- The messages of the causes behind a failure, the nearest first. -/
def causes : Failure → List String
  | parse (.scan error) => [error.message]
  | _ => []

end Failure

open Inspect

instance : Inspect ScanError where
  onto
    | .unexpected c position => named "UnexpectedChar" [("ch", onto c), ("position", onto position)]
    | .outOfRange literal position =>
      named "IntegerOverflow" [("literal", onto literal), ("position", onto position)]

instance : Inspect ParseError where
  onto
    | .scan error => listed "Lex" [onto error]
    | .mismatch expected found position =>
      named "Syntax"
        [("expected", onto expected), ("found", onto found), ("position", onto position)]
    | .tooDeep limit position =>
      named "NestingTooDeep" [("limit", onto limit), ("position", onto position)]

instance : Inspect EvalError where
  onto
    | .divisionByZero, out => out ++ "DivisionByZero"
    | .overflow lhs op rhs, out =>
      named "Overflow" [("lhs", onto lhs), ("op", onto op), ("rhs", onto rhs)] out
    | .missingValue, out => out ++ "EmptyValueStack"

instance : Inspect Failure where
  onto
    | .parse error => listed "Parse" [onto error]
    | .eval error => listed "Eval" [onto error]

end Reckon
