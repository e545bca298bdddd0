import Reckon.Inspect
import Reckon.Token.Basic

/-! # The text of tokens -/

namespace Reckon

namespace Operator

def text (op : Operator) : String := String.singleton op.symbol

def constructorName : Operator → String
  | add => "Plus"
  | sub => "Minus"
  | mul => "Mul"
  | div => "Div"

end Operator

namespace Kind

def text : Kind → String
  | integer => "INTEGER"
  | operator .add => "PLUS"
  | operator .sub => "MINUS"
  | operator .mul => "MUL"
  | operator .div => "DIV"
  | opening => "LPAREN"
  | closing => "RPAREN"
  | finish => "EOF"

def constructorName : Kind → String
  | integer => "Integer"
  | operator op => op.constructorName
  | opening => "LParen"
  | closing => "RParen"
  | finish => "EndOfInput"

end Kind

/-- The text of a token, with a mark for the end of the input. -/
def Token.text : Token → String
  | integer n => Decimal.intText n.toInt
  | operator op => op.text
  | opening => "("
  | closing => ")"
  | finish => "<EOI>"

instance : Inspect Operator where
  onto op out := out ++ op.constructorName

instance : Inspect Kind where
  onto kind out := out ++ kind.constructorName

instance : Inspect Token where
  onto
    | .integer n, out => Inspect.listed "Integer" [Inspect.onto n] out
    | token, out => Inspect.onto token.kind out

instance : Inspect Spanned where
  onto s out :=
    Inspect.listed "" [Inspect.onto s.start, Inspect.onto s.token, Inspect.onto s.stop] out

end Reckon
