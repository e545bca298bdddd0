import Reckon.Command.Options
import Reckon.Text.Terminal

/-! # Help and usage errors -/

namespace Reckon.Command

/-- The option as the messages show it, with the placeholder of its value. -/
def Name.display (name : Name) : String :=
  match name with
  | .limit => "--max-depth <MAX_DEPTH>"
  | name => "--" ++ name.text

def NumeralError.message : NumeralError → String
  | empty => "cannot parse integer from empty string"
  | invalidDigit => "invalid digit found in string"
  | tooLarge => "number too large to fit in target type"

/-- The reason why a command line is refused, with what a terminal would show of an argument. -/
def UsageError.reason : UsageError → String
  | unknown argument => "unexpected argument '" ++ Text.visible argument ++ "' found"
  | unneededValue option value =>
    "unexpected value '" ++ Text.visible value ++ "' for '" ++ option.display ++
      "' found; no more were expected"
  | missingValue =>
    "a value is required for '" ++ Name.limit.display ++ "' but none was supplied"
  | repeated option => "the argument '" ++ option.display ++ "' cannot be used multiple times"
  | invalidValue value reason =>
    "invalid value '" ++ Text.visible value ++ "' for '" ++ Name.limit.display ++ "': " ++
      reason.message

def UsageError.message (error : UsageError) : String := "error: " ++ error.reason

def versionText : String := "intcalc-cli 0.0.0-dev\n"

def usageLine : String := "Usage: intcalc [OPTIONS] [EXPR]\n"

def summaryText : String :=
  usageLine ++
  "
Arguments:
  [EXPR]  The expression to evaluate

Options:
      --tokens                 Print the token stream before evaluating
      --ast                    Print the parsed expression tree before evaluating
      --max-depth <MAX_DEPTH>  The maximum nesting depth of parenthesized groups [default: 256]
  -h, --help                   Print help (see more with '--help')
  -V, --version                Print version
"

/-- The long help, whose blank lines inside a paragraph keep the indentation. -/
def helpText : String :=
  usageLine ++
  "
Arguments:
  [EXPR]
          The expression to evaluate.
          " ++ "
          If omitted, each non-empty line of standard input is evaluated in turn.

Options:
      --tokens
          Print the token stream before evaluating

      --ast
          Print the parsed expression tree before evaluating

      --max-depth <MAX_DEPTH>
          The maximum nesting depth of parenthesized groups
          " ++ "
          [default: 256]

  -h, --help
          Print help (see a summary with '-h')

  -V, --version
          Print version
"

end Reckon.Command
