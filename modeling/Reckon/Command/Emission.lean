import Reckon.Command.Usage
import Reckon.Expr.Text
import Reckon.Failure.Message

/-! # What a calculation on the command line writes -/

namespace Reckon.Command

/-- The first failure of an input. Where tokens are listed, scanning is a stage of its own. -/
inductive InputError where
  | scan (error : ScanError)
  | run (failure : Failure)
  deriving DecidableEq, Repr

def InputError.chain : InputError → List String
  | scan error => [error.message]
  | run failure => failure.message :: failure.causes

/-- How much of the log is shown; each level shows more than the one before. -/
inductive Verbosity where
  | info
  | debug
  | trace
  deriving DecidableEq, Repr

inductive LogRecord where
  | options (options : Options)
  | event (event : Event)
  | value (input : String) (value : Int64)
  deriving DecidableEq, Repr

inductive Report where
  | expression (input : String) (error : InputError)
  | unreadable
  | failures (count : Int32)
  deriving DecidableEq, Repr

inductive Emission where
  | tokens (tokens : List Spanned)
  | tree (e : Expr)
  | value (value : Int64)
  | lineError (line : Nat) (error : InputError)
  | log (record : LogRecord)
  | report (report : Report)
  deriving DecidableEq, Repr

namespace LogRecord

def isShown (verbosity : Verbosity) : LogRecord → Bool
  | options _ | event _ => verbosity = .trace
  | value _ _ => verbosity ≠ .info

/-- A character of a logged input. Controls that steer a terminal are written by their code. -/
def escaped (c : Char) : List Char :=
  if c = '\x07' ∨ c = '\x08' ∨ c = '\x0c' ∨ c = '\x1b' ∨ c = '\x7f' then
    '\\' :: 'x' :: Text.hexDigit (c.toNat / 16) :: [Text.hexDigit (c.toNat % 16)]
  else [c]

def text : LogRecord → String
  | options o => "TRACE intcalc: CLI args = " ++ inspect o
  | event e => "TRACE " ++ e.stage.text ++ ": " ++ e.target ++ ": " ++ e.message
  | value input n =>
    "DEBUG intcalc: " ++ String.ofList (input.toList.flatMap escaped) ++ " => " ++
      Decimal.intText n.toInt

end LogRecord

namespace Report

/-- The causes of a failure below its headline, numbered from zero if there are several. -/
def causesText : List String → String
  | [] => ""
  | [cause] => "\n\nCaused by:\n    " ++ cause
  | causes =>
    "\n\nCaused by:" ++ String.join (causes.zipIdx.map fun (cause, i) =>
      "\n    " ++ Decimal.natText i ++ ": " ++ cause)

def text : Report → String
  | expression input error =>
    "Error: errored during evaluating " ++ inspect input ++ causesText error.chain
  | unreadable =>
    "Error: failed to read from stdin" ++ causesText ["stream did not contain valid UTF-8"]
  | failures count =>
    "Error: " ++ Decimal.intText count.toInt ++
      (if count = 1 then " expression failed" else " expressions failed")

end Report

namespace Emission

/-- Whether an emission is part of the output proper and not of the messages beside it. -/
def isOutput : Emission → Bool
  | tokens _ | tree _ | value _ => true
  | lineError _ _ | log _ | report _ => false

def text : Emission → String
  | tokens ts =>
    "tokens: " ++ " ".intercalate (ts.map fun t =>
      "Token(" ++ t.token.kind.text ++ ", " ++ t.token.text ++ ")")
  | tree e => "parsed: " ++ e.text
  | value n => Decimal.intText n.toInt
  | lineError line error =>
    "[error] line " ++ Decimal.natText line ++ ": " ++ ": ".intercalate error.chain
  | log record => record.text
  | report r => r.text

end Emission

end Reckon.Command
