import Reckon.Command.Emission
import Reckon.Command.Lines

/-! # Sessions

A session evaluates one expression, or each line of the input that is not blank. Failed lines are
counted and do not stop it, but a line that is not text does.
-/

namespace Reckon.Command

/-- What one input comes to, with everything written on the way. -/
structure Answer where
  result : Except InputError Int64
  written : List Emission

def logged (trace : List TraceRecord) : List Emission :=
  trace.filterMap fun
    | .event e => some (.log (.event e))
    | _ => none

def answerTree (input : String) (e : Expr) : Answer :=
  let evaluated := evaluateTraced e
  match evaluated.result with
  | .error error => ⟨.error (.run (.eval error)), logged evaluated.trace⟩
  | .ok value =>
    ⟨.ok value, logged evaluated.trace ++ [.log (.value input value)]⟩

def answerParsed (o : Options) (input : String) : Answer :=
  let parsed := parseTraced o.settings input
  match parsed.result with
  | .error error => ⟨.error (.run (.parse error)), logged parsed.trace⟩
  | .ok e =>
    let answer := answerTree input e
    let tree := if o.tree then [Emission.tree e] else []
    ⟨answer.result, logged parsed.trace ++ tree ++ answer.written⟩

/-- Evaluate an input, after writing its tokens if they are asked for. -/
def answer (o : Options) (input : String) : Answer :=
  if o.tokens then
    match tokens input with
    | .error error => ⟨.error (.scan error), []⟩
    | .ok ts =>
      let answer := answerParsed o input
      ⟨answer.result, .tokens ts :: answer.written⟩
  else answerParsed o input

/-- What a session has written, and whether it succeeded. -/
structure Outcome where
  succeeded : Bool
  written : List Emission

def evaluateArgument (o : Options) (input : String) : Outcome :=
  let answer := answer o input
  match answer.result with
  | .ok value => ⟨true, answer.written ++ [.value value]⟩
  | .error error => ⟨false, answer.written ++ [.report (.expression input error)]⟩

/-- What a line adds to the output, with whether it failed. -/
def evaluateLine (o : Options) (number : Nat) (line : String) : Outcome :=
  if Text.isBlankText line.toList then ⟨true, []⟩
  else
    let answer := answer o line
    match answer.result with
    | .ok value => ⟨true, answer.written ++ [.value value]⟩
    | .error error => ⟨false, answer.written ++ [.lineError number error]⟩

/-- Evaluate the lines from the given number on. The emissions so far have the latest first. -/
def evaluateLines (o : Options) (number : Nat) (failures : Int32) (written : List Emission) :
    List (Option String) → Outcome
  | [] =>
    if 0 < failures then ⟨false, (.report (.failures failures) :: written).reverse⟩
    else ⟨true, written.reverse⟩
  | none :: _ => ⟨false, (.report .unreadable :: written).reverse⟩
  | some line :: lines =>
    let outcome := evaluateLine o number line
    let failures := if outcome.succeeded then failures else failures + 1
    evaluateLines o (number + 1) failures (outcome.written.reverseAux written) lines

/-- Evaluate what the options ask for, with the log of the options first. -/
def evaluate (o : Options) (input : ByteArray) : Outcome :=
  let outcome :=
    match o.expression with
    | some expression => evaluateArgument o expression
    | none => evaluateLines o 1 0 [] (inputLines input)
  { outcome with written := .log (.options o) :: outcome.written }

structure Completion where
  exit : UInt32
  output : String
  messages : String
  deriving DecidableEq, Repr

def Emission.isShown (verbosity : Verbosity) : Emission → Bool
  | .log record => record.isShown verbosity
  | _ => true

def textOf (written : List Emission) : String :=
  written.foldl (fun text emission => text ++ emission.text ++ "\n") ""

def Outcome.completion (outcome : Outcome) (verbosity : Verbosity) : Completion :=
  let shown := outcome.written.filter (·.isShown verbosity)
  { exit := if outcome.succeeded then 0 else 1
    output := textOf (shown.filter (·.isOutput))
    messages := textOf (shown.filter (!·.isOutput)) }

def execute (arguments : List String) (input : ByteArray) (verbosity : Verbosity) : Completion :=
  match request arguments with
  | .error error => ⟨2, "", error.message ++ "\n"⟩
  | .ok .summary => ⟨0, summaryText, ""⟩
  | .ok .help => ⟨0, helpText, ""⟩
  | .ok .version => ⟨0, versionText, ""⟩
  | .ok (.calculate o) => (evaluate o input).completion verbosity

end Reckon.Command
