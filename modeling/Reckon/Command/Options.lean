import Reckon.Calculate

/-! # Command line options

The arguments are read from left to right. An option may be given its value in the next argument,
and is only settled when something else comes up.
-/

namespace Reckon.Command

structure Options where
  tokens : Bool
  tree : Bool
  limit : UInt64
  expression : Option String
  deriving DecidableEq, Repr

namespace Options

def settings (o : Options) : Settings := ⟨o.limit⟩

instance : Inspect Options where
  onto o :=
    Inspect.named "Args"
      [("tokens", Inspect.onto o.tokens), ("ast", Inspect.onto o.tree),
        ("max_depth", Inspect.onto o.limit), ("expr", Inspect.onto o.expression)]

end Options

inductive Request where
  | calculate (options : Options)
  | summary
  | help
  | version
  deriving DecidableEq, Repr

inductive NumeralError where
  | empty
  | invalidDigit
  | tooLarge
  deriving DecidableEq, Repr

inductive Name where
  | tokens
  | tree
  | limit
  | help
  | version
  deriving DecidableEq, Repr

inductive UsageError where
  | unknown (argument : String)
  | unneededValue (option : Name) (value : String)
  | missingValue
  | repeated (option : Name)
  | invalidValue (value : String) (reason : NumeralError)
  deriving DecidableEq, Repr

/-- The number that digits stand for, each checked to be a digit and then to keep it in range. -/
def readDigits (bound : Nat) : Nat → List Char → Except NumeralError Nat
  | n, [] => .ok n
  | n, c :: rest =>
    if c.isDigit then
      let next := 10 * n + Decimal.digitValue c
      if next ≤ bound then readDigits bound next rest else .error .tooLarge
    else .error .invalidDigit

/-- A number of levels: digits, after a plus sign or none. -/
def readLimit (text : String) : Except NumeralError UInt64 :=
  let read (digits : List Char) := (readDigits (UInt64.size - 1) 0 digits).map UInt64.ofNat
  match text.toList with
  | [] => .error .empty
  | ['+'] => .error .invalidDigit
  | '+' :: digits => read digits
  | digits => read digits

namespace Name

def text : Name → String
  | tokens => "tokens"
  | tree => "ast"
  | limit => "max-depth"
  | help => "help"
  | version => "version"

def ofText? (text : String) : Option Name :=
  [tokens, tree, limit, help, version].find? fun name => name.text == text

end Name

/-- The arguments read so far. An unsettled limit is without its value or waits to be checked. -/
structure Gathered where
  tokens : Bool
  tree : Bool
  limit : Option UInt64
  expression : Option String
  unsettled : Option (Option String)

namespace Gathered

def start : Gathered := ⟨false, false, none, none, none⟩

def setLimit (g : Gathered) (value : String) : Except UsageError Gathered :=
  if g.limit.isSome then .error (.repeated .limit)
  else
    match readLimit value with
    | .error reason => .error (.invalidValue value reason)
    | .ok n => .ok { g with limit := some n }

/-- Settle the limit, if it is unsettled. -/
def settle (g : Gathered) : Except UsageError Gathered :=
  match g.unsettled with
  | none => .ok g
  | some none => .error .missingValue
  | some (some value) => { g with unsettled := none }.setLimit value

def setTokens (g : Gathered) : Except UsageError Gathered :=
  if g.tokens then .error (.repeated .tokens) else .ok { g with tokens := true }

def setTree (g : Gathered) : Except UsageError Gathered :=
  if g.tree then .error (.repeated .tree) else .ok { g with tree := true }

def operand (g : Gathered) (argument : String) : Except UsageError Gathered :=
  if g.expression.isSome then .error (.unknown argument)
  else g.settle.map fun g => { g with expression := some argument }

def finish (g : Gathered) : Except UsageError Request :=
  g.settle.map fun g =>
    .calculate ⟨g.tokens, g.tree, g.limit.getD Settings.standard.limit, g.expression⟩

end Gathered

inductive Form where
  | separator
  | long (name : String) (value : Option String)
  | short (letter : Char)
  | operand
  deriving DecidableEq, Repr

/-- The form of an argument. A long option has the value behind the first equals sign, if any. -/
def Form.ofArgument (argument : String) : Form :=
  match argument.toList with
  | ['-', '-'] => .separator
  | '-' :: '-' :: body =>
    let name := String.ofList (body.takeWhile (· ≠ '='))
    match body.dropWhile (· ≠ '=') with
    | [] => .long name none
    | _ :: value => .long name (some (String.ofList value))
  | '-' :: letter :: _ => .short letter
  | _ => .operand

def readOperands (g : Gathered) : List String → Except UsageError Request
  | [] => g.finish
  | argument :: rest =>
    match g.operand argument with
    | .error error => .error error
    | .ok g => readOperands g rest

/-- What an option that was met leads to: the end of the reading, or more of it. -/
inductive Reaction where
  | stop (request : Request)
  | go (g : Gathered)

def Gathered.react (g : Gathered) (name : Name) (value : Option String) :
    Except UsageError Reaction :=
  match name, value with
  | .limit, none => g.settle.map fun g => .go { g with unsettled := some none }
  | .limit, some value => do return .go (← (← g.settle).setLimit value)
  | name, some value => .error (.unneededValue name value)
  | .tokens, none => do return .go (← (← g.settle).setTokens)
  | .tree, none => do return .go (← (← g.settle).setTree)
  | .help, none => g.settle.map fun _ => .stop .help
  | .version, none => g.settle.map fun _ => .stop .version

def Gathered.reactLetter (g : Gathered) (letter : Char) : Except UsageError Reaction :=
  if letter = 'h' then g.settle.map fun _ => .stop .summary
  else if letter = 'V' then g.settle.map fun _ => .stop .version
  else .error (.unknown (String.ofList ['-', letter]))

/-- React to one argument. An operand is the value of a limit that still waits for it. -/
def Gathered.reactArgument (g : Gathered) (argument : String) (form : Form) :
    Except UsageError Reaction :=
  match form with
  | .long name value =>
    match Name.ofText? name with
    | none => .error (.unknown ("--" ++ name))
    | some name => g.react name value
  | .short letter => g.reactLetter letter
  | .separator | .operand =>
    if g.unsettled = some none then .ok (.go { g with unsettled := some (some argument) })
    else (g.operand argument).map .go

/-- Read the arguments behind those gathered. -/
def readArguments (g : Gathered) : List String → Except UsageError Request
  | [] => g.finish
  | argument :: rest =>
    let form := Form.ofArgument argument
    if form = .separator then readOperands g rest
    else
      match g.reactArgument argument form with
      | .error error => .error error
      | .ok (.stop request) => .ok request
      | .ok (.go g) => readArguments g rest

def request (arguments : List String) : Except UsageError Request :=
  readArguments .start arguments

end Reckon.Command
