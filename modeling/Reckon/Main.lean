import Reckon.Command.Session

/-! # The program -/

namespace Reckon.Command

def Verbosity.ofLevel? (level : String) : Option Verbosity :=
  match level.toLower with
  | "trace" | "5" => some .trace
  | "debug" | "4" => some .debug
  | "info" | "warn" | "error" | "off" | "3" | "2" | "1" | "0" => some .info
  | _ => none

/-- What is to be shown of the parts of programs whose names begin with a target. -/
structure Directive where
  target : String
  verbosity : Verbosity
  deriving DecidableEq, Repr

/-- A level alone is for every target, and a target alone is for every level. -/
def Directive.ofText? (text : String) : Option Directive :=
  match text.splitOn "=" with
  | [""] => none
  | [word] => some (((Verbosity.ofLevel? word).map (⟨"", ·⟩)).getD ⟨word, .trace⟩)
  | [target, level] => (Verbosity.ofLevel? level).map (⟨target, ·⟩)
  | _ => none

/-- How much of the log some directives with commas between them show: the last of those with the
longest target decides. Directives for a part of the program only are left aside. -/
def Verbosity.ofDirectives (text : String) : Verbosity :=
  let directives := (text.splitOn ",").filterMap Directive.ofText?
  let applying := directives.filter fun d => d.target.isPrefixOf "intcalc"
  (applying.foldl (fun best d => if best.target.length ≤ d.target.length then d else best)
    ⟨"", .info⟩).verbosity

/-- Whether a command line makes the program read its input. -/
def readsInput (arguments : List String) : Bool :=
  match request arguments with
  | .ok (.calculate o) => o.expression.isNone
  | _ => false

end Reckon.Command

open Reckon.Command in
def main (arguments : List String) : IO UInt32 := do
  let verbosity := Verbosity.ofDirectives ((← IO.getEnv "RUST_LOG").getD "")
  let stdin ← IO.getStdin
  let input ← if readsInput arguments then stdin.readBinToEnd else pure ByteArray.empty
  let completion := execute arguments input verbosity
  IO.print completion.output
  IO.eprint completion.messages
  return completion.exit
