import Reckon.Failure

/-! # The counting automaton

Whether a source is well formed needs no recursion: a flag says whether an operand is complete, and
a counter how many groups are open.
-/

namespace Reckon

structure Automaton where
  complete : Bool
  opened : Nat
  deriving DecidableEq, Repr

namespace Automaton

def start : Automaton := ⟨false, 0⟩

/-- The kinds that an error names: an ending behind a complete operand, or what begins one. -/
def expected (a : Automaton) : List Kind :=
  if a.complete then [if 0 < a.opened then .closing else .finish] else [.integer, .opening]

/-- Read a token: the next state, nothing if the input is complete, or an error. -/
def step (limit : UInt64) (a : Automaton) (s : Spanned) : Except ParseError (Option Automaton) :=
  match a.complete, s.token with
  | false, .integer _ => .ok (some { a with complete := true })
  | false, .opening =>
    if limit.toNat ≤ a.opened then .error (.tooDeep limit s.start)
    else .ok (some ⟨false, a.opened + 1⟩)
  | true, .operator _ => .ok (some { a with complete := false })
  | true, .closing =>
    if 0 < a.opened then .ok (some ⟨true, a.opened - 1⟩)
    else .error (.mismatch a.expected s.token s.start)
  | true, .finish =>
    if 0 < a.opened then .error (.mismatch a.expected s.token s.start) else .ok none
  | _, _ => .error (.mismatch a.expected s.token s.start)

def run (limit : UInt64) (finish : Spanned) (a : Automaton) :
    List (Except ScanError Spanned) → Except ParseError Unit
  | [] => (a.step limit finish).map fun _ => ()
  | .error error :: _ => .error (.scan error)
  | .ok s :: rest =>
    match a.step limit s with
    | .error error => .error error
    | .ok none => .ok ()
    | .ok (some next) => next.run limit finish rest

end Automaton

end Reckon
