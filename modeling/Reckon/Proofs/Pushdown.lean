import Reckon.Automaton
import Reckon.Grammar
import Reckon.Proofs.Descent

/-! # A pushdown machine

The unfinished work of a descent, laid on a stack: for every open group the sum and the product that
it interrupts.
-/

namespace Reckon

/-- An operation whose right operand is still to be read. -/
structure Half where
  lhs : Expr
  op : Operator

namespace Half

def fill : Option Half → Expr → Expr
  | none, e => e
  | some half, e => .binary half.op half.lhs e

@[simp] theorem fill_none (e : Expr) : fill none e = e := rfl

@[simp] theorem fill_some (lhs : Expr) (op : Operator) (e : Expr) :
    fill (some ⟨lhs, op⟩) e = .binary op lhs e := rfl

def events : Option Half → List ParseEvent
  | none => []
  | some half => [.reduceBinary half.op]

end Half

/-- The operations of a group that wait for a product and for an operand. -/
structure Frame where
  sum? : Option Half
  product? : Option Half

/-- Inside some groups, an operand is wanted or a product is complete. -/
inductive Pushdown where
  | wanted (inner : Frame) (outer : List Frame)
  | complete (sum? : Option Half) (product : Expr) (outer : List Frame)

namespace Pushdown

def start : Pushdown := .wanted ⟨none, none⟩ []

def fill (inner : Frame) (outer : List Frame) (e : Expr) : Pushdown :=
  .complete inner.sum? (Half.fill inner.product? e) outer

def shift : Pushdown → Token → Option Pushdown
  | .wanted inner outer, .integer n => some (fill inner outer (.number n))
  | .wanted inner outer, .opening => some (.wanted ⟨none, none⟩ (inner :: outer))
  | .complete sum? e outer, .operator op =>
    if op.isAdditive then some (.wanted ⟨some ⟨Half.fill sum? e, op⟩, none⟩ outer)
    else some (.wanted ⟨sum?, some ⟨e, op⟩⟩ outer)
  | .complete sum? e (inner :: outer), .closing => some (fill inner outer (Half.fill sum? e))
  | _, _ => none

def result? : Pushdown → Option Expr
  | .complete sum? e [] => some (Half.fill sum? e)
  | _ => none

/-- The counting automaton sees neither trees nor operators. -/
def count : Pushdown → Automaton
  | .wanted _ outer => ⟨false, outer.length⟩
  | .complete _ _ outer => ⟨true, outer.length⟩

def refusal (p : Pushdown) (s : Spanned) : ParseError :=
  .mismatch p.count.expected s.token s.start

def step (limit : UInt64) (p : Pushdown) (s : Spanned) : Except ParseError Pushdown :=
  match p, s.token with
  | .wanted inner outer, .opening =>
    if limit.toNat ≤ outer.length then .error (.tooDeep limit s.start)
    else .ok (.wanted ⟨none, none⟩ (inner :: outer))
  | p, t => ((p.shift t).map .ok).getD (.error (p.refusal s))

/-- What is logged when a token has been read, before the machine steps over it. -/
def before : Pushdown → Token → List ParseEvent
  | .wanted _ _, _ => []
  | .complete sum? _ _, .operator op => if op.isAdditive then Half.events sum? else []
  | .complete sum? _ _, _ => Half.events sum?

def after : Pushdown → Token → List ParseEvent
  | .wanted inner _, .integer _ => Half.events inner.product? ++ [.reduceLiteral]
  | .complete _ _ (inner :: _), .closing => Half.events inner.product? ++ [.reduceGroup]
  | _, _ => []

/-- Read everything and the end of the input. The log comes with the latest event first. -/
def run (limit : UInt64) (finish : Spanned) (p : Pushdown) (log : List ParseEvent) :
    List Reading → Except Rejection (Expr × List ParseEvent)
  | [] =>
    match p.result? with
    | some e => .ok (e, .accept :: .offer finish :: (p.before .finish ++ log))
    | none => .error ⟨p.refusal finish, p.before .finish ++ log⟩
  | .error error :: _ => .error ⟨.scan error, log⟩
  | .ok s :: rest =>
    match p.step limit s, Descent.ahead finish rest with
    | .error error, _ => .error ⟨error, p.before s.token ++ log⟩
    | .ok _, .error error => .error ⟨.scan error, p.before s.token ++ log⟩
    | .ok next, .ok t =>
      run limit finish next (p.after s.token ++ .offer t :: (p.before s.token ++ log)) rest

def outcome (limit : UInt64) (finish : Spanned) (p : Pushdown) :
    List Reading → Except ParseError Expr
  | [] => (p.result?.map .ok).getD (.error (p.refusal finish))
  | .error error :: _ => .error (.scan error)
  | .ok s :: rest => p.step limit s >>= fun next => next.outcome limit finish rest

theorem step_opening {s : Spanned} (h : s.token = .opening) (limit : UInt64) (inner : Frame)
    (outer : List Frame) :
    step limit (.wanted inner outer) s =
      if limit.toNat ≤ outer.length then .error (.tooDeep limit s.start)
      else .ok (.wanted ⟨none, none⟩ (inner :: outer)) := by
  simp only [step, h]

theorem step_eq_refusal {p : Pushdown} {s : Spanned} (h : p.shift s.token = none)
    (limit : UInt64) : p.step limit s = .error (p.refusal s) := by
  unfold step
  split
  · rename_i ht
    rw [ht] at h
    cases h
  · simp [h]

theorem step_of_shift {p next : Pushdown} {s : Spanned} (ho : s.token ≠ .opening)
    (h : p.shift s.token = some next) (limit : UInt64) : p.step limit s = .ok next := by
  unfold step
  split
  · rename_i ht
    exact (ho ht).elim
  · simp [h]

theorem before_complete_none (e : Expr) (outer : List Frame) (t : Token) :
    (complete none e outer).before t = [] := by
  cases t <;> simp [before, Half.events]

theorem outcome_eq_run (limit : UInt64) (finish : Spanned) (p : Pushdown) (log : List ParseEvent)
    (rs : List Reading) :
    p.outcome limit finish rs =
      ((p.run limit finish log rs).mapError Rejection.error).map Prod.fst := by
  induction rs generalizing p log with
  | nil =>
    unfold outcome run
    cases p.result? <;> rfl
  | cons r rs ih =>
    cases r with
    | error error => rfl
    | ok s =>
      unfold outcome run
      cases p.step limit s with
      | error error => rfl
      | ok next =>
        cases rs with
        | nil => exact ih next _
        | cons r rs =>
          cases r with
          | error error => rfl
          | ok t => exact ih next _

theorem count_step {limit : UInt64} {s : Spanned} (hs : s.token ≠ .finish) (p : Pushdown) :
    p.count.step limit s = (p.step limit s).map fun next => some next.count := by
  obtain ⟨start, token, stop⟩ := s
  cases p with
  | wanted inner outer =>
    cases token with
    | opening =>
      by_cases hl : limit.toNat ≤ outer.length <;>
        simp [count, step, Automaton.step, hl, Except.map]
    | finish => exact (hs rfl).elim
    | _ => rfl
  | complete sum? e outer =>
    cases token with
    | operator op =>
      simp only [count, step, Automaton.step, shift]
      split <;> rfl
    | closing => cases outer <;> rfl
    | finish => exact (hs rfl).elim
    | _ => rfl

theorem count_step_finish {limit : UInt64} {s : Spanned} (hs : s.token = .finish) (p : Pushdown) :
    p.count.step limit s = (p.result?.map fun _ => .ok none).getD (.error (p.refusal s)) := by
  obtain ⟨start, token, stop⟩ := s
  obtain rfl : token = .finish := hs
  cases p with
  | wanted inner outer => rfl
  | complete sum? e outer => cases outer <;> rfl

/-- The machine accepts what the automaton accepts, and refuses the rest with the same errors. -/
theorem outcome_map_eq_run {limit : UInt64} {finish : Spanned} (hf : finish.token = .finish)
    {rs : List Reading} (hrs : ∀ s, .ok s ∈ rs → s.token ≠ .finish) (p : Pushdown) :
    (p.outcome limit finish rs).map (fun _ => ()) = p.count.run limit finish rs := by
  induction rs generalizing p with
  | nil =>
    simp only [outcome, Automaton.run, count_step_finish hf]
    cases p.result? <;> rfl
  | cons r rs ih =>
    cases r with
    | error error => rfl
    | ok s =>
      have hs := hrs s List.mem_cons_self
      have ih := ih fun t ht => hrs t (List.mem_cons_of_mem _ ht)
      simp only [outcome, Automaton.run, count_step hs]
      cases p.step limit s with
      | error error => rfl
      | ok next => exact ih next

end Pushdown

end Reckon
