import Reckon.Proofs.Nesting
import Reckon.Proofs.Phrasing

/-! # Spacing put into a source

Spacing may be put in wherever it cuts no row of digits. What starts there or behind moves by the
size of the spacing, and nothing else changes.
-/

namespace Reckon

open String (utf8Len)

def Spanned.shift (n : Nat) (s : Spanned) : Spanned := ⟨s.start + n, s.token, s.stop + n⟩

def ScanError.shift (n : Nat) : ScanError → ScanError
  | unexpected c position => .unexpected c (position + n)
  | outOfRange literal position => .outOfRange literal (position + n)

def ParseError.shift (n : Nat) : ParseError → ParseError
  | scan error => .scan (error.shift n)
  | mismatch expected found position => .mismatch expected found (position + n)
  | tooDeep limit position => .tooDeep limit (position + n)

def Reading.adapt (f : Spanned → Spanned) (g : ScanError → ScanError) (r : Reading) : Reading :=
  (r.map f).mapError g

section Adapt

variable {f : Spanned → Spanned} {g : ScanError → ScanError} {position : Nat} {x : List Char}
  {r : Reading}

theorem join_map_adapt (as bs : List Reading) :
    join (as.map (Reading.adapt f g)) (bs.map (Reading.adapt f g)) =
      (join as bs).map (Reading.adapt f g) := by
  fun_induction join as bs with
  | case1 => rfl
  | case2 t as bs ih =>
    rw [List.map_cons, List.map_cons, ← ih]
    rfl
  | case3 => rfl

theorem Reading.adapt_shift_zero (r : Reading) :
    r.adapt (Spanned.shift 0) (ScanError.shift 0) = r := by
  cases r with
  | ok s => rfl
  | error error => cases error <;> rfl

theorem mapM_id_map_adapt (rs : List Reading) :
    (rs.map (Reading.adapt f g)).mapM id = ((rs.mapM id).map (List.map f)).mapError g := by
  induction rs with
  | nil => rfl
  | cons r rs ih =>
    rw [List.map_cons, List.mapM_cons, List.mapM_cons, ih]
    cases r with
    | error error => rfl
    | ok t => cases rs.mapM id <;> rfl

theorem Lexes.shift (h : Lexes position x r) (n : Nat) :
    Lexes (position + n) x (r.adapt (Spanned.shift n) (ScanError.shift n)) := by
  cases h with
  | integer hd hv =>
    have hx := @Lexes.integer (position + n) _ hd hv
    rwa [Nat.add_right_comm] at hx
  | symbol hs =>
    have hx := @Lexes.symbol (position + n) _ _ hs
    rwa [Nat.add_right_comm] at hx
  | outOfRange hd hv => exact .outOfRange hd hv
  | unexpected hb hd hs => exact .unexpected hb hd hs

/-- A text reads the same at another offset, all offsets moved with it. -/
theorem readings_shift (position n : Nat) (text : List Char) :
    readings (position + n) text =
      (readings position text).map (Reading.adapt (Spanned.shift n) (ScanError.shift n)) := by
  induction position, text using reading_induction with
  | nil position => rw [readings_nil, readings_nil, List.map_nil]
  | blank position c text hb ih =>
    rw [readings_blank hb, readings_blank hb, Nat.add_right_comm, ih]
  | lexeme position x text r hx ha ih =>
    rw [readings_lexeme hx ha, readings_lexeme (hx.shift n) ha, Nat.add_right_comm, ih,
      ← join_map_adapt]
    rfl

end Adapt

/-- The place where something is put into a source, and its size. -/
structure Insertion where
  position : Nat
  size : Nat

namespace Insertion

def behind (before inserted : String) : Insertion := ⟨before.utf8ByteSize, inserted.utf8ByteSize⟩

def amount (i : Insertion) (position : Nat) : Nat := if i.position ≤ position then i.size else 0

def spanned (i : Insertion) (s : Spanned) : Spanned := s.shift (i.amount s.start)

def scanError (i : Insertion) (error : ScanError) : ScanError :=
  error.shift (i.amount error.position)

def parseError (i : Insertion) (error : ParseError) : ParseError :=
  error.shift (i.amount error.position)

def failure (i : Insertion) : Failure → Failure
  | .parse error => .parse (i.parseError error)
  | .eval error => .eval error

def reading (i : Insertion) : Reading → Reading := Reading.adapt i.spanned i.scanError

variable {i : Insertion} {position : Nat} {text : List Char}

theorem amount_behind (h : i.position ≤ position) : i.amount position = i.size := if_pos h

theorem amount_before (h : position < i.position) : i.amount position = 0 :=
  if_neg (Nat.not_le_of_lt h)

theorem reading_eq {r : Reading} {n : Nat} (h : i.amount r.position = n) :
    i.reading r = r.adapt (Spanned.shift n) (ScanError.shift n) := by
  subst h
  cases r <;> rfl

theorem map_reading_before (h : position + utf8Len text ≤ i.position) :
    (readings position text).map i.reading = readings position text := by
  have hid : ∀ r ∈ readings position text, i.reading r = id r := by
    intro r hr
    have hlt := (position_mem_of_mem_readings hr).2.trans_le h
    rw [reading_eq (amount_before hlt), Reading.adapt_shift_zero, id]
  rw [List.map_congr_left hid, List.map_id]

theorem map_reading_behind (h : i.position ≤ position) :
    (readings position text).map i.reading = readings (position + i.size) text := by
  rw [readings_shift]
  refine List.map_congr_left fun r hr => reading_eq (amount_behind ?_)
  exact h.trans (position_mem_of_mem_readings hr).1

end Insertion

theorem IsSpacing.apart_append {a w b : List Char} (hw : IsSpacing w) (h : Apart a b) :
    Apart a (w ++ b) := by
  intro he
  cases w with
  | nil => exact h he
  | cons c w =>
    rw [startsWithDigit_append (List.cons_ne_nil c w)]
    exact hw.apart_left a he

/-- The readings of a source with spacing put into it. -/
theorem readings_insert {a w b : String} (hab : Apart a.toList b.toList)
    (hw : IsSpacing w.toList) :
    readings 0 (a ++ w ++ b).toList =
      (readings 0 (a ++ b).toList).map (Insertion.behind a w).reading := by
  let i := Insertion.behind a w
  have ha : 0 + utf8Len a.toList = i.position := by rw [Nat.zero_add, String.utf8Len_toList]; rfl
  have hsize : utf8Len w.toList = i.size := String.utf8Len_toList w
  calc readings 0 (a ++ w ++ b).toList
    _ = readings 0 (a.toList ++ (w.toList ++ b.toList)) := by simp
    _ = join (readings 0 a.toList) (readings (i.position + i.size) b.toList) := by
      rw [readings_append (hw.apart_append hab), readings_spacing hw, ha, hsize]
    _ = join ((readings 0 a.toList).map i.reading)
        ((readings i.position b.toList).map i.reading) := by
      rw [Insertion.map_reading_before ha.le, Insertion.map_reading_behind le_rfl]
    _ = (join (readings 0 a.toList) (readings i.position b.toList)).map i.reading :=
      join_map_adapt _ _
    _ = (readings 0 (a ++ b).toList).map i.reading := by
      rw [String.toList_append, readings_append hab, ha]

namespace Pushdown

/-- The machine does not mind where a token stands. -/
theorem step_spanned (i : Insertion) (limit : UInt64) (p : Pushdown) (s : Spanned) :
    p.step limit (i.spanned s) = (p.step limit s).mapError i.parseError := by
  cases hs : p.shift s.token with
  | none =>
    rw [step_eq_refusal hs, step_eq_refusal (s := i.spanned s) hs]
    rfl
  | some next =>
    by_cases ho : s.token = .opening
    · cases p with
      | wanted inner outer =>
        rw [step_opening ho, step_opening (s := i.spanned s) ho]
        split <;> rfl
      | complete sum? e outer =>
        rw [ho] at hs
        cases hs
    · rw [step_of_shift ho hs, step_of_shift (s := i.spanned s) ho hs]
      rfl

theorem outcome_reading (i : Insertion) (limit : UInt64) (finish : Spanned) (p : Pushdown)
    (rs : List Reading) :
    p.outcome limit (i.spanned finish) (rs.map i.reading) =
      (p.outcome limit finish rs).mapError i.parseError := by
  induction rs generalizing p with
  | nil =>
    rw [List.map_nil, outcome, outcome]
    cases p.result? <;> rfl
  | cons r rs ih =>
    cases r with
    | error error => rfl
    | ok s =>
      change p.step limit (i.spanned s) >>= _ = _
      rw [outcome, step_spanned]
      cases p.step limit s with
      | error error => rfl
      | ok next => exact ih next

end Pushdown

theorem finish_insert (a w b : String) : (Cursor.start (a ++ w ++ b)).finish =
    (Insertion.behind a w).spanned (Cursor.start (a ++ b)).finish := by
  have hle : a.utf8ByteSize ≤ (a ++ b).utf8ByteSize := by
    rw [String.utf8ByteSize_append]
    exact Nat.le_add_right _ _
  have hsize : (a ++ w ++ b).utf8ByteSize = (a ++ b).utf8ByteSize + w.utf8ByteSize := by
    rw [String.utf8ByteSize_append, String.utf8ByteSize_append, String.utf8ByteSize_append,
      Nat.add_right_comm]
  rw [Insertion.spanned, Insertion.amount_behind hle]
  exact congrArg (fun n => Spanned.mk n .finish n) hsize

/-- Spacing may be put in wherever it cuts no row of digits. The tokens are the same, and so are the
tree, the value and the errors, but for what starts at the place of the insertion or behind it: that
moves by the size of the spacing. -/
theorem spacing_inserted {a w b : String} (hab : Apart a.toList b.toList)
    (hw : IsSpacing w.toList) :
    tokens (a ++ w ++ b) =
      ((tokens (a ++ b)).map (List.map (Insertion.behind a w).spanned)).mapError
        (Insertion.behind a w).scanError ∧
    ∀ settings,
      parse settings (a ++ w ++ b) =
        (parse settings (a ++ b)).mapError (Insertion.behind a w).parseError ∧
      run settings (a ++ w ++ b) =
        (run settings (a ++ b)).mapError (Insertion.behind a w).failure := by
  have hread := readings_insert hab hw
  have hparse (settings : Settings) : parse settings (a ++ w ++ b) =
      (parse settings (a ++ b)).mapError (Insertion.behind a w).parseError := by
    rw [parse_eq_outcome, parse_eq_outcome, hread, finish_insert, Pushdown.outcome_reading]
  refine ⟨?_, fun settings => ⟨hparse settings, ?_⟩⟩
  · rw [tokens_eq, tokens_eq, hread]
    exact mapM_id_map_adapt _
  · rw [run_eq, run_eq, hparse]
    cases parse settings (a ++ b) with
    | error error => rfl
    | ok e =>
      change e.value.mapError Failure.eval = (e.value.mapError Failure.eval).mapError _
      cases e.value <;> rfl

theorem spacing_inserted_unreadable :
    Apart "1+".toList "é".toList ∧ IsSpacing "\t ".toList ∧
      tokens ("1+" ++ "\t " ++ "é") = .error (.unexpected 'é' 4) ∧
      parse ⟨0⟩ ("1+" ++ "\t " ++ "é") = .error (.scan (.unexpected 'é' 4)) ∧
      run ⟨0⟩ ("1+" ++ "\t " ++ "é") = .error (.parse (.scan (.unexpected 'é' 4))) := by
  have hab : Apart ['1', '+'] ['é'] := fun _ => by simp
  have hw : IsSpacing ['\t', ' '] := isSpacing_cons.mpr ⟨rfl, isSpacing_singleton.mpr rfl⟩
  obtain ⟨htokens, hrest⟩ := @spacing_inserted "1+" "\t " "é" hab hw
  obtain ⟨hparse, hrun⟩ := hrest ⟨0⟩
  refine ⟨hab, hw, htokens.trans ?_, hparse.trans ?_, hrun.trans ?_⟩ <;> decide +kernel

end Reckon
