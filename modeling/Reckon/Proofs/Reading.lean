import Mathlib.Data.String.Basic
import Reckon.Token.Scan

/-! # What a text reads as

From any offset on, a text reads as a row of tokens with at most one lexeme behind them that cannot
be read. The readings of two parts make up those of the whole.
-/

namespace Reckon

open String (utf8Len)

/-- A lexeme as the scanner reports it: its token, or why it cannot be read. -/
abbrev Reading := Except ScanError Spanned

def Reading.position : Reading → Nat
  | .ok s => s.start
  | .error error => error.position

/-- The lexemes of a text that starts at an offset, up to the first that cannot be read. -/
def readings (position : Nat) (text : List Char) : List Reading :=
  match _h : scan position text with
  | .token token rest => .ok token :: readings token.stop rest
  | .fault error _ => [.error error]
  | .finish => []
termination_by text.length
decreasing_by exact length_lt_of_scan_eq_token _h

def IsRow (text : List Char) : Prop := text ≠ [] ∧ ∀ c ∈ text, c.isDigit = true

def StartsWithDigit (text : List Char) : Prop := ∃ c ∈ text.head?, c.isDigit = true

def EndsWithDigit (text : List Char) : Prop := ∃ c ∈ text.getLast?, c.isDigit = true

/-- No row of digits runs from one text into the next. -/
def Apart (a b : List Char) : Prop := EndsWithDigit a → ¬ StartsWithDigit b

/-- A piece of text at an offset is one lexeme, with its reading. -/
inductive Lexes (position : Nat) : List Char → Reading → Prop where

  | integer {ds : List Char} : IsRow ds → Decimal.value ds ≤ greatestLiteral →
      Lexes position ds
        (.ok ⟨position, .integer (Int64.ofNat (Decimal.value ds)), position + ds.length⟩)

  | symbol {c : Char} {token : Token} : Token.ofSymbol? c = some token →
      Lexes position [c] (.ok ⟨position, token, position + 1⟩)

  | outOfRange {ds : List Char} : IsRow ds → greatestLiteral < Decimal.value ds →
      Lexes position ds (.error (.outOfRange (String.ofList ds) position))

  | unexpected {c : Char} : isSkipped c = false → c.isDigit = false →
      Token.ofSymbol? c = none → Lexes position [c] (.error (.unexpected c position))

/-- Some readings and those of the text behind, of which a fault leaves none. -/
def join : List Reading → List Reading → List Reading
  | [], rest => rest
  | .ok token :: readings, rest => .ok token :: join readings rest
  | .error error :: _, _ => [.error error]

theorem join_assoc (as bs cs : List Reading) : join (join as bs) cs = join as (join bs cs) := by
  fun_induction join as bs with
  | case1 => rfl
  | case2 token readings rest ih => simp [join, ih]
  | case3 => rfl

theorem join_map_ok (ts : List Spanned) (rest : List Reading) :
    join (ts.map .ok) rest = ts.map .ok ++ rest := by
  induction ts with
  | nil => rfl
  | cons t ts ih => simp [join, ih]

theorem of_join_eq_map_ok {rs rest : List Reading} {ts : List Spanned}
    (h : join rs rest = ts.map .ok) :
    ∃ us vs, ts = us ++ vs ∧ rs = us.map .ok ∧ rest = vs.map .ok := by
  induction rs generalizing ts with
  | nil => exact ⟨[], ts, rfl, rfl, h⟩
  | cons r rs ih =>
    cases r with
    | error error => cases ts <;> cases h
    | ok t =>
      cases ts with
      | nil => cases h
      | cons s ts =>
        obtain ⟨hs, ht⟩ := List.cons.inj h
        obtain ⟨us, vs, rfl, rfl, rfl⟩ := ih ht
        exact ⟨s :: us, vs, rfl, congrArg (· :: us.map .ok) hs, rfl⟩

theorem utf8Size_eq_one_of_isDigit {c : Char} (h : c.isDigit = true) : c.utf8Size = 1 := by
  have hc : c.val.toNat ≤ 57 := (Char.isDigit_iff_toNat.mp h).2
  exact Char.utf8Size_eq_one_iff.mpr (UInt32.le_iff_toNat_le.mpr (hc.trans (by decide)))

theorem isSkipped_eq_false_of_isDigit {c : Char} (h : c.isDigit = true) : isSkipped c = false := by
  by_contra hs
  simp only [Bool.not_eq_false, isSkipped, Bool.or_eq_true, beq_iff_eq] at hs
  rcases hs with (((rfl | rfl) | rfl) | rfl) | rfl <;> simp [Char.isDigit] at h

theorem utf8Len_eq_length_of_digits {ds : List Char} (h : ∀ c ∈ ds, c.isDigit = true) :
    utf8Len ds = ds.length := by
  induction ds with
  | nil => rfl
  | cons c ds ih =>
    rw [String.utf8Len_cons, ih fun c hc => h c (List.mem_cons_of_mem _ hc),
      utf8Size_eq_one_of_isDigit (h c List.mem_cons_self), List.length_cons]

theorem not_startsWithDigit_nil : ¬ StartsWithDigit [] := by simp [StartsWithDigit]

theorem not_endsWithDigit_nil : ¬ EndsWithDigit [] := by simp [EndsWithDigit]

@[simp] theorem startsWithDigit_cons {c : Char} {text : List Char} :
    StartsWithDigit (c :: text) ↔ c.isDigit = true := by
  simp [StartsWithDigit]

@[simp] theorem endsWithDigit_singleton {c : Char} : EndsWithDigit [c] ↔ c.isDigit = true := by
  simp [EndsWithDigit]

theorem startsWithDigit_append {a b : List Char} (h : a ≠ []) :
    StartsWithDigit (a ++ b) ↔ StartsWithDigit a := by
  simp only [StartsWithDigit, List.head?_append_of_ne_nil _ h]

theorem endsWithDigit_append {a b : List Char} (h : b ≠ []) :
    EndsWithDigit (a ++ b) ↔ EndsWithDigit b := by
  simp only [EndsWithDigit, List.getLast?_append_of_ne_nil _ h]

theorem scan_blank {c : Char} (h : isSkipped c = true) (position : Nat) (text : List Char) :
    scan position (c :: text) = scan (position + c.utf8Size) text := by
  simp [scan, h]

theorem takeWhile_isDigit_append {ds text : List Char} (hd : ∀ c ∈ ds, c.isDigit = true)
    (ht : ¬ StartsWithDigit text) :
    (ds ++ text).takeWhile Char.isDigit = ds ∧ (ds ++ text).dropWhile Char.isDigit = text := by
  rw [List.takeWhile_append_of_pos hd, List.dropWhile_append_of_pos hd]
  cases text with
  | nil => simp
  | cons c text =>
    rw [startsWithDigit_cons] at ht
    simp [ht]

theorem scan_row {ds text : List Char} (hd : IsRow ds) (ht : ¬ StartsWithDigit text)
    (position : Nat) : scan position (ds ++ text) = .ofDigits position ds text := by
  obtain ⟨hn, hd⟩ := hd
  cases ds with
  | nil => exact (hn rfl).elim
  | cons c ds =>
    have hc := hd c List.mem_cons_self
    have hr := takeWhile_isDigit_append (fun d hm => hd d (List.mem_cons_of_mem _ hm)) ht
    simp [scan, isSkipped_eq_false_of_isDigit hc, hc, hr.1, hr.2]

theorem props_of_ofSymbol? {c : Char} {token : Token} (h : Token.ofSymbol? c = some token) :
    isSkipped c = false ∧ c.isDigit = false ∧ c.utf8Size = 1 := by
  unfold Token.ofSymbol? at h
  split at h
  · subst c; decide
  · split at h
    · subst c; decide
    · obtain ⟨op, ho, -⟩ := Option.map_eq_some_iff.mp h
      rw [Operator.ofSymbol?_eq_some_iff.mp ho]
      cases op <;> decide

theorem scan_symbol {c : Char} {token : Token} (h : Token.ofSymbol? c = some token)
    (position : Nat) (text : List Char) :
    scan position (c :: text) = .token ⟨position, token, position + 1⟩ text := by
  obtain ⟨hb, hd, hl⟩ := props_of_ofSymbol? h
  simp [scan, hb, hd, h, hl]

theorem scan_unexpected {c : Char} (hb : isSkipped c = false) (hd : c.isDigit = false)
    (hs : Token.ofSymbol? c = none) (position : Nat) (text : List Char) :
    scan position (c :: text) = .fault (.unexpected c position) (position + c.utf8Size) := by
  simp [scan, hb, hd, hs]

theorem IsRow.endsWithDigit {ds : List Char} (h : IsRow ds) : EndsWithDigit ds :=
  ⟨_, List.getLast?_eq_getLast_of_ne_nil h.1, h.2 _ (List.getLast_mem h.1)⟩

theorem IsRow.startsWithDigit {ds : List Char} (h : IsRow ds) : StartsWithDigit ds :=
  ⟨_, List.head?_eq_some_head h.1, h.2 _ (List.head_mem h.1)⟩

theorem readings_eq (position : Nat) (text : List Char) :
    readings position text =
      match scan position text with
      | .token token rest => .ok token :: readings token.stop rest
      | .fault error _ => [.error error]
      | .finish => [] := by
  rw [readings]
  split <;> rename_i hs <;> rw [hs]

@[simp] theorem readings_nil (position : Nat) : readings position [] = [] := readings_eq position []

theorem readings_blank {c : Char} (h : isSkipped c = true) (position : Nat) (text : List Char) :
    readings position (c :: text) = readings (position + c.utf8Size) text := by
  rw [readings_eq, readings_eq, scan_blank h]

def Reading.lexeme (stop : Nat) (rest : List Char) : Reading → Lexeme
  | .ok s => .token s rest
  | .error error => .fault error stop

theorem scan_lexeme {position : Nat} {x text : List Char} {r : Reading}
    (hx : Lexes position x r) (ht : Apart x text) :
    scan position (x ++ text) = r.lexeme (position + utf8Len x) text := by
  cases hx with
  | integer hd hv =>
    rw [scan_row hd (ht hd.endsWithDigit), Lexeme.ofDigits, Decimal.upTo_eq, if_pos hv]
    rfl
  | symbol hs => exact scan_symbol hs position text
  | outOfRange hd hv =>
    rw [scan_row hd (ht hd.endsWithDigit), Lexeme.ofDigits, Decimal.upTo_eq,
      if_neg (Nat.not_le.mpr hv), utf8Len_eq_length_of_digits hd.2]
    rfl
  | unexpected hb hd hs =>
    rw [List.singleton_append, scan_unexpected hb hd hs, String.utf8Len_cons, String.utf8Len_nil,
      Nat.zero_add]
    rfl

theorem Lexes.stop_eq {position : Nat} {x : List Char} {s : Spanned}
    (h : Lexes position x (.ok s)) : s.stop = position + utf8Len x := by
  cases h with
  | integer hd => rw [utf8Len_eq_length_of_digits hd.2]
  | symbol hs => rw [String.utf8Len_cons, (props_of_ofSymbol? hs).2.2, String.utf8Len_nil]

theorem readings_lexeme {position : Nat} {x text : List Char} {r : Reading}
    (hx : Lexes position x r) (ht : Apart x text) :
    readings position (x ++ text) = join [r] (readings (position + utf8Len x) text) := by
  rw [readings_eq, scan_lexeme hx ht]
  cases r with
  | ok s =>
    rw [← hx.stop_eq]
    rfl
  | error error => rfl

theorem Lexes.position_eq {position : Nat} {x : List Char} {r : Reading} (h : Lexes position x r) :
    r.position = position := by
  cases h <;> rfl

theorem Lexes.ne_nil {position : Nat} {x : List Char} {r : Reading} (h : Lexes position x r) :
    x ≠ [] := by
  cases h with
  | integer hd | outOfRange hd => exact hd.1
  | symbol | unexpected => exact List.cons_ne_nil _ _

theorem exists_lexes_of_isRow {ds : List Char} (h : IsRow ds) (position : Nat) :
    ∃ r, Lexes position ds r := by
  rcases Nat.lt_or_ge greatestLiteral (Decimal.value ds) with hv | hv
  · exact ⟨_, .outOfRange h hv⟩
  · exact ⟨_, .integer h hv⟩

theorem exists_row {c : Char} (text : List Char) (h : c.isDigit = true) :
    ∃ ds rest, c :: text = ds ++ rest ∧ IsRow ds ∧ ¬ StartsWithDigit rest := by
  refine ⟨(c :: text).takeWhile Char.isDigit, (c :: text).dropWhile Char.isDigit,
    List.takeWhile_append_dropWhile.symm, ⟨by simp [h], List.all_eq_true.mp List.all_takeWhile⟩, ?_⟩
  rintro ⟨d, hm, hd⟩
  have := List.head?_dropWhile_not Char.isDigit (c :: text)
  simp_all

/-- A text is empty, or starts with a blank or with a lexeme as long as can be. -/
theorem reading_induction {motive : Nat → List Char → Prop}
    (nil : ∀ position, motive position [])
    (blank : ∀ position c text, isSkipped c = true → motive (position + c.utf8Size) text →
      motive position (c :: text))
    (lexeme : ∀ position x text r, Lexes position x r → Apart x text →
      motive (position + utf8Len x) text → motive position (x ++ text))
    (position : Nat) (text : List Char) : motive position text := by
  induction hn : text.length using Nat.strongRecOn generalizing position text with
  | ind n ih =>
    subst hn
    cases text with
    | nil => exact nil position
    | cons c text =>
      have hrest := ih text.length (by simp) (position + c.utf8Size) text rfl
      by_cases hb : isSkipped c = true
      · exact blank position c text hb hrest
      by_cases hd : c.isDigit = true
      · obtain ⟨ds, rest, he, hr, hs⟩ := exists_row text hd
        obtain ⟨r, hx⟩ := exists_lexes_of_isRow hr position
        rw [he] at ih ⊢
        have hl : rest.length < (ds ++ rest).length := by
          simpa [List.length_pos_iff] using hr.1
        exact lexeme position ds rest r hx (fun _ => hs) (ih _ hl _ rest rfl)
      · have ha : Apart [c] text := fun h => (hd (endsWithDigit_singleton.mp h)).elim
        cases hs : Token.ofSymbol? c with
        | some token => exact lexeme position [c] text _ (.symbol hs) ha (by simpa using hrest)
        | none =>
          exact lexeme position [c] text _ (.unexpected (by simpa using hb) (by simpa using hd) hs)
            ha (by simpa using hrest)

theorem apart_nil_left (text : List Char) : Apart [] text :=
  fun he => (not_endsWithDigit_nil he).elim

theorem apart_nil_right (text : List Char) : Apart text [] := fun _ => not_startsWithDigit_nil

theorem Lexes.readings_eq {position : Nat} {x : List Char} {r : Reading} (h : Lexes position x r) :
    readings position x = [r] := by
  have hx := readings_lexeme h (apart_nil_right x)
  rw [List.append_nil, readings_nil] at hx
  cases r <;> exact hx

theorem Apart.of_append_left {a b c : List Char} (h : Apart (a ++ b) c) : Apart b c := by
  intro he
  have hb : b ≠ [] := by
    rintro rfl
    exact not_endsWithDigit_nil he
  exact h ((endsWithDigit_append hb).mpr he)

theorem Apart.of_append_right {a b c : List Char} (h : Apart a (b ++ c)) : Apart a b := by
  intro he hs
  have hb : b ≠ [] := by
    rintro rfl
    exact not_startsWithDigit_nil hs
  exact h he ((startsWithDigit_append hb).mpr hs)

theorem Apart.append_right {a b c : List Char} (hab : Apart a b) (hbc : Apart (a ++ b) c) :
    Apart a (b ++ c) := by
  cases b with
  | nil => simpa using hbc
  | cons d b => exact fun he hs => hab he ((startsWithDigit_append (by simp)).mp hs)

theorem Apart.append_left {a b c : List Char} (hab : Apart a (b ++ c)) (hbc : Apart b c) :
    Apart (a ++ b) c := by
  cases b with
  | nil => simpa using hab
  | cons d b => exact fun he => hbc ((endsWithDigit_append (by simp)).mp he)

theorem apart_blank {c : Char} (h : isSkipped c = true) (text : List Char) : Apart [c] text := by
  intro he
  rw [isSkipped_eq_false_of_isDigit (endsWithDigit_singleton.mp he)] at h
  simp at h

/-- Cutting a text between two digits aside, its readings are those of its parts. -/
theorem readings_append {a b : List Char} (h : Apart a b) (position : Nat) :
    readings position (a ++ b) =
      join (readings position a) (readings (position + utf8Len a) b) := by
  induction position, a using reading_induction with
  | nil => simp [join]
  | blank position c text hb ih =>
    have ht : Apart text b := h.of_append_left (a := [c])
    rw [List.cons_append, readings_blank hb, readings_blank hb, ih ht, String.utf8Len_cons,
      Nat.add_comm (utf8Len text), Nat.add_assoc]
  | lexeme position x text r hx ha ih =>
    have ht : Apart text b := h.of_append_left
    rw [List.append_assoc, readings_lexeme hx (ha.append_right h), readings_lexeme hx ha, ih ht,
      join_assoc, String.utf8Len_append, Nat.add_assoc]

theorem exists_join_singleton_eq_cons (r : Reading) (rest : List Reading) :
    ∃ tail, join [r] rest = r :: tail := by
  cases r with
  | ok token => exact ⟨rest, rfl⟩
  | error error => exact ⟨[], rfl⟩

theorem of_join_singleton_eq_ok_cons {r : Reading} {rest tail : List Reading} {t : Spanned}
    (h : join [r] rest = .ok t :: tail) : r = .ok t ∧ rest = tail := by
  cases r with
  | ok token => simpa [join] using h
  | error error => simp [join] at h

theorem length_readings_le (position : Nat) (text : List Char) :
    (readings position text).length ≤ utf8Len text := by
  induction position, text using reading_induction with
  | nil => simp
  | blank position c text hb ih =>
    rw [readings_blank hb, String.utf8Len_cons]
    omega
  | lexeme position x text r hx ha ih =>
    have hne : utf8Len x ≠ 0 := fun h => hx.ne_nil (String.utf8Len_eq_zero.mp h)
    rw [readings_lexeme hx ha, String.utf8Len_append]
    cases r with
    | ok s =>
      have : (join [.ok s] (readings (position + utf8Len x) text)).length =
        (readings (position + utf8Len x) text).length + 1 := rfl
      omega
    | error error =>
      have : (join [.error error] (readings (position + utf8Len x) text)).length = 1 := rfl
      omega

theorem exists_integer_of_endsWithDigit {position : Nat} {text : List Char} {ts : List Spanned}
    (h : readings position text = ts.map .ok) (he : EndsWithDigit text) :
    ∃ us s n, ts = us ++ [s] ∧ s.token = .integer n := by
  induction position, text using reading_induction generalizing ts with
  | nil => exact (not_endsWithDigit_nil he).elim
  | blank position c text hb ih =>
    rw [readings_blank hb] at h
    cases text with
    | nil => exact (apart_blank hb ['0'] he (by simp)).elim
    | cons d text => exact ih h ((@endsWithDigit_append [c] _ (by simp)).mp he)
  | lexeme position x text r hx ha ih =>
    rw [readings_lexeme hx ha] at h
    cases ts with
    | nil => cases r <;> cases h
    | cons t ts =>
      obtain ⟨rfl, hrest⟩ := of_join_singleton_eq_ok_cons h
      cases text with
      | nil =>
        obtain rfl : ts = [] := by simpa using hrest.symm
        rw [List.append_nil] at he
        cases hx with
        | @integer ds hd hv => exact ⟨[], _, _, rfl, rfl⟩
        | symbol hs =>
          cases (props_of_ofSymbol? hs).2.1.symm.trans (endsWithDigit_singleton.mp he)
      | cons d text =>
        obtain ⟨us, s, n, rfl, hn⟩ := ih hrest ((endsWithDigit_append (by simp)).mp he)
        exact ⟨t :: us, s, n, rfl, hn⟩

/-- Where a lexeme is read, the text falls into what is read before it, the lexeme and the rest. -/
theorem exists_split_of_readings {position : Nat} {text : List Char} {ts : List Spanned}
    {r : Reading} {rest : List Reading}
    (h : readings position text = ts.map .ok ++ r :: rest) :
    ∃ a x b, text = a ++ x ++ b ∧ readings position a = ts.map .ok ∧
      Lexes (position + utf8Len a) x r ∧ Apart a x ∧ Apart x b := by
  induction position, text using reading_induction generalizing ts with
  | nil => simp at h
  | blank position c text hb ih =>
    rw [readings_blank hb] at h
    obtain ⟨a, x, b, rfl, hr, hx, hax, hxb⟩ := ih h
    refine ⟨c :: a, x, b, rfl, by rw [readings_blank hb, hr], ?_, ?_, hxb⟩
    · rwa [String.utf8Len_cons, Nat.add_comm (utf8Len a), ← Nat.add_assoc]
    · exact (apart_blank hb _).append_left (a := [c]) hax
  | lexeme position y text s hy ha ih =>
    rw [readings_lexeme hy ha] at h
    cases ts with
    | nil =>
      obtain ⟨tail, he⟩ := exists_join_singleton_eq_cons s (readings (position + utf8Len y) text)
      rw [he] at h
      obtain ⟨rfl, -⟩ := List.cons.inj h
      exact ⟨[], y, text, rfl, by simp, hy, apart_nil_left y, ha⟩
    | cons t ts =>
      obtain ⟨rfl, ht⟩ := of_join_singleton_eq_ok_cons h
      obtain ⟨a, x, b, rfl, hr, hx, hax, hxb⟩ := ih ht
      have hya : Apart y (a ++ x) := ha.of_append_right
      refine ⟨y ++ a, x, b, by simp, ?_, ?_, hya.append_left hax, hxb⟩
      · rw [readings_lexeme hy hya.of_append_right, hr]
        rfl
      · rwa [String.utf8Len_append, ← Nat.add_assoc]

theorem readings_around {position : Nat} {a x b : List Char} {ts : List Spanned} {r : Reading}
    (ha : readings position a = ts.map .ok) (hax : Apart a x)
    (hx : Lexes (position + utf8Len a) x r) (hxb : Apart x b) :
    readings position (a ++ x ++ b) =
      ts.map .ok ++ join [r] (readings (position + utf8Len a + utf8Len x) b) := by
  have hab : Apart (a ++ x) b := fun he => hxb ((endsWithDigit_append hx.ne_nil).mp he)
  rw [List.append_assoc, readings_append (hax.append_right hab), ha, join_map_ok,
    readings_lexeme hx hxb]

theorem position_mem_of_mem_readings {position : Nat} {text : List Char} {r : Reading}
    (h : r ∈ readings position text) :
    position ≤ r.position ∧ r.position < position + utf8Len text := by
  induction position, text using reading_induction with
  | nil => simp at h
  | blank position c text hb ih =>
    rw [readings_blank hb] at h
    have := ih h
    rw [String.utf8Len_cons]
    omega
  | lexeme position x text s hx ha ih =>
    have hpos : utf8Len x ≠ 0 := fun h => hx.ne_nil (String.utf8Len_eq_zero.mp h)
    rw [readings_lexeme hx ha] at h
    rw [String.utf8Len_append]
    have hs := hx.position_eq
    cases s with
    | ok t =>
      rcases List.mem_cons.mp h with rfl | h
      · omega
      · have := ih h
        omega
    | error error =>
      obtain rfl := List.mem_singleton.mp h
      omega

theorem readings_ordered {position : Nat} {text : List Char} {ts : List Spanned} {r : Reading}
    {rest : List Reading} (h : readings position text = ts.map .ok ++ r :: rest) :
    (∀ s ∈ ts, s.start < r.position) ∧ ∀ r' ∈ rest, r.position < r'.position := by
  obtain ⟨a, x, b, rfl, ha, hx, hax, hxb⟩ := exists_split_of_readings h
  have hpos : utf8Len x ≠ 0 := fun h => hx.ne_nil (String.utf8Len_eq_zero.mp h)
  rw [hx.position_eq]
  constructor
  · intro s hs
    have hm : .ok s ∈ readings position a := ha ▸ List.mem_map_of_mem hs
    exact (position_mem_of_mem_readings hm).2
  · intro r' hr'
    rw [readings_around ha hax hx hxb, List.append_cancel_left_eq] at h
    cases r with
    | ok t =>
      obtain rfl := (List.cons.inj h).2
      have := (position_mem_of_mem_readings hr').1
      omega
    | error error =>
      obtain rfl := (List.cons.inj h).2
      exact (List.not_mem_nil hr').elim

end Reckon
