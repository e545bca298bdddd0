import Reckon.Proofs.Cursor

/-! # How texts spell tokens

The tokens of a source are those that it spells. A source that spells none has a first piece that is
neither spacing nor the spelling of a token.
-/

namespace Reckon

open String (utf8Len)

def IsSpacing (w : List Char) : Prop := ∀ c ∈ w, c ∈ [' ', '\t', '\r', '\n', '\x0c']

/-- The spellings of a token: its one character, or every row of digits with its value. -/
inductive Writes : Token → List Char → Prop where

  | symbol {token : Token} {c : Char} : token.symbol? = some c → Writes token [c]

  | integer {n : Int64} {ds : List Char} : IsRow ds → n.toInt = Decimal.value ds →
      Writes (.integer n) ds

/-- A text from an offset on spells some tokens. Two rows of digits do not touch. -/
inductive Spells : Nat → List Char → List Spanned → Prop where

  | nil {position : Nat} {w : List Char} : IsSpacing w → Spells position w []

  | cons {position : Nat} {w x text : List Char} {s : Spanned} {ts : List Spanned} :
      IsSpacing w → s.start = position + utf8Len w → Writes s.token x →
      s.stop = s.start + utf8Len x → Apart x text → Spells s.stop text ts →
      Spells position (w ++ (x ++ text)) (s :: ts)

/-- A piece that spells nothing: a character outside all spellings, or too great a number. -/
inductive Misspells (position : Nat) : List Char → ScanError → Prop where

  | unexpected {c : Char} : ¬ IsSpacing [c] → c.isDigit = false →
      (∀ token : Token, token.symbol? ≠ some c) → Misspells position [c] (.unexpected c position)

  | outOfRange {ds : List Char} : IsRow ds → Int64.maxValue.toInt < Decimal.value ds →
      Misspells position ds (.outOfRange (String.ofList ds) position)

theorem isSkipped_iff {c : Char} : isSkipped c = true ↔ c ∈ [' ', '\t', '\r', '\n', '\x0c'] := by
  simp [isSkipped, or_assoc]

theorem isSpacing_singleton {c : Char} : IsSpacing [c] ↔ isSkipped c = true := by
  simp [IsSpacing, isSkipped_iff]

theorem isSpacing_nil : IsSpacing [] := fun _ h => (List.not_mem_nil h).elim

theorem isSpacing_cons {c : Char} {w : List Char} :
    IsSpacing (c :: w) ↔ isSkipped c = true ∧ IsSpacing w := by
  rw [IsSpacing, List.forall_mem_cons, isSkipped_iff, IsSpacing]

theorem scan_spacing {w : List Char} (h : IsSpacing w) (position : Nat) (text : List Char) :
    scan position (w ++ text) = scan (position + utf8Len w) text := by
  induction w generalizing position with
  | nil => rfl
  | cons c w ih =>
    obtain ⟨hc, hw⟩ := isSpacing_cons.mp h
    rw [List.cons_append, scan_blank hc, ih hw, String.utf8Len_cons, Nat.add_assoc,
      Nat.add_comm c.utf8Size]

theorem readings_spacing {w : List Char} (h : IsSpacing w) (position : Nat) (text : List Char) :
    readings position (w ++ text) = readings (position + utf8Len w) text := by
  rw [readings_eq, scan_spacing h, ← readings_eq]

theorem ofSymbol?_eq_some_iff {c : Char} {token : Token} :
    Token.ofSymbol? c = some token ↔ token.symbol? = some c := by
  constructor
  · intro h
    unfold Token.ofSymbol? at h
    split at h
    · rename_i hc
      obtain rfl := Option.some.inj h
      rw [hc, Token.symbol?]
    · split at h
      · rename_i hc
        obtain rfl := Option.some.inj h
        rw [hc, Token.symbol?]
      · obtain ⟨op, ho, rfl⟩ := Option.map_eq_some_iff.mp h
        rw [Operator.ofSymbol?_eq_some_iff.mp ho, Token.symbol?]
  · intro h
    cases token with
    | operator op =>
      obtain rfl := Option.some.inj h
      cases op <;> rfl
    | opening | closing =>
      obtain rfl := Option.some.inj h
      rfl
    | integer | finish => cases h

theorem greatestLiteral_eq : (greatestLiteral : Int) = Int64.maxValue.toInt := rfl

theorem toInt_ofNat_of_le {n : Nat} (h : n ≤ greatestLiteral) : (Int64.ofNat n).toInt = n := by
  have hg : greatestLiteral < 2 ^ 63 := by decide
  exact Int64.toInt_ofNat_of_lt (Nat.lt_of_le_of_lt h hg)

theorem le_greatestLiteral_of_toInt_eq {n : Int64} {k : Nat} (h : n.toInt = k) :
    k ≤ greatestLiteral := by
  have hn := n.toInt_le
  rw [← greatestLiteral_eq] at hn
  omega

theorem lexes_ok_iff {position : Nat} {x : List Char} {s : Spanned} :
    Lexes position x (.ok s) ↔
      s.start = position ∧ Writes s.token x ∧ s.stop = s.start + utf8Len x := by
  constructor
  · intro h
    have hstop := h.stop_eq
    cases h with
    | integer hd hv => exact ⟨rfl, .integer hd (toInt_ofNat_of_le hv), hstop⟩
    | symbol hs => exact ⟨rfl, .symbol (ofSymbol?_eq_some_iff.mp hs), hstop⟩
  · rintro ⟨rfl, hw, he⟩
    obtain ⟨start, token, stop⟩ := s
    obtain rfl : stop = start + utf8Len x := he
    cases hw with
    | @symbol token c hs =>
      have hs := ofSymbol?_eq_some_iff.mpr hs
      have hl : utf8Len [c] = 1 := by simp [(props_of_ofSymbol? hs).2.2]
      rw [hl]
      exact .symbol hs
    | integer hd hv =>
      have hle := le_greatestLiteral_of_toInt_eq hv
      obtain rfl := Int64.toInt_inj.mp (hv.trans (toInt_ofNat_of_le hle).symm)
      rw [utf8Len_eq_length_of_digits hd.2]
      exact .integer hd hle

theorem lexes_error_iff {position : Nat} {x : List Char} {error : ScanError} :
    Lexes position x (.error error) ↔ Misspells position x error := by
  constructor
  · intro h
    cases h with
    | outOfRange hd hv => exact .outOfRange hd (greatestLiteral_eq ▸ Int.ofNat_lt.mpr hv)
    | unexpected hb hd hs =>
      refine .unexpected ?_ hd fun token ht => ?_
      · rw [isSpacing_singleton, hb]
        exact Bool.false_ne_true
      · cases hs.symm.trans (ofSymbol?_eq_some_iff.mpr ht)
  · intro h
    cases h with
    | outOfRange hd hv => exact .outOfRange hd (Int.ofNat_lt.mp (greatestLiteral_eq ▸ hv))
    | @unexpected c hb hd hs =>
      refine .unexpected (Bool.eq_false_iff.mpr (mt isSpacing_singleton.mpr hb)) hd ?_
      cases ht : Token.ofSymbol? c with
      | none => rfl
      | some token => exact (hs token (ofSymbol?_eq_some_iff.mp ht)).elim

theorem Spells.blank {position : Nat} {c : Char} {text : List Char} {ts : List Spanned}
    (hc : isSkipped c = true) (h : Spells (position + c.utf8Size) text ts) :
    Spells position (c :: text) ts := by
  cases h with
  | nil hw => exact .nil (isSpacing_cons.mpr ⟨hc, hw⟩)
  | cons hw hs hx he ha ht =>
    refine @Spells.cons _ (c :: _) _ _ _ _ (isSpacing_cons.mpr ⟨hc, hw⟩) ?_ hx he ha ht
    rw [hs, String.utf8Len_cons, Nat.add_comm (utf8Len _), Nat.add_assoc]

theorem spells_iff {position : Nat} {text : List Char} {ts : List Spanned} :
    Spells position text ts ↔ readings position text = ts.map .ok := by
  constructor
  · intro h
    induction h with
    | @nil position w hw =>
      rw [← List.append_nil w, readings_spacing hw, readings_nil]
      rfl
    | cons hw hs hx he ha _ ih =>
      have hl := lexes_ok_iff.mpr ⟨hs, hx, he⟩
      rw [readings_spacing hw, readings_lexeme hl ha, ← hs, ← he, ih]
      rfl
  · intro h
    induction position, text using reading_induction generalizing ts with
    | nil position =>
      obtain rfl : ts = [] := by simpa using h.symm
      exact .nil isSpacing_nil
    | blank position c text hc ih =>
      rw [readings_blank hc] at h
      exact (ih h).blank hc
    | lexeme position x text r hx ha ih =>
      rw [readings_lexeme hx ha] at h
      cases ts with
      | nil => cases r <;> cases h
      | cons s ts =>
        obtain ⟨rfl, ht⟩ := of_join_singleton_eq_ok_cons h
        obtain ⟨rfl, hw, he⟩ := lexes_ok_iff.mp hx
        refine @Spells.cons _ [] _ _ _ _ isSpacing_nil rfl hw he ha ?_
        rw [he]
        exact ih ht

/-- A source has the tokens that it spells. One that spells none is cut behind the longest row of
tokens in front, and the piece found there is to blame. -/
theorem tokens_eq_spelt_or_misspelt (source : String) :
    (∀ ts, tokens source = .ok ts ↔ Spells 0 source.toList ts) ∧
    ∀ error, tokens source = .error error ↔ ∃ before x behind ts,
      source.toList = before ++ x ++ behind ∧ Spells 0 before ts ∧ Apart before x ∧
        Misspells (utf8Len before) x error ∧ Apart x behind := by
  refine ⟨fun ts => tokens_eq_ok_iff.trans spells_iff.symm, fun error => ?_⟩
  rw [tokens_eq_error_iff]
  constructor
  · rintro ⟨ts, rest, h⟩
    obtain ⟨before, x, behind, hs, hr, hx, ha, hb⟩ := exists_split_of_readings h
    rw [Nat.zero_add] at hx
    exact ⟨before, x, behind, ts, hs, spells_iff.mpr hr, ha, lexes_error_iff.mp hx, hb⟩
  · rintro ⟨before, x, behind, ts, hs, hr, ha, hx, hb⟩
    have hx := lexes_error_iff.mpr hx
    rw [← Nat.zero_add (utf8Len before)] at hx
    exact ⟨ts, [], by rw [hs, readings_around (spells_iff.mp hr) ha hx hb, join]⟩

end Reckon
