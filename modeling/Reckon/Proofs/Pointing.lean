import Reckon.Proofs.Calls
import Reckon.Proofs.Infix
import Reckon.Proofs.OnDemand

/-! # What errors point at

The offset of an error lies between two characters of the source or at one of its ends, and what
stands there is what the error is about.
-/

namespace Reckon

open String (utf8Len)

/-- How many parentheses are open behind a character, if so many are open in front of it. -/
def openBehind (opened : Nat) (c : Char) : Nat :=
  if c = '(' then opened + 1 else if c = ')' then opened - 1 else opened

def unclosed (text : List Char) : Nat := text.foldl openBehind 0

section Open

variable {limit : UInt64} {a b : Automaton} {s : Spanned} {ts : List Spanned} {text x : List Char}

theorem Flat.foldl_openBehind (h : Flat text) (opened : Nat) :
    text.foldl openBehind opened = opened := by
  induction text with
  | nil => rfl
  | cons c text ih =>
    have hc : c ≠ '(' ∧ c ≠ ')' :=
      ⟨fun hc => h.1 (hc ▸ List.mem_cons_self), fun hc => h.2 (hc ▸ List.mem_cons_self)⟩
    have htext : Flat text :=
      ⟨fun hm => h.1 (List.mem_cons_of_mem _ hm), fun hm => h.2 (List.mem_cons_of_mem _ hm)⟩
    rw [List.foldl_cons, openBehind, if_neg hc.1, if_neg hc.2]
    exact ih htext

theorem Writes.foldl_openBehind (h : Writes s.token x) (hs : a.step limit s = .ok (some b)) :
    x.foldl openBehind a.opened = b.opened := by
  cases Automaton.steps_of_eq hs with
  | literal ht =>
    rw [ht] at h
    cases h with
    | integer hd => exact hd.flat.foldl_openBehind _
    | symbol hn => cases hn
  | opening ht =>
    rw [ht] at h
    obtain rfl := h.eq_singleton (c := '(') rfl
    rfl
  | operator ht =>
    rw [ht] at h
    obtain rfl := h.eq_singleton rfl
    exact (flat_symbol _).foldl_openBehind _
  | closing ht =>
    rw [ht] at h
    obtain rfl := h.eq_singleton (c := ')') rfl
    rfl

theorem Spells.foldl_openBehind {position : Nat} (h : Spells position text ts)
    (hr : a.Reaches limit ts b) : text.foldl openBehind a.opened = b.opened := by
  induction h generalizing a with
  | nil hw =>
    cases hr
    exact hw.flat.foldl_openBehind _
  | cons hw _ hx _ _ _ ih =>
    cases hr with
    | cons hs hr =>
      rw [List.foldl_append, List.foldl_append, hw.flat.foldl_openBehind, hx.foldl_openBehind hs,
        ih hr]

end Open

/-- An error is about what stands at its offset: a character outside every lexeme, a row of digits,
a token, the end of the source, or a parenthesis behind as many open ones as the limit allows. -/
inductive ParseError.PointsIn (source : String) : ParseError → Prop where

  | unexpected {before behind : List Char} {c : Char} : source.toList = before ++ [c] ++ behind →
      ¬ IsSpacing [c] → c.isDigit = false → (∀ token : Token, token.symbol? ≠ some c) →
      PointsIn source (.scan (.unexpected c (utf8Len before)))

  | outOfRange {before ds behind : List Char} : source.toList = before ++ ds ++ behind →
      IsRow ds → ¬ EndsWithDigit before → ¬ StartsWithDigit behind →
      Int64.maxValue.toInt < Decimal.value ds →
      PointsIn source (.scan (.outOfRange (String.ofList ds) (utf8Len before)))

  | finish {expected : List Kind} :
      PointsIn source (.mismatch expected .finish source.utf8ByteSize)

  | token {before x behind : List Char} {expected : List Kind} {s : Spanned} :
      source.toList = before ++ x ++ behind → s ∈ handed source → s.start = utf8Len before →
      Writes s.token x → s.stop = s.start + utf8Len x →
      PointsIn source (.mismatch expected s.token s.start)

  | tooDeep {before behind : List Char} {limit : UInt64} :
      source.toList = before ++ ['('] ++ behind → unclosed before = limit.toNat →
      PointsIn source (.tooDeep limit (utf8Len before))

/-- The ways to report an error: by the tokens, a cursor behind any calls, a parse, or a run. -/
inductive ParseError.Reported (source : String) : ParseError → Prop where

  | tokens {error : ScanError} : tokens source = .error error → Reported source (.scan error)

  | cursor {calls : List Call} {call : Call} {error : ScanError} :
      (((Cursor.start source).after calls).perform call).1 = some (.error error) →
      Reported source (.scan error)

  | parse {settings : Settings} {error : ParseError} : parse settings source = .error error →
      Reported source error

  | run {settings : Settings} {error : ParseError} :
      run settings source = .error (.parse error) → Reported source error

variable {source : String} {error : ParseError}

theorem pointsIn_of_tokens_eq_error {error : ScanError} (h : tokens source = .error error) :
    ParseError.PointsIn source (.scan error) := by
  obtain ⟨ts, rest, hts⟩ := tokens_eq_error_iff.mp h
  obtain ⟨before, x, behind, hs, -, hx, ha, hb⟩ := exists_split_of_readings hts
  rw [Nat.zero_add] at hx
  cases lexes_error_iff.mp hx with
  | unexpected hspacing hdigit hsymbol => exact .unexpected hs hspacing hdigit hsymbol
  | outOfRange hd hv =>
    exact .outOfRange hs hd (fun he => ha he hd.startsWithDigit) (hb hd.endsWithDigit) hv

theorem exists_split_of_token {ts : List Spanned} {s : Spanned} {rest : List Reading}
    (h : readings 0 source.toList = ts.map .ok ++ .ok s :: rest) :
    ∃ before x behind, source.toList = before ++ x ++ behind ∧ Spells 0 before ts ∧
      s.start = utf8Len before ∧ Writes s.token x ∧ s.stop = s.start + utf8Len x := by
  obtain ⟨before, x, behind, hs, hbefore, hx, -, -⟩ := exists_split_of_readings h
  rw [Nat.zero_add] at hx
  exact ⟨before, x, behind, hs, spells_iff.mpr hbefore, lexes_ok_iff.mp hx⟩

theorem ParseError.Arises.pointsIn (h : error.Arises source) : error.PointsIn source := by
  cases h with
  | scan ht => exact pointsIn_of_tokens_eq_error ht
  | finish => exact .finish
  | @mismatch _ ts s rest hts =>
    obtain ⟨before, x, behind, hs, -, hstart, hw, hstop⟩ := exists_split_of_token hts
    have hm : s ∈ handed source := by
      rw [handed_eq, hts]
      exact List.mem_filterMap.mpr ⟨.ok s, by simp, rfl⟩
    exact .token hs hm hstart hw hstop
  | tooDeep hts ho hr =>
    obtain ⟨before, x, behind, hs, hbefore, hstart, hw, -⟩ := exists_split_of_token hts
    rw [ho] at hw
    obtain rfl := hw.eq_singleton (c := '(') rfl
    rw [hstart]
    exact .tooDeep hs (hbefore.foldl_openBehind hr)

theorem ParseError.Reported.pointsIn (h : error.Reported source) : error.PointsIn source := by
  cases h with
  | tokens ht => exact pointsIn_of_tokens_eq_error ht
  | cursor hc => exact pointsIn_of_tokens_eq_error (Cursor.tokens_eq_error_of_perform hc)
  | parse hp => exact (arises_of_parse_eq_error hp).pointsIn
  | @run settings _ hr =>
    rw [run_eq] at hr
    cases hp : Reckon.parse settings source with
    | error e =>
      rw [hp] at hr
      cases hr
      exact (arises_of_parse_eq_error hp).pointsIn
    | ok e =>
      rw [hp] at hr
      cases hv : e.value <;> simp [hv, Except.mapError] at hr

theorem exists_pos?_eq_some {before behind : List Char} (h : source.toList = before ++ behind) :
    ∃ p : source.Pos, source.pos? ⟨utf8Len before⟩ = some p ∧
      p.Splits (String.ofList before) (String.ofList behind) := by
  have hs : source = String.ofList before ++ String.ofList behind := by
    rw [← String.ofList_append, ← h, String.ofList_toList]
  have hv : String.Pos.Raw.IsValid source ⟨utf8Len before⟩ := by
    rw [String.Pos.Raw.isValid_iff_exists_append]
    exact ⟨_, _, hs, by rw [String.rawEndPos, String.utf8ByteSize_ofList]⟩
  have hslice : String.Pos.Raw.isValidForSlice source.toSlice ⟨utf8Len before⟩ = true := by
    simpa using hv
  refine ⟨source.pos _ hv, ?_, hs, by simp [String.rawEndPos, String.utf8ByteSize_ofList]⟩
  rw [String.pos?, String.Slice.pos?, dif_pos hslice]
  rfl

theorem get?_of_splits {p : source.Pos} {before behind : List Char} {c : Char}
    (h : p.Splits (String.ofList before) (String.ofList (c :: behind))) : p.get? = some c := by
  rw [String.ofList_cons] at h
  have hne := h.ne_endPos_of_singleton
  obtain ⟨t, ht⟩ := h.exists_eq_singleton_append hne
  have hcons := congrArg String.toList ht
  rw [String.toList_append, String.toList_append, String.toList_singleton,
    String.toList_singleton] at hcons
  rw [String.Pos.get?_eq_some_get hne, ← (List.cons.inj hcons).1]

theorem ParseError.PointsIn.exists_split (h : error.PointsIn source) :
    ∃ before behind, source.toList = before ++ behind ∧ error.position = utf8Len before ∧
      ∀ c position, error = .scan (.unexpected c position) → ∃ rest, behind = c :: rest := by
  cases h with
  | @unexpected before behind c hs =>
    refine ⟨before, c :: behind, by simpa using hs, rfl, fun c' position he => ?_⟩
    cases he
    exact ⟨behind, rfl⟩
  | @outOfRange before ds behind hs =>
    exact ⟨before, ds ++ behind, by simpa using hs, rfl, by simp⟩
  | finish =>
    exact ⟨source.toList, [], (List.append_nil _).symm, (String.utf8Len_toList source).symm,
      by simp⟩
  | @token before x behind _ s hs _ hstart =>
    exact ⟨before, x ++ behind, by simpa using hs, hstart, by simp⟩
  | @tooDeep before behind _ hs => exact ⟨before, '(' :: behind, by simpa using hs, rfl, by simp⟩

/-- Every error points at the text that it is about. Its offset is that of a position in the source,
where it may be cut, and a character that cannot be read is found at that position. -/
theorem reported_error_points_in_source (h : error.Reported source) :
    error.PointsIn source ∧ error.position ≤ source.utf8ByteSize ∧
    ∃ p : source.Pos, source.pos? ⟨error.position⟩ = some p ∧
      ∀ c position, error = .scan (.unexpected c position) → p.get? = some c := by
  have hpoints := h.pointsIn
  obtain ⟨before, behind, hs, hposition, hc⟩ := hpoints.exists_split
  rw [hposition]
  obtain ⟨p, hp, hsplits⟩ := exists_pos?_eq_some hs
  refine ⟨hpoints, ?_, p, hp, fun c position he => ?_⟩
  · rw [← String.utf8Len_toList, hs, String.utf8Len_append]
    exact Nat.le_add_right _ _
  · obtain ⟨rest, rfl⟩ := hc c position he
    exact get?_of_splits hsplits

theorem reported_error_points_in_source_accented :
    tokens "(é" = .error (.unexpected 'é' 1) ∧
      ParseError.PointsIn "(é" (.scan (.unexpected 'é' 1)) ∧
      (∃ p : "(é".Pos, "(é".pos? ⟨1⟩ = some p ∧ p.get? = some 'é') ∧
    parse ⟨2⟩ "((1)+((2" = .error (.tooDeep 2 6) ∧
      ParseError.PointsIn "((1)+((2" (.tooDeep 2 6) := by
  have ht : tokens "(é" = .error (.unexpected 'é' 1) := by decide +kernel
  have hp : parse ⟨2⟩ "((1)+((2" = .error (.tooDeep 2 6) := by decide +kernel
  obtain ⟨hpoints, -, p, hpos, hget⟩ := reported_error_points_in_source (.tokens ht)
  exact ⟨ht, hpoints, ⟨p, hpos, hget _ _ rfl⟩, hp, (reported_error_points_in_source (.parse hp)).1⟩

end Reckon
