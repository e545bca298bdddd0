import Reckon.Proofs.Counting

/-! # Where errors are found

A parse that fails blames the first lexeme that no continuation can repair.
-/

namespace Reckon

open String (utf8Len)

namespace Automaton

variable {limit limit' : UInt64} {position : Nat} {a b c : Automaton} {s : Spanned}
  {text x : List Char}

/-- A text takes one state to another. -/
def Leads (limit : UInt64) (position : Nat) (a : Automaton) (text : List Char) (b : Automaton) :
    Prop :=
  ∃ ts, readings position text = ts.map .ok ∧ a.Reaches limit ts b

theorem Leads.nil (limit : UInt64) (position : Nat) (a : Automaton) : a.Leads limit position [] a :=
  ⟨[], readings_nil position, .nil a⟩

theorem Leads.append {text' : List Char} (h : a.Leads limit position text b)
    (h' : b.Leads limit (position + utf8Len text) text' c) (ha : Apart text text') :
    a.Leads limit position (text ++ text') c := by
  obtain ⟨ts, ht, hr⟩ := h
  obtain ⟨us, hu, hr'⟩ := h'
  exact ⟨ts ++ us, by rw [readings_append ha, ht, hu, join_map_ok, List.map_append],
    hr.append hr'⟩

theorem Leads.lexeme (hx : Lexes position x (.ok s)) (hs : a.step limit s = .ok (some b)) :
    a.Leads limit position x b :=
  ⟨[s], hx.readings_eq, .cons hs (.nil b)⟩

theorem Leads.blank {c : Char} (hc : isSkipped c = true)
    (h : a.Leads limit (position + c.utf8Size) text b) : a.Leads limit position (c :: text) b := by
  obtain ⟨ts, ht, hr⟩ := h
  exact ⟨ts, by rw [readings_blank hc, ht], hr⟩

theorem Leads.mono (hl : limit.toNat ≤ limit'.toNat) (h : a.Leads limit position text b) :
    a.Leads limit' position text b := by
  obtain ⟨ts, ht, hr⟩ := h
  exact ⟨ts, ht, hr.mono hl⟩

theorem leads_closings (limit : UInt64) (position opened : Nat) :
    Leads limit position ⟨true, opened⟩ (List.replicate opened ')') ⟨true, 0⟩ := by
  induction opened generalizing position with
  | zero => exact .nil _ _ _
  | succ opened ih =>
    have hx : Lexes position [')'] (.ok ⟨position, .closing, position + 1⟩) := .symbol rfl
    have hs : step limit ⟨true, opened + 1⟩ ⟨position, .closing, position + 1⟩ =
      .ok (some ⟨true, opened⟩) := by simp [step]
    refine (Leads.lexeme hx hs).append (ih _) fun he => ?_
    cases endsWithDigit_singleton.mp he

theorem lexes_zero (position : Nat) :
    Lexes position ['0'] (.ok ⟨position, .integer 0, position + 1⟩) := by
  have hd : IsRow ['0'] := by
    refine ⟨List.cons_ne_nil _ _, fun c hc => ?_⟩
    obtain rfl := List.mem_singleton.mp hc
    rfl
  exact .integer hd (Nat.zero_le greatestLiteral)

theorem not_startsWithDigit_closings (opened : Nat) :
    ¬ StartsWithDigit (List.replicate opened ')') := by
  cases opened with
  | zero => exact not_startsWithDigit_nil
  | succ opened => simp [List.replicate_succ]

/-- From every state some text leads to the end, behind whatever was read before. -/
theorem exists_completion (a : Automaton) : ∃ text, ¬ StartsWithDigit text ∧
    ∀ limit position, a.Leads limit position text ⟨true, 0⟩ := by
  obtain ⟨complete, opened⟩ := a
  have hclose := not_startsWithDigit_closings opened
  cases complete with
  | true => exact ⟨_, hclose, fun limit position => leads_closings limit position opened⟩
  | false =>
    -- the blank keeps the literal apart from a row of digits in front
    refine ⟨' ' :: (['0'] ++ List.replicate opened ')'), by simp, fun limit position => ?_⟩
    have hzero := @Leads.lexeme limit _ ⟨false, opened⟩ _ _ _ (lexes_zero (position + 1)) rfl
    exact .blank rfl (hzero.append (leads_closings _ _ _) fun _ => hclose)

end Automaton

open Automaton

theorem exists_parse_eq_ok {settings : Settings} {text : String}
    (h : start.Leads settings.limit 0 text.toList ⟨true, 0⟩) :
    ∃ e, parse settings text = .ok e := by
  obtain ⟨ts, ht, hr⟩ := h
  rw [exists_parse_eq_ok_iff, ht, ← List.append_nil (ts.map _), hr.run_eq]
  rfl

theorem parse_eq_error_of_refuses {settings : Settings} {text : String} {ts : List Spanned}
    {r : Reading} {rest : List Reading} {a : Automaton} {error : ParseError}
    (ht : readings 0 text.toList = ts.map .ok ++ r :: rest)
    (hr : start.Reaches settings.limit ts a) (ha : a.Refuses settings.limit r error) :
    parse settings text = .error error := by
  rw [parse_eq_error_iff, ht, hr.run_eq, ha.run_eq]

def ParseError.position : ParseError → Nat
  | .scan error => error.position
  | .mismatch _ _ position => position
  | .tooDeep _ position => position

/-- An error is about a lexeme, or about the end of the input, where there is none. -/
inductive ParseError.Blames : ParseError → List Char → Prop where

  | scan {error : ScanError} {x : List Char} : Lexes error.position x (.error error) →
      Blames (.scan error) x

  | mismatch {expected : List Kind} {s : Spanned} {x : List Char} : Lexes s.start x (.ok s) →
      Blames (.mismatch expected s.token s.start) x

  | tooDeep {limit : UInt64} {s : Spanned} {x : List Char} : s.token = .opening →
      Lexes s.start x (.ok s) → Blames (.tooDeep limit s.start) x

  | finish {expected : List Kind} {position : Nat} :
      Blames (.mismatch expected .finish position) []

inductive Admits (settings : Settings) (before : String) : Kind → Prop where

  | finish {e : Expr} : parse settings before = .ok e → Admits settings before .finish

  | token {limit : UInt64} {more : String} {ts : List Spanned} {e : Expr} {s : Spanned} :
      parse ⟨limit⟩ (before ++ more) = .ok e → tokens (before ++ more) = .ok ts → s ∈ ts →
      s.start = before.utf8ByteSize → Admits settings before s.token.kind

theorem admits_of_step {settings : Settings} {limit : UInt64} {before : String} {x : List Char}
    {s : Spanned} {a b : Automaton} (h : start.Leads limit 0 before.toList a)
    (hx : Lexes before.utf8ByteSize x (.ok s)) (ha : Apart before.toList x)
    (hs : a.step limit s = .ok (some b)) : Admits settings before s.token.kind := by
  obtain ⟨ts, ht, hr⟩ := h
  obtain ⟨more, hd, hm⟩ := exists_completion b
  obtain ⟨us, hu, hr'⟩ := hm limit (before.utf8ByteSize + utf8Len x)
  have hread : readings 0 (before ++ String.ofList (x ++ more)).toList =
      (ts ++ s :: us).map .ok := by
    rw [String.toList_append, String.toList_ofList,
      readings_append (ha.append_right fun _ => hd), ht, join_map_ok, Nat.zero_add,
      String.utf8Len_toList, readings_lexeme hx fun _ => hd, hu, List.map_append]
    rfl
  have hl : start.Leads (Settings.mk limit).limit 0
      (before ++ String.ofList (x ++ more)).toList ⟨true, 0⟩ :=
    ⟨ts ++ s :: us, hread, hr.append (.cons hs hr')⟩
  obtain ⟨e, he⟩ := exists_parse_eq_ok hl
  exact .token he (tokens_eq_ok_iff.mpr hread) (by simp) hx.position_eq

theorem not_endsWithDigit_of_leads {limit : UInt64} {position opened : Nat} {text : List Char}
    {a : Automaton} (h : a.Leads limit position text ⟨false, opened⟩) : ¬ EndsWithDigit text := by
  intro he
  obtain ⟨ts, ht, hr⟩ := h
  obtain ⟨us, s, n, rfl, hn⟩ := exists_integer_of_endsWithDigit ht he
  obtain ⟨b, -, hs⟩ := exists_step_of_reaches_concat hr
  cases steps_of_eq hs with
  | opening ho => cases hn.symm.trans ho
  | operator ho => cases hn.symm.trans ho

theorem opened_le_of_leads {limit : UInt64} {position : Nat} {text : List Char} {a : Automaton}
    (h : start.Leads limit position text a) : a.opened ≤ utf8Len text := by
  obtain ⟨ts, ht, hr⟩ := h
  have hl := length_readings_le position text
  rw [ht, List.length_map] at hl
  have ho : a.opened ≤ 0 + ts.length := hr.opened_le
  omega

theorem admits_of_mem_expected {settings : Settings} {before : String} {a : Automaton} {kind : Kind}
    (h : start.Leads settings.limit 0 before.toList a) (hk : kind ∈ a.expected)
    (hb : kind = .opening → InRange before.utf8ByteSize) : Admits settings before kind := by
  have hopen := opened_le_of_leads h
  rw [String.utf8Len_toList] at hopen
  obtain ⟨complete, opened⟩ := a
  simp only at hopen
  cases complete with
  | true =>
    cases opened with
    | zero =>
      obtain rfl : kind = .finish := by simpa [expected] using hk
      obtain ⟨e, he⟩ := exists_parse_eq_ok h
      exact .finish he
    | succ opened =>
      obtain rfl : kind = .closing := by simpa [expected] using hk
      have hx : Lexes before.utf8ByteSize [')'] (.ok ⟨_, .closing, _⟩) := .symbol rfl
      exact admits_of_step h hx (fun _ => by simp) rfl
  | false =>
    have hor : kind = .integer ∨ kind = .opening := by simpa [expected] using hk
    rcases hor with rfl | rfl
    · exact admits_of_step h (lexes_zero _) (fun he => (not_endsWithDigit_of_leads h he).elim) rfl
    · have hx : Lexes before.utf8ByteSize ['('] (.ok ⟨_, .opening, _⟩) := .symbol rfl
      -- under the greatest limit, since there are no more groups than bytes
      have hm : settings.limit.toNat ≤ UInt64.toNat (-1) := by
        have hg : UInt64.toNat (-1) + 1 = UInt64.size := rfl
        have hl := settings.limit.toNat_lt_size
        omega
      have hs : step (-1) ⟨false, opened⟩ ⟨before.utf8ByteSize, .opening, before.utf8ByteSize + 1⟩ =
          .ok (some ⟨false, opened + 1⟩) := by
        have hi := (hb rfl).2
        have hg : Int64.maxValue.toInt < UInt64.toNat (-1) := by decide
        exact if_neg (by simp only; omega)
      exact admits_of_step (h.mono hm) hx (fun _ => by simp) hs

/-- An error found behind a text and about a lexeme: the text can be completed, what follows the
lexeme does not matter, and every kind of token named is acceptable instead. For an opening some
limit must leave room, which it does as no text in memory has 2^63 bytes. -/
structure Located (settings : Settings) (before lexeme : String) (error : ParseError) : Prop where
  position : error.position = before.utf8ByteSize
  blames : error.Blames lexeme.toList
  completable : ∃ more e, parse settings (before ++ more) = .ok e
  independent : (∀ expected position, error ≠ .mismatch expected .finish position) →
    ∀ rest : String, Apart lexeme.toList rest.toList →
      parse settings (before ++ lexeme ++ rest) = .error error
  mismatched : ∀ expected found position, error = .mismatch expected found position →
    found.kind ∉ expected ∧
      ∀ kind ∈ expected, (kind = .opening → InRange before.utf8ByteSize) →
        Admits settings before kind

theorem exists_parse_append_eq_ok {settings : Settings} {before : String} {a : Automaton}
    (h : start.Leads settings.limit 0 before.toList a) :
    ∃ more e, parse settings (before ++ more) = .ok e := by
  obtain ⟨more, hd, hm⟩ := exists_completion a
  refine ⟨String.ofList more, exists_parse_eq_ok ?_⟩
  rw [String.toList_append, String.toList_ofList]
  exact h.append (hm _ _) fun _ => hd

theorem parse_eq_error_of_leads {settings : Settings} {before : String} {x : List Char}
    {r : Reading} {a : Automaton} {error : ParseError}
    (h : start.Leads settings.limit 0 before.toList a) (hx : Lexes before.utf8ByteSize x r)
    (ha : Apart before.toList x) (hr : a.Refuses settings.limit r error) (rest : String)
    (hrest : Apart x rest.toList) :
    parse settings (before ++ String.ofList x ++ rest) = .error error := by
  obtain ⟨ts, ht, hreach⟩ := h
  rw [← String.utf8Len_toList, ← Nat.zero_add (utf8Len before.toList)] at hx
  obtain ⟨tail, hj⟩ := exists_join_singleton_eq_cons r
    (readings (0 + utf8Len before.toList + utf8Len x) rest.toList)
  refine @parse_eq_error_of_refuses _ _ ts r tail _ _ ?_ hreach hr
  rw [String.toList_append, String.toList_append, String.toList_ofList,
    readings_around ht ha hx hrest, hj]

theorem blames_of_refuses {limit : UInt64} {position : Nat} {x : List Char} {r : Reading}
    {a : Automaton} {error : ParseError} (hx : Lexes position x r) (hr : a.Refuses limit r error) :
    error.position = position ∧ error.Blames x := by
  cases hr with
  | scan e =>
    obtain rfl := hx.position_eq
    exact ⟨rfl, .scan hx⟩
  | step hs =>
    obtain rfl := hx.position_eq
    cases steps_of_eq hs with
    | tooDeep ho => exact ⟨rfl, .tooDeep ho hx⟩
    | mismatch => exact ⟨rfl, .mismatch hx⟩

theorem mismatched_of_refuses {settings : Settings} {before : String} {r : Reading} {a : Automaton}
    {expected : List Kind} {found : Token} {position : Nat}
    (h : start.Leads settings.limit 0 before.toList a)
    (hr : a.Refuses settings.limit r (.mismatch expected found position)) :
    found.kind ∉ expected ∧
      ∀ kind ∈ expected, (kind = .opening → InRange before.utf8ByteSize) →
        Admits settings before kind := by
  cases hr with
  | step hs =>
    cases steps_of_eq hs with
    | mismatch hk => exact ⟨hk, fun kind hm hb => admits_of_mem_expected h hm hb⟩

/-- A lexeme that is refused behind a text is what the error is about. -/
theorem located_of_refuses {settings : Settings} {before : String} {x : List Char} {r : Reading}
    {a : Automaton} {error : ParseError} (h : start.Leads settings.limit 0 before.toList a)
    (hx : Lexes before.utf8ByteSize x r) (ha : Apart before.toList x)
    (hr : a.Refuses settings.limit r error) :
    Located settings before (String.ofList x) error := by
  obtain ⟨hp, hb⟩ := blames_of_refuses hx hr
  refine ⟨hp, ?_, exists_parse_append_eq_ok h, fun _ rest hrest => ?_, ?_⟩
  · rwa [String.toList_ofList]
  · rw [String.toList_ofList] at hrest
    exact parse_eq_error_of_leads h hx ha hr rest hrest
  · rintro expected found position rfl
    exact mismatched_of_refuses h hr

theorem located_finish {settings : Settings} {source : String} {a : Automaton} {error : ParseError}
    (h : start.Leads settings.limit 0 source.toList a)
    (hr : a.Refuses settings.limit (.ok (Cursor.start source).finish) error) :
    Located settings source "" error := by
  cases hr with
  | step hs =>
    cases steps_of_eq hs with
    | tooDeep ho => cases ho
    | mismatch hk =>
      refine ⟨rfl, .finish, exists_parse_append_eq_ok h, fun hn => (hn _ _ rfl).elim, ?_⟩
      intro expected found position he
      cases he
      exact mismatched_of_refuses h (.step hs)

/-- A parse error is located at the first lexeme that no continuation repairs, and the text behind
that lexeme does not matter. -/
theorem exists_located_of_parse_eq_error {settings : Settings} {source : String}
    {error : ParseError} (h : parse settings source = .error error) :
    ∃ before lexeme rest, source = before ++ lexeme ++ rest ∧
      Apart lexeme.toList rest.toList ∧ Located settings before lexeme error := by
  obtain ⟨ts, a, hreach, ⟨hts, hr⟩ | ⟨r, tail, hts, hr⟩⟩ :=
    exists_refuses_of_run_eq_error (fun _ => token_ne_finish_of_mem_readings)
      (parse_eq_error_iff.mp h)
  · refine ⟨source, "", "", by simp, fun _ => not_startsWithDigit_nil, ?_⟩
    exact located_finish ⟨ts, hts, hreach⟩ hr
  · obtain ⟨before, x, rest, hs, hb, hx, ha, hrest⟩ := exists_split_of_readings hts
    refine ⟨String.ofList before, String.ofList x, String.ofList rest, ?_, ?_, ?_⟩
    · apply String.toList_injective
      simpa using hs
    · simpa using hrest
    · refine located_of_refuses ⟨ts, ?_, hreach⟩ ?_ ?_ hr
      · rw [String.toList_ofList, hb]
      · rwa [String.utf8ByteSize_ofList, ← Nat.zero_add (utf8Len before)]
      · rwa [String.toList_ofList]

theorem exists_located_unclosed :
    parse ⟨1⟩ "(1 2" = .error (.mismatch [.closing] (.integer 2) 3) ∧
      ∃ before lexeme rest, "(1 2" = before ++ lexeme ++ rest ∧
        Apart lexeme.toList rest.toList ∧
        Located ⟨1⟩ before lexeme (.mismatch [.closing] (.integer 2) 3) := by
  have hread : readings 0 "(1 2".toList =
      [⟨0, .opening, 1⟩, ⟨1, .integer 1, 2⟩].map .ok ++ [.ok ⟨3, .integer 2, 4⟩] := by
    change readings 0 ['(', '1', ' ', '2'] = _
    rw [readings_eq]
    change _ :: readings 1 ['1', ' ', '2'] = _
    rw [readings_eq]
    change _ :: _ :: readings 2 [' ', '2'] = _
    rw [readings_eq]
    change _ :: _ :: _ :: readings 4 [] = _
    rw [readings_nil]
    rfl
  have h : parse ⟨1⟩ "(1 2" = .error (.mismatch [.closing] (.integer 2) 3) :=
    parse_eq_error_of_refuses hread (.cons rfl (.cons rfl (.nil _))) (.step rfl)
  exact ⟨h, exists_located_of_parse_eq_error h⟩

end Reckon
