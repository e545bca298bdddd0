import Reckon.Proofs.Derivation
import Reckon.Proofs.Spelling

/-! # Texts, tokens and trees

A text denotes its tokens without their spans. Texts may be joined where no row of digits runs on,
and cut between any two tokens.
-/

namespace Reckon

open String (utf8Len)

variable {position : Nat} {text : List Char} {ts us : List Token}

theorem IsSpacing.apart_right {w : List Char} (h : IsSpacing w) (text : List Char) :
    Apart w text := by
  induction w with
  | nil => exact apart_nil_left text
  | cons c w ih =>
    obtain ⟨hc, hw⟩ := isSpacing_cons.mp h
    exact (apart_blank hc _).append_left (a := [c]) (ih hw)

theorem IsSpacing.apart_left {w : List Char} (h : IsSpacing w) (text : List Char) :
    Apart text w := by
  intro _ hs
  cases w with
  | nil => exact not_startsWithDigit_nil hs
  | cons c w =>
    have hc := (isSpacing_cons.mp h).1
    rw [isSkipped_eq_false_of_isDigit (startsWithDigit_cons.mp hs)] at hc
    cases hc

theorem Spells.append {a b : List Char} {ss ss' : List Spanned} (h : Spells position a ss)
    (h' : Spells (position + utf8Len a) b ss') (hab : Apart a b) :
    Spells position (a ++ b) (ss ++ ss') := by
  rw [spells_iff] at h h' ⊢
  rw [readings_append hab, h, h', join_map_ok, List.map_append]

theorem Spells.split {ss ss' : List Spanned} (h : Spells position text (ss ++ ss')) :
    ∃ a b, text = a ++ b ∧ Spells position a ss ∧ Spells (position + utf8Len a) b ss' ∧
      Apart a b := by
  induction ss generalizing position text with
  | nil => exact ⟨[], text, rfl, .nil isSpacing_nil, h, isSpacing_nil.apart_right text⟩
  | cons s ss ih =>
    cases h with
    | @cons _ w x text _ _ hw hs hx he ha h =>
      obtain ⟨a, b, rfl, hss, hss', hab⟩ := ih h
      have hstop : s.stop + utf8Len a = position + utf8Len (w ++ (x ++ a)) := by
        simp only [String.utf8Len_append]
        omega
      refine ⟨w ++ (x ++ a), b, by simp, .cons hw hs hx he ha.of_append_right hss, ?_, ?_⟩
      · rwa [← hstop]
      · exact (hw.apart_right _).append_left (ha.append_left hab)

theorem Spells.cut {a b : List Char} {ss : List Spanned} (h : Spells position (a ++ b) ss)
    (hab : Apart a b) :
    ∃ us vs, ss = us ++ vs ∧ Spells position a us ∧ Spells (position + utf8Len a) b vs := by
  rw [spells_iff, readings_append hab] at h
  obtain ⟨us, vs, rfl, hu, hv⟩ := of_join_eq_map_ok h
  exact ⟨us, vs, rfl, spells_iff.mpr hu, spells_iff.mpr hv⟩

theorem Spells.exists_at {ss : List Spanned} (h : Spells position text ss) (position' : Nat) :
    ∃ ss', Spells position' text ss' ∧ ss'.map Spanned.token = ss.map Spanned.token := by
  induction h generalizing position' with
  | nil hw => exact ⟨[], .nil hw, rfl⟩
  | @cons _ w x _ s _ hw _ hx _ ha _ ih =>
    let start := position' + utf8Len w
    obtain ⟨ss', hss', he⟩ := ih (start + utf8Len x)
    exact ⟨⟨start, s.token, start + utf8Len x⟩ :: ss', .cons hw rfl hx rfl ha hss',
      congrArg (s.token :: ·) he⟩

/-- The tokens that a text spells, wherever it stands. -/
def Denotes (text : List Char) (ts : List Token) : Prop :=
  ∀ position, ∃ ss, Spells position text ss ∧ ss.map Spanned.token = ts

theorem Spells.denotes {ss : List Spanned} (h : Spells position text ss) :
    Denotes text (ss.map Spanned.token) := h.exists_at

theorem Denotes.append {a b : List Char} (h : Denotes a ts) (h' : Denotes b us) (hab : Apart a b) :
    Denotes (a ++ b) (ts ++ us) := by
  intro position
  obtain ⟨ss, hs, rfl⟩ := h position
  obtain ⟨ss', hs', rfl⟩ := h' (position + utf8Len a)
  exact ⟨ss ++ ss', hs.append hs' hab, List.map_append⟩

theorem Denotes.split (h : Denotes text (ts ++ us)) :
    ∃ a b, text = a ++ b ∧ Denotes a ts ∧ Denotes b us ∧ Apart a b := by
  obtain ⟨ss, hs, hm⟩ := h 0
  obtain ⟨ss, ss', rfl, rfl, rfl⟩ := List.map_eq_append_iff.mp hm
  obtain ⟨a, b, rfl, ha, hb, hab⟩ := hs.split
  exact ⟨a, b, rfl, ha.denotes, hb.denotes, hab⟩

theorem Denotes.cut {a b : List Char} (h : Denotes (a ++ b) ts) (hab : Apart a b) :
    ∃ us vs, ts = us ++ vs ∧ Denotes a us ∧ Denotes b vs := by
  obtain ⟨ss, hs, rfl⟩ := h 0
  obtain ⟨us, vs, rfl, hu, hv⟩ := hs.cut hab
  exact ⟨_, _, List.map_append, hu.denotes, hv.denotes⟩

theorem denotes_nil_iff : Denotes text [] ↔ IsSpacing text := by
  constructor
  · intro h
    obtain ⟨ss, hs, hm⟩ := h 0
    obtain rfl := List.map_eq_nil_iff.mp hm
    cases hs with
    | nil hw => exact hw
  · exact fun h _ => ⟨[], .nil h, rfl⟩

theorem Denotes.spaced {w w' : List Char} (hw : IsSpacing w) (h : Denotes text ts)
    (hw' : IsSpacing w') : Denotes (w ++ text ++ w') ts := by
  have hl := (denotes_nil_iff.mpr hw).append h (hw.apart_right text)
  have hr := hl.append (denotes_nil_iff.mpr hw') (hw'.apart_left _)
  rwa [List.append_nil] at hr

theorem denotes_singleton {t : Token} {x : List Char} (h : Writes t x) : Denotes x [t] := by
  intro position
  have hs := @Spells.cons position [] x [] ⟨position, t, position + utf8Len x⟩ [] isSpacing_nil rfl
    h rfl (apart_nil_right x) (.nil isSpacing_nil)
  rw [List.append_nil] at hs
  exact ⟨_, hs, rfl⟩

theorem Denotes.exists_writes {t : Token} (h : Denotes text [t]) :
    ∃ w x w', text = w ++ x ++ w' ∧ IsSpacing w ∧ Writes t x ∧ IsSpacing w' := by
  obtain ⟨ss, hs, hm⟩ := h 0
  obtain ⟨s, rfl, rfl⟩ := List.map_eq_singleton_iff.mp hm
  cases hs with
  | @cons _ w x w' _ _ hw _ hx _ _ hn =>
    cases hn with
    | nil hw' => exact ⟨w, x, w', (List.append_assoc w x w').symm, hw, hx, hw'⟩

theorem isDigit_eq_false_of_symbol? {t : Token} {c : Char} (h : t.symbol? = some c) :
    c.isDigit = false :=
  (props_of_ofSymbol? (ofSymbol?_eq_some_iff.mpr h)).2.1

/-- A row of digits denotes one literal, if it denotes anything. -/
theorem Denotes.of_isRow {ds : List Char} (h : Denotes ds ts) (hd : IsRow ds) :
    ∃ n : Int64, ts = [.integer n] ∧ n.toInt = Decimal.value ds := by
  obtain ⟨ss, hs, rfl⟩ := h 0
  obtain ⟨r, hr⟩ := exists_lexes_of_isRow hd 0
  have hlex := hr.readings_eq
  rw [spells_iff.mp hs] at hlex
  cases r with
  | error error => cases ss <;> cases hlex
  | ok s =>
    obtain ⟨⟨start, t, stop⟩, rfl, he⟩ := List.map_eq_singleton_iff.mp hlex
    obtain rfl := Except.ok.inj he
    have hw : Writes t ds := (lexes_ok_iff.mp hr).2.1
    cases hw with
    | integer _ hv => exact ⟨_, rfl, hv⟩
    | @symbol _ c ht =>
      cases (isDigit_eq_false_of_symbol? ht).symm.trans (hd.2 c List.mem_cons_self)

theorem Writes.eq_singleton {t : Token} {x : List Char} {c : Char} (h : Writes t x)
    (hs : t.symbol? = some c) : x = [c] := by
  cases h with
  | symbol hs' => rw [Option.some.inj (hs.symm.trans hs')]
  | integer => cases hs

theorem denotes_append_symbol {a b : List Char} {t : Token} {c : Char} (ha : Denotes a ts)
    (hs : t.symbol? = some c) (hb : Denotes b us) : Denotes (a ++ c :: b) (ts ++ t :: us) := by
  have hc := isDigit_eq_false_of_symbol? hs
  refine ha.append ((denotes_singleton (.symbol hs)).append hb ?_) ?_
  · intro he
    cases hc.symm.trans (endsWithDigit_singleton.mp he)
  · intro _ hd
    cases hc.symm.trans (startsWithDigit_cons.mp hd)

theorem Denotes.split_symbol {t : Token} {c : Char} (h : Denotes text (ts ++ t :: us))
    (hs : t.symbol? = some c) : ∃ a b, text = a ++ c :: b ∧ Denotes a ts ∧ Denotes b us := by
  obtain ⟨a, d, rfl, ha, hd, -⟩ := h.split
  obtain ⟨m, b, rfl, hm, hb, -⟩ := @Denotes.split d [t] us hd
  obtain ⟨w, x, w', rfl, hw, hx, hw'⟩ := hm.exists_writes
  obtain rfl := hx.eq_singleton hs
  have ha' := ha.spaced isSpacing_nil hw
  have hb' := hb.spaced hw' isSpacing_nil
  exact ⟨a ++ w, w' ++ b, by simp, by simpa using ha', by simpa using hb'⟩

/-- A source is parsed to a tree if and only if it denotes tokens that derive it, with no more
groups inside each other than the limit allows. -/
theorem parse_eq_ok_iff_denotes {settings : Settings} {source : String} {e : Expr} :
    parse settings source = .ok e ↔ ∃ ts, Denotes source.toList ts ∧ Derives .sum ts e ∧
      Shallow settings.limit.toNat ts := by
  have hstart : Pushdown.start.groups ≤ settings.limit.toNat := Nat.zero_le _
  have hshallow (ts : List Token) : Shallow settings.limit.toNat ts ↔
      ∀ q, q <+: ts → Pushdown.start.groups + depth q ≤ settings.limit.toNat := by
    refine forall₂_congr fun q _ => ?_
    rw [show (Pushdown.start.groups : Int) = 0 from rfl, Int.zero_add]
  rw [parse_eq_outcome, Pushdown.outcome_eq_ok_iff]
  constructor
  · rintro ⟨ss, p, hread, hm, hr⟩
    obtain ⟨hm, hs⟩ := (Pushdown.foldlM_step_eq_ok_iff hstart).mp hm
    exact ⟨_, (spells_iff.mpr hread).denotes, derives_sum_iff.mpr ⟨p, hm, hr⟩, (hshallow _).mpr hs⟩
  · rintro ⟨ts, hdenotes, hd, hs⟩
    obtain ⟨ss, hread, rfl⟩ := hdenotes 0
    obtain ⟨p, hm, hr⟩ := derives_sum_iff.mp hd
    exact ⟨ss, p, spells_iff.mp hread,
      (Pushdown.foldlM_step_eq_ok_iff hstart).mpr ⟨hm, (hshallow _).mp hs⟩, hr⟩

def Expr.leaves : Expr → List Int64
  | number n => [n]
  | binary _ lhs rhs => lhs.leaves ++ rhs.leaves

theorem Derives.leaves_eq {level : Level} {e : Expr} (h : Derives level ts e) :
    e.leaves = ts.filterMap Token.value? := by
  induction h with
  | literal n => rfl
  | operand _ ih | term _ ih => exact ih
  | group _ ih => simp [List.filterMap_cons, Token.value?, ih]
  | product _ _ _ ihl ihr | sum _ _ _ ihl ihr =>
    simp [Expr.leaves, List.filterMap_cons, Token.value?, ihl, ihr]

end Reckon
