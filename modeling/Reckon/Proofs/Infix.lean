import Reckon.Proofs.Nesting
import Reckon.Proofs.Phrasing

/-! # Infix writings

A tree is written infix with parentheses around an operand that would otherwise be taken apart, and
around whatever else one likes.
-/

namespace Reckon

/-- How tightly an operator binds. -/
def Operator.rank (op : Operator) : Nat := if op.isAdditive then 0 else 1

def Expr.operator? : Expr → Option Operator
  | .number _ => none
  | .binary op _ _ => some op

/-- The infix writings of a tree, each marked if it stands in parentheses. A left operand without
them must not bind looser than the operation around it, and a right one must bind tighter. -/
inductive Infix : Expr → Bool → List Char → Prop where

  | literal {n : Int64} {ds : List Char} : IsRow ds → n.toInt = Decimal.value ds →
      Infix (.number n) false ds

  | binary {op : Operator} {lhs rhs : Expr} {l r : Bool} {ls rs : List Char} :
      Infix lhs l ls → (∀ inner ∈ lhs.operator?, inner.rank < op.rank → l = true) →
      Infix rhs r rs → (∀ inner ∈ rhs.operator?, inner.rank ≤ op.rank → r = true) →
      Infix (.binary op lhs rhs) false (ls ++ op.symbol :: rs)

  | group {e : Expr} {g : Bool} {text : List Char} : Infix e g text →
      Infix e true ('(' :: text ++ [')'])

  | spaced {e : Expr} {g : Bool} {w text w' : List Char} : IsSpacing w → Infix e g text →
      IsSpacing w' → Infix e g (w ++ text ++ w')

theorem rank_lt_iff {inner op : Operator} :
    inner.rank < op.rank ↔ inner.isAdditive = true ∧ op.isAdditive = false := by
  cases inner <;> cases op <;> decide

theorem rank_le_iff {inner op : Operator} :
    inner.rank ≤ op.rank ↔ inner.isAdditive = true ∨ op.isAdditive = false := by
  cases inner <;> cases op <;> decide

def Fits : Level → Expr → Bool → Prop
  | .sum, _, _ => True
  | .product, e, grouped => ∀ op ∈ e.operator?, op.isAdditive = true → grouped = true
  | .operand, e, grouped => ∀ op ∈ e.operator?, grouped = true

theorem Derives.of_operand {ts : List Token} {e : Expr} (h : Derives .operand ts e)
    (level : Level) : Derives level ts e := by
  cases level with
  | operand => exact h
  | product => exact .operand h
  | sum => exact .term (.operand h)

theorem Infix.exists_derives {e : Expr} {g : Bool} {text : List Char} (h : Infix e g text)
    {level : Level} (hf : Fits level e g) : ∃ ts, Denotes text ts ∧ Derives level ts e := by
  induction h generalizing level with
  | literal hd hv => exact ⟨_, denotes_singleton (.integer hd hv), (Derives.literal _).of_operand _⟩
  | @binary op lhs rhs l r ls rs _ hl _ hr ihl ihr =>
    cases ho : op.isAdditive with
    | true =>
      have hr' : Fits .product rhs r := fun inner hi ha =>
        hr inner hi (rank_le_iff.mpr (.inl ha))
      obtain ⟨ts, hts, hlhs⟩ := @ihl .sum trivial
      obtain ⟨us, hus, hrhs⟩ := ihr hr'
      refine ⟨_, denotes_append_symbol hts (t := .operator op) rfl hus, ?_⟩
      cases level with
      | sum => exact .sum ho hlhs hrhs
      | product => cases hf op rfl ho
      | operand => cases hf op rfl
    | false =>
      have hl' : Fits .product lhs l := fun inner hi ha =>
        hl inner hi (rank_lt_iff.mpr ⟨ha, ho⟩)
      have hr' : Fits .operand rhs r := fun inner hi =>
        hr inner hi (rank_le_iff.mpr (.inr ho))
      obtain ⟨ts, hts, hlhs⟩ := ihl hl'
      obtain ⟨us, hus, hrhs⟩ := ihr hr'
      refine ⟨_, denotes_append_symbol hts (t := .operator op) rfl hus, ?_⟩
      cases level with
      | sum => exact .term (.product ho hlhs hrhs)
      | product => exact .product ho hlhs hrhs
      | operand => cases hf op rfl
  | group _ ih =>
    obtain ⟨ts, hts, he⟩ := @ih .sum trivial
    have hc := denotes_append_symbol hts (t := .closing) rfl (denotes_nil_iff.mpr isSpacing_nil)
    have hg := denotes_append_symbol (denotes_nil_iff.mpr isSpacing_nil) (t := .opening) rfl hc
    exact ⟨_, hg, (Derives.group he).of_operand level⟩
  | spaced hw _ hw' ih =>
    obtain ⟨ts, hts, he⟩ := ih hf
    exact ⟨ts, hts.spaced hw hw', he⟩

theorem exists_infix_of_derives {level : Level} {ts : List Token} {e : Expr}
    (h : Derives level ts e) {text : List Char} (ht : Denotes text ts) :
    ∃ g, Infix e g text ∧ Fits level e g := by
  induction h generalizing text with
  | literal n =>
    obtain ⟨w, x, w', rfl, hw, hx, hw'⟩ := ht.exists_writes
    cases hx with
    | integer hd hv => exact ⟨false, .spaced hw (.literal hd hv) hw', fun op ho => by cases ho⟩
    | symbol hs => cases hs
  | @group ts e _ ih =>
    obtain ⟨w, b, rfl, hw, hb⟩ := @Denotes.split_symbol _ [] (ts ++ [.closing]) _ _ ht rfl
    obtain ⟨c, w', rfl, hc, hw'⟩ := hb.split_symbol rfl
    obtain ⟨g, hi, -⟩ := ih hc
    have hg := hi.group.spaced (denotes_nil_iff.mp hw) (denotes_nil_iff.mp hw')
    exact ⟨true, by simpa using hg, fun op ho => rfl⟩
  | operand _ ih =>
    obtain ⟨g, hi, hf⟩ := ih ht
    exact ⟨g, hi, fun op ho _ => hf op ho⟩
  | @product ls rs lhs rhs op ho _ _ ihl ihr =>
    obtain ⟨a, b, rfl, ha, hb⟩ := ht.split_symbol rfl
    obtain ⟨l, hl, hfl⟩ := ihl ha
    obtain ⟨r, hr, hfr⟩ := ihr hb
    have hfl' : ∀ inner ∈ lhs.operator?, inner.rank < op.rank → l = true :=
      fun inner hi hlt => hfl inner hi (rank_lt_iff.mp hlt).1
    refine ⟨false, .binary hl hfl' hr fun inner hi _ => hfr inner hi, ?_⟩
    rintro _ ⟨⟩ hadd
    cases ho.symm.trans hadd
  | term _ ih =>
    obtain ⟨g, hi, -⟩ := ih ht
    exact ⟨g, hi, trivial⟩
  | @sum ls rs lhs rhs op ho _ _ ihl ihr =>
    obtain ⟨a, b, rfl, ha, hb⟩ := ht.split_symbol rfl
    obtain ⟨l, hl, -⟩ := ihl ha
    obtain ⟨r, hr, hfr⟩ := ihr hb
    refine ⟨false, .binary hl (fun inner hi hlt => ?_) hr fun inner hi hle => ?_, trivial⟩
    · cases ho.symm.trans (rank_lt_iff.mp hlt).2
    · rcases rank_le_iff.mp hle with hadd | hmul
      · exact hfr inner hi hadd
      · cases ho.symm.trans hmul

def textDepth (text : List Char) : Int := (text.count '(' : Int) - text.count ')'

def nesting (text : List Char) : Nat := peak textDepth text

theorem textDepth_append (a b : List Char) : textDepth (a ++ b) = textDepth a + textDepth b := by
  simp only [textDepth, List.count_append]
  omega

def Flat (text : List Char) : Prop := '(' ∉ text ∧ ')' ∉ text

theorem Flat.textDepth_eq {text : List Char} (h : Flat text) : textDepth text = 0 := by
  rw [textDepth, List.count_eq_zero.mpr h.1, List.count_eq_zero.mpr h.2]
  rfl

theorem Flat.within_iff {text : List Char} (h : Flat text) {d : Int} :
    Within textDepth d text ↔ 0 ≤ d := by
  refine ⟨fun hw => hw.nonneg rfl, fun hd p hp => ?_⟩
  have hf : Flat p := ⟨fun hm => h.1 (hp.subset hm), fun hm => h.2 (hp.subset hm)⟩
  rwa [hf.textDepth_eq]

theorem IsSpacing.flat {w : List Char} (h : IsSpacing w) : Flat w :=
  ⟨fun hm => absurd (h _ hm) (by decide), fun hm => absurd (h _ hm) (by decide)⟩

theorem IsRow.flat {ds : List Char} (h : IsRow ds) : Flat ds :=
  ⟨fun hm => absurd (h.2 _ hm) (by decide), fun hm => absurd (h.2 _ hm) (by decide)⟩

theorem Writes.textDepth_eq {t : Token} {x : List Char} (h : Writes t x) :
    textDepth x = depth [t] := by
  cases h with
  | integer hd _ => exact hd.flat.textDepth_eq
  | @symbol t c hs =>
    cases t with
    | integer | finish => cases hs
    | operator op =>
      obtain rfl := Option.some.inj hs
      cases op <;> rfl
    | opening | closing =>
      obtain rfl := Option.some.inj hs
      rfl

theorem Writes.within_iff {t : Token} {x : List Char} (h : Writes t x) {d : Int} :
    Within textDepth d x ↔ Within depth d [t] := by
  have hx := h.textDepth_eq
  rw [within_singleton_iff rfl]
  cases h with
  | symbol hs => rw [within_singleton_iff rfl, hx]
  | integer hd _ =>
    rw [hd.flat.within_iff, ← hx, hd.flat.textDepth_eq, and_self]

theorem Spells.within_iff {position : Nat} {text : List Char} {ss : List Spanned}
    (h : Spells position text ss) {d : Int} :
    Within textDepth d text ↔ Within depth d (ss.map Spanned.token) := by
  induction h generalizing d with
  | nil hw => exact hw.flat.within_iff.trans (within_nil_iff rfl).symm
  | @cons position w x text s ts hw _ hx _ _ _ ih =>
    have hpos (h : Within depth d [s.token]) : 0 ≤ d := ((within_singleton_iff rfl).mp h).1
    have hs : Within depth d ((s :: ts).map Spanned.token) ↔ Within depth d [s.token] ∧
        Within depth (d - depth [s.token]) (ts.map Spanned.token) :=
      @within_append _ depth d [s.token] (ts.map Spanned.token) depth_append
    rw [hs, within_append textDepth_append, within_append textDepth_append, hw.flat.within_iff,
      hw.flat.textDepth_eq, Int.sub_zero, hx.within_iff, hx.textDepth_eq, ih]
    exact ⟨fun h => h.2, fun h => ⟨hpos h.1, h⟩⟩

theorem nesting_le_iff {text : List Char} {ts : List Token} (h : Denotes text ts) {n : Nat} :
    nesting text ≤ n ↔ Shallow n ts := by
  obtain ⟨ss, hs, rfl⟩ := h 0
  exact peak_le_iff.trans hs.within_iff

/-- A source is parsed to a tree if and only if it is an infix writing of the tree whose nesting the
limit allows. -/
theorem parse_eq_ok_iff_infix {settings : Settings} {source : String} {e : Expr} :
    parse settings source = .ok e ↔
      (∃ g, Infix e g source.toList) ∧ nesting source.toList ≤ settings.limit.toNat := by
  rw [parse_eq_ok_iff_denotes]
  constructor
  · rintro ⟨ts, hts, he, hs⟩
    obtain ⟨g, hi, -⟩ := exists_infix_of_derives he hts
    exact ⟨⟨g, hi⟩, (nesting_le_iff hts).mpr hs⟩
  · rintro ⟨⟨g, hi⟩, hs⟩
    obtain ⟨ts, hts, he⟩ := @hi.exists_derives _ _ _ .sum trivial
    exact ⟨ts, hts, he, (nesting_le_iff hts).mp hs⟩

/-- The nesting that no infix writing of a tree can do without. -/
def Expr.nesting : Expr → Nat
  | number _ => 0
  | binary op lhs rhs =>
    Nat.max (lhs.nesting + (lhs.operator?.any (·.rank < op.rank)).toNat)
      (rhs.nesting + (rhs.operator?.any (·.rank ≤ op.rank)).toNat)

section Writing

variable {e : Expr} {g : Bool} {text ls rs : List Char} {d : Int}

theorem flat_symbol (op : Operator) : Flat [op.symbol] := by
  cases op <;> exact ⟨by decide, by decide⟩

theorem within_binary_iff (hl : textDepth ls = 0) (op : Operator) :
    Within textDepth d (ls ++ op.symbol :: rs) ↔ Within textDepth d ls ∧ Within textDepth d rs := by
  have hs := flat_symbol op
  rw [within_append textDepth_append, hl, Int.sub_zero, ← List.singleton_append,
    within_append textDepth_append, hs.textDepth_eq, Int.sub_zero, hs.within_iff]
  exact and_congr_right fun h => ⟨And.right, fun hr => ⟨h.nonneg rfl, hr⟩⟩

theorem within_group_iff (h : textDepth text = 0) :
    Within textDepth d ('(' :: text ++ [')']) ↔ Within textDepth (d - 1) text :=
  within_enclosed_iff textDepth_append rfl rfl h

theorem within_spaced_iff {w w' : List Char} (hw : IsSpacing w) (hw' : IsSpacing w')
    (h : textDepth text = 0) :
    Within textDepth d (w ++ text ++ w') ↔ Within textDepth d text := by
  rw [within_append textDepth_append, within_append textDepth_append, textDepth_append,
    hw.flat.within_iff, hw'.flat.within_iff, hw.flat.textDepth_eq, h]
  constructor
  · rintro ⟨⟨-, hs⟩, -⟩
    rwa [Int.sub_zero] at hs
  · intro hs
    have := hs.nonneg rfl
    exact ⟨⟨this, by rwa [Int.sub_zero]⟩, by omega⟩

theorem Infix.textDepth_eq (h : Infix e g text) : textDepth text = 0 := by
  induction h with
  | literal hd _ => exact hd.flat.textDepth_eq
  | @binary op _ _ _ _ ls rs _ _ _ _ ihl ihr =>
    have hs := (flat_symbol op).textDepth_eq
    rw [textDepth_append, ← List.singleton_append, textDepth_append]
    omega
  | group _ ih => exact (enclosed_eq textDepth_append rfl rfl).trans ih
  | spaced hw _ hw' ih =>
    have := hw.flat.textDepth_eq
    have := hw'.flat.textDepth_eq
    rw [textDepth_append, textDepth_append]
    omega

theorem toNat_any_le {o : Option Operator} {p : Operator → Bool} {g : Bool}
    (h : ∀ op ∈ o, p op = true → g = true) : (o.any p).toNat ≤ g.toNat := by
  cases ha : o.any p with
  | false => exact Nat.zero_le _
  | true =>
    obtain ⟨op, ho, hp⟩ := (Option.any_eq_true p o).mp ha
    rw [h op ho hp]

theorem Infix.nesting_le (h : Infix e g text) {n : Nat} (hn : Within textDepth n text) :
    e.nesting + g.toNat ≤ n := by
  induction h generalizing n with
  | literal => exact Nat.zero_le n
  | @binary op lhs rhs l r ls rs hl hlg _ hrg ihl ihr =>
    obtain ⟨hwl, hwr⟩ := (within_binary_iff hl.textDepth_eq op).mp hn
    have hl := ihl hwl
    have hr := ihr hwr
    have hlg := @toNat_any_le lhs.operator? (·.rank < op.rank) l (by simpa using hlg)
    have hrg := @toNat_any_le rhs.operator? (·.rank ≤ op.rank) r (by simpa using hrg)
    refine Nat.max_le.mpr ⟨?_, ?_⟩ <;> omega
  | @group e g text h ih =>
    have hw := (within_group_iff h.textDepth_eq).mp hn
    cases n with
    | zero => cases hw.nonneg rfl
    | succ n =>
      have := @ih n (by simpa using hw)
      have hg : Bool.toNat true = 1 := rfl
      omega
  | spaced hw h hw' ih => exact ih ((within_spaced_iff hw hw' h.textDepth_eq).mp hn)

/-- A tree as an operand, in parentheses if there is need of them. -/
theorem Infix.exists_operand (h : Infix e g text) {n : Nat} (hn : Within textDepth n text)
    (needed : Bool) : ∃ g' text', Infix e g' text' ∧ (needed = true → g' = true) ∧
      Within textDepth (n + needed.toNat : Nat) text' := by
  cases needed with
  | false => exact ⟨g, text, h, fun hf => (Bool.false_ne_true hf).elim, hn⟩
  | true =>
    refine ⟨true, _, h.group, fun _ => rfl, (within_group_iff h.textDepth_eq).mpr ?_⟩
    have hd : ((n + Bool.toNat true : Nat) : Int) - 1 = n := by
      rw [show Bool.toNat true = 1 from rfl]
      omega
    rwa [hd]

/-- A tree without a negative leaf has an infix writing that is nested no deeper than it must be. -/
theorem exists_infix (h : ∀ n ∈ e.leaves, 0 ≤ n.toInt) :
    ∃ g text, Infix e g text ∧ Within textDepth e.nesting text := by
  induction e with
  | number n =>
    have hn : 0 ≤ n.toInt := h n List.mem_cons_self
    have hd : IsRow (Decimal.digits n.toInt.toNat) := by
      refine ⟨Decimal.digitsOnto_ne_nil _ _, fun c hc => ?_⟩
      exact (Decimal.isDigit_of_mem_digitsOnto hc).resolve_right List.not_mem_nil
    refine ⟨false, _, .literal hd ?_, hd.flat.within_iff.mpr (Int.natCast_nonneg _)⟩
    rw [Decimal.value_digits, Int.toNat_of_nonneg hn]
  | binary op lhs rhs ihl ihr =>
    obtain ⟨l, ls, hl, hwl⟩ := ihl fun n hn => h n (List.mem_append_left _ hn)
    obtain ⟨r, rs, hr, hwr⟩ := ihr fun n hn => h n (List.mem_append_right _ hn)
    obtain ⟨l', ls', hl', hlg, hwl'⟩ :=
      hl.exists_operand hwl (lhs.operator?.any (·.rank < op.rank))
    obtain ⟨r', rs', hr', hrg, hwr'⟩ :=
      hr.exists_operand hwr (rhs.operator?.any (·.rank ≤ op.rank))
    refine ⟨false, _, .binary hl' (fun inner hi hlt => hlg ?_) hr' (fun inner hi hle => hrg ?_), ?_⟩
    · exact (Option.any_eq_true _ _).mpr ⟨inner, hi, decide_eq_true hlt⟩
    · exact (Option.any_eq_true _ _).mpr ⟨inner, hi, decide_eq_true hle⟩
    · refine (within_binary_iff hl'.textDepth_eq op).mpr ⟨hwl'.mono ?_, hwr'.mono ?_⟩
      · exact Int.ofNat_le.mpr (Nat.le_max_left _ _)
      · exact Int.ofNat_le.mpr (Nat.le_max_right _ _)

theorem Infix.leaves_nonneg (h : Infix e g text) : ∀ n ∈ e.leaves, 0 ≤ n.toInt := by
  induction h with
  | literal _ hv =>
    intro n hn
    obtain rfl := List.mem_singleton.mp hn
    rw [hv]
    exact Int.natCast_nonneg _
  | binary _ _ _ _ ihl ihr =>
    intro n hn
    rcases List.mem_append.mp hn with hn | hn
    · exact ihl n hn
    · exact ihr n hn
  | group _ ih | spaced _ _ _ ih => exact ih

theorem Expr.nesting_lt_length_leaves (e : Expr) : e.nesting < e.leaves.length := by
  induction e with
  | number n => exact Nat.one_pos
  | binary op lhs rhs ihl ihr =>
    have hl := Bool.toNat_le (lhs.operator?.any (·.rank < op.rank))
    have hr := Bool.toNat_le (rhs.operator?.any (·.rank ≤ op.rank))
    rw [nesting, leaves, List.length_append]
    refine Nat.max_lt.mpr ⟨?_, ?_⟩ <;> omega

end Writing

/-- What is parsed to a tree are its infix writings, under every limit that allows their nesting.
The trees without a negative leaf are those with such a writing; what a limit has to allow for the
sake of a tree, for some source to be parsed to it, is less than the number of its leaves. -/
theorem infix_round_trip :
    (∀ (settings : Settings) (source : String) (e : Expr), parse settings source = .ok e ↔
      (∃ g, Infix e g source.toList) ∧ nesting source.toList ≤ settings.limit.toNat) ∧
    ∀ e : Expr,
      ((∃ g text, Infix e g text) ↔ ∀ n ∈ e.leaves, 0 ≤ n.toInt) ∧
      ((∃ settings source, parse settings source = .ok e) ↔
        (∀ n ∈ e.leaves, 0 ≤ n.toInt) ∧ e.nesting < UInt64.size) ∧
      e.nesting < e.leaves.length := by
  refine ⟨fun _ _ _ => parse_eq_ok_iff_infix, fun e => ⟨⟨?_, ?_⟩, ⟨?_, ?_⟩, ?_⟩⟩
  · rintro ⟨g, text, h⟩
    exact h.leaves_nonneg
  · intro h
    obtain ⟨g, text, hi, -⟩ := exists_infix h
    exact ⟨g, text, hi⟩
  · rintro ⟨settings, source, h⟩
    obtain ⟨⟨g, hi⟩, hn⟩ := parse_eq_ok_iff_infix.mp h
    have hle := hi.nesting_le (peak_le_iff.mp hn)
    exact ⟨hi.leaves_nonneg, by have := settings.limit.toNat_lt_size; omega⟩
  · rintro ⟨h, hlt⟩
    obtain ⟨g, text, hi, hw⟩ := exists_infix h
    have hl : (Settings.mk (UInt64.ofNat e.nesting)).limit.toNat = e.nesting :=
      UInt64.toNat_ofNat_of_lt' hlt
    refine ⟨⟨UInt64.ofNat e.nesting⟩, String.ofList text, parse_eq_ok_iff_infix.mpr ?_⟩
    rw [String.toList_ofList, hl]
    exact ⟨⟨g, hi⟩, peak_le_iff.mpr hw⟩
  · exact e.nesting_lt_length_leaves

end Reckon
