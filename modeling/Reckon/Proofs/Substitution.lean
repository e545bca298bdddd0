import Reckon.Proofs.Evaluation
import Reckon.Proofs.Nesting
import Reckon.Proofs.Phrasing

/-! # Sources in the place of literals

A literal of a source may give way to another source in parentheses, whose tree then takes the place
of the leaf.
-/

namespace Reckon

namespace Expr

/-- Put a tree in the place of a leaf, the leaves counted from the left. -/
def replaceLeaf : Expr → Nat → Expr → Expr
  | number n, k, f => if k = 0 then f else number n
  | binary op lhs rhs, k, f =>
    if k < lhs.leaves.length then binary op (lhs.replaceLeaf k f) rhs
    else binary op lhs (rhs.replaceLeaf (k - lhs.leaves.length) f)

variable {op : Operator} {lhs rhs f : Expr} {n : Int64} {k : Nat}

theorem replaceLeaf_zero (n : Int64) (f : Expr) : (number n).replaceLeaf 0 f = f := rfl

theorem replaceLeaf_left (h : k < lhs.leaves.length) :
    (binary op lhs rhs).replaceLeaf k f = binary op (lhs.replaceLeaf k f) rhs := if_pos h

theorem replaceLeaf_right (k : Nat) :
    (binary op lhs rhs).replaceLeaf (lhs.leaves.length + k) f =
      binary op lhs (rhs.replaceLeaf k f) := by
  rw [replaceLeaf, if_neg (Nat.not_lt.mpr (Nat.le_add_right _ _)), Nat.add_sub_cancel_left]

theorem leaf_cases (h : (binary op lhs rhs).leaves[k]? = some n) :
    (k < lhs.leaves.length ∧ lhs.leaves[k]? = some n) ∨
      ∃ j, k = lhs.leaves.length + j ∧ rhs.leaves[j]? = some n := by
  rw [leaves] at h
  rcases Nat.lt_or_ge k lhs.leaves.length with hk | hk
  · rw [List.getElem?_append_left hk] at h
    exact .inl ⟨hk, h⟩
  · rw [List.getElem?_append_right hk] at h
    exact .inr ⟨k - lhs.leaves.length, by omega, h⟩

theorem value_eq_ok_iff {e : Expr} {n : Int64} :
    e.value = .ok n ↔ e.fault? = none ∧ e.exact = n.toInt := by
  rw [value_eq]
  cases h : e.fault? with
  | some f => simp
  | none =>
    have hr := toInt_ofInt_of_inRange (inRange_exact h)
    simp only [Except.ok.injEq, true_and, ← Int64.toInt_inj, hr]

/-- A leaf may give way to a tree with the same exact value and no fault. -/
theorem exact_fault?_replaceLeaf {e : Expr} (he : e.leaves[k]? = some n) (hf : f.fault? = none)
    (hv : f.exact = n.toInt) :
    (e.replaceLeaf k f).exact = e.exact ∧ (e.replaceLeaf k f).fault? = e.fault? := by
  induction e generalizing k with
  | number m =>
    obtain ⟨hk, rfl⟩ : k = 0 ∧ m = n := by
      cases k with
      | zero => exact ⟨rfl, Option.some.inj he⟩
      | succ k => cases he
    rw [hk, replaceLeaf_zero]
    exact ⟨hv, hf⟩
  | binary op lhs rhs ihl ihr =>
    rcases leaf_cases he with ⟨hk, hl⟩ | ⟨j, rfl, hr⟩
    · obtain ⟨hexact, hfault⟩ := ihl hl
      rw [replaceLeaf_left hk, exact, exact, fault?, fault?, hexact, hfault]
      exact ⟨rfl, rfl⟩
    · obtain ⟨hexact, hfault⟩ := ihr hr
      rw [replaceLeaf_right, exact, exact, fault?, fault?, hexact, hfault]
      exact ⟨rfl, rfl⟩

theorem value_replaceLeaf {e : Expr} (he : e.leaves[k]? = some n) (hf : f.value = .ok n) :
    (e.replaceLeaf k f).value = e.value := by
  obtain ⟨hfault, hexact⟩ := value_eq_ok_iff.mp hf
  obtain ⟨hexact, hfault⟩ := exact_fault?_replaceLeaf he hfault hexact
  rw [value_eq, value_eq, hexact, hfault]

end Expr

section Tokens

variable {level : Level} {ps qs ts us : List Token} {e f : Expr} {n : Int64}

def literals (ts : List Token) : Nat := ts.countP (·.value?.isSome)

theorem literals_append (ts us : List Token) : literals (ts ++ us) = literals ts + literals us :=
  List.countP_append

theorem Derives.length_leaves (h : Derives level ts e) : e.leaves.length = literals ts := by
  rw [h.leaves_eq, List.length_filterMap_eq_countP, literals]

theorem Derives.leaf_eq (h : Derives level (ps ++ .integer n :: qs) e) :
    e.leaves[literals ps]? = some n := by
  have hp : (ps.filterMap Token.value?).length = literals ps :=
    List.length_filterMap_eq_countP
  have hn : Token.value? (.integer n) = some n := rfl
  rw [h.leaves_eq, List.filterMap_append, List.filterMap_cons_some hn, ← hp,
    List.getElem?_append_right (Nat.le_refl _), Nat.sub_self, List.getElem?_cons_zero]

/-- Two different entries of a row stand one behind the other. -/
theorem append_cons_eq_append_cons {α : Type} {xs ys ps qs : List α} {t u : α}
    (h : xs ++ t :: ys = ps ++ u :: qs) (hne : t ≠ u) :
    (∃ rs, xs = ps ++ u :: rs ∧ qs = rs ++ t :: ys) ∨
      ∃ rs, ps = xs ++ t :: rs ∧ ys = rs ++ u :: qs := by
  rcases List.append_eq_append_iff.mp h with ⟨as, rfl, ht⟩ | ⟨as, rfl, hu⟩
  · cases as with
    | nil => exact (hne (List.cons.inj ht).1).elim
    | cons a as =>
      obtain ⟨rfl, rfl⟩ := List.cons.inj ht
      exact .inr ⟨as, rfl, rfl⟩
  · cases as with
    | nil => exact (hne (List.cons.inj hu).1.symm).elim
    | cons a as =>
      obtain ⟨rfl, rfl⟩ := List.cons.inj hu
      exact .inl ⟨as, rfl, rfl⟩

theorem operand_cases {ls rs : List Token} {op : Operator} {lhs rhs : Expr}
    (h : ps ++ .integer n :: qs = ls ++ .operator op :: rs)
    (hl : lhs.leaves.length = literals ls) (f : Expr) :
    (∃ ms, ls = ps ++ .integer n :: ms ∧ qs = ms ++ .operator op :: rs ∧
      (Expr.binary op lhs rhs).replaceLeaf (literals ps) f =
        .binary op (lhs.replaceLeaf (literals ps) f) rhs) ∨
    ∃ ms, ps = ls ++ .operator op :: ms ∧ rs = ms ++ .integer n :: qs ∧
      (Expr.binary op lhs rhs).replaceLeaf (literals ps) f =
        .binary op lhs (rhs.replaceLeaf (literals ms) f) := by
  rcases append_cons_eq_append_cons h.symm (by simp) with ⟨ms, rfl, rfl⟩ | ⟨ms, rfl, rfl⟩
  · have hlt : literals ps < lhs.leaves.length := by
      have hn : literals (.integer n :: ms) = literals ms + 1 := List.countP_cons_of_pos rfl
      rw [hl, literals_append]
      omega
    exact .inl ⟨ms, rfl, rfl, Expr.replaceLeaf_left hlt⟩
  · have hk : literals (ls ++ .operator op :: ms) = lhs.leaves.length + literals ms := by
      rw [hl, literals_append]
      rfl
    exact .inr ⟨ms, rfl, rfl, by rw [hk, Expr.replaceLeaf_right]⟩

/-- What derives an operand may stand in the place of a literal. -/
theorem Derives.replace (h : Derives level (ps ++ .integer n :: qs) e)
    (hf : Derives .operand us f) :
    Derives level (ps ++ (us ++ qs)) (e.replaceLeaf (literals ps) f) := by
  generalize hts : ps ++ .integer n :: qs = ts at h
  induction h generalizing ps qs with
  | literal m =>
    cases ps with
    | nil =>
      obtain ⟨-, rfl⟩ := List.cons.inj hts
      simpa [literals, Expr.replaceLeaf] using hf
    | cons t ps =>
      cases ps <;> cases (List.cons.inj hts).2
  | @group ts e _ ih =>
    -- the literal stands between the parentheses
    rcases append_cons_eq_append_cons hts.symm (by simp) with ⟨ms, hms, rfl⟩ | ⟨ms, rfl, hms⟩
    · rcases @append_cons_eq_append_cons _ [] ts ps ms _ _ hms (by simp) with
        ⟨_, hn, -⟩ | ⟨ps, rfl, rfl⟩
      · cases ps <;> cases hn
      · have hg := Derives.group (ih rfl)
        simpa [literals, List.countP_cons, Token.value?] using hg
    · cases ms <;> cases hms
  | operand _ ih => exact .operand (ih hts)
  | term _ ih => exact .term (ih hts)
  | product ho hl hr ihl ihr =>
    rcases operand_cases hts hl.length_leaves f with ⟨ms, rfl, rfl, he⟩ | ⟨ms, rfl, rfl, he⟩
    · rw [he]
      simpa using Derives.product ho (ihl rfl) hr
    · rw [he]
      simpa using Derives.product ho hl (ihr rfl)
  | sum ho hl hr ihl ihr =>
    rcases operand_cases hts hl.length_leaves f with ⟨ms, rfl, rfl, he⟩ | ⟨ms, rfl, rfl, he⟩
    · rw [he]
      simpa using Derives.sum ho (ihl rfl) hr
    · rw [he]
      simpa using Derives.sum ho hl (ihr rfl)

theorem Derives.depth_eq (h : Derives level ts e) : depth ts = 0 := by
  induction h with
  | literal n => rfl
  | group _ ih => exact (enclosed_eq depth_append rfl rfl).trans ih
  | operand _ ih | term _ ih => exact ih
  | product _ _ _ ihl ihr | sum _ _ _ ihl ihr =>
    rw [depth_append, depth_cons, depth_operator, ihl, ihr]
    rfl

/-- A group in the place of a literal adds its own nesting to that in front of the literal. -/
theorem Shallow.replace {d d' limit : Nat} (h : Shallow d (ps ++ .integer n :: qs))
    (hts : Shallow d' ts) (hd : depth ts = 0) (hl : d + d' + 1 ≤ limit) :
    Shallow limit (ps ++ ((.opening :: ts ++ [.closing]) ++ qs)) := by
  have hg : depth (.opening :: ts ++ [.closing]) = 0 := (enclosed_eq depth_append rfl rfl).trans hd
  obtain ⟨hp, hrest⟩ := (within_append depth_append).mp h
  have hq : Within depth (d - depth ps) qs := by
    have hnq : Within depth (d - depth ps) ([.integer n] ++ qs) := hrest
    rw [within_append depth_append, depth_integer, Int.sub_zero] at hnq
    exact hnq.2
  have hle := hq.nonneg rfl
  refine (within_append depth_append).mpr ⟨hp.mono (by omega), ?_⟩
  rw [within_append depth_append, within_enclosed_iff depth_append rfl rfl hd, hg, Int.sub_zero]
  exact ⟨Within.mono hts (by omega), hq.mono (by omega)⟩

end Tokens

theorem Denotes.around_isRow {p ds q : List Char} {ts : List Token} (h : Denotes (p ++ ds ++ q) ts)
    (hd : IsRow ds) (hp : ¬ EndsWithDigit p) (hq : ¬ StartsWithDigit q) :
    ∃ (ps qs : List Token) (n : Int64), ts = ps ++ .integer n :: qs ∧
      n.toInt = Decimal.value ds ∧ Denotes p ps ∧ Denotes q qs := by
  rw [List.append_assoc] at h
  obtain ⟨ps, _, rfl, hps, h⟩ := h.cut fun he => (hp he).elim
  obtain ⟨_, qs, rfl, hds, hqs⟩ := h.cut fun _ => hq
  obtain ⟨n, rfl, hn⟩ := hds.of_isRow hd
  exact ⟨ps, qs, n, rfl, hn, hps, hqs⟩

/-- A source in parentheses may take the place of a literal, under every limit with room for the
nesting of the two. Its tree takes the place of the leaf, and the value or the error stays the same
if the other source is worth the literal. -/
theorem parse_replace_literal {d d' limit : UInt64} {p ds q s : String} {e f : Expr}
    (hds : IsRow ds.toList) (hp : ¬ EndsWithDigit p.toList) (hq : ¬ StartsWithDigit q.toList)
    (he : parse ⟨d⟩ (p ++ ds ++ q) = .ok e) (hf : parse ⟨d'⟩ s = .ok f)
    (hl : d.toNat + d'.toNat + 1 ≤ limit.toNat) :
    ∃ (ts : List Spanned) (n : Int64), tokens p = .ok ts ∧ n.toInt = Decimal.value ds.toList ∧
      e.leaves[literals (ts.map Spanned.token)]? = some n ∧
      parse ⟨limit⟩ (p ++ "(" ++ s ++ ")" ++ q) =
        .ok (e.replaceLeaf (literals (ts.map Spanned.token)) f) ∧
      (f.value = .ok n → run ⟨limit⟩ (p ++ "(" ++ s ++ ")" ++ q) = run ⟨d⟩ (p ++ ds ++ q)) := by
  obtain ⟨_, hts, he', hshallow⟩ := parse_eq_ok_iff_denotes.mp he
  obtain ⟨us, hus, hf', hshallow'⟩ := parse_eq_ok_iff_denotes.mp hf
  rw [String.toList_append, String.toList_append] at hts
  obtain ⟨_, qs, n, rfl, hn, hps, hqs⟩ := hts.around_isRow hds hp hq
  obtain ⟨ts, hspells, rfl⟩ := hps 0
  have hleaf := he'.leaf_eq
  have htext : (p ++ "(" ++ s ++ ")" ++ q).toList =
      p.toList ++ '(' :: (s.toList ++ ')' :: q.toList) := by
    simp
  have hparse : parse ⟨limit⟩ (p ++ "(" ++ s ++ ")" ++ q) =
      .ok (e.replaceLeaf (literals (ts.map Spanned.token)) f) := by
    have hgroup := denotes_append_symbol hus (t := .closing) rfl hqs
    have hnew := denotes_append_symbol hps (t := .opening) rfl hgroup
    refine parse_eq_ok_iff_denotes.mpr ⟨_, htext ▸ hnew, ?_, ?_⟩
    · simpa using he'.replace hf'.group
    · simpa using hshallow.replace hshallow' hf'.depth_eq hl
  refine ⟨ts, n, tokens_eq_ok_iff.mpr (spells_iff.mp hspells), hn, hleaf, hparse, fun hv => ?_⟩
  rw [run_eq, run_eq, hparse, he]
  exact congrArg (Except.mapError Failure.eval) (Expr.value_replaceLeaf hleaf hv)

theorem parse_replace_factor :
    parse ⟨1⟩ ("1+" ++ "02" ++ "*(3)") =
        .ok (.binary .add (.number 1) (.binary .mul (.number 2) (.number 3))) ∧
      parse ⟨1⟩ "(4-2)" = .ok (.binary .sub (.number 4) (.number 2)) ∧
      parse ⟨3⟩ ("1+" ++ "(" ++ "(4-2)" ++ ")" ++ "*(3)") =
        .ok (.binary .add (.number 1)
          (.binary .mul (.binary .sub (.number 4) (.number 2)) (.number 3))) ∧
      run ⟨3⟩ ("1+" ++ "(" ++ "(4-2)" ++ ")" ++ "*(3)") = run ⟨1⟩ ("1+" ++ "02" ++ "*(3)") := by
  have hds : IsRow "02".toList := ⟨by decide, List.all_eq_true.mp rfl⟩
  have hp : ¬ EndsWithDigit "1+".toList := by
    rintro ⟨c, hc, hd⟩
    obtain rfl := Option.some.inj hc
    cases hd
  have hq : ¬ StartsWithDigit "*(3)".toList := by
    rintro ⟨c, hc, hd⟩
    obtain rfl := Option.some.inj hc
    cases hd
  have he : parse ⟨1⟩ ("1+" ++ "02" ++ "*(3)") =
      .ok (.binary .add (.number 1) (.binary .mul (.number 2) (.number 3))) := by decide +kernel
  have hf : parse ⟨1⟩ "(4-2)" = .ok (.binary .sub (.number 4) (.number 2)) := by decide +kernel
  obtain ⟨ts, n, hts, hn, -, hparse, hrun⟩ :=
    @parse_replace_literal 1 1 3 _ _ _ _ _ _ hds hp hq he hf (by decide)
  have hts' : tokens "1+" = .ok [⟨0, .integer 1, 1⟩, ⟨1, .operator .add, 2⟩] := by decide +kernel
  obtain rfl := Except.ok.inj (hts'.symm.trans hts)
  obtain rfl : 2 = n := Int64.toInt_inj.mp hn.symm
  exact ⟨he, hf, hparse, hrun (by decide +kernel)⟩

end Reckon
