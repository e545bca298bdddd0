import Reckon.Proofs.Simulation

/-! # The trees that a parse can have

A row of tokens derives a tree if and only if it takes the pushdown machine to an end with that
tree. The machine is deterministic, so there is one tree at most.
-/

namespace Reckon

open Pushdown

/-- How the machine moves on the tokens of a level. Products and sums stay open for more. -/
def Moves : Level → List Token → Expr → Prop
  | .operand, ts, e => ∀ inner outer,
      ts.foldlM shift (.wanted inner outer) = some (fill inner outer e)
  | .product, ts, e => ∀ sum? outer,
      ts.foldlM shift (.wanted ⟨sum?, none⟩ outer) = some (.complete sum? e outer)
  | .sum, ts, e => ∀ outer, ∃ sum? last,
      ts.foldlM shift (.wanted ⟨none, none⟩ outer) = some (.complete sum? last outer) ∧
        Half.fill sum? last = e

theorem Derives.moves {level : Level} {ts : List Token} {e : Expr} (h : Derives level ts e) :
    Moves level ts e := by
  induction h with
  | literal n =>
    intro inner outer
    rfl
  | group _ ih =>
    intro inner outer
    -- inside, the frame of what the group interrupts is on top of the others
    obtain ⟨sum?, last, hm, rfl⟩ := ih (inner :: outer)
    simp only [List.cons_append, List.foldlM_cons, List.foldlM_append]
    change (List.foldlM shift (.wanted ⟨none, none⟩ (inner :: outer)) _).bind _ = _
    rw [hm]
    rfl
  | operand _ ih =>
    intro sum? outer
    exact ih ⟨sum?, none⟩ outer
  | product ho _ _ ihl ihr =>
    intro sum? outer
    rw [List.foldlM_append, ihl sum? outer]
    change (shift _ _).bind _ = _
    rw [shift, if_neg (by simp [ho])]
    exact ihr ⟨sum?, some ⟨_, _⟩⟩ outer
  | term _ ih =>
    intro outer
    exact ⟨none, _, ih none outer, rfl⟩
  | sum ho _ _ ihl ihr =>
    intro outer
    obtain ⟨sum?, last, hm, rfl⟩ := ihl outer
    refine ⟨some ⟨Half.fill sum? last, _⟩, _, ?_, rfl⟩
    rw [List.foldlM_append, hm]
    change (shift _ _).bind _ = _
    rw [shift, if_pos ho]
    exact ihr (some ⟨_, _⟩) outer

def AwaitsProduct (ts : List Token) (sum? : Option Half) : Prop :=
  ∀ us e, Derives .product us e → Derives .sum (ts ++ us) (Half.fill sum? e)

def AwaitsOperand (ts : List Token) (product? : Option Half) : Prop :=
  ∀ us e, Derives .operand us e → Derives .product (ts ++ us) (Half.fill product? e)

theorem awaitsProduct_nil : AwaitsProduct [] none := fun _ _ h => .term h

theorem awaitsOperand_nil : AwaitsOperand [] none := fun _ _ h => .operand h

/-- The tokens that opened some groups and what stands in front of them. -/
inductive Opens : List Frame → List Token → Prop where

  | nil : Opens [] []

  | cons {outer : List Frame} {inner : Frame} {ts ss ps : List Token} : Opens outer ts →
      AwaitsProduct ss inner.sum? → AwaitsOperand ps inner.product? →
      Opens (inner :: outer) (ts ++ (ss ++ (ps ++ [.opening])))

/-- The tokens that lead to a state from the start. -/
inductive Reads : Pushdown → List Token → Prop where

  | wanted {inner : Frame} {outer : List Frame} {ts ss ps : List Token} : Opens outer ts →
      AwaitsProduct ss inner.sum? → AwaitsOperand ps inner.product? →
      Reads (.wanted inner outer) (ts ++ (ss ++ ps))

  | complete {sum? : Option Half} {e : Expr} {outer : List Frame} {ts ss ps : List Token} :
      Opens outer ts → AwaitsProduct ss sum? → Derives .product ps e →
      Reads (.complete sum? e outer) (ts ++ (ss ++ ps))

theorem reads_start : Reads Pushdown.start [] :=
  @Reads.wanted ⟨none, none⟩ [] [] [] [] .nil awaitsProduct_nil awaitsOperand_nil

theorem reads_fill {inner : Frame} {outer : List Frame} {ts ss ps us : List Token} {e : Expr}
    (ho : Opens outer ts) (hs : AwaitsProduct ss inner.sum?) (hp : AwaitsOperand ps inner.product?)
    (he : Derives .operand us e) : Reads (fill inner outer e) (ts ++ (ss ++ (ps ++ us))) :=
  .complete ho hs (hp us e he)

theorem Reads.shift {p next : Pushdown} {ts : List Token} {t : Token} (h : Reads p ts)
    (hs : p.shift t = some next) : Reads next (ts ++ [t]) := by
  cases h with
  | @wanted inner outer ts ss ps ho hsum hprod =>
    cases t with
    | integer n =>
      obtain rfl := Option.some.inj hs
      simpa using reads_fill ho hsum hprod (.literal n)
    | opening =>
      obtain rfl := Option.some.inj hs
      simpa using @Reads.wanted ⟨none, none⟩ _ _ [] [] (.cons ho hsum hprod) awaitsProduct_nil
        awaitsOperand_nil
    | _ => cases hs
  | @complete sum? e outer ts ss ps ho hsum he =>
    cases t with
    | operator op =>
      -- an additive operator ends the product, another one goes on with it
      by_cases hop : op.isAdditive = true
      · obtain rfl := Option.some.inj ((if_pos hop).symm.trans hs)
        have hsum' : AwaitsProduct (ss ++ (ps ++ [.operator op]))
            (some ⟨Half.fill sum? e, op⟩) := by
          intro us rhs hr
          simpa using Derives.sum hop (hsum ps e he) hr
        simpa using @Reads.wanted ⟨some _, none⟩ _ _ _ [] ho hsum' awaitsOperand_nil
      · obtain rfl := Option.some.inj ((if_neg hop).symm.trans hs)
        have hprod : AwaitsOperand (ps ++ [.operator op]) (some ⟨e, op⟩) := by
          intro us rhs hr
          simpa using Derives.product (by simpa using hop) he hr
        simpa using @Reads.wanted ⟨sum?, some _⟩ _ _ _ _ ho hsum hprod
    | closing =>
      cases ho with
      | nil => cases hs
      | cons ho hsum' hprod' =>
        obtain rfl := Option.some.inj hs
        simpa using reads_fill ho hsum' hprod' (.group (hsum ps e he))
    | _ => cases hs

theorem Reads.shifts {p p' : Pushdown} {ts us : List Token} (h : Reads p ts)
    (hs : us.foldlM Pushdown.shift p = some p') : Reads p' (ts ++ us) := by
  induction us generalizing p ts with
  | nil =>
    obtain rfl : p = p' := Option.some.inj hs
    simpa using h
  | cons t us ih =>
    obtain ⟨next, hn, hs⟩ := Option.bind_eq_some_iff.mp hs
    simpa using ih (h.shift hn) hs

theorem Reads.derives {p : Pushdown} {ts : List Token} {e : Expr} (h : Reads p ts)
    (hr : p.result? = some e) : Derives .sum ts e := by
  cases h with
  | wanted ho hsum hprod => cases hr
  | complete ho hsum he =>
    cases ho with
    | nil =>
      obtain rfl := Option.some.inj hr
      exact hsum _ _ he
    | cons => cases hr

/-- A row of tokens derives a tree if and only if the machine reads it to an end with that tree. -/
theorem derives_sum_iff {ts : List Token} {e : Expr} :
    Derives .sum ts e ↔
      ∃ p, ts.foldlM shift Pushdown.start = some p ∧ p.result? = some e := by
  constructor
  · intro h
    obtain ⟨sum?, last, hm, rfl⟩ := h.moves []
    exact ⟨_, hm, rfl⟩
  · rintro ⟨p, hm, hr⟩
    exact (reads_start.shifts hm).derives hr

theorem Derives.to_sum {level : Level} {ts : List Token} {e : Expr} (h : Derives level ts e) :
    Derives .sum ts e := by
  cases level with
  | sum => exact h
  | product => exact .term h
  | operand => exact .term (.operand h)

theorem Derives.unique {level : Level} {ts : List Token} {e e' : Expr} (h : Derives level ts e)
    (h' : Derives level ts e') : e = e' := by
  obtain ⟨p, hm, hr⟩ := derives_sum_iff.mp h.to_sum
  obtain ⟨p', hm', hr'⟩ := derives_sum_iff.mp h'.to_sum
  obtain rfl : p = p' := Option.some.inj (hm.symm.trans hm')
  exact Option.some.inj (hr.symm.trans hr')

@[simp] theorem depth_nil : depth [] = 0 := rfl

@[simp] theorem depth_opening : depth [.opening] = 1 := rfl

@[simp] theorem depth_closing : depth [.closing] = -1 := rfl

@[simp] theorem depth_integer (n : Int64) : depth [.integer n] = 0 := rfl

@[simp] theorem depth_operator (op : Operator) : depth [.operator op] = 0 := rfl

theorem depth_append (ts us : List Token) : depth (ts ++ us) = depth ts + depth us := by
  simp only [depth, List.count_append]
  omega

theorem depth_cons (t : Token) (ts : List Token) : depth (t :: ts) = depth [t] + depth ts :=
  depth_append [t] ts

theorem depth_singleton_le {t : Token} (h : t ≠ .opening) : depth [t] ≤ 0 := by
  cases t with
  | opening => exact (h rfl).elim
  | _ => simp [depth]

namespace Pushdown

def groups (p : Pushdown) : Nat := p.count.opened

theorem groups_of_shift {p next : Pushdown} {t : Token} (h : p.shift t = some next) :
    (next.groups : Int) = p.groups + depth [t] := by
  cases p with
  | wanted inner outer =>
    cases t with
    | integer n =>
      obtain rfl := Option.some.inj h
      rfl
    | opening =>
      obtain rfl := Option.some.inj h
      simp [groups, count]
    | _ => cases h
  | complete sum? e outer =>
    cases t with
    | operator op =>
      simp only [shift] at h
      split at h <;> obtain rfl := Option.some.inj h <;> simp [groups, count]
    | closing =>
      cases outer with
      | nil => cases h
      | cons inner outer =>
        obtain rfl := Option.some.inj h
        change (outer.length : Int) = ((outer.length + 1 : Nat) : Int) + depth [.closing]
        rw [depth_closing]
        omega
    | _ => cases h

theorem step_eq_ok_iff {limit : UInt64} {p next : Pushdown} {s : Spanned}
    (hp : p.groups ≤ limit.toNat) :
    p.step limit s = .ok next ↔ p.shift s.token = some next ∧ next.groups ≤ limit.toNat := by
  by_cases ho : s.token = .opening
  · cases p with
    | wanted inner outer =>
      have hs : shift (.wanted inner outer) s.token =
          some (.wanted ⟨none, none⟩ (inner :: outer)) := by
        rw [ho, shift]
      have hg : groups (.wanted ⟨none, none⟩ (inner :: outer)) = outer.length + 1 := rfl
      rw [hs, step_opening ho]
      by_cases hl : limit.toNat ≤ outer.length
      · rw [if_pos hl]
        constructor
        · intro h
          cases h
        · rintro ⟨h, hn⟩
          cases h
          omega
      · rw [if_neg hl]
        constructor
        · intro h
          cases h
          exact ⟨rfl, by omega⟩
        · rintro ⟨h, -⟩
          cases h
          rfl
    | complete sum? e outer => simp [step, shift, ho]
  · cases hs : p.shift s.token with
    | none =>
      rw [step_eq_refusal hs]
      simp
    | some q =>
      have hd := depth_singleton_le ho
      have hq := groups_of_shift hs
      rw [step_of_shift ho hs]
      constructor
      · intro h
        cases h
        exact ⟨rfl, by omega⟩
      · rintro ⟨h, -⟩
        cases h
        rfl

/-- Under a limit the machine makes the same moves, as long as no more groups are open. -/
theorem foldlM_step_eq_ok_iff {limit : UInt64} {p p' : Pushdown} {ts : List Spanned}
    (hp : p.groups ≤ limit.toNat) :
    ts.foldlM (step limit) p = .ok p' ↔ (ts.map Spanned.token).foldlM shift p = some p' ∧
      ∀ q, q <+: ts.map Spanned.token → p.groups + depth q ≤ limit.toNat := by
  have hnil : (p.groups : Int) + depth [] ≤ limit.toNat := by simpa using hp
  induction ts generalizing p with
  | nil =>
    constructor
    · intro h
      refine ⟨congrArg some (Except.ok.inj h), fun q hq => ?_⟩
      rwa [List.prefix_nil.mp hq]
    · rintro ⟨h, -⟩
      exact congrArg Except.ok (Option.some.inj h)
  | cons s ts ih =>
    constructor
    · intro h
      obtain ⟨next, hn, h⟩ := Descent.bind_eq_ok h
      obtain ⟨hs, hl⟩ := (step_eq_ok_iff hp).mp hn
      -- the groups open behind a prefix are those open now and its depth
      obtain ⟨hm, hq⟩ := (ih hl (by simpa using hl)).mp h
      refine ⟨Option.bind_eq_some_iff.mpr ⟨next, hs, hm⟩, fun q hpre => ?_⟩
      rcases List.prefix_cons_iff.mp hpre with rfl | ⟨q, rfl, htail⟩
      · exact hnil
      · have := hq q htail
        have := groups_of_shift hs
        rw [depth_cons]
        omega
    · rintro ⟨hm, hq⟩
      obtain ⟨next, hs, hm⟩ := Option.bind_eq_some_iff.mp hm
      have hg := groups_of_shift hs
      have hl : next.groups ≤ limit.toNat := by
        have := hq [s.token] (by simp)
        omega
      have hrest : ts.foldlM (step limit) next = .ok p' := by
        refine (ih hl (by simpa using hl)).mpr ⟨hm, fun q hp => ?_⟩
        have := hq (s.token :: q) (List.cons_prefix_cons.mpr ⟨rfl, hp⟩)
        rw [depth_cons] at this
        omega
      rw [List.foldlM_cons, (step_eq_ok_iff hp).mpr ⟨hs, hl⟩]
      exact hrest

theorem outcome_eq_ok_iff {limit : UInt64} {finish : Spanned} {p : Pushdown} {rs : List Reading}
    {e : Expr} :
    p.outcome limit finish rs = .ok e ↔ ∃ (ts : List Spanned) (p' : Pushdown), rs = ts.map .ok ∧
      ts.foldlM (step limit) p = .ok p' ∧ p'.result? = some e := by
  constructor
  · intro h
    induction rs generalizing p with
    | nil =>
      unfold outcome at h
      cases hr : p.result? with
      | none =>
        rw [hr] at h
        cases h
      | some e' =>
        rw [hr] at h
        cases h
        exact ⟨[], p, rfl, rfl, hr⟩
    | cons r rs ih =>
      cases r with
      | error error => cases h
      | ok s =>
        obtain ⟨next, hn, h⟩ := Descent.bind_eq_ok h
        obtain ⟨ts, p', rfl, hm, hr⟩ := ih h
        refine ⟨s :: ts, p', rfl, ?_, hr⟩
        rw [List.foldlM_cons, hn]
        exact hm
  · rintro ⟨ts, p', rfl, hm, hr⟩
    induction ts generalizing p with
    | nil =>
      obtain rfl : p = p' := Except.ok.inj hm
      rw [List.map_nil, outcome, hr]
      rfl
    | cons s ts ih =>
      obtain ⟨next, hn, hm⟩ := Descent.bind_eq_ok hm
      rw [List.map_cons, outcome, hn]
      exact ih hm

end Pushdown

/-- A source is parsed to a tree if and only if it has tokens that derive the tree, with no more
groups inside each other than the limit allows; no tokens derive two trees. -/
theorem parse_eq_ok_iff_derives (settings : Settings) (source : String) :
    (∀ e, parse settings source = .ok e ↔
      ∃ ts, tokens source = .ok ts ∧ Derives .sum (ts.map Spanned.token) e ∧
        Shallow settings.limit.toNat (ts.map Spanned.token)) ∧
    ∀ (level : Level) (ts : List Token) (e e' : Expr),
      Derives level ts e → Derives level ts e' → e = e' := by
  refine ⟨fun e => ?_, fun _ _ _ _ => Derives.unique⟩
  have hstart : Pushdown.start.groups = 0 := rfl
  rw [parse_eq_outcome, outcome_eq_ok_iff]
  constructor
  · rintro ⟨ts, p, hrs, hm, hr⟩
    obtain ⟨hm, hs⟩ := (foldlM_step_eq_ok_iff (by omega)).mp hm
    refine ⟨ts, tokens_eq_ok_iff.mpr hrs, derives_sum_iff.mpr ⟨p, hm, hr⟩, fun q hq => ?_⟩
    have := hs q hq
    omega
  · rintro ⟨ts, hts, hd, hs⟩
    obtain ⟨p, hm, hr⟩ := derives_sum_iff.mp hd
    refine ⟨ts, p, tokens_eq_ok_iff.mp hts,
      (foldlM_step_eq_ok_iff (by omega)).mpr ⟨hm, fun q hq => ?_⟩, hr⟩
    have := hs q hq
    omega

end Reckon
