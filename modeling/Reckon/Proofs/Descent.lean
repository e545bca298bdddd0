import Reckon.Descent.Lemmas
import Reckon.Proofs.Cursor

/-! # What the readers of a descent preserve

The readers call each other on states with less to read, which gives one induction for all.
-/

namespace Reckon.Descent

theorem bind_congr_ok {ε α β : Type} {x : Except ε α} {f g : α → Except ε β}
    (h : ∀ a, x = .ok a → f a = g a) : x >>= f = x >>= g := by
  cases x with
  | error _ => rfl
  | ok a => exact h a rfl

theorem bind_eq_ok {ε α β : Type} {x : Except ε α} {f : α → Except ε β} {b : β}
    (h : x >>= f = .ok b) : ∃ a, x = .ok a ∧ f a = .ok b := by
  cases x with
  | error _ => cases h
  | ok a => exact ⟨a, rfl, h⟩

theorem map_eq_ok {ε α β : Type} {x : Except ε α} {f : α → β} {b : β}
    (h : x.map f = .ok b) : ∃ a, x = .ok a ∧ f a = b := by
  cases x with
  | error _ => cases h
  | ok a => exact ⟨a, rfl, Except.ok.inj h⟩

/-- Induction along the readers: each may use what holds of those it calls. -/
theorem reader_induction {Sum Product Operand : Descent → Prop}
    {MoreTerms MoreOperands : Descent → Expr → Prop}
    (operand : ∀ d, (∀ inside, d.current.token = .opening → d.enter = .ok inside → Sum inside) →
      Operand d)
    (moreOperands : ∀ d lhs, (∀ op next, d.multiplicative? = some op → d.advance = .ok next →
        Operand next ∧ ∀ rhs behind, next.operand = .ok (rhs, behind) →
          MoreOperands (behind.record (.reduceBinary op)) (.binary op lhs rhs)) →
      MoreOperands d lhs)
    (product : ∀ d, Operand d →
      (∀ lhs next, d.operand = .ok (lhs, next) → MoreOperands next lhs) → Product d)
    (moreTerms : ∀ d lhs, (∀ op next, d.additive? = some op → d.advance = .ok next →
        Product next ∧ ∀ rhs behind, next.product = .ok (rhs, behind) →
          MoreTerms (behind.record (.reduceBinary op)) (.binary op lhs rhs)) →
      MoreTerms d lhs)
    (sum : ∀ d, Product d →
      (∀ lhs next, d.product = .ok (lhs, next) → MoreTerms next lhs) → Sum d)
    (d : Descent) :
    Sum d ∧ Product d ∧ Operand d ∧ (∀ lhs, MoreOperands d lhs) ∧ ∀ lhs, MoreTerms d lhs := by
  induction hn : d.remaining using Nat.strongRecOn generalizing d with
  | ind n ih =>
    subst hn
    have less (next : Descent) (h : next.remaining < d.remaining) := ih _ h next rfl
    have ho : Operand d := operand d fun inside ht he =>
      (less inside (remaining_lt_of_enter (by simp [ht]) he)).1
    have hmo : ∀ lhs, MoreOperands d lhs := by
      intro lhs
      refine moreOperands d lhs fun op next hop ha => ?_
      have hl := remaining_lt_of_advance (ne_finish_of_multiplicative? hop) ha
      refine ⟨(less next hl).2.2.1, fun rhs behind hr => ?_⟩
      have hr' : behind.remaining < next.remaining := remaining_lt_of_operand hr
      exact (less (behind.record (.reduceBinary op)) (Nat.lt_trans hr' hl)).2.2.2.1 _
    have hp : Product d := product d ho fun lhs next hr =>
      (less next (remaining_lt_of_operand hr)).2.2.2.1 lhs
    have hmt : ∀ lhs, MoreTerms d lhs := by
      intro lhs
      refine moreTerms d lhs fun op next hop ha => ?_
      have hl := remaining_lt_of_advance (ne_finish_of_additive? hop) ha
      refine ⟨(less next hl).2.1, fun rhs behind hr => ?_⟩
      have hr' : behind.remaining < next.remaining := remaining_lt_of_product hr
      exact (less (behind.record (.reduceBinary op)) (Nat.lt_trans hr' hl)).2.2.2.2 _
    have hs : Sum d := sum d hp fun lhs next hr =>
      (less next (remaining_lt_of_product hr)).2.2.2.2 lhs
    exact ⟨hs, hp, ho, hmo, hmt⟩

def pending (d : Descent) : List Reading :=
  if d.current.token = .finish then [] else .ok d.current :: d.cursor.upcoming

/-- At the end of the input, the current token stands there and nothing is upcoming. -/
def Coherent (d : Descent) : Prop :=
  d.current.token = .finish → d.current = d.cursor.finish ∧ d.cursor.upcoming = []

/-- A later state of the same descent, in the same group. -/
structure Keeps (d next : Descent) : Prop where
  coherent : next.Coherent
  depth : next.depth = d.depth
  limit : next.limit = d.limit
  source : next.cursor.source = d.cursor.source

theorem Keeps.trans {d d' d'' : Descent} (h : d.Keeps d') (h' : d'.Keeps d'') : d.Keeps d'' :=
  ⟨h'.coherent, h'.depth.trans h.depth, h'.limit.trans h.limit, h'.source.trans h.source⟩

theorem Keeps.record {d d' : Descent} (h : d.Keeps d') (event : ParseEvent) :
    d.Keeps (d'.record event) :=
  ⟨h.coherent, h.depth, h.limit, h.source⟩

def ahead (finish : Spanned) (rest : List Reading) : Reading := rest.head?.getD (.ok finish)

/-- `advance` takes the reading ahead for the current token, and offers it. -/
inductive Advances (d : Descent) : Except Rejection Descent → Prop where

  | fault {error : ScanError} : ahead d.cursor.finish d.cursor.upcoming = .error error →
      Advances d (.error ⟨.scan error, d.log⟩)

  | next {d' : Descent} : ahead d.cursor.finish d.cursor.upcoming = .ok d'.current →
      d'.pending = d.cursor.upcoming → d.Keeps d' → d'.log = .offer d'.current :: d.log →
      Advances d (.ok d')

theorem advances_advance (d : Descent) : d.Advances d.advance := by
  have h := d.cursor.hands_nextToken
  unfold advance
  revert h
  generalize d.cursor.nextToken = handed
  intro h
  cases h with
  | @finish cursor hu hu' hs =>
    have hf : cursor.finish = d.cursor.finish := by simp [Cursor.finish, hs]
    refine .next (by simp [hu, ahead]) (by simp [pending, Cursor.finish, hu]) ⟨?_, rfl, rfl, hs⟩ rfl
    exact fun _ => ⟨hf.symm, hu'⟩
  | @token s cursor hu hs =>
    have ht : s.token ≠ .finish := Cursor.token_ne_finish_of_mem_upcoming (by rw [hu]; simp)
    exact .next (by simp [hu, ahead]) (by simp [pending, ht, hu])
      ⟨fun hf => (ht hf).elim, rfl, rfl, hs⟩ rfl
  | fault hu hu' hs => exact .fault (by simp [hu, ahead])

theorem keeps_of_advance {d d' : Descent} (h : d.advance = .ok d') : d.Keeps d' := by
  have ha := d.advances_advance
  rw [h] at ha
  cases ha with
  | next _ _ hk _ => exact hk

theorem keeps_of_leave {d d' : Descent} (h : d.leave = .ok d') :
    d'.Coherent ∧ d'.depth = d.depth - 1 ∧ d'.limit = d.limit ∧
      d'.cursor.source = d.cursor.source := by
  obtain ⟨next, he, rfl⟩ := map_eq_ok h
  unfold expect at he
  split at he
  · obtain ⟨hc, hd, hl, hs⟩ := keeps_of_advance he
    exact ⟨hc, by simp [record, hd], hl, hs⟩
  · cases he

theorem keeps_of_enter {d d' : Descent} (h : d.enter = .ok d') :
    d.depth < d.limit ∧ d'.Coherent ∧ d'.depth = d.depth + 1 ∧ d'.limit = d.limit ∧
      d'.cursor.source = d.cursor.source := by
  unfold enter at h
  split at h
  · cases h
  · rename_i hl
    obtain ⟨hc, hd, hl', hs⟩ := keeps_of_advance h
    exact ⟨UInt64.not_le.mp hl, hc, hd, hl', hs⟩

def BehindSum (d : Descent) : Prop := d.additive? = none ∧ d.multiplicative? = none

def BehindProduct (d : Descent) : Prop := d.multiplicative? = none

/-- A result that, if there is one, is a later state in the same group with some property. -/
def Keeping (d : Descent) (Q : Descent → Prop) (result : Except Rejection (Expr × Descent)) :
    Prop :=
  ∀ e next, result = .ok (e, next) → d.Keeps next ∧ Q next

theorem Keeping.bind {d : Descent} {Q Q' : Descent → Prop}
    {result : Except Rejection (Expr × Descent)}
    {f : Expr × Descent → Except Rejection (Expr × Descent)} (h : d.Keeping Q result)
    (hf : ∀ e next, result = .ok (e, next) → d.Keeps next → Q next →
      next.Keeping Q' (f (e, next))) :
    d.Keeping Q' (result >>= f) := by
  intro e next he
  obtain ⟨⟨e', next'⟩, hr, hn⟩ := bind_eq_ok he
  obtain ⟨hk, hq⟩ := h e' next' hr
  obtain ⟨hk', hq'⟩ := hf e' next' hr hk hq e next hn
  exact ⟨hk.trans hk', hq'⟩

theorem keeping_advance {d : Descent} {Q : Descent → Prop}
    {f : Descent → Except Rejection (Expr × Descent)}
    (hf : ∀ next, d.advance = .ok next → next.Keeping Q (f next)) :
    d.Keeping Q (d.advance >>= f) := by
  intro e next he
  obtain ⟨next', ha, hn⟩ := bind_eq_ok he
  obtain ⟨hk, hq⟩ := hf next' ha e next hn
  exact ⟨(keeps_of_advance ha).trans hk, hq⟩

theorem Keeping.of_record {d : Descent} {Q : Descent → Prop} {event : ParseEvent}
    {result : Except Rejection (Expr × Descent)} (h : (d.record event).Keeping Q result) :
    d.Keeping Q result := by
  intro e next he
  obtain ⟨⟨hc, hd, hl, hs⟩, hq⟩ := h e next he
  exact ⟨⟨hc, hd, hl, hs⟩, hq⟩

theorem keeping_pure {d : Descent} {Q : Descent → Prop} (hc : d.Coherent) (hq : Q d) (e : Expr) :
    d.Keeping Q (.ok (e, d)) := by
  rintro e' next ⟨⟩
  exact ⟨⟨hc, rfl, rfl, rfl⟩, hq⟩

theorem keeping_operand {d : Descent}
    (inner : ∀ inside, d.current.token = .opening → d.enter = .ok inside →
      inside.Keeping BehindSum inside.sum) : d.Keeping (fun _ => True) d.operand := by
  intro e next h
  rw [operand_eq] at h
  split at h
  · obtain ⟨next', ha, he⟩ := map_eq_ok h
    obtain ⟨rfl, rfl⟩ := Prod.mk.inj he
    exact ⟨(keeps_of_advance ha).record _, trivial⟩
  · rename_i ht
    obtain ⟨⟨e', last⟩, hb, hm⟩ := bind_eq_ok h
    obtain ⟨inside, he, hs⟩ := bind_eq_ok hb
    obtain ⟨behind, hl, heq⟩ := map_eq_ok hm
    obtain ⟨rfl, rfl⟩ := Prod.mk.inj heq
    obtain ⟨-, -, hed, hel, hes⟩ := keeps_of_enter he
    obtain ⟨hk, -⟩ := inner inside ht he e' last hs
    obtain ⟨hc, hld, hll, hls⟩ := keeps_of_leave hl
    -- the group that was opened is the one that is closed
    have hd : behind.depth = d.depth := by rw [hld, hk.depth, hed, UInt64.add_sub_cancel]
    exact ⟨⟨hc, hd, by rw [hll, hk.limit, hel], by rw [hls, hk.source, hes]⟩, trivial⟩
  all_goals cases h

/-- Readers hand back a state in the same group, with no operator that they would go on with. -/
theorem readers_keep (d : Descent) :
    d.Keeping BehindSum d.sum ∧ d.Keeping BehindProduct d.product ∧
      d.Keeping (fun _ => True) d.operand ∧
      (∀ lhs, d.Coherent → d.Keeping BehindProduct (d.moreOperands lhs)) ∧
      ∀ lhs, d.Coherent → d.BehindProduct → d.Keeping BehindSum (d.moreTerms lhs) := by
  refine @reader_induction (fun d => d.Keeping BehindSum d.sum)
    (fun d => d.Keeping BehindProduct d.product) (fun d => d.Keeping (fun _ => True) d.operand)
    (fun d lhs => d.Coherent → d.BehindProduct → d.Keeping BehindSum (d.moreTerms lhs))
    (fun d lhs => d.Coherent → d.Keeping BehindProduct (d.moreOperands lhs))
    ?operand ?moreOperands ?product ?moreTerms ?sum d
  case operand => exact fun d inner => keeping_operand inner
  case moreOperands =>
    intro d lhs step hc
    rw [moreOperands_eq]
    split
    · rename_i ho
      exact keeping_pure hc ho lhs
    · rename_i op ho
      refine (keeping_advance fun next ha => (step op next ho ha).1).bind
        fun rhs behind hr hk _ => ?_
      obtain ⟨next, ha, hr⟩ := bind_eq_ok hr
      exact ((step op next ho ha).2 rhs behind hr hk.coherent).of_record
  case product =>
    intro d operand more
    rw [product_eq]
    exact operand.bind fun lhs next hr hk _ => more lhs next hr hk.coherent
  case moreTerms =>
    intro d lhs step hc hm
    rw [moreTerms_eq]
    split
    · rename_i ho
      exact keeping_pure hc ⟨ho, hm⟩ lhs
    · rename_i op ho
      refine (keeping_advance fun next ha => (step op next ho ha).1).bind
        fun rhs behind hr hk hb => ?_
      obtain ⟨next, ha, hr⟩ := bind_eq_ok hr
      exact ((step op next ho ha).2 rhs behind hr hk.coherent hb).of_record
  case sum =>
    intro d product more
    rw [sum_eq]
    exact product.bind fun lhs next hr hk hb => more lhs next hr hk.coherent hb

theorem keeps_of_sum {d next : Descent} {e : Expr} (h : d.sum = .ok (e, next)) :
    d.Keeps next ∧ next.BehindSum := (readers_keep d).1 e next h

theorem keeps_of_product {d next : Descent} {e : Expr} (h : d.product = .ok (e, next)) :
    d.Keeps next ∧ next.BehindProduct := (readers_keep d).2.1 e next h

theorem keeps_of_operand {d next : Descent} {e : Expr} (h : d.operand = .ok (e, next)) :
    d.Keeps next := ((readers_keep d).2.2.1 e next h).1

end Reckon.Descent
