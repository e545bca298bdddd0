import Mathlib.Logic.Relation
import Reckon.Proofs.Replay
import Reckon.Proofs.Substitution

/-! # Accounting for the depth of a descent

Wherever a descent enters or leaves a reader, its depth is the number of groups opened and not
closed by the tokens read so far, and within the limit.
-/

namespace Reckon

inductive Reader where
  | sum
  | product
  | operand
  deriving DecidableEq, Repr

namespace Reader

def read : Reader → Descent → Except Rejection (Expr × Descent)
  | sum => Descent.sum
  | product => Descent.product
  | operand => Descent.operand

def rank : Reader → Nat
  | sum => 2
  | product => 1
  | operand => 0

/-- The tokens that a reader never stops in front of. -/
def Continues : Reader → Token → Prop
  | sum, token => ∃ op, token = .operator op
  | product, token => token = .operator .mul ∨ token = .operator .div
  | operand, _ => False

end Reader

namespace Descent

variable {d d' next behind : Descent} {source : String} {limit : UInt64}

/-- The states in which a reader that repeats a part looks for an operator. -/
inductive Rounds (part : Reader) (operator? : Descent → Option Operator) (d : Descent) :
    Descent → Prop where

  | first {e : Expr} {next : Descent} : part.read d = .ok (e, next) →
      Rounds part operator? d next

  | again {e : Expr} {op : Operator} {next behind last : Descent} :
      Rounds part operator? d next → operator? next = some op → next.advance = .ok behind →
      part.read behind = .ok (e, last) → Rounds part operator? d (last.record (.reduceBinary op))

/-- The calls of the readers on each other, each with the state in which it is made. -/
inductive Calls : Reader × Descent → Reader × Descent → Prop where

  | product {d : Descent} : Calls (.sum, d) (.product, d)

  | nextProduct {op : Operator} {d next behind : Descent} : Rounds .product additive? d next →
      next.additive? = some op → next.advance = .ok behind → Calls (.sum, d) (.product, behind)

  | operand {d : Descent} : Calls (.product, d) (.operand, d)

  | nextOperand {op : Operator} {d next behind : Descent} :
      Rounds .operand multiplicative? d next → next.multiplicative? = some op →
      next.advance = .ok behind → Calls (.product, d) (.operand, behind)

  | group {d inside : Descent} : d.current.token = .opening → d.enter = .ok inside →
      Calls (.operand, d) (.sum, inside)

theorem remaining_lt_of_read {r : Reader} {e : Expr} (h : r.read d = .ok (e, next)) :
    next.remaining < d.remaining := by
  cases r with
  | sum => exact remaining_lt_of_sum h
  | product => exact remaining_lt_of_product h
  | operand => exact remaining_lt_of_operand h

theorem Rounds.remaining_lt {part : Reader} {operator? : Descent → Option Operator}
    (ho : ∀ d op, operator? d = some op → d.current.token ≠ .finish)
    (h : Rounds part operator? d next) : next.remaining < d.remaining := by
  induction h with
  | first hr => exact remaining_lt_of_read hr
  | again _ hop ha hr ih =>
    exact (remaining_lt_of_read hr).trans
      ((remaining_lt_of_advance (ho _ _ hop) ha).trans ih)

/-- A loop that returns has gone through its rounds, to one where no operator follows. -/
theorem Rounds.of_more {part : Reader} {operator? : Descent → Option Operator}
    {more : Descent → Expr → Except Rejection (Expr × Descent)}
    (hmore : ∀ d lhs, more d lhs =
      match operator? d with
      | none => .ok (lhs, d)
      | some op => d.advance >>= part.read >>= fun (rhs, last) =>
          more (last.record (.reduceBinary op)) (.binary op lhs rhs))
    (ho : ∀ d op, operator? d = some op → d.current.token ≠ .finish)
    {lhs e : Expr} (hr : Rounds part operator? d next) (h : more next lhs = .ok (e, d')) :
    Rounds part operator? d d' ∧ operator? d' = none := by
  induction hn : next.remaining using Nat.strongRecOn generalizing next lhs with
  | ind n ih =>
    subst hn
    rw [hmore] at h
    split at h
    · rename_i hop
      cases h
      exact ⟨hr, hop⟩
    · rename_i op hop
      obtain ⟨⟨rhs, last⟩, hp, hm⟩ := bind_eq_ok h
      obtain ⟨behind, ha, hp⟩ := bind_eq_ok hp
      have hlt := (remaining_lt_of_read hp).trans (remaining_lt_of_advance (ho _ _ hop) ha)
      exact ih _ hlt (hr.again hop ha hp) hm rfl

theorem rounds_of_sum {e : Expr} (h : d.sum = .ok (e, next)) :
    Rounds .product additive? d next ∧ next.additive? = none := by
  rw [sum_eq] at h
  obtain ⟨⟨lhs, first⟩, hp, hm⟩ := bind_eq_ok h
  exact Rounds.of_more moreTerms_eq (fun _ _ => ne_finish_of_additive?) (.first hp) hm

theorem rounds_of_product {e : Expr} (h : d.product = .ok (e, next)) :
    Rounds .operand multiplicative? d next ∧ next.multiplicative? = none := by
  rw [product_eq] at h
  obtain ⟨⟨lhs, first⟩, hp, hm⟩ := bind_eq_ok h
  exact Rounds.of_more moreOperands_eq (fun _ _ => ne_finish_of_multiplicative?) (.first hp) hm

/-- Every call lowers the tokens that remain, or keeps them and lowers the rank. -/
theorem Calls.lt {r r' : Reader} (h : Calls (r, d) (r', d')) :
    3 * d'.remaining + r'.rank < 3 * d.remaining + r.rank := by
  cases h with
  | product | operand => simp [Reader.rank]
  | nextProduct hr hop ha =>
    have := hr.remaining_lt fun _ _ => ne_finish_of_additive?
    have := remaining_lt_of_advance (ne_finish_of_additive? hop) ha
    simp only [Reader.rank]
    omega
  | nextOperand hr hop ha =>
    have := hr.remaining_lt fun _ _ => ne_finish_of_multiplicative?
    have := remaining_lt_of_advance (ne_finish_of_multiplicative? hop) ha
    simp only [Reader.rank]
    omega
  | group ht he =>
    have := remaining_lt_of_enter (by simp [ht]) he
    simp only [Reader.rank]
    omega

theorem wellFounded_calls : WellFounded fun x y => Calls y x :=
  Subrelation.wf (fun {_ _} h => Calls.lt h)
    (measure fun x : Reader × Descent => 3 * x.2.remaining + x.1.rank).wf

/-- The depth of a state counts the groups open in the tokens read, and is within the limit. -/
structure Accounted (source : String) (limit : UInt64) (d : Descent) : Prop where
  source_eq : d.cursor.source = source
  limit_eq : d.limit = limit
  depth_le : d.depth ≤ limit
  depth_eq : ∃ ts : List Spanned, readings 0 source.toList = ts.map .ok ++ d.pending ∧
    (d.depth.toNat : Int) = Reckon.depth (ts.map Spanned.token)

/-- A state in the same group as another one, with tokens in between. -/
structure Behind (d next : Descent) : Prop where
  source_eq : next.cursor.source = d.cursor.source
  limit_eq : next.limit = d.limit
  depth_eq : next.depth = d.depth
  consumed : ∃ ts : List Spanned, ts ≠ [] ∧ d.pending = ts.map .ok ++ next.pending

namespace Accounted

theorem of_passes {ts : List Spanned} {es : List ParseEvent} (h : d.Accounted source limit)
    (hp : d.Passes ts es next) (hs : next.cursor.source = d.cursor.source)
    (hl : next.limit = d.limit) (hle : next.depth ≤ limit)
    (hd : (next.depth.toNat : Int) = d.depth.toNat + Reckon.depth (ts.map Spanned.token)) :
    next.Accounted source limit where
  source_eq := hs.trans h.source_eq
  limit_eq := hl.trans h.limit_eq
  depth_le := hle
  depth_eq := by
    obtain ⟨us, hus, hdepth⟩ := h.depth_eq
    refine ⟨us ++ ts, ?_, ?_⟩
    · rw [hus, hp.pending, List.map_append, List.append_assoc]
    · rw [hd, hdepth, List.map_append, depth_append]

theorem of_keeps {ts : List Spanned} {es : List ParseEvent} (h : d.Accounted source limit)
    (hp : d.Passes ts es next) (hk : d.Keeps next)
    (hd : Reckon.depth (ts.map Spanned.token) = 0) : next.Accounted source limit :=
  h.of_passes hp hk.source hk.limit (hk.depth ▸ h.depth_le)
    (by rw [hk.depth, hd, Int.add_zero])

theorem advance {op : Operator} (h : d.Accounted source limit)
    (ht : d.current.token = .operator op) (ha : d.advance = .ok next) :
    next.Accounted source limit :=
  h.of_keeps (passes_advance (by simp [ht]) ha) (keeps_of_advance ha)
    (by rw [List.map_singleton, ht, depth_operator])

theorem record (h : d.Accounted source limit) (event : ParseEvent) :
    (d.record event).Accounted source limit := ⟨h.source_eq, h.limit_eq, h.depth_le, h.depth_eq⟩

theorem enter (h : d.Accounted source limit) (ht : d.current.token = .opening)
    (he : d.enter = .ok next) : next.Accounted source limit := by
  have hd := toNat_depth_enter he
  obtain ⟨hlt, -, -, hl, hs⟩ := keeps_of_enter he
  refine h.of_passes (passes_enter ht he) hs hl ?_ ?_
  · rw [UInt64.le_iff_toNat_le, hd, ← h.limit_eq]
    exact UInt64.lt_iff_toNat_lt.mp hlt
  · rw [hd, List.map_singleton, ht, depth_opening]
    rfl

end Accounted

theorem exists_phrase_of_read {r : Reader} {e : Expr} (h : r.read d = .ok (e, next)) :
    d.Keeps next ∧ ∃ ts es, d.Passes ts es next ∧ ts ≠ [] ∧
      Reckon.depth (ts.map Spanned.token) = 0 := by
  have hread (level : Level) (hl : ∃ ts es, d.Passes ts es next ∧ Logs level ts e next.current es) :
      ∃ ts es, d.Passes ts es next ∧ ts ≠ [] ∧ Reckon.depth (ts.map Spanned.token) = 0 := by
    obtain ⟨ts, es, hp, hlogs⟩ := hl
    exact ⟨ts, es, hp, hlogs.ne_nil, hlogs.derives.depth_eq⟩
  obtain ⟨hsum, hproduct, hoperand, -⟩ := readers_log d
  cases r with
  | sum => exact ⟨(keeps_of_sum h).1, hread .sum (hsum e next h)⟩
  | product => exact ⟨(keeps_of_product h).1, hread .product (hproduct e next h)⟩
  | operand => exact ⟨keeps_of_operand h, hread .operand (hoperand e next h)⟩

theorem Accounted.read {r : Reader} {e : Expr} (h : d.Accounted source limit)
    (hr : r.read d = .ok (e, next)) : next.Accounted source limit := by
  obtain ⟨hk, ts, es, hp, -, hd⟩ := exists_phrase_of_read hr
  exact h.of_keeps hp hk hd

theorem behind_of_read {r : Reader} {e : Expr} (h : r.read d = .ok (e, next)) : d.Behind next := by
  obtain ⟨hk, ts, es, hp, hne, -⟩ := exists_phrase_of_read h
  exact ⟨hk.source, hk.limit, hk.depth, ts, hne, hp.pending⟩

theorem Rounds.behindProduct (h : Rounds .product additive? d next) : next.BehindProduct := by
  cases h with
  | first hr => exact (rounds_of_product hr).2
  | again _ _ _ hr => exact (rounds_of_product hr).2

theorem not_continues_of_read {r : Reader} {e : Expr} (h : r.read d = .ok (e, next)) :
    ¬ r.Continues next.current.token := by
  cases r with
  | sum =>
    obtain ⟨hr, ha⟩ := rounds_of_sum h
    have hb : next.BehindSum := ⟨ha, hr.behindProduct⟩
    rintro ⟨op, ht⟩
    exact hb.ne_operator op ht
  | product =>
    obtain ⟨-, hm⟩ := rounds_of_product h
    rintro (ht | ht) <;> simp [multiplicative?, Token.operator?, ht, Operator.isAdditive] at hm
  | operand => exact id

theorem Accounted.round {part : Reader} {operator? : Descent → Option Operator}
    (ho : ∀ d op, operator? d = some op → d.current.token = .operator op)
    (h : d.Accounted source limit) (hr : Rounds part operator? d next) :
    next.Accounted source limit := by
  induction hr with
  | first hr => exact h.read hr
  | again _ hop ha hr ih => exact ((ih.advance (ho _ _ hop) ha).read hr).record _

theorem Accounted.call {r r' : Reader} (h : d.Accounted source limit)
    (hc : Calls (r, d) (r', d')) : d'.Accounted source limit := by
  cases hc with
  | product | operand => exact h
  | nextProduct hr hop ha =>
    exact (h.round (fun _ _ => fun h => (token_of_additive? h).1) hr).advance
      (token_of_additive? hop).1 ha
  | nextOperand hr hop ha =>
    exact (h.round (fun _ _ => fun h => (token_of_multiplicative? h).1) hr).advance
      (token_of_multiplicative? hop).1 ha
  | group ht he => exact h.enter ht he

theorem Accounted.calls {x y : Reader × Descent} (h : x.2.Accounted source limit)
    (hc : Relation.ReflTransGen Calls x y) : y.2.Accounted source limit := by
  induction hc with
  | refl => exact h
  | tail _ hc ih => exact ih.call hc

theorem source_start (h : start source limit = .ok d) : d.cursor.source = source := by
  have hands := (Cursor.start source).hands_nextToken
  unfold start at h
  revert h hands
  generalize (Cursor.start source).nextToken = handed
  intro h hands
  cases hands with
  | fault => cases h
  | finish _ _ hs | token _ hs =>
    obtain rfl := Except.ok.inj h
    exact hs

theorem accounted_start (h : start source limit = .ok d) : d.Accounted source limit := by
  rcases start_eq source limit with ⟨error, he, -⟩ | ⟨first, hf, ⟨-, hd⟩, -, hl, -, hp⟩
  · cases he.symm.trans h
  · obtain rfl := Except.ok.inj (hf.symm.trans h)
    have hzero : first.depth.toNat = 0 := hd
    refine ⟨source_start h, hl, ?_, [], hp.symm, ?_⟩
    · rw [UInt64.le_iff_toNat_le, hzero]
      exact Nat.zero_le _
    · rw [hzero]
      rfl

theorem toNat_depth_add_one (h : d.depth < d.limit) :
    (d.depth + 1).toNat = d.depth.toNat + 1 ∧ d.depth.toNat + 1 ≤ d.limit.toNat := by
  have hlt := UInt64.lt_iff_toNat_lt.mp h
  have hsize := d.limit.toNat_lt
  refine ⟨?_, hlt⟩
  rw [UInt64.toNat_add, UInt64.toNat_one, Nat.mod_eq_of_lt (by omega)]

theorem toNat_depth_leave (h : d.leave = .ok next) (hpos : 0 < d.depth.toNat) :
    next.depth.toNat + 1 = d.depth.toNat := by
  obtain ⟨-, hd, -⟩ := keeps_of_leave h
  have hone : (1 : UInt64) ≤ d.depth := UInt64.le_iff_toNat_le.mpr hpos
  rw [hd, UInt64.toNat_sub_of_le _ _ hone, UInt64.toNat_one, Nat.sub_add_cancel hpos]

/-- The depth of a descent counts its open groups. In every call of a reader, and behind every
reader that returns, it accounts for the tokens read and is within the limit, so the counter neither
passes its range nor falls below zero. -/
theorem depth_accounted (source : String) (limit : UInt64) :
    (WellFounded fun x y => Calls y x) ∧
    ∀ first, start source limit = .ok first → ∀ r d,
      Relation.ReflTransGen Calls (.sum, first) (r, d) →
      d.Accounted source limit ∧
      (∀ e next, r.read d = .ok (e, next) →
        next.Accounted source limit ∧ d.Behind next ∧ ¬ r.Continues next.current.token) ∧
      (r = .operand → d.current.token = .opening → d.depth < d.limit →
        (d.depth + 1).toNat = d.depth.toNat + 1 ∧ d.depth.toNat + 1 ≤ d.limit.toNat) ∧
      ∀ inside e next, r = .operand → d.current.token = .opening → d.enter = .ok inside →
        inside.sum = .ok (e, next) → 0 < next.depth.toNat ∧
          ∀ behind, next.leave = .ok behind → behind.depth.toNat + 1 = next.depth.toNat := by
  refine ⟨wellFounded_calls, fun first hfirst r d hcalls => ?_⟩
  have hd : d.Accounted source limit := (accounted_start hfirst).calls hcalls
  refine ⟨hd, fun e next hr => ⟨hd.read hr, behind_of_read hr, not_continues_of_read hr⟩,
    fun _ _ hlt => toNat_depth_add_one hlt, fun inside e next _ _ he hs => ?_⟩
  have hpos : 0 < next.depth.toNat := by
    rw [(keeps_of_sum hs).1.depth, toNat_depth_enter he]
    exact Nat.succ_pos _
  exact ⟨hpos, fun behind hl => toNat_depth_leave hl hpos⟩

theorem depth_accounted_group : ∃ first inside next e,
    start "(1+2)*3" 1 = .ok first ∧ first.current.token = .opening ∧ first.depth < first.limit ∧
    first.enter = .ok inside ∧ Relation.ReflTransGen Calls (.sum, first) (.sum, inside) ∧
    inside.Accounted "(1+2)*3" 1 ∧ inside.depth = 1 ∧ inside.sum = .ok (e, next) ∧
    next.Accounted "(1+2)*3" 1 ∧ inside.Behind next ∧ 0 < next.depth.toNat := by
  let first : Descent := ⟨⟨"(1+2)*3", "1+2)*3".toList, 1, false⟩, ⟨0, .opening, 1⟩, 0, 1, []⟩
  let inside : Descent := ⟨⟨"(1+2)*3", "+2)*3".toList, 2, false⟩, ⟨1, .integer 1, 2⟩, 1, 1,
    [.offer ⟨1, .integer 1, 2⟩]⟩
  have hstart : start "(1+2)*3" 1 = .ok first := rfl
  have henter : first.enter = .ok inside := rfl
  have hoperand : Relation.ReflTransGen Calls (.sum, first) (.operand, first) :=
    (Relation.ReflTransGen.single .product).tail .operand
  have hcalls := hoperand.tail (.group rfl henter)
  obtain ⟨e, next, hsum⟩ : ∃ e next, inside.sum = .ok (e, next) := by
    have hok : inside.sum.isOk = true := by decide +kernel
    cases h : inside.sum with
    | ok result => exact ⟨result.1, result.2, rfl⟩
    | error rejection =>
      rw [h] at hok
      cases hok
  obtain ⟨-, haccounted⟩ := depth_accounted "(1+2)*3" 1
  obtain ⟨hin, hreturn, -⟩ := haccounted first hstart _ _ hcalls
  obtain ⟨-, -, -, hleave⟩ := haccounted first hstart _ _ hoperand
  obtain ⟨hnext, hbehind, -⟩ := hreturn e next hsum
  exact ⟨first, inside, next, e, hstart, rfl, by decide, henter, hcalls, hin, rfl, hsum, hnext,
    hbehind, (hleave inside e next rfl rfl henter hsum).1⟩

end Descent

end Reckon
