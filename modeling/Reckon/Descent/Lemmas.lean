import Reckon.Descent

/-! # Equations of the descent

The readers follow the grammar, and the property that the recursion carries along does not change
what is read.
-/

namespace Reckon.Descent

theorem moreTermsTo_congr (d : Descent) (lhs : Expr) (P Q : Descent → Prop)
    (hP : ∀ d', d'.remaining ≤ d.remaining → P d')
    (hQ : ∀ d', d'.remaining ≤ d.remaining → Q d') :
    (d.moreTermsTo lhs P hP).map Reached.pair = (d.moreTermsTo lhs Q hQ).map Reached.pair := by
  induction hn : d.remaining using Nat.strongRecOn generalizing d lhs with
  | ind n ih =>
    rw [moreTermsTo, moreTermsTo]
    split
    · rfl
    · rename_i op ho
      split
      · rfl
      · rename_i behind ha
        have hb := remaining_lt_of_advance (ne_finish_of_additive? ho) ha
        dsimp only
        split
        · rfl
        · rename_i rhs next h _
          exact ih _ (by rw [remaining_record]; omega) _ _ _ _ rfl

theorem moreOperandsTo_congr (d : Descent) (lhs : Expr) (P Q : Descent → Prop)
    (hP : ∀ d', d'.remaining ≤ d.remaining → P d')
    (hQ : ∀ d', d'.remaining ≤ d.remaining → Q d') :
    (d.moreOperandsTo lhs P hP).map Reached.pair =
      (d.moreOperandsTo lhs Q hQ).map Reached.pair := by
  induction hn : d.remaining using Nat.strongRecOn generalizing d lhs with
  | ind n ih =>
    rw [moreOperandsTo, moreOperandsTo]
    split
    · rfl
    · rename_i op ho
      split
      · rfl
      · rename_i behind ha
        have hb := remaining_lt_of_advance (ne_finish_of_multiplicative? ho) ha
        dsimp only
        split
        · rfl
        · rename_i rhs next h _
          exact ih _ (by rw [remaining_record]; omega) _ _ _ _ rfl

theorem product_eq (d : Descent) :
    d.product = d.operand >>= fun (lhs, next) => next.moreOperands lhs := by
  unfold product operand
  rw [productTo]
  cases d.operandTo (·.remaining < d.remaining) fun _ h => h with
  | error rejection => rfl
  | ok r => exact moreOperandsTo_congr _ _ _ _ _ _

theorem sum_eq (d : Descent) :
    d.sum = d.product >>= fun (lhs, next) => next.moreTerms lhs := by
  unfold sum product
  rw [sumTo]
  cases d.productTo (·.remaining < d.remaining) fun _ h => h with
  | error rejection => rfl
  | ok r => exact moreTermsTo_congr _ _ _ _ _ _

theorem moreTerms_eq (d : Descent) (lhs : Expr) :
    d.moreTerms lhs =
      match d.additive? with
      | none => .ok (lhs, d)
      | some op =>
        d.advance >>= product >>= fun (rhs, next) =>
          (next.record (.reduceBinary op)).moreTerms (.binary op lhs rhs) := by
  unfold moreTerms product
  rw [moreTermsTo]
  split
  · rename_i ho
    simp only [ho]
    rfl
  · rename_i op ho
    simp only [ho]
    split
    · rename_i ha
      simp only [ha]
      rfl
    · rename_i behind ha
      simp only [ha]
      dsimp only [Bind.bind, Except.bind]
      cases behind.productTo (·.remaining < behind.remaining) fun _ h => h with
      | error rejection => rfl
      | ok r => exact moreTermsTo_congr _ _ _ _ _ _

theorem moreOperands_eq (d : Descent) (lhs : Expr) :
    d.moreOperands lhs =
      match d.multiplicative? with
      | none => .ok (lhs, d)
      | some op =>
        d.advance >>= operand >>= fun (rhs, next) =>
          (next.record (.reduceBinary op)).moreOperands (.binary op lhs rhs) := by
  unfold moreOperands operand
  rw [moreOperandsTo]
  split
  · rename_i ho
    simp only [ho]
    rfl
  · rename_i op ho
    simp only [ho]
    split
    · rename_i ha
      simp only [ha]
      rfl
    · rename_i behind ha
      simp only [ha]
      dsimp only [Bind.bind, Except.bind]
      cases behind.operandTo (·.remaining < behind.remaining) fun _ h => h with
      | error rejection => rfl
      | ok r => exact moreOperandsTo_congr _ _ _ _ _ _

theorem operand_eq (d : Descent) :
    d.operand =
      match d.current.token with
      | .integer n => d.advance.map fun next => (.number n, next.record .reduceLiteral)
      | .opening => d.enter >>= sum >>= fun (e, next) => next.leave.map (e, ·)
      | .operator _ | .closing | .finish => .error (d.mismatch [.integer, .opening]) := by
  unfold operand sum
  rw [operandTo]
  split
  · rename_i n ht
    simp only [ht]
    split <;> rename_i ha <;> simp only [ha] <;> rfl
  · rename_i ht
    simp only [ht]
    split
    · rename_i he
      simp only [he]
      rfl
    · rename_i inside he
      simp only [he]
      dsimp only [Bind.bind, Except.bind]
      cases inside.sumTo (·.remaining < inside.remaining) fun _ h => h with
      | error rejection => rfl
      | ok r =>
        change Except.map Reached.pair _ = r.next.leave.map (r.tree, ·)
        dsimp only
        split <;> rename_i hl <;> simp only [hl] <;> rfl
  all_goals
    rename_i ht
    simp only [ht]
    rfl

theorem remaining_lt_of_map_pair {d : Descent} {e : Expr} {next : Descent} {P : Descent → Prop}
    {result : Except Rejection (Reached P)} (h : result.map Reached.pair = .ok (e, next))
    (hP : ∀ d', P d' → d'.remaining < d.remaining) : next.remaining < d.remaining := by
  cases result with
  | error rejection => simp [Except.map] at h
  | ok r =>
    simp [Except.map, Reached.pair] at h
    rw [← h.2]
    exact hP _ r.holds

theorem remaining_lt_of_sum {d next : Descent} {e : Expr} (h : d.sum = .ok (e, next)) :
    next.remaining < d.remaining :=
  remaining_lt_of_map_pair h fun _ h => h

theorem remaining_lt_of_product {d next : Descent} {e : Expr} (h : d.product = .ok (e, next)) :
    next.remaining < d.remaining :=
  remaining_lt_of_map_pair h fun _ h => h

theorem remaining_lt_of_operand {d next : Descent} {e : Expr} (h : d.operand = .ok (e, next)) :
    next.remaining < d.remaining :=
  remaining_lt_of_map_pair h fun _ h => h

end Reckon.Descent
