import Reckon.Calculate
import Reckon.Proofs.Pushdown

/-! # The descent as a pushdown machine

Started in the state that the calls of a descent have left, the machine does the rest of the work
with the same result and the same log.
-/

namespace Reckon

namespace Descent

/-- The machine, run from a state on what a descent has in front of it. -/
def follow (d : Descent) (p : Pushdown) : Except Rejection (Expr × List ParseEvent) :=
  p.run d.limit d.cursor.finish d.log d.pending

def recordAll (events : List ParseEvent) (d : Descent) : Descent :=
  { d with log := events ++ d.log }

@[simp] theorem recordAll_nil (d : Descent) : d.recordAll [] = d := rfl

theorem recordAll_concat (d : Descent) (events : List ParseEvent) (event : ParseEvent) :
    d.recordAll (events ++ [event]) = (d.record event).recordAll events := by
  simp [recordAll, record]

theorem pending_of_ne_finish {d : Descent} (h : d.current.token ≠ .finish) :
    d.pending = .ok d.current :: d.cursor.upcoming := if_neg h

theorem Keeps.finish_eq {d d' : Descent} (h : d.Keeps d') : d'.cursor.finish = d.cursor.finish := by
  simp [Cursor.finish, h.source]

theorem follow_of_step {d : Descent} {p next : Pushdown} (ht : d.current.token ≠ .finish)
    (hs : p.step d.limit d.current = .ok next) (hb : p.before d.current.token = []) :
    d.follow p =
      d.advance >>= fun d' => (d'.recordAll (p.after d.current.token)).follow next := by
  rw [follow, pending_of_ne_finish ht, Pushdown.run, hs, hb]
  have ha := d.advances_advance
  revert ha
  generalize d.advance = result
  intro ha
  cases ha with
  | fault he =>
    rw [he]
    rfl
  | @next d' he hp hk hl =>
    rw [he]
    change _ = Pushdown.run d'.limit d'.cursor.finish next
      (p.after d.current.token ++ d'.log) d'.pending
    rw [hp, hl, hk.limit, hk.finish_eq]
    rfl

theorem follow_of_refusal {d : Descent} {p : Pushdown} (hc : d.Coherent)
    (hs : p.shift d.current.token = none) (hr : d.current.token = .finish → p.result? = none) :
    d.follow p = .error ⟨p.refusal d.current, p.before d.current.token ++ d.log⟩ := by
  by_cases ht : d.current.token = .finish
  · rw [follow, pending, if_pos ht, Pushdown.run, hr ht, ← (hc ht).1, ht]
  · rw [follow, pending_of_ne_finish ht, Pushdown.run, Pushdown.step_eq_refusal hs]

/-- Behind a product that does not go on, the sum in front of it is completed. -/
theorem follow_complete {d : Descent} (hm : d.BehindProduct) (sum? : Option Half) (e : Expr)
    (outer : List Frame) :
    d.follow (.complete sum? e outer) =
      (d.recordAll (Half.events sum?)).follow (.complete none (Half.fill sum? e) outer) := by
  obtain ⟨cursor, ⟨start, token, stop⟩, depth, limit, log⟩ := d
  cases token with
  | operator op =>
    have ho : op.isAdditive = true := by
      simpa [BehindProduct, multiplicative?, Token.operator?] using hm
    simp [follow, pending, recordAll, Pushdown.run, Pushdown.step, Pushdown.shift, Pushdown.before,
      Pushdown.after, Half.events, Half.fill, ho]
  | closing => cases outer <;> rfl
  | finish => cases outer <;> rfl
  | _ => rfl

theorem token_of_multiplicative? {d : Descent} {op : Operator} (h : d.multiplicative? = some op) :
    d.current.token = .operator op ∧ op.isAdditive = false := by
  obtain ⟨ho, ha⟩ := Option.filter_eq_some_iff.mp h
  cases ht : d.current.token <;> simp_all [Token.operator?]

theorem token_of_additive? {d : Descent} {op : Operator} (h : d.additive? = some op) :
    d.current.token = .operator op ∧ op.isAdditive = true := by
  obtain ⟨ho, ha⟩ := Option.filter_eq_some_iff.mp h
  cases ht : d.current.token <;> simp_all [Token.operator?]

theorem BehindSum.ne_operator {d : Descent} (h : d.BehindSum) (op : Operator) :
    d.current.token ≠ .operator op := by
  intro ht
  obtain ⟨ha, hm⟩ := h
  cases hop : op.isAdditive <;> simp_all [additive?, multiplicative?, Token.operator?]

/-- The groups that a descent stands in are those of the machine. -/
def InGroups (d : Descent) (outer : List Frame) : Prop :=
  d.Coherent ∧ d.depth.toNat = outer.length

theorem Keeps.inGroups {d d' : Descent} (h : d.Keeps d') {outer : List Frame}
    (hg : d.InGroups outer) : d'.InGroups outer :=
  ⟨h.coherent, by rw [h.depth, hg.2]⟩

theorem kind_eq_closing_iff {token : Token} : token.kind = .closing ↔ token = .closing := by
  cases token <;> simp [Token.kind]

theorem follow_leave {d : Descent} (hc : d.Coherent) (hb : d.BehindSum) (e : Expr) (inner : Frame)
    (outer : List Frame) :
    d.follow (.complete none e (inner :: outer)) =
      d.leave >>= fun behind =>
        (behind.recordAll (Half.events inner.product?)).follow (Pushdown.fill inner outer e) := by
  unfold leave expect
  by_cases ht : d.current.token = .closing
  · rw [if_pos (kind_eq_closing_iff.mpr ht),
      follow_of_step (by simp [ht]) (Pushdown.step_of_shift (by simp [ht]) (by rw [ht]; rfl) _)
        (by rw [ht]; rfl)]
    simp only [ht, Pushdown.after, recordAll_concat]
    cases d.advance <;> rfl
  · have hs : (Pushdown.complete none e (inner :: outer)).shift d.current.token = none := by
      cases htt : d.current.token with
      | operator op => exact (hb.ne_operator op htt).elim
      | closing => exact (ht htt).elim
      | _ => rfl
    rw [if_neg (mt kind_eq_closing_iff.mp ht), follow_of_refusal hc hs fun _ => rfl,
      Pushdown.before_complete_none]
    rfl

theorem toNat_depth_enter {d inside : Descent} (h : d.enter = .ok inside) :
    inside.depth.toNat = d.depth.toNat + 1 := by
  obtain ⟨hl, -, hd, -⟩ := keeps_of_enter h
  have := d.limit.toNat_lt_size
  rw [UInt64.lt_iff_toNat_lt] at hl
  rw [hd, UInt64.toNat_add, UInt64.toNat_one,
    Nat.mod_eq_of_lt (by simp [UInt64.size] at this; omega)]

theorem follow_enter {d : Descent} {outer : List Frame} (hg : d.InGroups outer)
    (ht : d.current.token = .opening) (inner : Frame) :
    d.follow (.wanted inner outer) =
      d.enter >>= fun inside => inside.follow (.wanted ⟨none, none⟩ (inner :: outer)) := by
  have hn : d.current.token ≠ .finish := by simp [ht]
  have hd : d.limit ≤ d.depth ↔ d.limit.toNat ≤ outer.length := by
    rw [UInt64.le_iff_toNat_le, hg.2]
  unfold enter
  by_cases hl : d.limit ≤ d.depth
  · have hs : (Pushdown.wanted inner outer).step d.limit d.current =
        .error (.tooDeep d.limit d.current.start) := by
      simp [Pushdown.step, ht, hd.mp hl]
    rw [if_pos hl, follow, pending_of_ne_finish hn, Pushdown.run, hs]
    rfl
  · have hs : (Pushdown.wanted inner outer).step d.limit d.current =
        .ok (.wanted ⟨none, none⟩ (inner :: outer)) := by
      simp [Pushdown.step, ht, mt hd.mpr hl]
    -- the machine does not see the counter, which is its own stack
    have hf := follow_of_step (d := { d with depth := d.depth + 1 }) hn hs rfl
    simp only [ht, Pushdown.after, recordAll_nil] at hf
    rwa [if_neg hl]

theorem follow_operand {d : Descent} {inner : Frame} {outer : List Frame} (hg : d.InGroups outer)
    (sum : ∀ inside outer, d.current.token = .opening → d.enter = .ok inside →
      inside.InGroups outer → inside.follow (.wanted ⟨none, none⟩ outer) =
        inside.sum >>= fun (e, next) => next.follow (.complete none e outer)) :
    d.follow (.wanted inner outer) =
      d.operand >>= fun (e, next) =>
        (next.recordAll (Half.events inner.product?)).follow (Pushdown.fill inner outer e) := by
  rw [operand_eq]
  split
  · rename_i n ht
    rw [follow_of_step (by simp [ht]) (Pushdown.step_of_shift (by simp [ht]) (by rw [ht]; rfl) _)
      (by rw [ht]; rfl)]
    simp only [ht, Pushdown.after, recordAll_concat]
    cases d.advance <;> rfl
  · rename_i ht
    rw [follow_enter hg ht, bind_assoc, bind_assoc]
    refine bind_congr_ok fun inside he => ?_
    have hg' : inside.InGroups (inner :: outer) :=
      ⟨(keeps_of_enter he).2.1, by rw [toNat_depth_enter he, hg.2, List.length_cons]⟩
    rw [sum inside (inner :: outer) ht he hg']
    refine bind_congr_ok fun result hs => ?_
    obtain ⟨e, next⟩ := result
    obtain ⟨hk, hb⟩ := keeps_of_sum hs
    dsimp only
    rw [follow_leave hk.coherent hb]
    cases next.leave <;> rfl
  all_goals
    rename_i ht
    rw [follow_of_refusal hg.1 (by rw [ht]; rfl) fun _ => rfl]
    rfl

def FollowsSum (d : Descent) : Prop :=
  ∀ outer, d.InGroups outer → d.follow (.wanted ⟨none, none⟩ outer) =
    d.sum >>= fun (e, next) => next.follow (.complete none e outer)

def FollowsProduct (d : Descent) : Prop :=
  ∀ sum? outer, d.InGroups outer → d.follow (.wanted ⟨sum?, none⟩ outer) =
    d.product >>= fun (e, next) => next.follow (.complete sum? e outer)

def FollowsOperand (d : Descent) : Prop :=
  ∀ inner outer, d.InGroups outer → d.follow (.wanted inner outer) =
    d.operand >>= fun (e, next) =>
      (next.recordAll (Half.events inner.product?)).follow (Pushdown.fill inner outer e)

def FollowsTerms (d : Descent) (lhs : Expr) : Prop :=
  ∀ outer, d.InGroups outer → d.BehindProduct → d.follow (.complete none lhs outer) =
    d.moreTerms lhs >>= fun (e, next) => next.follow (.complete none e outer)

def FollowsOperands (d : Descent) (lhs : Expr) : Prop :=
  ∀ sum? outer, d.InGroups outer → d.follow (.complete sum? lhs outer) =
    d.moreOperands lhs >>= fun (e, next) => next.follow (.complete sum? e outer)

/-- Each reader takes the machine from the state it is called in to the state it returns in. -/
theorem follow_readers (d : Descent) :
    d.FollowsSum ∧ d.FollowsProduct ∧ d.FollowsOperand ∧
      (∀ lhs, d.FollowsOperands lhs) ∧ ∀ lhs, d.FollowsTerms lhs := by
  refine @reader_induction FollowsSum FollowsProduct FollowsOperand FollowsTerms FollowsOperands
    ?operand ?moreOperands ?product ?moreTerms ?sum d
  case operand =>
    exact fun d inner _ _ hg =>
      follow_operand hg fun inside outer ht he hi => inner inside ht he outer hi
  case moreOperands =>
    intro d lhs step sum? outer hg
    rw [moreOperands_eq]
    split
    · rfl
    · rename_i op ho
      obtain ⟨ht, hm⟩ := token_of_multiplicative? ho
      have hs : (Pushdown.complete sum? lhs outer).shift d.current.token =
          some (.wanted ⟨sum?, some ⟨lhs, op⟩⟩ outer) := by
        simp [ht, Pushdown.shift, hm]
      rw [follow_of_step (by simp [ht]) (Pushdown.step_of_shift (by simp [ht]) hs _)
        (by simp [ht, Pushdown.before, hm]), bind_assoc, bind_assoc]
      refine bind_congr_ok fun next ha => ?_
      obtain ⟨operand, more⟩ := step op next ho ha
      have hg' := (keeps_of_advance ha).inGroups hg
      simp only [ht, Pushdown.after, recordAll_nil]
      rw [operand _ outer hg']
      refine bind_congr_ok fun result hr => ?_
      obtain ⟨rhs, behind⟩ := result
      exact more rhs behind hr sum? outer ((keeps_of_operand hr).inGroups hg')
  case product =>
    intro d operand more sum? outer hg
    rw [product_eq, operand ⟨sum?, none⟩ outer hg, bind_assoc]
    refine bind_congr_ok fun result hr => ?_
    obtain ⟨lhs, next⟩ := result
    exact more lhs next hr sum? outer ((keeps_of_operand hr).inGroups hg)
  case moreTerms =>
    intro d lhs step outer hg hb
    rw [moreTerms_eq]
    split
    · rfl
    · rename_i op ho
      obtain ⟨ht, hm⟩ := token_of_additive? ho
      have hs : (Pushdown.complete none lhs outer).shift d.current.token =
          some (.wanted ⟨some ⟨lhs, op⟩, none⟩ outer) := by
        simp [ht, Pushdown.shift, hm, Half.fill]
      rw [follow_of_step (by simp [ht]) (Pushdown.step_of_shift (by simp [ht]) hs _)
        (Pushdown.before_complete_none _ _ _), bind_assoc, bind_assoc]
      refine bind_congr_ok fun next ha => ?_
      obtain ⟨product, more⟩ := step op next ho ha
      have hg' := (keeps_of_advance ha).inGroups hg
      simp only [ht, Pushdown.after, recordAll_nil]
      rw [product _ outer hg']
      refine bind_congr_ok fun result hr => ?_
      obtain ⟨rhs, behind⟩ := result
      obtain ⟨hk, hb'⟩ := keeps_of_product hr
      dsimp only
      rw [follow_complete hb']
      exact more rhs behind hr outer (hk.inGroups hg') hb'
  case sum =>
    intro d product more outer hg
    rw [sum_eq, product none outer hg, bind_assoc]
    refine bind_congr_ok fun result hr => ?_
    obtain ⟨lhs, next⟩ := result
    obtain ⟨hk, hb⟩ := keeps_of_product hr
    exact more lhs next hr outer (hk.inGroups hg) hb

def report : Except Rejection (Expr × List ParseEvent) → Except ParseError Expr × List ParseEvent
  | .error rejection => (.error rejection.error, rejection.log.reverse)
  | .ok (e, log) => (.ok e, log.reverse)

theorem kind_eq_finish_iff {token : Token} : token.kind = .finish ↔ token = .finish := by
  cases token <;> simp [Token.kind]

theorem complete_eq {d : Descent} (hg : d.InGroups []) :
    d.complete = report (d.follow Pushdown.start) := by
  unfold complete
  rw [Pushdown.start, (follow_readers d).1 [] hg]
  cases hs : d.sum with
  | error rejection => rfl
  | ok r =>
    obtain ⟨e, next⟩ := r
    obtain ⟨hk, hb⟩ := keeps_of_sum hs
    change _ = report (next.follow (.complete none e []))
    dsimp only
    unfold expect
    by_cases ht : next.current.token = .finish
    · have hu := (hk.coherent ht).2
      rw [if_pos (kind_eq_finish_iff.mpr ht), follow, pending, if_pos ht]
      have ha := next.advances_advance
      revert ha
      generalize next.advance = result
      intro ha
      cases ha with
      | fault he =>
        rw [hu] at he
        cases he
      | next he hp hk hl =>
        rw [hu] at he
        simp [Pushdown.run, Pushdown.result?, Pushdown.before, Half.fill, Half.events, report,
          record, hl, ← Except.ok.inj he]
    · have hn : (Pushdown.complete none e []).shift next.current.token = none := by
        cases htt : next.current.token with
        | operator op => exact (hb.ne_operator op htt).elim
        | _ => rfl
      rw [if_neg (mt kind_eq_finish_iff.mp ht),
        follow_of_refusal hk.coherent hn fun h => (ht h).elim, Pushdown.before_complete_none]
      rfl

theorem start_eq (source : String) (limit : UInt64) :
    (∃ error, start source limit = .error (.scan error) ∧
      readings 0 source.toList = [.error error]) ∨
    ∃ d, start source limit = .ok d ∧ d.InGroups [] ∧ d.log = [] ∧ d.limit = limit ∧
      d.cursor.finish = (Cursor.start source).finish ∧ d.pending = readings 0 source.toList := by
  have h := (Cursor.start source).hands_nextToken
  unfold start
  revert h
  generalize (Cursor.start source).nextToken = handed
  intro h
  cases h with
  | fault hu _ _ => exact .inl ⟨_, rfl, hu⟩
  | @finish cursor hu hu' hs =>
    have hf : cursor.finish = (Cursor.start source).finish := by simp [Cursor.finish, hs]
    exact .inr ⟨_, rfl, ⟨fun _ => ⟨hf.symm, hu'⟩, rfl⟩, rfl, rfl, hf, hu.symm⟩
  | @token s cursor hu hs =>
    have hf : cursor.finish = (Cursor.start source).finish := by simp [Cursor.finish, hs]
    have ht : s.token ≠ .finish := Cursor.token_ne_finish_of_mem_upcoming (by rw [hu]; simp)
    exact .inr ⟨_, rfl, ⟨fun h => (ht h).elim, rfl⟩, rfl, rfl, hf,
      (pending_of_ne_finish ht).trans hu.symm⟩

end Descent

/-- The tree or error of a source is that of the machine. -/
theorem parse_eq_outcome (settings : Settings) (source : String) :
    parse settings source = Pushdown.start.outcome settings.limit (Cursor.start source).finish
      (readings 0 source.toList) := by
  unfold parse parseTraced
  rcases Descent.start_eq source settings.limit with
    ⟨error, hs, hr⟩ | ⟨d, hs, hg, hlog, hlim, hfin, hp⟩
  · rw [hs, hr]
    rfl
  · rw [hs, Pushdown.outcome_eq_run _ _ _ []]
    dsimp only
    rw [Descent.complete_eq hg, Descent.follow, hlog, hlim, hfin, hp]
    cases Pushdown.start.run settings.limit (Cursor.start source).finish [] _ <;> rfl

end Reckon
