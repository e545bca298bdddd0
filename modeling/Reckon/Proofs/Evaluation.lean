import Mathlib.Data.List.TakeWhile
import Reckon.Expr.Exact

/-! # The evaluation machine and the exact meaning

Whatever else the machine has to do and to remember, working out a tree pushes its exact value, or
ends the run with its first fault.
-/

namespace Reckon

theorem inRange_toInt (n : Int64) : InRange n.toInt := ⟨n.minValue_le_toInt, n.toInt_le⟩

theorem toInt_ofInt_of_inRange {n : Int} (h : InRange n) : (Int64.ofInt n).toInt = n := by
  refine Int64.toInt_ofInt_of_le h.1 ?_
  have hm := Int64.toInt_maxValue_add_one
  have hn := h.2
  omega

namespace Expr

structure Application where
  op : Operator
  lhs : Int
  rhs : Int

namespace Application

def value (a : Application) : Int := a.op.exact a.lhs a.rhs

def fault? (a : Application) : Option EvalError := faultOf? a.op a.lhs a.rhs

def Fits (a : Application) : Prop := ¬ (a.op = .div ∧ a.rhs = 0) ∧ InRange a.value

/-- The ways in which an operation on numbers in range has no result in range. -/
inductive Faults : Application → EvalError → Prop where

  | divisionByZero (lhs : Int) : Faults ⟨.div, lhs, 0⟩ .divisionByZero

  | overflow {op : Operator} {lhs rhs : Int64} : ¬ (op = .div ∧ rhs.toInt = 0) →
      ¬ InRange (op.exact lhs.toInt rhs.toInt) →
      Faults ⟨op, lhs.toInt, rhs.toInt⟩ (.overflow lhs op rhs)

theorem fault?_eq_none_iff {a : Application} : a.fault? = none ↔ a.Fits := by
  rw [fault?, faultOf?, Fits, value]
  by_cases hz : a.op = .div ∧ a.rhs = 0
  · simp [hz]
  · rw [if_neg hz]
    split <;> simp [*]

theorem Faults.fault?_eq {a : Application} {f : EvalError} (h : a.Faults f) :
    a.fault? = some f := by
  cases h with
  | divisionByZero lhs => rfl
  | overflow hz hr =>
    rw [fault?, faultOf?, if_neg hz, if_neg hr, Int64.ofInt_toInt, Int64.ofInt_toInt]

theorem faults_of_fault?_eq {a : Application} {f : EvalError} (hl : InRange a.lhs)
    (hr : InRange a.rhs) (h : a.fault? = some f) : a.Faults f := by
  obtain ⟨op, lhs, rhs⟩ := a
  rw [fault?, faultOf?] at h
  split at h
  · rename_i hz
    obtain ⟨rfl, rfl⟩ := hz
    obtain rfl := Option.some.inj h
    exact .divisionByZero lhs
  · rename_i hz
    split at h
    · cases h
    · rename_i hn
      obtain rfl := Option.some.inj h
      have hf := @Faults.overflow op (Int64.ofInt lhs) (Int64.ofInt rhs)
      rw [toInt_ofInt_of_inRange hl, toInt_ofInt_of_inRange hr] at hf
      exact hf hz hn

end Application

def applications : Expr → List Application
  | number _ => []
  | binary op lhs rhs => lhs.applications ++ rhs.applications ++ [⟨op, lhs.exact, rhs.exact⟩]

theorem fault?_eq_findSome? (e : Expr) :
    e.fault? = e.applications.findSome? Application.fault? := by
  induction e with
  | number n => rfl
  | binary op lhs rhs ihl ihr =>
    simp only [fault?, applications, List.findSome?_append, ← ihl, ← ihr, Option.or_assoc]
    simp [Application.fault?]

theorem fault?_eq_none_iff {e : Expr} :
    e.fault? = none ↔ ∀ a ∈ e.applications, a.Fits := by
  simp [fault?_eq_findSome?, Application.fault?_eq_none_iff]

theorem fault?_binary_eq_none_iff {op : Operator} {lhs rhs : Expr} :
    (binary op lhs rhs).fault? = none ↔
      lhs.fault? = none ∧ rhs.fault? = none ∧ faultOf? op lhs.exact rhs.exact = none := by
  simp [fault?]

theorem inRange_exact {e : Expr} (h : e.fault? = none) : InRange e.exact := by
  cases e with
  | number n => exact inRange_toInt n
  | binary op lhs rhs =>
    have hf := (fault?_binary_eq_none_iff.mp h).2.2
    exact (@Application.fault?_eq_none_iff ⟨op, lhs.exact, rhs.exact⟩).mp hf |>.2

theorem exists_split_of_fault?_eq {e : Expr} {f : EvalError} (h : e.fault? = some f) :
    ∃ earlier a later, e.applications = earlier ++ a :: later ∧
      (∀ b ∈ earlier, b.Fits) ∧ a.Faults f := by
  induction e with
  | number n => cases h
  | binary op lhs rhs ihl ihr =>
    simp only [applications]
    cases hl : lhs.fault? with
    | some g =>
      obtain ⟨earlier, a, later, ha, hf, hg⟩ := ihl (by simpa [fault?, hl] using h)
      refine ⟨earlier, a, later ++ (rhs.applications ++ [⟨op, lhs.exact, rhs.exact⟩]), ?_, hf, hg⟩
      simp [ha]
    | none =>
      have hlf := fault?_eq_none_iff.mp hl
      cases hr : rhs.fault? with
      | some g =>
        obtain ⟨earlier, a, later, ha, hf, hg⟩ := ihr (by simpa [fault?, hl, hr] using h)
        refine ⟨lhs.applications ++ earlier, a, later ++ [⟨op, lhs.exact, rhs.exact⟩], ?_, ?_, hg⟩
        · simp [ha]
        · intro b hb
          rcases List.mem_append.mp hb with hb | hb
          · exact hlf b hb
          · exact hf b hb
      | none =>
        have hrf := fault?_eq_none_iff.mp hr
        refine ⟨lhs.applications ++ rhs.applications, _, [], rfl, ?_,
          Application.faults_of_fault?_eq (inRange_exact hl) (inRange_exact hr) ?_⟩
        · intro b hb
          rcases List.mem_append.mp hb with hb | hb
          · exact hlf b hb
          · exact hrf b hb
        · simpa [fault?, hl, hr, Application.fault?] using h

theorem fault?_eq_some_iff {e : Expr} {f : EvalError} :
    e.fault? = some f ↔ ∃ earlier a later, e.applications = earlier ++ a :: later ∧
      (∀ b ∈ earlier, b.Fits) ∧ a.Faults f := by
  constructor
  · exact exists_split_of_fault?_eq
  · rintro ⟨earlier, a, later, ha, hf, hg⟩
    rw [fault?_eq_findSome?, ha, List.findSome?_append]
    have hn : earlier.findSome? Application.fault? = none :=
      List.findSome?_eq_none_iff.mpr fun b hb => Application.fault?_eq_none_iff.mpr (hf b hb)
    rw [hn, Option.none_or, List.findSome?_cons, hg.fault?_eq]

/-- Operands in range are joined exactly, or with the fault of the operation. -/
theorem apply_ofInt {a b : Int} (ha : InRange a) (hb : InRange b) (op : Operator) :
    op.apply (Int64.ofInt a) (Int64.ofInt b) =
      match faultOf? op a b with
      | none => .ok (Int64.ofInt (op.exact a b))
      | some f => .error f := by
  have hz : Int64.ofInt b = 0 ↔ b = 0 := by
    rw [← Int64.toInt_inj, toInt_ofInt_of_inRange hb, Int64.toInt_zero]
  simp only [Operator.apply, faultOf?, hz, toInt_ofInt_of_inRange ha, toInt_ofInt_of_inRange hb]
  split
  · rfl
  · split <;> rfl

/-- The operations in front of the first one that fails. -/
def performed (ops : List Operation) : List Operation :=
  ops.takeWhile fun o => (o.op.apply o.lhs o.rhs).isOk

theorem performed_append_of_all {as bs : List Operation}
    (h : ∀ o ∈ as, (o.op.apply o.lhs o.rhs).isOk = true) :
    performed (as ++ bs) = as ++ performed bs :=
  List.takeWhile_append_of_pos h

theorem performed_append_of_exists {as bs : List Operation}
    (h : ∃ o ∈ as, (o.op.apply o.lhs o.rhs).isOk = false) :
    performed (as ++ bs) = performed as := by
  obtain ⟨o, ho, hs⟩ := h
  rw [performed, List.takeWhile_append, if_neg]
  · rfl
  · intro hl
    have he := (List.takeWhile_prefix _).eq_of_length hl
    have ht := List.takeWhile_eq_self_iff.mp he o ho
    cases hs.symm.trans ht

theorem isOk_of_fault?_eq_none {e : Expr} (h : e.fault? = none) :
    ∀ o ∈ e.postOrder, (o.op.apply o.lhs o.rhs).isOk = true := by
  induction e with
  | number n => simp [postOrder]
  | binary op lhs rhs ihl ihr =>
    obtain ⟨hl, hr, hf⟩ := fault?_binary_eq_none_iff.mp h
    have hj := apply_ofInt (inRange_exact hl) (inRange_exact hr) op
    rw [hf] at hj
    intro o ho
    simp only [postOrder, List.mem_append, List.mem_singleton] at ho
    rcases ho with (ho | ho) | rfl
    · exact ihl hl o ho
    · exact ihr hr o ho
    · simp [hj, Except.isOk, Except.toBool]

theorem exists_isOk_eq_false_of_fault?_eq {e : Expr} {f : EvalError} (h : e.fault? = some f) :
    ∃ o ∈ e.postOrder, (o.op.apply o.lhs o.rhs).isOk = false := by
  induction e with
  | number n => cases h
  | binary op lhs rhs ihl ihr =>
    simp only [postOrder]
    cases hl : lhs.fault? with
    | some g =>
      obtain ⟨o, ho, hs⟩ := ihl (by simpa [fault?, hl] using h)
      exact ⟨o, by simp [ho], hs⟩
    | none =>
      cases hr : rhs.fault? with
      | some g =>
        obtain ⟨o, ho, hs⟩ := ihr (by simpa [fault?, hl, hr] using h)
        exact ⟨o, by simp [ho], hs⟩
      | none =>
        have hf : faultOf? op lhs.exact rhs.exact = some f := by simpa [fault?, hl, hr] using h
        have hj := apply_ofInt (inRange_exact hl) (inRange_exact hr) op
        rw [hf] at hj
        exact ⟨_, List.mem_append_right _ (List.mem_singleton_self _), by
          simp [hj, Except.isOk, Except.toBool]⟩

theorem performed_postOrder_of_last {op : Operator} {lhs rhs : Expr} {f : EvalError}
    (hl : lhs.fault? = none) (hr : rhs.fault? = none)
    (hf : faultOf? op lhs.exact rhs.exact = some f) :
    performed (binary op lhs rhs).postOrder = lhs.postOrder ++ rhs.postOrder := by
  have hj := apply_ofInt (inRange_exact hl) (inRange_exact hr) op
  rw [hf] at hj
  rw [postOrder, performed_append_of_all]
  · simp [performed, hj, Except.isOk, Except.toBool]
  · intro o ho
    rcases List.mem_append.mp ho with ho | ho
    · exact isOk_of_fault?_eq_none hl o ho
    · exact isOk_of_fault?_eq_none hr o ho

namespace Machine

theorem run_of_next {m m' : Machine} (h : m.step = .next m') : m.run = m'.run := by
  rw [run]
  split
  · rename_i h'
    cases h.symm.trans h'
    rfl
  · rename_i h'
    cases h.symm.trans h'

theorem run_of_halt {m : Machine} {result : Except EvalError Int64} (h : m.step = .halt result) :
    m.run = (result, m.log.reverse) := by
  rw [run]
  split
  · rename_i h'
    cases h.symm.trans h'
  · rename_i h'
    cases h.symm.trans h'
    rfl

theorem run_apply_eq (op : Operator) (a b : Int64) (tasks : List Task)
    (values : List Int64) (log : List Operation) :
    (Machine.mk (.apply op :: tasks) (b :: a :: values) log).run =
      match op.apply a b with
      | .ok v => (Machine.mk tasks (v :: values) (⟨a, op, b, v⟩ :: log)).run
      | .error f => (.error f, log.reverse) := by
  cases h : op.apply a b with
  | ok v => exact run_of_next (by simp only [step, h])
  | error f => exact run_of_halt (by simp only [step, h])

theorem run_apply {a b : Int} (ha : InRange a) (hb : InRange b) (op : Operator)
    (tasks : List Task) (values : List Int64) (log : List Operation) :
    (Machine.mk (.apply op :: tasks) (Int64.ofInt b :: Int64.ofInt a :: values) log).run =
      match faultOf? op a b with
      | none =>
        (Machine.mk tasks (Int64.ofInt (op.exact a b) :: values)
          (⟨Int64.ofInt a, op, Int64.ofInt b, Int64.ofInt (op.exact a b)⟩ :: log)).run
      | some f => (.error f, log.reverse) := by
  rw [run_apply_eq, apply_ofInt ha hb]
  cases faultOf? op a b <;> rfl

/-- Working out a tree on top of any tasks and values. -/
theorem run_visit (e : Expr) (tasks : List Task) (values : List Int64) (log : List Operation) :
    (Machine.mk (.visit e :: tasks) values log).run =
      match e.fault? with
      | none =>
        (Machine.mk tasks (Int64.ofInt e.exact :: values) (e.postOrder.reverse ++ log)).run
      | some f => (.error f, log.reverse ++ performed e.postOrder) := by
  -- an operand is worked out on top of the tasks and values that its operation leaves there
  induction e generalizing tasks values log with
  | number n =>
    rw [run_of_next rfl]
    simp [fault?, exact, postOrder]
  | binary op lhs rhs ihl ihr =>
    rw [run_of_next rfl, ihl]
    cases hl : lhs.fault? with
    | some f =>
      have hp := exists_isOk_eq_false_of_fault?_eq hl
      simp [fault?, hl, postOrder, performed_append_of_exists hp]
    | none =>
      have hlp := isOk_of_fault?_eq_none hl
      simp only [ihr]
      cases hr : rhs.fault? with
      | some f =>
        have hp := exists_isOk_eq_false_of_fault?_eq hr
        simp [fault?, hl, hr, postOrder, performed_append_of_all hlp, performed_append_of_exists hp]
      | none =>
        have hrp := isOk_of_fault?_eq_none hr
        simp only [run_apply (inRange_exact hl) (inRange_exact hr)]
        cases hf : faultOf? op lhs.exact rhs.exact with
        | some f => simp [fault?, hl, hr, hf, performed_postOrder_of_last hl hr hf]
        | none => simp [fault?, hl, hr, hf, postOrder, exact]

end Machine

theorem value_eq (e : Expr) :
    e.value = match e.fault? with
      | none => .ok (Int64.ofInt e.exact)
      | some f => .error f := by
  rw [value, Machine.start, Machine.run_visit]
  cases e.fault? with
  | none => exact congrArg Prod.fst (Machine.run_of_halt rfl)
  | some f => rfl

/-- A tree has a value if and only if all its operations have results in range, and then it is the
exact one; otherwise the first operation without such a result is to blame. -/
theorem value_eq_exact_or_first_fault (e : Expr) :
    (∀ v, e.value = .ok v ↔ (∀ a ∈ e.applications, a.Fits) ∧ v.toInt = e.exact) ∧
    (∀ f, e.value = .error f ↔ ∃ earlier a later, e.applications = earlier ++ a :: later ∧
      (∀ b ∈ earlier, b.Fits) ∧ a.Faults f) ∧
    e.value ≠ .error .missingValue := by
  have hf : ∀ f, e.value = .error f ↔ e.fault? = some f := by
    intro f
    rw [value_eq]
    cases e.fault? <;> simp
  refine ⟨fun v => ?_, fun f => (hf f).trans fault?_eq_some_iff, fun h => ?_⟩
  · rw [value_eq, ← fault?_eq_none_iff]
    cases hn : e.fault? with
    | some f => simp
    | none =>
      simp only [Except.ok.injEq, true_and, ← Int64.toInt_inj,
        toInt_ofInt_of_inRange (inRange_exact hn)]
      exact eq_comm
  · obtain ⟨_, _, _, _, _, ha⟩ := fault?_eq_some_iff.mp ((hf _).mp h)
    cases ha

end Expr

end Reckon
