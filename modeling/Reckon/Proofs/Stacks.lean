import Mathlib.Logic.Relation
import Reckon.Proofs.Evaluation

/-! # The stacks of the evaluation machine

While the machine works a tree out, whatever else it has to do and to remember stays underneath as
it was.
-/

namespace Reckon.Expr

structure Yields (e : Expr) (v : Int64) : Prop where
  fault?_eq : e.fault? = none
  toInt_eq : v.toInt = e.exact

theorem yields_ofInt_exact {e : Expr} (h : e.fault? = none) : e.Yields (Int64.ofInt e.exact) :=
  ⟨h, toInt_ofInt_of_inRange (inRange_exact h)⟩

def Task.isVisit : Task → Bool
  | visit _ => true
  | apply _ => false

@[simp] theorem Task.isVisit_visit (e : Expr) : (visit e).isVisit = true := rfl

@[simp] theorem Task.isVisit_apply (op : Operator) : (apply op).isVisit = false := rfl

theorem ne_missingValue_of_fault?_eq {e : Expr} {f : EvalError} (h : e.fault? = some f) :
    f ≠ .missingValue := by
  rintro rfl
  obtain ⟨_, _, _, _, _, ha⟩ := fault?_eq_some_iff.mp h
  cases ha

namespace Machine

open Relation (ReflTransGen)

variable {m m' below : Machine} {t lhs rhs : Expr} {op : Operator} {f : EvalError}

def Next (m m' : Machine) : Prop := m.step = .next m'

theorem wellFounded_next : WellFounded fun later m : Machine => Next m later :=
  Subrelation.wf (fun {_ _} h => weight_lt_of_step_eq_next h) (measure weight).wf

theorem exists_halt (m : Machine) :
    ∃ last, ReflTransGen Next m last ∧ last.step = .halt m.run.1 := by
  induction m using wellFounded_next.induction with
  | h m ih =>
    cases hm : m.step with
    | halt result =>
      refine ⟨m, .refl, ?_⟩
      rw [run_of_halt hm, hm]
    | next m' =>
      obtain ⟨last, hr, hl⟩ := ih m' hm
      rw [run_of_next hm]
      exact ⟨last, .head hm hr, hl⟩

/-- A machine with all that another one has to do and to remember underneath. -/
def on (m below : Machine) : Machine :=
  ⟨m.tasks ++ below.tasks, m.values ++ below.values, m.log ++ below.log⟩

def idle : Machine := ⟨[], [], []⟩

def todo (m : Machine) (task : Task) : Machine := { m with tasks := task :: m.tasks }

/-- The exact value of a tree on top of the others, and its operations in the log. -/
def gain (m : Machine) (t : Expr) : Machine :=
  ⟨m.tasks, Int64.ofInt t.exact :: m.values, t.postOrder.reverse ++ m.log⟩

def Step.on (below : Machine) : Step → Step
  | .next m => .next (m.on below)
  | .halt result => .halt result

/-- A machine that has a task and what the task needs takes nothing from underneath. -/
theorem step_on (ht : m.tasks ≠ []) (hv : m.step ≠ .halt (.error .missingValue))
    (below : Machine) : (m.on below).step = m.step.on below := by
  obtain ⟨tasks, values, log⟩ := m
  cases tasks with
  | nil => exact absurd rfl ht
  | cons task tasks =>
    cases task with
    | visit t => cases t <;> rfl
    | apply op =>
      rcases values with _ | ⟨b, _ | ⟨a, values⟩⟩
      · exact absurd rfl hv
      · exact absurd rfl hv
      · cases h : op.apply a b <;> simp [on, step, Step.on, h]

theorem tasks_ne_nil_of_next (h : Next m m') : m.tasks ≠ [] := by
  obtain ⟨tasks, values, log⟩ := m
  rintro rfl
  cases values <;> cases h

theorem Next.on (h : Next m m') (below : Machine) : Next (m.on below) (m'.on below) := by
  have hv : m.step ≠ .halt (.error .missingValue) := by
    intro hm
    cases h.symm.trans hm
  rw [Next, step_on (tasks_ne_nil_of_next h) hv, h]
  rfl

/-- A step that a machine takes above another one and would take in the same way without it. -/
inductive Above (below : Machine) : Machine → Machine → Prop where

  | intro {top top' : Machine} : Next top top' → Next (top.on below) (top'.on below) →
      Above below (top.on below) (top'.on below)

theorem above_of_reaches (h : ReflTransGen Next m m') (below : Machine) :
    ReflTransGen (Above below) (m.on below) (m'.on below) :=
  h.lift (fun top => top.on below) fun _ _ hn => .intro hn (hn.on below)

/-- The states in which a machine works out a tree on top of another machine. -/
inductive During : Expr → Machine → Machine → Prop where

  | visit {t : Expr} {below : Machine} : During t below (below.todo (.visit t))

  | left {op : Operator} {lhs rhs : Expr} {below m : Machine} :
      During lhs ((below.todo (.apply op)).todo (.visit rhs)) m →
      During (.binary op lhs rhs) below m

  | right {op : Operator} {lhs rhs : Expr} {below m : Machine} : lhs.fault? = none →
      During rhs ((below.todo (.apply op)).gain lhs) m → During (.binary op lhs rhs) below m

  | join {op : Operator} {lhs rhs : Expr} {below : Machine} : lhs.fault? = none →
      rhs.fault? = none →
      During (.binary op lhs rhs) below (((below.todo (.apply op)).gain lhs).gain rhs)

theorem During.tasks_ne_nil (h : During t below m) : m.tasks ≠ [] := by
  induction h with
  | visit | join => exact List.cons_ne_nil _ _
  | left _ ih | right _ _ ih => exact ih

inductive Outcome (t : Expr) (below : Machine) : Step → Prop where

  | within {m : Machine} : During t below m → Outcome t below (.next m)

  | gained : t.fault? = none → Outcome t below (.next (below.gain t))

  | failed {f : EvalError} : t.fault? = some f → Outcome t below (.halt (.error f))

theorem During.step (h : During t below m) : Outcome t below m.step := by
  -- what an operand gains on top of the rest of its operation is where the other operand starts
  induction h with
  | @visit t below =>
    cases t with
    | number n =>
      have hn : (below.todo (.visit (number n))).step = .next (below.gain (number n)) := by
        simp [Machine.step, todo, gain, exact, postOrder]
      exact hn ▸ .gained rfl
    | binary op lhs rhs => exact .within (.left .visit)
  | @left op lhs rhs below m _ ih =>
    generalize m.step = s at ih ⊢
    cases ih with
    | within hd => exact .within (.left hd)
    | gained hl => exact .within (.right hl .visit)
    | failed hf => exact .failed (by simp [fault?, hf])
  | @right op lhs rhs below m hl _ ih =>
    generalize m.step = s at ih ⊢
    cases ih with
    | within hd => exact .within (.right hl hd)
    | gained hr => exact .within (.join hl hr)
    | failed hf => exact .failed (by simp [fault?, hl, hf])
  | @join op lhs rhs below hl hr =>
    have hj := apply_ofInt (inRange_exact hl) (inRange_exact hr) op
    cases hf : faultOf? op lhs.exact rhs.exact with
    | none =>
      have hn : (((below.todo (.apply op)).gain lhs).gain rhs).step =
          .next (below.gain (binary op lhs rhs)) := by
        simp [Machine.step, todo, gain, exact, postOrder, hj, hf]
      exact hn ▸ .gained (by simp [fault?, hl, hr, hf])
    | some f =>
      have hn : (((below.todo (.apply op)).gain lhs).gain rhs).step = .halt (.error f) := by
        simp [Machine.step, todo, gain, hj, hf]
      exact hn ▸ .failed (by simp [fault?, hl, hr, hf])

/-- From the middle of a tree the machine comes to its value or to its first fault. -/
theorem During.ends (h : During t below m) :
    t.fault? = none ∧ ReflTransGen Next m (below.gain t) ∨
    ∃ f last, t.fault? = some f ∧ ReflTransGen Next m last ∧ During t below last ∧
      last.step = .halt (.error f) := by
  induction m using wellFounded_next.induction with
  | h m ih =>
    have ho := h.step
    cases hs : m.step with
    | next m' =>
      rw [hs] at ho
      cases ho with
      | gained ht => exact .inl ⟨ht, .single hs⟩
      | within hd =>
        rcases ih m' hs hd with ⟨ht, hr⟩ | ⟨f, last, hf, hr, hl, hh⟩
        · exact .inl ⟨ht, .head hs hr⟩
        · exact .inr ⟨f, last, hf, .head hs hr, hl, hh⟩
    | halt result =>
      rw [hs] at ho
      cases ho with
      | failed hf => exact .inr ⟨_, m, hf, .refl, h, hs⟩

theorem reaches_gain (h : t.fault? = none) (below : Machine) :
    ReflTransGen Next (below.todo (.visit t)) (below.gain t) := by
  rcases (@During.visit t below).ends with ⟨-, hr⟩ | ⟨f, last, hf, -⟩
  · exact hr
  · cases h.symm.trans hf

theorem reaches_right (h : lhs.fault? = none) (op : Operator) (rhs : Expr) (below : Machine) :
    ReflTransGen Next (below.todo (.visit (.binary op lhs rhs)))
      (((below.todo (.apply op)).gain lhs).todo (.visit rhs)) :=
  .head rfl (reaches_gain h ((below.todo (.apply op)).todo (.visit rhs)))

theorem During.reaches (h : During t below m) :
    ReflTransGen Next (below.todo (.visit t)) m := by
  induction h with
  | visit => exact .refl
  | left _ ih => exact .head rfl ih
  | right hl _ ih => exact (reaches_right hl _ _ _).trans ih
  | join hl hr => exact (reaches_right hl _ _ _).trans (reaches_gain hr _)

theorem during_or_gained (h : ReflTransGen Next (start t) m) :
    During t idle m ∨ t.fault? = none ∧ m = idle.gain t := by
  induction h with
  | refl => exact .inl .visit
  | tail _ hn ih =>
    rcases ih with hd | ⟨-, rfl⟩
    · have ho := hd.step
      rw [hn] at ho
      cases ho with
      | within hd => exact .inl hd
      | gained ht => exact .inr ⟨ht, rfl⟩
    · cases hn

/-- The values held and the trees still to be worked out, less the operations to be applied. -/
def balance (m : Machine) : Int :=
  m.values.length + m.tasks.countP Task.isVisit - m.tasks.countP fun task => !task.isVisit

@[simp] theorem balance_idle : idle.balance = 0 := rfl

@[simp] theorem balance_visit (m : Machine) (t : Expr) :
    (m.todo (.visit t)).balance = m.balance + 1 := by
  simp [balance, todo, List.countP_cons]
  omega

@[simp] theorem balance_apply (m : Machine) (op : Operator) :
    (m.todo (.apply op)).balance = m.balance - 1 := by
  simp [balance, todo]
  omega

@[simp] theorem balance_gain (m : Machine) (t : Expr) : (m.gain t).balance = m.balance + 1 := by
  simp [balance, gain]
  omega

theorem During.balance_eq (h : During t below m) : m.balance = below.balance + 1 := by
  induction h with
  | visit => simp
  | left _ ih | right _ _ ih => simp [ih]
  | join => simp

/-- An operation on top of the tasks is that of a node whose operands have been worked out. -/
theorem During.exists_operands {tasks : List Task} (h : During t below m)
    (ht : m.tasks = .apply op :: tasks) :
    ∃ (lhs rhs : Expr) (base : Machine), base.tasks = tasks ∧
      lhs.fault? = none ∧ rhs.fault? = none ∧
      During t below (base.todo (.visit (.binary op lhs rhs))) ∧
      m = ((base.todo (.apply op)).gain lhs).gain rhs := by
  induction h with
  | visit => cases ht
  | left _ ih =>
    obtain ⟨l, r, base, hb, hl, hr, hd, hm⟩ := ih ht
    exact ⟨l, r, base, hb, hl, hr, .left hd, hm⟩
  | right h _ ih =>
    obtain ⟨l, r, base, hb, hl, hr, hd, hm⟩ := ih ht
    exact ⟨l, r, base, hb, hl, hr, .right h hd, hm⟩
  | @join op' lhs rhs below hl hr =>
    cases ht
    exact ⟨lhs, rhs, below, rfl, hl, hr, .visit, rfl⟩

structure Disciplined (e : Expr) (m : Machine) : Prop where
  balance_eq : m.balance = 1
  operands : ∀ op tasks, m.tasks = .apply op :: tasks →
    ∃ (lhs rhs : Expr) (a b : Int64) (before : Machine),
      before.tasks = .visit (.binary op lhs rhs) :: tasks ∧
      ReflTransGen Next (start e) before ∧ ReflTransGen Next before m ∧
      m.values = b :: a :: before.values ∧ lhs.Yields a ∧ rhs.Yields b
  last : m.tasks = [] → ∃ v, m.values = [v] ∧ e.Yields v

theorem disciplined_of_reaches {e : Expr} (h : ReflTransGen Next (start e) m) :
    Disciplined e m := by
  rcases during_or_gained h with hd | ⟨he, rfl⟩
  · constructor
    · simp [hd.balance_eq]
    · intro op tasks ht
      obtain ⟨lhs, rhs, base, rfl, hl, hr, hv, rfl⟩ := hd.exists_operands ht
      exact ⟨lhs, rhs, _, _, _, rfl, hv.reaches, (During.join hl hr).reaches, rfl,
        yields_ofInt_exact hl, yields_ofInt_exact hr⟩
    · intro ht
      exact absurd ht hd.tasks_ne_nil
  · constructor
    · simp
    · rintro op tasks ⟨⟩
    · intro _
      exact ⟨_, rfl, yields_ofInt_exact he⟩

/-- How a tree is worked out on top of a machine: what the machine has to do and to remember is left
alone, and either the value of the tree comes on top of it or the first fault ends the run. -/
inductive WorksOut (t : Expr) (below : Machine) : Prop where

  | value {v : Int64} {log : List Operation} : t.Yields v →
      ReflTransGen (Above below) (below.todo (.visit t))
        ⟨below.tasks, v :: below.values, log⟩ → WorksOut t below

  | fault {f : EvalError} {top : Machine} : t.fault? = some f →
      ReflTransGen (Above below) (below.todo (.visit t)) (top.on below) →
      top.step = .halt (.error f) → (top.on below).step = .halt (.error f) → WorksOut t below

theorem worksOut (t : Expr) (below : Machine) : WorksOut t below := by
  rcases (@During.visit t idle).ends with ⟨ht, hr⟩ | ⟨f, top, hf, hr, hd, hh⟩
  · exact .value (yields_ofInt_exact ht) (above_of_reaches hr below)
  · have hv : top.step ≠ .halt (.error .missingValue) := by
      rw [hh]
      rintro ⟨⟩
      exact ne_missingValue_of_fault?_eq hf rfl
    refine .fault hf (above_of_reaches hr below) hh ?_
    rw [step_on hd.tasks_ne_nil hv, hh]
    rfl

/-- Every run of the machine ends, and a tree is worked out on top of any other tasks and values
without touching them. There is always one value or tree more than operations, and an operation
comes up with the values of its own operands on top, the right one first. -/
theorem stack_discipline :
    (WellFounded fun later m : Machine => Next m later) ∧
    (∀ e, ∃ last, ReflTransGen Next (start e) last ∧ last.step = .halt e.value) ∧
    (∀ e m, ReflTransGen Next (start e) m → Disciplined e m) ∧
    ∀ t below, WorksOut t below := by
  refine ⟨wellFounded_next, fun e => exists_halt (start e), ?_, worksOut⟩
  intro e m h
  exact disciplined_of_reaches h

theorem stack_discipline_factor : ∃ e m,
    e = binary .mul (binary .add (number 2) (number 3)) (number 4) ∧
    m = ⟨[.apply .add, .visit (number 4), .apply .mul], [3, 2], []⟩ ∧
    ReflTransGen Next (start e) m ∧ Disciplined e m := by
  have h : ReflTransGen Next
      (start (binary .mul (binary .add (number 2) (number 3)) (number 4)))
      ⟨[.apply .add, .visit (number 4), .apply .mul], [3, 2], []⟩ :=
    .head rfl (.head rfl (.head rfl (.head rfl .refl)))
  exact ⟨_, _, rfl, rfl, h, stack_discipline.2.2.1 _ _ h⟩

end Machine

end Reckon.Expr
