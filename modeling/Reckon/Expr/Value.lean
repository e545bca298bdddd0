import Reckon.Expr.Basic
import Reckon.Failure

/-! # The value of an expression

A machine with a stack of tasks and a stack of values works an expression out, whatever its depth. A
result outside the 64-bit range is a failure and never wraps.
-/

namespace Reckon

def InRange (n : Int) : Prop := Int64.minValue.toInt ≤ n ∧ n ≤ Int64.maxValue.toInt

instance (n : Int) : Decidable (InRange n) := inferInstanceAs (Decidable (_ ∧ _))

/-- Perform an operation, unless it divides by zero or leaves the range. -/
def Operator.apply (op : Operator) (lhs rhs : Int64) : Except EvalError Int64 :=
  if op = .div ∧ rhs = 0 then .error .divisionByZero
  else
    let n := op.exact lhs.toInt rhs.toInt
    if InRange n then .ok (Int64.ofInt n) else .error (.overflow lhs op rhs)

structure Operation where
  lhs : Int64
  op : Operator
  rhs : Int64
  value : Int64
  deriving DecidableEq, Repr

namespace Expr

/-- What the machine still has to do: work out a tree, or join the two latest values. -/
inductive Task where
  | visit (e : Expr)
  | apply (op : Operator)

/-- The machine, each stack with its top first and the log with the latest operation first. -/
structure Machine where
  tasks : List Task
  values : List Int64
  log : List Operation

def Task.weight : Task → Nat
  | visit e => e.weight
  | apply _ => 1

/-- The number of steps that some tasks take is at most this. -/
def totalWeight : List Task → Nat
  | [] => 0
  | task :: tasks => task.weight + totalWeight tasks

namespace Machine

def start (e : Expr) : Machine := ⟨[.visit e], [], []⟩

def weight (m : Machine) : Nat := totalWeight m.tasks

inductive Step where
  | next (m : Machine)
  | halt (result : Except EvalError Int64)

def step (m : Machine) : Step :=
  match m.tasks with
  | [] =>
    match m.values with
    | value :: _ => .halt (.ok value)
    | [] => .halt (.error .missingValue)
  | .visit (.number n) :: tasks => .next { m with tasks := tasks, values := n :: m.values }
  | .visit (.binary op lhs rhs) :: tasks =>
    .next { m with tasks := .visit lhs :: .visit rhs :: .apply op :: tasks }
  | .apply op :: tasks =>
    match m.values with
    | rhs :: lhs :: values =>
      match op.apply lhs rhs with
      | .ok value => .next ⟨tasks, value :: values, ⟨lhs, op, rhs, value⟩ :: m.log⟩
      | .error error => .halt (.error error)
    | _ => .halt (.error .missingValue)

theorem weight_lt_of_step_eq_next {m m' : Machine} (h : m.step = .next m') :
    m'.weight < m.weight := by
  obtain ⟨tasks, values, log⟩ := m
  cases tasks with
  | nil => cases values <;> simp [step] at h
  | cons task tasks =>
    cases task with
    | visit e =>
      cases e with
      | number n =>
        simp only [step, Step.next.injEq] at h
        simp [← h, weight, totalWeight, Task.weight, Expr.weight]
      | binary op lhs rhs =>
        simp only [step, Step.next.injEq] at h
        simp only [← h, weight, totalWeight, Task.weight, Expr.weight]
        omega
    | apply op =>
      rcases values with _ | ⟨rhs, _ | ⟨lhs, values⟩⟩
      · simp [step] at h
      · simp [step] at h
      · cases ha : op.apply lhs rhs with
        | error error => simp [step, ha] at h
        | ok value =>
          simp only [step, ha, Step.next.injEq] at h
          simp [← h, weight, totalWeight, Task.weight]

/-- Run to the end and give the result with the operations performed, in order. -/
def run (m : Machine) : Except EvalError Int64 × List Operation :=
  match _h : m.step with
  | .next m' => m'.run
  | .halt result => (result, m.log.reverse)
termination_by m.weight
decreasing_by exact weight_lt_of_step_eq_next _h

end Machine

/-- The value of an expression, or its first operation without a result. -/
def value (e : Expr) : Except EvalError Int64 := (Machine.start e).run.1

def operations (e : Expr) : List Operation := (Machine.start e).run.2

end Expr

end Reckon
