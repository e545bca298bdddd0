import Mathlib.Data.List.Forall2
import Reckon.Proofs.Evaluation
import Reckon.Proofs.Nesting
import Reckon.Proofs.Replay

/-! # The operations of an evaluation

The machine performs the operations of the nodes of a tree in post-order, up to the first that
fails. A parse reduces the nodes in the same order.
-/

namespace Reckon

namespace Expr

/-- A node of a tree, with the operands of its operation. -/
structure Node where
  op : Operator
  lhs : Expr
  rhs : Expr

namespace Node

def tree (n : Node) : Expr := .binary n.op n.lhs n.rhs

/-- The operation that is performed at a node, on the values of its operands. -/
structure Records (n : Node) (o : Operation) : Prop where
  lhs : n.lhs.value = .ok o.lhs
  op : o.op = n.op
  rhs : n.rhs.value = .ok o.rhs
  applies : o.op.apply o.lhs o.rhs = .ok o.value
  value : n.tree.value = .ok o.value

/-- The operands of a node have values, but its operation fails on them. -/
inductive Fails (n : Node) (f : EvalError) : Prop where

  | intro {a b : Int64} : n.lhs.value = .ok a → n.rhs.value = .ok b →
      n.op.apply a b = .error f → n.Fails f

end Node

def nodes : Expr → List Node
  | number _ => []
  | binary op lhs rhs => lhs.nodes ++ rhs.nodes ++ [⟨op, lhs, rhs⟩]

theorem performed_postOrder_of_none {e : Expr} (h : e.fault? = none) :
    performed e.postOrder = e.postOrder :=
  List.takeWhile_eq_self_iff.mpr (isOk_of_fault?_eq_none h)

theorem operations_eq (e : Expr) : e.operations = performed e.postOrder := by
  rw [operations, Machine.start, Machine.run_visit]
  cases h : e.fault? with
  | none =>
    rw [performed_postOrder_of_none h]
    exact (congrArg Prod.snd (Machine.run_of_halt rfl)).trans (by simp)
  | some f => rfl

theorem Machine.run_visit_eq (e : Expr) (tasks : List Task) (values : List Int64)
    (log : List Operation) :
    (Machine.mk (.visit e :: tasks) values log).run =
      match e.value with
      | .ok v => (Machine.mk tasks (v :: values) (e.operations.reverse ++ log)).run
      | .error f => (.error f, log.reverse ++ e.operations) := by
  rw [run_visit, value_eq, operations_eq]
  cases h : e.fault? with
  | none => rw [performed_postOrder_of_none h]
  | some f => rfl

/-- The left operand is worked out first, and the operation is the last to be performed. -/
theorem run_start_binary (op : Operator) (lhs rhs : Expr) :
    (Machine.start (binary op lhs rhs)).run =
      match lhs.value with
      | .error f => (.error f, lhs.operations)
      | .ok a =>
        match rhs.value with
        | .error f => (.error f, lhs.operations ++ rhs.operations)
        | .ok b =>
          match op.apply a b with
          | .error f => (.error f, lhs.operations ++ rhs.operations)
          | .ok v => (.ok v, lhs.operations ++ rhs.operations ++ [⟨a, op, b, v⟩]) := by
  rw [Machine.start, Machine.run_of_next rfl, Machine.run_visit_eq]
  cases lhs.value with
  | error f => rfl
  | ok a =>
    dsimp only
    rw [Machine.run_visit_eq]
    cases rhs.value with
    | error f => simp
    | ok b =>
      dsimp only
      rw [Machine.run_apply_eq]
      cases op.apply a b with
      | error f => simp
      | ok v => exact (Machine.run_of_halt rfl).trans (by simp)

/-- The operations of the nodes of a tree, up to the first that fails. -/
def Performs (ns : List Node) (ops : List Operation) : Except EvalError Int64 → Prop
  | .ok _ => List.Forall₂ Node.Records ns ops
  | .error f => ∃ done n later, ns = done ++ n :: later ∧ List.Forall₂ Node.Records done ops ∧
      n.Fails f

theorem performs (e : Expr) : Performs e.nodes e.operations e.value := by
  induction e with
  | number n =>
    rw [value, operations, Machine.start, Machine.run_of_next rfl, Machine.run_of_halt rfl]
    exact .nil
  | binary op lhs rhs ihl ihr =>
    have hrun := run_start_binary op lhs rhs
    rw [value, operations, hrun, nodes]
    cases hl : lhs.value with
    | error f =>
      rw [hl] at ihl
      obtain ⟨done, n, later, hn, hd, hf⟩ := ihl
      exact ⟨done, n, later ++ rhs.nodes ++ [⟨op, lhs, rhs⟩], by simp [hn], hd, hf⟩
    | ok a =>
      rw [hl] at ihl
      cases hr : rhs.value with
      | error f =>
        rw [hr] at ihr
        obtain ⟨done, n, later, hn, hd, hf⟩ := ihr
        exact ⟨lhs.nodes ++ done, n, later ++ [⟨op, lhs, rhs⟩], by simp [hn],
          List.rel_append ihl hd, hf⟩
      | ok b =>
        rw [hr] at ihr
        dsimp only
        have hops := List.rel_append ihl ihr
        cases h : op.apply a b with
        | error f => exact ⟨_, ⟨op, lhs, rhs⟩, [], rfl, hops, .intro hl hr h⟩
        | ok v =>
          refine List.rel_append hops (.cons ⟨hl, rfl, hr, h, ?_⟩ .nil)
          rw [Node.tree, value, hrun]
          simp only [hl, hr, h]

end Expr

@[simp] def ParseEvent.operator? : ParseEvent → Option Operator
  | reduceBinary op => some op
  | _ => none

def joined (es : List ParseEvent) : List Operator := es.filterMap ParseEvent.operator?

@[simp] theorem joined_nil : joined [] = [] := rfl

@[simp] theorem joined_cons (event : ParseEvent) (es : List ParseEvent) :
    joined (event :: es) = event.operator?.toList ++ joined es := by
  cases event <;> rfl

@[simp] theorem joined_append (es es' : List ParseEvent) :
    joined (es ++ es') = joined es ++ joined es' := List.filterMap_append

theorem Logs.joined_eq {level : Level} {ts : List Spanned} {e : Expr} {next : Spanned}
    {es : List ParseEvent} (h : Logs level ts e next es) :
    joined es = e.nodes.map Expr.Node.op := by
  induction h with
  | literal => rfl
  | group _ _ _ ih => simp [ih]
  | operand _ ih | term _ ih => exact ih
  | product _ _ _ _ ihl ihr | sum _ _ _ _ ihl ihr => simp [Expr.nodes, ihl, ihr]

theorem Expr.map_op_of_records {ns : List Node} {ops : List Operation}
    (h : List.Forall₂ Node.Records ns ops) : ops.map Operation.op = ns.map Node.op := by
  induction h with
  | nil => rfl
  | cons hr _ ih => rw [List.map_cons, List.map_cons, hr.op, ih]

theorem evaluateTraced_trace (e : Expr) : (evaluateTraced e).trace =
    .enter .evaluate :: e.operations.map (fun op => .event (.evaluate op)) ++ [.leave .evaluate] :=
  Stage.trace_map ..

theorem runTraced_of_parse_eq_ok {settings : Settings} {source : String} {e : Expr}
    (h : parse settings source = .ok e) :
    runTraced settings source = ⟨e.value.mapError .eval,
      (parseTraced settings source).trace ++ (evaluateTraced e).trace⟩ := by
  rw [parse] at h
  rw [runTraced, h]
  rfl

/-- An evaluation reports the operations of the nodes of the tree in post-order, up to the first
that fails. A calculation that succeeds reports those that its parse has reduced, in that order. -/
theorem evaluation_trace_in_postorder :
    (∀ e : Expr, ∃ ops : List Operation,
      (evaluateTraced e).trace =
        .enter .evaluate :: ops.map (fun op => .event (.evaluate op)) ++ [.leave .evaluate] ∧
      Expr.Performs e.nodes ops (evaluateTraced e).result) ∧
    ∀ settings source v, run settings source = .ok v →
      ∃ (events : List ParseEvent) (ops : List Operation),
      (runTraced settings source).trace =
        .enter .parse :: events.map (fun event => .event (.parse event)) ++ [.leave .parse] ++
        .enter .evaluate :: ops.map (fun op => .event (.evaluate op)) ++ [.leave .evaluate] ∧
      joined events = ops.map Operation.op := by
  refine ⟨fun e => ⟨e.operations, evaluateTraced_trace e, e.performs⟩,
    fun settings source v h => ?_⟩
  cases hp : parse settings source with
  | error error =>
    rw [run_eq, hp] at h
    cases h
  | ok e =>
    have hrun := runTraced_of_parse_eq_ok hp
    obtain ⟨ts, es, -, hl, htrace⟩ := exists_logs_of_parse_eq_ok hp
    rw [htrace, evaluateTraced_trace, ← List.append_assoc] at hrun
    refine ⟨_, e.operations, congrArg Traced.trace hrun, ?_⟩
    have hops := e.performs
    cases hv : e.value with
    | error f =>
      rw [run, hrun, hv] at h
      cases h
    | ok w =>
      rw [hv] at hops
      simp [hl.joined_eq, Expr.map_op_of_records hops]

theorem evaluation_trace_in_postorder_group :
    run ⟨1⟩ "2*(1+3)" = .ok 8 ∧ ∃ (events : List ParseEvent) (ops : List Operation),
      (runTraced ⟨1⟩ "2*(1+3)").trace =
        .enter .parse :: events.map (fun event => .event (.parse event)) ++ [.leave .parse] ++
        .enter .evaluate :: ops.map (fun op => .event (.evaluate op)) ++ [.leave .evaluate] ∧
      joined events = ops.map Operation.op := by
  have hrun : run ⟨1⟩ "2*(1+3)" = .ok 8 := by decide +kernel
  exact ⟨hrun, evaluation_trace_in_postorder.2 _ _ _ hrun⟩

end Reckon
