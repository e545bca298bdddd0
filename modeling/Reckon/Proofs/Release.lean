import Reckon.Expr.Dismantle
import Reckon.Proofs.Operations

/-! # Releasing a tree

Every node below the root is moved to the stack once and as it was, and goes with nothing but leaves
below it.
-/

namespace Reckon.Expr

variable {e x : Expr} {stack moved taken : List Expr}

def inner : Expr → List Node
  | number _ => []
  | binary _ lhs rhs => lhs.nodes ++ rhs.nodes

/-- What is left of a node when the operations among its operands have been moved. -/
def Node.husk (n : Node) : Expr := .binary n.op n.lhs.stump n.rhs.stump

def children : Expr → List Expr
  | number _ => []
  | binary _ lhs rhs => [lhs, rhs]

def Bare (e : Expr) : Prop := ∀ c ∈ e.children, ∃ n, c = number n

theorem pushTo_eq_append (stack : List Expr) (e : Expr) :
    e.pushTo stack = e.pushTo [] ++ stack := by
  cases e <;> rfl

theorem detach_fst (stack : List Expr) (e : Expr) : (e.detach stack).1 = (e.detach []).1 := by
  cases e <;> rfl

theorem detach_snd (stack : List Expr) (e : Expr) :
    (e.detach stack).2 = (e.detach []).2 ++ stack := by
  cases e with
  | number n => rfl
  | binary op lhs rhs =>
    simp only [detach]
    rw [pushTo_eq_append (lhs.pushTo stack), pushTo_eq_append (lhs.pushTo []),
      pushTo_eq_append stack lhs, List.append_assoc]

theorem exists_stump_eq (e : Expr) : ∃ n, e.stump = number n := by
  cases e with
  | number n => exact ⟨n, rfl⟩
  | binary op lhs rhs => exact ⟨0, rfl⟩

theorem bare_detach (stack : List Expr) (e : Expr) : (e.detach stack).1.Bare := by
  cases e with
  | number n => simp [detach, Bare, children]
  | binary op lhs rhs => simp [detach, Bare, children, exists_stump_eq]

theorem Bare.detach_eq (h : e.Bare) (stack : List Expr) : e.detach stack = (e, stack) := by
  cases e with
  | number n => rfl
  | binary op lhs rhs =>
    obtain ⟨a, rfl⟩ := h lhs (by simp [children])
    obtain ⟨b, rfl⟩ := h rhs (by simp [children])
    rfl

/-- The loop from a stack until it is empty, with all that is moved to the stack and taken off. -/
inductive Unwinds : List Expr → List Expr → List Expr → Prop where

  | done : Unwinds [] [] []

  | round {x : Expr} {stack added moved taken : List Expr} :
      (x.detach stack).2 = added ++ stack → Unwinds (x.detach stack).2 moved taken →
      Unwinds (x :: stack) (added ++ moved) (x :: taken)

namespace Unwinds

/-- Whatever comes to the stack is taken off once. -/
theorem perm (h : Unwinds stack moved taken) : (stack ++ moved).Perm taken := by
  induction h with
  | done => exact .nil
  | @round x stack added moved taken hd _ ih =>
    rw [hd, List.append_assoc] at ih
    have hcomm : (stack ++ (added ++ moved)).Perm (added ++ (stack ++ moved)) :=
      List.perm_append_comm_assoc stack added moved
    exact (hcomm.trans ih).cons x

theorem releaseAll_eq (h : Unwinds stack moved taken) :
    releaseAll stack = taken.map fun x => (x.detach []).1 := by
  induction h with
  | done => rw [releaseAll, List.map_nil]
  | @round x stack added moved taken _ _ ih => rw [releaseAll, ih, List.map_cons, detach_fst]

end Unwinds

/-- A tree on top of a stack is taken apart before the rest, its nodes in reverse post-order. -/
theorem exists_unwinds_pushTo (e : Expr) (h : ∃ moved, Unwinds stack moved taken) :
    ∃ moved, Unwinds (e.pushTo stack) moved (e.nodes.reverse.map Node.tree ++ taken) := by
  induction e generalizing stack taken with
  | number n => exact h
  | binary op lhs rhs ihl ihr =>
    -- the right operand is on top of the left one
    obtain ⟨moved, hm⟩ := ihr (ihl h)
    have hnodes : (binary op lhs rhs).nodes.reverse.map Node.tree ++ taken =
        binary op lhs rhs :: (rhs.nodes.reverse.map Node.tree ++
          (lhs.nodes.reverse.map Node.tree ++ taken)) := by
      simp [nodes, Node.tree]
    rw [hnodes]
    exact ⟨_, .round (detach_snd stack (binary op lhs rhs)) hm⟩

theorem exists_unwinds_detach (e : Expr) :
    ∃ moved, Unwinds (e.detach []).2 moved (e.inner.reverse.map Node.tree) := by
  cases e with
  | number n => exact ⟨[], .done⟩
  | binary op lhs rhs =>
    have hm := exists_unwinds_pushTo rhs (exists_unwinds_pushTo lhs ⟨[], .done⟩)
    simpa [inner, detach] using hm

/-- A release has at most a number of releases open: itself, and with it that of a node that goes at
the end of a round, or in the end that of a child that the root still has. -/
def Nests : Nat → Expr → Prop
  | 0, _ => False
  | n + 1, e => (∀ x ∈ releaseAll (e.detach []).2, Nests n x) ∧
      ∀ c ∈ (e.detach []).1.children, Nests n c

theorem Bare.nests_succ {n : Nat} (h : e.Bare) (hc : ∀ c ∈ e.children, Nests n c) :
    Nests (n + 1) e := by
  rw [Nests, h.detach_eq, releaseAll]
  exact ⟨fun x hx => absurd hx List.not_mem_nil, hc⟩

theorem nests_number (a : Int64) : Nests 1 (number a) :=
  Bare.nests_succ (fun _ hc => absurd hc List.not_mem_nil) fun _ hc => absurd hc List.not_mem_nil

theorem Bare.nests (h : e.Bare) : Nests 2 e := by
  refine h.nests_succ fun c hc => ?_
  obtain ⟨n, rfl⟩ := h c hc
  exact nests_number n

theorem bare_of_mem_dismantle (h : x ∈ e.dismantle) : x.Bare := by
  obtain ⟨moved, hm⟩ := exists_unwinds_detach e
  rw [dismantle, hm.releaseAll_eq, List.mem_append, List.mem_map, List.mem_singleton] at h
  rcases h with ⟨y, -, rfl⟩ | rfl
  · exact bare_detach [] y
  · exact bare_detach [] e

theorem nests_three (e : Expr) : Nests 3 e := by
  constructor
  · intro x hx
    exact (bare_of_mem_dismantle (List.mem_append_left _ hx)).nests
  · intro c hc
    obtain ⟨n, rfl⟩ := bare_detach [] e c hc
    exact Bare.nests fun _ hc => absurd hc List.not_mem_nil

/-- The loop that takes a tree apart ends. Every node below the root comes to the stack once, with
its operator and operands as they were, and no leaf does. A node goes with nothing but leaves below
it, so that its own release moves nothing and reaches no further than those leaves. -/
theorem release_flattens (e : Expr) :
    ∃ moved, Unwinds (e.detach []).2 moved (e.inner.reverse.map Node.tree) ∧
      ((e.detach []).2 ++ moved).Perm (e.inner.map Node.tree) ∧
      e.dismantle = e.inner.reverse.map Node.husk ++ [(e.detach []).1] ∧
      (∀ x ∈ e.dismantle, x.Bare ∧ (∀ stack, x.detach stack = (x, stack)) ∧ Nests 2 x) ∧
      Nests 3 e := by
  obtain ⟨moved, hm⟩ := exists_unwinds_detach e
  refine ⟨moved, hm, ?_, ?_, ?_, nests_three e⟩
  · exact hm.perm.trans ((List.reverse_perm _).map _)
  · rw [dismantle, hm.releaseAll_eq, List.map_map]
    rfl
  · intro x hx
    have hb := bare_of_mem_dismantle hx
    exact ⟨hb, hb.detach_eq, hb.nests⟩

theorem release_flattens_sum : ∃ e x,
    e = binary .sub (binary .add (number 1) (binary .mul (number 2) (number 3))) (number 4) ∧
    x = binary .add (number 1) (number 0) ∧ x ∈ e.dismantle ∧ x.Bare ∧
    (∀ stack, x.detach stack = (x, stack)) ∧ Nests 2 x ∧ Nests 3 e := by
  obtain ⟨moved, -, -, hd, hx, hn⟩ := release_flattens
    (binary .sub (binary .add (number 1) (binary .mul (number 2) (number 3))) (number 4))
  have hmem : binary .add (number 1) (number 0) ∈ dismantle
      (binary .sub (binary .add (number 1) (binary .mul (number 2) (number 3))) (number 4)) := by
    rw [hd]
    simp [inner, nodes, Node.husk, stump]
  obtain ⟨hb, hs, hr⟩ := hx _ hmem
  exact ⟨_, _, rfl, rfl, hmem, hb, hs, hr, hn⟩

end Reckon.Expr
