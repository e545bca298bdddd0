import Reckon.Proofs.Logging
import Reckon.Proofs.Phrasing

/-! # Replaying a log

The rules of a log, applied one by one to a stack of trees, build the tree of the parse.
-/

namespace Reckon

variable {level : Level} {ts row : List Spanned} {e : Expr} {next : Spanned}
  {es es' before : List ParseEvent} {event : ParseEvent}

namespace ParseEvent

@[simp] def offered? : ParseEvent → Option Spanned
  | offer s => some s
  | _ => none

def isReduction : ParseEvent → Bool
  | reduceLiteral | reduceGroup | reduceBinary _ => true
  | offer _ | accept => false

end ParseEvent

def offered (es : List ParseEvent) : List Spanned := es.filterMap ParseEvent.offered?

@[simp] theorem offered_nil : offered [] = [] := rfl

@[simp] theorem offered_cons (event : ParseEvent) (es : List ParseEvent) :
    offered (event :: es) = event.offered?.toList ++ offered es := by
  cases event <;> rfl

@[simp] theorem offered_append (es es' : List ParseEvent) :
    offered (es ++ es') = offered es ++ offered es' := List.filterMap_append

def numerals (ts : List Spanned) : List Int64 := (ts.map Spanned.token).filterMap Token.value?

/-- The literals that are still to be pushed, and the trees that are built, the latest first. -/
structure Replay where
  literals : List Int64
  trees : List Expr

namespace Replay

def step (r : Replay) : ParseEvent → Option Replay
  | .reduceLiteral =>
    match r.literals with
    | n :: literals => some ⟨literals, .number n :: r.trees⟩
    | [] => none
  | .reduceBinary op =>
    match r.trees with
    | rhs :: lhs :: trees => some ⟨r.literals, .binary op lhs rhs :: trees⟩
    | _ => none
  | .offer _ | .reduceGroup | .accept => some r

def run (r : Replay) (es : List ParseEvent) : Option Replay := es.foldlM step r

variable (r : Replay)

@[simp] theorem run_nil : r.run [] = some r := rfl

@[simp] theorem run_cons (event : ParseEvent) (es : List ParseEvent) :
    r.run (event :: es) = (r.step event).bind (·.run es) := rfl

@[simp] theorem run_append (es es' : List ParseEvent) :
    r.run (es ++ es') = (r.run es).bind (·.run es') := List.foldlM_append

@[simp] theorem step_offer (s : Spanned) : r.step (.offer s) = some r := rfl

@[simp] theorem step_reduceGroup : r.step .reduceGroup = some r := rfl

@[simp] theorem step_accept : r.step .accept = some r := rfl

@[simp] theorem step_reduceBinary (op : Operator) (ns : List Int64) (lhs rhs : Expr)
    (trees : List Expr) : step ⟨ns, rhs :: lhs :: trees⟩ (.reduceBinary op) =
      some ⟨ns, .binary op lhs rhs :: trees⟩ := rfl

end Replay

namespace Logs

theorem derives (h : Logs level ts e next es) : Derives level (ts.map Spanned.token) e := by
  induction h with
  | literal hn =>
    rw [List.map_singleton, hn]
    exact .literal _
  | group ho _ hc ih => simpa [ho, hc] using Derives.group ih
  | operand _ ih => exact .operand ih
  | product ht ho _ _ ihl ihr => simpa [ht] using Derives.product ho ihl ihr
  | term _ ih => exact .term ih
  | sum ht ho _ _ ihl ihr => simpa [ht] using Derives.sum ho ihl ihr

theorem leaves_eq (h : Logs level ts e next es) : e.leaves = numerals ts := h.derives.leaves_eq

/-- The log of a phrase pushes the tree of the phrase, whatever is on the stack. -/
theorem run_eq (h : Logs level ts e next es) (ns : List Int64) (trees : List Expr) :
    Replay.run ⟨e.leaves ++ ns, trees⟩ es = some ⟨ns, e :: trees⟩ := by
  induction h generalizing ns trees with
  | literal => rfl
  | group _ _ _ ih => simp [ih]
  | operand _ ih | term _ ih => exact ih ns trees
  | product _ _ _ _ ihl ihr | sum _ _ _ _ ihl ihr => simp [Expr.leaves, ihl, ihr]

theorem offered_eq (h : Logs level ts e next es) : offered es = ts.tail ++ [next] := by
  induction h with
  | literal => rfl
  | group _ _ _ ih => simp [ih]
  | operand _ ih | term _ ih => exact ih
  | product _ _ hl _ ihl ihr | sum _ _ hl _ ihl ihr =>
    obtain ⟨first, ls, rfl⟩ := List.exists_cons_of_ne_nil hl.ne_nil
    simp [ihl, ihr]

theorem count_reduceGroup (h : Logs level ts e next es) :
    es.count .reduceGroup = (ts.map Spanned.token).count .opening := by
  induction h with
  | literal hn => simp [hn]
  | group ho _ hc ih => simp [ho, hc, ih, List.count_cons]
  | operand _ ih | term _ ih => exact ih
  | product ht _ _ _ ihl ihr | sum ht _ _ _ ihl ihr => simp_all

theorem accept_not_mem (h : Logs level ts e next es) : .accept ∉ es := by
  induction h with
  | literal => simp
  | group _ _ _ ih => simpa using ih
  | operand _ ih | term _ ih => exact ih
  | product _ _ _ _ ihl ihr | sum _ _ _ _ ihl ihr => simp [ihl, ihr]

end Logs

/-- A rule makes a phrase a tree. -/
inductive Reduces : ParseEvent → List Token → Expr → Prop where

  | literal (n : Int64) : Reduces .reduceLiteral [.integer n] (.number n)

  | group {ts : List Token} {e : Expr} : Derives .sum ts e →
      Reduces .reduceGroup (.opening :: ts ++ [.closing]) e

  | product {ls rs : List Token} {lhs rhs : Expr} {op : Operator} : op.isAdditive = false →
      Derives .product ls lhs → Derives .operand rs rhs →
      Reduces (.reduceBinary op) (ls ++ .operator op :: rs) (.binary op lhs rhs)

  | sum {ls rs : List Token} {lhs rhs : Expr} {op : Operator} : op.isAdditive = true →
      Derives .sum ls lhs → Derives .product rs rhs →
      Reduces (.reduceBinary op) (ls ++ .operator op :: rs) (.binary op lhs rhs)

/-- Behind some events the rule of an event is applied to a phrase of a row of tokens: the token
offered last stands right behind the phrase, and the tree of the phrase comes out on top. -/
def Applied (row : List Spanned) (r : Replay) (before : List ParseEvent) (event : ParseEvent) :
    Prop :=
  ∃ front phrase next back ns e trees, row = front ++ phrase ++ next :: back ∧
    (offered before).getLast? = some next ∧ Reduces event (phrase.map Spanned.token) e ∧
    r.run (before ++ [event]) = some ⟨ns, e :: trees⟩

/-- Every rule that is logged is applied to a phrase. -/
def Grounded (row : List Spanned) (r : Replay) (es : List ParseEvent) : Prop :=
  ∀ before event after, es = before ++ event :: after → event.isReduction = true →
    Applied row r before event

variable {r r' : Replay}

theorem Applied.widen (h : Applied row r before event) (front back : List Spanned) :
    Applied (front ++ (row ++ back)) r before event := by
  obtain ⟨front', phrase, next, back', ns, e, trees, rfl, h⟩ := h
  exact ⟨front ++ front', phrase, next, back' ++ back, ns, e, trees, by simp, h⟩

theorem Applied.behind (h : Applied row r' before event) (hr : r.run es = some r') :
    Applied row r (es ++ before) event := by
  obtain ⟨front, phrase, next, back, ns, e, trees, hrow, hlast, hreduces, hafter⟩ := h
  refine ⟨front, phrase, next, back, ns, e, trees, hrow, ?_, hreduces, ?_⟩
  · rw [offered_append, List.getLast?_append, hlast, Option.some_or]
  · rw [List.append_assoc, Replay.run_append, hr]
    exact hafter

theorem Grounded.widen (h : Grounded row r es) (front back : List Spanned) :
    Grounded (front ++ (row ++ back)) r es :=
  fun before event after hes he => (h before event after hes he).widen front back

theorem Grounded.append (h : Grounded row r es) (hr : r.run es = some r')
    (h' : Grounded row r' es') : Grounded row r (es ++ es') := by
  intro before event after hes he
  rcases List.append_eq_append_iff.mp hes with ⟨more, rfl, hes'⟩ | ⟨more, rfl, hes'⟩
  · exact (h' more event after hes' he).behind hr
  · cases more with
    | nil => simpa using (h' [] event after (by simpa using hes'.symm) he).behind hr
    | cons event' more =>
      obtain ⟨rfl, -⟩ := List.cons.inj hes'
      exact h before event more rfl he

theorem grounded_nil : Grounded row r [] := by
  intro before event after hes
  simp at hes

theorem Grounded.concat (h : Grounded row r es)
    (he : event.isReduction = true → Applied row r es event) : Grounded row r (es ++ [event]) := by
  intro before event' after hes hr
  rcases List.eq_nil_or_concat after with rfl | ⟨after, last, rfl⟩
  · obtain ⟨rfl, rfl⟩ := List.append_singleton_inj.mp hes
    exact he hr
  · rw [List.concat_eq_append, ← List.cons_append, ← List.append_assoc,
      List.append_singleton_inj] at hes
    exact h before event' after hes.1 hr

theorem grounded_offer (s : Spanned) : Grounded row r [.offer s] :=
  @Grounded.concat row [] (.offer s) r grounded_nil fun h => by cases h

namespace Logs

theorem getLast?_offered (h : Logs level ts e next es) (es' : List ParseEvent) :
    (offered (es' ++ es)).getLast? = some next := by
  rw [offered_append, h.offered_eq, ← List.append_assoc, List.getLast?_concat]

theorem grounded_binary {level inner : Level} {o first next : Spanned} {op : Operator}
    {ls rs : List Spanned} {lhs rhs : Expr} {ns : List Int64} {trees : List Expr}
    (hl : Logs level ls lhs o es) (hr : Logs inner (first :: rs) rhs next es')
    (ihl : ∀ ns trees, Grounded (ls ++ [o]) ⟨lhs.leaves ++ ns, trees⟩ es)
    (ihr : ∀ ns trees, Grounded (first :: rs ++ [next]) ⟨rhs.leaves ++ ns, trees⟩ es')
    (hreduces : Reduces (.reduceBinary op) ((ls ++ o :: first :: rs).map Spanned.token)
      (.binary op lhs rhs)) :
    Grounded (ls ++ o :: first :: rs ++ [next]) ⟨(Expr.binary op lhs rhs).leaves ++ ns, trees⟩
      (es ++ .offer first :: es' ++ [.reduceBinary op]) := by
  have hlhs := hl.run_eq (rhs.leaves ++ ns) trees
  have hrhs := hr.run_eq ns (lhs :: trees)
  have hleft := (ihl (rhs.leaves ++ ns) trees).widen [] (first :: rs ++ [next])
  have hright := (ihr ns (lhs :: trees)).widen (ls ++ [o]) []
  rw [Expr.leaves, List.append_assoc]
  refine Grounded.concat ?_ fun _ => ?_
  · have hoffer := (grounded_offer first).append rfl hright
    simpa using hleft.append hlhs (by simpa using hoffer)
  · refine ⟨[], ls ++ o :: first :: rs, next, [], ns, .binary op lhs rhs, trees, by simp, ?_,
      hreduces, by simp [hlhs, hrhs]⟩
    rw [List.append_cons]
    exact hr.getLast?_offered _

theorem grounded (h : Logs level ts e next es) (ns : List Int64) (trees : List Expr) :
    Grounded (ts ++ [next]) ⟨e.leaves ++ ns, trees⟩ es := by
  induction h generalizing ns trees with
  | @literal s next n hn =>
    refine (grounded_offer next).concat fun _ => ?_
    exact ⟨[], [s], next, [], ns, .number n, trees, rfl, rfl, by simpa [hn] using .literal n, rfl⟩
  | @group o c first next ts e es ho hl hc ih =>
    have hinner := (ih ns trees).widen [o] [next]
    have hoffer := (grounded_offer first).append rfl hinner
    have hrun := hl.run_eq ns trees
    have hbefore : Grounded (o :: first :: ts ++ [c] ++ [next]) ⟨e.leaves ++ ns, trees⟩
        (.offer first :: es ++ [.offer next]) := by
      refine Grounded.concat (by simpa using hoffer) fun h => by cases h
    have hlast : (offered (.offer first :: es ++ [.offer next])).getLast? = some next := by
      rw [offered_append]
      exact List.getLast?_concat
    have hreduces : Reduces .reduceGroup ((o :: first :: ts ++ [c]).map Spanned.token) e := by
      simpa [ho, hc] using Reduces.group hl.derives
    have happlied : Applied (o :: first :: ts ++ [c] ++ [next]) ⟨e.leaves ++ ns, trees⟩
        (.offer first :: es ++ [.offer next]) .reduceGroup :=
      ⟨[], _, next, [], ns, e, trees, rfl, hlast, hreduces, by simp [hrun]⟩
    simpa using hbefore.concat fun _ => happlied
  | operand _ ih | term _ ih => exact ih ns trees
  | product ht ho hl hr ihl ihr =>
    exact grounded_binary hl hr ihl ihr
      (by simpa [ht] using Reduces.product ho hl.derives hr.derives)
  | sum ht ho hl hr ihl ihr =>
    exact grounded_binary hl hr ihl ihr (by simpa [ht] using Reduces.sum ho hl.derives hr.derives)

end Logs

end Reckon
