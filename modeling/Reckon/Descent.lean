import Reckon.Expr.Basic
import Reckon.Token.Cursor

/-! # Recursive descent

The readers look one token ahead, and fold operators of one rank to the left:

    sum := product (('+' | '-') product)*
    product := operand (('*' | '/') operand)*
    operand := INTEGER | '(' sum ')'
-/

namespace Reckon

/-- The steps of a descent. The rank of an operator tells a rule of sums from one of products. -/
inductive ParseEvent where
  | offer (token : Spanned)
  | reduceLiteral
  | reduceGroup
  | reduceBinary (op : Operator)
  | accept
  deriving DecidableEq, Repr

/-- A descent with its cursor behind the current token and its log with the latest event first. -/
structure Descent where
  cursor : Cursor
  current : Spanned
  depth : UInt64
  limit : UInt64
  log : List ParseEvent

/-- The end of a descent that fails: its error, and the log with the latest event first. -/
structure Rejection where
  error : ParseError
  log : List ParseEvent
  deriving DecidableEq, Repr

namespace Descent

/-- Read the first token of a source, which is not logged. -/
def start (source : String) (limit : UInt64) : Except ParseError Descent :=
  match (Cursor.start source).nextToken with
  | (.error error, _) => .error (.scan error)
  | (.ok token, cursor) => .ok ⟨cursor, token, 0, limit, []⟩

def record (event : ParseEvent) (d : Descent) : Descent := { d with log := event :: d.log }

def advance (d : Descent) : Except Rejection Descent :=
  match d.cursor.nextToken with
  | (.error error, _) => .error ⟨.scan error, d.log⟩
  | (.ok token, cursor) =>
    .ok { d with cursor := cursor, current := token, log := .offer token :: d.log }

def mismatch (d : Descent) (expected : List Kind) : Rejection :=
  ⟨.mismatch expected d.current.token d.current.start, d.log⟩

def expect (d : Descent) (kind : Kind) : Except Rejection Descent :=
  if d.current.token.kind = kind then d.advance else .error (d.mismatch [kind])

/-- Open a group, if the limit allows one more. -/
def enter (d : Descent) : Except Rejection Descent :=
  if d.limit ≤ d.depth then .error ⟨.tooDeep d.limit d.current.start, d.log⟩
  else { d with depth := d.depth + 1 }.advance

def leave (d : Descent) : Except Rejection Descent :=
  (d.expect .closing).map fun d => { d with depth := d.depth - 1 }.record .reduceGroup

/-- An upper bound on the tokens from the current one to the end. -/
def remaining (d : Descent) : Nat :=
  d.cursor.rest.length + if d.current.token = .finish then 0 else 1

/-- The operator of a current token that continues a sum. -/
def additive? (d : Descent) : Option Operator :=
  d.current.token.operator?.filter Operator.isAdditive

def multiplicative? (d : Descent) : Option Operator :=
  d.current.token.operator?.filter (!·.isAdditive)

@[simp] theorem remaining_record (d : Descent) (event : ParseEvent) :
    (d.record event).remaining = d.remaining := rfl

theorem remaining_le_of_advance {d d' : Descent} (h : d.advance = .ok d') :
    d'.remaining ≤ d.cursor.rest.length := by
  unfold advance Cursor.nextToken at h
  cases hx : d.cursor.exhausted with
  | true =>
    simp [hx] at h
    subst h
    simp [remaining, Cursor.finish]
  | false =>
    simp only [hx, Bool.false_eq_true, if_false] at h
    cases hs : scan d.cursor.position d.cursor.rest with
    | token token rest =>
      have hl := length_lt_of_scan_eq_token hs
      simp [hs] at h
      subst h
      simp only [remaining]
      split <;> omega
    | fault error stop => simp [hs] at h
    | finish =>
      simp [hs] at h
      subst h
      simp [remaining, Cursor.finish]

theorem remaining_lt_of_advance {d d' : Descent} (hd : d.current.token ≠ .finish)
    (h : d.advance = .ok d') : d'.remaining < d.remaining := by
  have hl := remaining_le_of_advance h
  simp only [remaining, hd, if_false] at hl ⊢
  omega

theorem token_eq_of_kind_eq_closing {token : Token} (h : token.kind = .closing) :
    token = .closing := by
  cases token <;> simp_all [Token.kind]

theorem remaining_lt_of_leave {d d' : Descent} (h : d.leave = .ok d') :
    d'.remaining < d.remaining := by
  unfold leave expect at h
  split at h
  · rename_i hk
    cases ha : d.advance with
    | error error => simp [ha, Except.map] at h
    | ok next =>
      simp only [ha, Except.map, Except.ok.injEq] at h
      have hn : next.remaining < d.remaining :=
        remaining_lt_of_advance (by simp [token_eq_of_kind_eq_closing hk]) ha
      rw [← h]
      exact hn
  · simp [Except.map] at h

theorem remaining_lt_of_enter {d d' : Descent} (hd : d.current.token ≠ .finish)
    (h : d.enter = .ok d') : d'.remaining < d.remaining := by
  unfold enter at h
  split at h
  · simp at h
  · exact remaining_lt_of_advance (d := { d with depth := d.depth + 1 }) hd h

theorem ne_finish_of_operator?_eq_some {token : Token} {op : Operator}
    (h : token.operator? = some op) : token ≠ .finish := by
  rintro rfl
  simp [Token.operator?] at h

theorem ne_finish_of_additive? {d : Descent} {op : Operator} (h : d.additive? = some op) :
    d.current.token ≠ .finish :=
  ne_finish_of_operator?_eq_some (Option.filter_eq_some_iff.mp h).1

theorem ne_finish_of_multiplicative? {d : Descent} {op : Operator}
    (h : d.multiplicative? = some op) : d.current.token ≠ .finish :=
  ne_finish_of_operator?_eq_some (Option.filter_eq_some_iff.mp h).1

/-- A tree with the state behind it, which has a given property. -/
structure Reached (P : Descent → Prop) where
  tree : Expr
  next : Descent
  holds : P next

def Reached.pair {P : Descent → Prop} (r : Reached P) : Expr × Descent := (r.tree, r.next)

mutual

/-- Read a sum, to a state that has any property shared by the states with less to read. -/
def sumTo (d : Descent) (P : Descent → Prop)
    (shorter : ∀ d', d'.remaining < d.remaining → P d') : Except Rejection (Reached P) :=
  match d.productTo (·.remaining < d.remaining) fun _ h => h with
  | .error rejection => .error rejection
  | .ok ⟨lhs, next, h⟩ =>
    next.moreTermsTo lhs P fun d' h' => shorter d' (Nat.lt_of_le_of_lt h' h)
termination_by 3 * d.remaining + 2

def moreTermsTo (d : Descent) (lhs : Expr) (P : Descent → Prop)
    (shorter : ∀ d', d'.remaining ≤ d.remaining → P d') : Except Rejection (Reached P) :=
  match ho : d.additive? with
  | none => .ok ⟨lhs, d, shorter d (Nat.le_refl _)⟩
  | some op =>
    match ha : d.advance with
    | .error rejection => .error rejection
    | .ok behind =>
      have hb := remaining_lt_of_advance (ne_finish_of_additive? ho) ha
      match behind.productTo (·.remaining < behind.remaining) fun _ h => h with
      | .error rejection => .error rejection
      | .ok ⟨rhs, next, h⟩ =>
        (next.record (.reduceBinary op)).moreTermsTo (.binary op lhs rhs) P fun d' h' =>
          shorter d' (by rw [remaining_record] at h'; omega)
termination_by 3 * d.remaining

def productTo (d : Descent) (P : Descent → Prop)
    (shorter : ∀ d', d'.remaining < d.remaining → P d') : Except Rejection (Reached P) :=
  match d.operandTo (·.remaining < d.remaining) fun _ h => h with
  | .error rejection => .error rejection
  | .ok ⟨lhs, next, h⟩ =>
    next.moreOperandsTo lhs P fun d' h' => shorter d' (Nat.lt_of_le_of_lt h' h)
termination_by 3 * d.remaining + 1

def moreOperandsTo (d : Descent) (lhs : Expr) (P : Descent → Prop)
    (shorter : ∀ d', d'.remaining ≤ d.remaining → P d') : Except Rejection (Reached P) :=
  match ho : d.multiplicative? with
  | none => .ok ⟨lhs, d, shorter d (Nat.le_refl _)⟩
  | some op =>
    match ha : d.advance with
    | .error rejection => .error rejection
    | .ok behind =>
      have hb := remaining_lt_of_advance (ne_finish_of_multiplicative? ho) ha
      match behind.operandTo (·.remaining < behind.remaining) fun _ h => h with
      | .error rejection => .error rejection
      | .ok ⟨rhs, next, h⟩ =>
        (next.record (.reduceBinary op)).moreOperandsTo (.binary op lhs rhs) P fun d' h' =>
          shorter d' (by rw [remaining_record] at h'; omega)
termination_by 3 * d.remaining

def operandTo (d : Descent) (P : Descent → Prop)
    (shorter : ∀ d', d'.remaining < d.remaining → P d') : Except Rejection (Reached P) :=
  match ht : d.current.token with
  | .integer n =>
    match ha : d.advance with
    | .error rejection => .error rejection
    | .ok next =>
      have hn : next.remaining < d.remaining := remaining_lt_of_advance (by simp [ht]) ha
      .ok ⟨.number n, next.record .reduceLiteral, shorter _ hn⟩
  | .opening =>
    match he : d.enter with
    | .error rejection => .error rejection
    | .ok inside =>
      have hi := remaining_lt_of_enter (by simp [ht]) he
      match inside.sumTo (·.remaining < inside.remaining) fun _ h => h with
      | .error rejection => .error rejection
      | .ok ⟨e, next, h⟩ =>
        match hl : next.leave with
        | .error rejection => .error rejection
        | .ok behind =>
          .ok ⟨e, behind, shorter _ (by have := remaining_lt_of_leave hl; omega)⟩
  | .operator _ | .closing | .finish => .error (d.mismatch [.integer, .opening])
termination_by 3 * d.remaining

end

def sum (d : Descent) : Except Rejection (Expr × Descent) :=
  (d.sumTo (·.remaining < d.remaining) fun _ h => h).map Reached.pair

def moreTerms (d : Descent) (lhs : Expr) : Except Rejection (Expr × Descent) :=
  (d.moreTermsTo lhs (·.remaining ≤ d.remaining) fun _ h => h).map Reached.pair

def product (d : Descent) : Except Rejection (Expr × Descent) :=
  (d.productTo (·.remaining < d.remaining) fun _ h => h).map Reached.pair

def moreOperands (d : Descent) (lhs : Expr) : Except Rejection (Expr × Descent) :=
  (d.moreOperandsTo lhs (·.remaining ≤ d.remaining) fun _ h => h).map Reached.pair

def operand (d : Descent) : Except Rejection (Expr × Descent) :=
  (d.operandTo (·.remaining < d.remaining) fun _ h => h).map Reached.pair

end Descent

end Reckon
