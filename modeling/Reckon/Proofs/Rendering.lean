import Reckon.Expr.Text

/-! # Reading the text of an expression back

A reader that goes through the text of a tree from the right recovers the tree: an operator finds
its operands on top of the trees read so far.
-/

namespace Reckon.Expr

def rendering : Expr → String
  | number n => Decimal.intText n.toInt
  | binary op lhs rhs => "(" ++ op.text ++ " " ++ lhs.rendering ++ " " ++ rhs.rendering ++ ")"

def Piece.rendering : Piece → String
  | tree e => e.rendering
  | mark c => String.singleton c

/-- What is still to be written comes behind what is there already. -/
theorem write_eq (out : String) (pieces : List Piece) :
    write out pieces = out ++ String.join (pieces.map Piece.rendering) := by
  fun_induction write out pieces with
  | case1 out => simp
  | case2 out c pieces ih =>
    rw [ih]
    simp [← String.toList_inj, Piece.rendering]
  | case3 out n pieces ih =>
    rw [ih]
    simp [← String.toList_inj, Piece.rendering, rendering]
  | case4 out op lhs rhs pieces ih =>
    rw [ih]
    simp [← String.toList_inj, Piece.rendering, rendering, Operator.text]

theorem text_eq_rendering (e : Expr) : e.text = e.rendering := by
  rw [text, write_eq]
  simp [Piece.rendering]

/-- What a reader has found from some place on: digits that start there, and the trees behind. -/
structure Found where
  digits : List Char
  trees : List Expr

namespace Found

def close (f : Found) : Found :=
  if f.digits = [] then f else ⟨[], .number (Int64.ofInt (Decimal.value f.digits)) :: f.trees⟩

def step (c : Char) (f : Found) : Option Found :=
  if c.isDigit then some ⟨c :: f.digits, f.trees⟩
  else if c = '-' ∧ f.digits ≠ [] then
    some ⟨[], .number (Int64.ofInt (-Decimal.value f.digits)) :: f.trees⟩
  else
    match Operator.ofSymbol? c, f.close.trees with
    | some op, lhs :: rhs :: trees => some ⟨[], .binary op lhs rhs :: trees⟩
    | some _, _ => none
    | none, _ => some f.close

end Found

def ofText? (text : String) : Option Expr := do
  match (← text.toList.foldrM Found.step ⟨[], []⟩).close.trees with
  | [e] => some e
  | _ => none

namespace Found

@[simp] theorem close_closed (trees : List Expr) : close ⟨[], trees⟩ = ⟨[], trees⟩ := rfl

theorem foldrM_step_digits {ds : List Char} (h : ∀ c ∈ ds, c.isDigit = true) (f : Found) :
    ds.foldrM step f = some ⟨ds ++ f.digits, f.trees⟩ := by
  induction ds with
  | nil => rfl
  | cons c ds ih =>
    rw [List.foldrM_cons, ih fun d hd => h d (List.mem_cons_of_mem _ hd)]
    simp [step, h c List.mem_cons_self]

/-- Some text is read as one more tree. -/
def Reads (text : List Char) (e : Expr) : Prop :=
  ∀ trees, ∃ f, text.foldrM step ⟨[], trees⟩ = some f ∧ f.close = ⟨[], e :: trees⟩

theorem foldrM_step_digits_of_nat (k : Nat) (trees : List Expr) :
    (Decimal.digits k).foldrM step ⟨[], trees⟩ = some ⟨Decimal.digits k, trees⟩ := by
  rw [foldrM_step_digits fun c hc => ?_, List.append_nil]
  rcases Decimal.isDigit_of_mem_digitsOnto hc with hd | hd
  · exact hd
  · cases hd

theorem reads_natText (k : Nat) :
    Reads (Decimal.natText k).toList (.number (Int64.ofInt k)) := by
  intro trees
  refine ⟨⟨Decimal.digits k, trees⟩, ?_, ?_⟩
  · rw [Decimal.natText, String.toList_ofList, foldrM_step_digits_of_nat]
  · have hne : Decimal.digits k ≠ [] := Decimal.digitsOnto_ne_nil k []
    simp [close, hne, Decimal.value_digits]

theorem reads_neg_natText (k : Nat) :
    Reads ("-" ++ Decimal.natText k).toList (.number (Int64.ofInt (-k))) := by
  intro trees
  refine ⟨⟨[], .number (Int64.ofInt (-k)) :: trees⟩, ?_, rfl⟩
  have hne : Decimal.digits k ≠ [] := Decimal.digitsOnto_ne_nil k []
  have hstep : step '-' ⟨Decimal.digits k, trees⟩ =
      some ⟨[], .number (Int64.ofInt (-k)) :: trees⟩ := by
    rw [step, if_neg (by decide), if_pos ⟨rfl, hne⟩, Decimal.value_digits]
  simp [Decimal.natText, foldrM_step_digits_of_nat, hstep]

theorem reads_number (n : Int64) : Reads (Decimal.intText n.toInt).toList (.number n) := by
  have hn := n.ofInt_toInt
  cases hm : n.toInt with
  | ofNat k =>
    rw [hm] at hn
    exact hn ▸ reads_natText k
  | negSucc k =>
    rw [hm] at hn
    exact hn ▸ reads_neg_natText (k + 1)

theorem step_mark {c : Char} (hd : c.isDigit = false) (hm : c ≠ '-')
    (ho : Operator.ofSymbol? c = none) (f : Found) : step c f = some f.close := by
  simp [step, hd, hm, ho]

theorem step_symbol (op : Operator) (lhs rhs : Expr) (trees : List Expr) :
    step op.symbol ⟨[], lhs :: rhs :: trees⟩ = some ⟨[], .binary op lhs rhs :: trees⟩ := by
  cases op <;> rfl

theorem reads_binary {l r : List Char} {lhs rhs : Expr} (hl : Reads l lhs) (hr : Reads r rhs)
    (op : Operator) :
    Reads ('(' :: op.symbol :: ' ' :: l ++ ' ' :: r ++ [')']) (.binary op lhs rhs) := by
  intro trees
  obtain ⟨f, hf, hfc⟩ := hr trees
  obtain ⟨g, hg, hgc⟩ := hl (rhs :: trees)
  have hspace (f : Found) : step ' ' f = some f.close := step_mark rfl (by decide) rfl f
  have hopening (f : Found) : step '(' f = some f.close := step_mark rfl (by decide) rfl f
  have hclosing (f : Found) : step ')' f = some f.close := step_mark rfl (by decide) rfl f
  refine ⟨⟨[], .binary op lhs rhs :: trees⟩, ?_, rfl⟩
  simp [hspace, hopening, hclosing, step_symbol, hf, hfc, hg, hgc]

theorem reads_rendering (e : Expr) : Reads e.rendering.toList e := by
  induction e with
  | number n => exact reads_number n
  | binary op lhs rhs ihl ihr =>
    simpa [rendering, Operator.text] using reads_binary ihl ihr op

end Found

theorem ofText?_text (e : Expr) : ofText? e.text = some e := by
  obtain ⟨f, hf, hc⟩ := Found.reads_rendering e []
  rw [text_eq_rendering, ofText?, hf]
  simp [hc]

/-- The text of a tree is its recursive rendering, and different trees have different texts. -/
theorem text_unambiguous :
    (∀ e : Expr, e.text = e.rendering ∧ ofText? e.text = some e) ∧
    ∀ e e' : Expr, e.text = e'.text → e = e' := by
  refine ⟨fun e => ⟨text_eq_rendering e, ofText?_text e⟩, fun e e' h => ?_⟩
  have he := ofText?_text e
  rw [h, ofText?_text] at he
  exact (Option.some.inj he).symm

theorem text_unambiguous_signs :
    (binary .sub (.number (-1)) (.number Int64.minValue)).text = "(- -1 -9223372036854775808)" ∧
    ∀ e : Expr, e.text = "(- -1 -9223372036854775808)" →
      e = binary .sub (.number (-1)) (.number Int64.minValue) := by
  have htext : (binary .sub (.number (-1)) (.number Int64.minValue)).text =
      "(- -1 -9223372036854775808)" := by decide +kernel
  exact ⟨htext, fun e he => text_unambiguous.2 _ _ (he.trans htext.symm)⟩

end Reckon.Expr
