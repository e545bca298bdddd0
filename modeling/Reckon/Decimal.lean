/-! # Decimal numerals -/

namespace Reckon.Decimal

def digit (n : Nat) : Char := Char.ofNat (48 + n)

def digitValue (c : Char) : Nat := c.toNat - 48

/-- Put the digits of a number in front of a text. -/
def digitsOnto (n : Nat) (tail : List Char) : List Char :=
  if n < 10 then digit n :: tail else digitsOnto (n / 10) (digit (n % 10) :: tail)
termination_by n

def digits (n : Nat) : List Char := digitsOnto n []

def value (ds : List Char) : Nat := ds.foldl (fun n c => 10 * n + digitValue c) 0

def upToFrom (bound : Nat) : Nat → List Char → Option Nat
  | n, [] => some n
  | n, c :: ds =>
    let next := 10 * n + digitValue c
    if next ≤ bound then upToFrom bound next ds else none

/-- The number that a row of digits stands for, if it is at most the bound. -/
def upTo (bound : Nat) (ds : List Char) : Option Nat := upToFrom bound 0 ds

theorem le_foldl_digits (n : Nat) (ds : List Char) :
    n ≤ ds.foldl (fun n c => 10 * n + digitValue c) n := by
  induction ds generalizing n with
  | nil => exact Nat.le_refl n
  | cons c ds ih =>
    have h := ih (10 * n + digitValue c)
    rw [List.foldl_cons]
    omega

theorem upToFrom_eq (bound n : Nat) (ds : List Char) (hn : n ≤ bound) :
    upToFrom bound n ds =
      if ds.foldl (fun n c => 10 * n + digitValue c) n ≤ bound then
        some (ds.foldl (fun n c => 10 * n + digitValue c) n)
      else none := by
  induction ds generalizing n with
  | nil => simp [upToFrom, hn]
  | cons c ds ih =>
    rw [List.foldl_cons, upToFrom]
    by_cases h : 10 * n + digitValue c ≤ bound
    · simp only [h, if_true]
      exact ih _ h
    · have hl := le_foldl_digits (10 * n + digitValue c) ds
      rw [if_neg h, if_neg (by omega)]

/-- The bound is the only obstacle to reading a numeral. -/
theorem upTo_eq (bound : Nat) (ds : List Char) :
    upTo bound ds = if value ds ≤ bound then some (value ds) else none :=
  upToFrom_eq bound 0 ds (Nat.zero_le bound)

theorem digitValue_digit : ∀ n < 10, digitValue (digit n) = n := by decide

theorem isDigit_digit : ∀ n < 10, (digit n).isDigit = true := by decide

theorem foldl_digitsOnto (n : Nat) (tail : List Char) :
    (digitsOnto n tail).foldl (fun n c => 10 * n + digitValue c) 0 =
      tail.foldl (fun n c => 10 * n + digitValue c) n := by
  fun_induction digitsOnto n tail with
  | case1 n tail h =>
    rw [List.foldl_cons, digitValue_digit n h]
    simp
  | case2 n tail h ih =>
    rw [ih, List.foldl_cons, digitValue_digit _ (Nat.mod_lt n (by decide)), Nat.div_add_mod]

theorem value_digits (n : Nat) : value (digits n) = n := foldl_digitsOnto n []

theorem digitsOnto_ne_nil (n : Nat) (tail : List Char) : digitsOnto n tail ≠ [] := by
  fun_induction digitsOnto n tail with
  | case1 => exact List.cons_ne_nil _ _
  | case2 _ _ _ ih => exact ih

theorem isDigit_of_mem_digitsOnto {n : Nat} {tail : List Char} {c : Char}
    (h : c ∈ digitsOnto n tail) : c.isDigit = true ∨ c ∈ tail := by
  fun_induction digitsOnto n tail with
  | case1 n tail hn =>
    rcases List.mem_cons.mp h with rfl | h
    · exact .inl (isDigit_digit n hn)
    · exact .inr h
  | case2 n tail hn ih =>
    rcases ih h with h | h
    · exact .inl h
    · rcases List.mem_cons.mp h with rfl | h
      · exact .inl (isDigit_digit _ (Nat.mod_lt n (by decide)))
      · exact .inr h

def natText (n : Nat) : String := String.ofList (digits n)

/-- The text of an integer, with a leading minus sign if it is negative. -/
def intText (n : Int) : String :=
  match n with
  | .ofNat n => natText n
  | .negSucc n => "-" ++ natText (n + 1)

end Reckon.Decimal
