import Reckon.Decimal
import Reckon.Failure

/-! # Scanning one lexeme

The scanner skips blanks and then reads the longest lexeme in front of it: a symbol of one character
or a row of digits.
-/

namespace Reckon

def isSkipped (c : Char) : Bool :=
  c == ' ' || c == '\t' || c == '\r' || c == '\n' || c == '\x0c'

def greatestLiteral : Nat := Int64.maxValue.toInt.toNat

/-- What the scanner finds: a token and the text behind it, a fault and its end, or no lexeme. -/
inductive Lexeme where
  | token (token : Spanned) (rest : List Char)
  | fault (error : ScanError) (stop : Nat)
  | finish

def Lexeme.ofDigits (position : Nat) (digits rest : List Char) : Lexeme :=
  let stop := position + digits.length
  match Decimal.upTo greatestLiteral digits with
  | some n => token ⟨position, .integer (Int64.ofNat n), stop⟩ rest
  | none => fault (.outOfRange (String.ofList digits) position) stop

def scan (position : Nat) : List Char → Lexeme
  | [] => .finish
  | c :: rest =>
    if isSkipped c then scan (position + c.utf8Size) rest
    else if c.isDigit then
      .ofDigits position (c :: rest.takeWhile Char.isDigit) (rest.dropWhile Char.isDigit)
    else
      match Token.ofSymbol? c with
      | some token => .token ⟨position, token, position + c.utf8Size⟩ rest
      | none => .fault (.unexpected c position) (position + c.utf8Size)

theorem length_lt_of_scan_eq_token {position : Nat} {text : List Char} {token : Spanned}
    {rest : List Char} (h : scan position text = .token token rest) :
    rest.length < text.length := by
  induction text generalizing position with
  | nil => simp [scan] at h
  | cons c text ih =>
    unfold scan at h
    split at h
    · have := ih h
      simp only [List.length_cons]
      omega
    · split at h
      · unfold Lexeme.ofDigits at h
        have hd : (text.dropWhile Char.isDigit).length ≤ text.length :=
          (List.dropWhile_suffix _).length_le
        simp only at h
        split at h <;> simp at h
        rw [← h.2]
        simp only [List.length_cons]
        omega
      · split at h <;> simp at h
        rw [← h.2]
        simp

theorem token_ne_finish_of_scan_eq_token {position : Nat} {text : List Char} {token : Spanned}
    {rest : List Char} (h : scan position text = .token token rest) :
    token.token ≠ .finish := by
  induction text generalizing position with
  | nil => simp [scan] at h
  | cons c text ih =>
    unfold scan at h
    split at h
    · exact ih h
    · split at h
      · unfold Lexeme.ofDigits at h
        simp only at h
        split at h <;> simp at h
        simp [← h.1]
      · split at h <;> simp at h
        rename_i t ht
        rw [← h.1]
        unfold Token.ofSymbol? at ht
        split at ht
        · simp at ht; simp [← ht]
        · split at ht
          · simp at ht; simp [← ht]
          · simp at ht
            obtain ⟨op, _, rfl⟩ := ht
            simp

end Reckon
