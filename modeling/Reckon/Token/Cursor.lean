import Reckon.Inspect
import Reckon.Token.Scan

/-! # Cursors

A cursor hands out one token at a time. Once it has met the end of the source or a lexeme that it
cannot read, it is exhausted and hands out the end of the input for ever.
-/

namespace Reckon

structure Cursor where
  source : String
  rest : List Char
  position : Nat
  exhausted : Bool

namespace Cursor

def start (source : String) : Cursor := ⟨source, source.toList, 0, false⟩

/-- The end of the input, which stands behind the last byte of the source. -/
def finish (c : Cursor) : Spanned := ⟨c.source.utf8ByteSize, .finish, c.source.utf8ByteSize⟩

/-- Hand out the next token, the end of the input, or the lexeme that cannot be read. -/
def nextToken (c : Cursor) : Except ScanError Spanned × Cursor :=
  if c.exhausted then (.ok c.finish, c)
  else
    match scan c.position c.rest with
    | .token token rest => (.ok token, { c with rest := rest, position := token.stop })
    | .fault error stop => (.error error, { c with position := stop, exhausted := true })
    | .finish =>
      (.ok c.finish, { c with rest := [], position := c.source.utf8ByteSize, exhausted := true })

/-- Hand out the next token or the lexeme that cannot be read, and nothing at the end. -/
def next? (c : Cursor) : Option (Except ScanError Spanned) × Cursor :=
  if c.exhausted then (none, c)
  else
    match c.nextToken with
    | (.ok ⟨_, .finish, _⟩, c) => (none, c)
    | (result, c) => (some result, c)

def remaining (c : Cursor) : Nat := if c.exhausted then 0 else c.rest.length + 1

theorem remaining_lt_of_next?_eq_some {c c' : Cursor} {result : Except ScanError Spanned}
    (h : c.next? = (some result, c')) : c'.remaining < c.remaining := by
  unfold next? nextToken at h
  cases hx : c.exhausted with
  | true => simp [hx] at h
  | false =>
    cases hs : scan c.position c.rest with
    | token token rest =>
      have hl := length_lt_of_scan_eq_token hs
      simp only [hx, hs] at h
      simp only [Bool.false_eq_true, if_false] at h
      split at h <;> simp at h
      rename_i heq
      simp at heq
      obtain ⟨rfl, rfl⟩ := heq
      rw [← h.2]
      simp [remaining, hx, hl]
    | fault error stop =>
      simp [hx, hs] at h
      rw [← h.2]
      simp [remaining, hx]
    | finish => simp [hx, hs, finish] at h

/-- Continue handing out with the results so far, the latest first. -/
def drainOnto (c : Cursor) (results : List (Except ScanError Spanned)) :
    List (Except ScanError Spanned) × Cursor :=
  match _h : c.next? with
  | (none, c') => (results.reverse, c')
  | (some result, c') => c'.drainOnto (result :: results)
termination_by c.remaining
decreasing_by exact remaining_lt_of_next?_eq_some _h

def drain (c : Cursor) : List (Except ScanError Spanned) × Cursor := c.drainOnto []

instance : Inspect Cursor where
  onto c :=
    Inspect.named "Lexer"
      [("position", Inspect.onto c.position), ("exhausted", Inspect.onto c.exhausted)]

end Cursor

/-- The tokens of a source without its end, or its first lexeme that cannot be read. -/
def tokens (source : String) : Except ScanError (List Spanned) :=
  (Cursor.start source).drain.1.mapM id

end Reckon
