import Reckon.Proofs.Spelling

/-! # Calls on a cursor

A cursor may be asked for its next token in two ways. However they are mixed, each call moves on by
one lexeme, until nothing is left that can be read.
-/

namespace Reckon

open String (utf8Len)

/-- What a text has behind its tokens: its end, or a piece that spells nothing, up to an offset. -/
inductive Ending where
  | finish
  | fault (error : ScanError) (stop : Nat)

/-- A text that starts at an offset spells some tokens, and then comes its ending. -/
inductive Course : Nat → List Char → List Spanned → Ending → Prop where

  | finish {position : Nat} {w : List Char} : IsSpacing w → Course position w [] .finish

  | fault {position : Nat} {w x text : List Char} {error : ScanError} : IsSpacing w →
      Misspells (position + utf8Len w) x error → Apart x text →
      Course position (w ++ (x ++ text)) [] (.fault error (position + utf8Len w + utf8Len x))

  | token {position : Nat} {w x text : List Char} {s : Spanned} {ts : List Spanned}
      {ending : Ending} : IsSpacing w → s.start = position + utf8Len w → Writes s.token x →
      s.stop = s.start + utf8Len x → Apart x text → Course s.stop text ts ending →
      Course position (w ++ (x ++ text)) (s :: ts) ending

namespace Course

variable {position : Nat} {text : List Char} {s : Spanned} {ts : List Spanned} {ending : Ending}

theorem blank {c : Char} (hc : isSkipped c = true)
    (h : Course (position + c.utf8Size) text ts ending) :
    Course position (c :: text) ts ending := by
  have hlen (w : List Char) : position + c.utf8Size + utf8Len w = position + utf8Len (c :: w) := by
    rw [String.utf8Len_cons, Nat.add_comm (utf8Len w), Nat.add_assoc]
  cases h with
  | finish hw => exact .finish (isSpacing_cons.mpr ⟨hc, hw⟩)
  | @fault _ w x rest _ hw hx ha =>
    rw [hlen] at hx ⊢
    exact @fault position (c :: w) x rest _ (isSpacing_cons.mpr ⟨hc, hw⟩) hx ha
  | @token _ w x rest _ _ _ hw hs hx he ha h =>
    rw [hlen] at hs
    exact @token position (c :: w) x rest _ _ _ (isSpacing_cons.mpr ⟨hc, hw⟩) hs hx he ha h

theorem exists_course (position : Nat) (text : List Char) :
    ∃ ts ending, Course position text ts ending := by
  induction position, text using reading_induction with
  | nil position => exact ⟨[], .finish, .finish isSpacing_nil⟩
  | blank position c text hc ih =>
    obtain ⟨ts, ending, h⟩ := ih
    exact ⟨ts, ending, h.blank hc⟩
  | lexeme position x text r hx ha ih =>
    cases r with
    | ok s =>
      obtain ⟨ts, ending, h⟩ := ih
      obtain ⟨hs, hw, he⟩ := lexes_ok_iff.mp hx
      rw [← hx.stop_eq] at h
      exact ⟨s :: ts, ending, @token _ [] _ _ _ _ _ isSpacing_nil hs hw he ha h⟩
    | error error =>
      exact ⟨[], _, @fault _ [] _ _ _ isSpacing_nil (lexes_error_iff.mp hx) ha⟩

theorem scan_eq_finish (h : Course position text [] .finish) : scan position text = .finish := by
  cases h with
  | finish hw => rw [← List.append_nil text, scan_spacing hw, scan]

theorem scan_eq_fault {error : ScanError} {stop : Nat}
    (h : Course position text [] (.fault error stop)) :
    scan position text = .fault error stop ∧ position ≤ stop := by
  cases h with
  | fault hw hx ha =>
    rw [scan_spacing hw, scan_lexeme (lexes_error_iff.mpr hx) ha]
    exact ⟨rfl, by omega⟩

theorem exists_scan_eq_token (h : Course position text (s :: ts) ending) :
    ∃ rest, scan position text = .token s rest ∧ Course s.stop rest ts ending ∧
      position ≤ s.stop ∧ s.stop + utf8Len rest = position + utf8Len text := by
  cases h with
  | @token _ w x rest _ _ _ hw hs hx he ha h =>
    have hl := lexes_ok_iff.mpr ⟨hs, hx, he⟩
    refine ⟨rest, ?_, h, by omega, ?_⟩
    · rw [scan_spacing hw, scan_lexeme hl ha]
      rfl
    · rw [String.utf8Len_append, String.utf8Len_append]
      omega

theorem readings_eq_fault {error : ScanError} {stop : Nat}
    (h : Course position text ts (.fault error stop)) :
    readings position text = ts.map .ok ++ [.error error] := by
  generalize he : Ending.fault error stop = ending at h
  induction h with
  | finish => cases he
  | fault hw hx ha =>
    obtain rfl := (Ending.fault.inj he).1
    rw [readings_spacing hw, readings_lexeme (lexes_error_iff.mpr hx) ha]
    rfl
  | token hw hs hx hstop ha _ ih =>
    have hl := lexes_ok_iff.mpr ⟨hs, hx, hstop⟩
    rw [readings_spacing hw, readings_lexeme hl ha, ← hl.stop_eq, ih he]
    rfl

end Course

inductive Call where
  | nextToken
  | next?
  deriving DecidableEq, Repr

def Call.atEnd (finish : Spanned) : Call → Option Reading
  | nextToken => some (.ok finish)
  | next? => none

namespace Ending

def answer (finish : Spanned) : Ending → Call → Option Reading
  | .finish, call => call.atEnd finish
  | .fault error _, _ => some (.error error)

def stop (source : String) : Ending → Nat
  | finish => source.utf8ByteSize
  | fault _ stop => stop

/-- The offset that a number of calls leads to: the start, and then the end of what was met last. -/
def offset (source : String) (ts : List Spanned) (ending : Ending) (n : Nat) : Nat :=
  (0 :: ts.map Spanned.stop)[n]?.getD (ending.stop source)

theorem offset_token {source : String} {ts : List Spanned} {ending : Ending} {n : Nat}
    {s : Spanned} (h : ts[n]? = some s) : ending.offset source ts (n + 1) = s.stop := by
  rw [offset, List.getElem?_cons_succ, List.getElem?_map, h]
  rfl

theorem offset_behind {source : String} {ts : List Spanned} {ending : Ending} {n : Nat}
    (h : ts.length < n) : ending.offset source ts n = ending.stop source := by
  rw [offset, List.getElem?_eq_none (by simpa using Nat.succ_le_of_lt h)]
  rfl

end Ending

namespace Cursor

/-- The answer to a call, with the cursor as it then stands. -/
def perform (c : Cursor) : Call → Option Reading × Cursor
  | .nextToken => (some c.nextToken.1, c.nextToken.2)
  | .next? => c.next?

def after (c : Cursor) (calls : List Call) : Cursor :=
  calls.foldl (fun c call => (c.perform call).2) c

theorem after_append (c : Cursor) (calls more : List Call) :
    c.after (calls ++ more) = (c.after calls).after more := List.foldl_append

theorem perform_of_exhausted {c : Cursor} (h : c.exhausted = true) (call : Call) :
    c.perform call = (call.atEnd c.finish, c) := by
  cases call <;> simp [perform, nextToken, next?, h, Call.atEnd]

/-- Both calls hand out the next lexeme and move behind it. Their answers differ at the end only. -/
theorem perform_eq {c : Cursor} (h : c.exhausted = false) (call : Call) :
    c.perform call =
      match scan c.position c.rest with
      | .token s rest => (some (.ok s), { c with rest := rest, position := s.stop })
      | .fault error stop => (some (.error error), { c with position := stop, exhausted := true })
      | .finish => (call.atEnd c.finish,
          { c with rest := [], position := c.source.utf8ByteSize, exhausted := true }) := by
  cases hs : scan c.position c.rest with
  | token s rest =>
    have hn := token_ne_finish_of_scan_eq_token hs
    cases call with
    | nextToken => simp [perform, nextToken, h, hs]
    | next? =>
      obtain ⟨start, token, stop⟩ := s
      cases token <;> simp_all [perform, nextToken, next?]
  | fault error stop => cases call <;> simp [perform, nextToken, next?, h, hs]
  | finish => cases call <;> simp [perform, nextToken, next?, h, hs, finish, Call.atEnd]

/-- A cursor as it stands after a number of calls, on a source with the given course. -/
structure Tracks (source : String) (ts : List Spanned) (ending : Ending) (n : Nat) (c : Cursor) :
    Prop where
  source_eq : c.source = source
  exhausted_iff : c.exhausted = true ↔ ts.length < n
  position_eq : c.position = ending.offset source ts n
  course : n ≤ ts.length → Course c.position c.rest (ts.drop n) ending
  size : n ≤ ts.length → c.position + utf8Len c.rest = source.utf8ByteSize

variable {source : String} {ts : List Spanned} {ending : Ending} {n : Nat} {c : Cursor}

theorem tracks_start (h : Course 0 source.toList ts ending) :
    (start source).Tracks source ts ending 0 where
  source_eq := rfl
  exhausted_iff := by simp [start]
  position_eq := rfl
  course _ := h
  size _ := by rw [← String.utf8Len_toList]; exact Nat.zero_add _

namespace Tracks

theorem finish_eq (h : c.Tracks source ts ending n) : c.finish = (start source).finish := by
  rw [Cursor.finish, h.source_eq]
  rfl

theorem exhausted_eq_false (h : c.Tracks source ts ending n) (hn : n ≤ ts.length) :
    c.exhausted = false := by
  rw [← Bool.not_eq_true, h.exhausted_iff]
  omega

theorem of_exhausted (hs : c.source = source) (hx : c.exhausted = true)
    (hp : c.position = ending.stop source) (hn : ts.length < n) :
    c.Tracks source ts ending n where
  source_eq := hs
  exhausted_iff := by simpa [hx] using hn
  position_eq := hp.trans (Ending.offset_behind hn).symm
  course hle := (Nat.not_le_of_lt hn hle).elim
  size hle := (Nat.not_le_of_lt hn hle).elim

theorem perform_token (h : c.Tracks source ts ending n) {s : Spanned} (hs : ts[n]? = some s)
    (call : Call) :
    (c.perform call).1 = some (.ok s) ∧ (c.perform call).2.Tracks source ts ending (n + 1) ∧
      c.position ≤ (c.perform call).2.position := by
  obtain ⟨hn, rfl⟩ := List.getElem?_eq_some_iff.mp hs
  have hcourse := h.course hn.le
  have hsize := h.size hn.le
  rw [List.drop_eq_getElem_cons hn] at hcourse
  obtain ⟨rest, hscan, hrest, hle, hlen⟩ := hcourse.exists_scan_eq_token
  have hfresh := h.exhausted_eq_false hn.le
  rw [perform_eq hfresh, hscan]
  refine ⟨rfl, ⟨h.source_eq, ?_, ?_, fun _ => hrest, fun _ => ?_⟩, hle⟩
  · rw [hfresh]
    simp only [Bool.false_eq_true, false_iff]
    omega
  · exact (Ending.offset_token hs).symm
  · simp only
    omega

theorem perform_ending (h : c.Tracks source ts ending ts.length) (call : Call) :
    (c.perform call).1 = ending.answer (start source).finish call ∧
      (c.perform call).2.Tracks source ts ending (ts.length + 1) ∧
      c.position ≤ (c.perform call).2.position := by
  have hcourse := h.course le_rfl
  have hsize := h.size le_rfl
  rw [List.drop_length] at hcourse
  rw [perform_eq (h.exhausted_eq_false le_rfl)]
  cases ending with
  | finish =>
    rw [hcourse.scan_eq_finish, h.finish_eq, h.source_eq]
    exact ⟨rfl, of_exhausted rfl rfl rfl (Nat.lt_succ_self _), hsize ▸ Nat.le_add_right _ _⟩
  | fault error stop =>
    obtain ⟨hscan, hle⟩ := hcourse.scan_eq_fault
    rw [hscan]
    exact ⟨rfl, of_exhausted h.source_eq rfl rfl (Nat.lt_succ_self _), hle⟩

theorem perform_behind (h : c.Tracks source ts ending n) (hn : ts.length < n) (call : Call) :
    c.perform call = (call.atEnd (start source).finish, c) := by
  rw [perform_of_exhausted (h.exhausted_iff.mpr hn), h.finish_eq]

/-- One more call keeps to the course and never goes back. -/
theorem perform (h : c.Tracks source ts ending n) (call : Call) :
    (c.perform call).2.Tracks source ts ending (n + 1) ∧
      c.position ≤ (c.perform call).2.position := by
  rcases Nat.lt_trichotomy n ts.length with hn | rfl | hn
  · exact (h.perform_token (List.getElem?_eq_getElem hn) call).2
  · exact (h.perform_ending call).2
  · rw [h.perform_behind hn call]
    have hposition : c.position = ending.stop source :=
      h.position_eq.trans (Ending.offset_behind hn)
    exact ⟨of_exhausted h.source_eq (h.exhausted_iff.mpr hn) hposition (Nat.lt_succ_of_lt hn),
      le_rfl⟩

theorem after (h : c.Tracks source ts ending n) (calls : List Call) :
    (c.after calls).Tracks source ts ending (n + calls.length) ∧
      c.position ≤ (c.after calls).position := by
  induction calls generalizing c n with
  | nil => exact ⟨h, le_rfl⟩
  | cons call calls ih =>
    obtain ⟨hnext, hle⟩ := h.perform call
    obtain ⟨hafter, hle'⟩ := ih hnext
    rw [Nat.add_right_comm] at hafter
    exact ⟨hafter, hle.trans hle'⟩

end Tracks

theorem tracks_after (h : Course 0 source.toList ts ending) (calls : List Call) :
    ((start source).after calls).Tracks source ts ending calls.length := by
  have htracks := ((tracks_start h).after calls).1
  rwa [Nat.zero_add] at htracks

theorem tokens_eq_error_of_perform {calls : List Call} {call : Call} {error : ScanError}
    (h : (((start source).after calls).perform call).1 = some (.error error)) :
    tokens source = .error error := by
  obtain ⟨ts, ending, hcourse⟩ := Course.exists_course 0 source.toList
  have htracks := tracks_after hcourse calls
  rcases Nat.lt_trichotomy calls.length ts.length with hn | hn | hn
  · rw [(htracks.perform_token (List.getElem?_eq_getElem hn) call).1] at h
    cases h
  · rw [hn] at htracks
    rw [(htracks.perform_ending call).1] at h
    cases ending with
    | finish => cases call <;> cases h
    | fault error stop =>
      cases h
      exact tokens_eq_error_iff.mpr ⟨ts, [], hcourse.readings_eq_fault⟩
  · rw [htracks.perform_behind hn] at h
    cases call <;> cases h

end Cursor

open Cursor

/-- A cursor behind any mixture of calls hands out the token whose turn it is, meets the ending of
its source, or finds nothing more. It is exhausted once the ending has been met; it stands at the
end of what was met last and never goes back. -/
theorem cursor_under_calls (source : String) :
    (∃ ts ending, Course 0 source.toList ts ending) ∧
    ∀ ts ending, Course 0 source.toList ts ending → ∀ calls : List Call,
      (∀ s, ts[calls.length]? = some s → ∀ call,
        (((start source).after calls).perform call).1 = some (.ok s)) ∧
      (calls.length = ts.length → ∀ call,
        (((start source).after calls).perform call).1 =
          ending.answer ⟨source.utf8ByteSize, .finish, source.utf8ByteSize⟩ call) ∧
      (ts.length < calls.length → ∀ call,
        (((start source).after calls).perform call).1 =
          call.atEnd ⟨source.utf8ByteSize, .finish, source.utf8ByteSize⟩) ∧
      (((start source).after calls).exhausted = true ↔ ts.length < calls.length) ∧
      ((start source).after calls).position = ending.offset source ts calls.length ∧
      ∀ more, ((start source).after calls).position ≤
          ((start source).after (calls ++ more)).position ∧
        (ts.length < calls.length →
          ((start source).after (calls ++ more)).position =
            ((start source).after calls).position) := by
  refine ⟨Course.exists_course 0 source.toList, fun ts ending hcourse calls => ?_⟩
  have h := tracks_after hcourse calls
  refine ⟨fun s hs call => (h.perform_token hs call).1, fun hn call => ?_,
    fun hn call => congrArg Prod.fst (h.perform_behind hn call), h.exhausted_iff, h.position_eq,
    fun more => ?_⟩
  · rw [hn] at h
    exact (h.perform_ending call).1
  · rw [after_append]
    obtain ⟨hmore, hle⟩ := h.after more
    refine ⟨hle, fun hn => ?_⟩
    rw [hmore.position_eq, h.position_eq, Ending.offset_behind hn,
      Ending.offset_behind (hn.trans_le (Nat.le_add_right _ _))]

theorem cursor_under_calls_unreadable :
    Course 0 "1 é(".toList [⟨0, .integer 1, 1⟩] (.fault (.unexpected 'é' 2) 4) ∧
      (((start "1 é(").after []).perform .next?).1 = some (.ok ⟨0, .integer 1, 1⟩) ∧
      (((start "1 é(").after [.next?]).perform .nextToken).1 =
        some (.error (.unexpected 'é' 2)) ∧
      (((start "1 é(").after [.next?, .nextToken]).perform .next?).1 = none ∧
      ((start "1 é(").after [.next?, .nextToken]).exhausted = true ∧
      ((start "1 é(").after [.next?, .nextToken]).position = 4 ∧
      ((start "1 é(").after [.next?, .nextToken, .nextToken]).position = 4 := by
  have hrow : IsRow ['1'] := ⟨List.cons_ne_nil _ _, List.all_eq_true.mp rfl⟩
  have hfault : Misspells 2 ['é'] (.unexpected 'é' 2) :=
    lexes_error_iff.mp (.unexpected rfl rfl rfl)
  have hspace : IsSpacing [' '] := isSpacing_singleton.mpr rfl
  have hcourse : Course 0 "1 é(".toList [⟨0, .integer 1, 1⟩] (.fault (.unexpected 'é' 2) 4) :=
    @Course.token 0 [] ['1'] [' ', 'é', '('] _ _ _ isSpacing_nil rfl (.integer hrow rfl) rfl
      (fun _ => by simp) (@Course.fault 1 [' '] ['é'] ['('] _ hspace hfault fun _ => by simp)
  obtain ⟨-, h⟩ := cursor_under_calls "1 é("
  have h := h _ _ hcourse
  obtain ⟨-, -, hbehind, hexhausted, hposition, hmore⟩ := h [.next?, .nextToken]
  have hstays := ((hmore [.nextToken]).2 (by decide)).trans hposition
  exact ⟨hcourse, (h []).1 _ rfl .next?, (h [.next?]).2.1 rfl .nextToken,
    hbehind (by decide) .next?, hexhausted.mpr (by decide), hposition, hstays⟩

end Reckon
