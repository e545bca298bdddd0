import Reckon.Proofs.Reading
import Reckon.Token.Cursor

/-! # What a cursor hands out

A cursor hands out the readings of its text, one by one, and then the end of the input for ever.
-/

namespace Reckon

theorem token_ne_finish_of_mem_readings {position : Nat} {text : List Char} {s : Spanned}
    (h : .ok s ∈ readings position text) : s.token ≠ .finish := by
  induction hn : text.length using Nat.strongRecOn generalizing position text with
  | ind n ih =>
    rw [readings_eq] at h
    split at h
    · rename_i token rest hs
      rcases List.mem_cons.mp h with h | h
      · obtain rfl : s = token := Except.ok.inj h
        exact token_ne_finish_of_scan_eq_token hs
      · exact ih _ (hn ▸ length_lt_of_scan_eq_token hs) h rfl
    · simp at h
    · simp at h

namespace Cursor

/-- Everything that a cursor still hands out before the end of the input. -/
def upcoming (c : Cursor) : List Reading :=
  if c.exhausted then [] else readings c.position c.rest

theorem token_ne_finish_of_mem_upcoming {c : Cursor} {s : Spanned} (h : .ok s ∈ c.upcoming) :
    s.token ≠ .finish := by
  unfold upcoming at h
  split at h
  · simp at h
  · exact token_ne_finish_of_mem_readings h

@[simp] theorem upcoming_start (source : String) :
    (start source).upcoming = readings 0 source.toList := rfl

/-- What `nextToken` hands out is the first of what is upcoming, and the rest stays. -/
inductive Hands (c : Cursor) : Except ScanError Spanned × Cursor → Prop where

  | finish {c' : Cursor} : c.upcoming = [] → c'.upcoming = [] → c'.source = c.source →
      Hands c (.ok c.finish, c')

  | token {s : Spanned} {c' : Cursor} : c.upcoming = .ok s :: c'.upcoming →
      c'.source = c.source → Hands c (.ok s, c')

  | fault {error : ScanError} {c' : Cursor} : c.upcoming = [.error error] → c'.upcoming = [] →
      c'.source = c.source → Hands c (.error error, c')

theorem upcoming_eq_nil {c : Cursor} (h : c.exhausted = true) : c.upcoming = [] := if_pos h

theorem upcoming_eq_readings {c : Cursor} (h : c.exhausted = false) :
    c.upcoming = readings c.position c.rest := by
  simp [upcoming, h]

theorem hands_nextToken (c : Cursor) : c.Hands c.nextToken := by
  unfold nextToken
  cases hx : c.exhausted with
  | true => exact .finish (upcoming_eq_nil hx) (upcoming_eq_nil hx) rfl
  | false =>
    have hu := (upcoming_eq_readings hx).trans (readings_eq _ _)
    cases hs : scan c.position c.rest with
    | token token rest =>
      rw [hs] at hu
      exact .token (hu.trans (by simp [upcoming])) rfl
    | fault error stop =>
      rw [hs] at hu
      exact .fault hu (upcoming_eq_nil rfl) rfl
    | finish =>
      rw [hs] at hu
      exact .finish hu (upcoming_eq_nil rfl) rfl

theorem next?_eq (c : Cursor) :
    c.next?.1 = c.upcoming.head? ∧ c.next?.2.upcoming = c.upcoming.tail := by
  unfold next?
  cases hx : c.exhausted with
  | true => simp [upcoming_eq_nil hx]
  | false =>
    have h := hands_nextToken c
    revert h
    generalize c.nextToken = handed
    intro h
    cases h with
    | finish hu hu' _ => simp [hu, hu', finish]
    | @token s c' hu _ =>
      have hs : s.token ≠ .finish := token_ne_finish_of_mem_upcoming (by rw [hu]; simp)
      obtain ⟨start, token, stop⟩ := s
      cases token <;> simp_all
    | fault hu hu' _ => simp [hu, hu']

theorem drainOnto_eq (c : Cursor) (results : List Reading) :
    (c.drainOnto results).1 = results.reverse ++ c.upcoming := by
  induction hn : c.remaining using Nat.strongRecOn generalizing c results with
  | ind n ih =>
    have hu := c.next?_eq
    rw [drainOnto]
    split
    · rename_i c' h
      rw [h] at hu
      simp [List.head?_eq_none_iff.mp hu.1.symm]
    · rename_i result c' h
      rw [h] at hu
      rw [ih _ (hn ▸ remaining_lt_of_next?_eq_some h) _ _ rfl, hu.2,
        List.eq_cons_of_mem_head? hu.1.symm]
      simp

theorem drain_eq (c : Cursor) : c.drain.1 = c.upcoming := drainOnto_eq c []

end Cursor

theorem mapM_id_eq_ok_iff {rs : List Reading} {ts : List Spanned} :
    rs.mapM id = .ok ts ↔ rs = ts.map .ok := by
  induction rs generalizing ts with
  | nil => cases ts <;> simp [pure, Except.pure]
  | cons r rs ih =>
    rw [List.mapM_cons]
    cases r with
    | error error => cases ts <;> simp [bind, Except.bind]
    | ok t =>
      cases ts with
      | nil => cases rs.mapM id <;> simp [bind, Except.bind, pure, Except.pure]
      | cons u us =>
        rw [List.map_cons, List.cons.injEq, ← ih]
        cases rs.mapM id <;> simp [bind, Except.bind, pure, Except.pure]

theorem mapM_id_eq_error_iff {rs : List Reading} {error : ScanError} :
    rs.mapM id = .error error ↔
      ∃ (ts : List Spanned) (rest : List Reading), rs = ts.map .ok ++ .error error :: rest := by
  induction rs with
  | nil => simp [pure, Except.pure]
  | cons r rs ih =>
    rw [List.mapM_cons]
    cases r with
    | error e =>
      constructor
      · intro h
        cases h
        exact ⟨[], rs, rfl⟩
      · rintro ⟨ts, rest, h⟩
        cases ts with
        | nil =>
          cases h
          rfl
        | cons t ts => cases h
    | ok t =>
      constructor
      · intro h
        have hrs : rs.mapM id = .error error := by
          cases hm : rs.mapM id with
          | error e => simpa [hm, bind, Except.bind] using h
          | ok ts => simp [hm, bind, Except.bind, pure, Except.pure] at h
        obtain ⟨ts, rest, rfl⟩ := ih.mp hrs
        exact ⟨t :: ts, rest, rfl⟩
      · rintro ⟨ts, rest, h⟩
        cases ts with
        | nil => cases h
        | cons u us =>
          obtain ⟨-, hrs⟩ := List.cons.inj h
          simp [ih.mpr ⟨us, rest, hrs⟩, bind, Except.bind]

theorem tokens_eq (source : String) : tokens source = (readings 0 source.toList).mapM id := by
  rw [tokens, Cursor.drain_eq, Cursor.upcoming_start]

theorem tokens_eq_ok_iff {source : String} {ts : List Spanned} :
    tokens source = .ok ts ↔ readings 0 source.toList = ts.map .ok := by
  rw [tokens_eq, mapM_id_eq_ok_iff]

theorem tokens_eq_error_iff {source : String} {error : ScanError} :
    tokens source = .error error ↔ ∃ (ts : List Spanned) (rest : List Reading),
      readings 0 source.toList = ts.map .ok ++ .error error :: rest := by
  rw [tokens_eq, mapM_id_eq_error_iff]

end Reckon
