import Reckon.Proofs.Derivation
import Reckon.Proofs.Locality

/-! # Tokens at once and on demand

A parse that takes the tokens one by one fails as it would if all were there from the start.
-/

namespace Reckon

open Automaton

variable {limit : UInt64} {settings : Settings} {source : String} {error : ParseError}
  {a b : Automaton} {ts : List Spanned}

theorem opened_le_limit_of_step {s : Spanned} (h : a.step limit s = .ok (some b))
    (ha : a.opened ≤ limit.toNat) : b.opened ≤ limit.toNat := by
  cases steps_of_eq h with
  | opening _ hl => exact hl
  | closing => exact (Nat.le_succ _).trans ha
  | literal | operator => exact ha

theorem Automaton.Reaches.opened_le_limit (h : a.Reaches limit ts b)
    (ha : a.opened ≤ limit.toNat) : b.opened ≤ limit.toNat := by
  induction h with
  | nil => exact ha
  | cons hs _ ih => exact ih (opened_le_limit_of_step hs ha)

/-- The ways in which a parse error arises: from a lexeme, from the end, or from a token. -/
inductive ParseError.Arises (source : String) : ParseError → Prop where

  | scan {error : ScanError} : tokens source = .error error → Arises source (.scan error)

  | finish {expected : List Kind} {ts : List Spanned} : tokens source = .ok ts →
      Arises source (.mismatch expected .finish source.utf8ByteSize)

  | mismatch {expected : List Kind} {ts : List Spanned} {s : Spanned} {rest : List Reading} :
      readings 0 source.toList = ts.map .ok ++ .ok s :: rest →
      Arises source (.mismatch expected s.token s.start)

  | tooDeep {limit : UInt64} {ts : List Spanned} {s : Spanned} {rest : List Reading} :
      readings 0 source.toList = ts.map .ok ++ .ok s :: rest → s.token = .opening →
      start.Reaches limit ts ⟨false, limit.toNat⟩ → Arises source (.tooDeep limit s.start)

theorem arises_of_parse_eq_error (h : parse settings source = .error error) :
    error.Arises source := by
  obtain ⟨ts, a, hreach, ⟨hts, hr⟩ | ⟨r, rest, hts, hr⟩⟩ :=
    exists_refuses_of_run_eq_error (fun _ => token_ne_finish_of_mem_readings)
      (parse_eq_error_iff.mp h)
  · cases hr with
    | step hs =>
      cases steps_of_eq hs with
      | tooDeep ho => cases ho
      | mismatch => exact .finish (tokens_eq_ok_iff.mpr hts)
  · cases hr with
    | scan error => exact .scan (tokens_eq_error_iff.mpr ⟨ts, rest, hts⟩)
    | step hs =>
      cases steps_of_eq hs with
      | mismatch => exact .mismatch hts
      | @tooDeep opened ho hl =>
        -- the limit is never exceeded, so it is met exactly
        have hle : opened ≤ settings.limit.toNat := hreach.opened_le_limit (Nat.zero_le _)
        obtain rfl : opened = settings.limit.toNat := Nat.le_antisymm hle hl
        exact .tooDeep hts ho hreach

theorem exists_tokens_of_parse_eq_ok {e : Expr} (h : parse settings source = .ok e) :
    ∃ ts, tokens source = .ok ts := by
  rw [parse_eq_outcome, Pushdown.outcome_eq_ok_iff] at h
  obtain ⟨ts, -, hread, -, -⟩ := h
  exact ⟨ts, tokens_eq_ok_iff.mpr hread⟩

theorem start_lt_of_tokens_eq_error {e : ScanError} {s : Spanned} {rest : List Reading}
    (h : tokens source = .error e)
    (hs : readings 0 source.toList = ts.map .ok ++ .ok s :: rest) : s.start < e.position := by
  obtain ⟨us, rest', hus⟩ := tokens_eq_error_iff.mp h
  have hmem : Except.error e ∈ ts.map Except.ok ++ Except.ok s :: rest := by
    rw [← hs, hus]
    simp
  have hrest : Except.error e ∈ rest := by simpa using hmem
  exact (readings_ordered hs).2 _ hrest

/-- Without tokens, a parse fails with the same error, or earlier and not for want of tokens. -/
theorem ParseError.Arises.of_tokens_eq_error {e : ScanError} (h : error.Arises source)
    (he : tokens source = .error e) :
    error = .scan e ∨ error.position < e.position ∧ (∀ e', error ≠ .scan e') ∧
      ∀ expected position, error ≠ .mismatch expected .finish position := by
  cases h with
  | scan he' =>
    obtain rfl := Except.error.inj (he'.symm.trans he)
    exact .inl rfl
  | finish ht => cases ht.symm.trans he
  | @mismatch expected ts s rest hs =>
    have hn : s.token ≠ .finish := token_ne_finish_of_mem_readings (by rw [hs]; simp)
    refine .inr ⟨start_lt_of_tokens_eq_error he hs, by simp, fun expected' position hf => ?_⟩
    exact hn (ParseError.mismatch.inj hf).2.1
  | tooDeep hs => exact .inr ⟨start_lt_of_tokens_eq_error he hs, by simp, by simp⟩

/-- A source that is parsed has tokens, and an unreadable lexeme that a parse reports is the one
that leaves the source without them. Every parse reports such a lexeme, unless it stops at a token
in front; the end of the input is found to be missing something only where all can be read. -/
theorem parse_agrees_with_tokens (settings : Settings) (source : String) :
    (∀ e, parse settings source = .ok e → ∃ ts, tokens source = .ok ts) ∧
    (∀ error, parse settings source = .error (.scan error) → tokens source = .error error) ∧
    (∀ error, tokens source = .error error →
      parse settings source = .error (.scan error) ∨
      ∃ e, parse settings source = .error e ∧ e.position < error.position ∧
        (∀ error', e ≠ .scan error') ∧
        ∀ expected position, e ≠ .mismatch expected .finish position) ∧
    ∀ expected position, parse settings source = .error (.mismatch expected .finish position) →
      ∃ ts, tokens source = .ok ts := by
  refine ⟨fun e => exists_tokens_of_parse_eq_ok, fun error h => ?_, fun error ht => ?_,
    fun expected position h => ?_⟩
  · cases arises_of_parse_eq_error h with
    | scan ht => exact ht
  · cases hp : parse settings source with
    | ok e =>
      obtain ⟨ts, hts⟩ := exists_tokens_of_parse_eq_ok hp
      cases hts.symm.trans ht
    | error e =>
      rcases (arises_of_parse_eq_error hp).of_tokens_eq_error ht with rfl | he
      · exact .inl rfl
      · exact .inr ⟨e, rfl, he⟩
  · cases ht : tokens source with
    | ok ts => exact ⟨ts, rfl⟩
    | error e =>
      rcases (arises_of_parse_eq_error h).of_tokens_eq_error ht with he | ⟨-, -, hn⟩
      · cases he
      · exact (hn expected position rfl).elim

theorem parse_agrees_with_tokens_unreadable :
    (parse ⟨1⟩ "(1)" = .ok (.number 1) ∧ ∃ ts, tokens "(1)" = .ok ts) ∧
    (parse ⟨1⟩ "(1 é" = .error (.scan (.unexpected 'é' 3)) ∧
      tokens "(1 é" = .error (.unexpected 'é' 3)) ∧
    (tokens "(1+) é" = .error (.unexpected 'é' 5) ∧
      ∃ e, parse ⟨1⟩ "(1+) é" = .error e ∧ e.position < 5) ∧
    parse ⟨1⟩ "(1" = .error (.mismatch [.closing] .finish 2) ∧ ∃ ts, tokens "(1" = .ok ts := by
  have hok : parse ⟨1⟩ "(1)" = .ok (.number 1) := by decide +kernel
  have hscan : parse ⟨1⟩ "(1 é" = .error (.scan (.unexpected 'é' 3)) := by decide +kernel
  have htokens : tokens "(1+) é" = .error (.unexpected 'é' 5) := by decide +kernel
  have hearlier : parse ⟨1⟩ "(1+) é" ≠ .error (.scan (.unexpected 'é' 5)) := by decide +kernel
  have hfinish : parse ⟨1⟩ "(1" = .error (.mismatch [.closing] .finish 2) := by decide +kernel
  refine ⟨⟨hok, (parse_agrees_with_tokens _ _).1 _ hok⟩,
    ⟨hscan, (parse_agrees_with_tokens _ _).2.1 _ hscan⟩, ⟨htokens, ?_⟩,
    hfinish, (parse_agrees_with_tokens _ _).2.2.2 _ _ hfinish⟩
  obtain h | ⟨e, he, hlt, -⟩ := (parse_agrees_with_tokens ⟨1⟩ _).2.2.1 _ htokens
  · exact (hearlier h).elim
  · exact ⟨e, he, hlt⟩

end Reckon
