import Reckon.Proofs.Simulation

/-! # Parsing by counting

A parse succeeds or fails as the counting automaton does on the readings of the source.
-/

namespace Reckon

namespace Automaton

inductive Steps (limit : UInt64) (s : Spanned) :
    Automaton → Except ParseError (Option Automaton) → Prop where

  | literal {n : Int64} {opened : Nat} : s.token = .integer n →
      Steps limit s ⟨false, opened⟩ (.ok (some ⟨true, opened⟩))

  | opening {opened : Nat} : s.token = .opening → opened < limit.toNat →
      Steps limit s ⟨false, opened⟩ (.ok (some ⟨false, opened + 1⟩))

  | tooDeep {opened : Nat} : s.token = .opening → limit.toNat ≤ opened →
      Steps limit s ⟨false, opened⟩ (.error (.tooDeep limit s.start))

  | operator {op : Operator} {opened : Nat} : s.token = .operator op →
      Steps limit s ⟨true, opened⟩ (.ok (some ⟨false, opened⟩))

  | closing {opened : Nat} : s.token = .closing →
      Steps limit s ⟨true, opened + 1⟩ (.ok (some ⟨true, opened⟩))

  | finish : s.token = .finish → Steps limit s ⟨true, 0⟩ (.ok none)

  | mismatch {a : Automaton} : s.token.kind ∉ a.expected →
      Steps limit s a (.error (.mismatch a.expected s.token s.start))

theorem steps_of_mismatch {limit : UInt64} {a : Automaton} {s : Spanned}
    (hs : a.step limit s = .error (.mismatch a.expected s.token s.start))
    (hk : s.token.kind ∉ a.expected) : Steps limit s a (a.step limit s) := by
  rw [hs]
  exact .mismatch hk

theorem steps_step (limit : UInt64) (a : Automaton) (s : Spanned) :
    Steps limit s a (a.step limit s) := by
  obtain ⟨complete, opened⟩ := a
  cases complete with
  | false =>
    cases ht : s.token with
    | integer n => simpa [step, ht] using Steps.literal ht
    | opening =>
      by_cases hl : limit.toNat ≤ opened
      · simpa [step, ht, hl] using Steps.tooDeep ht hl
      · simpa [step, ht, hl] using Steps.opening ht (Nat.lt_of_not_le hl)
    | _ => exact steps_of_mismatch (by simp [step, ht]) (by simp [ht, Token.kind, expected])
  | true =>
    cases ht : s.token with
    | operator op => simpa [step, ht] using Steps.operator ht
    | closing =>
      cases opened with
      | zero => exact steps_of_mismatch (by simp [step, ht]) (by simp [ht, Token.kind, expected])
      | succ opened => simpa [step, ht] using Steps.closing ht
    | finish =>
      cases opened with
      | zero => simpa [step, ht] using Steps.finish ht
      | succ opened =>
        exact steps_of_mismatch (by simp [step, ht]) (by simp [ht, Token.kind, expected])
    | _ =>
      refine steps_of_mismatch (by simp [step, ht]) ?_
      by_cases ho : 0 < opened <;> simp [ht, Token.kind, expected, ho]

theorem steps_of_eq {limit : UInt64} {a : Automaton} {s : Spanned}
    {r : Except ParseError (Option Automaton)} (h : a.step limit s = r) : Steps limit s a r :=
  h ▸ steps_step limit a s

/-- Some tokens take one state to another. -/
inductive Reaches (limit : UInt64) : Automaton → List Spanned → Automaton → Prop where

  | nil (a : Automaton) : Reaches limit a [] a

  | cons {a b c : Automaton} {s : Spanned} {ts : List Spanned} :
      a.step limit s = .ok (some b) → Reaches limit b ts c → Reaches limit a (s :: ts) c

/-- The state does not go on, for the given reason. -/
inductive Refuses (limit : UInt64) (a : Automaton) : Reading → ParseError → Prop where

  | scan (error : ScanError) : Refuses limit a (.error error) (.scan error)

  | step {s : Spanned} {error : ParseError} : a.step limit s = .error error →
      Refuses limit a (.ok s) error

variable {limit limit' : UInt64} {a b c : Automaton} {s finish : Spanned} {ts us : List Spanned}
  {error : ParseError}

theorem Reaches.append (h : a.Reaches limit ts b) (h' : b.Reaches limit us c) :
    a.Reaches limit (ts ++ us) c := by
  induction h with
  | nil => exact h'
  | cons hs _ ih => exact .cons hs (ih h')

theorem exists_step_of_reaches_concat (h : a.Reaches limit (ts ++ [s]) b) :
    ∃ c, a.Reaches limit ts c ∧ c.step limit s = .ok (some b) := by
  induction ts generalizing a with
  | nil =>
    cases h with
    | cons hs h =>
      cases h
      exact ⟨a, .nil a, hs⟩
  | cons t ts ih =>
    cases h with
    | cons hs h =>
      obtain ⟨c, hc, hl⟩ := ih h
      exact ⟨c, .cons hs hc, hl⟩

theorem Reaches.run_eq (h : a.Reaches limit ts b) (finish : Spanned) (rest : List Reading) :
    a.run limit finish (ts.map .ok ++ rest) = b.run limit finish rest := by
  induction h with
  | nil => rfl
  | cons hs _ ih =>
    rw [List.map_cons, List.cons_append, run, hs]
    exact ih

theorem Refuses.run_eq {r : Reading} (h : a.Refuses limit r error) (finish : Spanned)
    (rest : List Reading) : a.run limit finish (r :: rest) = .error error := by
  cases h with
  | scan error => rfl
  | step hs => rw [run, hs]

theorem step_mono (hl : limit.toNat ≤ limit'.toNat) (h : a.step limit s = .ok (some b)) :
    a.step limit' s = .ok (some b) := by
  cases steps_of_eq h with
  | opening ht ho => simp [step, ht, Nat.lt_of_lt_of_le ho hl]
  | literal ht | operator ht | closing ht => simp [step, ht]

theorem Reaches.mono (hl : limit.toNat ≤ limit'.toNat) (h : a.Reaches limit ts b) :
    a.Reaches limit' ts b := by
  induction h with
  | nil a => exact .nil a
  | cons hs _ ih => exact .cons (step_mono hl hs) ih

theorem opened_le_of_step (h : a.step limit s = .ok (some b)) : b.opened ≤ a.opened + 1 := by
  cases steps_of_eq h <;> (simp only; omega)

theorem Reaches.opened_le (h : a.Reaches limit ts b) : b.opened ≤ a.opened + ts.length := by
  induction h with
  | nil => simp
  | cons hs _ ih =>
    have := opened_le_of_step hs
    rw [List.length_cons]
    omega

theorem ne_none_of_step (hs : s.token ≠ .finish) : a.step limit s ≠ .ok none := by
  intro h
  cases steps_of_eq h with
  | finish ht => exact hs ht

/-- A run fails where a state that it reaches refuses the next reading, or the end. -/
theorem exists_refuses_of_run_eq_error {rs : List Reading}
    (hrs : ∀ s, .ok s ∈ rs → s.token ≠ .finish) (h : a.run limit finish rs = .error error) :
    ∃ ts b, a.Reaches limit ts b ∧
      (rs = ts.map .ok ∧ b.Refuses limit (.ok finish) error ∨
        ∃ r rest, rs = ts.map .ok ++ r :: rest ∧ b.Refuses limit r error) := by
  induction rs generalizing a with
  | nil =>
    refine ⟨[], a, .nil a, .inl ⟨rfl, .step ?_⟩⟩
    rw [run] at h
    cases hs : a.step limit finish with
    | ok next => rw [hs] at h; cases h
    | error e => rw [hs] at h; cases h; rfl
  | cons r rs ih =>
    cases r with
    | error e =>
      cases h
      exact ⟨[], a, .nil a, .inr ⟨_, rs, rfl, .scan e⟩⟩
    | ok s =>
      rw [run] at h
      cases hs : a.step limit s with
      | error e =>
        rw [hs] at h
        cases h
        exact ⟨[], a, .nil a, .inr ⟨_, rs, rfl, .step hs⟩⟩
      | ok next? =>
        cases next? with
        | none => exact (ne_none_of_step (hrs s List.mem_cons_self) hs).elim
        | some next =>
          rw [hs] at h
          obtain ⟨ts, b, hr, ⟨rfl, hb⟩ | ⟨r, rest, rfl, hb⟩⟩ :=
            ih (fun t ht => hrs t (List.mem_cons_of_mem _ ht)) h
          · exact ⟨s :: ts, b, .cons hs hr, .inl ⟨rfl, hb⟩⟩
          · exact ⟨s :: ts, b, .cons hs hr, .inr ⟨r, rest, rfl, hb⟩⟩

end Automaton

theorem parse_map_eq_run_readings (settings : Settings) (source : String) :
    (parse settings source).map (fun _ => ()) =
      Automaton.start.run settings.limit (Cursor.start source).finish
        (readings 0 source.toList) := by
  rw [parse_eq_outcome]
  exact Pushdown.outcome_map_eq_run rfl (fun _ => token_ne_finish_of_mem_readings) _

theorem exists_parse_eq_ok_iff {settings : Settings} {source : String} :
    (∃ e, parse settings source = .ok e) ↔
      Automaton.start.run settings.limit (Cursor.start source).finish
        (readings 0 source.toList) = .ok () := by
  rw [← parse_map_eq_run_readings]
  cases parse settings source <;> simp [Except.map]

theorem parse_eq_error_iff {settings : Settings} {source : String} {error : ParseError} :
    parse settings source = .error error ↔
      Automaton.start.run settings.limit (Cursor.start source).finish
        (readings 0 source.toList) = .error error := by
  rw [← parse_map_eq_run_readings]
  cases parse settings source <;> simp [Except.map]

/-- A parse has the outcome of the automaton on everything that a cursor hands out. -/
theorem parse_map_eq_run_drain (settings : Settings) (source : String) :
    (parse settings source).map (fun _ => ()) =
      Automaton.start.run settings.limit ⟨source.utf8ByteSize, .finish, source.utf8ByteSize⟩
        (Cursor.start source).drain.1 := by
  rw [parse_map_eq_run_readings, Cursor.drain_eq, Cursor.upcoming_start]
  rfl

end Reckon
