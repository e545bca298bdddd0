import Reckon.Proofs.Sessions

/-! # Counting failures

The count of failed lines has 32 bits and a sign. It is exact for fewer than 2147483648 failures;
one more turns it negative, and the session ends as if nothing had failed.
-/

namespace Reckon.Command

variable {o : Options} {verbosity : Verbosity} {lines : List String}

/-- The end that a session is meant to have: it fails if a line does, and its last message is then
the number of the lines that do. Either way all lines are evaluated. -/
structure CountsExactly (o : Options) (verbosity : Verbosity) (lines : List String)
    (outcome : Outcome) : Prop where

  exit_eq_zero_iff : (outcome.completion verbosity).exit = 0 ↔
    ∀ line ∈ lines, Text.isBlankText line.toList = true ∨ ∃ v, run o.settings line = .ok v

  report : (outcome.completion verbosity).exit ≠ 0 → (outcome.completion verbosity).exit = 1 ∧
    ∃ count : Int32, outcome.written.getLast? = some (.report (.failures count)) ∧
      count.toInt = lines.countP (fails o.settings)

  message : (outcome.completion verbosity).exit ≠ 0 →
    ∃ before, (outcome.completion verbosity).messages = before ++ ("Error: " ++
      Decimal.natText (lines.countP (fails o.settings)) ++
      (if lines.countP (fails o.settings) = 1 then " expression failed"
        else " expressions failed") ++ "\n")

  evaluated : Contributions o 1 lines (outcome.written.filter (·.isOutput))
    (outcome.written.filterMap Emission.failure?)

theorem countP_fails_eq_zero_iff {settings : Settings} : lines.countP (fails settings) = 0 ↔
    ∀ line ∈ lines, Text.isBlankText line.toList = true ∨ ∃ v, run settings line = .ok v := by
  rw [List.countP_eq_zero]
  refine forall₂_congr fun line _ => ?_
  unfold fails
  cases Text.isBlankText line.toList <;> cases run settings line <;>
    simp [Except.isOk, Except.toBool]

theorem text_failures {count : Int32} {n : Nat} (h : count.toInt = n) :
    (Report.failures count).text = "Error: " ++ Decimal.natText n ++
      (if n = 1 then " expression failed" else " expressions failed") := by
  have hone : count = 1 ↔ n = 1 := by
    have h1 : (1 : Int32).toInt = 1 := by decide
    rw [← Int32.toInt_inj, h, h1]
    exact Int.natCast_inj
  have ht : (Report.failures count).text = "Error: " ++ Decimal.intText count.toInt ++
    (if count = 1 then " expression failed" else " expressions failed") := rfl
  have hn : Decimal.intText n = Decimal.natText n := rfl
  rw [ht, h, hn]
  exact congrArg _ (if_congr hone rfl rfl)

theorem exists_messages_eq {outcome : Outcome} {front : List Emission} {report : Report}
    (h : outcome.written = front ++ [.report report]) (verbosity : Verbosity) :
    ∃ before, (outcome.completion verbosity).messages = before ++ (report.text ++ "\n") := by
  have hm : (outcome.completion verbosity).messages =
      textOf ((outcome.written.filter (·.isShown verbosity)).filter (!·.isOutput)) := rfl
  rw [hm, h, List.filter_append, List.filter_append, textOf_append]
  exact ⟨_, congrArg (_ ++ ·) (textOf_cons (.report report) [])⟩

section
variable {input : ByteArray} (h : inputLines input = lines.map some)
include h

theorem succeeded_session : (evaluate (session o) input).succeeded =
    !decide (0 < Int32.ofNat (lines.countP (fails o.settings))) := by
  rw [evaluate_session, h, closing_map_some]
  split <;> simp [*]

theorem exists_written_session (hf : 0 < Int32.ofNat (lines.countP (fails o.settings))) :
    ∃ front, (evaluate (session o) input).written =
      front ++ [.report (.failures (Int32.ofNat (lines.countP (fails o.settings))))] := by
  rw [evaluate_session, h, closing_map_some, if_pos hf]
  exact ⟨_ :: _, rfl⟩

theorem exit_session_eq_zero_iff : ((evaluate (session o) input).completion verbosity).exit = 0 ↔
    ¬ 0 < Int32.ofNat (lines.countP (fails o.settings)) := by
  rw [Outcome.completion, succeeded_session h]
  by_cases hf : 0 < Int32.ofNat (lines.countP (fails o.settings)) <;> simp [hf]

end

/-- The end of a session is exact as long as the failures can be counted, and no longer. -/
theorem counts_exactly_iff (o : Options) (verbosity : Verbosity) (text : String)
    (lines : List (List Char)) (h : Lines '\n' '\r' text.toList lines) :
    CountsExactly o verbosity (lines.map String.ofList) (evaluate (session o) text.toUTF8) ↔
      (lines.map String.ofList).countP (fails o.settings) < 2 ^ 31 := by
  have hinput := inputLines_toUTF8 h
  have hevaluated := contributions_session o (readable_toUTF8 h)
  generalize lines.map String.ofList = texts at hinput hevaluated ⊢
  constructor
  · intro hexact
    by_contra hlarge
    have hfails : ¬ ∀ line ∈ texts, Text.isBlankText line.toList = true ∨
        ∃ v, run o.settings line = .ok v := by
      intro hall
      rw [countP_fails_eq_zero_iff.mpr hall] at hlarge
      exact hlarge (by decide)
    obtain ⟨-, count, -, hcount⟩ := hexact.report (mt hexact.exit_eq_zero_iff.mp hfails)
    have hlt := count.toInt_lt
    omega
  · intro hsmall
    have hcount := Int32.toInt_ofNat_of_lt hsmall
    have hpos : 0 < Int32.ofNat (texts.countP (fails o.settings)) ↔
        texts.countP (fails o.settings) ≠ 0 := by
      rw [Int32.lt_iff_toInt_lt, hcount, Nat.ne_zero_iff_zero_lt]
      exact Int.natCast_pos
    have hexit := @exit_session_eq_zero_iff o verbosity _ _ hinput
    refine ⟨?_, fun hne => ?_, fun hne => ?_, hevaluated⟩
    · rw [hexit, hpos, not_not, countP_fails_eq_zero_iff]
    · have hf := of_not_not (mt hexit.mpr hne)
      obtain ⟨front, hw⟩ := exists_written_session hinput hf
      refine ⟨?_, _, by rw [hw, List.getLast?_concat], hcount⟩
      rw [Outcome.completion, succeeded_session hinput, decide_eq_true hf]
      rfl
    · obtain ⟨front, hw⟩ := exists_written_session hinput (of_not_not (mt hexit.mpr hne))
      obtain ⟨before, hm⟩ := exists_messages_eq hw verbosity
      exact ⟨before, by rw [hm, text_failures hcount]⟩

theorem counts_exactly_iff_two :
    Lines '\n' '\r' "x\n\n1\n2+".toList [['x'], [], ['1'], ['2', '+']] ∧
    CountsExactly ⟨false, false, 256, none⟩ .info ["x", "", "1", "2+"]
      (evaluate (session ⟨false, false, 256, none⟩) "x\n\n1\n2+".toUTF8) := by
  have hlines : Lines '\n' '\r' "x\n\n1\n2+".toList [['x'], [], ['1'], ['2', '+']] :=
    @Lines.plain _ _ _ ['x'] _ _ (by decide) (by decide)
      (@Lines.plain _ _ _ [] _ _ (by decide) (by decide)
        (@Lines.plain _ _ _ ['1'] _ _ (by decide) (by decide) (.last (by decide) (by decide))))
  exact ⟨hlines, (counts_exactly_iff _ _ _ _ hlines).mpr (by decide +kernel)⟩

def failingText (n : Nat) : String := String.ofList (List.replicate n ['x', '\n']).flatten

theorem lines_failingText (n : Nat) :
    Lines '\n' '\r' (failingText n).toList (List.replicate n ['x']) := by
  rw [failingText, String.toList_ofList]
  induction n with
  | zero => exact .none
  | succ n ih =>
    rw [List.replicate_succ, List.replicate_succ, List.flatten_cons]
    exact @Lines.plain _ _ _ ['x'] _ _ (by decide) (by decide) ih

theorem fails_x : fails ⟨256⟩ "x" = true := by decide +kernel

theorem exit_failingText {n : Nat} (hn : ¬ 0 < Int32.ofNat n) :
    ((evaluate (session ⟨false, false, 256, none⟩) (failingText n).toUTF8).completion .info).exit =
      0 := by
  refine (exit_session_eq_zero_iff (inputLines_toUTF8 (lines_failingText n))).mpr ?_
  rw [List.map_replicate, List.countP_replicate]
  change ¬ 0 < Int32.ofNat (if fails ⟨256⟩ "x" = true then n else 0)
  rwa [if_pos fails_x]

/-- A session fails 2147483648 times and succeeds. -/
theorem failures_wrap :
    Lines '\n' '\r' (failingText 2147483648).toList (List.replicate 2147483648 ['x']) ∧
    (Text.isBlankText "x".toList = false ∧ ∀ v, run ⟨256⟩ "x" ≠ .ok v) ∧
    ((evaluate (session ⟨false, false, 256, none⟩) (failingText 2147483648).toUTF8).completion
      .info).exit = 0 ∧
    ¬ CountsExactly ⟨false, false, 256, none⟩ .info
      ((List.replicate 2147483648 ['x']).map String.ofList)
      (evaluate (session ⟨false, false, 256, none⟩) (failingText 2147483648).toUTF8) := by
  have hexit := @exit_failingText 2147483648 (by decide)
  have hrun : ∀ v, run ⟨256⟩ "x" ≠ .ok v := by
    intro v h
    have hf := fails_x
    rw [fails, h] at hf
    cases hf
  refine ⟨lines_failingText _, ⟨by decide, hrun⟩, hexit, fun hexact => ?_⟩
  have hmem : "x" ∈ (List.replicate 2147483648 ['x']).map String.ofList :=
    List.mem_map.mpr ⟨['x'], List.mem_replicate.mpr ⟨by decide, rfl⟩, rfl⟩
  rcases hexact.exit_eq_zero_iff.mp hexit "x" hmem with hblank | ⟨v, hv⟩
  · cases hblank
  · exact hrun v hv

end Reckon.Command
