import Reckon.Proofs.Answers
import Reckon.Proofs.Lines
import Reckon.Proofs.Spelling

/-! # Sessions

A session writes what each line is answered with, one after the other, up to the first that is not
text.
-/

namespace Reckon.Command

variable {o : Options} {number : Nat} {written : List Emission} {lines others : List String}

theorem exists_not_blank_of_writes {token : Token} {x : List Char} (h : Writes token x) :
    ∃ c ∈ x, Text.isBlank c = false := by
  cases h with
  | @symbol _ c hc =>
    refine ⟨c, List.mem_singleton_self c, ?_⟩
    revert hc
    cases token with
    | operator op => cases op <;> rintro ⟨⟩ <;> decide
    | opening | closing => rintro ⟨⟩; decide
    | integer | finish => rintro ⟨⟩
  | integer hds _ =>
    obtain ⟨c, ds, rfl⟩ := List.exists_cons_of_ne_nil hds.1
    refine ⟨c, List.mem_cons_self, ?_⟩
    have hc := hds.2 c List.mem_cons_self
    simp only [Char.isDigit, ge_iff_le, Bool.and_eq_true, decide_eq_true_eq,
      UInt32.le_iff_toNat_le] at hc
    have hlow : 48 ≤ c.toNat := hc.1
    have hhigh : c.toNat ≤ 57 := hc.2
    unfold Text.isBlank
    simp only [Bool.or_eq_false_iff, decide_eq_false_iff_not, beq_eq_false_iff_ne]
    omega

/-- A blank text has no value, whether the scanner skips its white space or not. -/
theorem run_ne_ok_of_blank {text : String} (h : Text.isBlankText text.toList = true)
    (settings : Settings) (v : Int64) : run settings text ≠ .ok v := by
  intro hr
  rw [run_eq] at hr
  cases hp : parse settings text with
  | error error => rw [hp] at hr; cases hr
  | ok e =>
    rw [parse_eq_outcome, Pushdown.outcome_eq_ok_iff] at hp
    obtain ⟨ts, p, hts, hm, hresult⟩ := hp
    cases ts with
    | nil =>
      cases hm
      cases hresult
    | cons s ts =>
      generalize htext : text.toList = cs at h hts
      cases spells_iff.mpr hts with
      | cons _ _ hx =>
        obtain ⟨c, hc, hblank⟩ := exists_not_blank_of_writes hx
        have hall := List.all_eq_true.mp h c
          (List.mem_append_right _ (List.mem_append_left _ hc))
        cases hblank.symm.trans hall

def lineEmissions (o : Options) : Nat → List String → List Emission
  | _, [] => []
  | number, line :: lines =>
    (evaluateLine o number line).written ++ lineEmissions o (number + 1) lines

def linesEntries : Nat → List String → List (Option Nat × String)
  | _, [] => []
  | number, line :: lines => lineEntries number line ++ linesEntries (number + 1) lines

theorem covers_lineEmissions (o : Options) (number : Nat) (lines : List String) :
    Covers o (lineEmissions o number lines) (linesEntries number lines) := by
  induction lines generalizing number with
  | nil => exact .of_silent .nil
  | cons line lines ih => exact (covers_evaluateLine o number line).append (ih (number + 1))

/-- Running through lines of text, whatever is behind them. -/
theorem evaluateLines_append (o : Options) (number : Nat) (failures : Int32)
    (written : List Emission) (lines : List String) (rest : List (Option String)) :
    evaluateLines o number failures written (lines.map some ++ rest) =
      evaluateLines o (number + lines.length)
        (failures + Int32.ofNat (lines.countP (fails o.settings)))
        ((lineEmissions o number lines).reverseAux written) rest := by
  induction lines generalizing number failures written with
  | nil => simp [lineEmissions]
  | cons line lines ih =>
    -- the count wraps around, which its sums do not notice
    have hcount : (if (evaluateLine o number line).succeeded then failures else failures + 1) +
        Int32.ofNat (lines.countP (fails o.settings)) =
          failures + Int32.ofNat ((line :: lines).countP (fails o.settings)) := by
      rw [succeeded_evaluateLine, List.countP_cons]
      cases fails o.settings line
      · rfl
      · simp only [Bool.not_true, Bool.false_eq_true, if_false, if_true, Int32.ofNat_add]
        rw [Int32.add_assoc, Int32.add_comm 1]
        rfl
    have hwritten : (lineEmissions o (number + 1) lines).reverseAux
        ((evaluateLine o number line).written.reverseAux written) =
          (lineEmissions o number (line :: lines)).reverseAux written := by
      simp [lineEmissions, List.reverseAux_eq]
    rw [List.map_cons, List.cons_append, evaluateLines, ih, hcount, hwritten, List.length_cons,
      Nat.add_assoc, Nat.add_comm 1]

def readable : List (Option String) → List String
  | some line :: lines => line :: readable lines
  | _ => []

/-- The report that is due behind the lines, if one is. -/
def closing (settings : Settings) (lines : List (Option String)) : Option Report :=
  if lines.all Option.isSome then
    let failures := Int32.ofNat ((readable lines).countP (fails settings))
    if 0 < failures then some (.failures failures) else none
  else some .unreadable

theorem readable_map_some (lines : List String) : readable (lines.map some) = lines := by
  induction lines with
  | nil => rfl
  | cons line lines ih => exact congrArg (line :: ·) ih

theorem readable_append_none (lines : List String) (rest : List (Option String)) :
    readable (lines.map some ++ none :: rest) = lines := by
  induction lines with
  | nil => rfl
  | cons line lines ih => exact congrArg (line :: ·) ih

theorem closing_map_some (settings : Settings) (lines : List String) :
    closing settings (lines.map some) =
      if 0 < Int32.ofNat (lines.countP (fails settings)) then
        some (.failures (Int32.ofNat (lines.countP (fails settings)))) else none := by
  rw [closing, readable_map_some]
  exact if_pos (List.all_eq_true.mpr fun line hline => by
    obtain ⟨text, -, rfl⟩ := List.mem_map.mp hline
    rfl)

theorem closing_append_none (settings : Settings) (lines : List String)
    (rest : List (Option String)) :
    closing settings (lines.map some ++ none :: rest) = some .unreadable := by
  simp [closing]

theorem eq_readable (lines : List (Option String)) : lines = (readable lines).map some ∨
    ∃ rest, lines = (readable lines).map some ++ none :: rest := by
  induction lines with
  | nil => exact .inl rfl
  | cons line lines ih =>
    cases line with
    | none => exact .inr ⟨lines, rfl⟩
    | some line =>
      rcases ih with ih | ⟨rest, ih⟩
      · exact .inl (congrArg (some line :: ·) ih)
      · exact .inr ⟨rest, congrArg (some line :: ·) ih⟩

theorem evaluateLines_eq (o : Options) (lines : List (Option String)) :
    evaluateLines o 1 0 [] lines = ⟨(closing o.settings lines).isNone,
      lineEmissions o 1 (readable lines) ++ (closing o.settings lines).toList.map .report⟩ := by
  rcases eq_readable lines with h | ⟨rest, h⟩ <;> generalize readable lines = texts at h <;> subst h
  · have hrun := evaluateLines_append o 1 0 [] texts []
    rw [List.append_nil, Int32.zero_add] at hrun
    rw [hrun, evaluateLines, closing_map_some]
    split <;> simp [List.reverseAux_eq]
  · rw [evaluateLines_append, evaluateLines, closing_append_none]
    simp [List.reverseAux_eq]

/-- The texts that a session has to answer for: the expression of the command line, or the lines. -/
def entries (o : Options) (input : ByteArray) : List (Option Nat × String) :=
  match o.expression with
  | some expression => [(none, expression)]
  | none => linesEntries 1 (readable (inputLines input))

theorem silent_closing (settings : Settings) (lines : List (Option String)) :
    Silent ((closing settings lines).toList.map .report) := by
  unfold closing
  split
  · dsimp only
    split
    · exact .singleton rfl rfl
    · exact .nil
  · exact .singleton rfl rfl

theorem covers_evaluate (o : Options) (input : ByteArray) :
    Covers o (evaluate o input).written (entries o input) := by
  have hlog : Covers o [.log (.options o)] [] := .of_silent (.singleton rfl rfl)
  unfold evaluate entries
  cases o.expression with
  | some expression => exact hlog.append (covers_evaluateArgument o expression)
  | none =>
    dsimp only
    rw [evaluateLines_eq]
    exact hlog.append ((covers_lineEmissions o 1 _).append_silent (silent_closing _ _))

def printed (o : Options) (input : ByteArray) : List Emission :=
  (evaluate o input).written.filter (·.isOutput)

def reported (o : Options) (input : ByteArray) : List (Option Nat × InputError) :=
  (evaluate o input).written.filterMap Emission.failure?

theorem foldl_text (text : String) (written : List Emission) :
    written.foldl (fun text emission => text ++ emission.text ++ "\n") text =
      text ++ textOf written := by
  induction written generalizing text with
  | nil => exact String.append_empty.symm
  | cons x written ih =>
    have hx : textOf (x :: written) = "" ++ x.text ++ "\n" ++ textOf written := ih _
    rw [List.foldl_cons, ih, hx, String.empty_append, String.append_assoc, String.append_assoc,
      String.append_assoc]

theorem textOf_cons (x : Emission) (written : List Emission) :
    textOf (x :: written) = x.text ++ ("\n" ++ textOf written) := by
  rw [textOf, List.foldl_cons, foldl_text, String.empty_append, String.append_assoc]

theorem textOf_append (written more : List Emission) :
    textOf (written ++ more) = textOf written ++ textOf more := by
  rw [textOf, List.foldl_append, foldl_text]
  rfl

theorem isShown_of_isOutput {x : Emission} (h : x.isOutput = true) (verbosity : Verbosity) :
    x.isShown verbosity = true := by
  cases x with
  | log => cases h
  | _ => rfl

theorem output_completion (o : Options) (input : ByteArray) (verbosity : Verbosity) :
    ((evaluate o input).completion verbosity).output = textOf (printed o input) := by
  rw [Outcome.completion, printed, List.filter_filter]
  refine congrArg textOf (List.filter_congr fun x _ => ?_)
  cases h : x.isOutput with
  | false => rfl
  | true => exact isShown_of_isOutput h verbosity

def session (o : Options) : Options := { o with expression := none }

def positional (o : Options) (text : String) : Options := { o with expression := some text }

/-- What a line contributes to a session: nothing if it is blank, or else what is shown for it on
its own, where either a value ends the output or one error is reported. -/
inductive Contributes (o : Options) (number : Nat) (line : String) :
    List Emission → List (Option Nat × InputError) → Prop where

  | blank : (∀ c ∈ line.toList, Text.isBlank c = true) →
      (∀ settings v, run settings line ≠ .ok v) → Contributes o number line [] []

  | value {v : Int64} {listed : List Emission} : (∃ c ∈ line.toList, Text.isBlank c = false) →
      run o.settings line = .ok v → (∀ v, Emission.value v ∉ listed) →
      (∀ input, printed (positional o line) input = listed ++ [.value v]) →
      (∀ input, reported (positional o line) input = []) →
      Contributes o number line (listed ++ [.value v]) []

  | failure {error : InputError} {listed : List Emission} :
      (∃ c ∈ line.toList, Text.isBlank c = false) → (∀ v, run o.settings line ≠ .ok v) →
      (∀ v, Emission.value v ∉ listed) →
      (∀ input, printed (positional o line) input = listed) →
      (∀ input, reported (positional o line) input = [(none, error)]) →
      Contributes o number line listed [(some number, error)]

inductive Contributions (o : Options) :
    Nat → List String → List Emission → List (Option Nat × InputError) → Prop where

  | nil {number : Nat} : Contributions o number [] [] []

  | cons {number : Nat} {line : String} {lines : List String} {output outputs : List Emission}
      {errors others : List (Option Nat × InputError)} : Contributes o number line output errors →
      Contributions o (number + 1) lines outputs others →
      Contributions o number (line :: lines) (output ++ outputs) (errors ++ others)

theorem evaluate_session (o : Options) (input : ByteArray) : evaluate (session o) input =
    ⟨(closing o.settings (inputLines input)).isNone, .log (.options (session o)) ::
      (lineEmissions (session o) 1 (readable (inputLines input)) ++
        (closing o.settings (inputLines input)).toList.map .report)⟩ := by
  change (⟨_, _ :: _⟩ : Outcome) = _
  rw [evaluateLines_eq]
  rfl

/-- A session depends on nothing behind the lines in front of the first that is not text. -/
theorem evaluate_unreadable (o : Options) {input : ByteArray} {rest : List (Option String)}
    (h : inputLines input = lines.map some ++ none :: rest) : evaluate (session o) input =
      ⟨false, .log (.options (session o)) ::
        (lineEmissions (session o) 1 lines ++ [.report .unreadable])⟩ := by
  rw [evaluate_session, h, closing_append_none, readable_append_none]
  rfl

theorem printed_eq (o : Options) (input : ByteArray) :
    printed o input = (entries o input).flatMap fun x => listing o x.2 :=
  (covers_evaluate o input).output

theorem reported_eq (o : Options) (input : ByteArray) : reported o input =
    (entries o input).filterMap fun x => (failure? o x.2).map (x.1, ·) :=
  (covers_evaluate o input).failures

theorem printed_positional (o : Options) (text : String) (input : ByteArray) :
    printed (positional o text) input = listing o text := by
  rw [printed_eq]
  exact List.flatMap_singleton ..

theorem reported_positional (o : Options) (text : String) (input : ByteArray) :
    reported (positional o text) input = (failure? o text).toList.map (none, ·) := by
  rw [reported_eq]
  change [(none, text)].filterMap (fun x => (failure? o x.2).map (x.1, ·)) = _
  cases h : failure? o text <;> simp [h]

theorem exists_listing_eq (o : Options) (text : String) :
    ∃ listed, (∀ v, Emission.value v ∉ listed) ∧
      listing o text = listed ++ (run o.settings text).toOption.toList.map .value := by
  refine ⟨_, fun v hv => ?_, rfl⟩
  rcases List.mem_append.mp hv with hv | hv
  · split at hv
    · obtain ⟨ts, -, h⟩ := List.mem_map.mp hv
      cases h
    · cases hv
  · split at hv
    · obtain ⟨e, -, h⟩ := List.mem_map.mp hv
      cases h
    · cases hv

theorem contributes_line (o : Options) (number : Nat) (line : String) :
    Contributes o number line ((lineEntries number line).flatMap fun x => listing o x.2)
      ((lineEntries number line).filterMap fun x => (failure? o x.2).map (x.1, ·)) := by
  unfold lineEntries
  split
  next hb => exact .blank (List.all_eq_true.mp hb) (run_ne_ok_of_blank hb)
  next hb =>
    have hshown : ∃ c ∈ line.toList, Text.isBlank c = false := by
      simpa [Text.isBlankText] using hb
    have hprinted (input : ByteArray) := printed_positional o line input
    have hreported (input : ByteArray) := reported_positional o line input
    obtain ⟨listed, hlisted, hl⟩ := exists_listing_eq o line
    rw [List.flatMap_singleton, List.filterMap_cons, List.filterMap_nil]
    cases hr : run o.settings line with
    | ok v =>
      have hn : failure? o line = none := failure?_eq_none_iff.mpr ⟨v, hr⟩
      rw [hr] at hl
      simp only [hn] at hreported ⊢
      rw [hl]
      exact .value hshown hr hlisted (fun input => (hprinted input).trans hl) hreported
    | error f =>
      have hne (v : Int64) : run o.settings line ≠ .ok v := fun h => by cases hr.symm.trans h
      obtain ⟨error, he⟩ : ∃ error, failure? o line = some error :=
        Option.ne_none_iff_exists'.mp fun h => (failure?_eq_none_iff.mp h).elim hne
      rw [hr] at hl
      replace hl : listing o line = listed := hl.trans (List.append_nil listed)
      simp only [he] at hreported ⊢
      rw [hl]
      exact .failure hshown hne hlisted (fun input => (hprinted input).trans hl) hreported

theorem contributions_lines (o : Options) (number : Nat) (lines : List String) :
    Contributions o number lines ((linesEntries number lines).flatMap fun x => listing o x.2)
      ((linesEntries number lines).filterMap fun x => (failure? o x.2).map (x.1, ·)) := by
  induction lines generalizing number with
  | nil => exact .nil
  | cons line lines ih =>
    rw [linesEntries, List.flatMap_append, List.filterMap_append]
    exact .cons (contributes_line o number line) (ih (number + 1))

theorem linesEntries_append (number : Nat) (lines others : List String) :
    linesEntries number (lines ++ others) =
      linesEntries number lines ++ linesEntries (number + lines.length) others := by
  induction lines generalizing number with
  | nil => rfl
  | cons line lines ih =>
    rw [List.cons_append, linesEntries, linesEntries, ih, List.append_assoc, List.length_cons,
      Nat.add_assoc, Nat.add_comm 1]

theorem linesEntries_add (number n : Nat) (lines : List String) :
    linesEntries (number + n) lines =
      (linesEntries number lines).map fun x => (x.1.map (· + n), x.2) := by
  induction lines generalizing number with
  | nil => rfl
  | cons line lines ih =>
    rw [linesEntries, linesEntries, List.map_append, ← ih, Nat.add_right_comm]
    congr 1
    unfold lineEntries
    split <;> rfl

theorem entries_session {input : ByteArray} (h : readable (inputLines input) = lines) :
    entries (session o) input = linesEntries 1 lines := by
  rw [← h]
  rfl

theorem contributions_session (o : Options) {input : ByteArray}
    (h : readable (inputLines input) = lines) :
    Contributions o 1 lines (printed (session o) input) (reported (session o) input) := by
  rw [printed_eq, reported_eq, entries_session h]
  exact contributions_lines o 1 lines

theorem readable_toUTF8 {text : String} {lines : List (List Char)}
    (h : Lines '\n' '\r' text.toList lines) :
    readable (inputLines text.toUTF8) = lines.map String.ofList := by
  rw [inputLines_toUTF8 h, readable_map_some]

theorem getLast?_of_ends_in_newline {a : String} (h : a = "" ∨ ∃ front, a = front ++ "\n") :
    ∀ c ∈ a.toList.getLast?, c = '\n' := by
  rcases h with rfl | ⟨front, rfl⟩
  · rintro c ⟨⟩
  · simp

/-- A session takes its lines one by one, and a line contributes what is shown for it on its own, or
nothing if it is blank. Lines put in front come first in the output and move the numbers of the
others; a line that is not text ends the session, whatever is behind it. -/
theorem session_line_by_line (o : Options) (verbosity : Verbosity) :
    (∀ text : String, ∃ lines, Lines '\n' '\r' text.toList lines) ∧
    (∀ (a b : String) (lines : List (List Char)), (a = "" ∨ ∃ front, a = front ++ "\n") →
      Lines '\n' '\r' a.toList lines →
      ((evaluate (session o) (a ++ b).toUTF8).completion verbosity).output =
        ((evaluate (session o) a.toUTF8).completion verbosity).output ++
          ((evaluate (session o) b.toUTF8).completion verbosity).output ∧
      reported (session o) (a ++ b).toUTF8 = reported (session o) a.toUTF8 ++
        (reported (session o) b.toUTF8).map fun x => (x.1.map (· + lines.length), x.2)) ∧
    (∀ (text : String) (lines : List (List Char)), Lines '\n' '\r' text.toList lines →
      Contributions o 1 (lines.map String.ofList) (printed (session o) text.toUTF8)
        (reported (session o) text.toUTF8)) ∧
    ∀ (input : ByteArray) (lines : List (List UInt8)) (texts : List String)
      (rest : List (Option String)), Lines 10 13 input.data.toList lines →
      lines.map decode = texts.map some ++ none :: rest →
      Contributions o 1 texts (printed (session o) input) (reported (session o) input) ∧
      ((evaluate (session o) input).completion verbosity).exit = 1 ∧
      ∀ (input' : ByteArray) (lines' : List (List UInt8)) (rest' : List (Option String)),
        Lines 10 13 input'.data.toList lines' →
        lines'.map decode = texts.map some ++ none :: rest' →
        evaluate (session o) input' = evaluate (session o) input := by
  refine ⟨fun text => Lines.exists_lines _ _ _, fun a b lines ha hlines => ?_,
    fun text lines hlines => contributions_session o (readable_toUTF8 hlines),
    fun input lines texts rest hlines hdecode => ?_⟩
  · obtain ⟨others, hothers⟩ := Lines.exists_lines '\n' '\r' b.toList
    have hab : entries (session o) (a ++ b).toUTF8 = entries (session o) a.toUTF8 ++
        (entries (session o) b.toUTF8).map fun x => (x.1.map (· + lines.length), x.2) := by
      have hl : Lines '\n' '\r' (a ++ b).toList (lines ++ others) := by
        rw [String.toList_append]
        exact hlines.append (getLast?_of_ends_in_newline ha) hothers
      rw [entries_session (readable_toUTF8 hl), entries_session (readable_toUTF8 hlines),
        entries_session (readable_toUTF8 hothers), List.map_append, linesEntries_append,
        List.length_map, linesEntries_add]
    constructor
    · rw [output_completion, output_completion, output_completion, ← textOf_append, printed_eq,
        printed_eq, printed_eq, hab, List.flatMap_append, List.flatMap_map]
    · rw [reported_eq, reported_eq, reported_eq, hab, List.filterMap_append, List.filterMap_map,
        List.map_filterMap]
      simp only [Function.comp_def, Option.map_map]
  · have hsession := evaluate_unreadable o (inputLines_of_lines hlines hdecode)
    refine ⟨contributions_session o ?_, ?_, fun input' lines' rest' hlines' hdecode' => ?_⟩
    · rw [inputLines_of_lines hlines hdecode, readable_append_none]
    · rw [hsession]
      rfl
    · exact (evaluate_unreadable o (inputLines_of_lines hlines' hdecode')).trans hsession.symm

theorem session_line_by_line_mixed :
    Lines '\n' '\r' "1\n\x0b\n".toList [['1'], ['\x0b']] ∧
    reported (session ⟨true, false, 1, none⟩) ("1\n\x0b\n" ++ "2 x\r\n3").toUTF8 =
      [(some 3, .scan (.unexpected 'x' 2))] ∧
    ((evaluate (session ⟨true, false, 1, none⟩) ("1\n\x0b\n" ++ "2 x\r\n3").toUTF8).completion
      .info).output = "tokens: Token(INTEGER, 1)\n1\n" ++ "tokens: Token(INTEGER, 3)\n3\n" ∧
    Contributions ⟨true, false, 1, none⟩ 1 ["1", "\x0b"]
      (printed (session ⟨true, false, 1, none⟩) "1\n\x0b\n".toUTF8) [] ∧
    Lines (10 : UInt8) 13 [49, 10, 255] [[49], [255]] ∧
    [[49], [255]].map decode = ["1"].map some ++ none :: [] ∧
    ((evaluate (session ⟨true, false, 1, none⟩) ⟨#[49, 10, 255]⟩).completion .info).exit = 1 := by
  have hlines : Lines '\n' '\r' "1\n\x0b\n".toList [['1'], ['\x0b']] :=
    @Lines.plain _ _ _ ['1'] _ _ (by decide) (by decide)
      (@Lines.plain _ _ _ ['\x0b'] _ _ (by decide) (by decide) .none)
  have hbytes : Lines (10 : UInt8) 13 [49, 10, 255] [[49], [255]] :=
    @Lines.plain _ _ _ [49] _ _ (by decide) (by decide) (.last (by decide) (by decide))
  have hdecode : [[49], [255]].map decode = ["1"].map some ++ none :: [] := by decide +kernel
  obtain ⟨-, happend, hlisted, hunreadable⟩ := session_line_by_line ⟨true, false, 1, none⟩ .info
  obtain ⟨houtput, hreported⟩ := happend _ "2 x\r\n3" _ (.inr ⟨"1\n\x0b", by decide⟩) hlines
  refine ⟨hlines, hreported.trans (by decide +kernel), houtput.trans (by decide +kernel), ?_,
    hbytes, hdecode, (hunreadable _ _ _ _ hbytes hdecode).2.1⟩
  have hnone : reported (session ⟨true, false, 1, none⟩) "1\n\x0b\n".toUTF8 = [] := by
    decide +kernel
  exact hnone ▸ hlisted _ _ hlines

end Reckon.Command
