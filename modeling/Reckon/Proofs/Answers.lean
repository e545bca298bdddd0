import Reckon.Command.Session
import Reckon.Proofs.Nesting
import Reckon.Proofs.OnDemand

/-! # Answers

An input is answered by its value or an error. Listings come in front of that, and decide nothing
but that tokens listed are all read before the first is parsed.
-/

namespace Reckon.Command

variable {o : Options} {input : String} {written more : List Emission}

/-- The output for an input: the listings that are asked for and can be made, and the value. -/
def listing (o : Options) (input : String) : List Emission :=
  (if o.tokens then (tokens input).toOption.toList.map .tokens else []) ++
    (if o.tree then (parse o.settings input).toOption.toList.map .tree else []) ++
      (run o.settings input).toOption.toList.map .value

/-- The error of an input that has no value. -/
def failure? (o : Options) (input : String) : Option InputError :=
  match run o.settings input with
  | .ok _ => none
  | .error failure =>
    some <|
      match tokens input with
      | .error error => if o.tokens then .scan error else .run failure
      | .ok _ => .run failure

theorem failure?_eq_none_iff : failure? o input = none ↔ ∃ v, run o.settings input = .ok v := by
  unfold failure?
  cases run o.settings input <;> simp

theorem exists_tokens_of_run_eq_ok {v : Int64} (h : run o.settings input = .ok v) :
    ∃ ts, tokens input = .ok ts := by
  rw [run_eq] at h
  cases hp : parse o.settings input with
  | ok e => exact exists_tokens_of_parse_eq_ok hp
  | error error =>
    rw [hp] at h
    cases h

theorem isNone_failure? (o : Options) (input : String) :
    (failure? o input).isNone = (run o.settings input).isOk := by
  unfold failure?
  cases run o.settings input <;> rfl

theorem failure?_of_readable {f : Failure} (h : o.tokens = false ∨ ∃ ts, tokens input = .ok ts)
    (hr : run o.settings input = .error f) : failure? o input = some (.run f) := by
  unfold failure?
  rw [hr]
  rcases h with h | ⟨ts, hts⟩
  · cases tokens input <;> simp [h]
  · rw [hts]

theorem failure?_eq_of_readable {ts : List Spanned} (ht : tokens input = .ok ts) :
    failure? o input = failure? { o with tokens := false } input := by
  unfold failure?
  rw [ht]
  rfl

theorem failure?_of_unreadable {error : ScanError} (h : o.tokens = true)
    (ht : tokens input = .error error) : failure? o input = some (.scan error) := by
  unfold failure?
  cases hr : run o.settings input with
  | ok v =>
    obtain ⟨ts, hts⟩ := exists_tokens_of_run_eq_ok hr
    cases ht.symm.trans hts
  | error f =>
    rw [ht]
    exact congrArg some (if_pos h)

def Emission.failure? : Emission → Option (Option Nat × InputError)
  | lineError line error => some (some line, error)
  | report (.expression _ error) => some (none, error)
  | _ => none

/-- Emissions that are no part of the output and report no error of an input. -/
def Silent (written : List Emission) : Prop :=
  ∀ x ∈ written, x.isOutput = false ∧ x.failure? = none

namespace Silent

theorem filter_eq (h : Silent written) : written.filter (·.isOutput) = [] := by
  rw [List.filter_eq_nil_iff]
  intro x hx
  rw [(h x hx).1]
  exact Bool.false_ne_true

theorem filterMap_eq (h : Silent written) : written.filterMap Emission.failure? = [] :=
  List.filterMap_eq_nil_iff.mpr fun x hx => (h x hx).2

theorem append (h : Silent written) (h' : Silent more) : Silent (written ++ more) := by
  intro x hx
  rcases List.mem_append.mp hx with hx | hx
  · exact h x hx
  · exact h' x hx

theorem nil : Silent [] := fun _ h => absurd h List.not_mem_nil

theorem singleton {x : Emission} (ho : x.isOutput = false) (hf : x.failure? = none) :
    Silent [x] := by
  rintro y hy
  obtain rfl := List.mem_singleton.mp hy
  exact ⟨ho, hf⟩

end Silent

theorem silent_logged (trace : List TraceRecord) : Silent (logged trace) := by
  intro x hx
  obtain ⟨r, -, hr⟩ := List.mem_filterMap.mp hx
  cases r with
  | event e =>
    obtain rfl := Option.some.inj hr
    exact ⟨rfl, rfl⟩
  | enter | leave => cases hr

/-- What is written for some inputs: their output, and a report of every error. -/
structure Covers (o : Options) (written : List Emission) (entries : List (Option Nat × String)) :
    Prop where
  output : written.filter (·.isOutput) = entries.flatMap fun x => listing o x.2
  failures : written.filterMap Emission.failure? =
    entries.filterMap fun x => (Command.failure? o x.2).map (x.1, ·)

namespace Covers

variable {entries others : List (Option Nat × String)}

theorem append (h : Covers o written entries) (h' : Covers o more others) :
    Covers o (written ++ more) (entries ++ others) where
  output := by rw [List.filter_append, h.output, h'.output, List.flatMap_append]
  failures := by rw [List.filterMap_append, h.failures, h'.failures, List.filterMap_append]

theorem of_silent (h : Silent written) : Covers o written [] := ⟨h.filter_eq, h.filterMap_eq⟩

theorem append_silent (h : Covers o written entries) (hs : Silent more) :
    Covers o (written ++ more) entries := by
  simpa using h.append (of_silent hs)

end Covers

/-- An answer is the value of the input behind the listings, or its error. -/
inductive Answers (o : Options) (input : String) : Answer → Prop where

  | value {v : Int64} {written : List Emission} : run o.settings input = .ok v →
      written.filter (·.isOutput) ++ [.value v] = listing o input →
      written.filterMap Emission.failure? = [] → Answers o input ⟨.ok v, written⟩

  | failure {error : InputError} {written : List Emission} : failure? o input = some error →
      written.filter (·.isOutput) = listing o input →
      written.filterMap Emission.failure? = [] → Answers o input ⟨.error error, written⟩

theorem exists_answerTree_eq (input : String) (e : Expr) : ∃ written, Silent written ∧
    answerTree input e = ⟨e.value.mapError fun error => .run (.eval error), written⟩ := by
  have hs := silent_logged (evaluateTraced e).trace
  have hv : (evaluateTraced e).result = e.value := rfl
  unfold answerTree
  cases h : e.value with
  | ok v =>
    rw [h] at hv
    simp only [hv]
    exact ⟨_, hs.append (.singleton rfl rfl), rfl⟩
  | error error =>
    rw [h] at hv
    simp only [hv]
    exact ⟨_, hs, rfl⟩

theorem answers_answerParsed (h : o.tokens = false) : Answers o input (answerParsed o input) := by
  have hs := silent_logged (parseTraced o.settings input).trace
  have hparse : (parseTraced o.settings input).result = parse o.settings input := rfl
  have hrun := run_eq o.settings input
  unfold answerParsed
  cases hp : parse o.settings input with
  | error error =>
    rw [hp] at hparse hrun
    simp only [hparse]
    refine .failure (failure?_of_readable (.inl h) hrun) ?_ hs.filterMap_eq
    simp [hs.filter_eq, listing, h, hp, hrun, Except.toOption]
  | ok e =>
    rw [hp] at hparse hrun
    replace hrun : run o.settings input = e.value.mapError .eval := hrun
    obtain ⟨written, hw, ht⟩ := exists_answerTree_eq input e
    have houtput : (logged (parseTraced o.settings input).trace ++
        (if o.tree then [Emission.tree e] else []) ++ written).filter (·.isOutput) =
          if o.tree then [.tree e] else [] := by
      rw [List.filter_append, List.filter_append, hs.filter_eq, hw.filter_eq]
      split <;> rfl
    have hfailures :
        (logged (parseTraced o.settings input).trace ++
          (if o.tree then [Emission.tree e] else []) ++ written).filterMap Emission.failure? =
            [] := by
      rw [List.filterMap_append, List.filterMap_append, hs.filterMap_eq, hw.filterMap_eq]
      split <;> rfl
    simp only [hparse, ht]
    cases hv : e.value with
    | ok v =>
      rw [hv] at hrun
      refine .value hrun ?_ hfailures
      simp only [houtput, listing, h, hp, hrun]
      rfl
    | error f =>
      rw [hv] at hrun
      refine .failure (failure?_of_readable (.inl h) hrun) ?_ hfailures
      simp only [houtput, listing, h, hp, hrun]
      exact (List.append_nil _).symm

theorem toOption_eq_none {ε α : Type} {x : Except ε α} (h : ∀ a, x ≠ .ok a) :
    x.toOption = none := by
  cases x with
  | ok a => exact (h a rfl).elim
  | error => rfl

theorem listing_of_unreadable {error : ScanError} (ht : tokens input = .error error) :
    listing o input = [] := by
  have hread : ∀ ts, tokens input ≠ .ok ts := by
    intro ts hts
    cases ht.symm.trans hts
  have hp : (parse o.settings input).toOption = none :=
    toOption_eq_none fun _ h => (exists_tokens_of_parse_eq_ok h).elim hread
  have hr : (run o.settings input).toOption = none :=
    toOption_eq_none fun _ h => (exists_tokens_of_run_eq_ok h).elim hread
  rw [listing, hp, hr, ht]
  cases o.tokens <;> cases o.tree <;> rfl

theorem listing_of_readable {ts : List Spanned} (h : o.tokens = true)
    (ht : tokens input = .ok ts) :
    listing o input = .tokens ts :: listing { o with tokens := false } input := by
  rw [listing, if_pos h, ht]
  rfl

theorem answers_answer (o : Options) (input : String) : Answers o input (answer o input) := by
  unfold answer
  split
  next h =>
    split
    next error ht =>
      exact .failure (failure?_of_unreadable h ht) (listing_of_unreadable ht).symm rfl
    next ts ht =>
      -- the tokens stand in front of the answer that is given where they are not asked for
      have hl := listing_of_readable h ht
      generalize ha : answerParsed o input = a
      have hparsed : Answers { o with tokens := false } input a := ha ▸ answers_answerParsed rfl
      cases hparsed with
      | value hr ho hf =>
        refine .value hr ?_ hf
        rw [hl, ← ho]
        rfl
      | failure he ho hf =>
        refine .failure (.trans (failure?_eq_of_readable ht) he) ?_ hf
        rw [hl, ← ho]
        rfl
  next h => exact answers_answerParsed (Bool.eq_false_iff.mpr h)

theorem Answers.isOk_eq {a : Answer} (h : Answers o input a) :
    a.result.isOk = (run o.settings input).isOk := by
  cases h with
  | value hr => exact congrArg Except.isOk hr.symm
  | failure he => exact (congrArg Option.isNone he).symm.trans (isNone_failure? o input)

theorem Answers.covers_value {v : Int64} (h : Answers o input ⟨.ok v, written⟩)
    (number : Option Nat) : Covers o (written ++ [.value v]) [(number, input)] := by
  cases h with
  | value hr ho hf =>
    have hn : Command.failure? o input = none := failure?_eq_none_iff.mpr ⟨v, hr⟩
    constructor
    · rw [List.filter_append, List.flatMap_singleton, ← ho]
      rfl
    · rw [List.filterMap_append, hf, List.filterMap_cons, List.filterMap_cons, hn]
      rfl

theorem Answers.covers_failure {error : InputError} {number : Option Nat} {report : Emission}
    (h : Answers o input ⟨.error error, written⟩) (ho : report.isOutput = false)
    (hf : report.failure? = some (number, error)) :
    Covers o (written ++ [report]) [(number, input)] := by
  cases h with
  | failure he hw hn =>
    constructor
    · rw [List.filter_append, List.flatMap_singleton, ← hw, List.filter_singleton, ho]
      exact List.append_nil _
    · rw [List.filterMap_append, hn, List.filterMap_cons, List.filterMap_cons, he, hf]
      rfl

theorem covers_evaluateArgument (o : Options) (input : String) :
    Covers o (evaluateArgument o input).written [(none, input)] := by
  have h := answers_answer o input
  unfold evaluateArgument
  rcases ha : answer o input with ⟨v | v, written⟩ <;> rw [ha] at h
  · exact h.covers_failure rfl rfl
  · exact h.covers_value none

theorem succeeded_evaluateArgument (o : Options) (input : String) :
    (evaluateArgument o input).succeeded = (run o.settings input).isOk := by
  have h := (answers_answer o input).isOk_eq
  unfold evaluateArgument
  rcases ha : answer o input with ⟨error | v, written⟩ <;> rw [ha] at h <;> exact h

/-- What a line has to answer for: its text, unless that is blank. -/
def lineEntries (number : Nat) (line : String) : List (Option Nat × String) :=
  if Text.isBlankText line.toList then [] else [(some number, line)]

theorem covers_evaluateLine (o : Options) (number : Nat) (line : String) :
    Covers o (evaluateLine o number line).written (lineEntries number line) := by
  unfold evaluateLine lineEntries
  split
  · exact .of_silent .nil
  · have h := answers_answer o line
    rcases ha : answer o line with ⟨error | v, written⟩ <;> rw [ha] at h
    · exact h.covers_failure rfl rfl
    · exact h.covers_value (some number)

def fails (settings : Settings) (line : String) : Bool :=
  !Text.isBlankText line.toList && !(run settings line).isOk

theorem succeeded_evaluateLine (o : Options) (number : Nat) (line : String) :
    (evaluateLine o number line).succeeded = !fails o.settings line := by
  unfold evaluateLine fails
  split
  next hb => rw [hb]; rfl
  next hb =>
    have h := (answers_answer o line).isOk_eq
    rw [Bool.eq_false_iff.mpr hb, ← h]
    rcases answer o line with ⟨error | v, written⟩ <;> rfl

end Reckon.Command
