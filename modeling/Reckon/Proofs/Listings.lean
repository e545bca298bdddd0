import Reckon.Proofs.Rendering
import Reckon.Proofs.Sessions

/-! # Listings

Without the lines that are listings, a session has the output that it has if none are asked for.
-/

namespace Reckon.Command

variable {o : Options} {written : List Emission}

def plain (o : Options) : Options := { o with tokens := false, tree := false }

def isListing (line : List Char) : Bool :=
  "tokens:".toList.isPrefixOf line || "parsed:".toList.isPrefixOf line

/-- A text without the lines that are listings. -/
def withoutListings (text : String) : String :=
  String.ofList (['\n'].intercalate ((text.toList.splitOn '\n').filter (!isListing ·)))

theorem newline_notMem_intText (n : Int) : '\n' ∉ (Decimal.intText n).toList := by
  intro h
  have hdigits {k : Nat} : '\n' ∉ (Decimal.natText k).toList := by
    intro h
    rw [Decimal.natText, String.toList_ofList] at h
    rcases Decimal.isDigit_of_mem_digitsOnto h with h | h
    · cases h
    · cases h
  cases n with
  | ofNat k => exact hdigits h
  | negSucc k =>
    rw [Decimal.intText, String.toList_append, List.mem_append] at h
    rcases h with h | h
    · revert h
      decide
    · exact hdigits h

theorem newline_notMem_rendering (e : Expr) : '\n' ∉ e.rendering.toList := by
  induction e with
  | number n => exact newline_notMem_intText _
  | binary op lhs rhs ihl ihr =>
    have hop : '\n' ∉ op.text.toList := by cases op <;> decide
    simp [Expr.rendering, hop, ihl, ihr]

theorem newline_notMem_kindText (kind : Kind) : '\n' ∉ kind.text.toList := by
  cases kind with
  | operator op => cases op <;> decide
  | _ => decide

theorem newline_notMem_tokenText (token : Token) : '\n' ∉ token.text.toList := by
  cases token with
  | integer n => exact newline_notMem_intText _
  | operator op => cases op <;> decide
  | _ => decide

theorem mem_of_mem_intercalate {α : Type} {a : α} {between : List α} {pieces : List (List α)}
    (h : a ∈ between.intercalate pieces) : a ∈ between ∨ ∃ piece ∈ pieces, a ∈ piece := by
  induction pieces with
  | nil => cases h
  | cons piece pieces ih =>
    by_cases hne : pieces = []
    · subst hne
      exact .inr ⟨piece, List.mem_cons_self, by simpa using h⟩
    · rw [List.intercalate_cons_of_ne_nil hne, List.mem_append, List.mem_append] at h
      rcases h with (h | h) | h
      · exact .inr ⟨piece, List.mem_cons_self, h⟩
      · exact .inl h
      · obtain h | ⟨p, hp, h⟩ := ih h
        · exact .inl h
        · exact .inr ⟨p, List.mem_cons_of_mem _ hp, h⟩

theorem text_tokens (ts : List Spanned) : (Emission.tokens ts).text =
    "tokens: " ++ " ".intercalate (ts.map fun t =>
      "Token(" ++ t.token.kind.text ++ ", " ++ t.token.text ++ ")") := rfl

theorem text_tree (e : Expr) : (Emission.tree e).text = "parsed: " ++ e.rendering :=
  congrArg ("parsed: " ++ ·) e.text_eq_rendering

theorem newline_notMem_text {x : Emission} (h : x.isOutput = true) : '\n' ∉ x.text.toList := by
  cases x with
  | value n => exact newline_notMem_intText _
  | tree e =>
    intro hm
    rw [text_tree, String.toList_append, List.mem_append] at hm
    rcases hm with hm | hm
    · revert hm
      decide
    · exact newline_notMem_rendering e hm
  | tokens ts =>
    intro hm
    rw [text_tokens, String.toList_append, String.toList_intercalate, List.mem_append] at hm
    rcases hm with hm | hm
    · revert hm
      decide
    rcases mem_of_mem_intercalate hm with hm | ⟨piece, hpiece, hm⟩
    · revert hm
      decide
    · obtain ⟨t, -, rfl⟩ : ∃ t ∈ ts, ("Token(" ++ t.token.kind.text ++ ", " ++ t.token.text ++
          ")").toList = piece := by simpa using hpiece
      simp [newline_notMem_kindText, newline_notMem_tokenText] at hm
  | lineError | log | report => cases h

theorem isListing_cons_of_isDigit {c : Char} (h : c.isDigit = true) (line : List Char) :
    isListing (c :: line) = false := by
  have ht : ('t' == c) = false := beq_eq_false_iff_ne.mpr (by rintro rfl; cases h)
  have hp : ('p' == c) = false := beq_eq_false_iff_ne.mpr (by rintro rfl; cases h)
  have hl : isListing (c :: line) = (('t' == c && "okens:".toList.isPrefixOf line) ||
    ('p' == c && "arsed:".toList.isPrefixOf line)) := rfl
  rw [hl, ht, hp]
  rfl

theorem isListing_intText (n : Int) : isListing (Decimal.intText n).toList = false := by
  cases n with
  | negSucc k =>
    rw [Decimal.intText, String.toList_append]
    rfl
  | ofNat k =>
    rw [Decimal.intText, Decimal.natText, String.toList_ofList, Decimal.digits]
    obtain ⟨c, ds, hds⟩ := List.exists_cons_of_ne_nil (Decimal.digitsOnto_ne_nil k [])
    have hc : c.isDigit = true ∨ c ∈ [] :=
      Decimal.isDigit_of_mem_digitsOnto (hds ▸ List.mem_cons_self)
    rw [hds]
    exact isListing_cons_of_isDigit (hc.resolve_right List.not_mem_nil) ds

def Emission.isValue : Emission → Bool
  | value _ => true
  | _ => false

theorem isListing_text {x : Emission} (h : x.isOutput = true) :
    isListing x.text.toList = !x.isValue := by
  cases x with
  | value n => exact isListing_intText _
  | tree e =>
    rw [text_tree, String.toList_append]
    rfl
  | tokens ts =>
    rw [text_tokens, String.toList_append]
    rfl
  | lineError | log | report => cases h

theorem toList_textOf (written : List Emission) :
    (textOf written).toList = ['\n'].intercalate (written.map (·.text.toList) ++ [[]]) := by
  induction written with
  | nil => rfl
  | cons x written ih =>
    rw [textOf_cons, String.toList_append, String.toList_append, ih, List.map_cons,
      List.cons_append, List.intercalate_cons_of_ne_nil (by simp), List.append_assoc]
    rfl

theorem withoutListings_textOf (h : ∀ x ∈ written, x.isOutput = true) :
    withoutListings (textOf written) = textOf (written.filter (·.isValue)) := by
  have hlines : ∀ line ∈ written.map (·.text.toList) ++ [[]], '\n' ∉ line := by
    intro line hline
    rcases List.mem_append.mp hline with hline | hline
    · obtain ⟨x, hx, rfl⟩ := List.mem_map.mp hline
      exact newline_notMem_text (h x hx)
    · rw [List.mem_singleton.mp hline]
      exact List.not_mem_nil
  have hkept : (written.map (fun x : Emission => x.text.toList) ++ [[]]).filter (!isListing ·) =
      (written.filter (·.isValue)).map (fun x : Emission => x.text.toList) ++ [[]] := by
    rw [List.filter_append, List.filter_map]
    congr 2
    refine List.filter_congr fun x hx => ?_
    rw [Function.comp_apply, isListing_text (h x hx), Bool.not_not]
  rw [withoutListings, toList_textOf, List.splitOn_intercalate _ hlines
    (List.append_ne_nil_of_right_ne_nil _ (List.cons_ne_nil _ _)), hkept, ← toList_textOf,
    String.ofList_toList]

theorem filter_isValue_listing (o : Options) (text : String) :
    (listing o text).filter (·.isValue) = listing (plain o) text := by
  have hp : listing (plain o) text = (run o.settings text).toOption.toList.map .value := rfl
  rw [hp, listing, List.filter_append, List.filter_append]
  cases o.tokens <;> cases o.tree <;> cases (tokens text).toOption <;>
    cases (parse o.settings text).toOption <;> cases (run o.settings text).toOption <;> rfl

theorem succeeded_evaluate (o : Options) (input : ByteArray) : (evaluate o input).succeeded =
    match o.expression with
    | some expression => (run o.settings expression).isOk
    | none => (closing o.settings (inputLines input)).isNone := by
  unfold evaluate
  cases o.expression with
  | some expression => exact succeeded_evaluateArgument o expression
  | none => exact congrArg Outcome.succeeded (evaluateLines_eq o (inputLines input))

theorem failure?_plain_cases (o : Options) (text : String) :
    failure? o text = failure? (plain o) text ∨
      o.tokens = true ∧ ∃ error, tokens text = .error error ∧
        failure? o text = some (.scan error) := by
  cases h : o.tokens with
  | false =>
    left
    have hplain : run (plain o).settings text = run o.settings text := rfl
    cases hr : run o.settings text with
    | ok v =>
      rw [failure?_eq_none_iff.mpr ⟨v, hr⟩, failure?_eq_none_iff.mpr ⟨v, hplain.trans hr⟩]
    | error f =>
      rw [failure?_of_readable (.inl h) hr, failure?_of_readable (.inl rfl) (hplain.trans hr)]
  | true =>
    cases ht : tokens text with
    | ok ts => exact .inl (failure?_eq_of_readable ht)
    | error error => exact .inr ⟨rfl, error, rfl, failure?_of_unreadable h ht⟩

theorem map_fst_map_pair {α β : Type} (a : α) (b? : Option β) :
    (b?.map (a, ·)).map Prod.fst = if b?.isNone then none else some a := by
  cases b? <;> rfl

/-- Listings are only added: a session with them exits as it does without, its output is the same
but for their lines, and the same inputs fail. The error of an input is another one only if its
tokens are listed and cannot be read. -/
theorem listings_only_add (o : Options) (input : ByteArray) (verbosity : Verbosity) :
    ((evaluate o input).completion verbosity).exit =
      ((evaluate (plain o) input).completion verbosity).exit ∧
    withoutListings ((evaluate o input).completion verbosity).output =
      ((evaluate (plain o) input).completion verbosity).output ∧
    (reported o input).map Prod.fst = (reported (plain o) input).map Prod.fst ∧
    ((evaluate o input).completion verbosity).output = textOf (printed o input) ∧
    printed o input = (entries o input).flatMap (fun x => listing o x.2) ∧
    reported o input = (entries o input).filterMap (fun x => (failure? o x.2).map (x.1, ·)) ∧
    ∀ text,
      (failure? o text = none ↔ ∃ v, run o.settings text = .ok v) ∧
      (failure? o text = failure? (plain o) text ∨
        o.tokens = true ∧ ∃ error, tokens text = .error error ∧
          failure? o text = some (.scan error)) := by
  refine ⟨?_, ?_, ?_, output_completion o input verbosity, printed_eq o input,
    reported_eq o input, fun text => ⟨failure?_eq_none_iff, failure?_plain_cases o text⟩⟩
  · rw [Outcome.completion, Outcome.completion, succeeded_evaluate, succeeded_evaluate]
    rfl
  · rw [output_completion, output_completion, withoutListings_textOf, printed_eq, printed_eq,
      List.filter_flatMap]
    · simp only [filter_isValue_listing]
      rfl
    · exact fun x hx => (List.mem_filter.mp hx).2
  · rw [reported_eq, reported_eq, List.map_filterMap, List.map_filterMap]
    refine List.filterMap_congr fun x _ => ?_
    rw [map_fst_map_pair, map_fst_map_pair, isNone_failure?, isNone_failure?]
    rfl

example : failure? ⟨true, false, 1, none⟩ "1+)é" = some (.scan (.unexpected 'é' 3)) ∧
    failure? ⟨false, false, 1, none⟩ "1+)é" =
      some (.run (.parse (.mismatch [.integer, .opening] .closing 2))) := by decide +kernel

end Reckon.Command
