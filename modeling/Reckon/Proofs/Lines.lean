import Mathlib.Data.List.Basic
import Reckon.Command.Lines

/-! # Lines of a text

The lines of a text do not depend on its encoding: a newline and a return are one byte each, and
those bytes occur in no other character.
-/

namespace Reckon.Command

section
variable {α : Type*} {newline ret : α}

/-- A text and its lines. A line ends at a newline, and neither that nor one return in front of it
is part of the line. The last line may do without a newline, and then keeps its return. -/
inductive Lines (newline ret : α) : List α → List (List α) → Prop where

  | none : Lines newline ret [] []

  | last {line : List α} : line ≠ [] → newline ∉ line → Lines newline ret line [line]

  | plain {line text : List α} {lines : List (List α)} : newline ∉ line →
      line.getLast? ≠ some ret → Lines newline ret text lines →
      Lines newline ret (line ++ newline :: text) (line :: lines)

  | returned {line text : List α} {lines : List (List α)} : newline ∉ line →
      Lines newline ret text lines →
      Lines newline ret (line ++ ret :: newline :: text) (line :: lines)

namespace Lines

variable {text more : List α} {lines others : List (List α)}

theorem exists_lines [DecidableEq α] (newline ret : α) (text : List α) :
    ∃ lines, Lines newline ret text lines := by
  induction hn : text.length using Nat.strongRecOn generalizing text with
  | _ n ih =>
    by_cases hmem : newline ∈ text
    · obtain ⟨line, rest, rfl, hline⟩ := List.eq_append_cons_of_mem hmem
      obtain ⟨lines, hlines⟩ := ih rest.length (by simp at hn; omega) rest rfl
      by_cases hret : line.getLast? = some ret
      · obtain ⟨front, rfl⟩ := List.getLast?_eq_some_iff.mp hret
        refine ⟨front :: lines, ?_⟩
        rw [List.append_assoc]
        exact .returned (fun h => hline (List.mem_append_left _ h)) hlines
      · exact ⟨line :: lines, .plain hline hret hlines⟩
    · rcases text with - | ⟨a, text⟩
      · exact ⟨[], .none⟩
      · exact ⟨_, .last (List.cons_ne_nil a text) hmem⟩

theorem getLast?_of_append_cons {line : List α}
    (h : ∀ a ∈ (line ++ newline :: text).getLast?, a = newline) :
    ∀ a ∈ text.getLast?, a = newline := by
  intro a ha
  apply h
  rw [Option.mem_def] at ha ⊢
  rw [List.getLast?_append, List.getLast?_cons, ha]
  rfl

/-- Lines behind a text that ends in a newline do not touch its lines. -/
theorem append (h : Lines newline ret text lines) (hends : ∀ a ∈ text.getLast?, a = newline)
    (h' : Lines newline ret more others) : Lines newline ret (text ++ more) (lines ++ others) := by
  induction h with
  | none => exact h'
  | last hne hline =>
    have hlast := hends _ (List.getLast?_eq_some_getLast hne)
    exact absurd (hlast ▸ List.getLast_mem hne) hline
  | @plain line text lines hline hret _ ih =>
    rw [List.append_assoc, List.cons_append]
    exact .plain hline hret (ih (getLast?_of_append_cons hends))
  | @returned line text lines hline _ ih =>
    rw [List.append_assoc, List.cons_append, List.cons_append]
    exact .returned hline (ih (getLast?_of_append_cons (List.append_cons line ret _ ▸ hends)))

end Lines

end

theorem splitFrom_append {line : List UInt8} (h : 10 ∉ line) (begun bytes : List UInt8) :
    splitFrom begun (line ++ bytes) = splitFrom (line.reverse ++ begun) bytes := by
  induction line generalizing begun with
  | nil => rfl
  | cons byte line ih =>
    have hne : byte ≠ 10 := fun hb => h (hb ▸ List.mem_cons_self)
    rw [List.cons_append, splitFrom.eq_3 _ _ _ hne, ih fun hm => h (List.mem_cons_of_mem _ hm),
      List.reverse_cons, List.append_assoc, List.singleton_append]

theorem chomp_reverse {line : List UInt8} (h : line.getLast? ≠ some 13) :
    chomp line.reverse = line := by
  unfold chomp
  split
  · rename_i front hr
    rw [List.getLast?_eq_head?_reverse, hr] at h
    exact absurd rfl h
  · exact List.reverse_reverse line

theorem splitLines_eq {bytes : List UInt8} {lines : List (List UInt8)}
    (h : Lines 10 13 bytes lines) : splitLines bytes = lines := by
  unfold splitLines
  induction h with
  | none => rfl
  | @last line hne hline =>
    rw [← List.append_nil line, splitFrom_append hline, splitFrom, if_neg] <;> simp [hne]
  | @plain line text lines hline hret _ ih =>
    rw [splitFrom_append hline, splitFrom, ih, List.append_nil, chomp_reverse hret]
  | @returned line text lines hline _ ih =>
    rw [← List.singleton_append, ← List.append_assoc, splitFrom_append, splitFrom, ih]
    · simp [chomp]
    · simpa using hline

theorem inputLines_of_lines {input : ByteArray} {lines : List (List UInt8)}
    {texts : List (Option String)} (h : Lines 10 13 input.data.toList lines)
    (hd : lines.map decode = texts) : inputLines input = texts := by
  rw [inputLines, splitLines_eq h, hd]

def utf8 (text : List Char) : List UInt8 := text.flatMap String.utf8EncodeChar

theorem data_toUTF8 (text : String) : text.toUTF8.data.toList = utf8 text.toList := by
  rw [String.toUTF8_eq_toByteArray, ← String.utf8Encode_toList, List.utf8Encode]
  exact List.toList_data_toByteArray

theorem decode_utf8 (text : List Char) : decode (utf8 text) = some (String.ofList text) := by
  have hb : (⟨(utf8 text).toArray⟩ : ByteArray) = (String.ofList text).toByteArray := by
    rw [String.toByteArray_ofList, List.utf8Encode]
    exact ByteArray.ext (by rw [List.data_toByteArray, utf8])
  unfold decode String.fromUTF8?
  rw [hb, dif_pos (String.ofList text).isValidUTF8]
  rfl

theorem toNat_eq_of_mem_utf8EncodeChar {c : Char} {byte : UInt8}
    (h : byte ∈ String.utf8EncodeChar c) (hb : byte.toNat < 128) : c.toNat = byte.toNat := by
  have hc : c.toNat = c.val.toNat := rfl
  unfold String.utf8EncodeChar at h
  simp only at h
  split at h
  · rw [List.mem_singleton.mp h, UInt8.toNat_ofNat']
    omega
  -- every byte of a longer encoding is at least 128
  · exfalso
    split at h
    · simp only [List.mem_cons, List.not_mem_nil, or_false] at h
      rcases h with rfl | rfl <;> rw [UInt8.toNat_ofNat'] at hb <;> omega
    · split at h
      · simp only [List.mem_cons, List.not_mem_nil, or_false] at h
        rcases h with rfl | rfl | rfl <;> rw [UInt8.toNat_ofNat'] at hb <;> omega
      · simp only [List.mem_cons, List.not_mem_nil, or_false] at h
        rcases h with rfl | rfl | rfl | rfl <;> rw [UInt8.toNat_ofNat'] at hb <;> omega

theorem newline_mem_of_mem_utf8 {text : List Char} (h : 10 ∈ utf8 text) : '\n' ∈ text := by
  obtain ⟨c, hc, hb⟩ := List.mem_flatMap.mp h
  obtain rfl : c = '\n' := Char.toNat_inj.mp (toNat_eq_of_mem_utf8EncodeChar hb (by decide))
  exact hc

theorem getLast?_of_getLast?_utf8 {text : List Char} (h : (utf8 text).getLast? = some 13) :
    text.getLast? = some '\r' := by
  rcases List.eq_nil_or_concat text with rfl | ⟨front, c, rfl⟩
  · cases h
  · rw [List.concat_eq_append, utf8, List.flatMap_append, List.flatMap_singleton,
      List.getLast?_append_of_ne_nil _ String.utf8EncodeChar_ne_nil] at h
    have hb := List.mem_of_getLast? h
    obtain rfl : c = '\r' := Char.toNat_inj.mp (toNat_eq_of_mem_utf8EncodeChar hb (by decide))
    rw [List.concat_eq_append, List.getLast?_concat]

theorem utf8_ne_nil {text : List Char} (h : text ≠ []) : utf8 text ≠ [] := by
  obtain ⟨c, text, rfl⟩ := List.exists_cons_of_ne_nil h
  rw [utf8, List.flatMap_cons]
  exact List.append_ne_nil_of_left_ne_nil String.utf8EncodeChar_ne_nil _

theorem lines_utf8 {text : List Char} {lines : List (List Char)} (h : Lines '\n' '\r' text lines) :
    Lines 10 13 (utf8 text) (lines.map utf8) := by
  induction h with
  | none => exact .none
  | last hne hline => exact .last (utf8_ne_nil hne) fun hm => hline (newline_mem_of_mem_utf8 hm)
  | plain hline hret _ ih =>
    rw [utf8, List.flatMap_append]
    exact .plain (fun hm => hline (newline_mem_of_mem_utf8 hm))
      (fun hl => hret (getLast?_of_getLast?_utf8 hl)) ih
  | returned hline _ ih =>
    rw [utf8, List.flatMap_append]
    exact .returned (fun hm => hline (newline_mem_of_mem_utf8 hm)) ih

/-- The lines of an encoded text are those of the text. -/
theorem inputLines_toUTF8 {text : String} {lines : List (List Char)}
    (h : Lines '\n' '\r' text.toList lines) :
    inputLines text.toUTF8 = (lines.map String.ofList).map some := by
  rw [inputLines, data_toUTF8, splitLines_eq (lines_utf8 h), List.map_map, List.map_map]
  exact List.map_congr_left fun line _ => decode_utf8 line

end Reckon.Command
