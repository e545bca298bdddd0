import Reckon.Proofs.Insertion

/-! # The tokens of two texts together

The tokens of two texts are those of the first and then those of the second, moved by the size of
the first, unless a row of digits runs across the seam.
-/

namespace Reckon

theorem mapM_id_join (as bs : List Reading) :
    (join as bs).mapM id = as.mapM id >>= fun ts => (bs.mapM id).map (ts ++ ·) := by
  fun_induction join as bs with
  | case1 bs => cases bs.mapM id <;> rfl
  | case2 t as bs ih =>
    rw [List.mapM_cons, List.mapM_cons, ih]
    cases as.mapM id <;> cases bs.mapM id <;> rfl
  | case3 => rfl

/-- The tokens of two texts whose seam cuts no row of digits. What cannot be read in the first text
is found first; otherwise the second is read as by itself, at offsets behind the first. -/
theorem tokens_append {a b : String} (h : Apart a.toList b.toList) :
    tokens (a ++ b) = tokens a >>= fun ts =>
      ((tokens b).map (ts ++ List.map (Spanned.shift a.utf8ByteSize) ·)).mapError
        (ScanError.shift a.utf8ByteSize) := by
  rw [tokens_eq, String.toList_append, readings_append h, readings_shift, String.utf8Len_toList,
    mapM_id_join, mapM_id_map_adapt, ← tokens_eq, ← tokens_eq]
  cases tokens a with
  | error x => rfl
  | ok ts => cases tokens b <;> rfl

/-- The tokens of two texts are put together where no row of digits runs across the seam. -/
theorem tokens_homomorphic {a b : String} (h : Apart a.toList b.toList) :
    (∀ x, tokens a = .error x → tokens (a ++ b) = .error x) ∧
    (∀ ta tb, tokens a = .ok ta → tokens b = .ok tb →
      tokens (a ++ b) = .ok (ta ++ tb.map (Spanned.shift a.utf8ByteSize))) ∧
    ∀ ta y, tokens a = .ok ta → tokens b = .error y →
      tokens (a ++ b) = .error (y.shift a.utf8ByteSize) := by
  refine ⟨fun x ha => ?_, fun ta tb ha hb => ?_, fun ta y ha hb => ?_⟩
  · rw [tokens_append h, ha]
    rfl
  · rw [tokens_append h, ha, hb]
    rfl
  · rw [tokens_append h, ha, hb]
    rfl

theorem tokens_homomorphic_around_blanks :
    (Apart "1 ".toList "\t2".toList ∧
      tokens ("1 " ++ "\t2") = .ok [⟨0, .integer 1, 1⟩, ⟨3, .integer 2, 4⟩]) ∧
    (Apart "1+".toList "é2".toList ∧
      tokens ("1+" ++ "é2") = .error (.unexpected 'é' 2)) ∧
    Apart "1é".toList "+2".toList ∧ tokens ("1é" ++ "+2") = .error (.unexpected 'é' 1) := by
  have hspace : Apart ['1', ' '] ['\t', '2'] := fun _ => by simp
  have hbehind : Apart ['1', '+'] ['é', '2'] := fun _ => by simp
  have hbefore : Apart ['1', 'é'] ['+', '2'] := fun _ => by simp
  refine ⟨⟨hspace, ?_⟩, ⟨hbehind, ?_⟩, hbefore, ?_⟩
  · exact (@tokens_homomorphic "1 " "\t2" hspace).2.1 [⟨0, .integer 1, 1⟩] [⟨1, .integer 2, 2⟩]
      (by decide +kernel) (by decide +kernel)
  · exact (@tokens_homomorphic "1+" "é2" hbehind).2.2 [⟨0, .integer 1, 1⟩, ⟨1, .operator .add, 2⟩]
      (.unexpected 'é' 0) (by decide +kernel) (by decide +kernel)
  · exact (@tokens_homomorphic "1é" "+2" hbefore).1 _ (by decide +kernel)

example : tokens ("1" ++ "2") = .ok [⟨0, .integer 12, 2⟩] := by decide +kernel

end Reckon
