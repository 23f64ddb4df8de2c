import Mathlib.Data.List.DropRight
import Mathlib.Data.List.Induction

/-!
# Dropping elements from both ends of a list

The longest prefix and the longest suffix of elements with a property, by Mathlib's `dropWhile` and
`rdropWhile`. An element without the property stops either (`dropWhile_stop`, `rdropWhile_stop`), so
that it does not matter which end comes first (`rdropWhile_dropWhile`).
-/

namespace Gxh.Trimming

variable {α : Type} {p : α → Bool}

theorem dropWhile_stop {c : α} (hc : p c = false) (x y : List α) :
    (x ++ c :: y).dropWhile p = x.dropWhile p ++ c :: y := by
  induction x with
  | nil =>
      show (c :: y).dropWhile p = c :: y
      rw [List.dropWhile_cons_of_neg (by rw [hc]; exact Bool.false_ne_true)]
  | cons a rest ih =>
      by_cases ha : p a = true
      · rw [List.cons_append, List.dropWhile_cons_of_pos ha, List.dropWhile_cons_of_pos ha, ih]
      · rw [List.cons_append, List.dropWhile_cons_of_neg ha, List.dropWhile_cons_of_neg ha,
          List.cons_append]

theorem rdropWhile_stop {c : α} (hc : p c = false) (x y : List α) :
    (x ++ c :: y).rdropWhile p = x ++ c :: y.rdropWhile p := by
  have hreverse : (x ++ c :: y).reverse = y.reverse ++ c :: x.reverse := by simp
  rw [List.rdropWhile, hreverse, dropWhile_stop hc, List.rdropWhile]
  simp

/-- It does not matter which end is trimmed first. -/
theorem rdropWhile_dropWhile (x : List α) :
    (x.dropWhile p).rdropWhile p = (x.rdropWhile p).dropWhile p := by
  induction x using List.reverseRecOn with
  | nil => rfl
  | append_singleton x c ih =>
      by_cases hc : p c = true
      · rw [List.rdropWhile_concat_pos _ _ _ hc, ← ih]
        by_cases hall : ∀ a ∈ x, p a = true
        · have hconcat : ∀ a ∈ x ++ [c], p a = true := by
            intro a ha
            rcases List.mem_append.mp ha with hx | hx
            · exact hall a hx
            · rw [List.mem_singleton.mp hx]
              exact hc
          rw [List.dropWhile_eq_nil_iff.mpr hconcat, List.dropWhile_eq_nil_iff.mpr hall]
        · rw [List.dropWhile_append, if_neg (by simpa using hall),
            List.rdropWhile_concat_pos _ _ _ hc]
      · rw [Bool.not_eq_true] at hc
        rw [rdropWhile_stop hc, dropWhile_stop hc, rdropWhile_stop hc]
        exact (dropWhile_stop hc x []).symm

end Gxh.Trimming
