import Mathlib

/-!
# Entries at positions

What the removal or the replacement of one entry does to the members, the counts and the sums of a
list.
-/

namespace Gxh

variable {α : Type} {l : List α} {k : Nat} {x : α}

theorem cons_eraseIdx_perm (h : l[k]? = some x) : (x :: l.eraseIdx k).Perm l := by
  obtain ⟨hk, rfl⟩ := List.getElem?_eq_some_iff.mp h
  exact List.getElem_cons_eraseIdx_perm hk

theorem mem_eraseIdx_of_ne {y : α} (hx : l[k]? = some x) (hy : y ∈ l) (hne : y ≠ x) :
    y ∈ l.eraseIdx k :=
  (List.mem_cons.mp ((cons_eraseIdx_perm hx).mem_iff.mpr hy)).resolve_left hne

theorem countP_eraseIdx (h : l[k]? = some x) (p : α → Bool) :
    l.countP p = (l.eraseIdx k).countP p + if p x = true then 1 else 0 := by
  rw [← (cons_eraseIdx_perm h).countP_eq p, List.countP_cons]

theorem sum_eraseIdx (f : α → Nat) (h : l[k]? = some x) :
    f x + ((l.eraseIdx k).map f).sum = (l.map f).sum := by
  rw [← ((cons_eraseIdx_perm h).map f).sum_eq, List.map_cons, List.sum_cons]

theorem sum_set (f : α → Nat) (h : l[k]? = some x) (y : α) :
    f x + ((l.set k y).map f).sum = f y + (l.map f).sum := by
  have hk := (List.getElem?_eq_some_iff.mp h).1
  rw [((List.set_perm_cons_eraseIdx hk y).map f).sum_eq, List.map_cons, List.sum_cons,
    ← sum_eraseIdx f h]
  omega

theorem countP_set_add {p : α → Bool} (y : α) (h : l[k]? = some x) :
    (l.set k y).countP p + (if p x then 1 else 0) = l.countP p + if p y then 1 else 0 := by
  obtain ⟨hk, hx⟩ := List.getElem?_eq_some_iff.mp h
  have hle := List.boole_getElem_le_countP (p := p) hk
  rw [hx] at hle
  rw [List.countP_set hk, hx]
  omega

end Gxh
