import Mathlib.Algebra.BigOperators.Group.Finset.Piecewise
import Mathlib.Algebra.Order.BigOperators.Group.Finset
import Mathlib.Data.Fintype.BigOperators
import Mathlib.Tactic.Abel

/-!
# Totals over a finite family of components

A counter that several components share is the sum of what each contributes. Replacing
one component changes the sum by the difference of two terms.
-/

namespace Gxh

variable {ι α : Type} [Fintype ι]

/-- Replacing component `i` by `x` takes its old share out of a total and puts the new one
in. -/
theorem sum_update {M : Type} [AddCommMonoid M] [DecidableEq ι] (share : α → M) (f : ι → α)
    (i : ι) (x : α) :
    (∑ j, share (Function.update f i x j)) + share (f i) = (∑ j, share (f j)) + share x := by
  have hpoint : (fun j => share (Function.update f i x j)) =
      Function.update (fun j => share (f j)) i (share x) := by
    funext j
    by_cases h : j = i
    · subst h
      simp
    · simp [h]
  rw [hpoint, Finset.sum_update_of_mem (Finset.mem_univ i), Finset.sdiff_singleton_eq_erase,
    ← Finset.add_sum_erase Finset.univ (fun j => share (f j)) (Finset.mem_univ i)]
  abel

/-- The sum of the weights of all components. -/
def tally (weight : α → Nat) (f : ι → α) : Nat := ∑ i, weight (f i)

theorem tally_update [DecidableEq ι] (weight : α → Nat) (f : ι → α) (i : ι) (x : α) :
    tally weight (Function.update f i x) + weight (f i) = tally weight f + weight x :=
  sum_update weight f i x

theorem le_tally (weight : α → Nat) (f : ι → α) (i : ι) : weight (f i) ≤ tally weight f :=
  Finset.single_le_sum (f := fun j => weight (f j)) (fun _ _ => Nat.zero_le _) (Finset.mem_univ i)

theorem tally_eq_zero {weight : α → Nat} {f : ι → α} (h : tally weight f = 0) (i : ι) :
    weight (f i) = 0 := by
  have := le_tally weight f i
  omega

end Gxh
