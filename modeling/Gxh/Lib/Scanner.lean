import Mathlib.Data.List.TakeWhile

/-!
# Scanners

A deterministic automaton that goes through a text one letter at a time. A state keeps a stretch of
the text as long as it goes back to itself (`Stays`), so that every text splits into such stretches
(`exists_stretch`); a state that is never left (`Trap`) is never left by a whole text either.
-/

namespace Gxh.Scanner

variable {σ α : Type*} {step : σ → α → σ} {s d : σ}

/-- All the letters keep the state. -/
def Stays (step : σ → α → σ) (s : σ) (l : List α) : Prop := ∀ c ∈ l, step s c = s

/-- No letter leaves the state. -/
def Trap (step : σ → α → σ) (d : σ) : Prop := ∀ c, step d c = d

theorem Stays.foldl {l : List α} (h : Stays step s l) : l.foldl step s = s := by
  induction l with
  | nil => rfl
  | cons c rest ih =>
      rw [List.foldl_cons, h c List.mem_cons_self]
      exact ih fun x hx => h x (List.mem_cons_of_mem _ hx)

theorem Trap.foldl (h : Trap step d) (l : List α) : l.foldl step d = d :=
  Stays.foldl fun c _ => h c

/-- A text that does not end in the trap never was in it. -/
theorem Trap.not_entered (h : Trap step d) {x y : List α} (hxy : (x ++ y).foldl step s ≠ d) :
    x.foldl step s ≠ d := by
  intro hx
  rw [List.foldl_append, hx] at hxy
  exact hxy (h.foldl y)

/-- A text up to the first letter of the kind `q`, when every letter is of the kind `p` or `q`. -/
theorem exists_split {p q : α → Prop} (h : ∀ c, p c ∨ q c) (l : List α) :
    ∃ stretch rest, l = stretch ++ rest ∧ (∀ c ∈ stretch, p c) ∧
      (rest = [] ∨ ∃ c tail, rest = c :: tail ∧ q c) := by
  induction l with
  | nil => exact ⟨[], [], rfl, by simp, .inl rfl⟩
  | cons c l ih =>
      rcases h c with hp | hq
      · obtain ⟨stretch, rest, hl, hall, hrest⟩ := ih
        refine ⟨c :: stretch, rest, by rw [hl, List.cons_append], ?_, hrest⟩
        exact List.forall_mem_cons.mpr ⟨hp, hall⟩
      · exact ⟨[], c :: l, rfl, by simp, .inr ⟨c, l, rfl, hq⟩⟩

/-- A stretch of a text that keeps the state, and what follows: nothing, or a letter that does
what the state does with the others. -/
theorem exists_stretch {p q : α → Prop} (hstep : ∀ c, p c ∧ step s c = s ∨ q c) (l : List α) :
    ∃ stretch rest, l = stretch ++ rest ∧ Stays step s stretch ∧ (∀ c ∈ stretch, p c) ∧
      (rest = [] ∨ ∃ c tail, rest = c :: tail ∧ q c) := by
  obtain ⟨stretch, rest, hl, hall, hrest⟩ := exists_split hstep l
  exact ⟨stretch, rest, hl, fun c hc => (hall c hc).2, fun c hc => (hall c hc).1, hrest⟩

/-! Which branch a transition takes that is given by tests. -/

theorem ite_cases (p : Prop) [Decidable p] (x y : σ) :
    p ∧ (if p then x else y) = x ∨ (if p then x else y) = y := by
  by_cases hp : p
  · exact .inl ⟨hp, if_pos hp⟩
  · exact .inr (if_neg hp)

theorem ite_cases₂ (p q : Prop) [Decidable p] [Decidable q] (x y z : σ) :
    p ∧ (if p then x else if q then y else z) = x ∨
    q ∧ (if p then x else if q then y else z) = y ∨
    (if p then x else if q then y else z) = z := by
  by_cases hp : p
  · exact .inl ⟨hp, if_pos hp⟩
  · rw [if_neg hp]
    exact .inr (ite_cases q y z)

theorem ite_cases₃ (p q r : Prop) [Decidable p] [Decidable q] [Decidable r]
    (x y z w : σ) :
    p ∧ (if p then x else if q then y else if r then z else w) = x ∨
    q ∧ (if p then x else if q then y else if r then z else w) = y ∨
    r ∧ (if p then x else if q then y else if r then z else w) = z ∨
    (if p then x else if q then y else if r then z else w) = w := by
  by_cases hp : p
  · exact .inl ⟨hp, if_pos hp⟩
  · rw [if_neg hp]
    exact .inr (ite_cases₂ q r y z w)

end Gxh.Scanner
