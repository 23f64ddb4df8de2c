import Mathlib.Data.List.Basic
import Mathlib.Data.List.Pairwise

/-!
# Ordered sets as strictly sorted lists

A `std::set` with comparator `lt` is the list of its elements in iteration order.
`insert`, `find` and `lowerBound` compare the way the tree does: an element is
equivalent to `x` when neither is less than the other.

The comparator is a parameter, not an instance: it may read mutable state outside
the set, and then changes when that state does. `Sorted.congr` transports sortedness
between two comparators that agree on the elements.
-/

namespace Gxh.OrdSet

variable {α : Type}

/-- What a comparator must satisfy. -/
structure StrictOrder (lt : α → α → Bool) : Prop where
  irrefl : ∀ a, lt a a = false
  trans : ∀ a b c, lt a b = true → lt b c = true → lt a c = true
  total : ∀ a b, lt a b = false → lt b a = false → a = b

/-- Strictly increasing in iteration order. -/
def Sorted (lt : α → α → Bool) (l : List α) : Prop := l.Pairwise fun a b => lt a b = true

/-- `set::insert`: an equivalent element already there is kept. -/
def insert (lt : α → α → Bool) (x : α) : List α → List α
  | [] => [x]
  | y :: ys =>
      if lt y x then y :: insert lt x ys
      else if lt x y then x :: y :: ys
      else y :: ys

/-- `set::find`. -/
def find (lt : α → α → Bool) (x : α) : List α → Option α
  | [] => none
  | y :: ys =>
      if lt y x then find lt x ys
      else if lt x y then none
      else some y

/-- The elements before the iterator `set::lower_bound` returns. -/
def below (lt : α → α → Bool) (x : α) (l : List α) : List α := l.takeWhile (lt · x)

variable {lt lt' : α → α → Bool} {l : List α} {x y : α}

theorem mem_insert (h : StrictOrder lt) : y ∈ insert lt x l ↔ y = x ∨ y ∈ l := by
  induction l with
  | nil => simp [insert]
  | cons z zs ih =>
      simp only [insert]
      split
      · simp only [List.mem_cons, ih]
        tauto
      · rename_i hzx
        split
        · simp
        · rename_i hxz
          -- neither is less: the element is there already
          have hz : z = x := h.total z x (by simpa using hzx) (by simpa using hxz)
          subst hz
          simp only [List.mem_cons]
          tauto

/-- A new element is added, and none is dropped for it. -/
theorem insert_perm (h : StrictOrder lt) (hx : x ∉ l) : (insert lt x l).Perm (x :: l) := by
  induction l with
  | nil => exact .refl _
  | cons z zs ih =>
      have hxz : x ≠ z := fun he => hx (he ▸ List.mem_cons_self)
      simp only [insert]
      split
      · exact ((ih fun hmem => hx (List.mem_cons_of_mem _ hmem)).cons z).trans (.swap x z zs)
      · rename_i hzx
        split
        · exact .refl _
        · rename_i hxz'
          exact absurd (h.total x z (by simpa using hxz') (by simpa using hzx)) hxz

theorem Sorted.insert (h : StrictOrder lt) (hs : Sorted lt l) :
    Sorted lt (insert lt x l) := by
  induction l with
  | nil => exact List.pairwise_singleton _ _
  | cons z zs ih =>
      obtain ⟨hz, hzs⟩ := List.pairwise_cons.mp hs
      simp only [OrdSet.insert]
      split
      · rename_i hzx
        refine List.pairwise_cons.mpr ⟨?_, ih hzs⟩
        intro w hw
        rcases (mem_insert h).mp hw with rfl | hw
        · exact hzx
        · exact hz w hw
      · split
        · rename_i hxz
          refine List.pairwise_cons.mpr ⟨?_, hs⟩
          intro w hw
          rcases List.mem_cons.mp hw with rfl | hw
          · exact hxz
          · exact h.trans _ _ _ hxz (hz w hw)
        · exact hs

/-- In a sorted set `find` finds exactly the members. -/
theorem find_eq_some_iff (h : StrictOrder lt) (hs : Sorted lt l) :
    find lt x l = some y ↔ y = x ∧ x ∈ l := by
  induction l with
  | nil => simp [find]
  | cons z zs ih =>
      obtain ⟨hz, hzs⟩ := List.pairwise_cons.mp hs
      simp only [find]
      split
      · rename_i hzx
        have hne : x ≠ z := by
          rintro rfl
          rw [h.irrefl] at hzx
          cases hzx
        simp [ih hzs, hne]
      · rename_i hzx
        split
        · rename_i hxz
          have hnot : x ∉ z :: zs := by
            intro hx
            rcases List.mem_cons.mp hx with rfl | hx
            · rw [h.irrefl] at hxz
              cases hxz
            · have := h.trans _ _ _ hxz (hz x hx)
              rw [h.irrefl] at this
              cases this
          simp [hnot]
        · rename_i hxz
          have hzx' : z = x := h.total z x (by simpa using hzx) (by simpa using hxz)
          subst hzx'
          simp [eq_comm]

theorem Sorted.sublist {l' : List α} (hs : Sorted lt l) (hsub : l'.Sublist l) : Sorted lt l' :=
  List.Pairwise.sublist hsub hs

/-- Sortedness only depends on how the comparator orders the elements. -/
theorem Sorted.congr (hs : Sorted lt l)
    (h : ∀ a ∈ l, ∀ b ∈ l, lt a b = true → lt' a b = true) : Sorted lt' l :=
  List.Pairwise.imp_of_mem (fun ha hb hab => h _ ha _ hb hab) hs

theorem Sorted.nodup (h : StrictOrder lt) (hs : Sorted lt l) : l.Nodup := by
  refine List.Pairwise.imp ?_ hs
  rintro a b hab rfl
  rw [h.irrefl] at hab
  cases hab

/-- The first element is below every other. -/
theorem Sorted.head_lt (hs : Sorted lt (x :: l)) (hy : y ∈ l) : lt x y = true :=
  (List.pairwise_cons.mp hs).1 y hy

/-- A test that holds of everything below an element it holds of: in a sorted set such
elements come first. -/
theorem Sorted.mem_takeWhile {p : α → Bool} (hs : Sorted lt l)
    (hp : ∀ a ∈ l, ∀ b ∈ l, lt a b = true → p b = true → p a = true) (hx : x ∈ l)
    (hpx : p x = true) : x ∈ l.takeWhile p := by
  induction l with
  | nil => cases hx
  | cons z zs ih =>
      obtain ⟨hz, hzs⟩ := List.pairwise_cons.mp hs
      have hp' : ∀ a ∈ zs, ∀ b ∈ zs, lt a b = true → p b = true → p a = true :=
        fun a ha b hb => hp a (List.mem_cons_of_mem _ ha) b (List.mem_cons_of_mem _ hb)
      rcases List.mem_cons.mp hx with rfl | hmem
      · rw [List.takeWhile_cons_of_pos hpx]
        exact List.mem_cons_self
      · have hpz : p z = true := hp z List.mem_cons_self x hx (hz x hmem) hpx
        rw [List.takeWhile_cons_of_pos hpz]
        exact List.mem_cons_of_mem _ (ih hzs hp' hmem)

/-- Behind them it holds of none. -/
theorem Sorted.of_mem_dropWhile {p : α → Bool} (h : StrictOrder lt) (hs : Sorted lt l)
    (hp : ∀ a ∈ l, ∀ b ∈ l, lt a b = true → p b = true → p a = true)
    (hx : x ∈ l.dropWhile p) : p x = false := by
  by_contra hpx
  have hmem : x ∈ l := (List.dropWhile_sublist p).subset hx
  have htake := hs.mem_takeWhile hp hmem (Bool.not_eq_false _ ▸ hpx)
  have hnd := hs.nodup h
  rw [← List.takeWhile_append_dropWhile (p := p) (l := l), List.nodup_append] at hnd
  exact hnd.2.2 x htake x hx rfl

end Gxh.OrdSet
