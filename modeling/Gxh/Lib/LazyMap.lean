import Gxh.Lib.OrdMap

/-!
# Maps filled on demand

A map that is filled from sources outside it when it is first looked at: `pending` says, of the
sources, which entries would come in now. Sources and entries may change before and after. Two
runs that change both alike, of which one looks and the other does not, are compared by
`Tracks`: `u` has never been looked at, and `t` either neither or was filled at some point.
-/

namespace Gxh

open OrdMap

variable {κ ι ν σ : Type} [LinearOrder ι]

/-- What is in the map, and what the sources would still bring in. -/
structure LazyMap (rank : κ → ι) (σ ν : Type) where
  made : Map rank ν
  pending : σ → List (κ × ν)

namespace LazyMap

variable {rank : κ → ι} {lt : κ → κ → Bool} (h : Ranks lt rank)

/-- What a look would find. -/
def view (lt : κ → κ → Bool) (m : LazyMap rank σ ν) (src : σ) (key : κ) : Option ν :=
  (m.made.find lt key).or (first lt key (m.pending src))

/-- Filled, once and for all. -/
def force (m : LazyMap rank σ ν) (src : σ) : LazyMap rank σ ν :=
  ⟨m.made.insertAll h (m.pending src), fun _ => []⟩

def set (m : LazyMap rank σ ν) (key : κ) (val : ν) : LazyMap rank σ ν :=
  { m with made := m.made.set h key val }

def erase (lt : κ → κ → Bool) (m : LazyMap rank σ ν) (key : κ) : LazyMap rank σ ν :=
  { m with made := m.made.erase lt key }

/-- What can be done to the map. -/
inductive Act (κ ν : Type)
  | none
  | look
  | set (key : κ) (val : ν)
  | erase (key : κ)

def Act.looks : Act κ ν → Bool
  | .look => true
  | _ => false

def act (m : LazyMap rank σ ν) (src : σ) : Act κ ν → LazyMap rank σ ν
  | .none => m
  | .look => m.force h src
  | .set key val => m.set h key val
  | .erase key => m.erase lt key

theorem find_force (m : LazyMap rank σ ν) (src : σ) (key : κ) :
    (force h m src).made.find lt key = m.view lt src key := Map.find_insertAll h m.made _ key

theorem view_set (m : LazyMap rank σ ν) (src : σ) (key : κ) (val : ν) (k : κ) :
    (set h m key val).view lt src k = if rank key = rank k then some val else m.view lt src k := by
  show ((m.made.set h key val).find lt k).or _ = _
  rw [Map.find_set h]
  by_cases heq : rank key = rank k
  · rw [if_pos heq, if_pos heq, Option.some_or]
  · rw [if_neg heq, if_neg heq]
    rfl

include h in
/-- After an `erase` the sources still have their say. -/
theorem view_erase (m : LazyMap rank σ ν) (src : σ) (key k : κ) :
    (m.erase lt key).view lt src k =
      if rank key = rank k then first lt k (m.pending src) else m.view lt src k := by
  show ((m.made.erase lt key).find lt k).or _ = _
  rw [Map.find_erase h]
  by_cases heq : rank key = rank k
  · rw [if_pos heq, if_pos heq, Option.none_or]
    rfl
  · rw [if_neg heq, if_neg heq]
    rfl

/-- No source has an effect any more. -/
def Closed (m : LazyMap rank σ ν) : Prop := ∀ src, m.pending src = []

theorem Closed.view {m : LazyMap rank σ ν} (hm : m.Closed) (src : σ) (key : κ) :
    m.view lt src key = m.made.find lt key := by
  show (m.made.find lt key).or (first lt key (m.pending src)) = _
  rw [hm src]
  exact Option.or_none

theorem Closed.act {m : LazyMap rank σ ν} (hm : m.Closed) (src : σ) (a : Act κ ν) :
    (m.act h src a).Closed := by
  cases a with
  | none => exact hm
  | look => exact fun _ => rfl
  | set key val => exact hm
  | erase key => exact hm

theorem closed_of_looks (m : LazyMap rank σ ν) (src : σ) {a : Act κ ν} (ha : a.looks = true) :
    (m.act h src a).Closed := by
  cases a with
  | look => exact fun _ => rfl
  | none => cases ha
  | set key val => cases ha
  | erase key => cases ha

/-- `t` is `u`, or has been filled and shows what `u` would. -/
def Tracks (lt : κ → κ → Bool) (src : σ) (looked : Prop) (u t : LazyMap rank σ ν) : Prop :=
  t = u ∨ looked ∧ t.Closed ∧ ∀ key, t.made.find lt key = u.view lt src key

variable {src : σ} {looked : Prop} {u t : LazyMap rank σ ν}

theorem Tracks.view (ht : Tracks lt src looked u t) (key : κ) :
    t.view lt src key = u.view lt src key := by
  rcases ht with rfl | ⟨-, hclosed, hfind⟩
  · rfl
  · rw [hclosed.view, hfind]

/-- A look that only one of the two runs takes. -/
theorem Tracks.mono (ht : Tracks lt src looked u t) {looked' : Prop} (hl : looked → looked') :
    Tracks lt src looked' u t := ht.imp_right fun h' => ⟨hl h'.1, h'.2⟩

theorem Tracks.force (ht : Tracks lt src looked u t) {looked' : Prop} (hl : looked') :
    Tracks lt src looked' u (t.force h src) := by
  refine .inr ⟨hl, fun _ => rfl, ?_⟩
  intro key
  rw [find_force, ht.view]

theorem Tracks.set (ht : Tracks lt src looked u t) (key : κ) (val : ν) :
    Tracks lt src looked (u.set h key val) (t.set h key val) := by
  rcases ht with rfl | ⟨hl, hclosed, hfind⟩
  · exact .inl rfl
  · refine .inr ⟨hl, hclosed, ?_⟩
    intro k
    rw [view_set, ← hfind k]
    exact Map.find_set h t.made key val k

include h in
/-- What is erased must not be waiting in the sources. -/
theorem Tracks.erase (ht : Tracks lt src looked u t) {key : κ}
    (hkey : first lt key (u.pending src) = none) :
    Tracks lt src looked (u.erase lt key) (t.erase lt key) := by
  rcases ht with rfl | ⟨hl, hclosed, hfind⟩
  · exact .inl rfl
  · refine .inr ⟨hl, hclosed, ?_⟩
    intro k
    rw [view_erase h, ← hfind k]
    refine (Map.find_erase h t.made key k).trans ?_
    by_cases heq : rank key = rank k
    · rw [if_pos heq, if_pos heq, ← first_congr h heq, hkey]
    · rw [if_neg heq, if_neg heq]

/-- Both runs do the same. -/
theorem Tracks.act (ht : Tracks lt src looked u t) {a : Act κ ν} (hlooks : a.looks = false)
    (herase : ∀ key, a = .erase key → first lt key (u.pending src) = none) :
    Tracks lt src looked (u.act h src a) (t.act h src a) := by
  cases a with
  | none => exact ht
  | look => cases hlooks
  | set key val => exact ht.set h key val
  | erase key => exact ht.erase h (herase key rfl)

/-- The sources may change after a look where the change would not show. -/
theorem Tracks.source (ht : Tracks lt src looked u t) {src' : σ}
    (hsrc : looked → ∀ key, u.view lt src' key = u.view lt src key) :
    Tracks lt src' looked u t := by
  rcases ht with rfl | ⟨hl, hclosed, hfind⟩
  · exact .inl rfl
  · exact .inr ⟨hl, hclosed, fun key => (hfind key).trans (hsrc hl key).symm⟩

/-- A change does not show where what is not yet in the map has the same value. -/
theorem view_source {src' : σ} :
    (∀ key, u.view lt src' key = u.view lt src key) ↔
      ∀ key, u.made.find lt key = none →
        first lt key (u.pending src') = first lt key (u.pending src) := by
  constructor
  · intro hview key hnone
    have hkey := hview key
    simp only [LazyMap.view, hnone, Option.none_or] at hkey
    exact hkey
  · intro hfirst key
    simp only [LazyMap.view]
    cases hfind : u.made.find lt key with
    | none => rw [hfirst key hfind]
    | some v => rfl

end LazyMap

end Gxh
