import Gxh.Timer.Basic

/-!
# The timer set stays ordered

`WF` is the representation invariant of `m_timers`: strictly increasing by deadline
and address, with a timer object behind every pointer. Every locked section of the
manager keeps it, because a deadline is only written while its timer is out of the
set. With it the front of the set has the least deadline (`front_le`), which is what
`getNextTimer` reads.
-/

namespace Gxh.TimerManager

variable {κ : Type} {tm : TimerManager κ}

theorem comparator_iff {next : Nat → Nat} {a b : Nat} :
    comparator next a b = true ↔ next a < next b ∨ next a = next b ∧ a < b := by
  unfold comparator
  split_ifs <;> simp <;> omega

theorem comparator_strict (next : Nat → Nat) : OrdSet.StrictOrder (comparator next) := by
  refine ⟨?_, ?_, ?_⟩
  · intro a
    rw [← Bool.not_eq_true, comparator_iff]
    omega
  · intro a b c hab hbc
    rw [comparator_iff] at *
    omega
  · intro a b hab hba
    rw [← Bool.not_eq_true, comparator_iff] at hab hba
    omega

theorem lt_strict (tm : TimerManager κ) : OrdSet.StrictOrder tm.lt := comparator_strict _

/-- The comparator orders by deadline first. -/
theorem next_le_of_lt {a b : Nat} (h : tm.lt a b = true) : tm.next a ≤ tm.next b := by
  rw [lt, comparator_iff] at h
  omega

/-- The representation invariant of the set. -/
structure WF (tm : TimerManager κ) : Prop where
  sorted : OrdSet.Sorted tm.lt tm.timers
  live : ∀ a ∈ tm.timers, ∃ t, tm.heap a = some t

theorem new_wf (now : Nat) : (new now : TimerManager κ).WF :=
  ⟨List.Pairwise.nil, fun a ha => absurd ha (by simp [new])⟩

theorem WF.nodup (h : tm.WF) : tm.timers.Nodup := h.sorted.nodup (lt_strict tm)

/-- `find` succeeds exactly on the members. -/
theorem WF.found_iff (h : tm.WF) {a : Nat} : tm.found a = true ↔ a ∈ tm.timers := by
  rw [found, Option.isSome_iff_exists]
  constructor
  · rintro ⟨b, hb⟩
    exact ((OrdSet.find_eq_some_iff (lt_strict tm) h.sorted).mp hb).2
  · intro ha
    exact ⟨a, (OrdSet.find_eq_some_iff (lt_strict tm) h.sorted).mpr ⟨rfl, ha⟩⟩

/-- The front of the set has the least deadline. -/
theorem WF.front_le (h : tm.WF) {a b : Nat} {rest : List Nat} (hl : tm.timers = a :: rest)
    (hb : b ∈ tm.timers) : tm.next a ≤ tm.next b := by
  rw [hl] at hb
  rcases List.mem_cons.mp hb with rfl | hb
  · exact Nat.le_refl _
  · have hs : OrdSet.Sorted tm.lt (a :: rest) := hl ▸ h.sorted
    exact next_le_of_lt (hs.head_lt hb)

/-! ## The primitive updates -/

@[simp] theorem store_timers (a : Nat) (t : Timer κ) : (tm.store a t).timers = tm.timers := rfl
@[simp] theorem insert_heap (a : Nat) : (tm.insert a).heap = tm.heap := rfl
@[simp] theorem erase_heap (a : Nat) : (tm.erase a).heap = tm.heap := rfl
@[simp] theorem insert_next (a : Nat) : (tm.insert a).next = tm.next := rfl
@[simp] theorem erase_next (a : Nat) : (tm.erase a).next = tm.next := rfl

theorem store_heap (a b : Nat) (t : Timer κ) :
    (tm.store a t).heap b = if b = a then some t else tm.heap b := by
  simp only [store, Function.update_apply]

theorem store_heap_self (a : Nat) (t : Timer κ) : (tm.store a t).heap a = some t := by
  rw [store_heap, if_pos rfl]

theorem store_next (a b : Nat) (t : Timer κ) :
    (tm.store a t).next b = if b = a then t.next else tm.next b := by
  simp only [next, store_heap]
  split <;> rfl

theorem mem_insert {a b : Nat} : b ∈ (tm.insert a).timers ↔ b = a ∨ b ∈ tm.timers :=
  OrdSet.mem_insert (lt_strict tm)

theorem WF.mem_erase (h : tm.WF) {a b : Nat} :
    b ∈ (tm.erase a).timers ↔ b ≠ a ∧ b ∈ tm.timers := h.nodup.mem_erase_iff

/-- Two comparators agree where the deadlines do. -/
theorem lt_congr {tm' : TimerManager κ} {a b : Nat} (ha : tm'.next a = tm.next a)
    (hb : tm'.next b = tm.next b) : tm'.lt a b = tm.lt a b := by
  simp only [lt, comparator, ha, hb]

theorem WF.erase (h : tm.WF) (a : Nat) : (tm.erase a).WF :=
  ⟨h.sorted.sublist List.erase_sublist, fun b hb => h.live b (List.mem_of_mem_erase hb)⟩

/-- Writing a timer that is not in the set, or without moving its deadline. -/
theorem WF.store (h : tm.WF) {a : Nat} {t : Timer κ}
    (ha : a ∈ tm.timers → t.next = tm.next a) : (tm.store a t).WF := by
  have hnext : ∀ b ∈ tm.timers, (tm.store a t).next b = tm.next b := by
    intro b hb
    rw [store_next]
    split
    · subst b
      exact ha hb
    · rfl
  refine ⟨h.sorted.congr ?_, ?_⟩
  · intro b hb c hc hbc
    rw [lt_congr (hnext b hb) (hnext c hc)]
    exact hbc
  · intro b hb
    rw [store_heap]
    split
    · exact ⟨t, rfl⟩
    · exact h.live b hb

theorem WF.insert (h : tm.WF) {a : Nat} (ha : ∃ t, tm.heap a = some t) : (tm.insert a).WF := by
  refine ⟨h.sorted.insert (lt_strict tm), ?_⟩
  intro b hb
  rcases mem_insert.mp hb with rfl | hb
  · exact ha
  · exact h.live b hb

/-- Take a timer out of the set, rewrite it and put it back. -/
theorem WF.move (h : tm.WF) (a : Nat) (t : Timer κ) : (((tm.erase a).store a t).insert a).WF := by
  refine ((h.erase a).store ?_).insert ⟨t, store_heap_self a t⟩
  intro ha
  exact absurd rfl ((h.mem_erase.mp ha).1)

/-! ## The locked sections -/

theorem WF.cancel (h : tm.WF) (a : Nat) : (tm.cancel a).1.WF := by
  unfold TimerManager.cancel
  split
  · exact h
  · rename_i t ht
    split
    · refine (h.store ?_).erase a
      intro _
      simp [next, ht]
    · exact h

theorem WF.refresh (h : tm.WF) (a now : Nat) : (tm.refresh a now).1.WF := by
  unfold TimerManager.refresh
  split
  · exact h
  · split
    · exact h.move a _
    · exact h

/-- Flags apart from the set do not matter to the invariant. -/
theorem WF.flags (h : tm.WF) (tickled : Bool) (previous : Nat) :
    ({ tm with tickled := tickled, previouseTime := previous } : TimerManager κ).WF :=
  ⟨h.sorted, h.live⟩

theorem WF.addTimer (h : tm.WF) {a : Nat} (t : Timer κ) (ha : a ∉ tm.timers) :
    (tm.addTimer a t).1.WF := by
  have hins : ((tm.store a t).insert a).WF :=
    (h.store fun hmem => absurd hmem ha).insert ⟨t, store_heap_self a t⟩
  exact hins.flags _ _

theorem WF.reset (h : tm.WF) (a ms : Nat) (fromNow : Bool) (now : Nat) :
    (tm.reset a ms fromNow now).1.WF := by
  unfold TimerManager.reset
  split
  · exact h
  · split
    · exact (h.erase a).addTimer _ fun ha => (h.mem_erase.mp ha).1 rfl
    · exact h

theorem WF.getNextTimer (h : tm.WF) (now : Nat) : (tm.getNextTimer now).1.WF := h.flags _ _

/-- The re-arming loop, for expired timers that are no longer in the set. -/
theorem WF.rearm (now : Nat) {gone : List Nat} (h : tm.WF) (hnd : gone.Nodup)
    (hdis : ∀ a ∈ gone, a ∉ tm.timers) : (rearm now gone tm).1.WF := by
  induction gone generalizing tm with
  | nil => exact h
  | cons a rest ih =>
      obtain ⟨harest, hrest⟩ := List.nodup_cons.mp hnd
      have ha : a ∉ tm.timers := hdis a List.mem_cons_self
      have hdis' : ∀ b ∈ rest, b ∉ tm.timers := fun b hb => hdis b (List.mem_cons_of_mem _ hb)
      simp only [TimerManager.rearm]
      split
      · exact ih h hrest hdis'
      · rename_i t ht
        split
        · refine ih ((h.store fun hmem => absurd hmem ha).insert ⟨_, store_heap_self a _⟩) hrest ?_
          intro b hb hmem
          rcases mem_insert.mp hmem with rfl | hmem
          · exact harest hb
          · exact hdis' b hb hmem
        · exact ih (h.store fun hmem => absurd hmem ha) hrest hdis'

/-- The expired timers are the front part of the set. -/
theorem expired_initial (tm : TimerManager κ) (now addr : Nat) :
    tm.expired now addr <+: tm.timers := by
  unfold expired
  split
  · exact List.prefix_rfl
  · simp only
    set lower := OrdSet.below (comparator (Function.update tm.next addr now)) addr tm.timers
      with hlower
    have hpre : lower <+: tm.timers := List.takeWhile_prefix _
    obtain ⟨rest, hrest⟩ := hpre
    rw [← hrest, List.drop_left]
    exact List.prefix_append_right_inj lower |>.mpr (List.takeWhile_prefix _)

/-- What is left after the expired timers are taken out. -/
theorem timers_eq_expired_append (tm : TimerManager κ) (now addr : Nat) :
    tm.timers = tm.expired now addr ++ tm.timers.drop (tm.expired now addr).length := by
  obtain ⟨rest, hrest⟩ := expired_initial tm now addr
  nth_rewrite 1 2 [← hrest]
  rw [List.drop_left]

theorem WF.listExpiredCb (h : tm.WF) (now addr : Nat) : (tm.listExpiredCb now addr).1.WF := by
  unfold TimerManager.listExpiredCb
  split
  · exact h
  · split
    · exact h.flags _ _
    · simp only
      have hsplit := timers_eq_expired_append tm now addr
      have hnd := h.nodup
      rw [hsplit, List.nodup_append] at hnd
      refine WF.rearm now ?_ hnd.1 ?_
      · refine ⟨h.sorted.sublist (List.drop_sublist _ _), ?_⟩
        intro b hb
        exact h.live b (List.mem_of_mem_drop hb)
      · intro a ha hmem
        exact hnd.2.2 a ha a hmem rfl

end Gxh.TimerManager
