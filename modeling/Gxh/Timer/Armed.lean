import Gxh.Timer.Order

/-!
# Deadlines against the clock

A pending timer was armed at some clock reading that has passed: its deadline is that
reading plus its interval. `Timer.Armed` keeps this, for deadlines less than `2^31`
milliseconds away, and every operation of the timer manager preserves it.

`Later` compares the sets before and after an operation that announces nothing: no
deadline of the new set lies before every deadline of the old one.
-/

namespace Gxh

variable {κ : Type}

/-- A deadline less than `2^31` ms after the clock, and a `uint64_t`. -/
def Short (clock deadline : Nat) : Prop :=
  deadline < clock + 2147483648 ∧ deadline < size64

/-- The timer was armed at a reading `next - ms` not after `clock`. -/
structure Timer.Armed (clock : Nat) (t : Timer κ) : Prop where
  start : t.ms ≤ t.next
  past : t.next ≤ clock + t.ms
  short : Short clock t.next

theorem Timer.Armed.mono {clock clock' : Nat} {t : Timer κ} (h : t.Armed clock)
    (hle : clock ≤ clock') : t.Armed clock' := by
  obtain ⟨h1, h2, h3, h4⟩ := h
  exact ⟨h1, by omega, by omega, h4⟩

/-- Arming at a reading that has passed. -/
theorem Timer.armed_of_start {clock start : Nat} {t : Timer κ} (hstart : start ≤ clock)
    (hnext : t.next = wrap64 (start + t.ms)) (hshort : Short clock (start + t.ms)) :
    t.Armed clock := by
  rw [wrap64_of_lt hshort.2] at hnext
  refine ⟨?_, ?_, ?_⟩
  · omega
  · omega
  · rw [hnext]
    exact hshort

namespace TimerManager

variable {tm : TimerManager κ} {clock : Nat}

/-- Every pending timer is armed. -/
def AllArmed (clock : Nat) (tm : TimerManager κ) : Prop :=
  ∀ a ∈ tm.timers, ∀ t, tm.heap a = some t → t.Armed clock

theorem AllArmed.mono {clock' : Nat} (h : tm.AllArmed clock) (hle : clock ≤ clock') :
    tm.AllArmed clock' :=
  fun a ha t ht => (h a ha t ht).mono hle

theorem AllArmed.erase (h : tm.AllArmed clock) (a : Nat) : (tm.erase a).AllArmed clock :=
  fun b hb t ht => h b (List.mem_of_mem_erase hb) t ht

theorem AllArmed.put (h : tm.AllArmed clock) {a : Nat} {t : Timer κ} (ht : t.Armed clock) :
    ((tm.store a t).insert a).AllArmed clock := by
  intro b hb x hx
  rw [insert_heap, store_heap] at hx
  by_cases hba : b = a
  · rw [if_pos hba, Option.some.injEq] at hx
    exact hx ▸ ht
  · rw [if_neg hba] at hx
    rcases mem_insert.mp hb with h1 | h1
    · exact absurd h1 hba
    · exact h b h1 x hx

theorem AllArmed.store (h : tm.AllArmed clock) {a : Nat} {t : Timer κ} (ha : a ∉ tm.timers) :
    (tm.store a t).AllArmed clock := by
  intro b hb x hx
  have hba : b ≠ a := fun he => ha (he ▸ hb)
  rw [store_heap, if_neg hba] at hx
  exact h b hb x hx

theorem AllArmed.cancel (h : tm.AllArmed clock) (hwf : tm.WF) (a : Nat) :
    (tm.cancel a).1.AllArmed clock := by
  unfold TimerManager.cancel
  split
  · exact h
  · split
    · intro b hb x hx
      obtain ⟨hba, hmem⟩ := hwf.nodup.mem_erase_iff.mp hb
      rw [erase_heap, store_heap, if_neg hba] at hx
      exact h b hmem x hx
    · exact h

theorem AllArmed.refresh (h : tm.AllArmed clock) (hwf : tm.WF) {a : Nat}
    (hshort : ∀ t, a ∈ tm.timers → tm.heap a = some t → Short clock (clock + t.ms)) :
    (tm.refresh a clock).1.AllArmed clock := by
  unfold TimerManager.refresh
  split
  · exact h
  · rename_i t ht
    split
    · rename_i hc
      rw [Bool.and_eq_true, hwf.found_iff] at hc
      exact (h.erase a).put (Timer.armed_of_start (Nat.le_refl clock) rfl (hshort t hc.2 ht))
    · exact h

/-- The start `reset` counts from has passed. -/
theorem resetStart_le {t : Timer κ} (ht : t.Armed clock) (fromNow : Bool) :
    resetStart t clock fromNow ≤ clock := by
  obtain ⟨h1, h2, -, h4⟩ := ht
  unfold resetStart
  split
  · exact Nat.le_refl clock
  · rw [sub64_of_le h4 h1]
    omega

theorem AllArmed.reset (h : tm.AllArmed clock) (hwf : tm.WF) {a ms : Nat} {fromNow : Bool}
    (hshort : ∀ t, a ∈ tm.timers → tm.heap a = some t →
      Short clock (resetStart t clock fromNow + ms)) :
    (tm.reset a ms fromNow clock).1.AllArmed clock := by
  unfold TimerManager.reset
  split
  · exact h
  · rename_i t ht
    split
    · rename_i hc
      rw [Bool.and_eq_true, hwf.found_iff] at hc
      have hstart := resetStart_le (h a hc.2 t ht) fromNow
      exact (h.erase a).put (Timer.armed_of_start hstart rfl (hshort t hc.2 ht))
    · exact h

/-- The re-arming loop, for expired timers that are no longer in the set. -/
theorem AllArmed.rearm {now : Nat} (hnow : now ≤ clock) {gone : List Nat}
    (h : tm.AllArmed clock) (hnd : gone.Nodup) (hdis : ∀ a ∈ gone, a ∉ tm.timers)
    (hshort : ∀ a ∈ gone, ∀ t, tm.heap a = some t → t.recurring = true →
      Short clock (now + t.ms)) : (rearm now gone tm).1.AllArmed clock := by
  induction gone generalizing tm with
  | nil => exact h
  | cons a rest ih =>
      obtain ⟨harest, hrest⟩ := List.nodup_cons.mp hnd
      have hdis' : ∀ b ∈ rest, b ∉ tm.timers := fun b hb => hdis b (List.mem_cons_of_mem _ hb)
      have hshort' : ∀ b ∈ rest, ∀ t, tm.heap b = some t → t.recurring = true →
          Short clock (now + t.ms) := fun b hb => hshort b (List.mem_cons_of_mem _ hb)
      have hne : ∀ b ∈ rest, b ≠ a := fun b hb he => harest (he ▸ hb)
      -- the timers still to come are not in the set, whatever becomes of the first one
      unfold TimerManager.rearm
      split
      · exact ih h hrest hdis' hshort'
      · rename_i t ht
        dsimp only
        split
        · rename_i hrec
          -- a recurring timer is armed anew at this reading
          have harmed : (Timer.mk t.recurring t.ms (wrap64 (now + t.ms)) t.cb).Armed clock :=
            Timer.armed_of_start hnow rfl (hshort a List.mem_cons_self t ht hrec)
          refine ih (h.put harmed) hrest ?_ ?_
          · intro b hb hmem
            rcases mem_insert.mp hmem with h1 | h1
            · exact hne b hb h1
            · exact hdis' b hb h1
          · intro b hb x hx
            rw [insert_heap, store_heap, if_neg (hne b hb)] at hx
            exact hshort' b hb x hx
        · refine ih (h.store (hdis a List.mem_cons_self)) hrest hdis' ?_
          intro b hb x hx
          rw [store_heap, if_neg (hne b hb)] at hx
          exact hshort' b hb x hx

theorem AllArmed.listExpiredCb {now addr : Nat} (h : tm.AllArmed clock) (hwf : tm.WF)
    (hnow : now ≤ clock)
    (hshort : ∀ a ∈ tm.expired now addr, ∀ t, tm.heap a = some t → t.recurring = true →
      Short clock (now + t.ms)) : (tm.listExpiredCb now addr).1.AllArmed clock := by
  unfold TimerManager.listExpiredCb
  split
  · exact h
  · dsimp only
    split
    · exact h
    · have hsplit := timers_eq_expired_append tm now addr
      have hnd := hwf.nodup
      rw [hsplit] at hnd
      refine AllArmed.rearm hnow ?_ (List.nodup_append.mp hnd).1 ?_ hshort
      · intro b hb t ht
        exact h b (List.mem_of_mem_drop hb) t ht
      · intro b hb hmem
        exact (List.nodup_append.mp hnd).2.2 b hb b hmem rfl

/-! ## Operations that announce nothing -/

/-- Nothing of the new set is due before everything of the old one, and the next insertion at
the front will be announced. -/
structure Later (tm tm' : TimerManager κ) : Prop where
  tickled : tm'.tickled = false
  after : ∀ a ∈ tm'.timers, ∃ b ∈ tm.timers, tm.next b ≤ tm'.next a

theorem Later.of_eq {tm' : TimerManager κ} (hticked : tm'.tickled = false)
    (htimers : tm'.timers = tm.timers) (hnext : tm'.next = tm.next) : Later tm tm' :=
  ⟨hticked, fun a ha => ⟨a, htimers ▸ ha, by rw [hnext]⟩⟩

theorem later_cancel (hwf : tm.WF) (h : tm.tickled = false) (a : Nat) :
    Later tm (tm.cancel a).1 := by
  unfold TimerManager.cancel
  split
  · exact .of_eq h rfl rfl
  · split
    · refine ⟨h, fun b hb => ?_⟩
      obtain ⟨hba, hmem⟩ := hwf.nodup.mem_erase_iff.mp hb
      refine ⟨b, hmem, ?_⟩
      rw [erase_next, store_next, if_neg hba]
    · exact .of_eq h rfl rfl

/-- `refresh` moves a deadline to the clock plus the interval, which is not before the reading
it was armed at plus the interval. -/
theorem later_refresh (hwf : tm.WF) (harmed : tm.AllArmed clock) (h : tm.tickled = false)
    {a : Nat}
    (hshort : ∀ t, a ∈ tm.timers → tm.heap a = some t → Short clock (clock + t.ms)) :
    Later tm (tm.refresh a clock).1 := by
  unfold TimerManager.refresh
  split
  · exact .of_eq h rfl rfl
  · rename_i t ht
    split
    · rename_i hc
      rw [Bool.and_eq_true, hwf.found_iff] at hc
      refine ⟨h, fun b hb => ?_⟩
      rw [insert_next, store_next]
      by_cases hba : b = a
      · refine ⟨a, hc.2, ?_⟩
        rw [if_pos hba, wrap64_of_lt (hshort t hc.2 ht).2]
        have hnext : tm.next a = t.next := by simp [next, ht]
        rw [hnext]
        exact (harmed a hc.2 t ht).past
      · rw [if_neg hba]
        rcases mem_insert.mp hb with h1 | h1
        · exact absurd h1 hba
        · exact ⟨b, List.mem_of_mem_erase h1, Nat.le_refl _⟩
    · exact .of_eq h rfl rfl

/-- An insertion that is not announced is behind the front. -/
theorem later_addTimer (hwf : tm.WF) (h : tm.tickled = false) {a : Nat} {t : Timer κ}
    (ha : a ∉ tm.timers) (hfront : (tm.addTimer a t).2 = false) :
    Later tm (tm.addTimer a t).1 := by
  have hwf' := hwf.addTimer t ha
  have htimers : (tm.addTimer a t).1.timers = ((tm.store a t).insert a).timers := rfl
  have hhead : ((tm.store a t).insert a).timers.head? ≠ some a := by
    simpa [TimerManager.addTimer, h] using hfront
  have hmem : a ∈ (tm.addTimer a t).1.timers := mem_insert.mpr (.inl rfl)
  cases hl : (tm.addTimer a t).1.timers with
  | nil => simp [hl] at hmem
  | cons b rest =>
      have hba : b ≠ a := by
        rintro rfl
        rw [htimers] at hl
        simp [hl] at hhead
      have hb : b ∈ tm.timers := by
        have hb' : b ∈ (tm.addTimer a t).1.timers := by simp [hl]
        exact (mem_insert.mp hb').resolve_left hba
      refine ⟨?_, fun x hx => ⟨b, hb, ?_⟩⟩
      · have hf : (tm.addTimer a t).1.tickled = (tm.tickled || (tm.addTimer a t).2) := rfl
        rw [hf, h, hfront]
        rfl
      · calc tm.next b = (tm.addTimer a t).1.next b := by
              show tm.next b = (tm.store a t).next b
              rw [store_next, if_neg hba]
          _ ≤ (tm.addTimer a t).1.next x := hwf'.front_le hl hx

theorem later_reset (hwf : tm.WF) (h : tm.tickled = false) {a ms now : Nat} {fromNow : Bool}
    (hfront : (tm.reset a ms fromNow now).2.2 = false) :
    Later tm (tm.reset a ms fromNow now).1 := by
  unfold TimerManager.reset at hfront ⊢
  split
  · exact .of_eq h rfl rfl
  · rename_i t ht
    simp only [ht] at hfront
    split
    · rename_i hc
      rw [if_pos hc] at hfront
      have hnot : a ∉ (tm.erase a).timers := fun hmem => (hwf.mem_erase.mp hmem).1 rfl
      have hlater := later_addTimer (hwf.erase a) h hnot hfront
      refine ⟨hlater.tickled, fun x hx => ?_⟩
      obtain ⟨b, hb, hle⟩ := hlater.after x hx
      exact ⟨b, List.mem_of_mem_erase hb, hle⟩
    · exact .of_eq h rfl rfl

end TimerManager

end Gxh
