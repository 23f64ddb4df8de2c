import Gxh.Timer.Order
import Gxh.Workers.Basic

/-!
# The timeout of `epoll_wait`

`IOManager::idle` asks `stopping(next_timeout)` for the time to the next timer and passes it on as
an `int`, five seconds at most. The conversion `(int)next_timeout` keeps the low 32 bits, so that
a remaining time with bit 31 set comes out negative: `epoll_wait` then sleeps until an event
comes. `timeout_never_overshoots` says that there is no other way to sleep too long.
-/

namespace Gxh.Workers

variable {κ : Type} {tm : TimerManager κ} {now : Nat}

/-- `IOManager::stopping(timeout)`: the time to the next timer, and the answer. -/
def stopping (tm : TimerManager κ) (now pendingEventCount : Nat) (schedulerStopping : Bool) :
    Nat × Bool :=
  let timeout := (tm.getNextTimer now).2
  (timeout, timeout = max64 && pendingEventCount = 0 && schedulerStopping)

/-- The timeout of the first `epoll_wait` of a round of `idle`, unless the idle fiber ends. -/
def idleTimeout (tm : TimerManager κ) (now pendingEventCount : Nat) (schedulerStopping : Bool) :
    Option Int :=
  let r := stopping tm now pendingEventCount schedulerStopping
  if r.2 then none else some (epollTimeout r.1)

/-- The timeout is one of zero to five seconds, and no timer becomes due before its end. -/
structure InTime (tm : TimerManager κ) (now : Nat) (timeout : Int) : Prop where
  nonneg : 0 ≤ timeout
  short : timeout ≤ 5000
  due : ∀ a ∈ tm.timers, timeout ≤ (tm.next a - now : Nat)

/-- The remaining time of an earliest timer has bit 31 clear, or is all ones. -/
def Narrow (tm : TimerManager κ) (now : Nat) : Prop :=
  ∀ a ∈ tm.timers, (∀ b ∈ tm.timers, tm.next a ≤ tm.next b) →
    tm.next a - now = max64 ∨ (tm.next a - now) % 2 ^ 32 < 2 ^ 31

theorem toInt_nonneg_iff (n : Nat) : 0 ≤ toInt n ↔ n % 2 ^ 32 < 2 ^ 31 := by
  unfold toInt
  split
  · omega
  · omega

theorem epollTimeout_le (n : Nat) : epollTimeout n ≤ 5000 := by
  unfold epollTimeout
  split
  · exact min_le_right _ _
  · exact le_rfl

/-- Where the timeout is not negative it is no longer than the time it was made from. -/
theorem epollTimeout_le_rest (n : Nat) : epollTimeout n ≤ n := by
  have hle := toInt_le n
  unfold epollTimeout
  split
  · exact (min_le_left _ _).trans hle
  · rename_i hmax
    rw [not_not] at hmax
    rw [hmax]
    decide

theorem epollTimeout_nonneg_iff (n : Nat) :
    0 ≤ epollTimeout n ↔ n = max64 ∨ n % 2 ^ 32 < 2 ^ 31 := by
  have hint := toInt_nonneg_iff n
  unfold epollTimeout
  split
  · rename_i hmax
    rw [le_min_iff, hint, or_iff_right hmax]
    exact and_iff_left (by decide)
  · rename_i hmax
    exact iff_of_true (by decide) (.inl (not_not.mp hmax))

/-- What `getNextTimer` answers: the time to the deadline of the front, which is an earliest. -/
theorem getNextTimer_front {front : Nat} {rest : List Nat} (hl : tm.timers = front :: rest)
    (now : Nat) : (tm.getNextTimer now).2 = tm.next front - now := by
  unfold TimerManager.getNextTimer
  rw [hl]
  dsimp only
  split
  · omega
  · rfl

theorem getNextTimer_nil (hl : tm.timers = []) (now : Nat) :
    (tm.getNextTimer now).2 = max64 := by
  unfold TimerManager.getNextTimer
  rw [hl]

theorem idleTimeout_eq {pendingEventCount : Nat} {schedulerStopping : Bool} {timeout : Int}
    (h : idleTimeout tm now pendingEventCount schedulerStopping = some timeout) :
    timeout = epollTimeout (tm.getNextTimer now).2 := by
  unfold idleTimeout at h
  dsimp only at h
  split at h
  · cases h
  · exact (Option.some.inj h).symm

/-- The wait is in time if and only if the narrowing of the time to the next timer keeps its
sign. -/
theorem timeout_never_overshoots (h : tm.WF) (pendingEventCount : Nat) (schedulerStopping : Bool)
    {timeout : Int}
    (hwait : idleTimeout tm now pendingEventCount schedulerStopping = some timeout) :
    InTime tm now timeout ↔ Narrow tm now := by
  rw [idleTimeout_eq hwait]
  cases hl : tm.timers with
  | nil =>
      rw [getNextTimer_nil hl]
      refine iff_of_true ⟨by decide, epollTimeout_le _, ?_⟩ ?_
      · rw [hl]
        nofun
      · unfold Narrow
        rw [hl]
        nofun
  | cons front rest =>
      have hfront : front ∈ tm.timers := by
        rw [hl]
        exact List.mem_cons_self
      have hfirst : ∀ b ∈ tm.timers, tm.next front ≤ tm.next b := fun b hb => h.front_le hl hb
      rw [getNextTimer_front hl]
      constructor
      · rintro ⟨hnonneg, -, -⟩ a ha hleast
        -- both are earliest
        have hsame : tm.next a = tm.next front :=
          Nat.le_antisymm (hleast front hfront) (hfirst a ha)
        rw [hsame]
        exact (epollTimeout_nonneg_iff _).mp hnonneg
      · intro hnarrow
        refine ⟨(epollTimeout_nonneg_iff _).mpr (hnarrow front hfront hfirst),
          epollTimeout_le _, ?_⟩
        intro a ha
        have hle := hfirst a ha
        refine (epollTimeout_le_rest _).trans ?_
        omega

/-- A worker that is not to stop sleeps for that timeout, or tests further for the end. -/
theorem stop1_sleep {n m : Nat} (s : Pool n m) (w : Fin (n + 1)) {timeout : Int}
    (hwait : idleTimeout s.tm s.clock s.pendingEventCount s.schedulerStopping = some timeout) :
    (s.stop1 w).pc w = .entering (.ofTimeout s.clock timeout) ∨
      (s.stop1 w).pc w = .stop2 s.clock ∧ timeout = 5000 := by
  rw [idleTimeout_eq hwait]
  have hpc : (s.stop1 w).pc w = if (s.tm.getNextTimer s.clock).2 = max64 then .stop2 s.clock
      else .entering (.ofTimeout s.clock (epollTimeout (s.tm.getNextTimer s.clock).2)) := by
    simp [Pool.stop1, Pool.setPc]
  rw [hpc]
  split
  · rename_i hmax
    rw [hmax]
    exact .inr ⟨rfl, rfl⟩
  · exact .inl rfl

/-- One timer, due in ten seconds. -/
def tenSeconds : TimerManager CbId :=
  ((TimerManager.new 0).addTimer 1 (.new 0 10000 (some 7) false)).1

/-- One timer, due in 2147483648 milliseconds. -/
def twentyFiveDays : TimerManager CbId :=
  ((TimerManager.new 0).addTimer 1 (.new 0 2147483648 (some 7) false)).1

theorem addTimer_new_wf (t : Timer κ) : ((TimerManager.new 0).addTimer 1 t).1.WF :=
  (TimerManager.new_wf 0).addTimer t (by simp [TimerManager.new])

theorem timeout_ten_seconds :
    idleTimeout tenSeconds 0 0 false = some 5000 ∧ InTime tenSeconds 0 5000 := by
  have hwait : idleTimeout tenSeconds 0 0 false = some 5000 := by decide
  refine ⟨hwait, (timeout_never_overshoots (addTimer_new_wf _) 0 false hwait).mpr ?_⟩
  intro a ha _
  have hone : a = 1 := List.mem_singleton.mp ha
  rw [hone]
  exact .inr (by decide)

/-- `epoll_wait` is called with -2147483648 and sleeps until an event comes. -/
theorem timeout_twenty_five_days :
    idleTimeout twentyFiveDays 0 0 false = some (-2147483648) ∧
    Sleep.ofTimeout 0 (-2147483648) = .forever ∧
    ¬InTime twentyFiveDays 0 (-2147483648) := by
  refine ⟨by decide, by decide, ?_⟩
  rintro ⟨hnonneg, -, -⟩
  exact absurd hnonneg (by decide)

end Gxh.Workers
