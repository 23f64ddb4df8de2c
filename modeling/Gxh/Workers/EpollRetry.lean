import Gxh.Lib.Signed
import Gxh.Lib.TSys
import Gxh.Workers.EpollWait

/-!
# The retry around `epoll_wait`

When a signal interrupts `epoll_wait`, `IOManager::idle` calls it again, with the `next_timeout`
that it found before the loop: neither is `getNextTimer` asked again, nor is the time already
spent subtracted. A run of the loop is a run of `retryLoop`, one step for each interrupted call.

`timeout_eq` is what carries the result: the timeout of every call of a run is that of the first.
So the wake-up point moves with each interruption by the time the call had waited, and
`interruptions_postpone` says that a run keeps to the deadline if and only if none of its
interrupted calls had waited at all.
-/

namespace Gxh.Workers

/-- The assignment to `next_timeout` at the top of an iteration. -/
def clampTimeout (nextTimeout : Nat) : Nat :=
  if nextTimeout ≠ max64 then ofInt (min (toInt nextTimeout) 5000) else 5000

/-- The `do … while` of `idle`, at the top of an iteration. -/
structure RetryLoop where
  nextTimeout : Nat
  clock : Nat
  deriving DecidableEq, Repr

/-- The timeout of the call that comes next. -/
def RetryLoop.timeout (s : RetryLoop) : Int := toInt (clampTimeout s.nextTimeout)

/-- The call fails with `EINTR` after `waited` milliseconds, at most its timeout; with a negative
timeout it waits as long as it takes. -/
def RetryLoop.interrupt (s : RetryLoop) (waited : Nat) : Option RetryLoop :=
  when (s.timeout < 0 ∨ (waited : Int) ≤ s.timeout)
    { nextTimeout := clampTimeout s.nextTimeout, clock := s.clock + waited }

/-- One run of the loop, entered with the answer of `getNextTimer`. -/
def retryLoop {κ : Type} (tm : TimerManager κ) (now : Nat) : TSys RetryLoop Nat where
  init s := s = { nextTimeout := (tm.getNextTimer now).2, clock := now }
  step := RetryLoop.interrupt

/-- The wake-up point, counted from the start of the loop, is no later than five seconds and no
later than the next timer. -/
def OnTime {κ : Type} (tm : TimerManager κ) (now : Nat) (s : RetryLoop) : Prop :=
  (s.clock - now : Nat) + s.timeout ≤ min 5000 ((tm.getNextTimer now).2 : Int)

instance {κ : Type} (tm : TimerManager κ) (now : Nat) (s : RetryLoop) :
    Decidable (OnTime tm now s) := by
  unfold OnTime
  infer_instance

variable {κ : Type} {tm : TimerManager κ} {now : Nat} {s s' : RetryLoop}

theorem RetryLoop.interrupt_eq_some {waited : Nat} (h : s.interrupt waited = some s') :
    (s.timeout < 0 ∨ (waited : Int) ≤ s.timeout) ∧
      s' = { nextTimeout := clampTimeout s.nextTimeout, clock := s.clock + waited } := by
  obtain ⟨hle, rfl⟩ := when_eq_some.mp h
  exact ⟨hle, rfl⟩

/-- A value of `int` range is clamped without loss. -/
theorem clampTimeout_of_lt {n : Nat} (h : n < 2147483648) : clampTimeout n = min n 5000 := by
  have hmax : n ≠ max64 := by
    unfold max64 size64
    omega
  unfold clampTimeout ofInt
  rw [if_pos hmax, toInt_of_lt h]
  omega

theorem clampTimeout_max64 : clampTimeout max64 = 5000 := if_neg (not_not.mpr rfl)

/-- What `getNextTimer` answers when every timer is near: a value of `int` range, or `~0`. -/
theorem getNextTimer_near (hnear : ∀ a ∈ tm.timers, tm.next a - now < 2147483648) :
    (tm.getNextTimer now).2 < 2147483648 ∨ (tm.getNextTimer now).2 = max64 := by
  cases hl : tm.timers with
  | nil => exact .inr (getNextTimer_nil hl now)
  | cons front rest =>
      rw [getNextTimer_front hl]
      refine .inl (hnear front ?_)
      rw [hl]
      exact List.mem_cons_self

/-- Clamping the answer gives the bound that the wait is to keep, and clamping that changes
nothing. -/
theorem clampTimeout_answer (hnear : ∀ a ∈ tm.timers, tm.next a - now < 2147483648) :
    clampTimeout (tm.getNextTimer now).2 = min 5000 (tm.getNextTimer now).2 := by
  rcases getNextTimer_near hnear with hlt | hmax
  · rw [clampTimeout_of_lt hlt, Nat.min_comm]
  · rw [hmax, clampTimeout_max64]
    decide

theorem clampTimeout_clampTimeout {n : Nat} :
    clampTimeout (min 5000 n) = min 5000 n := by
  rw [clampTimeout_of_lt (by omega)]
  omega

/-- Along a run the timeout of the next call is that of the first, and the clock does not go
back. -/
structure Restarting (tm : TimerManager κ) (now : Nat) (s : RetryLoop) : Prop where
  clamped : clampTimeout s.nextTimeout = min 5000 (tm.getNextTimer now).2
  later : now ≤ s.clock

theorem Restarting.interrupt (h : Restarting tm now s) {waited : Nat}
    (hstep : s.interrupt waited = some s') : Restarting tm now s' := by
  obtain ⟨-, rfl⟩ := RetryLoop.interrupt_eq_some hstep
  refine ⟨?_, h.later.trans (Nat.le_add_right _ _)⟩
  dsimp only
  rw [h.clamped, clampTimeout_clampTimeout]

theorem restarting_inductive (hnear : ∀ a ∈ tm.timers, tm.next a - now < 2147483648) :
    (retryLoop tm now).Inductive (fun _ _ => True) (Restarting tm now) where
  init := by
    rintro s rfl
    exact ⟨clampTimeout_answer hnear, le_rfl⟩
  step _ _ _ h _ hstep := h.interrupt hstep

theorem Restarting.timeout_eq (h : Restarting tm now s) :
    s.timeout = min 5000 ((tm.getNextTimer now).2 : Int) := by
  unfold RetryLoop.timeout
  rw [h.clamped, toInt_of_lt (by omega)]
  omega

/-- In such a state the wake-up point is right if and only if no time has passed. -/
theorem Restarting.onTime_iff (h : Restarting tm now s) : OnTime tm now s ↔ s.clock = now := by
  have hlater := h.later
  unfold OnTime
  rw [h.timeout_eq]
  omega

/-- In a run of the loop the time spent in the interrupted calls and the next timeout stay
within the answer of `getNextTimer` all along, if and only if no interrupted call had waited. -/
theorem interruptions_postpone (hnear : ∀ a ∈ tm.timers, tm.next a - now < 2147483648)
    (hstart : (retryLoop tm now).init s) {waits : List Nat}
    (hrun : (retryLoop tm now).exec (fun _ _ => true) s waits = some s') :
    (retryLoop tm now).Along (OnTime tm now) s waits ↔ ∀ waited ∈ waits, waited = 0 := by
  have hinv := restarting_inductive hnear
  have hrestarting : Restarting tm now s := hinv.init s hstart
  have hontime : OnTime tm now s := by
    rw [hrestarting.onTime_iff]
    cases hstart
    rfl
  rw [← TSys.meets_iff_forall hrun]
  refine TSys.along_iff_meets hinv ?_ ?_ hrun hrestarting hontime
  · rintro u waited u' hu hnow hzero hstep
    rw [(hu.interrupt hstep).onTime_iff]
    rw [hu.onTime_iff] at hnow
    obtain ⟨-, rfl⟩ := RetryLoop.interrupt_eq_some hstep
    dsimp only
    omega
  · rintro u waited u' hu hwaited hstep hnow
    rw [(hu.interrupt hstep).onTime_iff] at hnow
    have hlater := hu.later
    obtain ⟨-, rfl⟩ := RetryLoop.interrupt_eq_some hstep
    dsimp only at hnow
    omega

/-- One timer, due in four seconds. -/
def fourSeconds : TimerManager CbId :=
  ((TimerManager.new 0).addTimer 1 (.new 0 4000 (some 7) false)).1

/-- Interrupted at once, three times over, the loop is still on time. -/
theorem interruptions_postpone_at_once :
    (retryLoop fourSeconds 0).exec (fun _ _ => true) ⟨4000, 0⟩ [0, 0, 0] = some ⟨4000, 0⟩ ∧
    (retryLoop fourSeconds 0).Along (OnTime fourSeconds 0) ⟨4000, 0⟩ [0, 0, 0] := by
  have hnear : ∀ a ∈ fourSeconds.timers, fourSeconds.next a - 0 < 2147483648 := by
    intro a ha
    have hone : a = 1 := List.mem_singleton.mp ha
    rw [hone]
    decide
  have hrun : (retryLoop fourSeconds 0).exec (fun _ _ => true) ⟨4000, 0⟩ [0, 0, 0] =
      some ⟨4000, 0⟩ := by decide
  exact ⟨hrun, (interruptions_postpone hnear rfl hrun).mpr (by decide)⟩

/-- Three calls interrupted after three seconds each: the fourth may wait until the thirteenth
second. -/
theorem interruptions_postpone_four_seconds :
    ∃ s', (retryLoop fourSeconds 0).exec (fun _ _ => true) ⟨4000, 0⟩ [3000, 3000, 3000] =
      some s' ∧ ¬OnTime fourSeconds 0 s' ∧ s'.clock + s'.timeout = 13000 :=
  ⟨⟨4000, 9000⟩, by decide, by decide, by decide⟩

end Gxh.Workers
