import Gxh.Lib.Signed
import Gxh.Scheduler.Task
import Gxh.Timer.Order

/-!
# Hooked sleeps

`sleep`, `usleep` and `nanosleep` (`hook.cc`) turn their argument into the milliseconds of a
one-shot timer that schedules the fiber again, each in its own way: a product of `unsigned int`, a
division that rounds down, and a sum of `long` that an `int` variable holds on the way.

`sleepsFor_iff` reduces the three to one question, whether the milliseconds are those of the
duration asked for, rounded up.
-/

namespace Gxh.Hook

/-- `struct timespec`. -/
structure Timespec where
  tv_sec : Int
  tv_nsec : Int
  deriving DecidableEq, Repr

/-- What `clock_gettime` writes, and what `nanosleep` takes. -/
structure Timespec.Normal (ts : Timespec) : Prop where
  sec_nonneg : 0 ≤ ts.tv_sec
  nsec_nonneg : 0 ≤ ts.tv_nsec
  nsec_lt : ts.tv_nsec < 1000000000

/-- `GetElapsedMS`, for the time that `clock_gettime` wrote. -/
def getElapsedMS (ts : Timespec) : Option Nat := do
  let ms ← signed half64 (ts.tv_sec * 1000)
  let sum ← signed half64 (ms + ts.tv_nsec.tdiv 1000000)
  pure (ofInt sum)

/-- What a call of one of the three comes to. -/
inductive SleepCall
  /-- the original function is called with the same arguments -/
  | plain
  /-- a signed overflow -/
  | undefined
  /-- the timer is added and the fiber yields; the answer is 0 -/
  | timed (tm : TimerManager ScheduleTask) (atFront : Bool)

/-- The caller: the flag `t_hook_enable` and the fiber, its IO manager's timers, whose callbacks
schedule a task, the address of the next `Timer`, and the clock that its constructor reads. -/
structure Sleeper where
  hookEnable : Bool
  fiber : FiberId
  tm : TimerManager ScheduleTask
  addr : Nat
  clock : Timespec
  now : Nat
  normal : clock.Normal
  reading : getElapsedMS clock = some now

namespace Sleeper

/-- `iom->addTimer(ms, …)`, with the callback that schedules the fiber on any thread. -/
def addTimer (c : Sleeper) (ms : Nat) : SleepCall :=
  let r := c.tm.addTimer c.addr (.new c.now ms (some (.ofFiber c.fiber none)) false)
  .timed r.1 r.2

/-- `sleep`: the product is of type `unsigned int`. -/
def sleep (c : Sleeper) (seconds : Nat) : SleepCall :=
  if c.hookEnable then c.addTimer (seconds * 1000 % 4294967296) else .plain

/-- `usleep`. -/
def usleep (c : Sleeper) (usec : Nat) : SleepCall :=
  if c.hookEnable then c.addTimer (usec / 1000) else .plain

/-- `timeout_ms` of `nanosleep`, before it is stored in an `int`. -/
def nanosleepMs (req : Timespec) : Option Int := do
  let ms ← signed half64 (req.tv_sec * 1000)
  signed half64 (ms + (req.tv_nsec.tdiv 1000).tdiv 1000)

/-- `nanosleep`. -/
def nanosleep (c : Sleeper) (req : Timespec) : SleepCall :=
  if c.hookEnable then
    match nanosleepMs req with
    | none => .undefined
    | some ms => c.addTimer (ofInt (longToInt ms))
  else .plain

end Sleeper

/-- The timer `t` makes the fiber sleep `asked` milliseconds from the clock reading on: it runs
once, with an interval of so much, and its deadline is not before that. -/
structure NotEarly (c : Sleeper) (asked : Nat) (t : Timer ScheduleTask) : Prop where
  wakes : t.cb = some (.ofFiber c.fiber none)
  oneShot : t.recurring = false
  interval : t.ms = asked
  deadline : c.now + asked ≤ t.next

/-- The call has registered such a timer. -/
def SleepsFor (c : Sleeper) (asked : Nat) : SleepCall → Prop
  | .timed tm _ => ∃ t, tm.heap c.addr = some t ∧ c.addr ∈ tm.timers ∧ NotEarly c asked t
  | _ => False

variable {c : Sleeper}

/-- The clock is read through a `long`. -/
theorem Sleeper.now_lt (c : Sleeper) : c.now < 9223372036854775808 := by
  obtain ⟨hsec, hnsec, -⟩ := c.normal
  have h := c.reading
  unfold getElapsedMS at h
  obtain ⟨ms, hms, h⟩ := Option.bind_eq_some_iff.mp h
  obtain ⟨-, rfl⟩ := signed_eq_some.mp hms
  obtain ⟨sum, hsum, h⟩ := Option.bind_eq_some_iff.mp h
  obtain ⟨⟨hlo, hhi⟩, rfl⟩ := signed_eq_some.mp hsum
  have hdiv : 0 ≤ c.clock.tv_nsec.tdiv 1000000 := Int.tdiv_nonneg hnsec (by decide)
  have hword := ofInt_of_nonneg (by omega) hhi
  have hnow := Option.some.inj h
  unfold half64 at hhi
  omega

/-- The timer of a call sleeps for the milliseconds asked for if and only if these are its
interval, as long as that leaves the deadline in range. -/
theorem sleepsFor_iff {ms asked : Nat} (hrange : ms = asked → asked < 9223372036854775808) :
    SleepsFor c asked (c.addTimer ms) ↔ ms = asked := by
  have hheap : (c.tm.addTimer c.addr
      (.new c.now ms (some (.ofFiber c.fiber none)) false)).1.heap c.addr =
        some (.new c.now ms (some (.ofFiber c.fiber none)) false) :=
    TimerManager.store_heap_self _ _
  constructor
  · rintro ⟨t, ht, -, hsleep⟩
    rw [hheap] at ht
    cases ht
    exact hsleep.interval
  · intro heq
    have hnow := c.now_lt
    have hasked := hrange heq
    refine ⟨_, hheap, TimerManager.mem_insert.mpr (.inl rfl), rfl, rfl, heq, ?_⟩
    show c.now + asked ≤ wrap64 (c.now + ms)
    rw [heq, wrap64_of_lt (by unfold size64; omega)]

/-- The duration in milliseconds, rounded up. -/
def Timespec.ceilMs (ts : Timespec) : Nat :=
  (ts.tv_sec * 1000 + (ts.tv_nsec + 999999) / 1000000).toNat

theorem sleepsFor_sleep_iff (hhook : c.hookEnable = true) {seconds : Nat}
    (hseconds : seconds < 4294967296) :
    SleepsFor c (seconds * 1000) (c.sleep seconds) ↔ seconds * 1000 < 4294967296 := by
  unfold Sleeper.sleep
  rw [if_pos hhook, sleepsFor_iff (by omega)]
  omega

theorem sleepsFor_usleep_iff (hhook : c.hookEnable = true) {usec : Nat}
    (husec : usec < 4294967296) :
    SleepsFor c ((usec + 999) / 1000) (c.usleep usec) ↔ usec % 1000 = 0 := by
  unfold Sleeper.usleep
  rw [if_pos hhook, sleepsFor_iff (by omega)]
  omega

theorem nanosleepMs_eq {req : Timespec} (h : req.Normal) (hsec : req.tv_sec * 1000 < half64) :
    Sleeper.nanosleepMs req =
      signed half64 (req.tv_sec * 1000 + req.tv_nsec / 1000000) := by
  obtain ⟨hnonneg, hnsec, -⟩ := h
  have hdiv : (req.tv_nsec.tdiv 1000).tdiv 1000 = req.tv_nsec / 1000000 := by
    rw [Int.tdiv_eq_ediv_of_nonneg hnsec, Int.tdiv_eq_ediv_of_nonneg (by omega)]
    omega
  unfold Sleeper.nanosleepMs
  rw [signed_of_lt (by omega) hsec, hdiv]
  rfl

theorem sleepsFor_nanosleep_iff (hhook : c.hookEnable = true) {req : Timespec} (h : req.Normal)
    (hsec : req.tv_sec * 1000 < half64) :
    SleepsFor c req.ceilMs (c.nanosleep req) ↔
      req.tv_nsec % 1000000 = 0 ∧ req.tv_sec * 1000 + req.tv_nsec / 1000000 < half32 := by
  obtain ⟨hnonneg, hnsec, hlt⟩ := h
  unfold Sleeper.nanosleep
  rw [if_pos hhook, nanosleepMs_eq ⟨hnonneg, hnsec, hlt⟩ hsec]
  by_cases hfits : req.tv_sec * 1000 + req.tv_nsec / 1000000 < half64
  · have hpos : 0 ≤ req.tv_sec * 1000 + req.tv_nsec / 1000000 := by omega
    have hlow := ofInt_longToInt_emod hpos hfits
    have hkeep := ofInt_longToInt_eq_iff hpos hfits
    rw [signed_of_lt hpos hfits]
    dsimp only
    rw [sleepsFor_iff]
    · -- the low 32 bits tell the sum from its successor
      unfold Timespec.ceilMs
      omega
    · unfold Timespec.ceilMs half64 half32 at *
      omega
  · rw [signed_of_le (by omega)]
    refine iff_of_false nofun ?_
    rintro ⟨-, hsmall⟩
    unfold half64 half32 at *
    omega

/-- With the hook on, `sleep` is right if its product fits in an `unsigned int`, `usleep` if it is
asked for whole milliseconds, and `nanosleep` if it is asked for whole milliseconds that fit in an
`int`. -/
theorem sleep_never_early (c : Sleeper) (hhook : c.hookEnable = true) :
    (∀ seconds < 4294967296,
      SleepsFor c (seconds * 1000) (c.sleep seconds) ↔ seconds * 1000 < 4294967296) ∧
    (∀ usec < 4294967296,
      SleepsFor c ((usec + 999) / 1000) (c.usleep usec) ↔ usec % 1000 = 0) ∧
    ∀ req : Timespec, req.Normal → req.tv_sec * 1000 < half64 →
      (SleepsFor c req.ceilMs (c.nanosleep req) ↔
        req.tv_nsec % 1000000 = 0 ∧ req.tv_sec * 1000 + req.tv_nsec / 1000000 < half32) :=
  ⟨fun _ h => sleepsFor_sleep_iff hhook h, fun _ h => sleepsFor_usleep_iff hhook h,
    fun _ h hsec => sleepsFor_nanosleep_iff hhook h hsec⟩

/-- Fiber 3 calls, one second after the start of the clock. -/
def oneSecondIn : Sleeper where
  hookEnable := true
  fiber := 3
  tm := .new 0
  addr := 1
  clock := ⟨1, 0⟩
  now := 1000
  normal := ⟨by decide, by decide, by decide⟩
  reading := rfl

theorem sleep_never_early_one_second :
    SleepsFor oneSecondIn 7000 (oneSecondIn.sleep 7) ∧
    SleepsFor oneSecondIn 2 (oneSecondIn.usleep 2000) ∧
    SleepsFor oneSecondIn 2005 (oneSecondIn.nanosleep ⟨2, 5000000⟩) :=
  ⟨((sleep_never_early oneSecondIn rfl).1 7 (by decide)).mpr (by decide),
    ((sleep_never_early oneSecondIn rfl).2.1 2000 (by decide)).mpr (by decide),
    ((sleep_never_early oneSecondIn rfl).2.2 ⟨2, 5000000⟩ ⟨by decide, by decide, by decide⟩
      (by decide)).mpr (by decide)⟩

/-- Fifty days by `sleep`, half a millisecond by `usleep`, 25 days by `nanosleep`. -/
theorem sleep_early :
    (∃ tm t, oneSecondIn.sleep 4320000 = .timed tm true ∧ tm.heap 1 = some t ∧
      t.next = 1000 + 25032704) ∧
    (∃ tm t, oneSecondIn.usleep 500 = .timed tm true ∧ tm.heap 1 = some t ∧ t.next = 1000) ∧
    (∃ tm t, oneSecondIn.nanosleep ⟨2160000, 0⟩ = .timed tm true ∧ tm.heap 1 = some t ∧
      t.ms = 18446744071574584320) ∧
    ¬SleepsFor oneSecondIn 4320000000 (oneSecondIn.sleep 4320000) ∧
    ¬SleepsFor oneSecondIn 1 (oneSecondIn.usleep 500) ∧
    ¬SleepsFor oneSecondIn 2160000000 (oneSecondIn.nanosleep ⟨2160000, 0⟩) := by
  have hsleep : ¬SleepsFor oneSecondIn 4320000000 (oneSecondIn.sleep 4320000) := fun h =>
    absurd ((@sleepsFor_sleep_iff oneSecondIn rfl 4320000 (by decide)).mp h) (by decide)
  have husleep : ¬SleepsFor oneSecondIn 1 (oneSecondIn.usleep 500) := fun h =>
    absurd ((@sleepsFor_usleep_iff oneSecondIn rfl 500 (by decide)).mp h) (by decide)
  have hnano : ¬SleepsFor oneSecondIn 2160000000 (oneSecondIn.nanosleep ⟨2160000, 0⟩) :=
    fun h => absurd ((@sleepsFor_nanosleep_iff oneSecondIn rfl ⟨2160000, 0⟩
      ⟨by decide, by decide, by decide⟩ (by decide)).mp h) (by decide)
  exact ⟨⟨_, _, rfl, rfl, rfl⟩, ⟨_, _, rfl, rfl, rfl⟩, ⟨_, _, rfl, rfl, rfl⟩, hsleep, husleep,
    hnano⟩

end Gxh.Hook
