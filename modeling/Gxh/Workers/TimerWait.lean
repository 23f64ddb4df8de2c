import Gxh.Timer.Armed
import Gxh.Workers.Steps

/-!
# No pool sleeps through a timer

A worker that blocks in `epoll_wait` wakes up no later than the first deadline it read. A
timer inserted at the front after that is announced, unless `m_tickled` says that an
announcement is already on its way or no worker counts as idle.

* `SleepsThrough` — every worker is blocked past the deadline of some timer, and nothing is
  on its way to wake one;
* `ShortWaits` — the bound on deadlines under which `epoll_wait` is given a timeout that
  fits its `int` argument;
* `Guarded` — the invariant: either the pool stirs, or no announcement is owed and every
  timer has a worker that wakes up for it.
-/

namespace Gxh.Workers

open TimerManager

variable {n m : Nat} {s s' : Pool n m} {a : PoolAct n m}

/-- Blocked in `epoll_wait` until after `deadline`. -/
def Pc.wakesAfter (deadline : Nat) : Pc → Bool
  | .inWait (.till wake) => decide (deadline < wake)
  | .inWait .forever => true
  | _ => false

/-- A pending timer is due before every worker wakes up, all of them being blocked, and the
pipe is empty and no thread is between the insertion of a timer and its tickle. -/
def SleepsThrough (s : Pool n m) : Prop :=
  s.pipe = 0 ∧ ¬ Tickling Caller.isTimer s ∧
    ∃ a ∈ s.tm.timers, ∀ w, (s.pc w).wakesAfter (s.tm.next a) = true

/-- Timers are armed for less than `2^31` ms from now, and their deadlines do not wrap. -/
def ShortWaits (s : Pool n m) : PoolAct n m → Prop
  | .addTimer _ ms _ _ => Short s.clock (s.clock + ms)
  | .refresh _ a => ∀ t, a ∈ s.tm.timers → s.tm.heap a = some t → Short s.clock (s.clock + t.ms)
  | .reset _ a ms fromNow => ∀ t, a ∈ s.tm.timers → s.tm.heap a = some t →
      Short s.clock (resetStart t s.clock fromNow + ms)
  | .listExpired _ _ now addr => ∀ a ∈ s.tm.expired now addr, ∀ t, s.tm.heap a = some t →
      t.recurring = true → Short s.clock (now + t.ms)
  | _ => True

/-! ## Deadlines -/

/-- Clock readings in use, and pending and future timers, are all of the past. -/
structure Timed (s : Pool n m) : Prop where
  wf : s.tm.WF
  armed : s.tm.AllArmed s.clock
  adding : ∀ t timer, .insertTimer timer ∈ s.todo t → timer.Armed s.clock
  read : ∀ w items now, s.pc w = .clocked items now ∨ s.pc w = .peeked items now → now ≤ s.clock

theorem clock_step (hs : poolStep s a = some s') : s.clock ≤ s'.clock := by
  cases a with
  | tick d =>
      obtain ⟨-, rfl⟩ := when_eq_some.mp hs
      exact Nat.le_add_right _ _
  | micro t op rest | handleEvent w e items | cancelEvent t e | stop3 w now =>
      obtain ⟨-, rfl⟩ := when_eq_some.mp hs
      simp [Pool.setPc]
  | drain w items =>
      obtain ⟨-, rfl⟩ := when_eq_some.mp hs
      split <;> exact Nat.le_refl _
  | _ =>
      obtain ⟨-, rfl⟩ := when_eq_some.mp hs
      exact Nat.le_refl _

/-- A clock reading is taken from the clock. -/
theorem read_step (h : ∀ w items now, s.pc w = .clocked items now ∨ s.pc w = .peeked items now →
      now ≤ s.clock) (hs : poolStep s a = some s') (w : Fin (n + 1)) (items : List EpollItem)
    (now : Nat) (hw : s'.pc w = .clocked items now ∨ s'.pc w = .peeked items now) :
    now ≤ s'.clock := by
  have hclock := clock_step hs
  rcases poolStep_pc hs with hpc | ⟨u, p, ha, hpc, he⟩
  · rw [hpc] at hw
    exact (h w items now hw).trans hclock
  · by_cases hwu : w = u
    · subst hwu
      rw [hpc, Function.update_self] at hw
      rcases hw with rfl | rfl
      · -- `readClock`, or a worker that already had the reading
        cases a <;> simp only [PoolAct.worker, Option.some.injEq, reduceCtorEq] at ha <;> subst ha
        case readClock u items' =>
          obtain ⟨-, rfl⟩ := when_eq_some.mp hs
          have := congrFun hpc u
          simp only [Pool.setPc, Function.update_self, Pc.clocked.injEq] at this
          exact this.2 ▸ Nat.le_refl _
        all_goals
          generalize hq : s.pc _ = q at he
          cases he
          have hready := (when_eq_some.mp hs).1
          simp [Pool.ready, hq] at hready
      · generalize hq : s.pc w = q at he
        cases he
        exact (h w items now (.inl hq)).trans hclock
    · rw [hpc, Function.update_of_ne hwu] at hw
      exact (h w items now hw).trans hclock

theorem notMem_of_heap_none {tm : TimerManager CbId} (hwf : tm.WF) {addr : Nat}
    (h : tm.heap addr = none) : addr ∉ tm.timers := by
  intro hmem
  obtain ⟨t, ht⟩ := hwf.live addr hmem
  rw [h] at ht
  cases ht

theorem timed_step (h : Timed s) (hg : ShortWaits s a) (hs : poolStep s a = some s') :
    Timed s' := by
  have hclock := clock_step hs
  have htm : s'.tm.WF ∧ s'.tm.AllArmed s.clock := by
    rcases tm_step hs with heq | heq | ⟨w, items, now, addr, rfl, hpc, heq, -⟩ |
        ⟨t, addr, timer, rest, rfl, hnew, htodo, heq, -⟩ | ⟨t, addr, rfl, heq⟩ |
        ⟨t, addr, rfl, heq⟩ | ⟨t, addr, ms, fromNow, rfl, heq, -⟩ <;> rw [heq]
    · exact ⟨h.wf, h.armed⟩
    · exact ⟨h.wf.getNextTimer _, h.armed⟩
    · exact ⟨h.wf.listExpiredCb now addr,
        h.armed.listExpiredCb h.wf (h.read w items now (.inr hpc)) hg⟩
    · have harmed := h.adding t timer (by rw [htodo]; exact List.mem_cons_self)
      exact ⟨h.wf.addTimer timer (notMem_of_heap_none h.wf hnew), h.armed.put harmed⟩
    · exact ⟨h.wf.cancel addr, h.armed.cancel h.wf addr⟩
    · exact ⟨h.wf.refresh addr _, h.armed.refresh h.wf hg⟩
    · exact ⟨h.wf.reset addr ms fromNow _, h.armed.reset h.wf hg⟩
  refine ⟨htm.1, htm.2.mono hclock, ?_, read_step h.read hs⟩
  intro t timer hmem
  rcases mem_todo_step hs hmem with hold | hctl | ⟨hins, -⟩ | ⟨-, -, hins | ⟨ms, cb, r, rfl, hx⟩⟩
  · exact (h.adding t timer hold).mono hclock
  · simp [Micro.isControl] at hctl
  · simp [Micro.isInsert] at hins
  · simp [Micro.isInsert] at hins
  · cases hx
    have harmed : (Timer.new s.clock ms (some cb) r).Armed s.clock :=
      Timer.armed_of_start (Nat.le_refl _) rfl hg
    exact harmed.mono hclock

/-! ## Announcements -/

/-- Places from which the worker reads the timers before it can block, or never blocks again. -/
def Pc.alert : Pc → Bool
  | .stop2 _ | .stop3 _ => false
  | .entering sleep | .inWait sleep => sleep == .zero
  | _ => true

theorem edge_alert (p p' : Pc) (he : Edge p p') (hp : p.alert = true) (hne : p ≠ .stop1) :
    p'.alert = true := by
  cases he <;> simp_all [Pc.alert]

/-- About to block, or blocked, until `wake`. -/
def Pc.waitsTill (wake : Nat) (p : Pc) : Bool :=
  p == .entering (.till wake) || p == .inWait (.till wake)

theorem waitsTill_iff {wake : Nat} {p : Pc} :
    p.waitsTill wake = true ↔ p = .entering (.till wake) ∨ p = .inWait (.till wake) := by
  simp [Pc.waitsTill]

theorem edge_waitsTill (wake : Nat) (p p' : Pc) (he : Edge p p') (hp : p.waitsTill wake = true)
    (hne : p ≠ .inWait (.till wake)) : p'.waitsTill wake = true := by
  rcases waitsTill_iff.mp hp with rfl | rfl
  · cases he
    simp [Pc.waitsTill]
  · exact absurd rfl hne

/-- No announcement is owed, and every timer has a worker that wakes up for it. -/
def Quiet (s : Pool n m) : Prop :=
  s.tm.tickled = false ∧
    ∀ a ∈ s.tm.timers, ∃ w wake, (s.pc w).waitsTill wake = true ∧ wake ≤ s.tm.next a

/-- The pool is going to read the timers again, or need not. -/
def Guarded (s : Pool n m) : Prop := Stirs Caller.isTimer Pc.alert s ∨ Quiet s

/-- The timeout for a remaining time that fits an `int`. -/
theorem ofTimeout_of_lt (now : Nat) {rest : Nat} (hpos : 0 < rest) (hlt : rest < 2147483648) :
    ∃ wake, Sleep.ofTimeout now (epollTimeout rest) = .till wake ∧ wake ≤ now + rest := by
  have hmax : rest ≠ max64 := by
    unfold max64 size64
    omega
  have htimeout : epollTimeout rest = ((min rest 5000 : Nat) : Int) := by
    rw [epollTimeout, if_pos hmax, toInt_of_lt hlt]
    omega
  refine ⟨now + min rest 5000, ?_, by omega⟩
  rw [htimeout, Sleep.ofTimeout, if_neg (by omega), if_neg (by omega), Int.toNat_natCast]

/-- After `getNextTimer` the worker itself answers for every timer. -/
theorem guarded_stop1 (h : Timed s) {w : Fin (n + 1)} : Guarded (s.stop1 w) := by
  cases hl : s.tm.timers with
  | nil =>
      refine .inr ⟨rfl, fun a ha => ?_⟩
      have ha' : a ∈ s.tm.timers := ha
      simp [hl] at ha'
  | cons front rest =>
      obtain ⟨t, ht⟩ := h.wf.live front (by simp [hl])
      have hshort := (h.armed front (by simp [hl]) t ht).short.1
      have hnext : s.tm.next front = t.next := by simp [TimerManager.next, ht]
      by_cases hdue : s.clock ≥ s.tm.next front
      · -- `epoll_wait` returns at once
        left
        refine .inr (.inr (.inl ⟨w, ?_⟩))
        have h0 : (0 : Nat) ≠ max64 := by decide
        simp only [Pool.stop1, Pool.setPc, getNextTimer, hl, if_pos hdue, Function.update_self,
          if_neg h0]
        rfl
      -- the wait ends no later than the front timer is due, so no later than any other one
      · have hlt : s.tm.next front - s.clock < 2147483648 := by omega
        obtain ⟨wake, hwake, hle⟩ := ofTimeout_of_lt s.clock (by omega) hlt
        have hmax : s.tm.next front - s.clock ≠ max64 := by
          unfold max64 size64
          omega
        have hpc : (s.stop1 w).pc w = .entering (.till wake) := by
          simp only [Pool.stop1, Pool.setPc, getNextTimer, hl, if_neg hdue,
            Function.update_self, if_neg hmax, hwake]
        refine .inr ⟨rfl, fun a ha => ⟨w, wake, ?_, ?_⟩⟩
        · rw [hpc]
          simp [Pc.waitsTill]
        · calc wake ≤ s.tm.next front := by omega
            _ ≤ s.tm.next a := h.wf.front_le hl ha

/-- A `tickle` that finds no idle worker finds all of them on their way to `stopping`. -/
theorem stirs_of_not_idle (hc : Counted s) (h0 : s.idleThreadCount = 0) {t : Thread n m}
    {c : Caller} {rest : List Micro} :
    Stirs Caller.isTimer Pc.alert (s.micro t (.tickle c) rest) := by
  refine .inr (.inr (.inl ⟨0, ?_⟩))
  have hidle := hc.not_idle h0 0
  rw [Pool.micro_pc]
  cases hp : s.pc 0 <;> simp_all [Pc.idle, Pc.alert]

/-- Without an announcement, a step that is not a `getNextTimer` of a worker leaves no timer
before all the old ones. -/
theorem later_step (h : Timed s) (hg : ShortWaits s a) (hs : poolStep s a = some s')
    (htick : s.tm.tickled = false) :
    Stirs Caller.isTimer Pc.alert s' ∨ Later s.tm s'.tm := by
  rcases tm_step hs with heq | heq | ⟨w, items, now, addr, rfl, -, -, hpc⟩ |
      ⟨t, addr, timer, rest, rfl, hnew, -, heq, hfront⟩ | ⟨t, addr, rfl, heq⟩ |
      ⟨t, addr, rfl, heq⟩ | ⟨t, addr, ms, fromNow, rfl, heq, hfront⟩
  · exact .inr (.of_eq (by rw [heq]; exact htick) (by rw [heq]) (by rw [heq]))
  · exact .inr (.of_eq (by rw [heq]; rfl) (by rw [heq]; rfl) (by rw [heq]; rfl))
  · exact .inl (.inr (.inr (.inl ⟨w, by rw [hpc]; rfl⟩)))
  · cases hf : (s.tm.addTimer addr timer).2 with
    | true => exact .inl (.inr (.inl (hfront hf)))
    | false =>
        right
        rw [heq]
        exact later_addTimer h.wf htick (notMem_of_heap_none h.wf hnew) hf
  · right
    rw [heq]
    exact later_cancel h.wf htick addr
  · right
    rw [heq]
    exact later_refresh h.wf h.armed htick hg
  · cases hf : (s.tm.reset addr ms fromNow s.clock).2.2 with
    | true => exact .inl (.inr (.inl (hfront hf)))
    | false =>
        right
        rw [heq]
        exact later_reset h.wf htick hf

/-- A worker that waits keeps waiting for the same time, or wakes up. -/
theorem waitsTill_step (hs : poolStep s a = some s') {w : Fin (n + 1)} {wake : Nat}
    (hw : (s.pc w).waitsTill wake = true) :
    (s'.pc w).waitsTill wake = true ∨ Stirs Caller.isTimer Pc.alert s' := by
  rcases poolStep_keeps hs (edge_waitsTill wake) hw with h1 | ⟨ha, hpc⟩
  · exact .inl h1
  · rcases poolStep_pc hs with hsame | ⟨u, p, ha', hmove, he⟩
    · exact .inl (by rw [hsame]; exact hw)
    · have hwu : w = u := Option.some.inj (ha.symm.trans ha')
      subst hwu
      rw [hpc] at he
      cases he
      refine .inr (.inr (.inr (.inl ⟨w, ?_⟩)))
      rw [hmove, Function.update_self]
      rfl

theorem guarded_step (hc : Counted s) (ht : Timed s) (h : Guarded s) (hg : ShortWaits s a)
    (hs : poolStep s a = some s') : Guarded s' := by
  rcases h with hstirs | ⟨htick, hcover⟩
  · rcases stirs_step hs edge_alert (fun _ => rfl) hstirs with h1 | ⟨w, ha, hpc⟩ |
        ⟨t, c, rest, rfl, h0⟩
    · exact .inl h1
    · have hact := eq_stop1_of_worker hs ha hpc
      subst hact
      obtain ⟨-, rfl⟩ := when_eq_some.mp hs
      exact guarded_stop1 ht
    · obtain ⟨-, rfl⟩ := when_eq_some.mp hs
      exact .inl (stirs_of_not_idle hc h0)
  · rcases later_step ht hg hs htick with h1 | hlater
    · exact .inl h1
    · by_cases hst : Stirs Caller.isTimer Pc.alert s'
      · exact .inl hst
      · refine .inr ⟨hlater.tickled, fun x hx => ?_⟩
        obtain ⟨b, hb, hle⟩ := hlater.after x hx
        obtain ⟨w, wake, hw, hwake⟩ := hcover b hb
        refine ⟨w, wake, (waitsTill_step hs hw).resolve_right hst, ?_⟩
        omega

structure TimerWatch (s : Pool n m) : Prop where
  counted : Counted s
  timed : Timed s
  guarded : Guarded s

theorem timerWatch_inductive : (poolSys n m).Inductive ShortWaits TimerWatch where
  init := by
    rintro s ⟨now, hlt, rfl⟩
    refine ⟨(counted_inductive ShortWaits).init _ ⟨now, hlt, rfl⟩, ?_, ?_⟩
    · refine ⟨new_wf now, ?_, ?_, ?_⟩
      · intro a ha
        cases ha
      · intro t timer hmem
        cases hmem
      · intro w items r hw
        rcases hw with hw | hw <;> cases hw
    · exact .inl (.inr (.inr (.inl ⟨0, rfl⟩)))
  step := fun _ _ _ h hg hs => ⟨poolStep_counted h.counted hs, timed_step h.timed hg hs,
    guarded_step h.counted h.timed h.guarded hg hs⟩

/-- With deadlines less than `2^31` ms away, no reachable state has every worker blocked past
a pending timer with nothing on its way to wake one. -/
theorem no_sleep_through_timer {s : Pool n m} (h : (poolSys n m).Reaches ShortWaits s) :
    ¬ SleepsThrough s := by
  have hinv := timerWatch_inductive.invariant h
  rintro ⟨hpipe, htick, a, ha, hall⟩
  rcases hinv.guarded with (h1 | h1 | ⟨w, hw⟩ | ⟨w, hw⟩) | ⟨-, hcover⟩
  · omega
  · exact htick h1
  · have := hall w
    cases hp : s.pc w <;> simp_all [Pc.alert, Pc.wakesAfter]
  · -- a blocked worker is inside its idle fiber
    have hin : (s.pc w).inside = true := by
      have := hall w
      cases hp : s.pc w <;> simp_all [Pc.inside, Pc.wakesAfter]
    rw [hinv.counted.inside w hin] at hw
    cases hw
  · obtain ⟨w, wake, hw, hle⟩ := hcover a ha
    have hafter := hall w
    rcases waitsTill_iff.mp hw with hp | hp
    · simp [hp, Pc.wakesAfter] at hafter
    · simp only [hp, Pc.wakesAfter, decide_eq_true_eq] at hafter
      omega

/-- A test that implies the bound on deadlines. -/
def shortWaitsTest (s : Pool n m) : PoolAct n m → Bool
  | .addTimer _ ms _ _ => decide (ms < 2147483648 ∧ s.clock + ms < size64)
  | .refresh _ _ | .reset _ _ _ _ | .listExpired _ _ _ _ => false
  | _ => true

theorem shortWaits_of_test (s : Pool n m) (a : PoolAct n m) (h : shortWaitsTest s a = true) :
    ShortWaits s a := by
  cases a with
  | addTimer t ms cb recurring =>
      simp only [shortWaitsTest, decide_eq_true_eq] at h
      exact ⟨by omega, h.2⟩
  | refresh | reset | listExpired => simp [shortWaitsTest] at h
  | _ => trivial

/-- Worker `w` blocks for five seconds, thread `t` inserts a timer for 50 ms and has written
the pipe. -/
def frontTrace (w : Fin (n + 1)) (t : Fin m) : List (PoolAct n m) :=
  [.scan w, .enterIdle w, .stop1 w, .stop2 w 1000, .stop3 w 1000, .enterWait w (.till 6000),
    .addTimer (.inr t) 50 7 false, .insertTimer (.inr t) 3 (.new 1000 50 (some 7) false) [],
    .micro (.inr t) (.tickle .timer) [], .micro (.inr t) (.writePipe .timer) []]

/-- After the insertion the worker is blocked until long after the deadline, and is not
sleeping through it only because of the byte in the pipe. -/
theorem no_sleep_through_timer_front :
    ∃ s : Pool 0 1, (poolSys 0 1).Reaches ShortWaits s ∧ s.tm.timers = [3] ∧
      s.pc 0 = .inWait (.till 6000) ∧ s.tm.next 3 = 1050 ∧ ¬ SleepsThrough s := by
  have hrun : ((poolSys 0 1).exec shortWaitsTest (.start 1000) (frontTrace 0 0)).map
      (fun s => decide (s.tm.timers = [3] ∧ s.pc 0 = .inWait (.till 6000) ∧ s.tm.next 3 = 1050))
      = some true := by
    decide +kernel
  obtain ⟨s, hs, hp⟩ := TSys.exists_reaches (M := poolSys 0 1) shortWaits_of_test
    ⟨1000, by decide, rfl⟩ hrun
  obtain ⟨h1, h2, h3⟩ := of_decide_eq_true hp
  exact ⟨s, hs, h1, h2, h3, no_sleep_through_timer hs⟩

end Gxh.Workers
