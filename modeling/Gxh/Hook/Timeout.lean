import Gxh.Hook.DoIo

/-!
# Timeouts of hooked calls

`do_io` from its label `retry` on and `connect_with_timeout` from the `EINPROGRESS` of
`connect_f` on (`hook.cc`), for any number of fibers, with the workers that expire the
condition timers and run their callbacks. The tests before these places are the subject of
`DoIo`; here the timeout of a call is any 64-bit number.

* A step is one access to something the threads share: the timer set, the `timer_info`, the
  context of the descriptor.
* A timer keeps its number for good, so that `Stage` says how far its callback has come.
* `LostTimeout` — a fiber is parked with its event registered, and the callback of its timer
  has completed;
* `InTime` — the condition on a step under which it does not lead there.
-/

namespace Gxh.Hook

open IOManager

/-- The function that waits. -/
inductive Waiter
  | doIo (fn : HookFun)
  | connect
  deriving DecidableEq, Repr

/-- The event it waits for. -/
def Waiter.event : Waiter → Event
  | .doIo fn => fn.event
  | .connect => .WRITE

/-- One invocation, with its `timer_info`. -/
structure TimedCall where
  waiter : Waiter
  fd : Nat
  timeout : Nat
  tinfo : Nat
  deriving DecidableEq, Repr

/-- Where a fiber stands. `timer` is the local variable of that name. -/
inductive TimedPc
  | out
  /-- at `retry` -/
  | attempt (c : TimedCall)
  /-- after `EAGAIN` or `EINPROGRESS`, at `addConditionTimer` -/
  | blocked (c : TimedCall)
  /-- at `addEvent` -/
  | armed (c : TimedCall) (timer : Option Nat)
  /-- `addEvent` has returned 0; the fiber does nothing but yield -/
  | parked (c : TimedCall) (timer : Option Nat)
  /-- `addEvent` has failed, at `timer->cancel()` -/
  | failed (c : TimedCall) (timer : Option Nat)
  /-- `yield` has returned, at `timer->cancel()` -/
  | resumed (c : TimedCall) (timer : Option Nat)
  /-- at the test of `tinfo->cancelled` -/
  | woken (c : TimedCall)
  deriving DecidableEq, Repr

/-- How far a condition timer has come. -/
inductive Stage
  /-- in the timer set -/
  | armed
  /-- cancelled while in the set -/
  | cancelled
  /-- taken by `listExpiredCb` and scheduled, callback not begun -/
  | expired
  /-- the callback has locked `winfo` and read `cancelled == 0` -/
  | checked
  /-- `cancelled = ETIMEDOUT` done, at `cancelEvent` -/
  | marked
  /-- the callback has returned -/
  | completed
  deriving DecidableEq, Repr

/-- A condition timer with what its callback captures. -/
structure CondTimer where
  tinfo : Nat
  fd : Nat
  event : Event
  next : Nat
  stage : Stage
  deriving DecidableEq, Repr

structure TimedState where
  iom : Dispatch
  clock : Nat
  pc : FiberId → TimedPc
  /-- the fiber's own reference to a `timer_info` exists -/
  owned : Nat → Bool
  /-- `timer_info::cancelled` is set -/
  cancelled : Nat → Bool
  nextTinfo : Nat
  timers : Nat → Option CondTimer
  nextTimer : Nat

namespace TimedState

def start (now : Nat) : TimedState where
  iom := .start
  clock := now
  pc := fun _ => .out
  owned := fun _ => false
  cancelled := fun _ => false
  nextTinfo := 0
  timers := fun _ => none
  nextTimer := 0

def setPc (s : TimedState) (f : FiberId) (p : TimedPc) : TimedState :=
  { s with pc := Function.update s.pc f p }

def stage (s : TimedState) (i : Nat) : Option Stage := (s.timers i).map CondTimer.stage

def setStage (s : TimedState) (i : Nat) (x : Stage) : TimedState :=
  { s with timers := Function.update s.timers i ((s.timers i).map fun t => { t with stage := x }) }

/-- A new `timer_info`, owned by the fiber that goes to `p`. -/
def newTinfo (s : TimedState) (f : FiberId) (p : TimedPc) : TimedState :=
  { s.setPc f p with
    owned := Function.update s.owned s.nextTinfo true
    cancelled := Function.update s.cancelled s.nextTinfo false
    nextTinfo := s.nextTinfo + 1 }

/-- The return of the function drops the fiber's reference. -/
def leave (s : TimedState) (f : FiberId) (c : TimedCall) : TimedState :=
  { s.setPc f .out with owned := Function.update s.owned c.tinfo false }

/-- `winfo.lock()`: the fiber or a callback under way still holds the object. -/
def locks (s : TimedState) (k : Nat) : Bool :=
  s.owned k || (List.range s.nextTimer).any fun j =>
    (s.timers j).any fun t => t.tinfo == k && (t.stage == .checked || t.stage == .marked)

/-- `addConditionTimer`, unless the timeout is `-1`. -/
def arm (s : TimedState) (f : FiberId) (c : TimedCall) : TimedState :=
  if c.timeout = max64 then s.setPc f (.armed c none)
  else
    { s.setPc f (.armed c (some s.nextTimer)) with
      timers := Function.update s.timers s.nextTimer
        (some ⟨c.tinfo, c.fd, c.waiter.event, wrap64 (s.clock + c.timeout), .armed⟩)
      nextTimer := s.nextTimer + 1 }

/-- `addEvent(fd, event)` with the running fiber. -/
def addEvent (s : TimedState) (f : FiberId) (c : TimedCall) (timer : Option Nat) (ok : Bool) :
    TimedState :=
  let (rt, iom) := s.iom.addEvent c.fd c.waiter.event (Dispatch.eventContext (some 0) none f) ok
  let s := { s with iom }
  if iom.aborted.isSome then s
  else s.setPc f (if rt = 0 then .parked c timer else .failed c timer)

/-- `timer->cancel()`, which does nothing to a timer that has expired. -/
def cancelTimer (s : TimedState) : Option Nat → TimedState
  | none => s
  | some i => if s.stage i = some .armed then s.setStage i .cancelled else s

/-- The callback up to the test: `if(!t || t->cancelled) return`. -/
def check (s : TimedState) (i : Nat) (k : Nat) : TimedState :=
  s.setStage i (if s.locks k && !s.cancelled k then .checked else .completed)

/-- What follows the test of `tinfo->cancelled`: the end of the call, or `goto retry`. -/
def test (s : TimedState) (f : FiberId) (c : TimedCall) : TimedState :=
  if s.cancelled c.tinfo then s.leave f c
  else
    match c.waiter with
    | .doIo _ => s.setPc f (.attempt c)
    | .connect => s.leave f c

end TimedState

inductive TimedAct
  | tick (d : Nat)
  -- the fibers
  | doIo (f : FiberId) (fn : HookFun) (fd timeout : Nat)
  | connect (f : FiberId) (fd timeout : Nat)
  | again (f : FiberId) (c : TimedCall)
  | done (f : FiberId) (c : TimedCall)
  | arm (f : FiberId) (c : TimedCall)
  | addEvent (f : FiberId) (c : TimedCall) (timer : Option Nat) (ok : Bool)
  | giveUp (f : FiberId) (c : TimedCall) (timer : Option Nat)
  | resume (f : FiberId) (c : TimedCall) (timer : Option Nat)
  | cancelTimer (f : FiberId) (c : TimedCall) (timer : Option Nat)
  | test (f : FiberId) (c : TimedCall)
  -- the workers
  | expire (i : Nat) (t : CondTimer) (rollover : Bool)
  | check (i : Nat) (t : CondTimer)
  | mark (i : Nat) (t : CondTimer)
  | cancelEvent (i : Nat) (t : CondTimer) (ok : Bool)
  | io (a : DispatchAct)
  deriving DecidableEq, Repr

/-- Other code that adds an event for the running fiber is not inside one of the calls. -/
def TimedState.foreign (s : TimedState) : DispatchAct → Bool
  | .addEvent _ _ _ none current _ => decide (s.pc current = .out)
  | _ => true

/-- One step of a live process. -/
def TimedState.act (s : TimedState) : TimedAct → Option TimedState
  | .tick d => some { s with clock := s.clock + d }
  | .doIo f fn fd timeout =>
      when (s.pc f = .out) (s.newTinfo f (.attempt ⟨.doIo fn, fd, timeout, s.nextTinfo⟩))
  | .connect f fd timeout =>
      when (s.pc f = .out) (s.newTinfo f (.blocked ⟨.connect, fd, timeout, s.nextTinfo⟩))
  | .again f c => when (s.pc f = .attempt c) (s.setPc f (.blocked c))
  | .done f c => when (s.pc f = .attempt c) (s.leave f c)
  | .arm f c => when (s.pc f = .blocked c) (s.arm f c)
  | .addEvent f c timer ok => when (s.pc f = .armed c timer) (s.addEvent f c timer ok)
  | .giveUp f c timer => when (s.pc f = .failed c timer) ((s.cancelTimer timer).leave f c)
  | .resume f c timer =>
      when (s.pc f = .parked c timer ∧ HookState.wakeup f ∈ s.iom.scheduled)
        { s.setPc f (.resumed c timer) with
          iom := { s.iom with scheduled := s.iom.scheduled.erase (HookState.wakeup f) } }
  | .cancelTimer f c timer =>
      when (s.pc f = .resumed c timer) ((s.cancelTimer timer).setPc f (.woken c))
  | .test f c => when (s.pc f = .woken c) (s.test f c)
  | .expire i t rollover =>
      when (s.timers i = some t ∧ t.stage = .armed ∧ (rollover = true ∨ t.next ≤ s.clock))
        (s.setStage i .expired)
  | .check i t => when (s.timers i = some t ∧ t.stage = .expired) (s.check i t.tinfo)
  | .mark i t =>
      when (s.timers i = some t ∧ t.stage = .checked)
        { s.setStage i .marked with cancelled := Function.update s.cancelled t.tinfo true }
  | .cancelEvent i t ok =>
      when (s.timers i = some t ∧ t.stage = .marked)
        { s.setStage i .completed with iom := (s.iom.cancelEvent t.fd t.event ok).2 }
  | .io a =>
      if s.foreign a then (dispatchStep s.iom a).map fun iom => { s with iom } else none

/-- After a failed assertion there is no step. -/
def timedStep (s : TimedState) (a : TimedAct) : Option TimedState :=
  if s.iom.aborted.isSome then none else s.act a

def timedSys : TSys TimedState TimedAct where
  init := fun s => ∃ now, s = .start now
  step := timedStep

/-! ## The property -/

/-- The event of the call is registered for the fiber. -/
def TimedState.waits (s : TimedState) (f : FiberId) (c : TimedCall) : Prop :=
  ∃ x, s.iom.registered c.fd c.waiter.event = some x ∧ x.fiber = some f

def LostTimeout (s : TimedState) : Prop :=
  ∃ f c i, s.pc f = .parked c (some i) ∧ s.waits f c ∧ s.stage i = some .completed

/-- What a timeout needs to arrive: `addEvent` comes before the end of the callback of the
call's timer, or fails; the callback does not find `cancelled` set, by a callback left over
from an earlier round of the call, while the fiber waits; and `cancelEvent` gets its change
through `epoll_ctl` while the fiber waits. -/
def InTime (s : TimedState) : TimedAct → Prop
  | .addEvent f c (some i) ok => s.stage i = some .completed →
      (s.iom.addEvent c.fd c.waiter.event (Dispatch.eventContext (some 0) none f) ok).1 ≠ 0 ∨
      (s.iom.ctx c.fd).events.has c.waiter.event = true
  | .check i t => s.cancelled t.tinfo = true →
      ∀ f c, s.pc f = .parked c (some i) → ¬ s.waits f c
  | .cancelEvent i t ok => (ok = true ∧ (s.iom.interest t.fd).isSome = true) ∨
      ∀ f c, s.pc f = .parked c (some i) → ¬ s.waits f c
  | _ => True

/-! ## What the steps keep -/

/-- The call a fiber is in. -/
def TimedPc.call : TimedPc → Option TimedCall
  | .out => none
  | .attempt c | .blocked c | .armed c _ | .parked c _ | .failed c _ | .resumed c _ | .woken c =>
      some c

/-- The timer a fiber refers to. -/
def TimedPc.timer : TimedPc → Option (TimedCall × Nat)
  | .armed c (some i) | .parked c (some i) | .failed c (some i) | .resumed c (some i) => some (c, i)
  | _ => none

/-- Each call has a `timer_info` of its own, alive while the call lasts. -/
structure OwnsTinfo (s : TimedState) : Prop where
  owned : ∀ f c, (s.pc f).call = some c → s.owned c.tinfo = true ∧ c.tinfo < s.nextTinfo
  own : ∀ f g c c', (s.pc f).call = some c → (s.pc g).call = some c' → c.tinfo = c'.tinfo → f = g

/-- The callback captures what the call waits for. -/
def CondTimer.isOf (t : CondTimer) (c : TimedCall) : Prop :=
  t.tinfo = c.tinfo ∧ t.fd = c.fd ∧ t.event = c.waiter.event

/-- The timer of a call is its own, and timers are numbered in order. -/
structure OwnsTimer (s : TimedState) : Prop where
  timer : ∀ f c i, (s.pc f).timer = some (c, i) → ∃ t, s.timers i = some t ∧ t.isOf c
  fresh : ∀ i, s.nextTimer ≤ i → s.timers i = none

variable {s s' : TimedState} {a : TimedAct}

namespace OwnsTinfo

/-- A fiber moves on inside its call, or nothing of this changes. -/
theorem move (h : OwnsTinfo s) {f : FiberId} {p : TimedPc} (hpc : s'.pc = Function.update s.pc f p)
    (hcall : p.call = (s.pc f).call) (howned : s'.owned = s.owned)
    (hnext : s'.nextTinfo = s.nextTinfo) : OwnsTinfo s' := by
  have hsame : ∀ g, (s'.pc g).call = (s.pc g).call := by
    intro g
    rw [hpc]
    by_cases hg : g = f
    · subst hg
      rw [Function.update_self, hcall]
    · rw [Function.update_of_ne hg]
  refine ⟨?_, ?_⟩
  · intro g c hc
    rw [howned, hnext]
    exact h.owned g c (hsame g ▸ hc)
  · intro f g c c' hc hc'
    exact h.own f g c c' (hsame f ▸ hc) (hsame g ▸ hc')

theorem congr (h : OwnsTinfo s) (hpc : s'.pc = s.pc) (howned : s'.owned = s.owned)
    (hnext : s'.nextTinfo = s.nextTinfo) : OwnsTinfo s' :=
  h.move (f := 0) (p := s.pc 0) (by rw [hpc, Function.update_eq_self]) rfl howned hnext

theorem enter (h : OwnsTinfo s) {f : FiberId} {p : TimedPc} {c : TimedCall}
    (hp : p.call = some c) (hc : c.tinfo = s.nextTinfo) : OwnsTinfo (s.newTinfo f p) := by
  -- the calls of the others are older
  have hold : ∀ g c', g ≠ f → ((s.newTinfo f p).pc g).call = some c' →
      s.owned c'.tinfo = true ∧ c'.tinfo < s.nextTinfo := by
    intro g c' hg hc'
    simp only [TimedState.newTinfo, TimedState.setPc, Function.update_of_ne hg] at hc'
    exact h.owned g c' hc'
  have hnew : ((s.newTinfo f p).pc f).call = some c := by
    simpa [TimedState.newTinfo, TimedState.setPc] using hp
  refine ⟨?_, ?_⟩
  · intro g c' hc'
    show Function.update s.owned s.nextTinfo true c'.tinfo = true ∧ c'.tinfo < s.nextTinfo + 1
    by_cases hg : g = f
    · subst hg
      rw [hnew] at hc'
      cases hc'
      rw [hc, Function.update_self]
      exact ⟨rfl, by omega⟩
    · obtain ⟨h1, h2⟩ := hold g c' hg hc'
      rw [Function.update_of_ne (by omega)]
      exact ⟨h1, by omega⟩
  · intro g g' c1 c2 hc1 hc2 heq
    by_cases hg : g = f
    · by_cases hg' : g' = f
      · rw [hg, hg']
      · subst hg
        rw [hnew] at hc1
        cases hc1
        have := (hold g' c2 hg' hc2).2
        omega
    · by_cases hg' : g' = f
      · subst hg'
        rw [hnew] at hc2
        cases hc2
        have := (hold g c1 hg hc1).2
        omega
      · simp only [TimedState.newTinfo, TimedState.setPc, Function.update_of_ne hg] at hc1
        simp only [TimedState.newTinfo, TimedState.setPc, Function.update_of_ne hg'] at hc2
        exact h.own g g' c1 c2 hc1 hc2 heq

theorem leave (h : OwnsTinfo s) {f : FiberId} {c : TimedCall} (hf : (s.pc f).call = some c) :
    OwnsTinfo (s.leave f c) := by
  have hother : ∀ g c', ((s.leave f c).pc g).call = some c' → g ≠ f ∧ (s.pc g).call = some c' := by
    intro g c' hc'
    by_cases hg : g = f
    · subst hg
      simp [TimedState.leave, TimedState.setPc, TimedPc.call] at hc'
    · simp only [TimedState.leave, TimedState.setPc, Function.update_of_ne hg] at hc'
      exact ⟨hg, hc'⟩
  refine ⟨?_, ?_⟩
  · intro g c' hc'
    obtain ⟨hg, hc'⟩ := hother g c' hc'
    obtain ⟨h1, h2⟩ := h.owned g c' hc'
    refine ⟨?_, h2⟩
    show Function.update s.owned c.tinfo false c'.tinfo = true
    rw [Function.update_of_ne, h1]
    intro heq
    exact hg (h.own g f c' c hc' hf heq)
  · intro g g' c1 c2 hc1 hc2
    exact h.own g g' c1 c2 (hother g c1 hc1).2 (hother g' c2 hc2).2

end OwnsTinfo

theorem timedStep_act (hs : timedStep s a = some s') :
    s.iom.aborted = none ∧ s.act a = some s' := by
  unfold timedStep at hs
  split at hs
  · cases hs
  · rename_i hlive
    exact ⟨by simpa using hlive, hs⟩

/-- `timer->cancel()` writes the stage of a timer and nothing else. -/
theorem cancelTimer_cases (s : TimedState) (timer : Option Nat) :
    s.cancelTimer timer = s ∨ ∃ i, timer = some i ∧ s.stage i = some .armed ∧
      s.cancelTimer timer = s.setStage i .cancelled := by
  cases timer with
  | none => exact .inl rfl
  | some i =>
      by_cases hi : s.stage i = some .armed
      · exact .inr ⟨i, rfl, hi, if_pos hi⟩
      · exact .inl (if_neg hi)

theorem ownsTinfo_cancelTimer (h : OwnsTinfo s) (timer : Option Nat) :
    OwnsTinfo (s.cancelTimer timer) := by
  rcases cancelTimer_cases s timer with heq | ⟨i, -, -, heq⟩
  · rw [heq]
    exact h
  · rw [heq]
    exact h.congr rfl rfl rfl

@[simp] theorem arm_iom (s : TimedState) (f : FiberId) (c : TimedCall) :
    (s.arm f c).iom = s.iom := by
  unfold TimedState.arm
  split <;> rfl

@[simp] theorem addEvent_iom (s : TimedState) (f : FiberId) (c : TimedCall) (timer : Option Nat)
    (ok : Bool) : (s.addEvent f c timer ok).iom =
      (s.iom.addEvent c.fd c.waiter.event (Dispatch.eventContext (some 0) none f) ok).2 := by
  unfold TimedState.addEvent
  dsimp only
  split <;> rfl

@[simp] theorem addEvent_timers (s : TimedState) (f : FiberId) (c : TimedCall)
    (timer : Option Nat) (ok : Bool) : (s.addEvent f c timer ok).timers = s.timers := by
  unfold TimedState.addEvent
  dsimp only
  split <;> rfl

@[simp] theorem test_iom (s : TimedState) (f : FiberId) (c : TimedCall) :
    (s.test f c).iom = s.iom := by
  unfold TimedState.test
  split
  · rfl
  · split <;> rfl

@[simp] theorem test_timers (s : TimedState) (f : FiberId) (c : TimedCall) :
    (s.test f c).timers = s.timers := by
  unfold TimedState.test
  split
  · rfl
  · split <;> rfl

@[simp] theorem cancelTimer_iom (s : TimedState) (timer : Option Nat) :
    (s.cancelTimer timer).iom = s.iom := by
  rcases cancelTimer_cases s timer with heq | ⟨i, -, -, heq⟩
  · rw [heq]
  · rw [heq]
    rfl

@[simp] theorem cancelTimer_pc (s : TimedState) (timer : Option Nat) :
    (s.cancelTimer timer).pc = s.pc := by
  rcases cancelTimer_cases s timer with heq | ⟨i, -, -, heq⟩
  · rw [heq]
  · rw [heq]
    rfl

theorem ownsTinfo_step (h : OwnsTinfo s) (hs : timedStep s a = some s') : OwnsTinfo s' := by
  obtain ⟨-, hs⟩ := timedStep_act hs
  cases a with
  | tick d =>
      cases hs
      exact h.congr rfl rfl rfl
  | doIo f fn fd timeout =>
      obtain ⟨-, rfl⟩ := when_eq_some.mp hs
      exact h.enter rfl rfl
  | connect f fd timeout =>
      obtain ⟨-, rfl⟩ := when_eq_some.mp hs
      exact h.enter rfl rfl
  | again f c =>
      obtain ⟨hpc, rfl⟩ := when_eq_some.mp hs
      exact h.move rfl (by rw [hpc]; rfl) rfl rfl
  | done f c =>
      obtain ⟨hpc, rfl⟩ := when_eq_some.mp hs
      exact h.leave (by rw [hpc]; rfl)
  | arm f c =>
      obtain ⟨hpc, rfl⟩ := when_eq_some.mp hs
      unfold TimedState.arm
      split
      · exact h.move rfl (by rw [hpc]; rfl) rfl rfl
      · exact h.move rfl (by rw [hpc]; rfl) rfl rfl
  | addEvent f c timer ok =>
      obtain ⟨hpc, rfl⟩ := when_eq_some.mp hs
      unfold TimedState.addEvent
      dsimp only
      split
      · exact h.congr rfl rfl rfl
      · refine h.move rfl ?_ rfl rfl
        rw [hpc]
        split <;> rfl
  | giveUp f c timer =>
      obtain ⟨hpc, rfl⟩ := when_eq_some.mp hs
      exact (ownsTinfo_cancelTimer h timer).leave (by rw [cancelTimer_pc, hpc]; rfl)
  | resume f c timer =>
      obtain ⟨⟨hpc, -⟩, rfl⟩ := when_eq_some.mp hs
      exact h.move rfl (by rw [hpc]; rfl) rfl rfl
  | cancelTimer f c timer =>
      obtain ⟨hpc, rfl⟩ := when_eq_some.mp hs
      exact (ownsTinfo_cancelTimer h timer).move rfl (by rw [cancelTimer_pc, hpc]; rfl) rfl rfl
  | test f c =>
      obtain ⟨hpc, rfl⟩ := when_eq_some.mp hs
      have hcall : (s.pc f).call = some c := by
        rw [hpc]
        rfl
      unfold TimedState.test
      split
      · exact h.leave hcall
      · split
        · exact h.move rfl hcall.symm rfl rfl
        · exact h.leave hcall
  | expire i t rollover | check i t | mark i t | cancelEvent i t ok =>
      obtain ⟨-, rfl⟩ := when_eq_some.mp hs
      exact h.congr rfl rfl rfl
  | io a =>
      simp only [TimedState.act] at hs
      split at hs
      · obtain ⟨iom, -, rfl⟩ := Option.map_eq_some_iff.mp hs
        exact h.congr rfl rfl rfl
      · cases hs

namespace OwnsTimer

/-- Stages are written, and the fiber that moves keeps its timer or drops it. -/
theorem move (h : OwnsTimer s) {f : FiberId} {p : TimedPc} (hpc : s'.pc = Function.update s.pc f p)
    (hp : p.timer = none ∨ p.timer = (s.pc f).timer) (hnext : s'.nextTimer = s.nextTimer)
    (htimers : ∀ i, (s'.timers i).map (fun t => { t with stage := .armed }) =
      (s.timers i).map fun t => { t with stage := .armed }) : OwnsTimer s' := by
  refine ⟨?_, ?_⟩
  · intro g c i hg
    have hold : (s.pc g).timer = some (c, i) := by
      rw [hpc] at hg
      by_cases hgf : g = f
      · subst hgf
        rw [Function.update_self] at hg
        rcases hp with hnone | hsame
        · rw [hnone] at hg
          cases hg
        · rw [← hsame]
          exact hg
      · rw [Function.update_of_ne hgf] at hg
        exact hg
    obtain ⟨t, ht, hof⟩ := h.timer g c i hold
    have hi := htimers i
    rw [ht] at hi
    obtain ⟨t', ht', heq⟩ := Option.map_eq_some_iff.mp hi
    refine ⟨t', ht', ?_⟩
    simp only [CondTimer.mk.injEq] at heq
    unfold CondTimer.isOf at hof ⊢
    rw [heq.1, heq.2.1, heq.2.2.1]
    exact hof
  · intro i hi
    have hmap := htimers i
    rw [h.fresh i (hnext ▸ hi)] at hmap
    exact Option.map_eq_none_iff.mp hmap

theorem congr (h : OwnsTimer s) (hpc : s'.pc = s.pc) (hnext : s'.nextTimer = s.nextTimer)
    (htimers : ∀ i, (s'.timers i).map (fun t => { t with stage := .armed }) =
      (s.timers i).map fun t => { t with stage := .armed }) : OwnsTimer s' :=
  h.move (f := 0) (p := s.pc 0) (by rw [hpc, Function.update_eq_self]) (.inr rfl) hnext htimers

end OwnsTimer

/-- A written stage is the only thing about a timer that changes. -/
theorem setStage_timers (s : TimedState) (i : Nat) (x : Stage) (j : Nat) :
    ((s.setStage i x).timers j).map (fun t => { t with stage := .armed }) =
      (s.timers j).map fun t => { t with stage := .armed } := by
  by_cases hj : j = i
  · subst hj
    simp only [TimedState.setStage, Function.update_self, Option.map_map]
    rfl
  · simp only [TimedState.setStage, Function.update_of_ne hj]

theorem cancelTimer_timers (s : TimedState) (timer : Option Nat) (j : Nat) :
    ((s.cancelTimer timer).timers j).map (fun t => { t with stage := .armed }) =
      (s.timers j).map fun t => { t with stage := .armed } := by
  rcases cancelTimer_cases s timer with heq | ⟨i, -, -, heq⟩
  · rw [heq]
  · rw [heq]
    exact setStage_timers s i .cancelled j

@[simp] theorem cancelTimer_nextTimer (s : TimedState) (timer : Option Nat) :
    (s.cancelTimer timer).nextTimer = s.nextTimer := by
  rcases cancelTimer_cases s timer with heq | ⟨i, -, -, heq⟩
  · rw [heq]
  · rw [heq]
    rfl

/-- A new timer gets the next number. -/
theorem OwnsTimer.arm (h : OwnsTimer s) {f : FiberId} {c : TimedCall} (hpc : s.pc f = .blocked c) :
    OwnsTimer (s.arm f c) := by
  unfold TimedState.arm
  split
  · exact h.move rfl (.inl rfl) rfl fun _ => rfl
  · refine ⟨?_, ?_⟩
    · intro g c' i hg
      by_cases hgf : g = f
      · subst hgf
        simp only [TimedState.setPc, Function.update_self, TimedPc.timer, Option.some.injEq,
          Prod.mk.injEq] at hg
        obtain ⟨rfl, rfl⟩ := hg
        exact ⟨_, Function.update_self _ _ _, rfl, rfl, rfl⟩
      · simp only [TimedState.setPc, Function.update_of_ne hgf] at hg
        obtain ⟨t, ht, hof⟩ := h.timer g c' i hg
        refine ⟨t, ?_, hof⟩
        have hi : i ≠ s.nextTimer := by
          rintro rfl
          rw [h.fresh _ le_rfl] at ht
          cases ht
        exact (Function.update_of_ne hi _ _).trans ht
    · intro i hi
      have hlt : s.nextTimer < i := hi
      exact (Function.update_of_ne (by omega) _ _).trans (h.fresh i (by omega))

theorem ownsTimer_step (h : OwnsTimer s) (hs : timedStep s a = some s') : OwnsTimer s' := by
  obtain ⟨-, hs⟩ := timedStep_act hs
  cases a with
  | tick d =>
      cases hs
      exact h.congr rfl rfl fun _ => rfl
  | doIo f fn fd timeout | connect f fd timeout | again f c | done f c =>
      obtain ⟨-, rfl⟩ := when_eq_some.mp hs
      exact h.move rfl (.inl rfl) rfl fun _ => rfl
  | arm f c =>
      obtain ⟨hpc, rfl⟩ := when_eq_some.mp hs
      exact h.arm hpc
  | addEvent f c timer ok =>
      obtain ⟨hpc, rfl⟩ := when_eq_some.mp hs
      unfold TimedState.addEvent
      dsimp only
      split
      · exact h.congr rfl rfl fun _ => rfl
      · refine h.move rfl (.inr ?_) rfl fun _ => rfl
        rw [hpc]
        split <;> cases timer <;> rfl
  | giveUp f c timer =>
      obtain ⟨-, rfl⟩ := when_eq_some.mp hs
      exact h.move (f := f) (p := .out) (by simp [TimedState.leave, TimedState.setPc]) (.inl rfl)
        (by simp [TimedState.leave, TimedState.setPc]) (cancelTimer_timers s timer)
  | resume f c timer =>
      obtain ⟨⟨hpc, -⟩, rfl⟩ := when_eq_some.mp hs
      refine h.move rfl (.inr ?_) rfl fun _ => rfl
      rw [hpc]
      cases timer <;> rfl
  | cancelTimer f c timer =>
      obtain ⟨-, rfl⟩ := when_eq_some.mp hs
      exact h.move (f := f) (p := .woken c) (by simp [TimedState.setPc]) (.inl rfl)
        (by simp [TimedState.setPc]) (cancelTimer_timers s timer)
  | test f c =>
      obtain ⟨-, rfl⟩ := when_eq_some.mp hs
      unfold TimedState.test
      split
      · exact h.move rfl (.inl rfl) rfl fun _ => rfl
      · split <;> exact h.move rfl (.inl rfl) rfl fun _ => rfl
  | expire i t rollover | check i t | mark i t | cancelEvent i t ok =>
      obtain ⟨-, rfl⟩ := when_eq_some.mp hs
      exact h.congr rfl rfl (setStage_timers s i _)
  | io a =>
      simp only [TimedState.act] at hs
      split at hs
      · obtain ⟨iom, -, rfl⟩ := Option.map_eq_some_iff.mp hs
        exact h.congr rfl rfl fun _ => rfl
      · cases hs

/-! ## No timeout is lost in time -/

theorem stage_setStage (s : TimedState) (i : Nat) (x : Stage) (j : Nat) :
    (s.setStage i x).stage j = if j = i then (s.stage i).map fun _ => x else s.stage j := by
  unfold TimedState.stage TimedState.setStage
  by_cases hj : j = i
  · subst hj
    simp only [Function.update_self, Option.map_map, if_true]
    rfl
  · simp [hj]

/-- A fiber gets to its `yield` only through `addEvent`. -/
theorem parked_step (hs : timedStep s a = some s') {f : FiberId} {c : TimedCall} {i : Nat}
    (hp : s'.pc f = .parked c (some i)) :
    s.pc f = .parked c (some i) ∨
    ∃ ok, a = .addEvent f c (some i) ok ∧ s.pc f = .armed c (some i) := by
  obtain ⟨-, hs⟩ := timedStep_act hs
  -- a step that moves one fiber somewhere else
  have moved : ∀ {g : FiberId} {p : TimedPc}, s'.pc = Function.update s.pc g p →
      (∀ c i, p ≠ .parked c i) → s.pc f = .parked c (some i) := by
    intro g p hpc hne
    rw [hpc] at hp
    -- only `addEvent` of its own parks a fiber
    by_cases hf : f = g
    · subst hf
      rw [Function.update_self] at hp
      exact absurd hp (hne c (some i))
    · rw [Function.update_of_ne hf] at hp
      exact hp
  cases a with
  | tick d =>
      cases hs
      exact .inl hp
  | doIo g fn fd timeout | connect g fd timeout | again g c' | done g c' =>
      obtain ⟨-, rfl⟩ := when_eq_some.mp hs
      exact .inl (moved rfl (by simp))
  | arm g c' =>
      obtain ⟨-, rfl⟩ := when_eq_some.mp hs
      unfold TimedState.arm at hp moved
      split at hp
      · rename_i hmax
        rw [if_pos hmax] at moved
        exact .inl (moved rfl (by simp))
      · rename_i hmax
        rw [if_neg hmax] at moved
        exact .inl (moved rfl (by simp))
  | addEvent g c' timer ok =>
      obtain ⟨hpc, rfl⟩ := when_eq_some.mp hs
      by_cases hf : f = g
      · subst hf
        unfold TimedState.addEvent at hp
        dsimp only at hp
        split at hp
        · exact .inl hp
        · simp only [TimedState.setPc, Function.update_self] at hp
          split at hp
          · cases hp
            exact .inr ⟨ok, rfl, hpc⟩
          · cases hp
      · left
        unfold TimedState.addEvent at hp
        dsimp only at hp
        split at hp
        · exact hp
        · simpa only [TimedState.setPc, Function.update_of_ne hf] using hp
  | giveUp g c' timer =>
      obtain ⟨-, rfl⟩ := when_eq_some.mp hs
      exact .inl (moved (by simp only [TimedState.leave, TimedState.setPc, cancelTimer_pc]; rfl)
        (by simp))
  | resume g c' timer =>
      obtain ⟨-, rfl⟩ := when_eq_some.mp hs
      exact .inl (moved rfl (by simp))
  | cancelTimer g c' timer =>
      obtain ⟨-, rfl⟩ := when_eq_some.mp hs
      exact .inl (moved (by simp only [TimedState.setPc, cancelTimer_pc]; rfl) (by simp))
  | test g c' =>
      obtain ⟨-, rfl⟩ := when_eq_some.mp hs
      unfold TimedState.test at hp moved
      split at hp
      · rename_i hcan
        rw [if_pos hcan] at moved
        exact .inl (moved rfl (by simp))
      · rename_i hcan
        rw [if_neg hcan] at moved
        cases hw : c'.waiter with
        | doIo fn =>
            simp only [hw] at moved
            exact .inl (moved rfl (by simp))
        | connect =>
            simp only [hw] at moved
            exact .inl (moved rfl (by simp))
  | expire j t rollover | check j t | mark j t | cancelEvent j t ok =>
      obtain ⟨-, rfl⟩ := when_eq_some.mp hs
      exact .inl hp
  | io a =>
      simp only [TimedState.act] at hs
      split at hs
      · obtain ⟨iom, -, rfl⟩ := Option.map_eq_some_iff.mp hs
        exact .inl hp
      · cases hs

/-- While a fiber is parked nobody registers an event for it. -/
theorem waits_step (hs : timedStep s a = some s') {f : FiberId} {c : TimedCall}
    {timer : Option Nat} (hp : s.pc f = .parked c timer) (hw : s'.waits f c) : s.waits f c := by
  obtain ⟨-, hs⟩ := timedStep_act hs
  obtain ⟨x, hx, hfib⟩ := hw
  cases a with
  | tick d =>
      cases hs
      exact ⟨x, hx, hfib⟩
  | addEvent g c' timer' ok =>
      obtain ⟨hpc, rfl⟩ := when_eq_some.mp hs
      rw [addEvent_iom] at hx
      rcases Dispatch.addEvent_registered hx with hold | ⟨-, -, rfl⟩
      · exact ⟨x, hold, hfib⟩
      · -- the event is for `g`, which is not parked
        cases hfib
        rw [hp] at hpc
        cases hpc
  | cancelEvent j t ok =>
      obtain ⟨-, rfl⟩ := when_eq_some.mp hs
      exact ⟨x, Dispatch.cancelEvent_registered hx, hfib⟩
  | io a =>
      simp only [TimedState.act] at hs
      split at hs
      · rename_i hforeign
        obtain ⟨iom, hiom, rfl⟩ := Option.map_eq_some_iff.mp hs
        rcases dispatchStep_registered hiom hx with hold | ⟨scheduler, cb, current, ok, rfl, rfl⟩
        · exact ⟨x, hold, hfib⟩
        · cases cb with
          | some cb => cases hfib
          | none =>
              cases hfib
              simp [TimedState.foreign, hp] at hforeign
      · cases hs
  | arm g c' =>
      obtain ⟨-, rfl⟩ := when_eq_some.mp hs
      rw [arm_iom] at hx
      exact ⟨x, hx, hfib⟩
  | giveUp g c' timer' | cancelTimer g c' timer' =>
      obtain ⟨-, rfl⟩ := when_eq_some.mp hs
      have hx' : (s.cancelTimer timer').iom.registered c.fd c.waiter.event = some x := hx
      rw [cancelTimer_iom] at hx'
      exact ⟨x, hx', hfib⟩
  | test g c' =>
      obtain ⟨-, rfl⟩ := when_eq_some.mp hs
      rw [test_iom] at hx
      exact ⟨x, hx, hfib⟩
  | _ =>
      obtain ⟨-, rfl⟩ := when_eq_some.mp hs
      exact ⟨x, hx, hfib⟩

theorem completed_step (hs : timedStep s a = some s') {i : Nat}
    (hi : s'.stage i = some .completed) :
    s.stage i = some .completed ∨
    (∃ t, a = .check i t ∧ s.timers i = some t ∧ s' = s.check i t.tinfo) ∨
    ∃ t ok, a = .cancelEvent i t ok ∧ s.timers i = some t ∧
      s'.iom = (s.iom.cancelEvent t.fd t.event ok).2 := by
  obtain ⟨-, hs⟩ := timedStep_act hs
  -- a written stage other than `completed`
  have written : ∀ {j : Nat} {x : Stage}, x ≠ .completed →
      (s.setStage j x).stage i = some .completed → s.stage i = some .completed := by
    intro j x hx h
    rw [stage_setStage] at h
    split at h
    · cases hj : s.stage j with
      | none => simp [hj] at h
      | some y =>
          rw [hj] at h
          exact absurd (Option.some.inj h) hx
    · exact h
  cases a with
  | tick d =>
      cases hs
      exact .inl hi
  | addEvent g c timer ok =>
      obtain ⟨-, rfl⟩ := when_eq_some.mp hs
      unfold TimedState.stage at hi
      rw [addEvent_timers] at hi
      exact .inl hi
  | arm g c =>
      obtain ⟨-, rfl⟩ := when_eq_some.mp hs
      left
      unfold TimedState.arm at hi
      split at hi
      · exact hi
      · by_cases hnew : i = s.nextTimer
        · subst hnew
          simp [TimedState.stage] at hi
        · simpa [TimedState.stage, hnew] using hi
  | giveUp g c timer | cancelTimer g c timer =>
      obtain ⟨-, rfl⟩ := when_eq_some.mp hs
      left
      rcases cancelTimer_cases s timer with heq | ⟨j, -, -, heq⟩
      · rw [heq] at hi
        exact hi
      · rw [heq] at hi
        exact written (j := j) (x := .cancelled) (by simp) hi
  | test g c =>
      obtain ⟨-, rfl⟩ := when_eq_some.mp hs
      unfold TimedState.stage at hi
      rw [test_timers] at hi
      exact .inl hi
  | expire j t rollover =>
      obtain ⟨-, rfl⟩ := when_eq_some.mp hs
      exact .inl (written (by simp) hi)
  | mark j t =>
      obtain ⟨-, rfl⟩ := when_eq_some.mp hs
      exact .inl (written (j := j) (x := .marked) (by simp) hi)
  | check j t =>
      obtain ⟨⟨ht, -⟩, rfl⟩ := when_eq_some.mp hs
      by_cases hij : i = j
      · subst hij
        exact .inr (.inl ⟨t, rfl, ht, rfl⟩)
      · left
        unfold TimedState.check at hi
        rwa [stage_setStage, if_neg hij] at hi
  | cancelEvent j t ok =>
      obtain ⟨⟨ht, -⟩, rfl⟩ := when_eq_some.mp hs
      by_cases hij : i = j
      · subst hij
        exact .inr (.inr ⟨t, ok, rfl, ht, rfl⟩)
      · left
        have hi' : (s.setStage j .completed).stage i = some .completed := hi
        rwa [stage_setStage, if_neg hij] at hi'
  | io a =>
      simp only [TimedState.act] at hs
      split at hs
      · obtain ⟨iom, -, rfl⟩ := Option.map_eq_some_iff.mp hs
        exact .inl hi
      · cases hs
  | _ =>
      obtain ⟨-, rfl⟩ := when_eq_some.mp hs
      exact .inl hi

theorem waits_of_parked_step (hinfo : OwnsTinfo s) (htimer : OwnsTimer s) (h : ¬ LostTimeout s)
    (hg : InTime s a) (hs : timedStep s a = some s') {f : FiberId} {c : TimedCall} {i : Nat}
    (hp : s.pc f = .parked c (some i)) (hi : s'.stage i = some .completed) : ¬ s'.waits f c := by
  intro hw'
  have hw : s.waits f c := waits_step hs hp hw'
  obtain ⟨t, ht, htinfo, hfd, hevent⟩ := htimer.timer f c i (by rw [hp]; rfl)
  rcases completed_step hs hi with hold | ⟨t', rfl, ht', rfl⟩ | ⟨t', ok, rfl, ht', hiom⟩
  · exact h ⟨f, c, i, hp, hw, hold⟩
  · -- the fiber holds the `timer_info`, so the test failed on `cancelled`
    rw [ht] at ht'
    cases ht'
    have hlock : s.locks t.tinfo = true := by
      have := (hinfo.owned f c (by rw [hp]; rfl)).1
      simp [TimedState.locks, htinfo, this]
    have hstage : s.stage i = some t.stage := by simp [TimedState.stage, ht]
    have hcan : s.cancelled t.tinfo = true := by
      unfold TimedState.check at hi
      rw [stage_setStage, if_pos rfl, hstage, hlock] at hi
      simpa using hi
    exact hg hcan f c hp hw
  · rw [ht] at ht'
    cases ht'
    rcases hg with ⟨rfl, hentry⟩ | hno
    · obtain ⟨x, hx, -⟩ := hw'
      obtain ⟨hlive, -⟩ := timedStep_act hs
      rw [hiom, ← hfd, ← hevent, Dispatch.cancelEvent_clears hlive hentry] at hx
      cases hx
    · exact hno f c hp hw

/-- An `addEvent` that parks its fiber goes through before the callback has completed. -/
theorem stage_of_addEvent {f : FiberId} {c : TimedCall} {i : Nat} {ok : Bool}
    (hg : InTime s (.addEvent f c (some i) ok)) (hpc : s.pc f = .armed c (some i))
    (hp : (s.addEvent f c (some i) ok).pc f = .parked c (some i)) :
    s.stage i ≠ some .completed := by
  intro hi
  unfold TimedState.addEvent at hp
  dsimp only at hp
  split at hp
  · rw [show s.pc f = _ from hp] at hpc
    cases hpc
  · rename_i hlive
    simp only [TimedState.setPc, Function.update_self] at hp
    rcases hg hi with hrt | hev
    · rw [if_neg hrt] at hp
      cases hp
    · -- the assertion of `addEvent` has failed
      apply hlive
      simp [Dispatch.addEvent, hev, Dispatch.abort]

theorem lostTimeout_step (hinfo : OwnsTinfo s) (htimer : OwnsTimer s) (h : ¬ LostTimeout s)
    (hg : InTime s a) (hs : timedStep s a = some s') : ¬ LostTimeout s' := by
  rintro ⟨f, c, i, hp, hw, hi⟩
  rcases parked_step hs hp with hold | ⟨ok, rfl, hpc⟩
  · exact waits_of_parked_step hinfo htimer h hg hs hold hi hw
  · rcases completed_step hs hi with hdone | ⟨t, hact, -⟩ | ⟨t, ok', hact, -⟩
    · obtain ⟨-, hs⟩ := timedStep_act hs
      obtain ⟨-, rfl⟩ := when_eq_some.mp hs
      exact stage_of_addEvent hg hpc hp hdone
    · cases hact
    · cases hact

structure Timed (s : TimedState) : Prop where
  tinfo : OwnsTinfo s
  timer : OwnsTimer s
  notLost : ¬ LostTimeout s

theorem timed_inductive : timedSys.Inductive InTime Timed where
  init := by
    rintro s ⟨now, rfl⟩
    refine ⟨⟨?_, ?_⟩, ⟨?_, ?_⟩, ?_⟩
    · intro f c hc
      cases hc
    · intro f g c c' hc
      cases hc
    · intro f c i hc
      cases hc
    · intro i _
      rfl
    · rintro ⟨f, c, i, hp, -⟩
      cases hp
  step := fun _ _ _ h hg hs =>
    ⟨ownsTinfo_step h.tinfo hs, ownsTimer_step h.timer hs,
      lostTimeout_step h.tinfo h.timer h.notLost hg hs⟩

/-- For any fibers in `do_io` and `connect_with_timeout`, any timeouts and any interleaving of
steps that are in time, no fiber is parked with its event registered after the callback of
its timer has completed. -/
theorem timeout_not_lost (h : timedSys.Reaches InTime s) : ¬ LostTimeout s :=
  (timed_inductive.invariant h).notLost

/-- A test that implies `InTime`, whoever is parked. -/
def quietTest (s : TimedState) : TimedAct → Bool
  | .addEvent _ _ (some i) _ => decide (s.stage i ≠ some .completed)
  | .check _ t => !s.cancelled t.tinfo
  | .cancelEvent _ t ok => ok && (s.iom.interest t.fd).isSome
  | _ => true

theorem inTime_of_quietTest (s : TimedState) (a : TimedAct) (h : quietTest s a = true) :
    InTime s a := by
  cases a with
  | addEvent f c timer ok =>
      cases timer with
      | none => trivial
      | some i =>
          intro hi
          simp [quietTest, hi] at h
  | check i t =>
      intro hcan
      simp [quietTest, hcan] at h
  | cancelEvent i t ok =>
      left
      simpa [quietTest] using h
  | _ => trivial

/-- A `read` with a timeout of 100 ms that expires while the fiber is parked. -/
def readCall : TimedCall := ⟨.doIo .read, 5, 100, 0⟩

def readTimer (stage : Stage) : CondTimer := ⟨0, 5, .READ, 1100, stage⟩

def timeoutTrace : List TimedAct :=
  [.doIo 7 .read 5 100, .again 7 readCall, .arm 7 readCall, .addEvent 7 readCall (some 0) true,
    .tick 100, .expire 0 (readTimer .armed) false, .check 0 (readTimer .expired),
    .mark 0 (readTimer .checked), .cancelEvent 0 (readTimer .marked) true]

theorem timeout_not_lost_read : ∃ s, ¬ LostTimeout s ∧ s.pc 7 = .parked readCall (some 0) ∧
    s.stage 0 = some .completed := by
  have hrun : ∃ s, timedSys.Reaches InTime s ∧
      decide (s.pc 7 = .parked readCall (some 0) ∧ s.stage 0 = some .completed) = true :=
    TSys.exists_reaches inTime_of_quietTest (l := timeoutTrace) (s := .start 1000) ⟨1000, rfl⟩
      (by decide)
  obtain ⟨s, hs, htest⟩ := hrun
  exact ⟨s, timeout_not_lost hs, of_decide_eq_true htest⟩

/-- A `read` whose timeout of 0 ms expires on another worker before `addEvent`. -/
def nowCall : TimedCall := ⟨.doIo .read, 5, 0, 0⟩

def nowTimer (stage : Stage) : CondTimer := ⟨0, 5, .READ, 1000, stage⟩

def earlyTimerTrace : List TimedAct :=
  [.doIo 7 .read 5 0, .again 7 nowCall, .arm 7 nowCall, .expire 0 (nowTimer .armed) false,
    .check 0 (nowTimer .expired), .mark 0 (nowTimer .checked),
    .cancelEvent 0 (nowTimer .marked) true, .addEvent 7 nowCall (some 0) true]

/-- The callback finds nothing to cancel, and the fiber parks afterwards. -/
theorem timeout_lost : ∃ s, timedSys.Reachable s ∧ LostTimeout s := by
  have hrun : ∃ s, timedSys.Reachable s ∧
      decide (s.pc 7 = .parked nowCall (some 0) ∧
        s.iom.registered 5 .READ = some ⟨some 0, some 7, none⟩ ∧
        s.stage 0 = some .completed) = true :=
    TSys.exists_reachable (l := earlyTimerTrace) (s := .start 1000) ⟨1000, rfl⟩ (by decide)
  obtain ⟨s, hs, htest⟩ := hrun
  obtain ⟨hp, hreg, hstage⟩ := of_decide_eq_true htest
  exact ⟨s, hs, 7, nowCall, 0, hp, ⟨_, hreg, rfl⟩, hstage⟩

end Gxh.Hook
