import Gxh.Scheduler.Task

/-!
# Descriptor contexts

`IOManager::Event`, `FdContext` and `EventContext` (`iomanager.h`), with the three
member functions of `FdContext`. The mask type has one flag for each bit the
source uses (`READ = 0x1 = EPOLLIN`, `WRITE = 0x4 = EPOLLOUT`); `EPOLLET` is set in
every `epoll_ctl` call and never read back, so it is left out.
-/

namespace Gxh.IOManager

/-- `IOManager::Event`, without `NONE` (the empty mask). -/
inductive Event
  | READ
  | WRITE
  deriving DecidableEq, Repr

/-- A mask of `Event` bits. -/
structure Mask where
  read : Bool
  write : Bool
  deriving DecidableEq, Repr

namespace Mask

/-- `NONE`. -/
def NONE : Mask := ⟨false, false⟩

/-- The mask with the one bit of an event. -/
def ofEvent : Event → Mask
  | .READ => ⟨true, false⟩
  | .WRITE => ⟨false, true⟩

/-- `mask & event`, as a test. -/
def has (m : Mask) : Event → Bool
  | .READ => m.read
  | .WRITE => m.write

/-- `a | b`. -/
def union (a b : Mask) : Mask := ⟨a.read || b.read, a.write || b.write⟩

/-- `a & b`. -/
def inter (a b : Mask) : Mask := ⟨a.read && b.read, a.write && b.write⟩

/-- `a & ~b`. -/
def diff (a b : Mask) : Mask := ⟨a.read && !b.read, a.write && !b.write⟩

/-- Every bit of `a` is set in `b`. -/
def subset (a b : Mask) : Bool := (!a.read || b.read) && (!a.write || b.write)

@[simp] theorem has_NONE (e : Event) : NONE.has e = false := by cases e <;> rfl

@[simp] theorem has_union (a b : Mask) (e : Event) :
    (a.union b).has e = (a.has e || b.has e) := by cases e <;> rfl

@[simp] theorem has_inter (a b : Mask) (e : Event) :
    (a.inter b).has e = (a.has e && b.has e) := by cases e <;> rfl

@[simp] theorem has_diff (a b : Mask) (e : Event) :
    (a.diff b).has e = (a.has e && !b.has e) := by cases e <;> rfl

@[simp] theorem has_ofEvent (e e' : Event) : (ofEvent e).has e' = decide (e = e') := by
  cases e <;> cases e' <;> rfl

theorem subset_iff {a b : Mask} : a.subset b = true ↔ ∀ e, a.has e = true → b.has e = true := by
  constructor
  · intro h e ha
    cases e <;> simp_all [subset, has]
  · intro h
    have hr := h .READ
    have hw := h .WRITE
    simp only [has] at hr hw
    cases ha : a.read <;> cases hb : a.write <;> simp_all [subset]

/-- A mask is `NONE` exactly when no event's bit is set. -/
theorem eq_NONE_iff {m : Mask} : m = NONE ↔ ∀ e, m.has e = false := by
  constructor
  · rintro rfl e
    exact has_NONE e
  · intro h
    have hr := h .READ
    have hw := h .WRITE
    cases m
    simp_all [has, NONE]

end Mask

/-- `FdContext::EventContext`: the scheduler, fiber and callback to run. -/
structure EventContext where
  scheduler : Option Nat
  fiber : Option FiberId
  cb : Option CbId
  deriving DecidableEq, Repr

/-- A default-constructed `EventContext`. -/
def EventContext.empty : EventContext := ⟨none, none, none⟩

/-- What `triggerEvent` hands to `scheduler->schedule`: the callback if there is
one, the fiber otherwise. -/
def EventContext.task (c : EventContext) : ScheduleTask :=
  match c.cb with
  | some cb => .ofCb cb none
  | none => { fiber := c.fiber, cb := none, thread := none }

/-- `IOManager::FdContext`. -/
structure FdContext where
  fd : Nat
  events : Mask
  read : EventContext
  write : EventContext
  deriving DecidableEq, Repr

namespace FdContext

/-- `new FdContext` for descriptor `fd`. -/
def new (fd : Nat) : FdContext := ⟨fd, .NONE, .empty, .empty⟩

/-- `FdContext::getEventContext`. -/
def getEventContext (c : FdContext) : Event → EventContext
  | .READ => c.read
  | .WRITE => c.write

/-- Assignment through the reference `getEventContext` returns. -/
def setEventContext (c : FdContext) (e : Event) (x : EventContext) : FdContext :=
  match e with
  | .READ => { c with read := x }
  | .WRITE => { c with write := x }

/-- `FdContext::resetEventContext`. -/
def resetEventContext (c : FdContext) (e : Event) : FdContext :=
  c.setEventContext e .empty

/-- `FdContext::triggerEvent`: clear the event, schedule its callback or fiber and
reset its context. `none` is the failed assertion `events & event`. -/
def triggerEvent (c : FdContext) (e : Event) : Option (FdContext × ScheduleTask) :=
  if c.events.has e then
    some (({ c with events := c.events.diff (.ofEvent e) }).resetEventContext e,
      (c.getEventContext e).task)
  else none

@[simp] theorem setEventContext_events (c : FdContext) (e : Event) (x : EventContext) :
    (c.setEventContext e x).events = c.events := by cases e <;> rfl

@[simp] theorem setEventContext_fd (c : FdContext) (e : Event) (x : EventContext) :
    (c.setEventContext e x).fd = c.fd := by cases e <;> rfl

theorem getEventContext_setEventContext (c : FdContext) (e e' : Event) (x : EventContext) :
    (c.setEventContext e x).getEventContext e' =
      if e = e' then x else c.getEventContext e' := by
  cases e <;> cases e' <;> rfl

@[simp] theorem getEventContext_events (c : FdContext) (m : Mask) (e : Event) :
    ({ c with events := m } : FdContext).getEventContext e = c.getEventContext e := by
  cases e <;> rfl

end FdContext

end Gxh.IOManager
