import Mathlib.Data.List.Basic

/-!
# Schedule tasks

`Scheduler::ScheduleTask` (`scheduler.h`): a fiber or a callback, with the id of
the thread that must run it. A thread id of `-1` (any thread) is `none` here, and
so are a null fiber pointer and an empty `std::function`.
-/

namespace Gxh

/-- A `Fiber` object, by its address. -/
abbrev FiberId := Nat

/-- A callback `std::function<void()>`, by its identity. -/
abbrev CbId := Nat

/-- `Fiber::State`. -/
inductive FiberState
  | READY
  | RUNNING
  | TERM
  deriving DecidableEq, Repr

/-- `Scheduler::ScheduleTask`. -/
structure ScheduleTask where
  fiber : Option FiberId
  cb : Option CbId
  thread : Option Nat
  deriving DecidableEq, Repr

namespace ScheduleTask

/-- `ScheduleTask(Fiber::ptr f, int thr)`. -/
def ofFiber (f : FiberId) (thread : Option Nat) : ScheduleTask :=
  { fiber := some f, cb := none, thread }

/-- `ScheduleTask(std::function<void()> f, int thr)`. -/
def ofCb (c : CbId) (thread : Option Nat) : ScheduleTask :=
  { fiber := none, cb := some c, thread }

/-- `task.fiber || task.cb`: the test `scheduleNoLock` makes before it pushes. -/
def isSet (t : ScheduleTask) : Bool := t.fiber.isSome || t.cb.isSome

end ScheduleTask

end Gxh
