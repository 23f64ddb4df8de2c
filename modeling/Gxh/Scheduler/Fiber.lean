import Gxh.Lib.TSys
import Gxh.Scheduler.Task
import Mathlib.Logic.Function.Basic

/-!
# Fibers on their threads

`Fiber::resume`, `yield` and `MainFunc` (`fiber.cc`), with the thread-local pointers they read and
write, and the places from which `Scheduler::run` and `stop` (`scheduler.cc`) call them.

* A context is known by the fiber whose code it goes on with; `swapcontext` saves the code that
  executes in one context and goes on with another.
* A thread that runs `run` itself has its main fiber for a scheduling fiber. The thread on which a
  scheduler with `use_caller` was made has a scheduling fiber of its own, `m_rootFiber`.
* A step is one switch. A failed assertion is a step that is not enabled.

The main fibers' `m_runInScheduler` is never read.
-/

namespace Gxh

structure Fiber where
  state : FiberState
  runInScheduler : Bool
  /-- the fiber whose code `m_ctx` goes on with -/
  ctx : FiberId
  deriving DecidableEq, Repr

/-- The thread-local pointers of a thread, and the fiber whose code it executes. -/
structure FiberThread where
  useCaller : Bool
  t_fiber : FiberId
  t_thread_fiber : FiberId
  t_scheduler_fiber : FiberId
  exec : FiberId
  deriving DecidableEq, Repr

/-- All fibers, those with an id below `s_fiber_id`, and all threads. -/
structure FiberMachine where
  fibers : FiberId → Fiber
  s_fiber_id : FiberId
  threads : Nat → Option FiberThread

namespace FiberMachine

def start : FiberMachine where
  fibers := fun f => ⟨.READY, false, f⟩
  s_fiber_id := 0
  threads := fun _ => none

def setFiber (m : FiberMachine) (f : FiberId) (x : Fiber) : FiberMachine :=
  { m with fibers := Function.update m.fibers f x }

def setThread (m : FiberMachine) (t : Nat) (th : FiberThread) : FiberMachine :=
  { m with threads := Function.update m.threads t (some th) }

/-- A new fiber, with the next id. -/
def newFiber (m : FiberMachine) (state : FiberState) (runInScheduler : Bool) : FiberMachine :=
  { m.setFiber m.s_fiber_id ⟨state, runInScheduler, m.s_fiber_id⟩ with
    s_fiber_id := m.s_fiber_id + 1 }

/-- `swapcontext(&save->m_ctx, &load->m_ctx)` on thread `t`. -/
def swapcontext (m : FiberMachine) (t : Nat) (th : FiberThread) (save load : FiberId) :
    FiberMachine :=
  let m := m.setFiber save { m.fibers save with ctx := th.exec }
  m.setThread t { th with exec := (m.fibers load).ctx }

/-- The fiber that `f` is swapped with. -/
def partner (m : FiberMachine) (th : FiberThread) (f : FiberId) : FiberId :=
  if (m.fibers f).runInScheduler then th.t_scheduler_fiber else th.t_thread_fiber

/-- `f->resume()`. -/
def resume (m : FiberMachine) (t : Nat) (th : FiberThread) (f : FiberId) :
    Option FiberMachine :=
  when ((m.fibers f).state = .READY) <|
    (m.setFiber f { m.fibers f with state := .RUNNING }).swapcontext t { th with t_fiber := f }
      (m.partner th f) f

/-- `f->yield()`. -/
def yield (m : FiberMachine) (t : Nat) (th : FiberThread) (f : FiberId) :
    Option FiberMachine :=
  let x := m.fibers f
  when (x.state = .RUNNING ∨ x.state = .TERM) <|
    (m.setFiber f { x with state := if x.state ≠ .TERM then .READY else x.state }).swapcontext t
      { th with t_fiber := th.t_thread_fiber } f (m.partner th f)

/-- The end of `MainFunc` on fiber `f`. -/
def finish (m : FiberMachine) (t : Nat) (th : FiberThread) (f : FiberId) :
    Option FiberMachine :=
  (m.setFiber f { m.fibers f with state := .TERM }).yield t th f

end FiberMachine

/-- The steps. -/
inductive FiberAct
  /-- a thread makes a scheduler with `use_caller` -/
  | caller (t : Nat)
  /-- a thread enters `run` -/
  | worker (t : Nat)
  /-- `new Fiber(cb)` -/
  | create
  /-- `cb_fiber->reset(cb)` -/
  | reset (f : FiberId)
  /-- `run` resumes a task or the idle fiber, or `stop` the scheduling fiber -/
  | resume (t : Nat) (f : FiberId)
  /-- a task or the idle fiber calls `Fiber::GetThis()->yield()` -/
  | yield (t : Nat)
  /-- the callback of the fiber that executes has returned -/
  | finish (t : Nat)
  deriving DecidableEq, Repr

namespace FiberMachine

/-- The code that executes is at a place that resumes `f`. -/
def MayResume (m : FiberMachine) (th : FiberThread) (f : FiberId) : Prop :=
  f < m.s_fiber_id ∧
    (th.exec = th.t_scheduler_fiber ∧ (m.fibers f).runInScheduler = true ∨
      th.useCaller = true ∧ th.exec = th.t_thread_fiber ∧ f = th.t_scheduler_fiber)

/-- The code that executes is that of a fiber with a callback. -/
def HasCallback (m : FiberMachine) (th : FiberThread) : Prop :=
  (m.fibers th.exec).runInScheduler = true ∨
    th.useCaller = true ∧ th.exec = th.t_scheduler_fiber

instance (m : FiberMachine) (th : FiberThread) (f : FiberId) : Decidable (m.MayResume th f) := by
  unfold MayResume
  infer_instance

instance (m : FiberMachine) (th : FiberThread) : Decidable (m.HasCallback th) := by
  unfold HasCallback
  infer_instance

def step (m : FiberMachine) : FiberAct → Option FiberMachine
  | .caller t =>
      let main := m.s_fiber_id
      when (m.threads t = none) <|
        ((m.newFiber .RUNNING false).newFiber .READY false).setThread t
          ⟨true, main, main, main + 1, main⟩
  | .worker t =>
      let main := m.s_fiber_id
      when (m.threads t = none) <|
        (m.newFiber .RUNNING false).setThread t ⟨false, main, main, main, main⟩
  | .create => some (m.newFiber .READY true)
  | .reset f =>
      let x := m.fibers f
      when (f < m.s_fiber_id ∧ x.runInScheduler = true ∧ x.state = .TERM) <|
        m.setFiber f { x with ctx := f, state := .READY }
  | .resume t f =>
      match m.threads t with
      | none => none
      | some th => if m.MayResume th f then m.resume t th f else none
  | .yield t =>
      match m.threads t with
      | none => none
      | some th =>
          if (m.fibers th.exec).runInScheduler then m.yield t th th.t_fiber else none
  | .finish t =>
      match m.threads t with
      | none => none
      | some th => if m.HasCallback th then m.finish t th th.exec else none

end FiberMachine

def fiberSys : TSys FiberMachine FiberAct where
  init m := m = .start
  step := FiberMachine.step

end Gxh
