import Gxh.Lib.TSys
import Gxh.Scheduler.Task
import Gxh.Timer.Basic
import Mathlib.Data.Fintype.Sum

/-!
# The worker pool of an IO manager

`Scheduler::run`, `schedule` and `stop`, `Fiber::resume` and `yield`, and
`IOManager::idle`, `stopping` and `tickle`, as the steps of `n + 1` worker threads and
`m` other threads. A step is one access to a variable the threads share: the queue under
the scheduler's mutex, a counter, the pipe, the timers under their lock, the state of a
fiber, the switch of contexts.

* `Pc` is a worker's place in `run` and, inside it, in `idle` or in the fiber it runs.
* `Micro` are the pieces of a library call that is under way; a thread finishes the calls
  in its `todo` before it goes on.
* Events are registrations with the task to schedule; what `idle` does with one report is
  the subject of `Dispatch`, and here it is one step that takes the registration out,
  followed by `schedule` and the decrement of `m_pendingEventCount`.

A failed assertion is a step that is not enabled. `EINTR` does not occur.
-/

namespace Gxh.Workers

/-- A registered event, by its identity. -/
abbrev EventId := Nat

/-- How long `epoll_wait` sleeps. -/
inductive Sleep
  | zero
  | till (wake : Nat)
  | forever
  deriving DecidableEq, Repr

/-- `epoll_wait` with an `int` timeout, called after a clock reading. -/
def Sleep.ofTimeout (now : Nat) (timeout : Int) : Sleep :=
  if timeout < 0 then .forever
  else if timeout = 0 then .zero
  else .till (now + timeout.toNat)

/-- The timeout `idle` passes on, for the answer of `getNextTimer`. -/
def epollTimeout (nextTimeout : Nat) : Int :=
  if nextTimeout ≠ max64 then min (toInt nextTimeout) 5000 else 5000

/-- An entry of an `epoll_wait` result. -/
inductive EpollItem
  | tickle
  | event (e : EventId)
  deriving DecidableEq, Repr

inductive Pc
  /-- at the queue scan of `run` -/
  | scan
  /-- with a fiber task in hand -/
  | taken (f : FiberId)
  /-- with a callback task in hand -/
  | takenCb (c : CbId)
  /-- with no task, at the test of `idle_fiber` -/
  | empty
  /-- in `resume`, past the assertion -/
  | asserted (f : FiberId)
  /-- in `resume`, `m_state = RUNNING` done -/
  | switching (f : FiberId)
  /-- executing the fiber -/
  | running (f : FiberId)
  /-- in `yield`, `m_state` set and the context not saved -/
  | yielding (f : FiberId)
  /-- back in `run`, at `--m_activeThreadCount` -/
  | resumed
  /-- in `stopping`, at `getNextTimer` -/
  | stop1
  /-- `getNextTimer` has answered `~0`; at the test of `m_pendingEventCount` -/
  | stop2 (now : Nat)
  /-- at `Scheduler::stopping` -/
  | stop3 (now : Nat)
  /-- at `epoll_wait` -/
  | entering (sleep : Sleep)
  /-- in `epoll_wait` -/
  | inWait (sleep : Sleep)
  /-- at `listExpiredCb` -/
  | woken (items : List EpollItem)
  /-- in `listExpiredCb`, clock read -/
  | clocked (items : List EpollItem) (now : Nat)
  /-- in `listExpiredCb`, between the read lock and the write lock -/
  | peeked (items : List EpollItem) (now : Nat)
  /-- in the loop over the result -/
  | handling (items : List EpollItem)
  /-- the idle fiber has yielded or ended; at `--m_idleThreadCount` -/
  | leaving
  /-- out of `run` -/
  | exited
  deriving DecidableEq, Repr

def Pc.isRunning : Pc → Bool
  | .running _ => true
  | _ => false

/-- Who calls `tickle`: `onTimerInsertedAtFront`, or `schedule`, `run` or `stop`. -/
inductive Caller
  | timer
  | other
  deriving DecidableEq, Repr

/-- The pieces of the calls a thread may have under way. -/
inductive Micro
  /-- the locked part of `schedule` -/
  | push (t : ScheduleTask)
  /-- `tickle`, at `hasIdleThreads` -/
  | tickle (c : Caller)
  /-- `tickle`, at `write` -/
  | writePipe (c : Caller)
  /-- `--m_pendingEventCount` -/
  | decPending
  /-- the locked part of `addTimer` -/
  | insertTimer (t : Timer CbId)
  /-- `stop`, at the three parts of its first test -/
  | stopping1
  | stopping2
  | stopping3
  /-- `m_stopping = true` -/
  | setStopping
  deriving DecidableEq, Repr

def Micro.isInsert : Micro → Bool
  | .insertTimer _ => true
  | _ => false

/-- The worker threads and the others. -/
abbrev Thread (n m : Nat) := Fin (n + 1) ⊕ Fin m

structure Pool (n m : Nat) where
  pc : Fin (n + 1) → Pc
  todo : Thread n m → List Micro
  /-- the worker's idle fiber has ended -/
  idleTerm : Fin (n + 1) → Bool
  tasks : List ScheduleTask
  activeThreadCount : Nat
  idleThreadCount : Nat
  stopping : Bool
  /-- number of bytes in the tickle pipe -/
  pipe : Nat
  pendingEventCount : Nat
  events : List (EventId × ScheduleTask)
  tm : TimerManager CbId
  clock : Nat
  fiberState : FiberId → FiberState

variable {n m : Nat}

namespace Pool

/-- All workers at the top of `run`. -/
def start (now : Nat) : Pool n m where
  pc := fun _ => .scan
  todo := fun _ => []
  idleTerm := fun _ => false
  tasks := []
  activeThreadCount := 0
  idleThreadCount := 0
  stopping := false
  pipe := 0
  pendingEventCount := 0
  events := []
  tm := .new now
  clock := now
  fiberState := fun _ => .READY

def setPc (s : Pool n m) (w : Fin (n + 1)) (p : Pc) : Pool n m :=
  { s with pc := Function.update s.pc w p }

def setTodo (s : Pool n m) (t : Thread n m) (l : List Micro) : Pool n m :=
  { s with todo := Function.update s.todo t l }

def setState (s : Pool n m) (f : FiberId) (x : FiberState) : Pool n m :=
  { s with fiberState := Function.update s.fiberState f x }

/-- The worker is at `p` with no call under way. -/
def ready (s : Pool n m) (w : Fin (n + 1)) (p : Pc) : Prop :=
  s.pc w = p ∧ s.todo (.inl w) = []

instance (s : Pool n m) (w : Fin (n + 1)) (p : Pc) : Decidable (s.ready w p) :=
  inferInstanceAs (Decidable (_ ∧ _))

/-- The threads whose code may call the library: a worker inside a task's fiber, and any
thread outside the pool. -/
def isCode (s : Pool n m) : Thread n m → Bool
  | .inl w => (s.pc w).isRunning
  | .inr _ => true

def runsCode (s : Pool n m) (t : Thread n m) : Prop := s.isCode t = true ∧ s.todo t = []

instance (s : Pool n m) (t : Thread n m) : Decidable (s.runsCode t) :=
  inferInstanceAs (Decidable (_ ∧ _))

end Pool

/-! ## The queue -/

/-- What the locked section of `run` finds. -/
structure ScanResult where
  task : Option ScheduleTask
  tasks : List ScheduleTask
  tickleMe : Bool
  deriving DecidableEq, Repr

/-- The loop over `m_tasks`: tasks of other threads are skipped with `tickle_me` set, tasks
whose fiber is still `RUNNING` are skipped, and the first other task is taken out. -/
def scanTasks (thread : Nat) (state : FiberId → FiberState) : List ScheduleTask → ScanResult
  | [] => ⟨none, [], false⟩
  | t :: rest =>
      if t.thread ≠ none ∧ t.thread ≠ some thread then
        let r := scanTasks thread state rest
        ⟨r.task, t :: r.tasks, true⟩
      else if t.fiber.any fun f => state f == .RUNNING then
        let r := scanTasks thread state rest
        ⟨r.task, t :: r.tasks, r.tickleMe⟩
      else ⟨some t, rest, decide (rest ≠ [])⟩

/-- Where the worker goes with the task it found: `if(task.fiber) … else if(task.cb) …`. -/
def ScanResult.pc (r : ScanResult) : Pc :=
  match r.task with
  | none => .empty
  | some t =>
      match t.fiber, t.cb with
      | some f, _ => .taken f
      | none, some c => .takenCb c
      | none, none => .empty

namespace Pool

/-- The queue scan of worker `w`, whose thread id is its number. -/
def scan (s : Pool n m) (w : Fin (n + 1)) : Pool n m :=
  let r := scanTasks w s.fiberState s.tasks
  { (s.setPc w r.pc).setTodo (.inl w) (if r.tickleMe then [.tickle .other] else []) with
    tasks := r.tasks
    activeThreadCount := s.activeThreadCount + (if r.task.isSome then 1 else 0) }

/-- `scheduleNoLock`, and the `tickle` of `schedule` if the queue was empty. -/
def push (s : Pool n m) (t : Thread n m) (task : ScheduleTask) (rest : List Micro) : Pool n m :=
  { s.setTodo t ((if s.tasks = [] then [.tickle .other] else []) ++ rest) with
    tasks := if task.isSet then s.tasks ++ [task] else s.tasks }

/-- The locked part of `addTimer`, and `onTimerInsertedAtFront`. -/
def insertTimer (s : Pool n m) (t : Thread n m) (a : Nat) (timer : Timer CbId)
    (rest : List Micro) : Pool n m :=
  let r := s.tm.addTimer a timer
  { s.setTodo t ((if r.2 then [.tickle .timer] else []) ++ rest) with tm := r.1 }

/-- `Scheduler::stopping`. -/
def schedulerStopping (s : Pool n m) : Bool :=
  s.stopping && s.tasks.isEmpty && s.activeThreadCount == 0

/-- What `stop` does once its test has failed: set the flag and tickle once for each
worker. -/
def stopBody (n : Nat) : List Micro := .setStopping :: List.replicate (n + 1) (.tickle .other)

/-- One piece of a call, `insertTimer` apart. -/
def micro (s : Pool n m) (t : Thread n m) (op : Micro) (rest : List Micro) : Pool n m :=
  match op with
  | .push task => s.push t task rest
  | .tickle c => s.setTodo t ((if s.idleThreadCount > 0 then [.writePipe c] else []) ++ rest)
  | .writePipe _ => { s.setTodo t rest with pipe := s.pipe + 1 }
  | .decPending => { s.setTodo t rest with pendingEventCount := pred64 s.pendingEventCount }
  | .insertTimer _ => s
  | .stopping1 =>
      let r := s.tm.getNextTimer s.clock
      { s.setTodo t (if r.2 = max64 then .stopping2 :: rest else stopBody n ++ rest) with
        tm := r.1 }
  | .stopping2 =>
      s.setTodo t (if s.pendingEventCount = 0 then .stopping3 :: rest else stopBody n ++ rest)
  | .stopping3 => s.setTodo t (if s.schedulerStopping then rest else stopBody n ++ rest)
  | .setStopping => { s.setTodo t rest with stopping := true }

/-- `getNextTimer` in `stopping(timeout)`, called by `idle`. -/
def stop1 (s : Pool n m) (w : Fin (n + 1)) : Pool n m :=
  let r := s.tm.getNextTimer s.clock
  { s.setPc w (if r.2 = max64 then .stop2 s.clock
      else .entering (.ofTimeout s.clock (epollTimeout r.2))) with tm := r.1 }

/-- Where `idle` goes when `stopping` fails after `getNextTimer` answered `~0`. -/
def onward (now : Nat) : Pc := .entering (.ofTimeout now (epollTimeout max64))

/-- The last part of the test. If it succeeds the idle fiber ends. -/
def stop3 (s : Pool n m) (w : Fin (n + 1)) (now : Nat) : Pool n m :=
  if s.schedulerStopping then
    { s.setPc w .leaving with idleTerm := Function.update s.idleTerm w true }
  else s.setPc w (onward now)

/-- The locked part of `listExpiredCb`; each callback is then scheduled. -/
def listExpired (s : Pool n m) (w : Fin (n + 1)) (items : List EpollItem) (now addr : Nat) :
    Pool n m :=
  let r := s.tm.listExpiredCb now addr
  { (s.setPc w (.handling items)).setTodo (.inl w)
      (r.2.map fun cb => .push { fiber := none, cb, thread := none }) with tm := r.1 }

/-- Take a registration out and do `triggerEvent(event); --m_pendingEventCount`. -/
def trigger (s : Pool n m) (t : Thread n m) (e : EventId) : Pool n m :=
  match s.events.lookup e with
  | none => s
  | some task =>
      { s.setTodo t [.push task, .decPending] with
        events := s.events.eraseP fun x => x.1 == e }

end Pool

/-! ## Steps -/

inductive PoolAct (n m : Nat)
  | tick (d : Nat)
  -- `run`
  | scan (w : Fin (n + 1))
  | newFiber (w : Fin (n + 1)) (c : CbId) (f : FiberId)
  | decActive (w : Fin (n + 1))
  | enterIdle (w : Fin (n + 1))
  | decIdle (w : Fin (n + 1))
  | exitRun (w : Fin (n + 1))
  -- `resume` and `yield`
  | assertReady (w : Fin (n + 1)) (f : FiberId)
  | setRunning (w : Fin (n + 1)) (f : FiberId)
  | switchIn (w : Fin (n + 1)) (f : FiberId)
  | yield (w : Fin (n + 1)) (f : FiberId)
  | finish (w : Fin (n + 1)) (f : FiberId)
  | switchOut (w : Fin (n + 1)) (f : FiberId)
  -- `idle`
  | stop1 (w : Fin (n + 1))
  | stop2 (w : Fin (n + 1)) (now : Nat)
  | stop3 (w : Fin (n + 1)) (now : Nat)
  | enterWait (w : Fin (n + 1)) (sleep : Sleep)
  | returnWait (w : Fin (n + 1)) (sleep : Sleep) (items : List EpollItem)
  | readClock (w : Fin (n + 1)) (items : List EpollItem)
  | peek (w : Fin (n + 1)) (items : List EpollItem) (now : Nat)
  | listExpired (w : Fin (n + 1)) (items : List EpollItem) (now addr : Nat)
  | handleEvent (w : Fin (n + 1)) (e : EventId) (items : List EpollItem)
  | drain (w : Fin (n + 1)) (items : List EpollItem)
  | leave (w : Fin (n + 1))
  -- calls under way
  | micro (t : Thread n m) (op : Micro) (rest : List Micro)
  | insertTimer (t : Thread n m) (a : Nat) (timer : Timer CbId) (rest : List Micro)
  -- calls made by fibers and by other threads
  | schedule (t : Thread n m) (task : ScheduleTask)
  | addTimer (t : Thread n m) (ms : Nat) (cb : CbId) (recurring : Bool)
  | cancel (t : Thread n m) (a : Nat)
  | refresh (t : Thread n m) (a : Nat)
  | reset (t : Thread n m) (a ms : Nat) (fromNow : Bool)
  | addEvent (t : Thread n m) (e : EventId) (task : ScheduleTask)
  | delEvent (t : Thread n m) (e : EventId)
  | cancelEvent (t : Thread n m) (e : EventId)
  | stop (i : Fin m)

/-- The fiber a worker has in hand, from the queue to the switch back. -/
def Pc.fiber : Pc → Option FiberId
  | .taken f | .asserted f | .switching f | .running f | .yielding f => some f
  | _ => none

/-- `epoll_wait` returns `items`: bytes in the pipe, registered events, or the timeout. -/
def Pool.mayReturn (s : Pool n m) (sleep : Sleep) (items : List EpollItem) : Bool :=
  (items.all fun
    | .tickle => decide (s.pipe > 0)
    | .event e => (s.events.lookup e).isSome) &&
  (!items.isEmpty || match sleep with
    | .zero => true
    | .till wake => decide (wake ≤ s.clock)
    | .forever => false)

/-- The step function. -/
def poolStep (s : Pool n m) : PoolAct n m → Option (Pool n m)
  | .tick d => when (s.clock + d < size64) { s with clock := s.clock + d }
  | .scan w =>
      -- `GXH_ASSERT(it->fiber || it->cb)` for the task found
      when (s.ready w .scan ∧
          (scanTasks w s.fiberState s.tasks).task.all ScheduleTask.isSet = true)
        (s.scan w)
  | .newFiber w c f =>
      -- a new object's address is not that of a fiber in some worker's hands
      when (s.ready w (.takenCb c) ∧ ∀ w', (s.pc w').fiber ≠ some f)
        ((s.setPc w (.taken f)).setState f .READY)
  | .decActive w =>
      when (s.ready w .resumed)
        { s.setPc w .scan with activeThreadCount := pred64 s.activeThreadCount }
  | .enterIdle w =>
      when (s.ready w .empty ∧ s.idleTerm w = false)
        { s.setPc w .stop1 with idleThreadCount := s.idleThreadCount + 1 }
  | .decIdle w =>
      when (s.ready w .leaving)
        { s.setPc w .scan with idleThreadCount := pred64 s.idleThreadCount }
  | .exitRun w => when (s.ready w .empty ∧ s.idleTerm w = true) (s.setPc w .exited)
  | .assertReady w f =>
      when (s.ready w (.taken f) ∧ s.fiberState f = .READY) (s.setPc w (.asserted f))
  | .setRunning w f =>
      when (s.ready w (.asserted f)) ((s.setPc w (.switching f)).setState f .RUNNING)
  | .switchIn w f => when (s.ready w (.switching f)) (s.setPc w (.running f))
  | .yield w f =>
      when (s.ready w (.running f) ∧ s.fiberState f = .RUNNING)
        ((s.setPc w (.yielding f)).setState f .READY)
  | .finish w f =>
      when (s.ready w (.running f)) ((s.setPc w (.yielding f)).setState f .TERM)
  | .switchOut w f => when (s.ready w (.yielding f)) (s.setPc w .resumed)
  | .stop1 w => when (s.ready w .stop1) (s.stop1 w)
  | .stop2 w now =>
      when (s.ready w (.stop2 now))
        (s.setPc w (if s.pendingEventCount = 0 then .stop3 now else Pool.onward now))
  | .stop3 w now => when (s.ready w (.stop3 now)) (s.stop3 w now)
  | .enterWait w sleep => when (s.ready w (.entering sleep)) (s.setPc w (.inWait sleep))
  | .returnWait w sleep items =>
      when (s.ready w (.inWait sleep) ∧ s.mayReturn sleep items = true) (s.setPc w (.woken items))
  | .readClock w items => when (s.ready w (.woken items)) (s.setPc w (.clocked items s.clock))
  | .peek w items now =>
      when (s.ready w (.clocked items now))
        (s.setPc w (if s.tm.timers = [] then .handling items else .peeked items now))
  | .listExpired w items now addr =>
      when (s.ready w (.peeked items now)) (s.listExpired w items now addr)
  | .handleEvent w e items =>
      when (s.ready w (.handling (.event e :: items)))
        ((s.setPc w (.handling items)).trigger (.inl w) e)
  | .drain w items =>
      -- `while(read(…) > 0)`, 256 bytes at a time
      when (s.ready w (.handling (.tickle :: items)))
        (if s.pipe = 0 then s.setPc w (.handling items) else { s with pipe := s.pipe - 256 })
  | .leave w => when (s.ready w (.handling [])) (s.setPc w .leaving)
  | .micro t op rest =>
      when (s.todo t = op :: rest ∧ op.isInsert = false) (s.micro t op rest)
  | .insertTimer t a timer rest =>
      when (s.todo t = .insertTimer timer :: rest ∧ s.tm.heap a = none)
        (s.insertTimer t a timer rest)
  | .schedule t task => when (s.runsCode t) (s.setTodo t [.push task])
  | .addTimer t ms cb recurring =>
      when (s.runsCode t) (s.setTodo t [.insertTimer (.new s.clock ms (some cb) recurring)])
  | .cancel t a => when (s.runsCode t) { s with tm := (s.tm.cancel a).1 }
  | .refresh t a => when (s.runsCode t) { s with tm := (s.tm.refresh a s.clock).1 }
  | .reset t a ms fromNow =>
      when (s.runsCode t)
        (let r := s.tm.reset a ms fromNow s.clock
         { s.setTodo t (if r.2.2 then [.tickle .timer] else []) with tm := r.1 })
  | .addEvent t e task =>
      when (s.runsCode t ∧ s.events.lookup e = none)
        { s with events := (e, task) :: s.events, pendingEventCount := s.pendingEventCount + 1 }
  | .delEvent t e =>
      when (s.runsCode t ∧ (s.events.lookup e).isSome = true)
        { s with events := s.events.eraseP (fun x => x.1 == e)
                 pendingEventCount := pred64 s.pendingEventCount }
  | .cancelEvent t e => when (s.runsCode t) (s.trigger t e)
  | .stop i => when (s.runsCode (.inr i)) (s.setTodo (.inr i) [.stopping1])

/-- The pool, started at any clock reading. -/
def poolSys (n m : Nat) : TSys (Pool n m) (PoolAct n m) where
  init := fun s => ∃ now, now < size64 ∧ s = .start now
  step := poolStep

/-! ## What the calls leave alone -/

namespace Pool

variable (s : Pool n m) (t : Thread n m) (op : Micro) (rest : List Micro) (e : EventId)

@[simp] theorem micro_pc : (s.micro t op rest).pc = s.pc := by cases op <;> rfl

@[simp] theorem micro_idleTerm : (s.micro t op rest).idleTerm = s.idleTerm := by cases op <;> rfl

@[simp] theorem micro_fiberState : (s.micro t op rest).fiberState = s.fiberState := by
  cases op <;> rfl

@[simp] theorem micro_clock : (s.micro t op rest).clock = s.clock := by cases op <;> rfl

@[simp] theorem micro_activeThreadCount :
    (s.micro t op rest).activeThreadCount = s.activeThreadCount := by cases op <;> rfl

@[simp] theorem micro_idleThreadCount :
    (s.micro t op rest).idleThreadCount = s.idleThreadCount := by cases op <;> rfl

@[simp] theorem micro_events : (s.micro t op rest).events = s.events := by cases op <;> rfl

@[simp] theorem trigger_pc : (s.trigger t e).pc = s.pc := by
  unfold trigger
  split <;> rfl

@[simp] theorem trigger_idleTerm : (s.trigger t e).idleTerm = s.idleTerm := by
  unfold trigger
  split <;> rfl

@[simp] theorem trigger_fiberState : (s.trigger t e).fiberState = s.fiberState := by
  unfold trigger
  split <;> rfl

@[simp] theorem trigger_tm : (s.trigger t e).tm = s.tm := by
  unfold trigger
  split <;> rfl

@[simp] theorem trigger_tasks : (s.trigger t e).tasks = s.tasks := by
  unfold trigger
  split <;> rfl

@[simp] theorem trigger_pipe : (s.trigger t e).pipe = s.pipe := by
  unfold trigger
  split <;> rfl

@[simp] theorem trigger_stopping : (s.trigger t e).stopping = s.stopping := by
  unfold trigger
  split <;> rfl

@[simp] theorem trigger_clock : (s.trigger t e).clock = s.clock := by
  unfold trigger
  split <;> rfl

@[simp] theorem trigger_activeThreadCount :
    (s.trigger t e).activeThreadCount = s.activeThreadCount := by
  unfold trigger
  split <;> rfl

@[simp] theorem trigger_idleThreadCount :
    (s.trigger t e).idleThreadCount = s.idleThreadCount := by
  unfold trigger
  split <;> rfl

@[simp] theorem trigger_pendingEventCount :
    (s.trigger t e).pendingEventCount = s.pendingEventCount := by
  unfold trigger
  split <;> rfl

variable (w : Fin (n + 1)) (now : Nat)

@[simp] theorem stop3_fiberState : (s.stop3 w now).fiberState = s.fiberState := by
  unfold stop3
  split <;> rfl

@[simp] theorem stop3_tm : (s.stop3 w now).tm = s.tm := by
  unfold stop3
  split <;> rfl

@[simp] theorem stop3_tasks : (s.stop3 w now).tasks = s.tasks := by
  unfold stop3
  split <;> rfl

@[simp] theorem stop3_pipe : (s.stop3 w now).pipe = s.pipe := by
  unfold stop3
  split <;> rfl

@[simp] theorem stop3_stopping : (s.stop3 w now).stopping = s.stopping := by
  unfold stop3
  split <;> rfl

@[simp] theorem stop3_clock : (s.stop3 w now).clock = s.clock := by
  unfold stop3
  split <;> rfl

@[simp] theorem stop3_todo : (s.stop3 w now).todo = s.todo := by
  unfold stop3
  split <;> rfl

@[simp] theorem stop3_activeThreadCount :
    (s.stop3 w now).activeThreadCount = s.activeThreadCount := by
  unfold stop3
  split <;> rfl

@[simp] theorem stop3_pendingEventCount :
    (s.stop3 w now).pendingEventCount = s.pendingEventCount := by
  unfold stop3
  split <;> rfl

end Pool

end Gxh.Workers
