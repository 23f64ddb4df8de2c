import Gxh.Workers.Steps
import Mathlib.Algebra.Order.Group.Multiset

/-!
# Every task is handed out once, in order, on its thread

A ledger beside the pool records what becomes of each task: pushed by `schedule`, in a
worker's hand from the scan that takes it to `--m_activeThreadCount`, finished after that.
The ledger follows the steps of the pool and decides none of them.

* `scanTasks_takes` — what one scan takes and leaves;
* `Books` — the account balances, each worker's hand agrees with its place in `run`, and
  what is queued or held can be run by its thread.
-/

namespace Gxh.Workers

variable {n m : Nat}

/-! ## One scan -/

/-- May be taken by `thread`: not pinned to another thread, fiber not `RUNNING`. -/
def Eligible (thread : Nat) (state : FiberId → FiberState) (t : ScheduleTask) : Prop :=
  (t.thread = none ∨ t.thread = some thread) ∧ ∀ f, t.fiber = some f → state f ≠ .RUNNING

/-- The first eligible task is taken out of the queue and the others keep their order; if
there is none, the queue stays. -/
def TakesFirst (thread : Nat) (state : FiberId → FiberState) (tasks : List ScheduleTask) :
    Option ScheduleTask → List ScheduleTask → Prop
  | none, left => left = tasks ∧ ∀ x ∈ tasks, ¬ Eligible thread state x
  | some t, left => ∃ skipped behind, tasks = skipped ++ t :: behind ∧ left = skipped ++ behind ∧
      Eligible thread state t ∧ ∀ x ∈ skipped, ¬ Eligible thread state x

theorem TakesFirst.skip {thread : Nat} {state : FiberId → FiberState}
    {t : ScheduleTask} {tasks left : List ScheduleTask} {taken : Option ScheduleTask}
    (h : TakesFirst thread state tasks taken left) (ht : ¬ Eligible thread state t) :
    TakesFirst thread state (t :: tasks) taken (t :: left) := by
  have both : ∀ l : List ScheduleTask, (∀ x ∈ l, ¬ Eligible thread state x) →
      ∀ x ∈ t :: l, ¬ Eligible thread state x := by
    intro l hl x hx
    rcases List.mem_cons.mp hx with rfl | hx
    · exact ht
    · exact hl x hx
  cases taken with
  | none =>
      obtain ⟨rfl, hnone⟩ := h
      exact ⟨rfl, both _ hnone⟩
  | some u =>
      obtain ⟨skipped, behind, rfl, rfl, hu, hskip⟩ := h
      exact ⟨t :: skipped, behind, rfl, rfl, hu, both _ hskip⟩

theorem scanTasks_takes (thread : Nat) (state : FiberId → FiberState) (tasks : List ScheduleTask) :
    TakesFirst thread state tasks (scanTasks thread state tasks).task
      (scanTasks thread state tasks).tasks := by
  induction tasks with
  | nil => exact ⟨rfl, by simp⟩
  | cons t rest ih =>
      unfold scanTasks
      by_cases hpin : t.thread ≠ none ∧ t.thread ≠ some thread
      · rw [if_pos hpin]
        exact ih.skip fun he => he.1.elim hpin.1 hpin.2
      · rw [if_neg hpin]
        by_cases hrun : (t.fiber.any fun f => state f == .RUNNING) = true
        · rw [if_pos hrun]
          refine ih.skip fun he => ?_
          obtain ⟨f, hf, hstate⟩ : ∃ f, t.fiber = some f ∧ state f = .RUNNING := by
            simpa [Option.any_eq_true] using hrun
          exact he.2 f hf hstate
        · rw [if_neg hrun]
          refine ⟨[], rest, rfl, rfl, ⟨?_, ?_⟩, by simp⟩
          · by_contra hneither
            push Not at hneither
            exact hpin hneither
          · intro f hf hstate
            exact hrun (by simp [hf, hstate])

/-! ## The ledger -/

/-- The pool with the tasks scheduled so far, the task each worker has in hand and the tasks
done. -/
structure Ledger (n m : Nat) where
  pool : Pool n m
  scheduled : Multiset ScheduleTask
  held : Fin (n + 1) → Option ScheduleTask
  finished : Multiset ScheduleTask

/-- The tasks in one hand. -/
def inHand : Option ScheduleTask → Multiset ScheduleTask
  | none => 0
  | some t => {t}

namespace Ledger

def start (now : Nat) : Ledger n m := ⟨.start now, 0, fun _ => none, 0⟩

/-- The entry a step makes. A task that is neither a fiber nor a callback is dropped by
`scheduleNoLock` and not entered. -/
def enter (l : Ledger n m) (pool : Pool n m) : PoolAct n m → Ledger n m
  | .scan w =>
      let r := scanTasks w l.pool.fiberState l.pool.tasks
      { l with pool := pool, held := Function.update l.held w r.task }
  | .decActive w =>
      { l with pool := pool
               held := Function.update l.held w none
               finished := l.finished + inHand (l.held w) }
  | .micro _ (.push task) _ =>
      { l with pool := pool
               scheduled := l.scheduled + if task.isSet then {task} else 0 }
  | _ => { l with pool := pool }

end Ledger

/-- The pool with its ledger. -/
def ledgerSys (n m : Nat) : TSys (Ledger n m) (PoolAct n m) where
  init := fun l => ∃ now, now < size64 ∧ l = .start now
  step := fun l a => (poolStep l.pool a).map fun pool => l.enter pool a

variable {l l' : Ledger n m} {a : PoolAct n m}

theorem ledgerStep_eq (hs : (ledgerSys n m).step l a = some l') :
    ∃ pool, poolStep l.pool a = some pool ∧ l' = l.enter pool a := by
  obtain ⟨pool, hp, rfl⟩ := Option.map_eq_some_iff.mp hs
  exact ⟨pool, hp, rfl⟩

@[simp] theorem Ledger.enter_pool (pool : Pool n m) : (l.enter pool a).pool = pool := by
  unfold Ledger.enter
  split <;> rfl

/-- Every run of the pool has its ledger. -/
theorem ledger_of_pool {s : Pool n m} (h : (poolSys n m).Reachable s) :
    ∃ l, (ledgerSys n m).Reachable l ∧ l.pool = s := by
  induction h with
  | init hi =>
      obtain ⟨now, hnow, rfl⟩ := hi
      exact ⟨.start now, .init ⟨now, hnow, rfl⟩, rfl⟩
  | @step s s' a _ hg hs ih =>
      obtain ⟨l, hl, rfl⟩ := ih
      have hl' : (ledgerSys n m).step l a = some (l.enter s' a) := by
        show (poolStep l.pool a).map _ = _
        rw [show poolStep l.pool a = some s' from hs]
        rfl
      exact ⟨l.enter s' a, .step hl trivial hl', Ledger.enter_pool s'⟩

/-! ## The books balance -/

/-- A worker at `p` is at work on exactly what it has in hand: the task's fiber, or a fiber
made for its callback. -/
def Pc.carries (p : Pc) : Option ScheduleTask → Prop
  | none => p.busy = 0
  | some t => p.busy = 1 ∧ (∀ f, t.fiber = some f → p = .resumed ∨ p.fiber = some f) ∧
      (t.fiber = none → ∃ c, t.cb = some c ∧ ∀ c', p = .takenCb c' → c' = c)

theorem edge_carries {p p' : Pc} {held : Option ScheduleTask} (he : Edge p p')
    (h : p.carries held) (hscan : p ≠ .scan) (hres : p ≠ .resumed) : p'.carries held := by
  cases held with
  | none => cases he <;> simp_all [Pc.carries, Pc.busy]
  | some t => cases he <;> simp_all [Pc.carries, Pc.busy, Pc.fiber]

theorem ScanResult.carries (r : ScanResult) (h : r.task.all ScheduleTask.isSet = true) :
    r.pc.carries r.task := by
  unfold ScanResult.pc
  cases hrt : r.task with
  | none => rfl
  | some t =>
      cases hf : t.fiber with
      | some f => simp [Pc.carries, Pc.busy, Pc.fiber, hf]
      | none =>
          cases hc : t.cb with
          | some c => simp [Pc.carries, Pc.busy, hf, hc]
          | none => simp [hrt, ScheduleTask.isSet, hf, hc] at h

structure Books (l : Ledger n m) : Prop where
  counted : Counted l.pool
  balance : l.scheduled = (l.pool.tasks : Multiset ScheduleTask) + ∑ w, inHand (l.held w) +
    l.finished
  hands : ∀ w, (l.pool.pc w).carries (l.held w)
  pinned : ∀ w t, l.held w = some t → t.thread = none ∨ t.thread = some w.val
  set : ∀ t ∈ l.pool.tasks, t.isSet = true

/-- A worker that has left the queue scan or the end of a task took the step that does so. -/
theorem eq_decActive_of_worker {s s' : Pool n m} (hs : poolStep s a = some s')
    {w : Fin (n + 1)} (ha : a.worker = some w) (hpc : s.pc w = .resumed) : a = .decActive w := by
  cases a <;> simp only [PoolAct.worker, Option.some.injEq, reduceCtorEq] at ha <;> subst ha
  case decActive => rfl
  all_goals
    have hready := (when_eq_some.mp hs).1
    simp [Pool.ready, hpc] at hready

/-- A step that neither takes a task nor puts one down leaves every hand in order. -/
theorem Books.hands_step (h : Books l) {s' : Pool n m} (hs : poolStep l.pool a = some s')
    (hscan : ∀ w, a ≠ .scan w) (hdec : ∀ w, a ≠ .decActive w) (w : Fin (n + 1)) :
    (s'.pc w).carries (l.held w) := by
  rcases poolStep_pc hs with hpc | ⟨u, p, ha, hpc, he⟩
  · rw [hpc]
    exact h.hands w
  · rw [hpc]
    by_cases hwu : w = u
    · subst hwu
      rw [Function.update_self]
      refine edge_carries he (h.hands w) ?_ ?_
      · exact fun hp => hscan w (eq_scan_of_worker hs ha hp)
      · exact fun hp => hdec w (eq_decActive_of_worker hs ha hp)
    · rw [Function.update_of_ne hwu]
      exact h.hands w

/-- One worker moves and its hand with it. -/
theorem Books.hands_update (h : Books l) {w : Fin (n + 1)} {p : Pc} {held : Option ScheduleTask}
    (hp : p.carries held) (u : Fin (n + 1)) :
    (Function.update l.pool.pc w p u).carries (Function.update l.held w held u) := by
  by_cases huw : u = w
  · subst huw
    rw [Function.update_self, Function.update_self]
    exact hp
  · rw [Function.update_of_ne huw, Function.update_of_ne huw]
    exact h.hands u

theorem inHand_eq_zero {p : Pc} {held : Option ScheduleTask} (h : p.carries held)
    (hp : p.busy = 0) : inHand held = 0 := by
  cases held with
  | none => rfl
  | some t =>
      have := h.1
      omega

/-- What a scan takes and what it leaves make up the queue. -/
theorem TakesFirst.balance {thread : Nat} {state : FiberId → FiberState}
    {tasks left : List ScheduleTask} {taken : Option ScheduleTask}
    (h : TakesFirst thread state tasks taken left) :
    (tasks : Multiset ScheduleTask) = (left : Multiset ScheduleTask) + inHand taken := by
  cases taken with
  | none =>
      obtain ⟨rfl, -⟩ := h
      simp [inHand]
  | some t =>
      obtain ⟨skipped, behind, rfl, rfl, -, -⟩ := h
      show ((skipped ++ t :: behind : List ScheduleTask) : Multiset ScheduleTask) =
        ((skipped ++ behind : List ScheduleTask) : Multiset ScheduleTask) + {t}
      rw [← Multiset.coe_singleton, Multiset.coe_add, Multiset.coe_eq_coe]
      refine List.perm_middle.trans ?_
      exact (List.perm_append_singleton t _).symm

theorem TakesFirst.mem_left {thread : Nat} {state : FiberId → FiberState}
    {tasks left : List ScheduleTask} {taken : Option ScheduleTask}
    (h : TakesFirst thread state tasks taken left) {x : ScheduleTask} (hx : x ∈ left) :
    x ∈ tasks := by
  have hsum := h.balance
  rw [← Multiset.mem_coe, hsum]
  exact Multiset.mem_add.mpr (.inl (Multiset.mem_coe.mpr hx))

theorem TakesFirst.eligible {thread : Nat} {state : FiberId → FiberState}
    {tasks left : List ScheduleTask} {t : ScheduleTask}
    (h : TakesFirst thread state tasks (some t) left) : t ∈ tasks ∧ Eligible thread state t := by
  obtain ⟨skipped, behind, rfl, -, ht, -⟩ := h
  exact ⟨by simp, ht⟩

/-- The books of a worker that takes a task. -/
theorem Books.scan (h : Books l) {w : Fin (n + 1)} (hs : poolStep l.pool (.scan w) = some l'.pool)
    (hl : l' = l.enter l'.pool (.scan w)) : Books l' := by
  obtain ⟨⟨hr, hset⟩, hpool⟩ := when_eq_some.mp hs
  have htake := scanTasks_takes w l.pool.fiberState l.pool.tasks
  -- the worker comes with nothing in hand and leaves with what it has found
  have hempty : inHand (l.held w) = 0 := inHand_eq_zero (h.hands w) (by rw [hr.1]; rfl)
  have hsum := sum_update inHand l.held w (scanTasks w l.pool.fiberState l.pool.tasks).task
  rw [hempty, add_zero] at hsum
  have htasks : l'.pool.tasks = (scanTasks w l.pool.fiberState l.pool.tasks).tasks := by
    rw [← hpool]
    rfl
  have hpc : l'.pool.pc = Function.update l.pool.pc w
      (scanTasks w l.pool.fiberState l.pool.tasks).pc := by
    rw [← hpool]
    rfl
  have hheld : l'.held = Function.update l.held w
      (scanTasks w l.pool.fiberState l.pool.tasks).task := by
    rw [hl]
    rfl
  refine ⟨poolStep_counted h.counted hs, ?_, ?_, ?_, ?_⟩
  · have hsch : l'.scheduled = l.scheduled := by rw [hl]; rfl
    have hfin : l'.finished = l.finished := by rw [hl]; rfl
    rw [hsch, hfin, hheld, htasks, hsum, h.balance, htake.balance]
    abel
  · intro u
    rw [hpc, hheld]
    exact h.hands_update (ScanResult.carries _ hset) u
  · intro u t ht
    rw [hheld] at ht
    by_cases huw : u = w
    · subst huw
      rw [Function.update_self] at ht
      rw [ht] at htake
      exact htake.eligible.2.1
    · rw [Function.update_of_ne huw] at ht
      exact h.pinned u t ht
  · intro t ht
    exact h.set t (htake.mem_left (htasks ▸ ht))

/-- The books of a worker that has done a task. -/
theorem Books.decActive (h : Books l) {w : Fin (n + 1)}
    (hs : poolStep l.pool (.decActive w) = some l'.pool)
    (hl : l' = l.enter l'.pool (.decActive w)) : Books l' := by
  obtain ⟨hr, hpool⟩ := when_eq_some.mp hs
  have hsum := sum_update inHand l.held w none
  have htasks : l'.pool.tasks = l.pool.tasks := by
    rw [← hpool]
    rfl
  have hpc : l'.pool.pc = Function.update l.pool.pc w .scan := by
    rw [← hpool]
    rfl
  have hheld : l'.held = Function.update l.held w none := by
    rw [hl]
    rfl
  refine ⟨poolStep_counted h.counted hs, ?_, ?_, ?_, ?_⟩
  · have hsch : l'.scheduled = l.scheduled := by rw [hl]; rfl
    have hfin : l'.finished = l.finished + inHand (l.held w) := by rw [hl]; rfl
    have hnone : (∑ u, inHand (l.held u)) =
        (∑ u, inHand (Function.update l.held w none u)) + inHand (l.held w) := by
      rw [hsum]
      exact (add_zero _).symm
    rw [hsch, hfin, hheld, htasks, h.balance, hnone]
    abel
  · intro u
    rw [hpc, hheld]
    exact h.hands_update (show Pc.carries .scan none from rfl) u
  · intro u t ht
    rw [hheld] at ht
    by_cases huw : u = w
    · subst huw
      simp at ht
    · rw [Function.update_of_ne huw] at ht
      exact h.pinned u t ht
  · intro t ht
    exact h.set t (htasks ▸ ht)

/-- The books when a task is pushed. -/
theorem Books.push (h : Books l) {t : Thread n m} {task : ScheduleTask} {rest : List Micro}
    (hs : poolStep l.pool (.micro t (.push task) rest) = some l'.pool)
    (hl : l' = l.enter l'.pool (.micro t (.push task) rest)) : Books l' := by
  obtain ⟨-, hpool⟩ := when_eq_some.mp hs
  have htasks : l'.pool.tasks =
      if task.isSet then l.pool.tasks ++ [task] else l.pool.tasks := by
    rw [← hpool]
    rfl
  have hheld : l'.held = l.held := by rw [hl]; rfl
  refine ⟨poolStep_counted h.counted hs, ?_, ?_, ?_, ?_⟩
  · have hsch : l'.scheduled = l.scheduled + if task.isSet then {task} else 0 := by rw [hl]; rfl
    have hfin : l'.finished = l.finished := by rw [hl]; rfl
    rw [hsch, hfin, hheld, htasks, h.balance]
    split
    · rw [← Multiset.coe_add, Multiset.coe_singleton]
      abel
    · rw [add_zero]
  · intro w
    rw [hheld]
    exact h.hands_step hs (by simp) (by simp) w
  · intro w u hu
    exact h.pinned w u (hheld ▸ hu)
  · intro u hu
    rw [htasks] at hu
    split at hu
    · rcases List.mem_append.mp hu with hu | hu
      · exact h.set u hu
      · rw [List.mem_singleton.mp hu]
        assumption
    · exact h.set u hu

/-- The books in a step that hands nothing over. -/
theorem Books.other (h : Books l) {s' : Pool n m} (hs : poolStep l.pool a = some s')
    (hscan : ∀ w, a ≠ .scan w) (hdec : ∀ w, a ≠ .decActive w)
    (hpush : ∀ t task rest, a ≠ .micro t (.push task) rest) : Books { l with pool := s' } := by
  have htasks : s'.tasks = l.pool.tasks := by
    rcases tasks_step hs with hsame | ⟨w, rfl⟩ | ⟨t, task, rest, rfl⟩
    · exact hsame
    · exact absurd rfl (hscan w)
    · exact absurd rfl (hpush t task rest)
  refine ⟨poolStep_counted h.counted hs, ?_, h.hands_step hs hscan hdec, h.pinned, ?_⟩
  · show l.scheduled = (s'.tasks : Multiset ScheduleTask) + _ + _
    rw [htasks]
    exact h.balance
  · intro t ht
    exact h.set t (htasks ▸ ht)

theorem books_step (h : Books l) (hs : (ledgerSys n m).step l a = some l') : Books l' := by
  obtain ⟨pool, hp, hl⟩ := ledgerStep_eq hs
  have hpool : l'.pool = pool := by rw [hl, Ledger.enter_pool]
  rw [← hpool] at hp hl
  cases a with
  | scan w => exact h.scan hp hl
  | decActive w => exact h.decActive hp hl
  | micro t op rest =>
      cases op with
      | push task => exact h.push hp hl
      | _ =>
          rw [hl]
          exact h.other hp (by simp) (by simp) (by simp)
  | _ =>
      rw [hl]
      exact h.other hp (by simp) (by simp) (by simp)

theorem books_inductive : (ledgerSys n m).Inductive (fun _ _ => True) Books where
  init := by
    rintro l ⟨now, hnow, rfl⟩
    refine ⟨?_, ?_, ?_, ?_, ?_⟩
    · exact (counted_inductive fun _ _ => True).init _ ⟨now, hnow, rfl⟩
    · simp [Ledger.start, Pool.start, inHand]
    · intro w
      rfl
    · intro w t ht
      simp [Ledger.start] at ht
    · intro t ht
      simp [Ledger.start, Pool.start] at ht
  step := fun _ _ _ h _ hs => books_step h hs

/-- `m_activeThreadCount` counts the workers with a task in hand. -/
theorem Books.active (h : Books l) :
    l.pool.activeThreadCount = (Finset.univ.filter fun w => (l.held w).isSome).card := by
  rw [h.counted.active, Finset.card_filter]
  refine Finset.sum_congr rfl fun w _ => ?_
  have hw := h.hands w
  cases hheld : l.held w with
  | none =>
      rw [hheld] at hw
      exact hw
  | some t =>
      rw [hheld] at hw
      exact hw.1

/-- The scan never meets a task that is neither a fiber nor a callback, and takes the first
that is eligible. -/
theorem Books.next (h : Books l) {w : Fin (n + 1)} (hr : l.pool.ready w .scan) :
    ∃ l', (ledgerSys n m).step l (.scan w) = some l' ∧
      TakesFirst w l.pool.fiberState l.pool.tasks (l'.held w) l'.pool.tasks := by
  have htake := scanTasks_takes w l.pool.fiberState l.pool.tasks
  have hset : (scanTasks w l.pool.fiberState l.pool.tasks).task.all ScheduleTask.isSet = true := by
    cases htask : (scanTasks w l.pool.fiberState l.pool.tasks).task with
    | none => rfl
    | some t =>
        rw [htask] at htake
        exact h.set t htake.eligible.1
  have hstep : poolStep l.pool (.scan w) = some (l.pool.scan w) :=
    when_eq_some.mpr ⟨⟨hr, hset⟩, rfl⟩
  refine ⟨l.enter (l.pool.scan w) (.scan w), ?_, ?_⟩
  · show (poolStep l.pool (.scan w)).map _ = _
    rw [hstep]
    rfl
  · show TakesFirst w l.pool.fiberState l.pool.tasks (Function.update l.held w _ w) _
    rw [Function.update_self]
    exact htake

/-- What the scheduler promises about its tasks. -/
structure HandsOut (l : Ledger n m) : Prop where
  /-- each scheduled task is in the queue, in one hand or done, and in one of them once -/
  once : l.scheduled = (l.pool.tasks : Multiset ScheduleTask) + ∑ w, inHand (l.held w) +
    l.finished
  /-- a worker is at work on the task in its hand -/
  atWork : ∀ w, (l.pool.pc w).carries (l.held w)
  active : l.pool.activeThreadCount = (Finset.univ.filter fun w => (l.held w).isSome).card
  /-- a task with a thread id is in that thread's hand only -/
  pinned : ∀ w t, l.held w = some t → ∀ thread, t.thread = some thread → thread = w.val
  /-- the next scan of a worker, which never fails -/
  next : ∀ w, l.pool.ready w .scan → ∃ l', (ledgerSys n m).step l (.scan w) = some l' ∧
    TakesFirst w l.pool.fiberState l.pool.tasks (l'.held w) l'.pool.tasks

/-- For every number of workers and other threads and every interleaving, the scheduler hands
out each task once, in order and on its thread. -/
theorem tasks_handed_out (h : (ledgerSys n m).Reachable l) : HandsOut l := by
  have hb : Books l := books_inductive.invariant h
  refine ⟨hb.balance, hb.hands, hb.active, ?_, fun w hr => hb.next hr⟩
  intro w t ht thread hthread
  rcases hb.pinned w t ht with hnone | hsome
  · rw [hthread] at hnone
    cases hnone
  · rw [hthread] at hsome
    exact Option.some.inj hsome

/-- A callback pinned to worker `v` is queued before one for any thread: worker `w` takes the
second, worker `v` the first, and worker `w` is done before it. -/
def twoHandsTrace (w v : Fin (n + 1)) (t : Fin m) : List (PoolAct n m) :=
  [.schedule (.inr t) (.ofCb 7 (some v)), .micro (.inr t) (.push (.ofCb 7 (some v))) [],
    .micro (.inr t) (.tickle .other) [],
    .schedule (.inr t) (.ofFiber 3 none), .micro (.inr t) (.push (.ofFiber 3 none)) [],
    .scan w, .micro (.inl w) (.tickle .other) [], .scan v,
    .assertReady w 3, .setRunning w 3, .switchIn w 3, .yield w 3, .switchOut w 3, .decActive w]

theorem tasks_handed_out_two : ∃ l : Ledger 1 1, HandsOut l ∧ l.pool.activeThreadCount = 1 ∧
    l.held 1 = some (.ofCb 7 (some 1)) ∧ l.finished = {.ofFiber 3 none} := by
  have hrun : ∃ l : Ledger 1 1, (ledgerSys 1 1).Reachable l ∧
      decide (l.pool.activeThreadCount = 1 ∧ l.held 1 = some (.ofCb 7 (some 1)) ∧
        l.finished = {.ofFiber 3 none}) = true :=
    TSys.exists_reachable (l := twoHandsTrace 0 1 0) ⟨1000, by decide, rfl⟩ (by decide)
  obtain ⟨l, hl, htest⟩ := hrun
  obtain ⟨hactive, hheld, hfin⟩ := of_decide_eq_true htest
  exact ⟨l, tasks_handed_out hl, hactive, hheld, hfin⟩

end Gxh.Workers
