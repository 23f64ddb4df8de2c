import Gxh.Workers.Steps

/-!
# Wake-ups between `schedule` and `idle`

`tickle` writes the pipe only if some worker has announced itself in `m_idleThreadCount`.
A worker that has found nothing in the queue announces itself in a later step, so a task
pushed in between is announced to nobody.

* `LostTask` — a task that could run is in the queue, and nothing will make a worker look;
* `SeenTickle` — the condition under which that does not happen: a `tickle` finds no idle
  worker only when some worker is not between its scan and its announcement.
-/

namespace Gxh.Workers

variable {n m : Nat} {s s' : Pool n m} {a : PoolAct n m}

/-- Blocked in `epoll_wait`, with a timeout that is not zero. -/
def Pc.blocked : Pc → Bool
  | .inWait .zero => false
  | .inWait _ => true
  | _ => false

/-- A task any worker may take. -/
def Pool.runnable (s : Pool n m) (t : ScheduleTask) : Prop :=
  t.thread = none ∧ ∀ f, t.fiber = some f → s.fiberState f = .READY

/-- A runnable task waits while every worker is blocked, the pipe is empty and no thread is
about to tickle. -/
def LostTask (s : Pool n m) : Prop :=
  (∃ t ∈ s.tasks, s.runnable t) ∧ (∀ w, (s.pc w).blocked = true) ∧ s.pipe = 0 ∧
    ¬ Tickling (fun _ => true) s

/-- A `tickle` for a queue that is not empty does not find every worker between an
empty-handed scan and `++m_idleThreadCount`. -/
def SeenTickle (s : Pool n m) : PoolAct n m → Prop
  | .micro _ (.tickle _) _ => s.idleThreadCount = 0 → s.tasks ≠ [] →
      ∃ w, s.pc w ≠ .empty ∨ s.idleTerm w = true
  | _ => True

/-- Places from which the worker scans the queue before it can block. -/
def Pc.willScan : Pc → Bool
  | .empty | .stop1 | .stop2 _ | .stop3 _ | .entering _ | .inWait _ | .exited => false
  | _ => true

theorem edge_willScan (p p' : Pc) (he : Edge p p') (hp : p.willScan = true) (hne : p ≠ .scan) :
    p'.willScan = true := by
  cases he <;> simp_all [Pc.willScan]

/-- A fiber is `RUNNING` only in some worker's hands. -/
def RunningHeld (s : Pool n m) : Prop :=
  ∀ f, s.fiberState f = .RUNNING → ∃ w, s.pc w = .switching f ∨ s.pc w = .running f

/-- A scan that takes nothing leaves the queue as it is, and a task in it was skipped because
it belongs to another thread, in which case others are tickled, or because its fiber is
`RUNNING`. -/
theorem scanTasks_none {thread : Nat} {state : FiberId → FiberState} {tasks : List ScheduleTask}
    (h : (scanTasks thread state tasks).task = none) :
    (scanTasks thread state tasks).tasks = tasks ∧
      ((scanTasks thread state tasks).tickleMe = true ∨
        ∀ t ∈ tasks, ∃ f, t.fiber = some f ∧ state f = .RUNNING) := by
  induction tasks with
  | nil => simp [scanTasks]
  | cons t rest ih =>
      unfold scanTasks at h ⊢
      by_cases hpin : t.thread ≠ none ∧ t.thread ≠ some thread
      · rw [if_pos hpin] at h ⊢
        exact ⟨by simp [(ih h).1], .inl rfl⟩
      · rw [if_neg hpin] at h ⊢
        by_cases hrun : (t.fiber.any fun f => state f == .RUNNING) = true
        · rw [if_pos hrun] at h ⊢
          obtain ⟨h1, h2⟩ := ih h
          refine ⟨by simp [h1], h2.imp_right ?_⟩
          intro hall t' ht'
          rcases List.mem_cons.mp ht' with rfl | ht'
          · simpa [Option.any_eq_true] using hrun
          · exact hall t' ht'
        · rw [if_neg hrun] at h
          simp at h

/-- Switching into the fiber, or executing it before `yield`. -/
def Pc.runs (f : FiberId) (p : Pc) : Bool := p == .switching f || p == .running f

theorem runs_iff {f : FiberId} {p : Pc} :
    p.runs f = true ↔ p = .switching f ∨ p = .running f := by
  simp [Pc.runs]

theorem edge_runs (f : FiberId) (p p' : Pc) (he : Edge p p') (hp : p.runs f = true)
    (hne : p ≠ .running f) : p'.runs f = true := by
  rcases runs_iff.mp hp with rfl | rfl
  · cases he
    simp [Pc.runs]
  · exact absurd rfl hne

/-- The states of fibers change in `resume`, in `yield`, at their end and when they are made. -/
theorem fiberState_step (hs : poolStep s a = some s') :
    s'.fiberState = s.fiberState ∨
    (∃ w f, a = .setRunning w f ∧ s.pc w = .asserted f ∧
      s' = (s.setPc w (.switching f)).setState f .RUNNING) ∨
    ∃ w f x p, x ≠ .RUNNING ∧ (s.pc w = .running f ∨ ∃ c, s.pc w = .takenCb c) ∧
      s' = (s.setPc w p).setState f x := by
  cases a with
  | setRunning w f =>
      obtain ⟨hr, rfl⟩ := when_eq_some.mp hs
      exact .inr (.inl ⟨w, f, rfl, hr.1, rfl⟩)
  | yield w f =>
      obtain ⟨⟨hr, -⟩, rfl⟩ := when_eq_some.mp hs
      exact .inr (.inr ⟨w, f, .READY, _, by simp, .inl hr.1, rfl⟩)
  | finish w f =>
      obtain ⟨hr, rfl⟩ := when_eq_some.mp hs
      exact .inr (.inr ⟨w, f, .TERM, _, by simp, .inl hr.1, rfl⟩)
  | newFiber w c f =>
      obtain ⟨⟨hr, -⟩, rfl⟩ := when_eq_some.mp hs
      exact .inr (.inr ⟨w, f, .READY, _, by simp, .inr ⟨c, hr.1⟩, rfl⟩)
  | micro t op rest | handleEvent w e items | cancelEvent t e | stop3 w now =>
      obtain ⟨-, rfl⟩ := when_eq_some.mp hs
      exact .inl (by simp [Pool.setPc])
  | drain w items =>
      obtain ⟨-, rfl⟩ := when_eq_some.mp hs
      left
      split <;> rfl
  | _ =>
      obtain ⟨-, rfl⟩ := when_eq_some.mp hs
      exact .inl rfl

/-- A worker executing a fiber leaves it in `yield` or at its end only. -/
theorem fiberState_of_running (hs : poolStep s a = some s') {w : Fin (n + 1)} {f : FiberId}
    (ha : a.worker = some w) (hpc : s.pc w = .running f) : s'.fiberState f ≠ .RUNNING := by
  cases a <;> simp only [PoolAct.worker, Option.some.injEq, reduceCtorEq] at ha <;> subst ha
  case yield u g =>
    obtain ⟨⟨hr, -⟩, rfl⟩ := when_eq_some.mp hs
    have hgf : g = f := by simpa [hpc] using hr.1.symm
    simp [Pool.setState, hgf]
  case finish u g =>
    obtain ⟨hr, rfl⟩ := when_eq_some.mp hs
    have hgf : g = f := by simpa [hpc] using hr.1.symm
    simp [Pool.setState, hgf]
  all_goals
    have hready := (when_eq_some.mp hs).1
    simp [Pool.ready, hpc] at hready

theorem runningHeld_step (h : RunningHeld s) (hs : poolStep s a = some s') : RunningHeld s' := by
  intro f hf
  -- a worker that had the fiber still has it, since the fiber is still `RUNNING`
  have hkeep : s.fiberState f = .RUNNING → ∃ w, s'.pc w = .switching f ∨ s'.pc w = .running f := by
    intro hold
    obtain ⟨w, hw⟩ := h f hold
    rcases poolStep_keeps hs (edge_runs f) (runs_iff.mpr hw) with h1 | ⟨ha, hpc⟩
    · exact ⟨w, runs_iff.mp h1⟩
    · exact absurd hf (fiberState_of_running hs ha hpc)
  rcases fiberState_step hs with hst | ⟨w, g, -, -, rfl⟩ | ⟨w, g, x, p, hx, -, rfl⟩
  · exact hkeep (hst ▸ hf)
  · by_cases hfg : f = g
    · subst hfg
      exact ⟨w, .inl (by simp [Pool.setState, Pool.setPc])⟩
    · exact hkeep (by simpa [Pool.setState, Pool.setPc, hfg] using hf)
  · by_cases hfg : f = g
    · subst hfg
      exact absurd (by simpa [Pool.setState] using hf) hx
    · exact hkeep (by simpa [Pool.setState, Pool.setPc, hfg] using hf)

/-- Tasks in the queue are going to be looked at. -/
def Awake (s : Pool n m) : Prop := s.tasks ≠ [] → Stirs (fun _ => true) Pc.willScan s

/-- A worker that finds nothing in a queue that is not empty has tickled others, or leaves
the fibers it skipped to the workers that run them. -/
theorem awake_scan (hrun : RunningHeld s) {w : Fin (n + 1)} (hr : s.ready w .scan)
    (hset : (scanTasks w s.fiberState s.tasks).task.all ScheduleTask.isSet = true) :
    Awake (s.scan w) := by
  intro htasks
  cases htask : (scanTasks w s.fiberState s.tasks).task with
  | some t =>
      refine .inr (.inr (.inl ⟨w, ?_⟩))
      rw [htask] at hset
      simp only [Pool.scan, Pool.setPc, Pool.setTodo, Function.update_self, ScanResult.pc, htask]
      cases hf : t.fiber with
      | some f => rfl
      | none =>
          cases hc : t.cb with
          | some c => rfl
          | none => simp [ScheduleTask.isSet, hf, hc] at hset
  | none =>
      obtain ⟨hsame, hskip⟩ := scanTasks_none htask
      rcases hskip with htickle | hall
      · refine .inr (.inl ⟨.inl w, .tickle .other, ?_, rfl⟩)
        simp [Pool.scan, Pool.setTodo, htickle]
      · obtain ⟨t, ht⟩ := List.exists_mem_of_ne_nil _ htasks
        have ht' : t ∈ s.tasks := hsame ▸ ht
        obtain ⟨f, -, hf⟩ := hall t ht'
        obtain ⟨u, hu⟩ := hrun f hf
        have huw : u ≠ w := by
          rintro rfl
          rcases hu with h | h <;> simp [hr.1] at h
        refine .inr (.inr (.inl ⟨u, ?_⟩))
        simp only [Pool.scan, Pool.setPc, Pool.setTodo, Function.update_of_ne huw]
        rcases hu with h | h <;> simp [h, Pc.willScan]

/-- A `tickle` that finds no idle worker leaves one that will scan, or has ended. -/
theorem stirs_of_dropped (hc : Counted s) {t : Thread n m} {c : Caller} {rest : List Micro}
    (h0 : s.idleThreadCount = 0) (hw : ∃ w, s.pc w ≠ .empty ∨ s.idleTerm w = true) :
    Stirs (fun _ => true) Pc.willScan (s.micro t (.tickle c) rest) := by
  obtain ⟨w, hw | hw⟩ := hw
  · have hidle := hc.not_idle h0 w
    have hpc : (s.micro t (.tickle c) rest).pc w = s.pc w := rfl
    cases hp : s.pc w with
    | exited => exact .inr (.inr (.inr ⟨w, hc.exited w hp⟩))
    | empty => exact absurd hp hw
    | stop1 | stop2 | stop3 | entering | inWait | woken | clocked | peeked | handling
    | leaving => simp [hp, Pc.idle] at hidle
    | _ => exact .inr (.inr (.inl ⟨w, by rw [hpc, hp]; rfl⟩))
  · exact .inr (.inr (.inr ⟨w, hw⟩))

theorem awake_step (hc : Counted s) (hrun : RunningHeld s) (h : Awake s)
    (hg : SeenTickle s a) (hs : poolStep s a = some s') : Awake s' := by
  -- the queue was not empty before
  have carry : s.tasks ≠ [] → (∀ w, a ≠ .scan w) → Stirs (fun _ => true) Pc.willScan s' := by
    intro htasks hscan
    rcases stirs_step hs edge_willScan (fun _ => rfl) (h htasks) with h1 | ⟨w, ha, hpc⟩ |
        ⟨t, c, rest, rfl, h0⟩
    · exact h1
    · exact absurd (eq_scan_of_worker hs ha hpc) (hscan w)
    · obtain ⟨-, rfl⟩ := when_eq_some.mp hs
      exact stirs_of_dropped hc h0 (hg h0 htasks)
  rcases tasks_step hs with hsame | ⟨w, rfl⟩ | ⟨t, task, rest, rfl⟩
  · by_cases hscan : ∃ w, a = .scan w
    · obtain ⟨w, rfl⟩ := hscan
      obtain ⟨⟨hr, hset⟩, rfl⟩ := when_eq_some.mp hs
      exact awake_scan hrun hr hset
    · intro htasks
      exact carry (hsame ▸ htasks) fun w hw => hscan ⟨w, hw⟩
  · obtain ⟨⟨hr, hset⟩, rfl⟩ := when_eq_some.mp hs
    exact awake_scan hrun hr hset
  · intro _
    by_cases hempty : s.tasks = []
    · -- the first task in the queue is announced
      obtain ⟨-, rfl⟩ := when_eq_some.mp hs
      refine .inr (.inl ⟨t, .tickle .other, ?_, rfl⟩)
      simp [Pool.micro, Pool.push, Pool.setTodo, hempty]
    · exact carry hempty fun w hw => by cases hw

/-- The three parts of the invariant together. -/
structure Watched (s : Pool n m) : Prop where
  counted : Counted s
  running : RunningHeld s
  awake : Awake s

theorem watched_inductive : (poolSys n m).Inductive SeenTickle Watched where
  init := by
    rintro s ⟨now, hlt, rfl⟩
    refine ⟨(counted_inductive SeenTickle).init _ ⟨now, hlt, rfl⟩, ?_, ?_⟩
    · intro f hf
      cases hf
    · intro htasks
      exact absurd rfl htasks
  step := fun _ _ _ h hg hs => ⟨poolStep_counted h.counted hs, runningHeld_step h.running hs,
    awake_step h.counted h.running h.awake hg hs⟩

/-- In a run whose every `tickle` is seen no task is lost. -/
theorem no_lost_task {s : Pool n m} (h : (poolSys n m).Reaches SeenTickle s) : ¬ LostTask s := by
  have hinv := watched_inductive.invariant h
  rintro ⟨⟨t, ht, -⟩, hblocked, hpipe, htick⟩
  rcases hinv.awake (List.ne_nil_of_mem ht) with h1 | h1 | ⟨w, hw⟩ | ⟨w, hw⟩
  · omega
  · exact htick h1
  · have := hblocked w
    cases hp : s.pc w <;> simp_all [Pc.willScan, Pc.blocked]
  · -- a blocked worker is inside its idle fiber
    have hin : (s.pc w).inside = true := by
      have := hblocked w
      cases hp : s.pc w <;> simp_all [Pc.inside, Pc.blocked]
    rw [hinv.counted.inside w hin] at hw
    cases hw

/-- `SeenTickle`, as a test. -/
def seenTickleTest (s : Pool n m) : PoolAct n m → Bool
  | .micro _ (.tickle _) _ =>
      decide (s.idleThreadCount = 0 → s.tasks ≠ [] → ∃ w, s.pc w ≠ .empty ∨ s.idleTerm w = true)
  | _ => true

theorem seenTickle_of_test (s : Pool n m) (a : PoolAct n m) (h : seenTickleTest s a = true) :
    SeenTickle s a := by
  unfold seenTickleTest at h
  unfold SeenTickle
  split
  · exact of_decide_eq_true h
  · trivial

/-- Thread `t` schedules a callback before worker `w` scans the queue and another one when the
worker, done with the first, is blocked. -/
def seenTrace (w : Fin (n + 1)) (t : Fin m) : List (PoolAct n m) :=
  [.schedule (.inr t) (.ofCb 8 none), .micro (.inr t) (.push (.ofCb 8 none)) [],
    .micro (.inr t) (.tickle .other) [], .scan w, .newFiber w 8 7, .assertReady w 7,
    .setRunning w 7, .switchIn w 7, .finish w 7, .switchOut w 7, .decActive w, .scan w,
    .enterIdle w, .stop1 w, .stop2 w 1000, .stop3 w 1000, .enterWait w (.till 6000),
    .schedule (.inr t) (.ofCb 9 none), .micro (.inr t) (.push (.ofCb 9 none)) [],
    .micro (.inr t) (.tickle .other) [], .micro (.inr t) (.writePipe .other) []]

theorem no_lost_task_blocked :
    ∃ s : Pool 0 1, s.tasks = [.ofCb 9 none] ∧ (s.pc 0).blocked = true ∧ ¬ LostTask s := by
  have hrun : ((poolSys 0 1).exec seenTickleTest (.start 1000) (seenTrace 0 0)).map
      (fun s => decide (s.tasks = [.ofCb 9 none]) && (s.pc 0).blocked) = some true := by
    decide +kernel
  obtain ⟨s, hs, hp⟩ := TSys.exists_reaches (M := poolSys 0 1) seenTickle_of_test
    ⟨1000, by decide, rfl⟩ hrun
  simp only [Bool.and_eq_true, decide_eq_true_eq] at hp
  exact ⟨s, hp.1, hp.2, no_lost_task hs⟩

/-- Worker `w` has scanned the empty queue; thread `t` schedules a callback and finds nobody
idle; the worker announces itself and blocks. -/
def lostTrace (w : Fin (n + 1)) (t : Fin m) : List (PoolAct n m) :=
  [.scan w, .schedule (.inr t) (.ofCb 7 none), .micro (.inr t) (.push (.ofCb 7 none)) [],
    .micro (.inr t) (.tickle .other) [], .enterIdle w, .stop1 w, .stop2 w 1000, .stop3 w 1000,
    .enterWait w (.till 6000)]

/-- The callback stays in the queue with nobody to wake the worker. -/
theorem task_lost : ∃ s : Pool 0 1, (poolSys 0 1).Reachable s ∧ LostTask s := by
  have hrun : ((poolSys 0 1).exec (fun _ _ => true) (.start 1000) (lostTrace 0 0)).map
      (fun s => decide (s.tasks = [.ofCb 7 none]) && (s.pc 0).blocked && decide (s.pipe = 0) &&
        decide (s.todo (.inl 0) = []) && decide (s.todo (.inr 0) = [])) = some true := by
    decide +kernel
  obtain ⟨s, hs, hp⟩ := TSys.exists_reachable (M := poolSys 0 1)
    ⟨1000, by decide, rfl⟩ hrun
  simp only [Bool.and_eq_true, decide_eq_true_eq] at hp
  obtain ⟨⟨⟨⟨htasks, hpc⟩, hpipe⟩, h1⟩, h2⟩ := hp
  refine ⟨s, hs, ⟨.ofCb 7 none, by simp [htasks], rfl, by simp [ScheduleTask.ofCb]⟩, ?_, hpipe, ?_⟩
  · intro w
    rw [Fin.fin_one_eq_zero w]
    exact hpc
  · rintro ⟨t | t, op, hop, -⟩
    · rw [Fin.fin_one_eq_zero t, h1] at hop
      simp at hop
    · rw [Fin.fin_one_eq_zero t, h2] at hop
      simp at hop

end Gxh.Workers
