import Gxh.Workers.Steps

/-!
# Stopping drains the pool

A worker leaves `run` after its idle fiber has ended, and that ends when `stopping` finds no
timer, no pending event, and the scheduler stopped with nothing queued or active. The three
are read one after the other.

* `OnlyWorkersCreate` — once `m_stopping` is set, new work comes from the workers only;
* `LastRead` — the last worker to end its idle loop finds, with its third read, that what it
  read before still holds;
* `Drain` — the invariant: as long as there is work some worker's idle fiber is alive.
-/

namespace Gxh.Workers

variable {n m : Nat} {s s' : Pool n m} {a : PoolAct n m}

/-- Once every worker has left `run` there is nothing left to do. -/
def StopDrains (s : Pool n m) : Prop :=
  (∀ w, s.pc w = .exited) → s.tasks = [] ∧ s.tm.timers = [] ∧ s.pendingEventCount = 0

/-- Threads outside the pool create no task, timer or event after `m_stopping` is set. -/
def OnlyWorkersCreate (s : Pool n m) : PoolAct n m → Prop
  | .micro (.inr _) (.push _) _ => s.stopping = false
  | .insertTimer (.inr _) _ _ _ => s.stopping = false
  | .addEvent (.inr _) _ _ => s.stopping = false
  | _ => True

/-- When the third read of `stopping` ends the idle loop of the last worker still in it, no
timer has been added since the first read and no event since the second. -/
def LastRead (s : Pool n m) : PoolAct n m → Prop
  | .stop3 w _ => s.schedulerStopping = true →
      (∃ w', w' ≠ w ∧ s.idleTerm w' = false) ∨
        (s.tm.timers = [] ∧ s.pendingEventCount = 0)
  | _ => True

/-! ## The count of pending events -/

/-- Decrements of `m_pendingEventCount` that are still to come. -/
def decs (l : List Micro) : Nat := l.countP fun op => op == .decPending

/-- `m_pendingEventCount` counts the registered events, and those taken out whose decrement
is still to come. -/
def Balanced (s : Pool n m) : Prop :=
  s.pendingEventCount = s.events.length + tally decs s.todo

theorem Balanced.written (h : Balanced s) {t : Thread n m} {l : List Micro}
    (htodo : s'.todo = Function.update s.todo t l)
    (hcount : s'.pendingEventCount + s.events.length + decs (s.todo t) =
      s.pendingEventCount + s'.events.length + decs l) : Balanced s' := by
  have := tally_update decs s.todo t l
  unfold Balanced at *
  rw [htodo]
  omega

theorem Balanced.congr (h : Balanced s) (htodo : s'.todo = s.todo)
    (hevents : s'.events = s.events)
    (hpending : s'.pendingEventCount = s.pendingEventCount) : Balanced s' := by
  unfold Balanced at *
  rw [htodo, hevents, hpending]
  exact h

theorem decs_stopBody : decs (Pool.stopBody n) = 0 := by
  rw [decs, List.countP_eq_zero]
  intro x hx
  have := mem_stopBody hx
  cases x <;> simp_all [Micro.isControl]

theorem lookup_eraseP {l : List (EventId × ScheduleTask)} {e : EventId}
    (h : (l.lookup e).isSome = true) : (l.eraseP fun x => x.1 == e).length + 1 = l.length := by
  induction l with
  | nil => simp at h
  | cons x rest ih =>
      rw [List.lookup_cons] at h
      by_cases hx : e = x.1
      · rw [List.eraseP_cons_of_pos (by simp [hx])]
        rfl
      · have hne : (e == x.1) = false := by simpa using hx
        rw [hne] at h
        rw [List.eraseP_cons_of_neg (by simpa using fun he => hx he.symm), List.length_cons,
          List.length_cons, ih h]

theorem Balanced.trigger (h : Balanced s) {t : Thread n m} (e : EventId) (htodo : s.todo t = []) :
    Balanced (s.trigger t e) := by
  unfold Pool.trigger
  split
  · exact h
  · rename_i task htask
    refine h.written (t := t) (l := [.push task, .decPending]) rfl ?_
    have hlen := lookup_eraseP (l := s.events) (e := e) (by rw [htask]; rfl)
    show s.pendingEventCount + s.events.length + decs (s.todo t) =
      s.pendingEventCount + (s.events.eraseP fun x => x.1 == e).length + 1
    rw [htodo]
    simp only [decs, List.countP_nil]
    omega

theorem Balanced.micro (h : Balanced s) {t : Thread n m} {op : Micro} {rest : List Micro}
    (htodo : s.todo t = op :: rest) : Balanced (s.micro t op rest) := by
  -- whatever is put before the rest has no decrement in it
  have hwrite : ∀ (s' : Pool n m) (pre : List Micro),
      s'.todo = Function.update s.todo t (pre ++ rest) →
      s'.events = s.events → s'.pendingEventCount = s.pendingEventCount → decs pre = 0 →
      (op == .decPending) = false → Balanced s' := by
    intro s' pre h1 h2 h3 hpre hop
    refine h.written h1 ?_
    rw [h2, h3, htodo]
    simp only [decs, List.countP_append, List.countP_cons, hop] at hpre ⊢
    simp [hpre]
  cases op with
  | insertTimer timer => exact h
  | push task =>
      refine hwrite _ (if s.tasks = [] then [.tickle .other] else []) rfl rfl rfl ?_ rfl
      split <;> rfl
  | tickle c =>
      refine hwrite _ (if s.idleThreadCount > 0 then [.writePipe c] else []) rfl rfl rfl ?_ rfl
      split <;> rfl
  | writePipe c => exact hwrite _ [] rfl rfl rfl rfl rfl
  | setStopping => exact hwrite _ [] rfl rfl rfl rfl rfl
  | stopping1 =>
      refine hwrite _ (if (s.tm.getNextTimer s.clock).2 = max64 then [.stopping2]
        else Pool.stopBody n) ?_ rfl rfl ?_ rfl
      · show Function.update s.todo t _ = _
        congr 1
        split <;> rfl
      · split
        · rfl
        · exact decs_stopBody
  | stopping2 =>
      refine hwrite _ (if s.pendingEventCount = 0 then [.stopping3] else Pool.stopBody n)
        ?_ rfl rfl ?_ rfl
      · show Function.update s.todo t _ = _
        congr 1
        split <;> rfl
      · split
        · rfl
        · exact decs_stopBody
  | stopping3 =>
      refine hwrite _ (if s.schedulerStopping then [] else Pool.stopBody n) ?_ rfl rfl ?_ rfl
      · show Function.update s.todo t _ = _
        congr 1
        split <;> rfl
      · split
        · rfl
        · exact decs_stopBody
  | decPending =>
      have hpos : 0 < s.pendingEventCount := by
        have hle := le_tally decs s.todo t
        have hone : 1 ≤ decs (s.todo t) := by
          rw [htodo]
          simp [decs]
        unfold Balanced at h
        omega
      refine h.written (t := t) (l := rest) rfl ?_
      show pred64 s.pendingEventCount + s.events.length + decs (s.todo t) =
        s.pendingEventCount + s.events.length + decs rest
      rw [pred64_of_pos hpos, htodo]
      simp only [decs, List.countP_cons, beq_self_eq_true, if_true]
      omega

theorem balanced_step (h : Balanced s) (hs : poolStep s a = some s') : Balanced s' := by
  -- a thread with no call under way starts some, none of them a decrement
  have hstart : ∀ {t : Thread n m} {l : List Micro} {r : Pool n m}, s.todo t = [] →
      r.todo = Function.update s.todo t l → r.events = s.events →
      r.pendingEventCount = s.pendingEventCount → decs l = 0 → Balanced r := by
    intro t l r hnil h1 h2 h3 hl
    refine h.written h1 ?_
    rw [h2, h3, hnil, hl]
    rfl
  cases a with
  | scan w =>
      obtain ⟨⟨hr, -⟩, rfl⟩ := when_eq_some.mp hs
      refine hstart hr.2 rfl rfl rfl ?_
      split <;> rfl
  | listExpired w items now addr =>
      obtain ⟨hr, rfl⟩ := when_eq_some.mp hs
      refine hstart hr.2 rfl rfl rfl ?_
      rw [decs, List.countP_map]
      exact List.countP_eq_zero.mpr fun _ _ => by simp
  | handleEvent w e items =>
      obtain ⟨hr, rfl⟩ := when_eq_some.mp hs
      -- the registration goes, and its decrement is still to come
      have hmoved : Balanced (s.setPc w (.handling items)) := h
      exact hmoved.trigger e hr.2
  | cancelEvent t e =>
      obtain ⟨hr, rfl⟩ := when_eq_some.mp hs
      exact h.trigger e hr.2
  | micro t op rest =>
      obtain ⟨⟨htodo, -⟩, rfl⟩ := when_eq_some.mp hs
      exact h.micro htodo
  | insertTimer t addr timer rest =>
      obtain ⟨⟨htodo, -⟩, rfl⟩ := when_eq_some.mp hs
      refine h.written (t := t) rfl ?_
      show s.pendingEventCount + s.events.length + _ = s.pendingEventCount + s.events.length + _
      rw [htodo]
      have hop : (Micro.insertTimer timer == .decPending) = false := rfl
      cases hf : (s.tm.addTimer addr timer).2 <;> simp [decs, hop]
  | reset t addr ms fromNow =>
      obtain ⟨hr, rfl⟩ := when_eq_some.mp hs
      refine hstart hr.2 rfl rfl rfl ?_
      split <;> rfl
  | schedule t task | addTimer t ms cb recurring | stop i =>
      obtain ⟨hr, rfl⟩ := when_eq_some.mp hs
      exact hstart hr.2 rfl rfl rfl rfl
  | addEvent t e task =>
      obtain ⟨-, rfl⟩ := when_eq_some.mp hs
      unfold Balanced at *
      simp only [List.length_cons]
      omega
  | delEvent t e =>
      obtain ⟨⟨-, he⟩, rfl⟩ := when_eq_some.mp hs
      have hlen := lookup_eraseP he
      unfold Balanced at *
      -- the event is there, so the counter does not wrap
      have hpos : 0 < s.pendingEventCount := by omega
      show pred64 s.pendingEventCount = (s.events.eraseP fun x => x.1 == e).length +
        tally decs s.todo
      rw [pred64_of_pos hpos]
      omega
  | stop3 w now =>
      obtain ⟨-, rfl⟩ := when_eq_some.mp hs
      unfold Pool.stop3
      split <;> exact h
  | drain w items =>
      obtain ⟨-, rfl⟩ := when_eq_some.mp hs
      split <;> exact h.congr rfl rfl rfl
  | _ =>
      obtain ⟨-, rfl⟩ := when_eq_some.mp hs
      exact h.congr rfl rfl rfl

/-! ## The invariant -/

/-- A worker that steps in `run` has no call under way. -/
theorem todo_of_worker (hs : poolStep s a = some s') {w : Fin (n + 1)}
    (ha : a.worker = some w) : s.todo (.inl w) = [] := by
  cases a <;> simp only [PoolAct.worker, Option.some.injEq, reduceCtorEq] at ha <;> subst ha
  all_goals
    have hready := (when_eq_some.mp hs).1
    first
      | exact hready.2
      | exact hready.1.2

/-- A worker creates work only inside a task or while it handles events and timers. -/
def Owned (s : Pool n m) : Prop :=
  ∀ w x, x ∈ s.todo (.inl w) → x.isControl = false →
    (s.pc w).busy = 1 ∨ ∃ items, s.pc w = .handling items

theorem owned_step (h : Owned s) (hs : poolStep s a = some s') : Owned s' := by
  intro w x hx hctl
  rcases mem_todo_step hs hx with hold | hc | ⟨-, u, items, hu, hpc⟩ | ⟨hcode, hpc, -⟩
  · -- with a call under way the worker stays where it is
    have hsame : s'.pc w = s.pc w := by
      rcases poolStep_pc hs with hpc | ⟨u, p, ha, hpc, -⟩
      · rw [hpc]
      · have hwu : w ≠ u := by
          rintro rfl
          rw [todo_of_worker hs ha] at hold
          simp at hold
        rw [hpc, Function.update_of_ne hwu]
    rw [hsame]
    exact h w x hold hctl
  · rw [hc] at hctl
    cases hctl
  · cases hu
    exact .inr ⟨items, hpc⟩
  · left
    have hrun : (s.pc w).isRunning = true := hcode.1
    rw [hpc]
    cases hp : s.pc w <;> simp_all [Pc.isRunning, Pc.busy]

structure Drain (s : Pool n m) : Prop where
  counted : Counted s
  balanced : Balanced s
  owned : Owned s
  stopped : ∀ w, s.idleTerm w = true → s.stopping = true
  empty : (∀ w, s.idleTerm w = true) → s.tasks = [] ∧ s.tm.timers = [] ∧
    s.pendingEventCount = 0 ∧ s.activeThreadCount = 0

/-- The steps that end an idle fiber. -/
theorem idleTerm_cases (hs : poolStep s a = some s') :
    s'.idleTerm = s.idleTerm ∨ ∃ w now, a = .stop3 w now ∧ s.schedulerStopping = true ∧
      s' = s.stop3 w now ∧ s'.idleTerm = Function.update s.idleTerm w true := by
  cases a with
  | stop3 w now =>
      obtain ⟨-, rfl⟩ := when_eq_some.mp hs
      cases hst : s.schedulerStopping with
      | true =>
          refine .inr ⟨w, now, rfl, rfl, rfl, ?_⟩
          simp [Pool.stop3, hst]
      | false =>
          left
          simp [Pool.stop3, hst, Pool.setPc]
  | micro t op rest | handleEvent w e items | cancelEvent t e =>
      obtain ⟨-, rfl⟩ := when_eq_some.mp hs
      exact .inl (by simp [Pool.setPc])
  | drain w items =>
      obtain ⟨-, rfl⟩ := when_eq_some.mp hs
      left
      split <;> rfl
  | _ =>
      obtain ⟨-, rfl⟩ := when_eq_some.mp hs
      exact .inl rfl

theorem stopping_step (hs : poolStep s a = some s') (h : s.stopping = true) :
    s'.stopping = true := by
  cases a with
  | micro t op rest =>
      obtain ⟨-, rfl⟩ := when_eq_some.mp hs
      cases op with
      | setStopping => rfl
      | _ => exact h
  | handleEvent w e items | cancelEvent t e | stop3 w now =>
      obtain ⟨-, rfl⟩ := when_eq_some.mp hs
      simpa [Pool.setPc] using h
  | drain w items =>
      obtain ⟨-, rfl⟩ := when_eq_some.mp hs
      split <;> exact h
  | _ =>
      obtain ⟨-, rfl⟩ := when_eq_some.mp hs
      exact h

/-! ## After the last idle fiber has ended -/

section Dead

variable (h : Drain s) (hdead : ∀ w, s.idleTerm w = true)
include h hdead

/-- No worker is inside a task or inside its idle fiber. -/
theorem dead_pc (w : Fin (n + 1)) : (s.pc w).busy = 0 ∧ (s.pc w).inside = false := by
  refine ⟨h.counted.not_busy (h.empty hdead).2.2.2 w, ?_⟩
  by_contra hin
  rw [Bool.not_eq_false] at hin
  have := h.counted.inside w hin
  rw [hdead w] at this
  cases this

/-- No worker has work to create. -/
theorem dead_todo {w : Fin (n + 1)} {x : Micro} (hx : x ∈ s.todo (.inl w)) :
    x.isControl = true := by
  by_contra hctl
  rw [Bool.not_eq_true] at hctl
  obtain ⟨hbusy, hin⟩ := dead_pc h hdead w
  rcases h.owned w x hx hctl with h1 | ⟨items, h1⟩
  · omega
  · simp [h1, Pc.inside] at hin

/-- Nor has anyone else: the other threads create work before `stop` only. -/
theorem dead_no_todo {t : Thread n m} {x : Micro} {rest : List Micro}
    (htodo : s.todo t = x :: rest) (hx : x.isControl = false)
    (houter : ∀ i, t = .inr i → s.stopping = false) : False := by
  cases t with
  | inl w =>
      have hmem : x ∈ s.todo (.inl w) := by
        rw [htodo]
        exact List.mem_cons_self
      rw [dead_todo h hdead hmem] at hx
      cases hx
  | inr i =>
      have hstopped : s.stopping = true := h.stopped 0 (hdead 0)
      rw [houter i rfl] at hstopped
      cases hstopped

/-- No worker runs code. -/
theorem dead_code {w : Fin (n + 1)} : ¬ s.runsCode (.inl w) := by
  rintro ⟨hrun, -⟩
  have hbusy := (dead_pc h hdead w).1
  have hrun' : (s.pc w).isRunning = true := hrun
  cases hp : s.pc w <;> simp_all [Pc.isRunning, Pc.busy]

theorem dead_stopping : s.stopping = true := h.stopped 0 (hdead 0)

theorem dead_tasks (hg : OnlyWorkersCreate s a) (hs : poolStep s a = some s') :
    s'.tasks = [] := by
  have hempty := (h.empty hdead).1
  rcases tasks_step hs with hsame | ⟨w, rfl⟩ | ⟨t, task, rest, rfl⟩
  · rw [hsame]
    exact hempty
  · obtain ⟨-, rfl⟩ := when_eq_some.mp hs
    simp [Pool.scan, hempty, scanTasks]
  · obtain ⟨⟨htodo, -⟩, -⟩ := when_eq_some.mp hs
    refine (dead_no_todo h hdead htodo rfl ?_).elim
    rintro i rfl
    exact hg

theorem dead_timers (hg : OnlyWorkersCreate s a) (hs : poolStep s a = some s') :
    s'.tm.timers = [] := by
  have hempty := (h.empty hdead).2.1
  have hfound : ∀ addr, s.tm.found addr = false := by
    intro addr
    simp [TimerManager.found, OrdSet.find, hempty]
  rcases tm_step hs with heq | heq | ⟨w, items, now, addr, rfl, hpc, -⟩ |
      ⟨t, addr, timer, rest, rfl, -, htodo, -⟩ | ⟨t, addr, rfl, heq⟩ |
      ⟨t, addr, rfl, heq⟩ | ⟨t, addr, ms, fromNow, rfl, heq, -⟩
  · rw [heq]
    exact hempty
  · rw [heq]
    exact hempty
  · have := (dead_pc h hdead w).2
    simp [hpc, Pc.inside] at this
  · refine (dead_no_todo h hdead htodo rfl ?_).elim
    rintro i rfl
    exact hg
  · rw [heq]
    unfold TimerManager.cancel
    split
    · exact hempty
    · split
      · show s.tm.timers.erase addr = []
        rw [hempty]
        rfl
      · exact hempty
  · rw [heq]
    unfold TimerManager.refresh
    split
    · exact hempty
    · simp [hfound, hempty]
  · rw [heq]
    unfold TimerManager.reset
    split
    · exact hempty
    · simp [hfound, hempty]

theorem dead_pending (hg : OnlyWorkersCreate s a) (hs : poolStep s a = some s') :
    s'.pendingEventCount = 0 := by
  have hzero := (h.empty hdead).2.2.1
  have hbal : s.events.length + tally decs s.todo = 0 := h.balanced.symm.trans hzero
  cases a with
  | addEvent t e task =>
      obtain ⟨⟨hcode, -⟩, -⟩ := when_eq_some.mp hs
      cases t with
      | inl w => exact absurd hcode (dead_code h hdead)
      | inr i =>
          have hoff : s.stopping = false := hg
          rw [dead_stopping h hdead] at hoff
          cases hoff
  | delEvent t e =>
      obtain ⟨⟨-, he⟩, -⟩ := when_eq_some.mp hs
      have := lookup_eraseP he
      omega
  | micro t op rest =>
      obtain ⟨⟨htodo, -⟩, rfl⟩ := when_eq_some.mp hs
      cases op with
      | decPending =>
          -- every decrement to come is counted
          have hle := le_tally decs s.todo t
          have hone : 1 ≤ decs (s.todo t) := by
            rw [htodo]
            simp [decs]
          omega
      | _ => exact hzero
  | handleEvent w e items | cancelEvent t e | stop3 w now =>
      obtain ⟨-, rfl⟩ := when_eq_some.mp hs
      simpa [Pool.setPc] using hzero
  | drain w items =>
      obtain ⟨-, rfl⟩ := when_eq_some.mp hs
      split <;> exact hzero
  | _ =>
      obtain ⟨-, rfl⟩ := when_eq_some.mp hs
      exact hzero

theorem dead_active (hs : poolStep s a = some s') : s'.activeThreadCount = 0 := by
  obtain ⟨htasks, -, -, hzero⟩ := h.empty hdead
  cases a with
  | scan w =>
      obtain ⟨-, rfl⟩ := when_eq_some.mp hs
      simp [Pool.scan, htasks, scanTasks, hzero]
  | decActive w =>
      obtain ⟨hr, -⟩ := when_eq_some.mp hs
      have := (dead_pc h hdead w).1
      simp [hr.1, Pc.busy] at this
  | micro t op rest | handleEvent w e items | cancelEvent t e | stop3 w now =>
      obtain ⟨-, rfl⟩ := when_eq_some.mp hs
      simpa [Pool.setPc] using hzero
  | drain w items =>
      obtain ⟨-, rfl⟩ := when_eq_some.mp hs
      split <;> exact hzero
  | _ =>
      obtain ⟨-, rfl⟩ := when_eq_some.mp hs
      exact hzero

end Dead

theorem drain_step (h : Drain s) (hg : OnlyWorkersCreate s a) (hlast : LastRead s a)
    (hs : poolStep s a = some s') : Drain s' := by
  refine ⟨poolStep_counted h.counted hs, balanced_step h.balanced hs, owned_step h.owned hs,
    ?_, ?_⟩
  · intro w hw
    rcases idleTerm_cases hs with hsame | ⟨u, now, rfl, hst, -, -⟩
    · exact stopping_step hs (h.stopped w (hsame ▸ hw))
    · apply stopping_step hs
      simp only [Pool.schedulerStopping, Bool.and_eq_true] at hst
      exact hst.1.1
  · intro hall
    rcases idleTerm_cases hs with hsame | ⟨u, now, rfl, hst, hs', hterm⟩
    · have hdead : ∀ w, s.idleTerm w = true := fun w => hsame ▸ hall w
      exact ⟨dead_tasks h hdead hg hs, dead_timers h hdead hg hs, dead_pending h hdead hg hs,
        dead_active h hdead hs⟩
    · -- the last idle fiber ends here, so the two earlier reads still hold
      have hothers : ¬ ∃ w', w' ≠ u ∧ s.idleTerm w' = false := by
        rintro ⟨w', hne, hfalse⟩
        have := hall w'
        rw [hterm, Function.update_of_ne hne, hfalse] at this
        cases this
      obtain ⟨htimers, hpending⟩ := (hlast hst).resolve_left hothers
      have hsched := hst
      simp only [Pool.schedulerStopping, Bool.and_eq_true, List.isEmpty_iff,
        beq_iff_eq] at hsched
      rw [hs', Pool.stop3, if_pos hst]
      exact ⟨hsched.1.2, htimers, hpending, hsched.2⟩

theorem drain_inductive : (poolSys n m).Inductive
    (fun s a => OnlyWorkersCreate s a ∧ LastRead s a) Drain where
  init := by
    rintro s ⟨now, hlt, rfl⟩
    refine ⟨(counted_inductive fun _ _ => True).init _ ⟨now, hlt, rfl⟩, ?_, ?_, ?_, ?_⟩
    · simp [Balanced, Pool.start, tally, decs]
    · intro w x hx
      cases hx
    · intro w hw
      cases hw
    · intro hall
      exact absurd (hall 0) (by simp [Pool.start])
  step := fun _ _ _ h hg hs => drain_step h hg.1 hg.2 hs

/-- In a run in which the last idle loop to end finds its earlier reads still true, a pool
whose workers have all left `run` has no task, no timer and no pending event. -/
theorem stop_drains {s : Pool n m}
    (h : (poolSys n m).Reaches (fun s a => OnlyWorkersCreate s a ∧ LastRead s a) s) :
    StopDrains s := by
  have hinv := drain_inductive.invariant h
  intro hexit
  have hdead : ∀ w, s.idleTerm w = true := fun w => hinv.counted.exited w (hexit w)
  obtain ⟨h1, h2, h3, -⟩ := hinv.empty hdead
  exact ⟨h1, h2, h3⟩

/-! ## Concrete runs -/

def onlyWorkersTest (s : Pool n m) : PoolAct n m → Bool
  | .micro (.inr _) (.push _) _ => !s.stopping
  | .insertTimer (.inr _) _ _ _ => !s.stopping
  | .addEvent (.inr _) _ _ => !s.stopping
  | _ => true

theorem onlyWorkers_of_test (s : Pool n m) (a : PoolAct n m) (h : onlyWorkersTest s a = true) :
    OnlyWorkersCreate s a := by
  unfold onlyWorkersTest at h
  unfold OnlyWorkersCreate
  split <;> simp_all

def lastReadTest (s : Pool n m) : PoolAct n m → Bool
  | .stop3 _ _ => !s.schedulerStopping || (s.tm.timers.isEmpty && s.pendingEventCount == 0)
  | _ => true

theorem lastRead_of_test (s : Pool n m) (a : PoolAct n m) (h : lastReadTest s a = true) :
    LastRead s a := by
  cases a with
  | stop3 w now =>
      intro hst
      right
      simpa [lastReadTest, hst] using h
  | _ => trivial

/-- Worker `w` blocks, thread `t` stops the pool, and the worker leaves. -/
def cleanStopTrace (w : Fin (n + 1)) (t : Fin m) : List (PoolAct n m) :=
  [.scan w, .enterIdle w, .stop1 w, .stop2 w 1000, .stop3 w 1000, .enterWait w (.till 6000),
    .stop t, .micro (.inr t) .stopping1 [], .micro (.inr t) .stopping2 [],
    .micro (.inr t) .stopping3 [], .micro (.inr t) .setStopping [.tickle .other],
    .micro (.inr t) (.tickle .other) [], .micro (.inr t) (.writePipe .other) [],
    .returnWait w (.till 6000) [.tickle], .readClock w [.tickle], .peek w [.tickle] 1000,
    .drain w [], .drain w [], .leave w, .decIdle w, .scan w, .enterIdle w, .stop1 w,
    .stop2 w 1000, .stop3 w 1000, .decIdle w, .scan w, .exitRun w]

theorem stop_drains_clean :
    ∃ s : Pool 0 1, (∀ w, s.pc w = .exited) ∧ s.stopping = true ∧ StopDrains s := by
  have hrun : ((poolSys 0 1).exec (fun s a => onlyWorkersTest s a && lastReadTest s a)
      (.start 1000) (cleanStopTrace 0 0)).map
      (fun s => decide (s.pc 0 = .exited) && s.stopping) = some true := by
    decide +kernel
  obtain ⟨s, hs, hp⟩ := TSys.exists_reaches (M := poolSys 0 1)
    (G := fun s a => OnlyWorkersCreate s a ∧ LastRead s a)
    (fun s a h => ⟨onlyWorkers_of_test s a (Bool.and_eq_true _ _ ▸ h).1,
      lastRead_of_test s a (Bool.and_eq_true _ _ ▸ h).2⟩)
    ⟨1000, by decide, rfl⟩ hrun
  simp only [Bool.and_eq_true, decide_eq_true_eq] at hp
  refine ⟨s, fun w => ?_, hp.2, stop_drains hs⟩
  rw [Fin.fin_one_eq_zero w]
  exact hp.1

/-- Worker `w` has read that there is no timer; thread `t` adds one and then stops the pool;
the other two reads succeed. -/
def lateTimerTrace (w : Fin (n + 1)) (t : Fin m) : List (PoolAct n m) :=
  [.scan w, .enterIdle w, .stop1 w, .addTimer (.inr t) 50 7 false,
    .insertTimer (.inr t) 3 (.new 1000 50 (some 7) false) [],
    .micro (.inr t) (.tickle .timer) [], .micro (.inr t) (.writePipe .timer) [], .stop t,
    .micro (.inr t) .stopping1 [], .micro (.inr t) .setStopping [.tickle .other],
    .micro (.inr t) (.tickle .other) [], .micro (.inr t) (.writePipe .other) [],
    .stop2 w 1000, .stop3 w 1000, .decIdle w, .scan w, .exitRun w]

/-- Every worker has left `run` and the timer is still pending, although nothing was created
after `m_stopping` was set. -/
theorem stop_leaves_timer :
    ∃ s : Pool 0 1, (poolSys 0 1).Reaches OnlyWorkersCreate s ∧ ¬ StopDrains s := by
  have hrun : ((poolSys 0 1).exec onlyWorkersTest (.start 1000) (lateTimerTrace 0 0)).map
      (fun s => decide (s.pc 0 = .exited) && decide (s.tm.timers = [3])) = some true := by
    decide +kernel
  obtain ⟨s, hs, hp⟩ := TSys.exists_reaches (M := poolSys 0 1) onlyWorkers_of_test
    ⟨1000, by decide, rfl⟩ hrun
  simp only [Bool.and_eq_true, decide_eq_true_eq] at hp
  refine ⟨s, hs, fun hdrains => ?_⟩
  have hexit : ∀ w, s.pc w = .exited := by
    intro w
    rw [Fin.fin_one_eq_zero w]
    exact hp.1
  have := (hdrains hexit).2.1
  simp [hp.2] at this

end Gxh.Workers
