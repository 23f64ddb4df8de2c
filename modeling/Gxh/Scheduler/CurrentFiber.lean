import Gxh.Scheduler.Fiber

/-!
# The current fiber

`t_fiber`, which `Fiber::GetThis` and `GetFiberId` answer with, is to point to the fiber whose code
the thread executes. `resume` sets it to the fiber it switches to. `yield` sets it to the thread's
main fiber, and switches to the scheduling fiber.

* `FiberInv` holds of every run: where each thread is, and that a fiber that no thread executes
  goes on with its own code;
* `current_fiber` — the pointer is right in every state of a run if and only if no task and no
  idle fiber comes back to the scheduling fiber of a `use_caller` scheduler on the caller's thread.
-/

namespace Gxh

/-- The fibers that only this thread may touch. -/
def FiberThread.Owns (th : FiberThread) (f : FiberId) : Prop :=
  f = th.t_thread_fiber ∨ f = th.t_scheduler_fiber ∨ f = th.exec

namespace FiberMachine

/-- Where a thread is, and what it takes for its current fiber there. -/
inductive Place (m : FiberMachine) (th : FiberThread) : Prop
  | main (hexec : th.exec = th.t_thread_fiber) (hcurrent : th.t_fiber = th.t_thread_fiber)
      (hidle : th.useCaller = true → (m.fibers th.t_scheduler_fiber).state ≠ .RUNNING)
  | scheduling (hcaller : th.useCaller = true) (hexec : th.exec = th.t_scheduler_fiber)
      (hcurrent : th.t_fiber = th.t_scheduler_fiber ∨ th.t_fiber = th.t_thread_fiber)
      (hstate : (m.fibers th.t_scheduler_fiber).state = .RUNNING)
  | task (hscheduled : (m.fibers th.exec).runInScheduler = true)
      (hstate : (m.fibers th.exec).state = .RUNNING) (hcurrent : th.t_fiber = th.exec)
      (hbelow : th.useCaller = true → (m.fibers th.t_scheduler_fiber).state = .RUNNING)

structure ThreadInv (m : FiberMachine) (th : FiberThread) : Prop where
  known : ∀ f, th.Owns f → f < m.s_fiber_id
  main : (m.fibers th.t_thread_fiber).runInScheduler = false
  scheduler : (m.fibers th.t_scheduler_fiber).runInScheduler = false
  levels : th.t_scheduler_fiber = th.t_thread_fiber ↔ th.useCaller = false
  place : Place m th

structure FiberInv (m : FiberMachine) : Prop where
  thread : ∀ {t th}, m.threads t = some th → ThreadInv m th
  apart : ∀ {t t' th th'}, m.threads t = some th → m.threads t' = some th' → t ≠ t' →
    ∀ f, th.Owns f → ¬th'.Owns f
  suspended : ∀ f < m.s_fiber_id, (∀ t th, m.threads t = some th → th.exec ≠ f) →
    (m.fibers f).ctx = f

variable {m m' : FiberMachine} {t : Nat} {th : FiberThread} {f : FiberId}

/-- Only the fibers that a thread owns decide where it is. -/
theorem ThreadInv.congr (h : ThreadInv m th) (hid : m.s_fiber_id ≤ m'.s_fiber_id)
    (hfibers : ∀ f, th.Owns f → m'.fibers f = m.fibers f) : ThreadInv m' th := by
  have hmain := hfibers _ (.inl rfl)
  have hscheduler := hfibers _ (.inr (.inl rfl))
  have hexec := hfibers _ (.inr (.inr rfl))
  refine ⟨fun f hf => Nat.lt_of_lt_of_le (h.known f hf) hid, ?_, ?_, h.levels, ?_⟩
  · rw [hmain]
    exact h.main
  · rw [hscheduler]
    exact h.scheduler
  · cases h.place with
    | main hplace hcurrent hidle =>
        refine .main hplace hcurrent ?_
        rw [hscheduler]
        exact hidle
    | scheduling hcaller hplace hcurrent hstate =>
        refine .scheduling hcaller hplace hcurrent ?_
        rw [hscheduler]
        exact hstate
    | task hscheduled hstate hcurrent hbelow =>
        refine .task ?_ ?_ hcurrent ?_
        · rw [hexec]
          exact hscheduled
        · rw [hexec]
          exact hstate
        · rw [hscheduler]
          exact hbelow

/-- The thread of a caller has a scheduling fiber of its own. -/
theorem ThreadInv.levels_ne (h : ThreadInv m th) (hcaller : th.useCaller = true) :
    th.t_scheduler_fiber ≠ th.t_thread_fiber := by
  intro hsame
  have hfalse := h.levels.mp hsame
  rw [hcaller] at hfalse
  cases hfalse

/-- A thread that executes a task is right about it, and has its scheduling fiber below it. -/
theorem ThreadInv.at_task (h : ThreadInv m th)
    (hscheduled : (m.fibers th.exec).runInScheduler = true) :
    th.t_fiber = th.exec ∧
      (th.useCaller = true → (m.fibers th.t_scheduler_fiber).state = .RUNNING) := by
  cases h.place with
  | main hexec =>
      rw [hexec, h.main] at hscheduled
      cases hscheduled
  | scheduling _ hexec =>
      rw [hexec, h.scheduler] at hscheduled
      cases hscheduled
  | task _ _ hcurrent hbelow => exact ⟨hcurrent, hbelow⟩

/-- A task that does not run is no thread's. -/
theorem ThreadInv.not_owns (h : ThreadInv m th) (hscheduled : (m.fibers f).runInScheduler = true)
    (hstate : (m.fibers f).state ≠ .RUNNING) : ¬th.Owns f := by
  have hne : ∀ g, (m.fibers g).runInScheduler = false → f ≠ g := by
    rintro g hg rfl
    rw [hg] at hscheduled
    cases hscheduled
  rintro (hf | hf | hf)
  · exact hne _ h.main hf
  · exact hne _ h.scheduler hf
  · cases h.place with
    | main hplace => exact hne _ h.main (hf.trans hplace)
    | scheduling _ hplace => exact hne _ h.scheduler (hf.trans hplace)
    | task _ hrunning =>
        rw [hf] at hstate
        exact hstate hrunning

/-! ## Fibers and threads that are made -/

theorem newFiber_fibers_self (m : FiberMachine) (state : FiberState) (b : Bool) :
    (m.newFiber state b).fibers m.s_fiber_id = ⟨state, b, m.s_fiber_id⟩ :=
  Function.update_self _ _ _

theorem newFiber_fibers_of_lt (state : FiberState) (b : Bool) (hf : f < m.s_fiber_id) :
    (m.newFiber state b).fibers f = m.fibers f :=
  Function.update_of_ne (Nat.ne_of_lt hf) _ _

theorem FiberInv.newFiber (h : FiberInv m) (state : FiberState) (b : Bool) :
    FiberInv (m.newFiber state b) := by
  refine ⟨fun hth => ?_, h.apart, fun f hf hfree => ?_⟩
  · exact (h.thread hth).congr (Nat.le_succ _) fun f hf =>
      newFiber_fibers_of_lt state b ((h.thread hth).known f hf)
  · rcases Nat.lt_succ_iff_lt_or_eq.mp hf with hold | rfl
    · rw [newFiber_fibers_of_lt state b hold]
      exact h.suspended f hold hfree
    · rw [newFiber_fibers_self]

/-- The threads stay apart when one of them is replaced by one that is apart from the others. -/
theorem FiberInv.apart_update (h : FiberInv m)
    (hapart : ∀ t' th', t' ≠ t → m.threads t' = some th' → ∀ f, th.Owns f → ¬th'.Owns f)
    {t₁ t₂ : Nat} {th₁ th₂ : FiberThread}
    (h₁ : Function.update m.threads t (some th) t₁ = some th₁)
    (h₂ : Function.update m.threads t (some th) t₂ = some th₂) (hne : t₁ ≠ t₂) (f : FiberId)
    (hf : th₁.Owns f) : ¬th₂.Owns f := by
  by_cases ht₁ : t₁ = t
  · have ht₂ : t₂ ≠ t := fun he => hne (ht₁.trans he.symm)
    rw [ht₁, Function.update_self] at h₁
    rw [Function.update_of_ne ht₂] at h₂
    cases h₁
    exact hapart t₂ th₂ ht₂ h₂ f hf
  · rw [Function.update_of_ne ht₁] at h₁
    by_cases ht₂ : t₂ = t
    · rw [ht₂, Function.update_self] at h₂
      cases h₂
      exact fun hf₂ => hapart t₁ th₁ ht₁ h₁ f hf₂ hf
    · rw [Function.update_of_ne ht₂] at h₂
      exact h.apart h₁ h₂ hne f hf

theorem FiberInv.setThread (h : FiberInv m) (hnone : m.threads t = none) (hth : ThreadInv m th)
    (hapart : ∀ t' th', m.threads t' = some th' → ∀ f, th.Owns f → ¬th'.Owns f) :
    FiberInv (m.setThread t th) := by
  have hself : (m.setThread t th).threads t = some th := Function.update_self _ _ _
  have hother : ∀ t', t' ≠ t → (m.setThread t th).threads t' = m.threads t' :=
    fun t' ht' => Function.update_of_ne ht' _ _
  refine ⟨?_, h.apart_update fun t' th' _ => hapart t' th', ?_⟩
  · intro t' th' hth'
    by_cases ht' : t' = t
    · rw [ht', hself] at hth'
      cases hth'
      exact hth.congr (Nat.le_refl _) fun _ _ => rfl
    · rw [hother t' ht'] at hth'
      exact (h.thread hth').congr (Nat.le_refl _) fun _ _ => rfl
  · intro f hf hfree
    refine h.suspended f hf fun t' th' hth' => hfree t' th' ?_
    have ht' : t' ≠ t := by
      rintro rfl
      rw [hnone] at hth'
      cases hth'
    rw [hother t' ht']
    exact hth'

/-- A fiber that is no thread's gets its own code to go on with. -/
theorem FiberInv.setFiber (h : FiberInv m) {x : Fiber} (hctx : x.ctx = f)
    (hfree : ∀ t th, m.threads t = some th → ¬th.Owns f) : FiberInv (m.setFiber f x) := by
  have hother : ∀ g, g ≠ f → (m.setFiber f x).fibers g = m.fibers g :=
    fun g hg => Function.update_of_ne hg _ _
  have hself : (m.setFiber f x).fibers f = x := Function.update_self _ _ _
  refine ⟨fun hth => ?_, h.apart, fun g hg hnone => ?_⟩
  · refine (h.thread hth).congr (Nat.le_refl _) fun g hg => hother g ?_
    rintro rfl
    exact hfree _ _ hth hg
  · by_cases hgf : g = f
    · rw [hgf, hself]
      exact hctx
    · rw [hother g hgf]
      exact h.suspended g hg hnone

/-! ## Switches -/

/-- Thread `t` leaves the fiber it executes, in state `sx`, for `y`, in state `sy`, with `current`
for its current fiber. -/
structure Switched (m m' : FiberMachine) (t : Nat) (th : FiberThread) (y : FiberId)
    (sx sy : FiberState) (current : FiberId) : Prop where
  left : m'.fibers th.exec = ⟨sx, (m.fibers th.exec).runInScheduler, th.exec⟩
  entered : m'.fibers y = { m.fibers y with state := sy }
  other : ∀ f, f ≠ th.exec → f ≠ y → m'.fibers f = m.fibers f
  id : m'.s_fiber_id = m.s_fiber_id
  threads : m'.threads = Function.update m.threads t
    (some { th with t_fiber := current, exec := y })

theorem Switched.runInScheduler {y current : FiberId} {sx sy : FiberState}
    (hs : Switched m m' t th y sx sy current) (f : FiberId) :
    (m'.fibers f).runInScheduler = (m.fibers f).runInScheduler := by
  by_cases hx : f = th.exec
  · rw [hx, hs.left]
  · by_cases hy : f = y
    · rw [hy, hs.entered]
    · rw [hs.other f hx hy]

/-- A switch to a fiber that no other thread owns keeps the invariant. -/
theorem FiberInv.switched (h : FiberInv m) (hth : m.threads t = some th) {y current : FiberId}
    {sx sy : FiberState} (hs : Switched m m' t th y sx sy current) (hy : y < m.s_fiber_id)
    (hfree : ∀ t' th', m.threads t' = some th' → t' ≠ t → ¬th'.Owns y)
    (hplace : Place m' { th with t_fiber := current, exec := y }) : FiberInv m' := by
  have hself : m'.threads t = some { th with t_fiber := current, exec := y } := by
    rw [hs.threads]
    exact Function.update_self _ _ _
  have hother : ∀ t', t' ≠ t → m'.threads t' = m.threads t' := by
    intro t' ht'
    rw [hs.threads]
    exact Function.update_of_ne ht' _ _
  have hinv := h.thread hth
  -- what the thread owns now it owned before, but for the fiber it has entered
  have howns : ∀ {g}, FiberThread.Owns { th with t_fiber := current, exec := y } g →
      th.Owns g ∨ g = y := by
    rintro g (hg | hg | hg)
    · exact .inl (.inl hg)
    · exact .inl (.inr (.inl hg))
    · exact .inr hg
  refine ⟨?_, ?_, ?_⟩
  · intro t' th' hth'
    by_cases ht' : t' = t
    · rw [ht', hself] at hth'
      cases hth'
      refine ⟨fun g hg => ?_, ?_, ?_, hinv.levels, hplace⟩
      · rw [hs.id]
        rcases howns hg with hold | rfl
        · exact hinv.known g hold
        · exact hy
      · rw [hs.runInScheduler]
        exact hinv.main
      · rw [hs.runInScheduler]
        exact hinv.scheduler
    · rw [hother t' ht'] at hth'
      refine (h.thread hth').congr (Nat.le_of_eq hs.id.symm) fun g hg => hs.other g ?_ ?_
      · rintro rfl
        exact h.apart hth' hth ht' _ hg (.inr (.inr rfl))
      · rintro rfl
        exact hfree t' th' hth' ht' hg
  · rw [hs.threads]
    refine h.apart_update fun t' th' ht' hth' g hg => ?_
    rcases howns hg with hold | rfl
    · exact h.apart hth hth' ht'.symm g hold
    · exact hfree t' th' hth' ht'
  · intro g hg hnone
    rw [hs.id] at hg
    by_cases hx : g = th.exec
    · rw [hx, hs.left]
    · have hgy : g ≠ y := fun he => hnone t _ hself he.symm
      rw [hs.other g hx hgy]
      refine h.suspended g hg fun t' th' hth' => ?_
      by_cases ht' : t' = t
      · rw [ht', hth] at hth'
        cases hth'
        exact fun he => hx he.symm
      · rw [← hother t' ht'] at hth'
        exact hnone t' th' hth'

/-- A switch between fibers of one thread. -/
theorem FiberInv.switched_own (h : FiberInv m) (hth : m.threads t = some th) {y current : FiberId}
    {sx sy : FiberState} (hs : Switched m m' t th y sx sy current) (hy : th.Owns y)
    (hplace : Place m' { th with t_fiber := current, exec := y }) : FiberInv m' :=
  h.switched hth hs ((h.thread hth).known y hy)
    (fun _ _ hth' ht' => h.apart hth hth' ht'.symm y hy) hplace

/-- A swap of the fiber that executes with one that goes on with its own code. -/
theorem swapcontext_switched {y current : FiberId} (hne : y ≠ th.exec) {n : FiberMachine}
    {sx sy : FiberState} (hctx : (m.fibers y).ctx = y)
    (hx : n.fibers th.exec = { m.fibers th.exec with state := sx })
    (hy : n.fibers y = { m.fibers y with state := sy })
    (hother : ∀ f, f ≠ th.exec → f ≠ y → n.fibers f = m.fibers f)
    (hid : n.s_fiber_id = m.s_fiber_id) (hthreads : n.threads = m.threads) :
    Switched m (n.swapcontext t { th with t_fiber := current } th.exec y) t th y sx sy current where
  left := by
    simp [swapcontext, setFiber, setThread, hx]
  entered := by
    simp [swapcontext, setFiber, setThread, hne, hy]
  other := by
    intro f hfx hfy
    simp [swapcontext, setFiber, setThread, hfx, hother f hfx hfy]
  id := hid
  threads := by
    simp [swapcontext, setFiber, setThread, hne, hy, hctx, hthreads]

/-- A fiber of the thread that it does not execute goes on with its own code. -/
theorem FiberInv.own_suspended (h : FiberInv m) (hth : m.threads t = some th) (hf : th.Owns f)
    (hne : th.exec ≠ f) : (m.fibers f).ctx = f := by
  refine h.suspended f ((h.thread hth).known f hf) fun t' th' hth' => ?_
  by_cases ht' : t' = t
  · rw [ht', hth] at hth'
    cases hth'
    exact hne
  · rintro rfl
    exact h.apart hth hth' (Ne.symm ht') _ hf (.inr (.inr rfl))

theorem ThreadInv.scheduler_running (h : ThreadInv m th) (hcaller : th.useCaller = true)
    (hexec : th.exec = th.t_scheduler_fiber) :
    (m.fibers th.t_scheduler_fiber).state = .RUNNING := by
  cases h.place with
  | main hplace => exact absurd (hexec.symm.trans hplace) (h.levels_ne hcaller)
  | scheduling _ _ _ hstate => exact hstate
  | task hscheduled =>
      rw [hexec, h.scheduler] at hscheduled
      cases hscheduled

/-- `resume` from `run`, to a task or the idle fiber. -/
theorem run_resume (h : FiberInv m) (hth : m.threads t = some th) (hf : f < m.s_fiber_id)
    (hexec : th.exec = th.t_scheduler_fiber) (hscheduled : (m.fibers f).runInScheduler = true)
    (hstep : m.resume t th f = some m') :
    FiberInv m' ∧ m'.threads = Function.update m.threads t
      (some { th with t_fiber := f, exec := f }) := by
  have hinv := h.thread hth
  obtain ⟨hready, hm'⟩ := when_eq_some.mp hstep
  have hfree : ∀ t' th', m.threads t' = some th' → ¬th'.Owns f := fun t' th' hth' =>
    (h.thread hth').not_owns hscheduled (by rw [hready]; decide)
  have hne : f ≠ th.exec := fun he => hfree t th hth (.inr (.inr he))
  have hctx : (m.fibers f).ctx = f :=
    h.suspended f hf fun t' th' hth' he => hfree t' th' hth' (.inr (.inr he.symm))
  have hpartner : m.partner th f = th.exec := by
    unfold partner
    rw [hscheduled, hexec]
    rfl
  have hs : Switched m m' t th f (m.fibers th.exec).state .RUNNING f := by
    rw [← hm', hpartner]
    exact swapcontext_switched hne hctx (Function.update_of_ne hne.symm _ _)
      (Function.update_self _ _ _) (fun g _ hg => Function.update_of_ne hg _ _) rfl rfl
  refine ⟨h.switched hth hs hf (fun t' th' hth' _ => hfree t' th' hth') (.task ?_ ?_ rfl ?_),
    hs.threads⟩
  · rw [hs.entered]
    exact hscheduled
  · rw [hs.entered]
  · intro hcaller
    show (m'.fibers th.t_scheduler_fiber).state = .RUNNING
    rw [← hexec, hs.left, hexec]
    exact hinv.scheduler_running hcaller hexec

/-- `resume` from `stop`, to the scheduling fiber. -/
theorem stop_resume (h : FiberInv m) (hth : m.threads t = some th) (hcaller : th.useCaller = true)
    (hexec : th.exec = th.t_thread_fiber) (hstep : m.resume t th th.t_scheduler_fiber = some m') :
    FiberInv m' ∧ m'.threads = Function.update m.threads t
      (some { th with t_fiber := th.t_scheduler_fiber, exec := th.t_scheduler_fiber }) := by
  have hinv := h.thread hth
  obtain ⟨-, hm'⟩ := when_eq_some.mp hstep
  have hne : th.t_scheduler_fiber ≠ th.exec := by
    rw [hexec]
    exact hinv.levels_ne hcaller
  have hpartner : m.partner th th.t_scheduler_fiber = th.exec := by
    unfold partner
    rw [hinv.scheduler, hexec]
    rfl
  have hs : Switched m m' t th th.t_scheduler_fiber (m.fibers th.exec).state .RUNNING
      th.t_scheduler_fiber := by
    rw [← hm', hpartner]
    exact swapcontext_switched hne (h.own_suspended hth (.inr (.inl rfl)) hne.symm)
      (Function.update_of_ne hne.symm _ _) (Function.update_self _ _ _)
      (fun g _ hg => Function.update_of_ne hg _ _) rfl rfl
  refine ⟨h.switched_own hth hs (.inr (.inl rfl)) (.scheduling hcaller rfl (.inl rfl) ?_),
    hs.threads⟩
  exact congrArg Fiber.state hs.entered

/-- `yield` of the fiber that executes, in state `s`. -/
theorem yield_switched {n : FiberMachine} {s : FiberState}
    (hstep : n.yield t th th.exec = some m')
    (hexec : n.fibers th.exec = { m.fibers th.exec with state := s })
    (hother : ∀ f, f ≠ th.exec → n.fibers f = m.fibers f) (hid : n.s_fiber_id = m.s_fiber_id)
    (hthreads : n.threads = m.threads) {y : FiberId} (hpartner : m.partner th th.exec = y)
    (hne : y ≠ th.exec) (hctx : (m.fibers y).ctx = y) :
    Switched m m' t th y (if s ≠ .TERM then .READY else s) (m.fibers y).state
      th.t_thread_fiber := by
  obtain ⟨-, rfl⟩ := when_eq_some.mp hstep
  have hsame : n.partner th th.exec = y := by
    rw [← hpartner]
    unfold partner
    rw [hexec]
  rw [hsame]
  refine swapcontext_switched hne hctx ?_ ?_ ?_ hid hthreads
  · refine (Function.update_self _ _ _).trans ?_
    rw [hexec]
  · exact (Function.update_of_ne hne _ _).trans (hother y hne)
  · exact fun g hg _ => (Function.update_of_ne hg _ _).trans (hother g hg)

/-- A task or the idle fiber goes back to the scheduling fiber, with the main fiber for current
fiber. -/
theorem task_leaves (h : FiberInv m) (hth : m.threads t = some th)
    (hscheduled : (m.fibers th.exec).runInScheduler = true) {n : FiberMachine} {s : FiberState}
    (hstep : n.yield t th th.exec = some m')
    (hexec : n.fibers th.exec = { m.fibers th.exec with state := s })
    (hother : ∀ f, f ≠ th.exec → n.fibers f = m.fibers f) (hid : n.s_fiber_id = m.s_fiber_id)
    (hthreads : n.threads = m.threads) :
    FiberInv m' ∧ m'.threads = Function.update m.threads t
      (some { th with t_fiber := th.t_thread_fiber, exec := th.t_scheduler_fiber }) := by
  have hinv := h.thread hth
  have hne : th.t_scheduler_fiber ≠ th.exec := by
    intro he
    rw [← he, hinv.scheduler] at hscheduled
    cases hscheduled
  have hs := yield_switched hstep hexec hother hid hthreads (if_pos hscheduled) hne
    (h.own_suspended hth (.inr (.inl rfl)) hne.symm)
  refine ⟨h.switched_own hth hs (.inr (.inl rfl)) ?_, hs.threads⟩
  by_cases hcaller : th.useCaller = true
  · refine .scheduling hcaller rfl (.inr rfl) ?_
    rw [hs.entered]
    exact (hinv.at_task hscheduled).2 hcaller
  · exact .main (hinv.levels.mpr (Bool.not_eq_true _ ▸ hcaller)) rfl
      fun htrue => absurd htrue hcaller

/-- The scheduling fiber of a caller's thread has finished. -/
theorem scheduler_leaves (h : FiberInv m) (hth : m.threads t = some th)
    (hcaller : th.useCaller = true) (hexec : th.exec = th.t_scheduler_fiber)
    (hstep : m.finish t th th.exec = some m') :
    FiberInv m' ∧ m'.threads = Function.update m.threads t
      (some { th with t_fiber := th.t_thread_fiber, exec := th.t_thread_fiber }) := by
  have hinv := h.thread hth
  have hne : th.t_thread_fiber ≠ th.exec := by
    rw [hexec]
    exact (hinv.levels_ne hcaller).symm
  have hpartner : m.partner th th.exec = th.t_thread_fiber := by
    unfold partner
    rw [hexec, hinv.scheduler]
    rfl
  have hs := yield_switched (m := m) hstep (Function.update_self _ _ _)
    (fun g hg => Function.update_of_ne hg _ _) rfl rfl hpartner hne
    (h.own_suspended hth (.inl rfl) hne.symm)
  refine ⟨h.switched_own hth hs (.inl rfl) (.main rfl rfl fun _ => ?_), hs.threads⟩
  show (m'.fibers th.t_scheduler_fiber).state ≠ .RUNNING
  rw [← hexec, hs.left]
  exact nofun

/-! ## Steps -/

theorem FiberInv.caller (h : FiberInv m) (hnone : m.threads t = none) :
    FiberInv (((m.newFiber .RUNNING false).newFiber .READY false).setThread t
      ⟨true, m.s_fiber_id, m.s_fiber_id, m.s_fiber_id + 1, m.s_fiber_id⟩) := by
  have hmain : ((m.newFiber .RUNNING false).newFiber .READY false).fibers m.s_fiber_id =
      ⟨.RUNNING, false, m.s_fiber_id⟩ := by
    rw [newFiber_fibers_of_lt _ _ (Nat.lt_succ_self _), newFiber_fibers_self]
  have hroot : ((m.newFiber .RUNNING false).newFiber .READY false).fibers (m.s_fiber_id + 1) =
      ⟨.READY, false, m.s_fiber_id + 1⟩ := newFiber_fibers_self (m.newFiber .RUNNING false) _ _
  refine ((h.newFiber _ _).newFiber _ _).setThread hnone ⟨?_, ?_, ?_, ?_, ?_⟩ ?_
  · rintro f (rfl | rfl | rfl)
    · exact Nat.lt_succ_of_lt (Nat.lt_succ_self _)
    · exact Nat.lt_succ_self _
    · exact Nat.lt_succ_of_lt (Nat.lt_succ_self _)
  · rw [hmain]
  · rw [hroot]
  · exact iff_of_false (Nat.succ_ne_self _) nofun
  · refine .main rfl rfl fun _ => ?_
    rw [hroot]
    exact nofun
  · rintro t' th' hth' f hf hf'
    have hold := (h.thread hth').known f hf'
    rcases hf with rfl | rfl | rfl
    · exact absurd hold (Nat.lt_irrefl _)
    · exact absurd hold (Nat.not_lt.mpr (Nat.le_succ _))
    · exact absurd hold (Nat.lt_irrefl _)

theorem FiberInv.worker (h : FiberInv m) (hnone : m.threads t = none) :
    FiberInv ((m.newFiber .RUNNING false).setThread t
      ⟨false, m.s_fiber_id, m.s_fiber_id, m.s_fiber_id, m.s_fiber_id⟩) := by
  have hmain : (m.newFiber .RUNNING false).fibers m.s_fiber_id =
      ⟨.RUNNING, false, m.s_fiber_id⟩ := newFiber_fibers_self m _ _
  refine (h.newFiber _ _).setThread hnone ⟨?_, ?_, ?_, ?_, ?_⟩ ?_
  · rintro f (rfl | rfl | rfl)
    all_goals exact Nat.lt_succ_self _
  · rw [hmain]
  · rw [hmain]
  · exact iff_of_true rfl rfl
  · exact .main rfl rfl nofun
  · rintro t' th' hth' f hf hf'
    have hold := (h.thread hth').known f hf'
    rcases hf with rfl | rfl | rfl
    all_goals exact absurd hold (Nat.lt_irrefl _)

/-- The current fiber of every thread is the one it executes. -/
def CurrentRight (m : FiberMachine) : Prop :=
  ∀ t th, m.threads t = some th → th.t_fiber = th.exec

/-- A task or an idle fiber goes back to the scheduling fiber on the thread of a `use_caller`
scheduler's caller. -/
def ReturnsOnCaller (m : FiberMachine) (a : FiberAct) : Prop :=
  ∃ t th, (a = .yield t ∨ a = .finish t) ∧ m.threads t = some th ∧ th.useCaller = true ∧
    (m.fibers th.exec).runInScheduler = true

/-- What a step does to the pointers of the threads. -/
inductive Pointers (m m' : FiberMachine) (a : FiberAct) : Prop
  | same (hquiet : ¬ReturnsOnCaller m a) (hthreads : m'.threads = m.threads)
  | right (hquiet : ¬ReturnsOnCaller m a) (t : Nat) (th : FiberThread)
      (hthreads : m'.threads = Function.update m.threads t (some th))
      (hcurrent : th.t_fiber = th.exec)
  | wrong (hreturn : ReturnsOnCaller m a) (t : Nat) (th : FiberThread)
      (hthreads : m'.threads = Function.update m.threads t (some th))
      (hcurrent : th.t_fiber ≠ th.exec)

/-- The pointers after a task or an idle fiber has left. -/
theorem pointers_of_task {a : FiberAct} (h : FiberInv m) (hth : m.threads t = some th)
    (ha : a = .yield t ∨ a = .finish t) (hscheduled : (m.fibers th.exec).runInScheduler = true)
    (hthreads : m'.threads = Function.update m.threads t
      (some { th with t_fiber := th.t_thread_fiber, exec := th.t_scheduler_fiber })) :
    Pointers m m' a := by
  have hinv := h.thread hth
  by_cases hcaller : th.useCaller = true
  · exact .wrong ⟨t, th, ha, hth, hcaller, hscheduled⟩ t _ hthreads (hinv.levels_ne hcaller).symm
  · refine .right ?_ t _ hthreads (hinv.levels.mpr (Bool.not_eq_true _ ▸ hcaller)).symm
    rintro ⟨t', th', ha', hth', hcaller', -⟩
    have ht : t' = t := by
      rcases ha with rfl | rfl <;> rcases ha' with ha' | ha' <;> cases ha' <;> rfl
    rw [ht, hth] at hth'
    cases hth'
    exact hcaller hcaller'

theorem step_pointers {a : FiberAct} (h : FiberInv m) (hstep : m.step a = some m') :
    FiberInv m' ∧ Pointers m m' a := by
  -- only a fiber that is left can go back to the scheduling fiber
  have hquiet : ∀ {b : FiberAct}, (∀ t, b ≠ .yield t ∧ b ≠ .finish t) → ¬ReturnsOnCaller m b := by
    rintro b hb ⟨t, -, ha, -⟩
    exact ha.elim (hb t).1 (hb t).2
  cases a with
  | caller t =>
      obtain ⟨hnone, rfl⟩ := when_eq_some.mp hstep
      exact ⟨h.caller hnone, .right (hquiet fun _ => ⟨nofun, nofun⟩) t _ rfl rfl⟩
  | worker t =>
      obtain ⟨hnone, rfl⟩ := when_eq_some.mp hstep
      exact ⟨h.worker hnone, .right (hquiet fun _ => ⟨nofun, nofun⟩) t _ rfl rfl⟩
  | create =>
      cases hstep
      exact ⟨h.newFiber _ _, .same (hquiet fun _ => ⟨nofun, nofun⟩) rfl⟩
  | reset f =>
      obtain ⟨⟨-, hscheduled, hterm⟩, rfl⟩ := when_eq_some.mp hstep
      refine ⟨h.setFiber rfl fun t th hth => (h.thread hth).not_owns hscheduled ?_,
        .same (hquiet fun _ => ⟨nofun, nofun⟩) rfl⟩
      rw [hterm]
      decide
  | resume t f =>
      simp only [FiberMachine.step] at hstep
      split at hstep
      · cases hstep
      · rename_i th hth
        split at hstep
        · rename_i hmay
          obtain ⟨hf, ⟨hexec, hscheduled⟩ | ⟨hcaller, hexec, rfl⟩⟩ := hmay
          · obtain ⟨hinv, hthreads⟩ := run_resume h hth hf hexec hscheduled hstep
            exact ⟨hinv, .right (hquiet fun _ => ⟨nofun, nofun⟩) t _ hthreads rfl⟩
          · obtain ⟨hinv, hthreads⟩ := stop_resume h hth hcaller hexec hstep
            exact ⟨hinv, .right (hquiet fun _ => ⟨nofun, nofun⟩) t _ hthreads rfl⟩
        · cases hstep
  | yield t =>
      simp only [FiberMachine.step] at hstep
      split at hstep
      · cases hstep
      · rename_i th hth
        split at hstep
        · rename_i hscheduled
          -- `GetThis` answers with the fiber that executes
          rw [((h.thread hth).at_task hscheduled).1] at hstep
          obtain ⟨hinv, hthreads⟩ := task_leaves h hth hscheduled hstep rfl (fun _ _ => rfl) rfl rfl
          exact ⟨hinv, pointers_of_task h hth (.inl rfl) hscheduled hthreads⟩
        · cases hstep
  | finish t =>
      simp only [FiberMachine.step] at hstep
      split at hstep
      · cases hstep
      · rename_i th hth
        split at hstep
        · rename_i hcallback
          rcases hcallback with hscheduled | ⟨hcaller, hexec⟩
          · obtain ⟨hinv, hthreads⟩ := task_leaves h hth hscheduled hstep
              (Function.update_self _ _ _) (fun _ hg => Function.update_of_ne hg _ _) rfl rfl
            exact ⟨hinv, pointers_of_task h hth (.inr rfl) hscheduled hthreads⟩
          · obtain ⟨hinv, hthreads⟩ := scheduler_leaves h hth hcaller hexec hstep
            refine ⟨hinv, .right ?_ t _ hthreads rfl⟩
            rintro ⟨t', th', ha', hth', -, hscheduled⟩
            rcases ha' with ha' | ha' <;> cases ha'
            rw [hth] at hth'
            cases hth'
            rw [hexec, (h.thread hth).scheduler] at hscheduled
            cases hscheduled
        · cases hstep

theorem fiberInv_start : FiberInv .start where
  thread := nofun
  apart := nofun
  suspended := fun _ h => absurd h (Nat.not_lt_zero _)

theorem fiberInv_inductive : fiberSys.Inductive (fun _ _ => True) FiberInv where
  init := by
    rintro m rfl
    exact fiberInv_start
  step _ _ _ h _ hstep := (step_pointers h hstep).1

theorem currentRight_step {a : FiberAct} (h : FiberInv m) (hright : CurrentRight m)
    (hquiet : ¬ReturnsOnCaller m a) (hstep : m.step a = some m') : CurrentRight m' := by
  intro t' th' hth'
  cases (step_pointers h hstep).2 with
  | same _ hthreads =>
      rw [hthreads] at hth'
      exact hright t' th' hth'
  | right _ t th hthreads hcurrent =>
      rw [hthreads] at hth'
      by_cases ht : t' = t
      · rw [ht, Function.update_self] at hth'
        cases hth'
        exact hcurrent
      · rw [Function.update_of_ne ht] at hth'
        exact hright t' th' hth'
  | wrong hreturn => exact absurd hreturn hquiet

/-- Such a return leaves the thread wrong about its fiber. -/
theorem not_currentRight_step {a : FiberAct} (h : FiberInv m) (hreturn : ReturnsOnCaller m a)
    (hstep : m.step a = some m') : ¬CurrentRight m' := by
  intro hright
  cases (step_pointers h hstep).2 with
  | same hquiet => exact hquiet hreturn
  | right hquiet => exact hquiet hreturn
  | wrong _ t th hthreads hcurrent =>
      refine hcurrent (hright t th ?_)
      rw [hthreads, Function.update_self]

/-- In a run, the current fiber is right in every state if and only if no step is such a
return. -/
theorem current_fiber {actions : List FiberAct}
    (hrun : fiberSys.exec (fun _ _ => true) .start actions = some m) :
    fiberSys.Along CurrentRight .start actions ↔
      fiberSys.Meets (fun m a => ¬ReturnsOnCaller m a) .start actions := by
  refine TSys.along_iff_meets fiberInv_inductive ?_ ?_ hrun fiberInv_start nofun
  · intro m a m' hinv hright hquiet hstep
    exact currentRight_step hinv hright hquiet hstep
  · intro m a m' hinv hreturn hstep
    exact not_currentRight_step hinv (not_not.mp hreturn) hstep

/-- A test for the condition on a step. -/
def staysOnCaller (m : FiberMachine) : FiberAct → Bool
  | .yield t | .finish t =>
      (m.threads t).all fun th => !(th.useCaller && (m.fibers th.exec).runInScheduler)
  | _ => true

theorem not_returns_of_stays (m : FiberMachine) (a : FiberAct)
    (htest : staysOnCaller m a = true) : ¬ReturnsOnCaller m a := by
  rintro ⟨t, th, ha, hth, hcaller, hscheduled⟩
  rcases ha with rfl | rfl
  all_goals simp [staysOnCaller, hth, hcaller, hscheduled] at htest

/-- A worker starts a task, which yields. -/
theorem current_fiber_worker :
    fiberSys.Along CurrentRight .start [.worker 0, .create, .resume 0 1, .yield 0] := by
  obtain ⟨m, hm⟩ : ∃ m, fiberSys.exec staysOnCaller .start
      [.worker 0, .create, .resume 0 1, .yield 0] = some m :=
    Option.isSome_iff_exists.mp (by decide)
  obtain ⟨hrun, hmeets⟩ := TSys.exec_meets not_returns_of_stays hm
  exact (current_fiber hrun).mpr hmeets

/-- Fibers 0 and 1 are the main and the scheduling fiber of a caller's thread; `stop` starts the
scheduling fiber, which starts task 2, which yields. -/
def callerTrace : List FiberAct :=
  [.caller 0, .create, .resume 0 1, .resume 0 2, .yield 0]

/-- The scheduling fiber executes, and the current fiber is the main fiber. -/
theorem current_fiber_wrong : ∃ m, fiberSys.Reachable m ∧ ¬CurrentRight m := by
  have hrun : (fiberSys.exec (fun _ _ => true) .start callerTrace).map
      (fun m => decide (m.threads 0 = some ⟨true, 0, 0, 1, 1⟩)) = some true := by
    decide
  obtain ⟨m, hm, hthread⟩ := TSys.exists_reachable (M := fiberSys) rfl hrun
  refine ⟨m, hm, fun hright => ?_⟩
  exact absurd (hright 0 _ (of_decide_eq_true hthread)) (by decide)

end FiberMachine

end Gxh
