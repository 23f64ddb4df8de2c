import Gxh.Workers.Basic

/-!
# A fiber on one thread at a time

`yield` sets `m_state` to `READY` before `swapcontext` has saved the fiber's context, and
the queue scan skips a fiber only while it is `RUNNING`. A fiber that was scheduled before
it yields can be taken in between.

* `OneThread` — no two workers execute the same fiber, where a worker executes the fiber
  from the switch into it to the end of the switch out of it;
* `FreeFiber` — the scan takes no fiber that is in another worker's hands;
* `Held` — the invariant: the workers' fibers are all different.
-/

namespace Gxh.Workers

variable {n m : Nat}

/-- The fiber on whose stack the worker is. -/
def Pc.executes : Pc → Option FiberId
  | .running f | .yielding f => some f
  | _ => none

/-- No worker switches into a fiber that another worker has not left. -/
def OneThread (s : Pool n m) : Prop :=
  ∀ w w' f, (s.pc w).executes = some f → (s.pc w').executes = some f → w = w'

/-- The worker has the fiber in hand and may come to execute it: `resume` refuses a fiber
that has ended. -/
def Pool.holds (s : Pool n m) (w : Fin (n + 1)) (f : FiberId) : Prop :=
  (s.pc w).fiber = some f ∧ ¬(s.pc w = .taken f ∧ s.fiberState f = .TERM)

/-- The scan takes no fiber that another worker holds: one it has taken and not resumed yet,
or one whose `yield` has not saved the context. -/
def FreeFiber (s : Pool n m) : PoolAct n m → Prop
  | .scan w => ∀ task f, (scanTasks w s.fiberState s.tasks).task = some task →
      task.fiber = some f → s.fiberState f ≠ .TERM → ∀ w', w' ≠ w → ¬ s.holds w' f
  | _ => True

structure Held (s : Pool n m) : Prop where
  unique : ∀ w w' f, s.holds w f → s.holds w' f → w = w'
  alive : ∀ w f, s.pc w = .asserted f → s.fiberState f ≠ .TERM

theorem Held.congr {s s' : Pool n m} (h : Held s) (hpc : s'.pc = s.pc)
    (hstate : s'.fiberState = s.fiberState) : Held s' := by
  have hholds : ∀ w f, s'.holds w f ↔ s.holds w f := by
    intro w f
    simp [Pool.holds, hpc, hstate]
  refine ⟨?_, ?_⟩
  · intro w w' f hw hw'
    exact h.unique w w' f ((hholds w f).mp hw) ((hholds w' f).mp hw')
  · intro w f hw
    rw [hstate]
    exact h.alive w f (hpc ▸ hw)

/-- Executing a fiber is holding it. -/
theorem Held.oneThread {s : Pool n m} (h : Held s) : OneThread s := by
  have hexec : ∀ w f, (s.pc w).executes = some f → s.holds w f := by
    intro w f hw
    unfold Pool.holds
    cases hpc : s.pc w <;> simp_all [Pc.executes, Pc.fiber]
  intro w w' f hw hw'
  exact h.unique w w' f (hexec w f hw) (hexec w' f hw')

/-- Putting a fiber down. -/
theorem Held.setPc_none {s : Pool n m} (h : Held s) {w : Fin (n + 1)} {p : Pc}
    (hp : p.fiber = none) : Held (s.setPc w p) := by
  have hw : ∀ f, ¬ (s.setPc w p).holds w f := by
    intro f hf
    simp [Pool.holds, Pool.setPc, hp] at hf
  have hother : ∀ w' f, w' ≠ w → (s.setPc w p).holds w' f → s.holds w' f := by
    intro w' f hne hf
    simpa [Pool.holds, Pool.setPc, hne] using hf
  refine ⟨?_, ?_⟩
  · intro u v f hu hv
    have hu' : u ≠ w := fun he => hw f (he ▸ hu)
    have hv' : v ≠ w := fun he => hw f (he ▸ hv)
    exact h.unique u v f (hother u f hu' hu) (hother v f hv' hv)
  · intro u f hu
    by_cases hne : u = w
    · subst hne
      simp only [Pool.setPc, Function.update_self] at hu
      simp [hu, Pc.fiber] at hp
    · exact h.alive u f (by simpa [Pool.setPc, hne] using hu)

/-- Going on with the fiber in hand, past the point where it was taken. -/
theorem Held.setPc_same {s : Pool n m} (h : Held s) {w : Fin (n + 1)} {p : Pc} {f : FiberId}
    (hold : s.holds w f) (hp : p.fiber = some f)
    (halive : p = .asserted f → s.fiberState f ≠ .TERM) : Held (s.setPc w p) := by
  have hw : ∀ g, (s.setPc w p).holds w g → s.holds w g := by
    intro g hg
    have hfg : f = g := by
      have := hg.1
      simp only [Pool.setPc, Function.update_self] at this
      exact Option.some.inj (hp.symm.trans this)
    exact hfg ▸ hold
  have hany : ∀ u g, (s.setPc w p).holds u g → s.holds u g := by
    intro u g hg
    by_cases hne : u = w
    · subst hne
      exact hw g hg
    · simpa [Pool.holds, Pool.setPc, hne] using hg
  refine ⟨fun u v g hu hv => h.unique u v g (hany u g hu) (hany v g hv), ?_⟩
  intro u g hu
  by_cases hne : u = w
  · subst hne
    simp only [Pool.setPc, Function.update_self] at hu
    have hfg : f = g := by
      rw [hu] at hp
      exact (Option.some.inj hp).symm
    subst hfg
    exact halive hu
  · exact h.alive u g (by simpa [Pool.setPc, hne] using hu)

/-- The state of a fiber may change when the worker that holds it, if any, does not count on
it: nobody else can have it in hand unless it had ended. -/
theorem Held.setState {s : Pool n m} (h : Held s) {f : FiberId} {x : FiberState}
    (hother : ∀ w, s.pc w = .taken f → s.fiberState f = .TERM → x = .TERM)
    (hassert : x = .TERM → ∀ w, s.pc w ≠ .asserted f) : Held (s.setState f x) := by
  have hany : ∀ u g, (s.setState f x).holds u g → s.holds u g := by
    intro u g hg
    refine ⟨hg.1, fun ⟨hpc, hterm⟩ => hg.2 ⟨hpc, ?_⟩⟩
    by_cases hgf : g = f
    · subst hgf
      simpa [Pool.setState] using hother u hpc hterm
    · simpa [Pool.setState, hgf] using hterm
  refine ⟨fun u v g hu hv => h.unique u v g (hany u g hu) (hany v g hv), ?_⟩
  intro u g hu
  by_cases hgf : g = f
  · subst hgf
    simp only [Pool.setState, Function.update_self]
    exact fun hx => hassert hx u hu
  · simpa [Pool.setState, hgf] using h.alive u g hu

/-- Taking a fiber from the queue. -/
theorem Held.take {s : Pool n m} (h : Held s) {w : Fin (n + 1)} {f : FiberId}
    (hfree : s.fiberState f ≠ .TERM → ∀ w', w' ≠ w → ¬ s.holds w' f) :
    Held (s.setPc w (.taken f)) := by
  have hother : ∀ u g, u ≠ w → (s.setPc w (.taken f)).holds u g → s.holds u g := by
    intro u g hne hg
    simpa [Pool.holds, Pool.setPc, hne] using hg
  have hself : ∀ g, (s.setPc w (.taken f)).holds w g → g = f ∧ s.fiberState f ≠ .TERM := by
    intro g hg
    have hfg : f = g := by simpa [Pool.setPc, Pc.fiber] using hg.1
    subst hfg
    exact ⟨rfl, fun hterm => hg.2 ⟨by simp [Pool.setPc], hterm⟩⟩
  refine ⟨?_, ?_⟩
  · intro u v g hu hv
    by_cases hu' : u = w <;> by_cases hv' : v = w
    · exact hu'.trans hv'.symm
    · subst hu'
      obtain ⟨rfl, hlive⟩ := hself g hu
      exact absurd (hother v g hv' hv) (hfree hlive v hv')
    · subst hv'
      obtain ⟨rfl, hlive⟩ := hself g hv
      exact absurd (hother u g hu' hu) (hfree hlive u hu')
    · exact h.unique u v g (hother u g hu' hu) (hother v g hv' hv)
  · intro u g hu
    by_cases hne : u = w
    · subst hne
      simp [Pool.setPc] at hu
    · exact h.alive u g (by simpa [Pool.setPc, hne] using hu)

theorem Held.scan {s : Pool n m} (h : Held s) {w : Fin (n + 1)} (hg : FreeFiber s (.scan w)) :
    Held (s.scan w) := by
  have hpc : Held (s.setPc w (scanTasks w s.fiberState s.tasks).pc) := by
    unfold ScanResult.pc
    split
    · exact h.setPc_none rfl
    · rename_i task htask
      split
      · rename_i f hf
        exact h.take (hg task f htask hf)
      · exact h.setPc_none rfl
      · exact h.setPc_none rfl
  exact hpc.congr rfl rfl

theorem holds_of_ready {s : Pool n m} {w : Fin (n + 1)} {p : Pc} {f : FiberId}
    (hr : s.ready w p) (hp : p.fiber = some f) (hne : p ≠ .taken f) : s.holds w f :=
  ⟨hr.1 ▸ hp, fun ⟨hpc, _⟩ => hne (hr.1.symm.trans hpc)⟩

theorem poolStep_held {s s' : Pool n m} {a : PoolAct n m} (h : Held s) (hg : FreeFiber s a)
    (hs : poolStep s a = some s') : Held s' := by
  cases a with
  | scan w =>
      obtain ⟨-, rfl⟩ := when_eq_some.mp hs
      exact h.scan hg
  | newFiber w c f =>
      obtain ⟨⟨-, hnew⟩, rfl⟩ := when_eq_some.mp hs
      have hfresh : Held (s.setState f .READY) := by
        refine h.setState ?_ (by simp)
        intro w' hw'
        exact absurd (by rw [hw']; rfl) (hnew w')
      have htake : Held ((s.setState f .READY).setPc w (.taken f)) :=
        hfresh.take fun _ w' _ hw' => hnew w' hw'.1
      exact htake.congr rfl rfl
  | assertReady w f =>
      obtain ⟨⟨hr, hready⟩, rfl⟩ := when_eq_some.mp hs
      have hold : s.holds w f := ⟨hr.1 ▸ rfl, fun ⟨_, hterm⟩ => by simp [hready] at hterm⟩
      exact h.setPc_same hold rfl fun _ => by simp [hready]
  | setRunning w f =>
      obtain ⟨hr, rfl⟩ := when_eq_some.mp hs
      have hold := holds_of_ready hr rfl (by simp)
      refine (h.setPc_same (p := .switching f) hold rfl (by simp)).setState ?_ (by simp)
      intro _ _ hterm
      exact absurd hterm (h.alive w f hr.1)
  | switchIn w f =>
      obtain ⟨hr, rfl⟩ := when_eq_some.mp hs
      exact h.setPc_same (holds_of_ready hr rfl (by simp)) rfl (by simp)
  | yield w f =>
      obtain ⟨⟨hr, hrun⟩, rfl⟩ := when_eq_some.mp hs
      have hold := holds_of_ready hr rfl (by simp)
      refine (h.setPc_same (p := .yielding f) hold rfl (by simp)).setState ?_ (by simp)
      intro _ _ hterm
      have hrun' : (s.setPc w (.yielding f)).fiberState f = .RUNNING := hrun
      rw [hrun'] at hterm
      cases hterm
  | finish w f =>
      obtain ⟨hr, rfl⟩ := when_eq_some.mp hs
      have hold := holds_of_ready hr rfl (by simp)
      have hmove := h.setPc_same (p := .yielding f) hold rfl (by simp)
      refine hmove.setState (fun _ _ _ => rfl) ?_
      -- a worker past the assertion of `resume` would be a second holder
      intro _ w' hw'
      have hself : (s.setPc w (.yielding f)).holds w f := by
        simp [Pool.holds, Pool.setPc, Pc.fiber]
      have hother : (s.setPc w (.yielding f)).holds w' f := by
        simp [Pool.holds, hw', Pc.fiber]
      have := hmove.unique w' w f hother hself
      subst this
      simp [Pool.setPc] at hw'
  | handleEvent w e items =>
      obtain ⟨-, rfl⟩ := when_eq_some.mp hs
      exact (h.setPc_none (w := w) (p := .handling items) rfl).congr (by simp) (by simp)
  | drain w items =>
      obtain ⟨-, rfl⟩ := when_eq_some.mp hs
      split
      · exact h.setPc_none rfl
      · exact h.congr rfl rfl
  | stop1 w =>
      obtain ⟨-, rfl⟩ := when_eq_some.mp hs
      unfold Pool.stop1
      dsimp only
      split <;> exact (h.setPc_none rfl).congr rfl rfl
  | stop2 w now =>
      obtain ⟨-, rfl⟩ := when_eq_some.mp hs
      split <;> exact h.setPc_none rfl
  | stop3 w now =>
      obtain ⟨-, rfl⟩ := when_eq_some.mp hs
      unfold Pool.stop3
      split
      · exact (h.setPc_none (w := w) (p := .leaving) rfl).congr rfl rfl
      · exact h.setPc_none rfl
  | peek w items now =>
      obtain ⟨-, rfl⟩ := when_eq_some.mp hs
      split <;> exact h.setPc_none rfl
  | listExpired w items now addr =>
      obtain ⟨-, rfl⟩ := when_eq_some.mp hs
      exact (h.setPc_none (w := w) (p := .handling items) rfl).congr rfl rfl
  | decActive w | enterIdle w | decIdle w =>
      obtain ⟨-, rfl⟩ := when_eq_some.mp hs
      exact (h.setPc_none rfl).congr rfl rfl
  | exitRun w | switchOut w f | enterWait w sleep | returnWait w sleep items
  | readClock w items | leave w =>
      obtain ⟨-, rfl⟩ := when_eq_some.mp hs
      exact h.setPc_none rfl
  | micro t op rest | cancelEvent t e =>
      obtain ⟨-, rfl⟩ := when_eq_some.mp hs
      exact h.congr (by simp) (by simp)
  | tick d | insertTimer t a timer rest | schedule t task | addTimer t ms cb recurring
  | cancel t a | refresh t a | reset t a ms fromNow | addEvent t e task | delEvent t e
  | stop i =>
      obtain ⟨-, rfl⟩ := when_eq_some.mp hs
      exact h.congr rfl rfl

theorem held_inductive : (poolSys n m).Inductive FreeFiber Held where
  init := by
    rintro s ⟨now, -, rfl⟩
    exact ⟨by simp [Pool.holds, Pool.start, Pc.fiber], by simp [Pool.start]⟩
  step := fun _ _ _ h hg hs => poolStep_held h hg hs

/-- In a run whose queue scans take no fiber out of another worker's hands, no fiber is ever
executed by two workers. -/
theorem fiber_on_one_thread {s : Pool n m} (h : (poolSys n m).Reaches FreeFiber s) :
    OneThread s :=
  (held_inductive.invariant h).oneThread

/-- `FreeFiber`, as a test. -/
def freeFiberTest (s : Pool n m) : PoolAct n m → Bool
  | .scan w => (scanTasks w s.fiberState s.tasks).task.all fun task => task.fiber.all fun f =>
      decide (s.fiberState f = .TERM ∨ ∀ w', w' ≠ w → (s.pc w').fiber ≠ some f)
  | _ => true

theorem freeFiber_of_test (s : Pool n m) (a : PoolAct n m) (h : freeFiberTest s a = true) :
    FreeFiber s a := by
  cases a with
  | scan w =>
      intro task f htask hfiber halive w' hne hholds
      rw [freeFiberTest, htask, Option.all_some, hfiber, Option.all_some, decide_eq_true_eq] at h
      rcases h with hterm | hfree
      · exact halive hterm
      · exact hfree w' hne hholds.1
  | _ => trivial

/-- Worker `w` runs fiber 7, which schedules itself, yields and is saved; worker `v` takes it from
the queue and switches into it. -/
def handoverTrace (w v : Fin (n + 1)) (t : Fin m) : List (PoolAct n m) :=
  [.schedule (.inr t) (.ofFiber 7 none), .micro (.inr t) (.push (.ofFiber 7 none)) [],
    .micro (.inr t) (.tickle .other) [], .scan w, .assertReady w 7, .setRunning w 7, .switchIn w 7,
    .schedule (.inl w) (.ofFiber 7 none), .micro (.inl w) (.push (.ofFiber 7 none)) [],
    .micro (.inl w) (.tickle .other) [], .yield w 7, .switchOut w 7, .scan v, .assertReady v 7,
    .setRunning v 7, .switchIn v 7]

theorem fiber_on_one_thread_handover :
    ∃ s : Pool 1 1, s.pc 0 = .resumed ∧ s.pc 1 = .running 7 ∧ OneThread s := by
  have hrun : ((poolSys 1 1).exec freeFiberTest (.start 1000) (handoverTrace 0 1 0)).map
      (fun s => decide (s.pc 0 = .resumed) && decide (s.pc 1 = .running 7)) = some true := by
    decide +kernel
  obtain ⟨s, hs, hp⟩ := TSys.exists_reaches (M := poolSys 1 1) freeFiber_of_test
    ⟨1000, by decide, rfl⟩ hrun
  simp only [Bool.and_eq_true, decide_eq_true_eq] at hp
  exact ⟨s, hp.1, hp.2, fiber_on_one_thread hs⟩

/-- Worker `w` runs fiber 7, which registers an event for itself; worker `v` gets the event
reported and schedules the fiber; the fiber sets itself `READY`, and before it has saved
its context worker `v` takes it from the queue and switches into it. -/
def earlyResumeTrace (w v : Fin (n + 1)) (t : Fin m) : List (PoolAct n m) :=
  [.schedule (.inr t) (.ofFiber 7 none), .micro (.inr t) (.push (.ofFiber 7 none)) [],
    .micro (.inr t) (.tickle .other) [], .scan w, .assertReady w 7, .setRunning w 7, .switchIn w 7,
    .addEvent (.inl w) 3 (.ofFiber 7 none), .scan v, .enterIdle v, .stop1 v, .stop2 v 1000,
    .enterWait v (.till 6000), .returnWait v (.till 6000) [.event 3], .readClock v [.event 3],
    .peek v [.event 3] 1000, .handleEvent v 3 [],
    .micro (.inl v) (.push (.ofFiber 7 none)) [.decPending],
    .micro (.inl v) (.tickle .other) [.decPending],
    .micro (.inl v) (.writePipe .other) [.decPending],
    .micro (.inl v) .decPending [], .leave v, .decIdle v, .yield w 7, .scan v, .assertReady v 7,
    .setRunning v 7, .switchIn v 7]

/-- Worker 1 executes the fiber while worker 0 is still on its stack. -/
theorem fiber_on_two_threads :
    ∃ s : Pool 1 1, (poolSys 1 1).Reachable s ∧ ¬ OneThread s := by
  have hrun : ((poolSys 1 1).exec (fun _ _ => true) (.start 1000)
      (earlyResumeTrace 0 1 0)).map
      (fun s => decide (s.pc 0 = .yielding 7) && decide (s.pc 1 = .running 7)) = some true := by
    decide +kernel
  obtain ⟨s, hs, hp⟩ := TSys.exists_reachable (M := poolSys 1 1)
    ⟨1000, by decide, rfl⟩ hrun
  simp only [Bool.and_eq_true, decide_eq_true_eq] at hp
  refine ⟨s, hs, fun hone => ?_⟩
  have := hone 0 1 7 (by rw [hp.1]; rfl) (by rw [hp.2]; rfl)
  simp at this

end Gxh.Workers
