import Gxh.Lib.Tally
import Gxh.Workers.Basic

/-!
# What a step of the pool can do

* `Edge` is the control flow of `run` with `idle` and `resume` inlined; `poolStep_pc` says
  that every step follows it.
* `Counted` — `m_idleThreadCount` and `m_activeThreadCount` are the numbers of workers in
  the two branches of `run`, and a worker whose idle fiber has ended is not inside it.
* `tickling_step`, `pipe_step` — how a pending wake-up can disappear.
-/

namespace Gxh.Workers

variable {n m : Nat} {s s' : Pool n m} {a : PoolAct n m}

/-- The control flow of a worker. -/
inductive Edge : Pc → Pc → Prop
  | take (f : FiberId) : Edge .scan (.taken f)
  | takeCb (c : CbId) : Edge .scan (.takenCb c)
  | takeNone : Edge .scan .empty
  | newFiber (c : CbId) (f : FiberId) : Edge (.takenCb c) (.taken f)
  | assertReady (f : FiberId) : Edge (.taken f) (.asserted f)
  | setRunning (f : FiberId) : Edge (.asserted f) (.switching f)
  | switchIn (f : FiberId) : Edge (.switching f) (.running f)
  | yield (f : FiberId) : Edge (.running f) (.yielding f)
  | switchOut (f : FiberId) : Edge (.yielding f) .resumed
  | decActive : Edge .resumed .scan
  | enterIdle : Edge .empty .stop1
  | exitRun : Edge .empty .exited
  | stop1 (now : Nat) : Edge .stop1 (.stop2 now)
  | timer (sleep : Sleep) : Edge .stop1 (.entering sleep)
  | stop2 (now : Nat) : Edge (.stop2 now) (.stop3 now)
  | events (now : Nat) (sleep : Sleep) : Edge (.stop2 now) (.entering sleep)
  | ended (now : Nat) : Edge (.stop3 now) .leaving
  | onward (now : Nat) (sleep : Sleep) : Edge (.stop3 now) (.entering sleep)
  | enterWait (sleep : Sleep) : Edge (.entering sleep) (.inWait sleep)
  | returnWait (sleep : Sleep) (items : List EpollItem) : Edge (.inWait sleep) (.woken items)
  | readClock (items : List EpollItem) (now : Nat) : Edge (.woken items) (.clocked items now)
  | noTimer (items : List EpollItem) (now : Nat) : Edge (.clocked items now) (.handling items)
  | peek (items : List EpollItem) (now : Nat) : Edge (.clocked items now) (.peeked items now)
  | listExpired (items : List EpollItem) (now : Nat) : Edge (.peeked items now) (.handling items)
  | item (i : EpollItem) (items : List EpollItem) : Edge (.handling (i :: items)) (.handling items)
  | leave : Edge (.handling []) .leaving
  | decIdle : Edge .leaving .scan

/-- Where the scan leads. -/
theorem ScanResult.edge (r : ScanResult) : Edge .scan r.pc := by
  unfold ScanResult.pc
  split
  · exact .takeNone
  · split
    · exact .take _
    · exact .takeCb _
    · exact .takeNone

/-- The worker that makes a step inside `run`. -/
def PoolAct.worker : PoolAct n m → Option (Fin (n + 1))
  | .scan w | .newFiber w _ _ | .decActive w | .enterIdle w | .decIdle w | .exitRun w
  | .assertReady w _ | .setRunning w _ | .switchIn w _ | .yield w _ | .finish w _
  | .switchOut w _ | .stop1 w | .stop2 w _ | .stop3 w _ | .enterWait w _ | .returnWait w _ _
  | .readClock w _ | .peek w _ _ | .listExpired w _ _ _ | .handleEvent w _ _ | .drain w _
  | .leave w => some w
  | _ => none

/-- A step leaves every worker where it is, or takes the one that makes it along an edge. -/
theorem poolStep_pc (hs : poolStep s a = some s') :
    s'.pc = s.pc ∨ ∃ w p, a.worker = some w ∧ s'.pc = Function.update s.pc w p ∧
      Edge (s.pc w) p := by
  -- a step that moves its own worker along an edge
  have moved : ∀ {w : Fin (n + 1)} {p q : Pc} {t : Pool n m}, s.pc w = q →
      t.pc = Function.update s.pc w p → Edge q p → a.worker = some w →
      t.pc = s.pc ∨ ∃ w p, a.worker = some w ∧ t.pc = Function.update s.pc w p ∧
        Edge (s.pc w) p := by
    intro w p q t hq hpc he ha
    exact .inr ⟨w, p, ha, hpc, hq ▸ he⟩
  cases a with
  | scan w =>
      obtain ⟨⟨hr, -⟩, rfl⟩ := when_eq_some.mp hs
      exact moved hr.1 rfl (ScanResult.edge _) rfl
  | newFiber w c f =>
      obtain ⟨⟨hr, -⟩, rfl⟩ := when_eq_some.mp hs
      exact moved hr.1 rfl (.newFiber c f) rfl
  | decActive w =>
      obtain ⟨hr, rfl⟩ := when_eq_some.mp hs
      exact moved hr.1 rfl .decActive rfl
  | enterIdle w =>
      obtain ⟨⟨hr, -⟩, rfl⟩ := when_eq_some.mp hs
      exact moved hr.1 rfl .enterIdle rfl
  | decIdle w =>
      obtain ⟨hr, rfl⟩ := when_eq_some.mp hs
      exact moved hr.1 rfl .decIdle rfl
  | exitRun w =>
      obtain ⟨⟨hr, -⟩, rfl⟩ := when_eq_some.mp hs
      exact moved hr.1 rfl .exitRun rfl
  | assertReady w f =>
      obtain ⟨⟨hr, -⟩, rfl⟩ := when_eq_some.mp hs
      exact moved hr.1 rfl (.assertReady f) rfl
  | setRunning w f =>
      obtain ⟨hr, rfl⟩ := when_eq_some.mp hs
      exact moved hr.1 rfl (.setRunning f) rfl
  | switchIn w f =>
      obtain ⟨hr, rfl⟩ := when_eq_some.mp hs
      exact moved hr.1 rfl (.switchIn f) rfl
  | yield w f =>
      obtain ⟨⟨hr, -⟩, rfl⟩ := when_eq_some.mp hs
      exact moved hr.1 rfl (.yield f) rfl
  | finish w f =>
      obtain ⟨hr, rfl⟩ := when_eq_some.mp hs
      exact moved hr.1 rfl (.yield f) rfl
  | switchOut w f =>
      obtain ⟨hr, rfl⟩ := when_eq_some.mp hs
      exact moved hr.1 rfl (.switchOut f) rfl
  | stop1 w =>
      obtain ⟨hr, rfl⟩ := when_eq_some.mp hs
      unfold Pool.stop1
      dsimp only
      split
      · exact moved hr.1 rfl (.stop1 _) rfl
      · exact moved hr.1 rfl (.timer _) rfl
  | stop2 w now =>
      obtain ⟨hr, rfl⟩ := when_eq_some.mp hs
      split
      · exact moved hr.1 rfl (.stop2 now) rfl
      · exact moved hr.1 rfl (.events now _) rfl
  | stop3 w now =>
      obtain ⟨hr, rfl⟩ := when_eq_some.mp hs
      unfold Pool.stop3
      split
      · exact moved hr.1 rfl (.ended now) rfl
      · exact moved hr.1 rfl (.onward now _) rfl
  | enterWait w sleep =>
      obtain ⟨hr, rfl⟩ := when_eq_some.mp hs
      exact moved hr.1 rfl (.enterWait sleep) rfl
  | returnWait w sleep items =>
      obtain ⟨⟨hr, -⟩, rfl⟩ := when_eq_some.mp hs
      exact moved hr.1 rfl (.returnWait sleep items) rfl
  | readClock w items =>
      obtain ⟨hr, rfl⟩ := when_eq_some.mp hs
      exact moved hr.1 rfl (.readClock items _) rfl
  | peek w items now =>
      obtain ⟨hr, rfl⟩ := when_eq_some.mp hs
      split
      · exact moved hr.1 rfl (.noTimer items now) rfl
      · exact moved hr.1 rfl (.peek items now) rfl
  | listExpired w items now addr =>
      obtain ⟨hr, rfl⟩ := when_eq_some.mp hs
      exact moved hr.1 rfl (.listExpired items now) rfl
  | handleEvent w e items =>
      obtain ⟨hr, rfl⟩ := when_eq_some.mp hs
      exact moved hr.1 (by simp [Pool.setPc]) (.item (.event e) items) rfl
  | drain w items =>
      obtain ⟨hr, rfl⟩ := when_eq_some.mp hs
      split
      · exact moved hr.1 rfl (.item .tickle items) rfl
      · exact .inl rfl
  | leave w =>
      obtain ⟨hr, rfl⟩ := when_eq_some.mp hs
      exact moved hr.1 rfl .leave rfl
  | micro t op rest | cancelEvent t e =>
      obtain ⟨-, rfl⟩ := when_eq_some.mp hs
      exact .inl (by simp)
  | tick d | insertTimer t a timer rest | schedule t task | addTimer t ms cb recurring
  | cancel t a | refresh t a | reset t a ms fromNow | addEvent t e task | delEvent t e
  | stop i =>
      obtain ⟨-, rfl⟩ := when_eq_some.mp hs
      exact .inl rfl

/-- A property of places that every edge out of `q` keeps, `q` apart, is lost by a worker only
in a step out of `q`. -/
theorem poolStep_keeps {P : Pc → Bool} {q : Pc} (hs : poolStep s a = some s')
    (hedge : ∀ p p', Edge p p' → P p = true → p ≠ q → P p' = true) {w : Fin (n + 1)}
    (hw : P (s.pc w) = true) : P (s'.pc w) = true ∨ (a.worker = some w ∧ s.pc w = q) := by
  rcases poolStep_pc hs with hpc | ⟨u, p, ha, hpc, he⟩
  · exact .inl (by rw [hpc]; exact hw)
  · by_cases hwu : w = u
    · subst hwu
      by_cases hq : s.pc w = q
      · exact .inr ⟨ha, hq⟩
      · left
        rw [hpc, Function.update_self]
        exact hedge _ _ he hw hq
    · left
      rw [hpc, Function.update_of_ne hwu]
      exact hw

/-! ## The counters -/

/-- Counted in `m_idleThreadCount`. -/
def Pc.idle : Pc → Nat
  | .stop1 | .stop2 _ | .stop3 _ | .entering _ | .inWait _ | .woken _ | .clocked _ _
  | .peeked _ _ | .handling _ | .leaving => 1
  | _ => 0

/-- Counted in `m_activeThreadCount`. -/
def Pc.busy : Pc → Nat
  | .taken _ | .takenCb _ | .asserted _ | .switching _ | .running _ | .yielding _
  | .resumed => 1
  | _ => 0

/-- Inside the idle fiber. -/
def Pc.inside : Pc → Bool
  | .stop1 | .stop2 _ | .stop3 _ | .entering _ | .inWait _ | .woken _ | .clocked _ _
  | .peeked _ _ | .handling _ => true
  | _ => false

structure Counted (s : Pool n m) : Prop where
  idle : s.idleThreadCount = tally Pc.idle s.pc
  active : s.activeThreadCount = tally Pc.busy s.pc
  inside : ∀ w, (s.pc w).inside = true → s.idleTerm w = false
  exited : ∀ w, s.pc w = .exited → s.idleTerm w = true

theorem Counted.congr (h : Counted s) (hpc : s'.pc = s.pc) (hterm : s'.idleTerm = s.idleTerm)
    (hidle : s'.idleThreadCount = s.idleThreadCount)
    (hactive : s'.activeThreadCount = s.activeThreadCount) : Counted s' := by
  refine ⟨by rw [hidle, hpc, h.idle], by rw [hactive, hpc, h.active], ?_, ?_⟩
  · intro w hw
    rw [hterm]
    exact h.inside w (hpc ▸ hw)
  · intro w hw
    rw [hterm]
    exact h.exited w (hpc ▸ hw)

/-- One worker moves, and the counters change by the difference of its weights. -/
theorem Counted.move (h : Counted s) {w : Fin (n + 1)} {p q : Pc} (hq : s.pc w = q)
    (hpc : s'.pc = Function.update s.pc w p)
    (hidle : s'.idleThreadCount + q.idle = s.idleThreadCount + p.idle)
    (hactive : s'.activeThreadCount + q.busy = s.activeThreadCount + p.busy)
    (hterm : ∀ u, u ≠ w → s'.idleTerm u = s.idleTerm u)
    (hin : p.inside = true → s'.idleTerm w = false)
    (hex : p = .exited → s'.idleTerm w = true) : Counted s' := by
  have hi := tally_update Pc.idle s.pc w p
  have ha := tally_update Pc.busy s.pc w p
  have h1 := h.idle
  have h2 := h.active
  rw [hq] at hi ha
  refine ⟨by rw [hpc]; omega, by rw [hpc]; omega, ?_, ?_⟩
  · intro u hu
    rw [hpc] at hu
    by_cases huw : u = w
    · subst huw
      rw [Function.update_self] at hu
      exact hin hu
    · rw [Function.update_of_ne huw] at hu
      rw [hterm u huw]
      exact h.inside u hu
  · intro u hu
    rw [hpc] at hu
    by_cases huw : u = w
    · subst huw
      rw [Function.update_self] at hu
      exact hex hu
    · rw [Function.update_of_ne huw] at hu
      rw [hterm u huw]
      exact h.exited u hu

/-- A move that changes no counter and stays inside or outside the idle fiber. -/
theorem Counted.step (h : Counted s) {w : Fin (n + 1)} {p q : Pc} (hq : s.pc w = q)
    (hpc : s'.pc = Function.update s.pc w p) (hterm : s'.idleTerm = s.idleTerm)
    (hidle : s'.idleThreadCount = s.idleThreadCount)
    (hactive : s'.activeThreadCount = s.activeThreadCount)
    (hi : q.idle = p.idle) (hb : q.busy = p.busy)
    (hin : p.inside = true → q.inside = true) (hex : p ≠ .exited) : Counted s' := by
  refine h.move hq hpc (by omega) (by omega) (fun u _ => by rw [hterm]) ?_ (fun he => absurd he hex)
  intro hp
  rw [hterm]
  exact h.inside w (hq ▸ hin hp)

/-- A scan that finds a task counts the worker as active. -/
theorem Counted.scan (h : Counted s) {w : Fin (n + 1)} (hr : s.ready w .scan)
    (hset : (scanTasks w s.fiberState s.tasks).task.all ScheduleTask.isSet = true) :
    Counted (s.scan w) := by
  have hkey : ∀ r : ScanResult, r.task.all ScheduleTask.isSet = true →
      r.pc.idle = 0 ∧ r.pc.busy = (if r.task.isSome then 1 else 0) ∧ r.pc.inside = false ∧
        r.pc ≠ .exited := by
    intro r hr
    unfold ScanResult.pc
    cases hrt : r.task with
    | none => simp [Pc.idle, Pc.busy, Pc.inside]
    | some t =>
        rw [hrt] at hr
        cases hf : t.fiber with
        | some f => simp [hf, Pc.idle, Pc.busy, Pc.inside]
        | none =>
            cases hc : t.cb with
            | some c => simp [hf, hc, Pc.idle, Pc.busy, Pc.inside]
            | none => simp [ScheduleTask.isSet, hf, hc] at hr
  obtain ⟨h1, h2, h3, h4⟩ := hkey _ hset
  refine h.move hr.1 rfl ?_ ?_ (fun _ _ => rfl) ?_ ?_
  · show s.idleThreadCount + 0 = s.idleThreadCount + _
    rw [h1]
  · show s.activeThreadCount + _ + 0 = s.activeThreadCount + _
    rw [h2]
    rfl
  · simp [h3]
  · exact fun he => absurd he h4

theorem poolStep_counted (h : Counted s) (hs : poolStep s a = some s') : Counted s' := by
  cases a with
  | scan w =>
      obtain ⟨⟨hr, hset⟩, rfl⟩ := when_eq_some.mp hs
      exact h.scan hr hset
  | newFiber w c f =>
      obtain ⟨⟨hr, -⟩, rfl⟩ := when_eq_some.mp hs
      exact h.step hr.1 rfl rfl rfl rfl rfl rfl (by simp [Pc.inside]) (by simp)
  | decActive w =>
      obtain ⟨hr, rfl⟩ := when_eq_some.mp hs
      have hpos : 0 < s.activeThreadCount := by
        have := le_tally Pc.busy s.pc w
        rw [hr.1, ← h.active] at this
        exact this
      refine h.move hr.1 rfl rfl ?_ (fun _ _ => rfl) (by simp [Pc.inside]) (by simp)
      show pred64 s.activeThreadCount + 1 = s.activeThreadCount + 0
      rw [pred64_of_pos hpos]
      omega
  | enterIdle w =>
      obtain ⟨⟨hr, hterm⟩, rfl⟩ := when_eq_some.mp hs
      exact h.move hr.1 rfl rfl rfl (fun _ _ => rfl) (fun _ => hterm) (by simp)
  | decIdle w =>
      obtain ⟨hr, rfl⟩ := when_eq_some.mp hs
      have hpos : 0 < s.idleThreadCount := by
        have := le_tally Pc.idle s.pc w
        rw [hr.1, ← h.idle] at this
        exact this
      refine h.move hr.1 rfl ?_ rfl (fun _ _ => rfl) (by simp [Pc.inside]) (by simp)
      show pred64 s.idleThreadCount + 1 = s.idleThreadCount + 0
      rw [pred64_of_pos hpos]
      omega
  | exitRun w =>
      obtain ⟨⟨hr, hterm⟩, rfl⟩ := when_eq_some.mp hs
      exact h.move hr.1 rfl rfl rfl (fun _ _ => rfl) (by simp [Pc.inside]) (fun _ => hterm)
  | assertReady w f =>
      obtain ⟨⟨hr, -⟩, rfl⟩ := when_eq_some.mp hs
      exact h.step hr.1 rfl rfl rfl rfl rfl rfl (by simp [Pc.inside]) (by simp)
  | yield w f =>
      obtain ⟨⟨hr, -⟩, rfl⟩ := when_eq_some.mp hs
      exact h.step hr.1 rfl rfl rfl rfl rfl rfl (by simp [Pc.inside]) (by simp)
  | setRunning w f | switchIn w f | finish w f | switchOut w f =>
      obtain ⟨hr, rfl⟩ := when_eq_some.mp hs
      exact h.step hr.1 rfl rfl rfl rfl rfl rfl (by simp [Pc.inside]) (by simp)
  | stop1 w =>
      obtain ⟨hr, rfl⟩ := when_eq_some.mp hs
      unfold Pool.stop1
      dsimp only
      split <;> exact h.step hr.1 rfl rfl rfl rfl rfl rfl (by simp [Pc.inside]) (by simp)
  | stop2 w now =>
      obtain ⟨hr, rfl⟩ := when_eq_some.mp hs
      split <;> exact h.step hr.1 rfl rfl rfl rfl rfl rfl (by simp [Pc.inside])
        (by simp [Pool.onward])
  | stop3 w now =>
      obtain ⟨hr, rfl⟩ := when_eq_some.mp hs
      unfold Pool.stop3
      split
      · refine h.move hr.1 rfl rfl rfl ?_ (by simp [Pc.inside]) (by simp)
        intro u hu
        exact Function.update_of_ne hu _ _
      · exact h.step hr.1 rfl rfl rfl rfl rfl rfl (by simp [Pc.inside]) (by simp [Pool.onward])
  | returnWait w sleep items =>
      obtain ⟨⟨hr, -⟩, rfl⟩ := when_eq_some.mp hs
      exact h.step hr.1 rfl rfl rfl rfl rfl rfl (by simp [Pc.inside]) (by simp)
  | enterWait w sleep | readClock w items | listExpired w items now addr | leave w =>
      obtain ⟨hr, rfl⟩ := when_eq_some.mp hs
      exact h.step hr.1 rfl rfl rfl rfl rfl rfl (by simp [Pc.inside]) (by simp)
  | peek w items now =>
      obtain ⟨hr, rfl⟩ := when_eq_some.mp hs
      split <;> exact h.step hr.1 rfl rfl rfl rfl rfl rfl (by simp [Pc.inside]) (by simp)
  | handleEvent w e items =>
      obtain ⟨hr, rfl⟩ := when_eq_some.mp hs
      refine h.step (p := .handling items) hr.1 (by simp [Pool.setPc]) (by simp [Pool.setPc])
        (by simp [Pool.setPc]) (by simp [Pool.setPc]) rfl rfl (by simp [Pc.inside]) (by simp)
  | drain w items =>
      obtain ⟨hr, rfl⟩ := when_eq_some.mp hs
      split
      · exact h.step hr.1 rfl rfl rfl rfl rfl rfl (by simp [Pc.inside]) (by simp)
      · exact h.congr rfl rfl rfl rfl
  | micro t op rest | cancelEvent t e =>
      obtain ⟨-, rfl⟩ := when_eq_some.mp hs
      exact h.congr (by simp) (by simp) (by simp) (by simp)
  | tick d | insertTimer t a timer rest | schedule t task | addTimer t ms cb recurring
  | cancel t a | refresh t a | reset t a ms fromNow | addEvent t e task | delEvent t e
  | stop i =>
      obtain ⟨-, rfl⟩ := when_eq_some.mp hs
      exact h.congr rfl rfl rfl rfl

theorem counted_inductive (G : Pool n m → PoolAct n m → Prop) :
    (poolSys n m).Inductive G Counted where
  init := by
    rintro s ⟨now, -, rfl⟩
    exact ⟨by simp [Pool.start, tally, Pc.idle], by simp [Pool.start, tally, Pc.busy],
      by simp [Pool.start], by simp [Pool.start]⟩
  step := fun _ _ _ h _ hs => poolStep_counted h hs

/-- With no worker counted as idle, none is inside its idle fiber. -/
theorem Counted.not_idle (h : Counted s) (h0 : s.idleThreadCount = 0) (w : Fin (n + 1)) :
    (s.pc w).idle = 0 :=
  tally_eq_zero (h.idle ▸ h0) w

theorem Counted.not_busy (h : Counted s) (h0 : s.activeThreadCount = 0) (w : Fin (n + 1)) :
    (s.pc w).busy = 0 :=
  tally_eq_zero (h.active ▸ h0) w

/-! ## Pending wake-ups -/

/-- In a `tickle` called by one of `K`. -/
def Micro.isTickle (K : Caller → Bool) : Micro → Bool
  | .tickle c | .writePipe c => K c
  | _ => false

/-- Some thread is about to tickle, for a caller in `K`. -/
def Tickling (K : Caller → Bool) (s : Pool n m) : Prop :=
  ∃ t, ∃ op ∈ s.todo t, op.isTickle K = true

/-- The calls of a thread change only when it has none and starts some, or works on the
first. -/
theorem todo_cases (hs : poolStep s a = some s') (t : Thread n m) :
    s'.todo t = s.todo t ∨ s.todo t = [] ∨
    (∃ op rest, a = .micro t op rest ∧ s.todo t = op :: rest ∧ s' = s.micro t op rest) ∨
    (∃ addr timer rest, a = .insertTimer t addr timer rest ∧
      s.todo t = .insertTimer timer :: rest ∧ s' = s.insertTimer t addr timer rest) := by
  -- a step of thread `u` with nothing to do
  have idle : ∀ (u : Thread n m) (l : List Micro), s.todo u = [] →
      Function.update s.todo u l t = s.todo t ∨ s.todo t = [] := by
    intro u l hu
    by_cases htu : t = u
    · exact .inr (htu ▸ hu)
    · exact .inl (Function.update_of_ne htu _ _)
  have triggered : ∀ (r : Pool n m) (u : Thread n m) (e : EventId), r.todo = s.todo →
      s.todo u = [] → (r.trigger u e).todo t = s.todo t ∨ s.todo t = [] := by
    intro r u e hr hu
    unfold Pool.trigger
    split
    · exact .inl (by rw [hr])
    · show Function.update r.todo u _ t = _ ∨ _
      rw [hr]
      exact idle u _ hu
  cases a with
  | scan w =>
      obtain ⟨⟨hr, -⟩, rfl⟩ := when_eq_some.mp hs
      exact (idle _ _ hr.2).imp_right .inl
  | listExpired w items now addr =>
      obtain ⟨hr, rfl⟩ := when_eq_some.mp hs
      exact (idle _ _ hr.2).imp_right .inl
  | handleEvent w e items =>
      obtain ⟨hr, rfl⟩ := when_eq_some.mp hs
      exact (triggered (s.setPc w (.handling items)) _ e rfl hr.2).imp_right .inl
  | cancelEvent u e =>
      obtain ⟨hr, rfl⟩ := when_eq_some.mp hs
      exact (triggered s _ e rfl hr.2).imp_right .inl
  | schedule u task | addTimer u ms cb recurring | reset u a ms fromNow | stop i =>
      obtain ⟨hr, rfl⟩ := when_eq_some.mp hs
      exact (idle _ _ hr.2).imp_right .inl
  | micro u op rest =>
      obtain ⟨⟨hr, -⟩, rfl⟩ := when_eq_some.mp hs
      by_cases htu : t = u
      · subst htu
        exact .inr (.inr (.inl ⟨op, rest, rfl, hr, rfl⟩))
      · left
        cases op <;> simp [Pool.micro, Pool.push, Pool.setTodo, htu]
  | insertTimer u addr timer rest =>
      obtain ⟨⟨hr, -⟩, rfl⟩ := when_eq_some.mp hs
      by_cases htu : t = u
      · subst htu
        exact .inr (.inr (.inr ⟨addr, timer, rest, rfl, hr, rfl⟩))
      · exact .inl (by simp [Pool.insertTimer, Pool.setTodo, htu])
  | stop1 w | tick d | cancel u a | refresh u a =>
      obtain ⟨-, rfl⟩ := when_eq_some.mp hs
      exact .inl rfl
  | stop3 w now =>
      obtain ⟨-, rfl⟩ := when_eq_some.mp hs
      exact .inl (by simp)
  | drain w items =>
      obtain ⟨-, rfl⟩ := when_eq_some.mp hs
      left
      split <;> rfl
  | newFiber w c f | decActive w | enterIdle w | decIdle w | exitRun w | assertReady w f
  | setRunning w f | switchIn w f | yield w f | finish w f | switchOut w f | stop2 w now
  | enterWait w sleep | returnWait w sleep items | readClock w items | peek w items now
  | leave w | addEvent u e task | delEvent u e =>
      obtain ⟨-, rfl⟩ := when_eq_some.mp hs
      exact .inl rfl

/-- The calls behind the first one stay. -/
theorem mem_micro_todo {t : Thread n m} {op x : Micro} {rest : List Micro} (hx : x ∈ rest)
    (hop : op.isInsert = false) : x ∈ (s.micro t op rest).todo t := by
  cases op with
  | insertTimer timer => simp [Micro.isInsert] at hop
  | stopping1 | stopping2 | stopping3 =>
      simp only [Pool.micro, Pool.setTodo, Function.update_self]
      split <;> simp [hx]
  | _ => simp [Pool.micro, Pool.push, Pool.setTodo, hx]

/-- Pieces of `tickle` and `stop`, which create no work. -/
def Micro.isControl : Micro → Bool
  | .tickle _ | .writePipe _ | .stopping1 | .stopping2 | .stopping3 | .setStopping => true
  | _ => false

theorem mem_stopBody {x : Micro} (h : x ∈ Pool.stopBody n) : x.isControl = true := by
  rcases List.mem_cons.mp h with rfl | h
  · rfl
  · rw [List.eq_of_mem_replicate h]
    rfl

/-- What working on the first call puts before the others. -/
theorem of_mem_micro_todo {t : Thread n m} {op x : Micro} {rest : List Micro}
    (htodo : s.todo t = op :: rest) (hx : x ∈ (s.micro t op rest).todo t) :
    x ∈ s.todo t ∨ x.isControl = true := by
  have hrest : x ∈ rest → x ∈ s.todo t ∨ x.isControl = true := by
    intro h
    rw [htodo]
    exact .inl (List.mem_cons_of_mem _ h)
  cases op with
  | insertTimer timer => exact .inl hx
  | push task =>
      simp only [Pool.micro, Pool.push, Pool.setTodo, Function.update_self] at hx
      rcases List.mem_append.mp hx with h | h
      · split at h
        · rw [List.mem_singleton.mp h]
          exact .inr rfl
        · simp at h
      · exact hrest h
  | tickle c =>
      simp only [Pool.micro, Pool.setTodo, Function.update_self] at hx
      rcases List.mem_append.mp hx with h | h
      · split at h
        · rw [List.mem_singleton.mp h]
          exact .inr rfl
        · simp at h
      · exact hrest h
  | stopping1 | stopping2 | stopping3 =>
      simp only [Pool.micro, Pool.setTodo, Function.update_self] at hx
      split at hx
      all_goals first
        | exact hrest hx
        | (rcases List.mem_cons.mp hx with rfl | h
           · exact .inr rfl
           · exact hrest h)
        | (rcases List.mem_append.mp hx with h | h
           · exact .inr (mem_stopBody h)
           · exact hrest h)
  | _ =>
      simp only [Pool.micro, Pool.setTodo, Function.update_self] at hx
      exact hrest hx

/-- A piece of a call that the step `a` adds to those of thread `t`. Work enters a thread's
calls only in a call that its code makes, or in `idle`; and a timer only in `addTimer`. -/
def Born (s s' : Pool n m) (a : PoolAct n m) (t : Thread n m) (x : Micro) : Prop :=
  x.isControl = true ∨
  (x.isInsert = false ∧ ∃ w items, t = .inl w ∧ s'.pc w = .handling items) ∨
  (s.runsCode t ∧ s'.pc = s.pc ∧ (x.isInsert = false ∨ ∃ ms cb recurring,
    a = .addTimer t ms cb recurring ∧ x = .insertTimer (.new s.clock ms (some cb) recurring)))

theorem mem_todo_step (hs : poolStep s a = some s') {t : Thread n m} {x : Micro}
    (hx : x ∈ s'.todo t) : x ∈ s.todo t ∨ Born s s' a t x := by
  -- what a step that writes the calls of one thread adds
  have written : ∀ {u : Thread n m} {l : List Micro}, s'.todo = Function.update s.todo u l →
      (x ∈ l → t = u → x ∈ s.todo t ∨ Born s s' a t x) → x ∈ s.todo t ∨ Born s s' a t x := by
    intro u l hl h
    by_cases htu : t = u
    · subst htu
      rw [hl, Function.update_self] at hx
      exact h hx rfl
    · rw [hl, Function.update_of_ne htu] at hx
      exact .inl hx
  cases a with
  | scan w =>
      obtain ⟨-, rfl⟩ := when_eq_some.mp hs
      refine written rfl fun h _ => .inr (.inl ?_)
      split at h
      · rw [List.mem_singleton.mp h]
        rfl
      · simp at h
  | listExpired w items now addr =>
      obtain ⟨-, rfl⟩ := when_eq_some.mp hs
      refine written rfl fun h htu => .inr (.inr (.inl ⟨?_, w, items, htu, ?_⟩))
      · obtain ⟨cb, -, rfl⟩ := List.mem_map.mp h
        rfl
      · simp [Pool.listExpired, Pool.setPc, Pool.setTodo]
  | handleEvent w e items =>
      obtain ⟨-, rfl⟩ := when_eq_some.mp hs
      unfold Pool.trigger at hx written ⊢
      split at hx
      · exact .inl hx
      · rename_i task htask
        simp only [htask] at written
        refine written rfl fun h htu => .inr (.inr (.inl ⟨?_, w, items, htu, ?_⟩))
        · simp only [List.mem_cons, List.not_mem_nil, or_false] at h
          rcases h with rfl | rfl <;> rfl
        · simp [Pool.setPc, Pool.setTodo]
  | cancelEvent u e =>
      obtain ⟨hr, rfl⟩ := when_eq_some.mp hs
      unfold Pool.trigger at hx written ⊢
      split at hx
      · exact .inl hx
      · rename_i task htask
        simp only [htask] at written
        refine written rfl fun h htu => .inr (.inr (.inr ⟨htu ▸ hr, rfl, .inl ?_⟩))
        simp only [List.mem_cons, List.not_mem_nil, or_false] at h
        rcases h with rfl | rfl <;> rfl
  | schedule u task =>
      obtain ⟨hr, rfl⟩ := when_eq_some.mp hs
      refine written rfl fun h htu => .inr (.inr (.inr ⟨htu ▸ hr, rfl, .inl ?_⟩))
      rw [List.mem_singleton.mp h]
      rfl
  | addTimer u ms cb recurring =>
      obtain ⟨hr, rfl⟩ := when_eq_some.mp hs
      refine written rfl fun h htu => .inr (.inr (.inr ⟨htu ▸ hr, rfl, .inr ?_⟩))
      exact ⟨ms, cb, recurring, by rw [htu], List.mem_singleton.mp h⟩
  | reset u a ms fromNow =>
      obtain ⟨-, rfl⟩ := when_eq_some.mp hs
      refine written rfl fun h _ => .inr (.inl ?_)
      split at h
      · rw [List.mem_singleton.mp h]
        rfl
      · simp at h
  | stop i =>
      obtain ⟨-, rfl⟩ := when_eq_some.mp hs
      refine written rfl fun h _ => .inr (.inl ?_)
      rw [List.mem_singleton.mp h]
      rfl
  | micro u op rest =>
      obtain ⟨⟨htodo, -⟩, rfl⟩ := when_eq_some.mp hs
      by_cases htu : t = u
      · subst htu
        exact (of_mem_micro_todo htodo hx).imp_right .inl
      · left
        cases op <;> simpa [Pool.micro, Pool.push, Pool.setTodo, htu] using hx
  | insertTimer u addr timer rest =>
      obtain ⟨⟨htodo, -⟩, rfl⟩ := when_eq_some.mp hs
      refine written rfl fun h htu => ?_
      rcases List.mem_append.mp h with h | h
      · refine .inr (.inl ?_)
        split at h
        · rw [List.mem_singleton.mp h]
          rfl
        · simp at h
      · left
        rw [htu, htodo]
        exact List.mem_cons_of_mem _ h
  | stop3 w now =>
      obtain ⟨-, rfl⟩ := when_eq_some.mp hs
      rw [Pool.stop3_todo] at hx
      exact .inl hx
  | drain w items =>
      obtain ⟨-, rfl⟩ := when_eq_some.mp hs
      left
      split at hx <;> exact hx
  | _ =>
      obtain ⟨-, rfl⟩ := when_eq_some.mp hs
      exact .inl hx

/-- A thread about to tickle goes on, writes, or finds no idle worker. -/
theorem tickling_step {K : Caller → Bool} (hs : poolStep s a = some s') (h : Tickling K s) :
    Tickling K s' ∨ 0 < s'.pipe ∨
      ∃ t c rest, a = .micro t (.tickle c) rest ∧ s.idleThreadCount = 0 := by
  obtain ⟨t, op, hop, hk⟩ := h
  rcases todo_cases hs t with hsame | hnil | ⟨op', rest, rfl, htodo, rfl⟩ |
      ⟨addr, timer, rest, rfl, htodo, rfl⟩
  · exact .inl ⟨t, op, hsame ▸ hop, hk⟩
  · simp [hnil] at hop
  · obtain ⟨⟨-, hins⟩, -⟩ := when_eq_some.mp hs
    rw [htodo, List.mem_cons] at hop
    rcases hop with rfl | hop
    · cases op with
      | tickle c =>
          by_cases hidle : s.idleThreadCount = 0
          · exact .inr (.inr ⟨t, c, rest, rfl, hidle⟩)
          · left
            refine ⟨t, .writePipe c, ?_, hk⟩
            simp [Pool.micro, Pool.setTodo, Nat.pos_of_ne_zero hidle]
      | writePipe c =>
          right
          left
          show 0 < s.pipe + 1
          omega
      | _ => simp [Micro.isTickle] at hk
    · exact .inl ⟨t, op, mem_micro_todo hop hins, hk⟩
  · rw [htodo, List.mem_cons] at hop
    rcases hop with rfl | hop
    · simp [Micro.isTickle] at hk
    · exact .inl ⟨t, op, by simp [Pool.insertTimer, Pool.setTodo, hop], hk⟩

/-- The pipe is emptied by `idle` only. -/
theorem pipe_step (hs : poolStep s a = some s') (h : 0 < s.pipe) :
    0 < s'.pipe ∨ ∃ w items, s.pc w = .handling (.tickle :: items) ∧ s'.pc = s.pc := by
  cases a with
  | drain w items =>
      obtain ⟨hr, rfl⟩ := when_eq_some.mp hs
      right
      refine ⟨w, items, hr.1, ?_⟩
      rw [if_neg (by omega)]
  | micro t op rest =>
      obtain ⟨-, rfl⟩ := when_eq_some.mp hs
      left
      cases op with
      | writePipe => exact Nat.succ_pos _
      | _ => exact h
  | handleEvent w e items | cancelEvent t e | stop3 w now =>
      obtain ⟨-, rfl⟩ := when_eq_some.mp hs
      exact .inl (by simpa [Pool.setPc] using h)
  | _ =>
      obtain ⟨-, rfl⟩ := when_eq_some.mp hs
      exact .inl h

/-- An ended idle fiber stays ended. -/
theorem idleTerm_step (hs : poolStep s a = some s') {w : Fin (n + 1)} (h : s.idleTerm w = true) :
    s'.idleTerm w = true := by
  cases a with
  | stop3 u now =>
      obtain ⟨-, rfl⟩ := when_eq_some.mp hs
      unfold Pool.stop3
      split
      · by_cases hwu : w = u
        · subst hwu
          exact Function.update_self _ _ _
        · show Function.update s.idleTerm u true w = true
          rw [Function.update_of_ne hwu]
          exact h
      · exact h
  | micro t op rest | handleEvent w e items | cancelEvent t e =>
      obtain ⟨-, rfl⟩ := when_eq_some.mp hs
      simpa [Pool.setPc] using h
  | drain u items =>
      obtain ⟨-, rfl⟩ := when_eq_some.mp hs
      split <;> exact h
  | _ =>
      obtain ⟨-, rfl⟩ := when_eq_some.mp hs
      exact h

/-- The pool will look again by itself: the pipe has bytes, a thread is about to tickle for a
caller in `K`, a worker is at a place in `P`, or the idle fiber of some worker has ended. -/
def Stirs (K : Caller → Bool) (P : Pc → Bool) (s : Pool n m) : Prop :=
  0 < s.pipe ∨ Tickling K s ∨ (∃ w, P (s.pc w) = true) ∨ ∃ w, s.idleTerm w = true

/-- The ways in which a pool stops stirring: a worker leaves `P` at `q`, or a `tickle` finds
no idle worker. -/
theorem stirs_step {K : Caller → Bool} {P : Pc → Bool} {q : Pc} (hs : poolStep s a = some s')
    (hedge : ∀ p p', Edge p p' → P p = true → p ≠ q → P p' = true)
    (hhandling : ∀ items, P (.handling items) = true) (h : Stirs K P s) :
    Stirs K P s' ∨ (∃ w, a.worker = some w ∧ s.pc w = q) ∨
      ∃ t c rest, a = .micro t (.tickle c) rest ∧ s.idleThreadCount = 0 := by
  rcases h with hpipe | htick | ⟨w, hw⟩ | ⟨w, hw⟩
  · rcases pipe_step hs hpipe with h | ⟨w, items, hw, hpc⟩
    · exact .inl (.inl h)
    · -- the worker that drains the pipe is awake
      exact .inl (.inr (.inr (.inl ⟨w, by rw [hpc, hw]; exact hhandling _⟩)))
  · rcases tickling_step hs htick with h | h | h
    · exact .inl (.inr (.inl h))
    · exact .inl (.inl h)
    · exact .inr (.inr h)
  · rcases poolStep_keeps hs hedge hw with h | ⟨ha, hq⟩
    · exact .inl (.inr (.inr (.inl ⟨w, h⟩)))
    · exact .inr (.inl ⟨w, ha, hq⟩)
  · exact .inl (.inr (.inr (.inr ⟨w, idleTerm_step hs hw⟩)))

/-- The only step from the top of `run` is the scan. -/
theorem eq_scan_of_worker (hs : poolStep s a = some s') {w : Fin (n + 1)}
    (ha : a.worker = some w) (hpc : s.pc w = .scan) : a = .scan w := by
  cases a <;> simp only [PoolAct.worker, Option.some.injEq, reduceCtorEq] at ha <;> subst ha
  case scan => rfl
  all_goals
    have hready := (when_eq_some.mp hs).1
    simp [Pool.ready, hpc] at hready

/-- The only step from the start of `stopping` is the call of `getNextTimer`. -/
theorem eq_stop1_of_worker (hs : poolStep s a = some s') {w : Fin (n + 1)}
    (ha : a.worker = some w) (hpc : s.pc w = .stop1) : a = .stop1 w := by
  cases a <;> simp only [PoolAct.worker, Option.some.injEq, reduceCtorEq] at ha <;> subst ha
  case stop1 => rfl
  all_goals
    have hready := (when_eq_some.mp hs).1
    simp [Pool.ready, hpc] at hready

/-! ## The queue and the timers -/

/-- Apart from the scan and `schedule` no step adds to the queue. -/
theorem tasks_step (hs : poolStep s a = some s') :
    s'.tasks = s.tasks ∨ (∃ w, a = .scan w) ∨ ∃ t task rest, a = .micro t (.push task) rest := by
  cases a with
  | scan w => exact .inr (.inl ⟨w, rfl⟩)
  | micro t op rest =>
      obtain ⟨-, rfl⟩ := when_eq_some.mp hs
      cases op with
      | push task => exact .inr (.inr ⟨t, task, rest, rfl⟩)
      | _ => exact .inl rfl
  | handleEvent w e items | cancelEvent t e | stop3 w now =>
      obtain ⟨-, rfl⟩ := when_eq_some.mp hs
      exact .inl (by simp [Pool.setPc])
  | drain w items =>
      obtain ⟨-, rfl⟩ := when_eq_some.mp hs
      left
      split <;> rfl
  | _ =>
      obtain ⟨-, rfl⟩ := when_eq_some.mp hs
      exact .inl rfl

/-- Tickles that announce a timer. -/
def Caller.isTimer (c : Caller) : Bool := c == .timer

/-- The ways in which a step touches the timers. -/
theorem tm_step (hs : poolStep s a = some s') :
    s'.tm = s.tm ∨ s'.tm = (s.tm.getNextTimer s.clock).1 ∨
    (∃ w items now addr, a = .listExpired w items now addr ∧ s.pc w = .peeked items now ∧
      s'.tm = (s.tm.listExpiredCb now addr).1 ∧ s'.pc w = .handling items) ∨
    (∃ t addr timer rest, a = .insertTimer t addr timer rest ∧ s.tm.heap addr = none ∧
      s.todo t = .insertTimer timer :: rest ∧ s'.tm = (s.tm.addTimer addr timer).1 ∧
      ((s.tm.addTimer addr timer).2 = true → Tickling Caller.isTimer s')) ∨
    (∃ t addr, a = .cancel t addr ∧ s'.tm = (s.tm.cancel addr).1) ∨
    (∃ t addr, a = .refresh t addr ∧ s'.tm = (s.tm.refresh addr s.clock).1) ∨
    (∃ t addr ms fromNow, a = .reset t addr ms fromNow ∧
      s'.tm = (s.tm.reset addr ms fromNow s.clock).1 ∧
      ((s.tm.reset addr ms fromNow s.clock).2.2 = true → Tickling Caller.isTimer s')) := by
  cases a with
  | stop1 w =>
      obtain ⟨-, rfl⟩ := when_eq_some.mp hs
      exact .inr (.inl rfl)
  | listExpired w items now addr =>
      obtain ⟨hr, rfl⟩ := when_eq_some.mp hs
      refine .inr (.inr (.inl ⟨w, items, now, addr, rfl, hr.1, rfl, ?_⟩))
      simp [Pool.listExpired, Pool.setPc, Pool.setTodo]
  | insertTimer t addr timer rest =>
      obtain ⟨⟨htodo, hnew⟩, rfl⟩ := when_eq_some.mp hs
      refine .inr (.inr (.inr (.inl ⟨t, addr, timer, rest, rfl, hnew, htodo, rfl, ?_⟩)))
      intro hfront
      exact ⟨t, .tickle .timer, by simp [Pool.insertTimer, Pool.setTodo, hfront], rfl⟩
  | cancel t addr =>
      obtain ⟨-, rfl⟩ := when_eq_some.mp hs
      exact .inr (.inr (.inr (.inr (.inl ⟨t, addr, rfl, rfl⟩))))
  | refresh t addr =>
      obtain ⟨-, rfl⟩ := when_eq_some.mp hs
      exact .inr (.inr (.inr (.inr (.inr (.inl ⟨t, addr, rfl, rfl⟩)))))
  | reset t addr ms fromNow =>
      obtain ⟨-, rfl⟩ := when_eq_some.mp hs
      refine .inr (.inr (.inr (.inr (.inr (.inr ⟨t, addr, ms, fromNow, rfl, rfl, ?_⟩)))))
      intro hfront
      exact ⟨t, .tickle .timer, by simp [Pool.setTodo, hfront], rfl⟩
  | micro t op rest =>
      obtain ⟨-, rfl⟩ := when_eq_some.mp hs
      cases op with
      | stopping1 => exact .inr (.inl rfl)
      | _ => exact .inl rfl
  | handleEvent w e items | cancelEvent t e | stop3 w now =>
      obtain ⟨-, rfl⟩ := when_eq_some.mp hs
      exact .inl (by simp [Pool.setPc])
  | drain w items =>
      obtain ⟨-, rfl⟩ := when_eq_some.mp hs
      left
      split <;> rfl
  | _ =>
      obtain ⟨-, rfl⟩ := when_eq_some.mp hs
      exact .inl rfl

end Gxh.Workers
