import Gxh.Http.ConnectionPool

/-!
# The age of pooled connections

`getConnection` and `ReleasePtr` both test the age of a connection against `m_maxAliveTime`, from
`m_createTime`, which nobody sets, and the wrong way round: they discard what is younger than it
should be. With the clock beyond `m_maxAliveTime` neither test ever fires, and with the clock
before it every idle connection is discarded.

`AgeOk` is the condition on a step under which the tests do what they should, and it is exact.
-/

namespace Gxh.Http.ConnectionPool

/-- What the limits ask of an event: a connection is reused while it is young, and one that is
connected, below `m_maxRequest` and young is not discarded. -/
def Event.Respects (cfg : Config) : Event → Prop
  | .reused created now => now < created + cfg.maxAliveTime
  | .discarded connected request created now =>
      ¬ (connected = true ∧ request < cfg.maxRequest ∧ now < created + cfg.maxAliveTime)

def AgeRespected (cfg : Config) (s : PoolState) : Prop := ∀ e ∈ s.events, e.Respects cfg

/-- What the section under the lock needs to find, for the clock that `getConnection` has read:
before `m_maxAliveTime` no connected connection in the idle list, and from then on a young one
in the first connected place. -/
def LockOk (cfg : Config) (s : PoolState) (now : Nat) : Prop :=
  if now < cfg.maxAliveTime then ∀ c ∈ s.conns, (s.heap c).connected = false
  else ∀ c ∈ s.conns.find? (fun c => (s.heap c).connected),
    now < (s.heap c).created + cfg.maxAliveTime

instance (cfg : Config) (s : PoolState) (now : Nat) : Decidable (LockOk cfg s now) := by
  unfold LockOk
  infer_instance

/-- The condition on a step: `getConnection` finds what it needs under the lock, and `ReleasePtr`
with the clock not beyond `m_maxAliveTime` has a connection that is not connected, or used up, or
old. -/
def AgeOk (cfg : Config) (s : PoolState) : PoolAct → Prop
  | .step i _ =>
      match s.calls[i]? with
      | some (.locking now) => LockOk cfg s now
      | _ => True
  | .release c =>
      ¬ ((s.heap c).connected = true ∧ (s.heap c).request + 1 < cfg.maxRequest ∧
        s.clock ≤ cfg.maxAliveTime ∧ s.clock < (s.heap c).created + cfg.maxAliveTime)
  | _ => True

instance (cfg : Config) (s : PoolState) (a : PoolAct) : Decidable (AgeOk cfg s a) := by
  unfold AgeOk
  split
  · split <;> infer_instance
  · infer_instance
  · infer_instance

/-! ## The creation stamp -/

/-- `m_createTime` keeps its initial value. -/
def Unstamped (s : PoolState) : Prop := ∀ c, (s.heap c).createTime = 0

theorem unstamped_update {heap : Nat → HttpConnection} (h : ∀ c, (heap c).createTime = 0) {c : Nat}
    {x : HttpConnection} (hx : x.createTime = 0) (d : Nat) :
    (Function.update heap c x d).createTime = 0 := by
  by_cases hd : d = c
  · rw [hd, Function.update_self]
    exact hx
  · rw [Function.update_of_ne hd]
    exact h d

theorem unstamped_advance {cfg : Config} {s : PoolState} (h : Unstamped s) (i : Nat) (ok : Bool)
    (phase : Phase) : Unstamped (s.advance cfg i ok phase) := by
  cases phase with
  | locking now =>
      show ∀ c, ((s.lockSection cfg i now).heap c).createTime = 0
      exact h
  | sweeping left n ptr =>
      cases left with
      | cons c left => exact h
      | nil =>
          cases ptr with
          | none => exact h
          | some c => exact unstamped_update h (h c)
  | connecting =>
      cases ok with
      | true => exact unstamped_update h rfl
      | false => exact h
  | counting c => exact unstamped_update h (h c)
  | discarding c => exact h
  | uncounting => exact h
  | returning c => exact h

theorem unstamped_step {cfg : Config} {s s' : PoolState} {a : PoolAct} (h : Unstamped s)
    (hs : poolStep cfg s a = some s') : Unstamped s' := by
  cases a with
  | clock t =>
      cases hs
      exact h
  | disconnect c =>
      cases hs
      exact unstamped_update h (h c)
  | getConnection =>
      cases hs
      exact h
  | release c =>
      obtain ⟨-, rfl⟩ := when_eq_some.mp hs
      have hheap : (s.releasePtr cfg c).heap = Function.update s.heap c
          { s.heap c with request := (s.heap c).request + 1 } := by
        unfold PoolState.releasePtr
        dsimp only
        split <;> rfl
      intro d
      rw [hheap]
      refine unstamped_update h ?_ d
      exact h c
  | step i ok =>
      simp only [poolStep, Option.map_eq_some_iff] at hs
      obtain ⟨phase, -, rfl⟩ := hs
      exact unstamped_advance h i ok phase

/-! ## The two tests -/

section Tests

variable {cfg : Config} {s : PoolState}

/-- Before `m_maxAliveTime` the loop discards everything. -/
theorem popIdle_early (h : Unstamped s) {now : Nat} (hnow : now < cfg.maxAliveTime) (l : List Nat) :
    popIdle cfg s.heap now l = (l, none, []) := by
  induction l with
  | nil => rfl
  | cons c rest ih =>
      unfold popIdle
      rw [ih, if_pos]
      simp [h c, hnow]

/-- From then on it takes the first connected connection, whatever its age. -/
theorem popIdle_late (h : Unstamped s) {now : Nat} (hnow : ¬ now < cfg.maxAliveTime)
    (l : List Nat) :
    (∀ c ∈ (popIdle cfg s.heap now l).1, (s.heap c).connected = false) ∧
      (popIdle cfg s.heap now l).2.1 = l.find? fun c => (s.heap c).connected := by
  induction l with
  | nil => exact ⟨fun c hc => absurd hc List.not_mem_nil, rfl⟩
  | cons c rest ih =>
      obtain ⟨hleft, hptr⟩ := ih
      unfold popIdle
      cases hc : (s.heap c).connected with
      | false =>
          rw [if_pos (by simp), List.find?_cons_of_neg (by simp [hc])]
          exact ⟨List.forall_mem_cons.mpr ⟨hc, hleft⟩, hptr⟩
      | true =>
          rw [if_neg (by simp [h c]; omega)]
          exact ⟨fun d hd => absurd hd List.not_mem_nil, by simp [hc]⟩

/-- The section under the lock. -/
theorem lockSection_respects (hinv : PoolInv cfg s) (h : Unstamped s) (hs : AgeRespected cfg s)
    (i now : Nat) :
    AgeRespected cfg (s.lockSection cfg i now) ↔ LockOk cfg s now := by
  have hevents : AgeRespected cfg (s.lockSection cfg i now) ↔
      (∀ c, (popIdle cfg s.heap now s.conns).2.1 = some c →
        now < (s.heap c).created + cfg.maxAliveTime) ∧
      ∀ c ∈ (popIdle cfg s.heap now s.conns).1, (s.discardEvent now c).Respects cfg := by
    unfold AgeRespected PoolState.lockSection
    generalize popIdle cfg s.heap now s.conns = r
    obtain ⟨invalid, ptr, rest⟩ := r
    dsimp only
    constructor
    · intro hall
      refine ⟨fun c hc => ?_, fun c hc => ?_⟩
      · exact hall (.reused (s.heap c).created now) (by simp [hc])
      · refine hall _ (List.mem_append_left _ (List.mem_append_right _ ?_))
        exact List.mem_map_of_mem hc
    · rintro ⟨hptr, hinvalid⟩ e he
      rcases List.mem_append.mp he with he | he
      · rcases List.mem_append.mp he with he | he
        · obtain ⟨c, hc, rfl⟩ := List.mem_map.mp he
          exact hptr c (by simpa using hc)
        · obtain ⟨c, hc, rfl⟩ := List.mem_map.mp he
          exact hinvalid c hc
      · exact hs e he
  rw [hevents]
  unfold LockOk
  by_cases hnow : now < cfg.maxAliveTime
  · rw [if_pos hnow, popIdle_early h hnow]
    have hlocal : ∀ c ∈ s.conns,
        ((s.discardEvent now c).Respects cfg ↔ (s.heap c).connected = false) := by
      intro c hc
      have hrequest := (hinv.ready c (List.mem_append_left _ hc)).2
      show ¬ ((s.heap c).connected = true ∧ (s.heap c).request < cfg.maxRequest ∧
        now < (s.heap c).created + cfg.maxAliveTime) ↔ _
      rw [← Bool.not_eq_true, not_iff_not]
      exact ⟨fun hall => hall.1, fun hc => ⟨hc, hrequest, by omega⟩⟩
    constructor
    · exact fun hall c hc => (hlocal c hc).mp (hall.2 c hc)
    · intro hall
      refine ⟨fun c hc => ?_, fun c hc => (hlocal c hc).mpr (hall c hc)⟩
      cases hc
  · obtain ⟨hleft, hptr⟩ := popIdle_late h hnow s.conns
    rw [if_neg hnow, hptr]
    refine ⟨fun hall => hall.1, fun hall => ⟨hall, fun c hc => ?_⟩⟩
    rintro ⟨hconnected, -, -⟩
    rw [hleft c hc] at hconnected
    cases hconnected

theorem releasePtr_respects (h : Unstamped s) (hs : AgeRespected cfg s) (c : Nat) :
    AgeRespected cfg (s.releasePtr cfg c) ↔ AgeOk cfg s (.release c) := by
  have htest : discards cfg { s.heap c with request := (s.heap c).request + 1 } s.clock = true ↔
      ((s.heap c).connected = false ∨ s.clock ≤ cfg.maxAliveTime) ∨
        cfg.maxRequest ≤ (s.heap c).request + 1 := by
    simp [discards, h c]
  unfold AgeRespected PoolState.releasePtr AgeOk
  dsimp only
  split
  · rename_i hd
    rw [htest] at hd
    show (∀ e ∈ PoolState.discardEvent _ s.clock c :: s.events, e.Respects cfg) ↔ _
    rw [List.forall_mem_cons]
    have hevent : Event.Respects cfg (PoolState.discardEvent { s with
          lent := s.lent.erase c
          heap := Function.update s.heap c { s.heap c with request := (s.heap c).request + 1 } }
        s.clock c) ↔
        ¬ ((s.heap c).connected = true ∧ (s.heap c).request + 1 < cfg.maxRequest ∧
          s.clock < (s.heap c).created + cfg.maxAliveTime) := by
      unfold PoolState.discardEvent
      dsimp only
      rw [Function.update_self]
      exact Iff.rfl
    rw [hevent]
    constructor
    · rintro ⟨hno, -⟩ ⟨hc, hr, -, hage⟩
      exact hno ⟨hc, hr, hage⟩
    · intro hno
      refine ⟨?_, hs⟩
      rintro ⟨hc, hr, hage⟩
      refine hno ⟨hc, hr, ?_, hage⟩
      rcases hd with (hoff | hclock) | hused
      · rw [hc] at hoff
        cases hoff
      · exact hclock
      · omega
  · rename_i hd
    rw [htest] at hd
    refine ⟨?_, fun _ => hs⟩
    rintro - ⟨-, -, hclock, -⟩
    exact hd (.inl (.inr hclock))

theorem respects_step (hinv : PoolInv cfg s) (h : Unstamped s) (hs : AgeRespected cfg s)
    {a : PoolAct} {s' : PoolState} (hstep : poolStep cfg s a = some s') :
    AgeRespected cfg s' ↔ AgeOk cfg s a := by
  cases a with
  | clock t =>
      cases hstep
      exact ⟨fun _ => trivial, fun _ => hs⟩
  | disconnect c =>
      cases hstep
      exact ⟨fun _ => trivial, fun _ => hs⟩
  | getConnection =>
      cases hstep
      exact ⟨fun _ => trivial, fun _ => hs⟩
  | release c =>
      obtain ⟨-, rfl⟩ := when_eq_some.mp hstep
      exact releasePtr_respects h hs c
  | step i ok =>
      simp only [poolStep, Option.map_eq_some_iff] at hstep
      obtain ⟨phase, hi, rfl⟩ := hstep
      -- only the section under the lock decides about connections
      have hquiet : (∀ now, phase ≠ .locking now) →
          (s.advance cfg i ok phase).events = s.events →
          (AgeRespected cfg (s.advance cfg i ok phase) ↔ AgeOk cfg s (.step i ok)) := by
        intro hphase hevents
        refine ⟨fun _ => ?_, fun _ => ?_⟩
        · show match s.calls[i]? with
            | some (.locking now) => LockOk cfg s now
            | _ => True
          rw [hi]
          cases phase with
          | locking now => exact absurd rfl (hphase now)
          | _ => trivial
        · unfold AgeRespected
          rw [hevents]
          exact hs
      cases phase with
      | locking now =>
          show AgeRespected cfg (s.lockSection cfg i now) ↔ _
          rw [lockSection_respects hinv h hs]
          show LockOk cfg s now ↔ match s.calls[i]? with
            | some (.locking now) => LockOk cfg s now
            | _ => True
          rw [hi]
      | sweeping left n ptr =>
          refine hquiet (by simp) ?_
          cases left with
          | cons c left => rfl
          | nil => cases ptr <;> rfl
      | connecting => exact hquiet (by simp) (by cases ok <;> rfl)
      | counting c => exact hquiet (by simp) rfl
      | discarding c => exact hquiet (by simp) rfl
      | uncounting => exact hquiet (by simp) rfl
      | returning c => exact hquiet (by simp) rfl

end Tests

theorem age_inductive (cfg : Config) : (poolSys cfg).Inductive (AgeOk cfg)
    fun s => PoolInv cfg s ∧ Unstamped s ∧ AgeRespected cfg s where
  init := by
    rintro s rfl
    exact ⟨.start cfg, fun _ => rfl, fun e he => absurd he List.not_mem_nil⟩
  step := by
    rintro s a s' ⟨hinv, hstamp, hs⟩ hok hstep
    exact ⟨(pool_inductive cfg).step s a s' hinv trivial hstep, unstamped_step hstamp hstep,
      (respects_step hinv hstamp hs hstep).mpr hok⟩

/-- In every run whose steps meet `AgeOk`, for any clock, connections are reused and discarded as
`m_maxAliveTime` asks; and the first step that does not meet it breaks this. -/
theorem age_respected (cfg : Config) {s : PoolState} (h : (poolSys cfg).Reaches (AgeOk cfg) s) :
    AgeRespected cfg s ∧ ∀ a s', poolStep cfg s a = some s' →
      (AgeRespected cfg s' ↔ AgeOk cfg s a) := by
  obtain ⟨hinv, hstamp, hs⟩ := (age_inductive cfg).invariant h
  exact ⟨hs, fun a s' hstep => respects_step hinv hstamp hs hstep⟩

/-- A connection is reused at once. -/
theorem age_respected_reuse : ∃ s, (poolSys ⟨10, 2⟩).Reaches (AgeOk ⟨10, 2⟩) s ∧
    s.events = [.reused 1000 1000] ∧ AgeRespected ⟨10, 2⟩ s := by
  have hrun : ∃ s, (poolSys ⟨10, 2⟩).Reaches (AgeOk ⟨10, 2⟩) s ∧
      decide (s.events = [.reused 1000 1000]) = true :=
    TSys.exists_reaches (g := fun s a => decide (AgeOk ⟨10, 2⟩ s a)) (l := reuseTrace)
      (fun _ _ h => of_decide_eq_true h) rfl (by decide)
  obtain ⟨s, hs, htest⟩ := hrun
  exact ⟨s, hs, of_decide_eq_true htest, (age_respected ⟨10, 2⟩ hs).1⟩

/-- With an alive time of 10 ms, a connection is reused a second after it was made. -/
def staleTrace : List PoolAct :=
  [.clock 1000, .getConnection, .step 0 true, .step 0 true, .step 0 true, .step 0 true,
    .release 0, .step 0 true, .clock 2000, .getConnection, .step 0 true, .step 0 true]

theorem stale_reuse : ∃ s, (poolSys ⟨10, 2⟩).Reachable s ∧ s.lent = [0] ∧
    s.events = [.reused 1000 2000] ∧ ¬ AgeRespected ⟨10, 2⟩ s := by
  have hrun : ∃ s, (poolSys ⟨10, 2⟩).Reachable s ∧
      decide (s.lent = [0] ∧ s.events = [.reused 1000 2000]) = true :=
    TSys.exists_reachable (l := staleTrace) rfl (by decide)
  obtain ⟨s, hs, htest⟩ := hrun
  obtain ⟨hlent, hevents⟩ := of_decide_eq_true htest
  refine ⟨s, hs, hlent, hevents, fun hall => ?_⟩
  have hyoung : 2000 < 1000 + 10 := hall (.reused 1000 2000) (by simp [hevents])
  omega

end Gxh.Http.ConnectionPool
