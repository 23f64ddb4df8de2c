import Gxh.Lib.TSys
import Gxh.Scheduler.Task
import Gxh.Timer.Order

/-!
# Expiry under concurrent callers

`listExpiredCb` reads the clock first and takes the write lock later, so two callers
may enter the locked section in the other order. `detectClockRollover` then compares
the older reading with `m_previouseTime`, and treats a difference of more than an
hour — computed with an unsigned subtraction — as a clock that was set back, in
which case every timer expires.

* `expirySys` interleaves any number of threads in `listExpiredCb`, `addTimer`,
  `cancel`, `refresh` and `reset`, with a clock that never goes back;
* `Expiry.fired` records the deadline and the clock reading of every callback
  handed out;
* `InOrder` is the exact condition on the locked section under which no callback is
  early.
-/

namespace Gxh

variable {κ : Type}

namespace TimerManager

/-- The timers whose callbacks `listExpiredCb` returns. -/
def returned (tm : TimerManager κ) (now addr : Nat) : List Nat :=
  match tm.timers with
  | [] => []
  | front :: _ =>
      if !tm.rollover now && decide (tm.next front > now) then [] else tm.expired now addr

/-- The loop collects the callbacks of exactly the timers it is given. -/
theorem rearm_cbs (now : Nat) {gone : List Nat} {tm : TimerManager κ} (hnd : gone.Nodup)
    (hlive : ∀ a ∈ gone, ∃ t, tm.heap a = some t) :
    (rearm now gone tm).2 = gone.map fun a => (tm.heap a).bind Timer.cb := by
  induction gone generalizing tm with
  | nil => rfl
  | cons a rest ih =>
      obtain ⟨harest, hrest⟩ := List.nodup_cons.mp hnd
      obtain ⟨t, ht⟩ := hlive a List.mem_cons_self
      -- an iteration writes only its own timer, so the later callbacks are the old ones
      have key : ∀ (tm' : TimerManager κ), (∀ b ≠ a, tm'.heap b = tm.heap b) →
          (rearm now rest tm').2 = rest.map fun a => (tm.heap a).bind Timer.cb := by
        intro tm' hsame
        have hne : ∀ b ∈ rest, b ≠ a := fun b hb he => harest (he ▸ hb)
        rw [ih hrest]
        · exact List.map_congr_left fun b hb => by rw [hsame b (hne b hb)]
        · intro b hb
          rw [hsame b (hne b hb)]
          exact hlive b (List.mem_cons_of_mem _ hb)
      simp only [rearm, ht, List.map_cons, Option.bind_some]
      congr 1
      refine key _ ?_
      intro b hb
      split <;> simp [store_heap, hb]

theorem listExpiredCb_cbs {tm : TimerManager κ} (h : tm.WF) (now addr : Nat) :
    (tm.listExpiredCb now addr).2 =
      (tm.returned now addr).map fun a => (tm.heap a).bind Timer.cb := by
  cases hl : tm.timers with
  | nil => simp [listExpiredCb, returned, hl]
  | cons front rest =>
      simp only [listExpiredCb, returned, hl]
      split
      · rfl
      · have hsub := (expired_initial tm now addr).sublist
        exact rearm_cbs now (h.nodup.sublist hsub) fun a ha => h.live a (hsub.subset ha)

/-- Without a rollover only due timers are taken out. -/
theorem expired_due {tm : TimerManager κ} {now addr a : Nat} (hroll : tm.rollover now = false)
    (ha : a ∈ tm.expired now addr) : tm.next a ≤ now := by
  simp only [expired, hroll, Bool.false_eq_true, if_false, List.mem_append] at ha
  rcases ha with ha | ha
  · -- before the lower bound: the comparator put it below the probe
    have hlt := List.all_eq_true.mp List.all_takeWhile a ha
    rw [comparator_iff] at hlt
    by_cases hax : a = addr
    · subst hax
      omega
    · rw [Function.update_of_ne hax, Function.update_self] at hlt
      omega
  · have heq := List.all_eq_true.mp List.all_takeWhile a ha
    simp only [beq_iff_eq] at heq
    omega

/-- The rollover test, with the unsigned subtraction resolved. -/
theorem rollover_iff {tm : TimerManager κ} (now : Nat) (hprev : tm.previouseTime < size64) :
    tm.rollover now = true ↔
      now < tm.previouseTime ∧ (tm.previouseTime < 3600000 ∨ now + 3600000 < tm.previouseTime) := by
  simp only [rollover, Bool.and_eq_true, decide_eq_true_eq]
  rcases Nat.lt_or_ge tm.previouseTime 3600000 with hlt | hge
  · rw [sub64_of_lt (by decide) (by omega)]
    simp only [size64]
    omega
  · rw [sub64_of_le hprev (by omega)]
    omega

/-- The callbacks returned are all due exactly when no rollover was seen or every
pending timer is due. -/
theorem returned_due_iff {tm : TimerManager κ} {now addr : Nat} :
    (∀ a ∈ tm.returned now addr, tm.next a ≤ now) ↔
      (tm.rollover now = false ∨ ∀ a ∈ tm.timers, tm.next a ≤ now) := by
  cases hroll : tm.rollover now with
  | false =>
      refine iff_of_true ?_ (.inl rfl)
      intro a ha
      unfold returned at ha
      split at ha
      · simp at ha
      · split at ha
        · simp at ha
        · exact expired_due hroll ha
  | true =>
      have hall : tm.returned now addr = tm.timers := by
        unfold returned
        split
        · rename_i h
          exact h.symm
        · simp [hroll, expired]
      simp [hall]

theorem rearm_previouseTime (now : Nat) (gone : List Nat) (tm : TimerManager κ) :
    (rearm now gone tm).1.previouseTime = tm.previouseTime := by
  induction gone generalizing tm with
  | nil => rfl
  | cons a rest ih =>
      simp only [rearm]
      split
      · exact ih tm
      · rw [ih]
        split <;> rfl

theorem listExpiredCb_previouseTime (tm : TimerManager κ) (now addr : Nat) :
    (tm.listExpiredCb now addr).1.previouseTime = tm.previouseTime ∨
      (tm.listExpiredCb now addr).1.previouseTime = now := by
  unfold listExpiredCb
  split
  · exact .inl rfl
  · split
    · exact .inr rfl
    · exact .inr (rearm_previouseTime _ _ _)

end TimerManager

/-- Where a thread stands inside the timer manager. -/
inductive ExpiryPc (κ : Type)
  | out
  /-- in `listExpiredCb`, with the clock read -/
  | read (now : Nat)
  /-- past the emptiness test under the read lock -/
  | peeked (now : Nat)
  /-- in `addTimer`, with the `Timer` constructed and not yet inserted -/
  | adding (addr : Nat) (t : Timer κ)

/-- The manager, the clock, the threads, and the record of callbacks handed out:
deadline of the timer and clock reading of the call. -/
structure Expiry (κ : Type) where
  tm : TimerManager κ
  clock : Nat
  pc : Nat → ExpiryPc κ
  fired : List (Nat × Nat)

/-- The steps of the threads and of the clock. -/
inductive ExpiryAct (κ : Type)
  | tick (d : Nat)
  | readClock (i : Nat)
  | peek (i : Nat)
  | list (i addr : Nat)
  | new (i addr ms : Nat) (cb : κ) (recurring : Bool)
  | insert (i : Nat)
  | cancel (addr : Nat)
  | refresh (addr : Nat)
  | reset (addr ms : Nat) (fromNow : Bool)

/-- One step. The clock is a `uint64_t` that does not wrap. -/
def expiryStep (s : Expiry κ) : ExpiryAct κ → Option (Expiry κ)
  | .tick d => if s.clock + d < size64 then some { s with clock := s.clock + d } else none
  | .readClock i =>
      match s.pc i with
      | .out => some { s with pc := Function.update s.pc i (.read s.clock) }
      | _ => none
  | .peek i =>
      match s.pc i with
      | .read now =>
          some { s with
            pc := Function.update s.pc i (if s.tm.timers = [] then .out else .peeked now) }
      | _ => none
  | .list i addr =>
      match s.pc i with
      | .peeked now =>
          some { s with
            tm := (s.tm.listExpiredCb now addr).1
            pc := Function.update s.pc i .out
            fired := s.fired ++ (s.tm.returned now addr).map fun a => (s.tm.next a, now) }
      | _ => none
  | .new i addr ms cb recurring =>
      match s.pc i with
      | .out =>
          if (s.tm.heap addr).isNone then
            some { s with
              pc := Function.update s.pc i (.adding addr (.new s.clock ms (some cb) recurring)) }
          else none
      | _ => none
  | .insert i =>
      match s.pc i with
      | .adding addr t =>
          -- an address belongs to one object: no other thread inserted it meanwhile
          if (s.tm.heap addr).isNone then
            some { s with tm := (s.tm.addTimer addr t).1, pc := Function.update s.pc i .out }
          else none
      | _ => none
  | .cancel addr => some { s with tm := (s.tm.cancel addr).1 }
  | .refresh addr => some { s with tm := (s.tm.refresh addr s.clock).1 }
  | .reset addr ms fromNow => some { s with tm := (s.tm.reset addr ms fromNow s.clock).1 }

/-- A manager constructed at clock reading `now`. -/
def Expiry.start (now : Nat) : Expiry κ := ⟨.new now, now, fun _ => .out, []⟩

/-- Any number of threads using one timer manager. -/
def expirySys (κ : Type) : TSys (Expiry κ) (ExpiryAct κ) where
  init s := ∃ now < size64, s = .start now
  step := expiryStep

/-- No callback was handed out before its timer's deadline. -/
def NeverEarly (s : Expiry κ) : Prop := ∀ p ∈ s.fired, p.1 ≤ p.2

/-- A caller that enters the locked section behind a newer reading is less than an
hour late, with the newer reading itself at least an hour from zero; or all timers
are due anyway. -/
def InOrder (s : Expiry κ) : ExpiryAct κ → Prop
  | .list i _ => ∀ now, s.pc i = .peeked now →
      s.tm.previouseTime ≤ now ∨
      (3600000 ≤ s.tm.previouseTime ∧ s.tm.previouseTime ≤ now + 3600000) ∨
      ∀ a ∈ s.tm.timers, s.tm.next a ≤ now
  | _ => True

/-- Every clock value in the system is a `uint64_t`. -/
structure ExpiryInv (s : Expiry κ) : Prop where
  clock : s.clock < size64
  previous : s.tm.previouseTime < size64
  read : ∀ i now, s.pc i = .read now ∨ s.pc i = .peeked now → now < size64

namespace ExpiryInv

variable {s : Expiry κ}

/-- Moving one thread keeps the bounds when its new point carries no reading or one
that was bounded. -/
theorem setPc (h : ExpiryInv s) (i : Nat) (p : ExpiryPc κ)
    (hp : ∀ now, p = .read now ∨ p = .peeked now → now < size64) :
    ∀ j now, Function.update s.pc i p j = .read now ∨ Function.update s.pc i p j = .peeked now →
      now < size64 := by
  intro j now hj
  by_cases hji : j = i
  · subst hji
    rw [Function.update_self] at hj
    exact hp now hj
  · rw [Function.update_of_ne hji] at hj
    exact h.read j now hj

end ExpiryInv

theorem cancel_previouseTime (tm : TimerManager κ) (a : Nat) :
    (tm.cancel a).1.previouseTime = tm.previouseTime := by
  unfold TimerManager.cancel
  split
  · rfl
  · split <;> rfl

theorem refresh_previouseTime (tm : TimerManager κ) (a now : Nat) :
    (tm.refresh a now).1.previouseTime = tm.previouseTime := by
  unfold TimerManager.refresh
  split
  · rfl
  · split <;> rfl

theorem reset_previouseTime (tm : TimerManager κ) (a ms : Nat) (fromNow : Bool) (now : Nat) :
    (tm.reset a ms fromNow now).1.previouseTime = tm.previouseTime := by
  unfold TimerManager.reset
  split
  · rfl
  · split <;> rfl

theorem expiryStep_inv {s s' : Expiry κ} {a : ExpiryAct κ} (h : ExpiryInv s)
    (hs : expiryStep s a = some s') : ExpiryInv s' := by
  cases a with
  | tick d =>
      simp only [expiryStep] at hs
      split at hs
      · rename_i hlt
        cases hs
        exact ⟨hlt, h.previous, h.read⟩
      · cases hs
  | readClock i =>
      simp only [expiryStep] at hs
      split at hs
      · cases hs
        refine ⟨h.clock, h.previous, h.setPc i _ ?_⟩
        rintro now (⟨⟨⟩⟩ | ⟨⟨⟩⟩)
        exact h.clock
      · cases hs
  | peek i =>
      simp only [expiryStep] at hs
      split at hs
      · rename_i now hpc
        cases hs
        refine ⟨h.clock, h.previous, h.setPc i _ ?_⟩
        intro now' hnow'
        split at hnow'
        · rcases hnow' with hnow' | hnow' <;> cases hnow'
        · rcases hnow' with hnow' | hnow' <;> cases hnow'
          exact h.read i now (.inl hpc)
      · cases hs
  | list i addr =>
      simp only [expiryStep] at hs
      split at hs
      · rename_i now hpc
        cases hs
        refine ⟨h.clock, ?_, h.setPc i _ (by simp)⟩
        rcases s.tm.listExpiredCb_previouseTime now addr with heq | heq
        · simpa only [heq] using h.previous
        · simpa only [heq] using h.read i now (.inr hpc)
      · cases hs
  | new i addr ms cb recurring =>
      simp only [expiryStep] at hs
      split at hs
      · split at hs
        · cases hs
          exact ⟨h.clock, h.previous, h.setPc i _ (by simp)⟩
        · cases hs
      · cases hs
  | insert i =>
      simp only [expiryStep] at hs
      split at hs
      · split at hs
        · cases hs
          exact ⟨h.clock, h.previous, h.setPc i _ (by simp)⟩
        · cases hs
      · cases hs
  | cancel addr =>
      cases hs
      exact ⟨h.clock, (cancel_previouseTime s.tm addr).symm ▸ h.previous, h.read⟩
  | refresh addr =>
      cases hs
      exact ⟨h.clock, (refresh_previouseTime s.tm addr s.clock).symm ▸ h.previous, h.read⟩
  | reset addr ms fromNow =>
      cases hs
      exact ⟨h.clock, (reset_previouseTime s.tm addr ms fromNow s.clock).symm ▸ h.previous, h.read⟩

theorem expiry_inductive : (expirySys κ).Inductive (fun _ _ => True) ExpiryInv where
  init := by
    rintro s ⟨now, hnow, rfl⟩
    exact ⟨hnow, hnow, by simp [Expiry.start]⟩
  step := fun _ _ _ h _ hs => expiryStep_inv h hs

/-- A step hands out an early callback exactly when it is a locked section out of
order. -/
theorem expiryStep_neverEarly_iff {s s' : Expiry κ} {a : ExpiryAct κ} (h : ExpiryInv s)
    (hn : NeverEarly s) (hs : expiryStep s a = some s') : NeverEarly s' ↔ InOrder s a := by
  -- only the locked section adds to the record
  have same : s'.fired = s.fired → NeverEarly s' := fun heq => by
    unfold NeverEarly
    rw [heq]
    exact hn
  cases a with
  | list i addr =>
      simp only [expiryStep] at hs
      split at hs
      · rename_i now hpc
        cases hs
        have hdue : NeverEarly { s with
            tm := (s.tm.listExpiredCb now addr).1
            pc := Function.update s.pc i .out
            fired := s.fired ++ (s.tm.returned now addr).map fun a => (s.tm.next a, now) } ↔
            ∀ a ∈ s.tm.returned now addr, s.tm.next a ≤ now := by
          simp only [NeverEarly, List.mem_append, List.mem_map]
          constructor
          · intro hall a ha
            exact hall (s.tm.next a, now) (.inr ⟨a, ha, rfl⟩)
          · rintro hall p (hp | ⟨a, ha, rfl⟩)
            · exact hn p hp
            · exact hall a ha
        have hroll := TimerManager.rollover_iff now h.previous
        rw [hdue, TimerManager.returned_due_iff]
        simp only [InOrder, hpc, ExpiryPc.peeked.injEq, forall_eq']
        rw [← Bool.not_eq_true, hroll]
        constructor
        · rintro (h1 | h1)
          · omega
          · exact .inr (.inr h1)
        · rintro (h1 | h1 | h1)
          · exact .inl (by omega)
          · exact .inl (by omega)
          · exact .inr h1
      · cases hs
  | tick d =>
      simp only [expiryStep] at hs
      split at hs <;> cases hs
      exact iff_of_true (same rfl) trivial
  | readClock i =>
      simp only [expiryStep] at hs
      split at hs <;> cases hs
      exact iff_of_true (same rfl) trivial
  | peek i =>
      simp only [expiryStep] at hs
      split at hs <;> cases hs
      exact iff_of_true (same rfl) trivial
  | new i addr ms cb recurring =>
      simp only [expiryStep] at hs
      split at hs
      · split at hs <;> cases hs
        exact iff_of_true (same rfl) trivial
      · cases hs
  | insert i =>
      simp only [expiryStep] at hs
      split at hs
      · split at hs <;> cases hs
        exact iff_of_true (same rfl) trivial
      · cases hs
  | cancel addr =>
      cases hs
      exact iff_of_true (same rfl) trivial
  | refresh addr =>
      cases hs
      exact iff_of_true (same rfl) trivial
  | reset addr ms fromNow =>
      cases hs
      exact iff_of_true (same rfl) trivial

theorem neverEarly_inductive :
    (expirySys κ).Inductive InOrder fun s => ExpiryInv s ∧ NeverEarly s where
  init := by
    rintro s ⟨now, hnow, rfl⟩
    exact ⟨expiry_inductive.init _ ⟨now, hnow, rfl⟩, by simp [NeverEarly, Expiry.start]⟩
  step := fun _ _ _ h hg hs =>
    ⟨expiryStep_inv h.1 hs, (expiryStep_neverEarly_iff h.1 h.2 hs).mpr hg⟩

/-- In a run whose locked sections are all in order no callback is handed out before
its deadline; and the first locked section out of order hands one out early. -/
theorem timers_never_early {s : Expiry κ} (h : (expirySys κ).Reaches InOrder s) :
    NeverEarly s ∧ ∀ a s', expiryStep s a = some s' → (NeverEarly s' ↔ InOrder s a) :=
  have hinv := neverEarly_inductive.invariant h
  ⟨hinv.2, fun _ _ hs => expiryStep_neverEarly_iff hinv.1 hinv.2 hs⟩

/-- `InOrder`, as a test. -/
def inOrderTest (s : Expiry κ) : ExpiryAct κ → Bool
  | .list i _ =>
      match s.pc i with
      | .peeked now =>
          decide (s.tm.previouseTime ≤ now ∨
            (3600000 ≤ s.tm.previouseTime ∧ s.tm.previouseTime ≤ now + 3600000) ∨
            ∀ a ∈ s.tm.timers, s.tm.next a ≤ now)
      | _ => true
  | _ => true

theorem inOrder_of_test (s : Expiry κ) (a : ExpiryAct κ) (h : inOrderTest s a = true) :
    InOrder s a := by
  cases a with
  | list i addr =>
      intro now hpc
      simp only [inOrderTest, hpc, decide_eq_true_eq] at h
      exact h
  | _ => trivial

/-- An hour and more after boot: a callback every five seconds; a thread that reads the clock at
its deadline is overtaken by one that reads a millisecond later and hands it out. -/
def deadlineTrace : List (ExpiryAct CbId) :=
  [.new 0 1 5000 7 true, .insert 0, .readClock 1, .peek 1, .list 1 9, .tick 5000, .readClock 1,
    .peek 1, .tick 1, .readClock 2, .peek 2, .list 2 9, .list 1 9]

theorem timers_never_early_deadline :
    ∃ s : Expiry CbId, s.fired = [(4005000, 4005001)] ∧ NeverEarly s ∧
      ∀ a s', expiryStep s a = some s' → (NeverEarly s' ↔ InOrder s a) := by
  obtain ⟨s, hs, hp⟩ := TSys.exists_reaches (M := expirySys CbId) inOrder_of_test
    (s := .start 4000000) (l := deadlineTrace) (p := fun s => s.fired == [(4005000, 4005001)])
    ⟨4000000, by decide, rfl⟩ (by decide +kernel)
  exact ⟨s, eq_of_beq hp, timers_never_early hs⟩

/-- One second after boot: a timer for five seconds later is pending, one thread
reads 1000 and is overtaken by a thread that reads 1001. -/
def overtakenTrace : List (ExpiryAct CbId) :=
  [.new 0 1 5000 7 false, .insert 0, .readClock 1, .tick 1, .readClock 2, .peek 2, .list 2 9,
    .peek 1, .list 1 9]

/-- The overtaken thread takes the difference of one millisecond for a rollover and
hands out the callback five seconds early. -/
theorem overtaken_fires_early :
    ∃ s : Expiry CbId, (expirySys CbId).Reachable s ∧ ¬ NeverEarly s := by
  obtain ⟨s, hs, hp⟩ := TSys.exists_reachable (M := expirySys CbId) (s := .start 1000)
    (l := overtakenTrace) (p := fun s => s.fired == [(6000, 1000)]) ⟨1000, by decide, rfl⟩
    (by decide +kernel)
  refine ⟨s, hs, fun hn => ?_⟩
  have hmem : (6000, 1000) ∈ s.fired := by
    rw [eq_of_beq hp]
    exact List.mem_singleton.mpr rfl
  have := hn _ hmem
  omega

end Gxh
