import Gxh.Lib.TSys
import Mathlib.Logic.Function.Basic

/-!
# Configuration variables

`ConfigVar<T>` (`config.h`): a value and the listeners that are told when it changes.
`setValue` compares and notifies under the read lock, and assigns under the write lock after
that, so a listener that reads the variable sees the old value, and another `setValue` may run
between the two locks.

* `setValue` is one call on its own, for listeners that act on any state of the program and
  may end the process.
* `cacheSys` interleaves any number of calls, with one listener that stores the new value.
-/

namespace Gxh.Config

/-- `on_change_cb`, on the state `σ` of the rest of the program; `none` ends the process.
`current` is what `getValue()` returns while the callback runs. -/
abbrev OnChange (T σ : Type) := (current old new : T) → σ → Option σ

/-- `ConfigVar<T>`, with the callbacks in the order of their keys. -/
structure ConfigVar (T σ : Type) where
  val : T
  cbs : List (OnChange T σ)

namespace ConfigVar

variable {T σ : Type} [BEq T]

/-- `addListener`: keys are handed out in increasing order. -/
def addListener (c : ConfigVar T σ) (cb : OnChange T σ) : ConfigVar T σ :=
  { c with cbs := c.cbs ++ [cb] }

def getValue (c : ConfigVar T σ) : T := c.val

/-- The loop over `m_cbs`. -/
def notify (current new : T) : List (OnChange T σ) → σ → Option σ
  | [], s => some s
  | cb :: rest, s => (cb current current new s).bind (notify current new rest)

/-- `setValue`; `none` if a callback ends the process. -/
def setValue (c : ConfigVar T σ) (v : T) (s : σ) : Option (ConfigVar T σ × σ) :=
  if v == c.val then some (c, s)
  else (notify c.val v c.cbs s).map fun s => ({ c with val := v }, s)

/-- Calls one after the other, as far as the process lives. -/
def setValues (c : ConfigVar T σ) (s : σ) : List T → Option (ConfigVar T σ × σ)
  | [] => some (c, s)
  | v :: rest => (c.setValue v s).bind fun (c, s) => c.setValues s rest

theorem setValue_eq_some {c c' : ConfigVar T σ} {v : T} {s s' : σ}
    (h : c.setValue v s = some (c', s')) :
    ((v == c.val) = true ∧ c' = c ∧ s' = s) ∨
    ((v == c.val) = false ∧ c' = { c with val := v } ∧ notify c.val v c.cbs s = some s') := by
  unfold setValue at h
  split at h
  · rename_i heq
    cases h
    exact .inl ⟨heq, rfl, rfl⟩
  · rename_i hne
    rw [Option.map_eq_some_iff] at h
    obtain ⟨t, ht, heq⟩ := h
    cases heq
    exact .inr ⟨by simpa using hne, rfl, ht⟩

/-- The listeners stay. -/
theorem setValue_cbs {c c' : ConfigVar T σ} {v : T} {s s' : σ}
    (h : c.setValue v s = some (c', s')) : c'.cbs = c.cbs := by
  rcases setValue_eq_some h with ⟨-, rfl, -⟩ | ⟨-, rfl, -⟩
  · rfl
  · rfl

/-- After the call the variable has the value, or one that compares equal. -/
theorem setValue_val [ReflBEq T] {c c' : ConfigVar T σ} {v : T} {s s' : σ}
    (h : c.setValue v s = some (c', s')) : (v == c'.val) = true := by
  rcases setValue_eq_some h with ⟨heq, rfl, -⟩ | ⟨-, rfl, -⟩
  · exact heq
  · exact BEq.rfl

end ConfigVar

/-! ## Concurrent calls -/

/-- Where a call of `setValue` stands. -/
inductive Phase (T : Type)
  | idle
  /-- the comparison found a difference; the read lock is held -/
  | notifying (v : T)
  /-- the callbacks have run and the read lock is released -/
  | notified (v : T)
  deriving DecidableEq, Repr

/-- The variable, the copy its listener keeps, and the calls by thread. -/
structure Cached (T C : Type) where
  val : T
  cache : C
  /-- How many calls hold the read lock of `m_mutex`. -/
  readers : Nat
  phase : Nat → Phase T
  /-- The `(old_value, new_value)` pairs the listener was given, newest first; no function
  of the source reads it. -/
  log : List (T × T)

inductive SetAct (T : Type)
  /-- take the read lock and compare; on equal values the call returns -/
  | compare (t : Nat) (v : T)
  /-- run the listener and release the read lock -/
  | notify (t : Nat)
  /-- take the write lock, which no reader may hold, and assign -/
  | assign (t : Nat)
  deriving DecidableEq, Repr

section Concurrent

variable {T C : Type} [BEq T]

/-- One step of a call; `store` is the conversion in the listener's assignment. -/
def cacheStep (store : T → C) (s : Cached T C) : SetAct T → Option (Cached T C)
  | .compare t v =>
      match s.phase t with
      | .idle =>
          if v == s.val then some s
          else some { s with
            readers := s.readers + 1
            phase := Function.update s.phase t (.notifying v) }
      | _ => none
  | .notify t =>
      match s.phase t with
      | .notifying v => some { s with
          cache := store v
          readers := s.readers - 1
          phase := Function.update s.phase t (.notified v)
          log := (s.val, v) :: s.log }
      | _ => none
  | .assign t =>
      match s.phase t with
      | .notified v => when (s.readers = 0) { s with
          val := v
          phase := Function.update s.phase t .idle }
      | _ => none

/-- The listener's copy is made before it is added. -/
def Cached.start (store : T → C) (v₀ : T) : Cached T C :=
  { val := v₀, cache := store v₀, readers := 0, phase := fun _ => .idle, log := [] }

def cacheSys (store : T → C) (v₀ : T) : TSys (Cached T C) (SetAct T) where
  init := fun s => s = .start store v₀
  step := cacheStep store

/-- A call that finds a difference begins while no other call is under way. -/
def OneAtATime (s : Cached T C) : SetAct T → Prop
  | .compare _ v => (v == s.val) = false → ∀ t, s.phase t = .idle
  | _ => True

/-- Pairs, newest first, in which every old value is the new value before it: they lead from
`v₀` to the last argument. -/
inductive ChainFrom (v₀ : T) : List (T × T) → T → Prop
  | nil : ChainFrom v₀ [] v₀
  | cons {l : List (T × T)} {a b : T} : ChainFrom v₀ l a → ChainFrom v₀ ((a, b) :: l) b

structure CacheOk (store : T → C) (v₀ : T) (s : Cached T C) : Prop where
  agrees : (∀ t, s.phase t = .idle) → s.cache = store s.val
  chained : ∃ v, ChainFrom v₀ s.log v

/-- The three states of a run in which calls do not overlap. -/
inductive Quiet (store : T → C) (v₀ : T) (s : Cached T C) : Prop
  | idle : (∀ t, s.phase t = .idle) → s.readers = 0 → s.cache = store s.val →
      ChainFrom v₀ s.log s.val → Quiet store v₀ s
  | notifying (t : Nat) (v : T) : s.phase t = .notifying v → (∀ u, u ≠ t → s.phase u = .idle) →
      s.readers = 1 → ChainFrom v₀ s.log s.val → Quiet store v₀ s
  | notified (t : Nat) (v : T) : s.phase t = .notified v → (∀ u, u ≠ t → s.phase u = .idle) →
      s.readers = 0 → s.cache = store v → ChainFrom v₀ s.log v → Quiet store v₀ s

variable {store : T → C} {v₀ : T} {s s' : Cached T C}

omit [BEq T] in
theorem Quiet.ok (h : Quiet store v₀ s) : CacheOk store v₀ s := by
  cases h with
  | idle _ _ hcache hchain => exact ⟨fun _ => hcache, _, hchain⟩
  | notifying t v hphase _ _ hchain =>
      refine ⟨fun hidle => ?_, _, hchain⟩
      rw [hidle t] at hphase
      cases hphase
  | notified t v hphase _ _ _ hchain =>
      refine ⟨fun hidle => ?_, _, hchain⟩
      rw [hidle t] at hphase
      cases hphase

omit [BEq T] in
/-- The one call under way is the one that moves. -/
theorem eq_of_active {t u : Nat} (hothers : ∀ u, u ≠ t → s.phase u = .idle)
    (h : s.phase u ≠ .idle) : u = t := by
  by_contra hne
  exact h (hothers u hne)

theorem quiet_compare {t : Nat} {v : T} (h : Quiet store v₀ s)
    (hg : OneAtATime s (.compare t v)) (hs : cacheStep store s (.compare t v) = some s') :
    Quiet store v₀ s' := by
  unfold cacheStep at hs
  dsimp only at hs
  split at hs
  · split at hs
    · cases hs
      exact h
    · rename_i hphase hne
      cases hs
      have hidle := hg (by simpa using hne)
      cases h with
      | idle _ hreaders _ hchain =>
          refine .notifying t v ?_ (fun u hu => ?_) ?_ hchain
          · show Function.update s.phase t _ t = _
            rw [Function.update_self]
          · show Function.update s.phase t _ u = _
            rw [Function.update_of_ne hu]
            exact hidle u
          · show s.readers + 1 = 1
            rw [hreaders]
      | notifying u w hu =>
          rw [hidle u] at hu
          cases hu
      | notified u w hu =>
          rw [hidle u] at hu
          cases hu
  · cases hs

theorem quiet_notify {t : Nat} (h : Quiet store v₀ s)
    (hs : cacheStep store s (.notify t) = some s') : Quiet store v₀ s' := by
  unfold cacheStep at hs
  dsimp only at hs
  split at hs
  · rename_i v hphase
    cases hs
    cases h with
    | idle hidle =>
        rw [hidle t] at hphase
        cases hphase
    | notifying u w hu hothers hreaders hchain =>
        obtain rfl := eq_of_active hothers (u := t) (by simp [hphase])
        refine .notified t v ?_ (fun u hne => ?_) ?_ rfl (.cons hchain)
        · show Function.update s.phase t _ t = _
          rw [Function.update_self]
        · show Function.update s.phase t _ u = _
          rw [Function.update_of_ne hne]
          exact hothers u hne
        · show s.readers - 1 = 0
          rw [hreaders]
    | notified u w hu hothers =>
        obtain rfl := eq_of_active hothers (u := t) (by simp [hphase])
        rw [hphase] at hu
        cases hu
  · cases hs

theorem quiet_assign {t : Nat} (h : Quiet store v₀ s)
    (hs : cacheStep store s (.assign t) = some s') : Quiet store v₀ s' := by
  unfold cacheStep at hs
  dsimp only at hs
  split at hs
  · rename_i v hphase
    obtain ⟨hreaders, rfl⟩ := when_eq_some.mp hs
    cases h with
    | idle hidle =>
        rw [hidle t] at hphase
        cases hphase
    | notifying u w hu hothers =>
        obtain rfl := eq_of_active hothers (u := t) (by simp [hphase])
        rw [hphase] at hu
        cases hu
    | notified u w hu hothers _ hcache hchain =>
        obtain rfl := eq_of_active hothers (u := t) (by simp [hphase])
        rw [hphase] at hu
        cases hu
        refine .idle (fun u => ?_) hreaders hcache hchain
        show Function.update s.phase t _ u = _
        by_cases hne : u = t
        · rw [hne, Function.update_self]
        · rw [Function.update_of_ne hne]
          exact hothers u hne
  · cases hs

theorem quiet_inductive (store : T → C) (v₀ : T) :
    (cacheSys store v₀).Inductive OneAtATime (Quiet store v₀) where
  init := by
    rintro s rfl
    exact .idle (fun _ => rfl) rfl rfl .nil
  step := by
    intro s a s' h hg hs
    cases a with
    | compare t v => exact quiet_compare h hg hs
    | notify t => exact quiet_notify h hs
    | assign t => exact quiet_assign h hs

/-- A call that runs alone goes through. -/
theorem lone_call {G : Cached T C → SetAct T → Prop} (hG : ∀ s a, OneAtATime s a → G s a)
    (h : (cacheSys store v₀).Reaches G s) (hidle : ∀ t, s.phase t = .idle)
    (hreaders : s.readers = 0) {v : T} (hne : (v == s.val) = false) :
    ∃ s', (cacheSys store v₀).Reaches G s' ∧ (∀ t, s'.phase t = .idle) ∧ s'.readers = 0 ∧
      s'.val = v ∧ s'.log = (s.val, v) :: s.log := by
  -- the three steps of a call, with the reader's lock in between
  have h₁ : (cacheSys store v₀).Reaches G { s with
      readers := s.readers + 1
      phase := Function.update s.phase 0 (.notifying v) } := by
    refine h.step (a := .compare 0 v) (hG _ _ fun _ => hidle) ?_
    simp [cacheSys, cacheStep, hidle 0, hne]
  have h₂ : (cacheSys store v₀).Reaches G { s with
      cache := store v
      readers := 0
      phase := Function.update s.phase 0 (.notified v)
      log := (s.val, v) :: s.log } := by
    refine h₁.step (a := .notify 0) (hG _ _ trivial) ?_
    simp [cacheSys, cacheStep, hreaders]
  have h₃ : (cacheSys store v₀).Reaches G { s with
      val := v
      cache := store v
      readers := 0
      phase := Function.update s.phase 0 .idle
      log := (s.val, v) :: s.log } := by
    refine h₂.step (a := .assign 0) (hG _ _ trivial) ?_
    simp [cacheSys, cacheStep]
  refine ⟨_, h₃, fun t => ?_, rfl, rfl, rfl⟩
  show Function.update s.phase 0 .idle t = .idle
  by_cases ht : t = 0
  · rw [ht, Function.update_self]
  · rw [Function.update_of_ne ht]
    exact hidle t

/-- In every run in which no call finds a difference while another is between its comparison
and its assignment, the listener's copy agrees with the variable whenever no call is under way,
and the notified pairs form a chain. -/
theorem cache_follows (store : T → C) (v₀ : T) {s : Cached T C}
    (h : (cacheSys store v₀).Reaches OneAtATime s) : CacheOk store v₀ s :=
  ((quiet_inductive store v₀).invariant h).ok

end Concurrent

/-- The variable is set to 1 and then to 2. -/
theorem cache_follows_twice : ∃ s, (cacheSys (T := Nat) id 0).Reaches OneAtATime s ∧
    s.val = 2 ∧ s.log = [(1, 2), (0, 1)] ∧ CacheOk id 0 s := by
  have hstart : (cacheSys (T := Nat) id 0).Reaches OneAtATime (.start id 0) := .init rfl
  obtain ⟨s, hs, hidle, hreaders, hval, hlog⟩ :=
    lone_call (v := 1) (fun _ _ h => h) hstart (fun _ => rfl) rfl rfl
  obtain ⟨s', hs', -, -, hval', hlog'⟩ :=
    lone_call (v := 2) (fun _ _ h => h) hs hidle hreaders (by rw [hval]; rfl)
  refine ⟨s', hs', hval', ?_, cache_follows id 0 hs'⟩
  rw [hlog', hlog, hval]
  rfl

/-- Two threads set 1 and 2 at the same time, and the later notification belongs to the earlier
assignment: the copy is 2 and the variable 1. -/
theorem cache_disagrees : ∃ s, (cacheSys (T := Nat) id 0).Reachable s ∧
    (∀ t, s.phase t = .idle) ∧ s.cache = 2 ∧ s.val = 1 ∧ s.log = [(0, 2), (0, 1)] ∧
    ¬ CacheOk id 0 s := by
  have h₁ : (cacheSys (T := Nat) id 0).Reachable _ :=
    .step (a := .compare 0 1) (.init rfl) trivial rfl
  have h₂ := h₁.step (a := .compare 1 2) trivial rfl
  have h₄ := (h₂.step (a := .notify 0) trivial rfl).step (a := .notify 1) trivial rfl
  have h₆ := (h₄.step (a := .assign 1) trivial rfl).step (a := .assign 0) trivial rfl
  have hbroken : ∀ s : Cached Nat Nat, (∀ t, s.phase t = .idle) → s.cache = 2 → s.val = 1 →
      ¬ CacheOk id 0 s := by
    intro s hidle hcache hval hok
    have hagree := hok.agrees hidle
    rw [hcache, hval] at hagree
    cases hagree
  have hidle : ∀ t, Function.update (Function.update (Function.update (Function.update
      (Function.update (Function.update (fun _ => Phase.idle (T := Nat)) 0 (.notifying 1))
        1 (.notifying 2)) 0 (.notified 1)) 1 (.notified 2)) 1 .idle) 0 .idle t = .idle := by
    intro t
    by_cases h0 : t = 0
    · simp [h0]
    · by_cases h1 : t = 1 <;> simp [h0, h1]
  exact ⟨_, h₆, hidle, rfl, rfl, rfl, hbroken _ hidle rfl rfl⟩

end Gxh.Config
