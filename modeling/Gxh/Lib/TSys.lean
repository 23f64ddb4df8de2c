import Mathlib.Order.Basic

/-!
# Labelled transition systems with guarded runs

A system is a set of start states and a partial step function: `step s a = none`
says that the action `a` is not enabled in `s`. A *guard* `G s a` restricts the
runs: `Reaches G` are the states reached by runs every step of which meets `G`,
and `Reachable` are the states of all runs.

* `Inductive.invariant` — an inductive predicate holds in every state reached;
* `exec_reaches` — the executable counterpart, used to replay a concrete trace, with a test
  that implies the guard;
* `along_iff_meets` — a predicate that the guarded steps keep and the others break holds along a
  trace exactly if its steps meet the guard.
-/

namespace Gxh

/-- A labelled transition system with states `σ` and actions `α`. -/
structure TSys (σ : Type) (α : Type) where
  init : σ → Prop
  step : σ → α → Option σ

/-- A step that is enabled when `c` holds. -/
def when {σ : Type} (c : Prop) [Decidable c] (s : σ) : Option σ := if c then some s else none

@[simp] theorem when_eq_some {σ : Type} {c : Prop} [Decidable c] {s s' : σ} :
    when c s = some s' ↔ c ∧ s = s' := by
  unfold when
  split <;> simp_all

namespace TSys

variable {σ α : Type} {M : TSys σ α} {G H : σ → α → Prop} {P Q : σ → Prop}

/-- The states reached by runs whose every step meets the guard `G`. -/
inductive Reaches (M : TSys σ α) (G : σ → α → Prop) : σ → Prop
  | init {s : σ} : M.init s → Reaches M G s
  | step {s s' : σ} {a : α} : Reaches M G s → G s a → M.step s a = some s' →
      Reaches M G s'

/-- The states of all runs. -/
abbrev Reachable (M : TSys σ α) : σ → Prop := M.Reaches fun _ _ => True

/-- A weaker guard admits more runs. -/
theorem Reaches.mono (hGH : ∀ s a, G s a → H s a) {s : σ} (h : M.Reaches G s) :
    M.Reaches H s := by
  induction h with
  | init h => exact .init h
  | step _ hg hs ih => exact .step ih (hGH _ _ hg) hs

/-- A predicate that holds at the start and is kept by every guarded step. -/
structure Inductive (M : TSys σ α) (G : σ → α → Prop) (P : σ → Prop) : Prop where
  init : ∀ s, M.init s → P s
  step : ∀ s a s', P s → G s a → M.step s a = some s' → P s'

/-- An inductive predicate holds in every state reached under the guard. -/
theorem Inductive.invariant (h : M.Inductive G P) {s : σ} (hs : M.Reaches G s) : P s := by
  induction hs with
  | init hi => exact h.init _ hi
  | step _ hg hstep ih => exact h.step _ _ _ ih hg hstep

/-- Run a list of actions in order, each of which must pass the test `g`. -/
def exec (M : TSys σ α) (g : σ → α → Bool) : σ → List α → Option σ
  | s, [] => some s
  | s, a :: rest => if g s a then (M.step s a).bind fun s' => exec M g s' rest else none

/-- A trace that runs through is a run. -/
theorem exec_reaches {g : σ → α → Bool} (hg : ∀ s a, g s a = true → G s a) {s s' : σ}
    {l : List α} (hs : M.Reaches G s) (h : M.exec g s l = some s') : M.Reaches G s' := by
  induction l generalizing s with
  | nil =>
      simp only [exec, Option.some.injEq] at h
      exact h ▸ hs
  | cons a rest ih =>
      simp only [exec] at h
      split at h
      · rename_i htest
        obtain ⟨t, ht, hrest⟩ := Option.bind_eq_some_iff.mp h
        exact ih (.step hs (hg s a htest) ht) hrest
      · cases h

/-- A replayed trace that ends in a state where the test `p` answers true leads to a state
with that property. -/
theorem exists_reaches {g : σ → α → Bool} (hg : ∀ s a, g s a = true → G s a) {s : σ}
    {l : List α} {p : σ → Bool} (hs : M.init s) (h : (M.exec g s l).map p = some true) :
    ∃ t, M.Reaches G t ∧ p t = true := by
  rw [Option.map_eq_some_iff] at h
  obtain ⟨t, ht, hp⟩ := h
  exact ⟨t, exec_reaches hg (.init hs) ht, hp⟩

/-- What the steps of some actions keep holds at the end of a run of such actions. -/
theorem exec_keeps {A : α → Prop}
    (hkeep : ∀ s a s', P s → A a → M.step s a = some s' → P s') {s t : σ} {l : List α}
    (hacts : ∀ a ∈ l, A a) (hrun : M.exec (fun _ _ => true) s l = some t) (hp : P s) : P t := by
  induction l generalizing s with
  | nil =>
      cases hrun
      exact hp
  | cons a rest ih =>
      rw [exec, if_pos rfl] at hrun
      obtain ⟨s', hs, hrest⟩ := Option.bind_eq_some_iff.mp hrun
      obtain ⟨hnow, hlater⟩ := List.forall_mem_cons.mp hacts
      exact ih hlater hrest (hkeep s a s' hp hnow hs)

/-- Any trace, for the states of all runs. -/
theorem exists_reachable {s : σ} {l : List α} {p : σ → Bool} (hs : M.init s)
    (h : (M.exec (fun _ _ => true) s l).map p = some true) : ∃ t, M.Reachable t ∧ p t = true :=
  exists_reaches (fun _ _ _ => trivial) hs h

/-- `P` holds in every state of a trace. -/
def Along (M : TSys σ α) (P : σ → Prop) : σ → List α → Prop
  | s, [] => P s
  | s, a :: rest => P s ∧ ∀ s', M.step s a = some s' → Along M P s' rest

/-- Every step of a trace meets the guard. -/
def Meets (M : TSys σ α) (G : σ → α → Prop) : σ → List α → Prop
  | _, [] => True
  | s, a :: rest => G s a ∧ ∀ s', M.step s a = some s' → Meets M G s' rest

theorem Along.head {s : σ} {l : List α} (h : M.Along P s l) : P s := by
  cases l with
  | nil => exact h
  | cons a rest => exact h.1

/-- Inside an invariant `Q`: where `P` is kept by the steps that meet the guard and broken by the
others, it holds along a trace if and only if the trace meets the guard. -/
theorem along_iff_meets (hinv : M.Inductive (fun _ _ => True) Q)
    (hkeep : ∀ s a s', Q s → P s → G s a → M.step s a = some s' → P s')
    (hbreak : ∀ s a s', Q s → ¬G s a → M.step s a = some s' → ¬P s') {s m : σ} {l : List α}
    (hrun : M.exec (fun _ _ => true) s l = some m) (hq : Q s) (hp : P s) :
    M.Along P s l ↔ M.Meets G s l := by
  induction l generalizing s with
  | nil => exact iff_of_true hp trivial
  | cons a rest ih =>
      simp only [exec, if_true] at hrun
      obtain ⟨t, ht, hrest⟩ := Option.bind_eq_some_iff.mp hrun
      have hqt : Q t := hinv.step s a t hq trivial ht
      have honly : ∀ s', M.step s a = some s' → s' = t := fun s' hs' =>
        Option.some.inj (hs'.symm.trans ht)
      constructor
      · rintro ⟨-, halong⟩
        have hpt : P t := (halong t ht).head
        refine ⟨?_, fun s' hs' => ?_⟩
        · by_contra hg
          exact hbreak s a t hq hg ht hpt
        · obtain rfl := honly s' hs'
          exact (ih hrest hqt hpt).mp (halong s' ht)
      · rintro ⟨hg, hmeets⟩
        refine ⟨hp, fun s' hs' => ?_⟩
        obtain rfl := honly s' hs'
        exact (ih hrest hqt (hkeep s a s' hq hp hg ht)).mpr (hmeets s' ht)

/-- A guard on the actions alone. -/
theorem meets_iff_forall {p : α → Prop} {s m : σ} {l : List α}
    (hrun : M.exec (fun _ _ => true) s l = some m) :
    M.Meets (fun _ a => p a) s l ↔ ∀ a ∈ l, p a := by
  induction l generalizing s with
  | nil => exact iff_of_true trivial nofun
  | cons a rest ih =>
      simp only [exec, if_true] at hrun
      obtain ⟨t, ht, hrest⟩ := Option.bind_eq_some_iff.mp hrun
      rw [List.forall_mem_cons, ← ih hrest]
      refine and_congr_right fun _ => ⟨fun h => h t ht, fun h s' hs' => ?_⟩
      obtain rfl := Option.some.inj (hs'.symm.trans ht)
      exact h

/-- A trace by steps that meet the guard is a run. -/
theorem reaches_of_meets {s s' : σ} {l : List α} (hs : M.Reaches G s)
    (hrun : M.exec (fun _ _ => true) s l = some s') (hmeets : M.Meets G s l) : M.Reaches G s' := by
  induction l generalizing s with
  | nil =>
      cases hrun
      exact hs
  | cons a rest ih =>
      simp only [exec, if_true] at hrun
      obtain ⟨t, ht, hrest⟩ := Option.bind_eq_some_iff.mp hrun
      exact ih (.step hs hmeets.1 ht) hrest (hmeets.2 t ht)

/-- A trace that a test admits, by steps that meet the guard. -/
theorem exec_meets {g : σ → α → Bool} (hg : ∀ s a, g s a = true → G s a) {s s' : σ}
    {l : List α} (h : M.exec g s l = some s') :
    M.exec (fun _ _ => true) s l = some s' ∧ M.Meets G s l := by
  induction l generalizing s with
  | nil => exact ⟨h, trivial⟩
  | cons a rest ih =>
      simp only [exec] at h
      split at h
      · rename_i htest
        obtain ⟨t, ht, hrest⟩ := Option.bind_eq_some_iff.mp h
        obtain ⟨hrun, hmeets⟩ := ih hrest
        refine ⟨?_, hg s a htest, fun u hu => ?_⟩
        · simp only [exec, if_true, ht, Option.bind_some]
          exact hrun
        · obtain rfl := Option.some.inj (hu.symm.trans ht)
          exact hmeets
      · cases h

end TSys

end Gxh
