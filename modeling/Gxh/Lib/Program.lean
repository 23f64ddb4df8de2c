import Mathlib.Logic.Basic

/-!
# Programs over commands, and machines that run them

A program asks a machine for one command after the other and goes on with what it answers; a
machine says how a command ends from a state. `Refines M N R` compares two machines command by
command, and `Refines.run` and `Refines.session` carry this over to programs and to sequences of
them in which exceptions are caught. Where the abstract machine leaves a command undefined, the
concrete one may do anything.
-/

namespace Gxh

/-- How a computation on a state ends: with a result, with an exception, or in no defined way. -/
inductive Ending (ε σ α : Type)
  | done (a : α) (s : σ)
  | thrown (e : ε) (s : σ)
  | undefined

namespace Ending

variable {ε σ τ α β : Type}

def bind (x : Ending ε σ α) (f : α → σ → Ending ε σ β) : Ending ε σ β :=
  match x with
  | .done a s => f a s
  | .thrown e s => .thrown e s
  | .undefined => .undefined

@[simp] theorem bind_done (a : α) (s : σ) (f : α → σ → Ending ε σ β) :
    (Ending.done a s).bind f = f a s := rfl

@[simp] theorem bind_thrown (e : ε) (s : σ) (f : α → σ → Ending ε σ β) :
    (Ending.thrown e s).bind f = .thrown e s := rfl

@[simp] theorem bind_undefined (f : α → σ → Ending ε σ β) :
    (Ending.undefined : Ending ε σ α).bind f = .undefined := rfl

theorem bind_assoc {γ : Type} (x : Ending ε σ α) (f : α → σ → Ending ε σ β)
    (g : β → σ → Ending ε σ γ) : (x.bind f).bind g = x.bind fun a s => (f a s).bind g := by
  cases x <;> rfl

/-- `x` does what `y` does, in states related by `R`, where `y` is defined. -/
def Follows (R : σ → τ → Prop) (x : Ending ε σ α) (y : Ending ε τ α) : Prop :=
  match y with
  | .done a t => ∃ s, x = .done a s ∧ R s t
  | .thrown e t => ∃ s, x = .thrown e s ∧ R s t
  | .undefined => True

variable {R : σ → τ → Prop}

theorem follows_done (a : α) {s : σ} {t : τ} (h : R s t) :
    (Ending.done a s : Ending ε σ α).Follows R (.done a t) :=
  ⟨s, rfl, h⟩

theorem Follows.bind {x : Ending ε σ α} {y : Ending ε τ α} (h : x.Follows R y)
    {f : α → σ → Ending ε σ β} {g : α → τ → Ending ε τ β}
    (hfg : ∀ a s t, R s t → (f a s).Follows R (g a t)) : (x.bind f).Follows R (y.bind g) := by
  cases y with
  | done a t =>
      obtain ⟨s, rfl, hR⟩ := h
      exact hfg a s t hR
  | thrown e t =>
      obtain ⟨s, rfl, hR⟩ := h
      exact ⟨s, rfl, hR⟩
  | undefined => trivial

end Ending

/-- A result, or a command and what to do with the answer to it. -/
inductive Prog (ι : Type) (ρ : ι → Type) (α : Type)
  | ret (a : α)
  | call (i : ι) (k : ρ i → Prog ι ρ α)

/-- What each command does to a state. -/
abbrev Machine (ι : Type) (ρ : ι → Type) (ε σ : Type) := (i : ι) → σ → Ending ε σ (ρ i)

namespace Prog

variable {ι : Type} {ρ : ι → Type} {ε σ τ α β : Type}

/-- The command alone. -/
def ask (i : ι) : Prog ι ρ (ρ i) := .call i .ret

def bind : Prog ι ρ α → (α → Prog ι ρ β) → Prog ι ρ β
  | .ret a, f => f a
  | .call i k, f => .call i fun r => (k r).bind f

def map (f : α → β) (p : Prog ι ρ α) : Prog ι ρ β := p.bind fun a => .ret (f a)

def run (M : Machine ι ρ ε σ) : Prog ι ρ α → σ → Ending ε σ α
  | .ret a, s => .done a s
  | .call i k, s => (M i s).bind fun r s' => (k r).run M s'

variable (M : Machine ι ρ ε σ)

@[simp] theorem run_ret (a : α) (s : σ) : (Prog.ret a : Prog ι ρ α).run M s = .done a s := rfl

theorem run_call (i : ι) (k : ρ i → Prog ι ρ α) (s : σ) :
    (Prog.call i k).run M s = (M i s).bind fun r s' => (k r).run M s' := rfl

@[simp] theorem run_ask (i : ι) (s : σ) : (ask i : Prog ι ρ (ρ i)).run M s = M i s := by
  rw [ask, run_call]
  cases M i s <;> rfl

theorem run_bind (p : Prog ι ρ α) (f : α → Prog ι ρ β) (s : σ) :
    (p.bind f).run M s = (p.run M s).bind fun a s' => (f a).run M s' := by
  induction p generalizing s with
  | ret a => rfl
  | call i k ih =>
      rw [bind, run_call, run_call, Ending.bind_assoc]
      congr 1
      funext r s'
      exact ih r s'

theorem run_map (f : α → β) (p : Prog ι ρ α) (s : σ) :
    (p.map f).run M s = (p.run M s).bind fun a s' => .done (f a) s' :=
  run_bind M p _ s

/-- One program after the other, each with its result or its exception, if all are defined. -/
def session (M : Machine ι ρ ε σ) : List (Prog ι ρ α) → σ → Option (List (Except ε α) × σ)
  | [], s => some ([], s)
  | p :: rest, s =>
      match p.run M s with
      | .done a s' => (session M rest s').map fun r => (.ok a :: r.1, r.2)
      | .thrown e s' => (session M rest s').map fun r => (.error e :: r.1, r.2)
      | .undefined => none

end Prog

/-- `M` answers every command as `N` does, from states related by `R` into such states. -/
def Refines {ι : Type} {ρ : ι → Type} {ε σ τ : Type} (M : Machine ι ρ ε σ) (N : Machine ι ρ ε τ)
    (R : σ → τ → Prop) : Prop :=
  ∀ i s t, R s t → (M i s).Follows R (N i t)

namespace Refines

variable {ι : Type} {ρ : ι → Type} {ε σ τ α : Type} {M : Machine ι ρ ε σ} {N : Machine ι ρ ε τ}
  {R : σ → τ → Prop}

theorem run (h : Refines M N R) (p : Prog ι ρ α) {s : σ} {t : τ} (hR : R s t) :
    (p.run M s).Follows R (p.run N t) := by
  induction p generalizing s t with
  | ret a => exact Ending.follows_done a hR
  | call i k ih => exact (h i s t hR).bind fun a s' t' hR' => ih a hR'

theorem session (h : Refines M N R) {programs : List (Prog ι ρ α)} {s : σ} {t t' : τ}
    {outs : List (Except ε α)} (hR : R s t) (hN : Prog.session N programs t = some (outs, t')) :
    ∃ s', Prog.session M programs s = some (outs, s') ∧ R s' t' := by
  induction programs generalizing s t outs with
  | nil =>
      cases hN
      exact ⟨s, rfl, hR⟩
  | cons p rest ih =>
      have hstep := h.run p hR
      unfold Prog.session at hN ⊢
      cases hp : p.run N t with
      | done a t₁ =>
          rw [hp] at hstep hN
          obtain ⟨⟨outs₁, t₂⟩, hrest, heq⟩ := Option.map_eq_some_iff.mp hN
          cases heq
          obtain ⟨s₁, hs₁, hR₁⟩ := hstep
          obtain ⟨s', hs', hR'⟩ := ih hR₁ hrest
          rw [hs₁]
          exact ⟨s', by simp [hs'], hR'⟩
      | thrown e t₁ =>
          rw [hp] at hstep hN
          obtain ⟨⟨outs₁, t₂⟩, hrest, heq⟩ := Option.map_eq_some_iff.mp hN
          cases heq
          obtain ⟨s₁, hs₁, hR₁⟩ := hstep
          obtain ⟨s', hs', hR'⟩ := ih hR₁ hrest
          rw [hs₁]
          exact ⟨s', by simp [hs'], hR'⟩
      | undefined =>
          rw [hp] at hN
          cases hN

end Refines

end Gxh
