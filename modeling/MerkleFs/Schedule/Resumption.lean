import Mathlib.Logic.Function.Basic

/-!
# Programs that share a state

A `Resumption` is a program whose actions on a shared state are atomic: between two of them other
programs may run.  `outcome` is what it returns when none does.
-/

universe u v w

/-- A program with a state in `σ`, errors in `ε` and results in `ρ`. -/
inductive Resumption (σ : Type v) (ε : Type w) (ρ : Type u) where
  /-- It is finished. -/
  | ret (r : Except ε ρ)
  /-- It changes the state by `f` and goes on as it depends on the state before. -/
  | act (f : σ → σ) (next : σ → Resumption σ ε ρ)

namespace Resumption

variable {σ : Type v} {ε : Type w} {ρ τ : Type u}

/-- What it returns when it is not interrupted. -/
def outcome : Resumption σ ε ρ → σ → Except ε ρ
  | ret r, _ => r
  | act f next, s => (next s).outcome (f s)

/-- The state when it has returned. -/
def final : Resumption σ ε ρ → σ → σ
  | ret _, s => s
  | act f next, s => (next s).final (f s)

/-- One program after the other. -/
def bind : Resumption σ ε ρ → (ρ → Resumption σ ε τ) → Resumption σ ε τ
  | ret (.ok r), k => k r
  | ret (.error e), _ => ret (.error e)
  | act f next, k => act f fun s => (next s).bind k

@[simp] theorem outcome_ret (r : Except ε ρ) (s : σ) : (ret r : Resumption σ ε ρ).outcome s = r :=
  rfl

@[simp] theorem outcome_act (f : σ → σ) (next : σ → Resumption σ ε ρ) (s : σ) :
    (act f next).outcome s = (next s).outcome (f s) := rfl

theorem outcome_bind (p : Resumption σ ε ρ) (k : ρ → Resumption σ ε τ) (s : σ) :
    (p.bind k).outcome s = p.outcome s >>= fun r => (k r).outcome (p.final s) := by
  induction p generalizing s with
  | ret r => cases r <;> rfl
  | act f next ih => exact ih s (f s)

theorem outcome_bind_of_forall {p : Resumption σ ε ρ} {k : ρ → Resumption σ ε τ}
    {g : ρ → Except ε τ} (hk : ∀ r s, (k r).outcome s = g r) (s : σ) :
    (p.bind k).outcome s = p.outcome s >>= g := by
  rw [outcome_bind]
  exact congrArg _ (funext fun r => hk r _)

end Resumption
