/-
# Synchronous machines and their runs

A synchronous machine is a step function `step : σ → ι → σ`: the registers `σ` just before a
clock edge and the inputs `ι` sampled at that edge give the registers just after it.  A run is
an input stream `x : ℕ → ι` from an initial content of the registers, and `trace step s x t`
is the state just before clock `t`.

Three rules carry the results about runs in the development, so that few proofs repeat the
induction on the clock:

* `trace_invariant`: what one clock preserves, a whole stretch of clocks preserves;
* `trace_relate`: what one clock of TWO machines preserves between them, two whole runs
  preserve.  Refinement of an abstract machine and two-run (history) statements are both
  instances of it;
* `Reachable.invariant`: the same, for every state some run reaches.
-/
import Mathlib.Order.Basic
import Mathlib.Data.Nat.Init

namespace Clocked

variable {σ τ ι κ : Type*}

/-! ## 1. The run of a machine -/

/-- The state just before clock `t` of the run on the input stream `x`, from the registers
`s`. -/
def trace (step : σ → ι → σ) (s : σ) (x : ℕ → ι) : ℕ → σ
  | 0 => s
  | t + 1 => step (trace step s x t) (x t)

@[simp] theorem trace_zero (step : σ → ι → σ) (s : σ) (x : ℕ → ι) : trace step s x 0 = s := rfl

theorem trace_succ (step : σ → ι → σ) (s : σ) (x : ℕ → ι) (t : ℕ) :
    trace step s x (t + 1) = step (trace step s x t) (x t) := rfl

/-- A run may be cut at any clock: the rest of it is the run of the remaining inputs from the
state reached. -/
theorem trace_add (step : σ → ι → σ) (s : σ) (x : ℕ → ι) (m : ℕ) : ∀ n : ℕ,
    trace step s x (m + n) = trace step (trace step s x m) (fun t => x (m + t)) n
  | 0 => rfl
  | n + 1 => by
    rw [← Nat.add_assoc, trace_succ, trace_succ, trace_add step s x m n]

/-! ## 2. The invariant rule -/

/-- **The invariant rule.**  A property of the state that holds before clock `a`, and that
every clock from `a` up to `b` keeps, holds before every clock from `a` to `b`. -/
theorem trace_invariant {step : σ → ι → σ} {s : σ} {x : ℕ → ι} {P : σ → Prop} {a b : ℕ}
    (h0 : P (trace step s x a))
    (hstep : ∀ t, a ≤ t → t < b → ∀ r, P r → P (step r (x t))) :
    ∀ t, a ≤ t → t ≤ b → P (trace step s x t) := by
  intro t hat
  induction t, hat using Nat.le_induction with
  | base => exact fun _ => h0
  | succ t hat ih => exact fun htb => hstep t hat htb _ (ih (Nat.le_of_succ_le htb))

/-! ## 3. The two-run rule -/

/-- **The two-run rule.**  A relation between the states of two machines that holds before the
first clock, and that every clock keeps, holds before every clock of the two runs. -/
theorem trace_relate {step : σ → ι → σ} {step' : τ → κ → τ} {s : σ} {s' : τ}
    {x : ℕ → ι} {y : ℕ → κ} {R : σ → τ → Prop} {b : ℕ} (h0 : R s s')
    (hstep : ∀ t < b, ∀ r r', R r r' → R (step r (x t)) (step' r' (y t))) :
    ∀ t ≤ b, R (trace step s x t) (trace step' s' y t) := by
  intro t
  induction t with
  | zero => exact fun _ => h0
  | succ t ih => exact fun htb => hstep t htb _ _ (ih (Nat.le_of_succ_le htb))

/-! ## 4. Reachable states -/

/-- `Reachable step s₀ s`: some run from `s₀` is in the state `s` before some clock. -/
def Reachable (step : σ → ι → σ) (s₀ s : σ) : Prop :=
  ∃ (x : ℕ → ι) (t : ℕ), trace step s₀ x t = s

theorem Reachable.trace {step : σ → ι → σ} {s₀ : σ} (x : ℕ → ι) (t : ℕ) :
    Reachable step s₀ (Clocked.trace step s₀ x t) := ⟨x, t, rfl⟩

/-- What holds of the initial state and is kept by every clock holds of every reachable
state. -/
theorem Reachable.invariant {step : σ → ι → σ} {s₀ s : σ} {P : σ → Prop}
    (hs : Reachable step s₀ s) (h0 : P s₀) (hstep : ∀ r i, P r → P (step r i)) : P s := by
  obtain ⟨x, t, rfl⟩ := hs
  exact trace_invariant (b := t) h0 (fun j _ _ r hr => hstep r (x j) hr) t (Nat.zero_le t)
    (Nat.le_refl t)

end Clocked
