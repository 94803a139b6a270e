/-
# The ideal sign-magnitude PWM generator

A generator for a motor with two drive lines counts clocks since it was last stopped and holds
the signed speed last commanded.  With period `M`, and `mag v` the on-time a speed `v` asks for,
it drives the forward line while `ticks % M < mag v` when `v` is not negative, and the backward
line when it is.  This is what a component with such an interface is FOR; nothing here speaks
of registers, widths or latencies.

`lastSome` is the "last command so far" of a command stream, and `run_tick` says that the
generator's state after `k` clocks is just `k` and that last command.
-/
import MotorPid.Clocked.Trace
import Mathlib.Algebra.Order.Ring.Int

namespace Pwm

open Clocked

variable {α β : Type*}

/-! ## 1. The last command of a stream -/

/-- The last value that the first `m` entries of a stream of optional values carry. -/
def lastSome (c : ℕ → Option α) : ℕ → Option α
  | 0 => none
  | m + 1 => (c m).or (lastSome c m)

theorem lastSome_map (f : α → β) (c : ℕ → Option α) : ∀ m : ℕ,
    lastSome (fun j => (c j).map f) m = (lastSome c m).map f
  | 0 => rfl
  | m + 1 => by
    simp only [lastSome, lastSome_map f c m]
    cases c m <;> rfl

/-! ## 2. The generator -/

/-- Clocks since the generator was last stopped, and the signed speed in force. -/
structure Gen where
  ticks : ℕ
  speed : ℤ
  deriving DecidableEq

/-- The generator just stopped. -/
def Gen.stopped : Gen := ⟨0, 0⟩

/-- One clock, with the speed commanded on it if there is one. -/
def Gen.tick (g : Gen) (cmd : Option ℤ) : Gen := ⟨g.ticks + 1, cmd.getD g.speed⟩

/-- The forward line is driven. -/
def Gen.Forward (M : ℕ) (mag : ℤ → ℕ) (g : Gen) : Prop :=
  0 ≤ g.speed ∧ g.ticks % M < mag g.speed

/-- The backward line is driven. -/
def Gen.Backward (M : ℕ) (mag : ℤ → ℕ) (g : Gen) : Prop :=
  g.speed < 0 ∧ g.ticks % M < mag g.speed

/-- The two lines are never driven together. -/
theorem Gen.not_forward_and_backward {M : ℕ} {mag : ℤ → ℕ} {g : Gen} :
    ¬ (g.Forward M mag ∧ g.Backward M mag) := fun h => absurd h.1.1 (not_le.mpr h.2.1)

/-- **The state after `k` clocks.**  It depends on the number of clocks and on the last command
alone. -/
theorem run_tick (c : ℕ → Option ℤ) : ∀ k : ℕ,
    trace Gen.tick Gen.stopped c k = ⟨k, (lastSome c k).getD 0⟩
  | 0 => rfl
  | k + 1 => by
    rw [trace_succ, run_tick c k, Gen.tick, lastSome]
    cases c k <;> rfl

end Pwm
