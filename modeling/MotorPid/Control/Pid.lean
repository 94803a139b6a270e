/-
# Discrete PID controllers

Over any field, and for any error sequence `e`:

* the TEXTBOOK effort at sample `n` (`effort`) is stated on the whole sequence: the proportional
  term, the backward difference and the rectangle sum;
* the INCREMENTAL controller (`Acc`, `tick`) keeps only the last error and the running integral.

`run_tick` is the closed form of the accumulators after any number of samples, and
`effort_run` the consequence that matters: the incremental effort IS the textbook effort on
every run.  What a program does with the effort (clamps it, overrides it, drops it) cannot show
in the accumulators, since `tick` does not read it.
-/
import MotorPid.Clocked.Trace
import Mathlib.Algebra.BigOperators.Group.Finset.Basic
import Mathlib.Algebra.BigOperators.Ring.Finset
import Mathlib.Algebra.Field.Basic
import Mathlib.Tactic.Ring

open Finset Clocked

namespace Pid

variable {K : Type*} [Field K]

/-! ## 1. The textbook law -/

/-- The error of the sample before `n`; 0 before the first sample. -/
def prev (e : ℕ → K) : ℕ → K
  | 0 => 0
  | n + 1 => e n

/-- The textbook effort at sample `n`, with gains `kp`, `kd`, `ki` and sampling period `dt`. -/
def effort (kp kd ki dt : K) (e : ℕ → K) (n : ℕ) : K :=
  kp * e n + kd * ((e n - prev e n) / dt) + ki * (dt * ∑ k ∈ range (n + 1), e k)

/-! ## 2. The incremental controller -/

/-- What the incremental controller remembers: the last error and the integral so far. -/
@[ext] structure Acc (K : Type*) where
  last : K
  integral : K

/-- One sample with error `x`. -/
def tick (dt : K) (a : Acc K) (x : K) : Acc K := ⟨x, a.integral + x * dt⟩

/-- The effort of a sample with error `x`, from the accumulators just before it. -/
def Acc.effort (kp kd ki dt : K) (a : Acc K) (x : K) : K :=
  kp * x + kd * ((x - a.last) / dt) + ki * (a.integral + x * dt)

/-- **The accumulators in closed form.** -/
theorem run_tick (dt : K) (e : ℕ → K) : ∀ n : ℕ,
    trace (tick dt) ⟨0, 0⟩ e n = ⟨prev e n, dt * ∑ k ∈ range n, e k⟩
  | 0 => by simp [prev]
  | n + 1 => by
    rw [trace_succ, run_tick dt e n, sum_range_succ, mul_add, mul_comm dt (e n)]
    rfl

/-- **The incremental controller computes the textbook effort.** -/
theorem effort_run (kp kd ki dt : K) (e : ℕ → K) (n : ℕ) :
    (trace (tick dt) ⟨0, 0⟩ e n).effort kp kd ki dt (e n) = effort kp kd ki dt e n := by
  rw [run_tick, Acc.effort, effort, sum_range_succ, mul_add dt, mul_comm dt (e n)]

/-! ## 3. An error that grows evenly -/

/-- While the error grows by `d` a sample, the derivative term stands still and a controller
without integral action adds `kp * d` to its effort at each sample. -/
theorem effort_ramp {kp kd dt d : K} {e : ℕ → K} {m : ℕ} (h : ∀ k, m ≤ k → e (k + 1) = e k + d)
    (j : ℕ) : effort kp kd 0 dt e (m + 1 + j) = effort kp kd 0 dt e (m + 1) + kp * (j * d) := by
  induction j with
  | zero => simp
  | succ j ih =>
    have hprev : prev e (m + 1 + j) = e (m + j) := by
      rw [Nat.add_right_comm]
      rfl
    have hnext : prev e (m + 1 + (j + 1)) = e (m + 1 + j) := rfl
    have hlast : e (m + 1 + j) = e (m + j) + d := by
      rw [Nat.add_right_comm, h _ (Nat.le_add_right m j)]
    have hthis : e (m + 1 + (j + 1)) = e (m + 1 + j) + d := h (m + 1 + j) (by omega)
    have hstep : effort kp kd 0 dt e (m + 1 + (j + 1))
        = effort kp kd 0 dt e (m + 1 + j) + kp * d := by
      rw [effort, effort, hprev, hnext, hthis, hlast]
      ring
    rw [hstep, ih]
    push_cast
    ring

/-! ## 4. Opposite errors -/

theorem prev_neg (e : ℕ → K) (n : ℕ) : prev (fun k => -e k) n = -prev e n := by
  cases n with
  | zero => exact neg_zero.symm
  | succ n => rfl

/-- Opposite errors give opposite efforts. -/
theorem effort_neg (kp kd ki dt : K) (e : ℕ → K) (n : ℕ) :
    effort kp kd ki dt (fun k => -e k) n = -effort kp kd ki dt e n := by
  simp only [effort, prev_neg, sum_neg_distrib]
  ring

end Pid
