/-
# The loop computes the textbook PID

The program never forms a sum or a difference over its readings: it moves `target` on, and keeps
one error and one running integral.  This module states what that amounts to in the numbering of
the cycles, from 1, with an error of 0 before the first (`cycleError`), and proves it of whole
runs (`pid_on_every_run`): at any cycle that begins, the variables are the textbook quantities of
the readings, the effort is the textbook sum, and the word written is what `steered` makes of it.

`steered` is the rule of the override stated on the signs, independently of its branches.
Since the variables are a function of the readings, nothing an earlier cycle did with its effort
is left in them.
-/
import MotorPid.Controller.Command
import Mathlib.Algebra.BigOperators.Intervals

open Finset

namespace MotorPid.Controller

variable (P : Params) (p : ℕ → ℤ)

/-! ## 1. Cycles numbered from 1 -/

/-- The error of cycle `k` when the cycles read `p 1`, `p 2` and so on; 0 before the first. -/
def cycleError : ℕ → ℚ
  | 0 => 0
  | k + 1 => (k + 1 : ℕ) * (P.rpms * 350 * P.tS / 60) - p (k + 1)

/-- The readings as `IORD` returns them, the first of them in cycle 1. -/
def fromFirst (k : ℕ) : ℤ := p (k + 1)

theorem errorAt_fromFirst (k : ℕ) : errorAt P (fromFirst p) k = cycleError P p (k + 1) := by
  rw [errorAt, cycleError, Nat.cast_succ]
  rfl

theorem prev_errorAt : ∀ n : ℕ, Pid.prev (errorAt P (fromFirst p)) n = cycleError P p n
  | 0 => rfl
  | n + 1 => errorAt_fromFirst P p n

theorem sum_errorAt : ∀ n : ℕ,
    ∑ k ∈ range n, errorAt P (fromFirst p) k = ∑ k ∈ Icc 1 n, cycleError P p k
  | 0 => rfl
  | n + 1 => by
    rw [sum_range_succ, sum_errorAt n, errorAt_fromFirst,
      sum_Icc_succ_top (Nat.le_add_left 1 n)]

/-- The textbook effort in this numbering. -/
theorem textbookEffort_eq (n : ℕ) :
    textbookEffort P (fromFirst p) n
      = P.kp * cycleError P p (n + 1)
        + P.kd * (cycleError P p (n + 1) - cycleError P p n) / P.tS
        + P.ki * P.tS * ∑ k ∈ Icc 1 (n + 1), cycleError P p k := by
  rw [textbookEffort, Pid.effort, sum_errorAt, prev_errorAt, errorAt_fromFirst, mul_div_assoc,
    mul_assoc P.ki]

/-! ## 2. The rule of the override -/

/-- The sign and the magnitude that an effort is turned into under a request: an effort that
opposes the request gives way to it with magnitude 0, and any other keeps its own, an effort of 0
counting as negative. -/
def steered (rpms u : ℚ) : ℤ × ℚ :=
  if u * rpms < 0 then (if 0 < rpms then 1 else -1, 0) else (if 0 < u then 1 else -1, |u|)

theorem override_eq_steered (rpms u : ℚ) :
    ((override rpms u).1, |(override rpms u).2|) = steered rpms u := by
  have hopp := mul_neg_iff (a := u) (b := rpms)
  rw [override, steered]
  by_cases hneg : u < 0 ∧ rpms > 0
  · rw [if_pos hneg, if_pos (hopp.mpr (Or.inr hneg)), if_pos hneg.2, abs_zero]
  · rw [if_neg hneg]
    by_cases hpos : u > 0 ∧ rpms < 0
    · rw [if_pos hpos, if_pos (hopp.mpr (Or.inl hpos)), if_neg hpos.2.not_gt, abs_zero]
    · rw [if_neg hpos, if_neg fun h => (hopp.mp h).elim hpos hneg]

theorem command_eq_steered (rpms u : ℚ) :
    command rpms u = (steered rpms u).1 * mapPwm (steered rpms u).2 := by
  rw [← override_eq_steered, command]

/-! ## 3. Whole runs -/

/-- **The controller is the textbook PID on every run.**  When cycle `n + 1` begins, `target`,
`eprev` and `eIntegral` are the textbook quantities of the readings of the first `n` cycles,
whatever commands those cycles wrote; the effort of the cycle is the textbook one; and the cycle
writes `sgn * map_pwm(m)` for the sign and the magnitude that the override makes of it. -/
theorem pid_on_every_run (n : ℕ) {s : Vars} {t : ℤ} {log : List Cycle}
    (h : mainRun P (fromFirst p) n = .looping s t log) :
    s.target = n * (P.rpms * 350 * P.tS / 60) ∧ s.eprev = cycleError P p n ∧
      s.eIntegral = P.tS * ∑ k ∈ Icc 1 n, cycleError P p k ∧
      effort P s (p (n + 1))
        = P.kp * cycleError P p (n + 1)
          + P.kd * (cycleError P p (n + 1) - cycleError P p n) / P.tS
          + P.ki * P.tS * ∑ k ∈ Icc 1 (n + 1), cycleError P p k ∧
      (mainRun P (fromFirst p) (n + 1)).commands
        = (mainRun P (fromFirst p) n).commands
          ++ [(steered P.rpms (effort P s (p (n + 1)))).1
            * mapPwm (steered P.rpms (effort P s (p (n + 1)))).2] := by
  have hplace := takesPlace_of_looping P (fromFirst p) h
  have hvars : varsAt P (fromFirst p) n = s := by
    rw [run_looping P _ hplace] at h
    exact (Progress.looping.inj h).1
  have hacc : s.acc = ⟨cycleError P p n, P.tS * ∑ k ∈ Icc 1 n, cycleError P p k⟩ := by
    rw [← hvars, acc_varsAt, Pid.run_tick, prev_errorAt, sum_errorAt, deltaT_eq]
  have heffort : effort P s (p (n + 1)) = textbookEffort P (fromFirst p) n := by
    rw [← effort_varsAt, hvars]
    rfl
  refine ⟨?_, congrArg Pid.Acc.last hacc, congrArg Pid.Acc.integral hacc, ?_, ?_⟩
  · rw [← hvars, varsAt_target, targetIncr_eq]
  · rw [heffort, textbookEffort_eq]
  · rw [Progress.commands, Progress.commands, mainRun_succ, h, log_pass_looping, List.map_append,
      ← command_eq_steered]
    rfl

/-- The parameters in the file on a shaft that does not move: the effort of the second cycle. -/
theorem pid_second_cycle :
    effort Params.inFile (varsAt Params.inFile (fromFirst fun _ => 0) 1) 0 = -6055 / 4 := by
  have hplace : TakesPlace Params.inFile 1 := by decide +kernel
  have hrun := pid_on_every_run Params.inFile (fun _ => 0) 1 (run_looping _ _ hplace)
  exact hrun.2.2.2.1.trans (by decide +kernel)

end MotorPid.Controller
