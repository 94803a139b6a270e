/-
# When the control loop ends

The loop is meant to run for `total_time` seconds, a cycle every `T_S` seconds, so for
`⌈total_time / T_S⌉` cycles.  It counts that time in an `int` number of milliseconds, and
`current_time_ms += delay_ms` drops the fraction of the period in every cycle.  The clock
therefore lags behind the time slept, and the readings have no part in it.

`ends_on_time_iff`: the loop ends after the cycles due, with one nonzero word per cycle and a
final 0, if and only if the clock without the fractions gets to the total time in that many
cycles, within an `int`.  A period of a whole number of milliseconds loses nothing
(`ends_on_time_of_whole_period`); a period below one millisecond never advances the clock, and
the loop never ends (`never_ends`).
-/
import MotorPid.Controller.Command
import Mathlib.Algebra.Order.Floor.Semiring

namespace MotorPid.Controller

variable (P : Params) (iord : ℕ → ℤ)

/-- The number of control cycles in the requested time. -/
def cyclesDue : ℕ := ⌈P.totalTime / P.tS⌉₊

/-- `main` stays in the loop for the cycles due, then returns, and what it has written by then
is one nonzero command per cycle and a single final 0. -/
def EndsOnTime : Prop :=
  (∀ n < cyclesDue P, ∃ s t log, mainRun P iord n = .looping s t log) ∧
    (∃ log, mainRun P iord (cyclesDue P) = .returned log) ∧
    ∃ commands : List ℤ, (mainRun P iord (cyclesDue P)).words = commands ++ [0] ∧
      commands.length = cyclesDue P ∧ ∀ w ∈ commands, w ≠ 0

/-! ## 1. The clock against the time slept -/

variable {P iord}

theorem lt_cyclesDue_iff {n : ℕ} : n < cyclesDue P ↔ n * P.delayMs < P.totalTimeMs := by
  rw [cyclesDue, Nat.lt_ceil, lt_div_iff₀ P.tS_pos, Params.delayMs, Params.totalTimeMs,
    ← mul_assoc]
  exact (mul_lt_mul_iff_left₀ (by norm_num)).symm

/-- The clock never runs ahead of the time slept. -/
theorem clock_le (n : ℕ) : ((n * periodMs P : ℤ) : ℚ) ≤ n * P.delayMs := by
  push_cast
  exact mul_le_mul_of_nonneg_left (Int.floor_le _) (Nat.cast_nonneg n)

theorem cyclesDue_pos (h : 0 < P.totalTime) : 0 < cyclesDue P :=
  Nat.ceil_pos.mpr (div_pos h P.tS_pos)

/-- While the clock fits an `int`, every cycle due takes place. -/
theorem takesPlace_of_lt {k n : ℕ} (hk : k < cyclesDue P) (hkn : k ≤ n)
    (hmax : n * periodMs P ≤ intMax) : TakesPlace P k := by
  have hle : (k : ℤ) * periodMs P ≤ n * periodMs P :=
    mul_le_mul_of_nonneg_right (Int.ofNat_le.mpr hkn) (periodMs_nonneg P)
  exact .inr ⟨hle.trans hmax, lt_of_le_of_lt (clock_le k) (lt_cyclesDue_iff.mp hk)⟩

/-! ## 2. Ending on time -/

theorem endsOnTime_of_clock (h : 0 < P.totalTime)
    (htotal : P.totalTimeMs ≤ ((cyclesDue P * periodMs P : ℤ) : ℚ))
    (hmax : cyclesDue P * periodMs P ≤ intMax) : EndsOnTime P iord := by
  obtain ⟨n, hn⟩ := Nat.exists_eq_succ_of_ne_zero (cyclesDue_pos h).ne'
  have hplace : ∀ k < cyclesDue P, TakesPlace P k := fun k hk =>
    takesPlace_of_lt hk hk.le hmax
  -- the last cycle leaves by the break
  have hreturn : mainRun P iord (cyclesDue P)
      = .returned ((List.range (cyclesDue P)).map (cycleAt P iord)) := by
    have hlast : TakesPlace P n := hplace n (hn ▸ Nat.lt_succ_self n)
    rw [hn] at htotal hmax ⊢
    rw [mainRun_succ, run_looping P iord hlast, pass_loopingAt, if_pos hmax, if_pos htotal]
  refine ⟨fun k hk => ⟨_, _, _, run_looping P iord (hplace k hk)⟩, ⟨_, hreturn⟩,
    ((List.range (cyclesDue P)).map (cycleAt P iord)).map Cycle.pwm, ?_, ?_, ?_⟩
  · rw [hreturn]
    rfl
  · rw [List.length_map, List.length_map, List.length_range]
  · intro w hw
    simp only [List.mem_map] at hw
    obtain ⟨c, ⟨k, -, rfl⟩, rfl⟩ := hw
    rw [cycleAt_pwm]
    exact command_ne_zero _ _

/-- **When the loop ends on time.**  For every positive total time and time step and every
sequence of readings, the loop ends after exactly the cycles due, having written one nonzero
command per cycle and a final 0, if and only if the whole milliseconds of that many periods
reach the total time and fit in an `int`. -/
theorem ends_on_time_iff (P : Params) (h : 0 < P.totalTime) (iord : ℕ → ℤ) :
    EndsOnTime P iord ↔
      P.totalTimeMs ≤ ((cyclesDue P * periodMs P : ℤ) : ℚ) ∧
        cyclesDue P * periodMs P ≤ intMax := by
  constructor
  · rintro ⟨hloop, ⟨log, hreturn⟩, -⟩
    obtain ⟨n, hn⟩ := Nat.exists_eq_succ_of_ne_zero (cyclesDue_pos h).ne'
    obtain ⟨s, t, log', hn'⟩ := hloop n (hn ▸ Nat.lt_succ_self n)
    have hlast : TakesPlace P n := takesPlace_of_looping P iord hn'
    rw [hn, mainRun_succ, run_looping P iord hlast, pass_loopingAt] at hreturn
    rw [hn]
    -- of the three ways out of the last cycle only the break returns
    split at hreturn
    · rename_i hmax
      split at hreturn
      · rename_i htotal
        exact ⟨htotal, hmax⟩
      · cases hreturn
    · cases hreturn
  · rintro ⟨htotal, hmax⟩
    exact endsOnTime_of_clock h htotal hmax

/-- The parameters in the file: 600 cycles. -/
theorem ends_on_time_inFile : EndsOnTime Params.inFile (fun _ => 0) := by
  refine (ends_on_time_iff Params.inFile (by decide +kernel) _).mpr ⟨?_, ?_⟩ <;> decide +kernel

/-- A period of a whole number of milliseconds loses nothing: only the range of the clock is
left as a condition. -/
theorem ends_on_time_of_whole_period (h : 0 < P.totalTime) (hwhole : (periodMs P : ℚ) = P.delayMs)
    (hmax : cyclesDue P * periodMs P ≤ intMax) : EndsOnTime P iord := by
  refine endsOnTime_of_clock h ?_ hmax
  push_cast
  rw [hwhole]
  exact not_lt.mp fun hlt => lt_irrefl _ (lt_cyclesDue_iff.mpr hlt)

/-- A period below one millisecond never advances the clock, so every iteration takes place. -/
theorem run_looping_of_short_period (h : 0 < P.totalTime) (hshort : P.delayMs < 1) (n : ℕ) :
    mainRun P iord n = loopingAt P iord n := by
  have hperiod : periodMs P = 0 :=
    Int.floor_eq_zero_iff.mpr ⟨(delayMs_pos P).le, hshort⟩
  have htotal : 0 < P.totalTimeMs := mul_pos h (by norm_num)
  refine run_looping P iord (.inr ?_)
  rw [hperiod, mul_zero]
  exact ⟨by decide, by simpa using htotal⟩

/-- The parameters in the file, with a time step of half a millisecond. -/
def Params.halfMillisecond : Params :=
  { Params.inFile with tS := 1 / 2000, tS_pos := by norm_num }

/-- **A loop that never ends.**  With a minute to run and a time step of half a millisecond,
`main` is in the loop after any number of iterations, so not out of it after the 120000 cycles
due. -/
theorem never_ends :
    ¬ EndsOnTime Params.halfMillisecond (fun _ => 0) ∧
      ∀ iord n, mainRun Params.halfMillisecond iord n
        = loopingAt Params.halfMillisecond iord n := by
  have hloop : ∀ iord n,
      mainRun Params.halfMillisecond iord n = loopingAt Params.halfMillisecond iord n :=
    fun iord n => run_looping_of_short_period (by decide +kernel) (by decide +kernel) n
  refine ⟨fun hends => ?_, hloop⟩
  obtain ⟨-, ⟨log, hreturn⟩, -⟩ := hends
  rw [hloop] at hreturn
  cases hreturn

end MotorPid.Controller
