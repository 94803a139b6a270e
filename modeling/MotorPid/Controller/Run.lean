/-
# Runs of the controller program

Nothing an iteration writes is read back by a later one: the commands go to the motor, and only
`eprev`, `eIntegral`, `target` and the clock survive.  So a run splits into two closed forms.

* The variables (`varsAt`) advance whatever the commands were.  They are the accumulators of the
  incremental PID controller on the errors of the readings, so the effort of iteration `k` is the
  textbook PID effort of the readings up to `k` (`effort_varsAt`).
* Whether iteration `k` takes place at all (`TakesPlace`) depends on the parameters alone: the
  `int` clock counts whole milliseconds, and after `k` iterations it shows `k` times the period
  rounded down.

`run_looping`, `run_left` and `run_log` put the two together.
-/
import MotorPid.Controller.Model
import MotorPid.Control.Pid
import Mathlib.Algebra.Order.Floor.Ring
import Mathlib.Tactic.Ring
import Mathlib.Tactic.Linarith

open Clocked

namespace MotorPid.Controller

variable (P : Params) (iord : ℕ → ℤ)

/-! ## 1. The derived parameters -/

theorem delayMs_pos : 0 < P.delayMs := mul_pos P.tS_pos (by norm_num)

theorem deltaT_eq : P.deltaT = P.tS := by
  simp only [Params.deltaT, Params.delayMs]
  ring

theorem targetIncr_eq : P.targetIncr = P.rpms * 350 * P.tS / 60 := by
  simp only [Params.targetIncr, Params.delayMs]
  ring

/-! ## 2. The variables are PID accumulators -/

/-- The variables after `n` iterations. -/
def varsAt (n : ℕ) : Vars := trace (nextVars P) .start iord n

/-- The error of the reading `k`: the target has been moved `k + 1` times by then. -/
def errorAt (k : ℕ) : ℚ := (k + 1) * (P.rpms * 350 * P.tS / 60) - iord k

/-- The accumulators among the variables. -/
def Vars.acc (s : Vars) : Pid.Acc ℚ := ⟨s.eprev, s.eIntegral⟩

theorem acc_nextVars (s : Vars) (pos : ℤ) :
    (nextVars P s pos).acc = Pid.tick P.deltaT s.acc (error P s pos) := rfl

theorem effort_eq (s : Vars) (pos : ℤ) :
    effort P s pos = s.acc.effort P.kp P.kd P.ki P.deltaT (error P s pos) := rfl

theorem varsAt_target : ∀ n : ℕ, (varsAt P iord n).target = n * P.targetIncr
  | 0 => by simp [varsAt, Vars.start]
  | n + 1 => by
    have ih := varsAt_target n
    have hstep : (varsAt P iord (n + 1)).target = (varsAt P iord n).target + P.targetIncr := rfl
    rw [hstep, ih]
    push_cast
    ring

theorem error_varsAt (n : ℕ) : error P (varsAt P iord n) (iord n) = errorAt P iord n := by
  rw [error, nextTarget, varsAt_target, errorAt, targetIncr_eq]
  ring

theorem acc_varsAt : ∀ n : ℕ,
    (varsAt P iord n).acc = trace (Pid.tick P.deltaT) ⟨0, 0⟩ (errorAt P iord) n
  | 0 => rfl
  | n + 1 => by
    have hstep := acc_nextVars P (varsAt P iord n) (iord n)
    rw [acc_varsAt n, error_varsAt] at hstep
    exact hstep

/-- The textbook PID effort of the readings at iteration `k`. -/
def textbookEffort (k : ℕ) : ℚ := Pid.effort P.kp P.kd P.ki P.tS (errorAt P iord) k

/-- **The effort of an iteration is the textbook PID effort of the readings so far**, whatever
was done with the efforts before it. -/
theorem effort_varsAt (n : ℕ) :
    effort P (varsAt P iord n) (iord n) = textbookEffort P iord n := by
  rw [effort_eq, error_varsAt, acc_varsAt, Pid.effort_run, deltaT_eq, textbookEffort]

/-- The log line of iteration `k`. -/
def cycleAt (k : ℕ) : Cycle := cycle P (varsAt P iord k) (iord k)

theorem cycleAt_pwm (k : ℕ) :
    (cycleAt P iord k).pwm = command P.rpms (textbookEffort P iord k) := by
  rw [cycleAt, cycle, effort_varsAt]

/-! ## 3. The clock -/

/-- What `current_time_ms` gains in one iteration: the period without its fraction. -/
def periodMs : ℤ := ⌊P.delayMs⌋

theorem periodMs_nonneg : 0 ≤ periodMs P := Int.floor_nonneg.mpr (delayMs_pos P).le

/-- Adding the period to a clock that is not negative truncates the period. -/
theorem floatToInt?_add_delayMs {t : ℤ} (ht : 0 ≤ t) :
    floatToInt? (t + P.delayMs)
      = if t + periodMs P ≤ intMax then some (t + periodMs P) else none := by
  have hpos : (0 : ℚ) ≤ t + P.delayMs :=
    add_nonneg (Int.cast_nonneg ht) (delayMs_pos P).le
  have htrunc : truncInt (t + P.delayMs) = t + periodMs P := by
    rw [truncInt, if_pos hpos, Int.floor_intCast_add, periodMs]
  have hlow : -intMax - 1 ≤ t + periodMs P := by
    have := periodMs_nonneg P
    simp only [intMax]
    omega
  rw [floatToInt?, htrunc]
  simp only [hlow, true_and]

/-- Iteration `k` takes place: it is the first, or after the `k` iterations before it the clock
is still an `int` and still short of the total time. -/
def TakesPlace (k : ℕ) : Prop :=
  k = 0 ∨ (k * periodMs P ≤ intMax ∧ ((k * periodMs P : ℤ) : ℚ) < P.totalTimeMs)

instance : DecidablePred (TakesPlace P) := fun k =>
  inferInstanceAs (Decidable (k = 0 ∨ (_ ∧ _)))

variable {P} in
theorem TakesPlace.of_succ {k : ℕ} (h : TakesPlace P (k + 1)) : TakesPlace P k := by
  rcases h with h | ⟨hmax, htotal⟩
  · exact absurd h (Nat.succ_ne_zero k)
  have hle : (k : ℤ) * periodMs P ≤ ((k + 1 : ℕ) : ℤ) * periodMs P := by
    have := periodMs_nonneg P
    push_cast
    linarith
  exact .inr ⟨hle.trans hmax, lt_of_le_of_lt (Int.cast_le.mpr hle) htotal⟩

variable {P} in
theorem TakesPlace.of_le {j k : ℕ} (h : TakesPlace P k) (hjk : j ≤ k) : TakesPlace P j := by
  induction k, hjk using Nat.le_induction with
  | base => exact h
  | succ k _ ih => exact ih h.of_succ

/-! ## 4. The run -/

/-- Where the program is before an iteration that takes place. -/
def loopingAt (n : ℕ) : Progress :=
  .looping (varsAt P iord n) (n * periodMs P) ((List.range n).map (cycleAt P iord))

/-- The three ways out of iteration `n`: the clock overflows, the time is up, or the loop goes
on. -/
theorem pass_loopingAt (n : ℕ) :
    pass P (loopingAt P iord n) (iord n)
      = if ((n + 1 : ℕ) : ℤ) * periodMs P ≤ intMax then
          if ((((n + 1 : ℕ) : ℤ) * periodMs P : ℤ) : ℚ) ≥ P.totalTimeMs then
            .returned ((List.range (n + 1)).map (cycleAt P iord))
          else loopingAt P iord (n + 1)
        else .undefined ((List.range (n + 1)).map (cycleAt P iord)) := by
  have ht : 0 ≤ (n : ℤ) * periodMs P := mul_nonneg (Int.natCast_nonneg n) (periodMs_nonneg P)
  have hclock : (n : ℤ) * periodMs P + periodMs P = ((n + 1 : ℕ) : ℤ) * periodMs P := by
    push_cast
    ring
  have hlog : (List.range (n + 1)).map (cycleAt P iord)
      = (List.range n).map (cycleAt P iord) ++ [cycle P (varsAt P iord n) (iord n)] := by
    rw [List.range_succ, List.map_append]
    rfl
  have hvars : varsAt P iord (n + 1) = nextVars P (varsAt P iord n) (iord n) := rfl
  rw [loopingAt, pass, floatToInt?_add_delayMs P ht, hclock, loopingAt, hlog, hvars]
  by_cases hmax : ((n + 1 : ℕ) : ℤ) * periodMs P ≤ intMax
  · simp only [if_pos hmax]
  · simp only [if_neg hmax]

theorem mainRun_succ (n : ℕ) :
    mainRun P iord (n + 1) = pass P (mainRun P iord n) (iord n) := rfl

/-- **Inside the loop** the program is where the closed forms say it is. -/
theorem run_looping {n : ℕ} (h : TakesPlace P n) : mainRun P iord n = loopingAt P iord n := by
  induction n with
  | zero => simp [loopingAt, varsAt]
  | succ n ih =>
    obtain ⟨hmax, htotal⟩ := h.resolve_left (Nat.succ_ne_zero n)
    rw [mainRun_succ, ih h.of_succ, pass_loopingAt, if_pos hmax, if_neg (not_le.mpr htotal)]

/-- **Once an iteration does not take place** the program is out of the loop for good. -/
theorem run_left {n : ℕ} (h : ¬ TakesPlace P n) :
    ∀ pos, pass P (mainRun P iord n) pos = mainRun P iord n := by
  induction n with
  | zero => exact absurd (.inl rfl) h
  | succ n ih =>
    intro pos
    rw [mainRun_succ]
    by_cases hn : TakesPlace P n
    · rw [run_looping P iord hn, pass_loopingAt]
      -- iteration `n` ended the loop, by the break or by its clock
      split
      · rename_i hmax
        split
        · rfl
        · rename_i htotal
          exact absurd (.inr ⟨hmax, not_le.mp htotal⟩) h
      · rfl
    · rw [ih hn, ih hn]

/-- An iteration appends its line to the log, whichever way it ends. -/
theorem log_pass_looping (s : Vars) (t : ℤ) (log : List Cycle) (pos : ℤ) :
    (pass P (.looping s t log) pos).log = log ++ [cycle P s pos] := by
  simp only [pass]
  split
  · rfl
  · split <;> rfl

/-- The program is in the loop only before an iteration that takes place. -/
theorem takesPlace_of_looping {n : ℕ} {s : Vars} {t : ℤ} {log : List Cycle}
    (h : mainRun P iord n = .looping s t log) : TakesPlace P n := by
  by_contra hleft
  have hstuck := congrArg Progress.log (run_left P iord hleft 0)
  rw [h, log_pass_looping] at hstuck
  exact List.cons_ne_nil _ _ (List.append_right_eq_self.mp hstuck)

/-- **The log of a run**: one line for each iteration that took place, and these are the first
ones, with none left out. -/
theorem run_log (n : ℕ) : ∃ m, (mainRun P iord n).log = (List.range m).map (cycleAt P iord) ∧
    ∀ k, k < m ↔ k < n ∧ TakesPlace P k := by
  induction n with
  | zero =>
    refine ⟨0, rfl, ?_⟩
    intro k
    exact ⟨fun h => absurd h (Nat.not_lt_zero k), And.left⟩
  | succ n ih =>
    by_cases hn : TakesPlace P n
    · refine ⟨n + 1, ?_, ?_⟩
      · rw [mainRun_succ, run_looping P iord hn, loopingAt, log_pass_looping, List.range_succ,
          List.map_append]
        rfl
      · intro k
        exact ⟨fun hk => ⟨hk, hn.of_le (Nat.le_of_lt_succ hk)⟩, And.left⟩
    · obtain ⟨m, hlog, hm⟩ := ih
      refine ⟨m, ?_, ?_⟩
      · rw [mainRun_succ, run_left P iord hn, hlog]
      · intro k
        rw [hm, Nat.lt_succ_iff_lt_or_eq]
        -- iteration `n` did not take place, so it adds no index
        constructor
        · rintro ⟨hk, hplace⟩
          exact ⟨.inl hk, hplace⟩
        · rintro ⟨hk | rfl, hplace⟩
          · exact ⟨hk, hplace⟩
          · exact absurd hplace hn

/-- The command at index `k` of a run is that of iteration `k`. -/
theorem getElem?_commands {n k : ℕ} {w : ℤ} (h : (mainRun P iord n).commands[k]? = some w) :
    w = command P.rpms (textbookEffort P iord k) := by
  obtain ⟨m, hlog, -⟩ := run_log P iord n
  rw [Progress.commands, hlog, List.map_map, List.getElem?_map] at h
  obtain ⟨j, hj, hw⟩ := Option.map_eq_some_iff.mp h
  obtain ⟨hlt, hk⟩ := List.getElem?_eq_some_iff.mp hj
  rw [List.getElem_range] at hk
  rw [← hw, ← hk, Function.comp_apply, cycleAt_pwm]

/-- The commands of a run are those of the iterations that took place. -/
theorem mem_commands {n : ℕ} {w : ℤ} : w ∈ (mainRun P iord n).commands ↔
    ∃ k < n, TakesPlace P k ∧ w = command P.rpms (textbookEffort P iord k) := by
  obtain ⟨m, hlog, hm⟩ := run_log P iord n
  simp only [Progress.commands, hlog, List.map_map, List.mem_map, List.mem_range, hm,
    Function.comp_apply, cycleAt_pwm, and_assoc]
  constructor
  · rintro ⟨k, hk, hP, rfl⟩
    exact ⟨k, hk, hP, rfl⟩
  · rintro ⟨k, hk, hP, rfl⟩
    exact ⟨k, hk, hP, rfl⟩

end MotorPid.Controller
