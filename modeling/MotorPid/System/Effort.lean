/-
# From control effort to motor on-time

`map_pwm` turns the magnitude of an effort into the magnitude of a command, the motor component
latches the command, and the free-running counter turns it into on-time.  A `Window` is a stretch
of 2048 clocks, at any phase of the counter and under either sign, in which the component holds
the command that the program makes of an effort of magnitude `x`; its `onTime` is the number of
those clocks after which the pin of the commanded direction is high.

The on-time is the magnitude itself (`Window.onTime_eq`).  It depends on the effort alone, never
decreases with it, and takes every value from 1150 to 2047 (`effort_to_on_time`).
-/
import MotorPid.System.Decode
import MotorPid.Motor.Duty

namespace MotorPid.System

open Motor Controller Clocked

/-! ## 1. Windows -/

/-- A run of the motor component with 2048 clocks from `start` on, none of them a reset, in which
it holds the command for an effort of magnitude `x` that clock `written` wrote before them. -/
structure Window (x : ℚ) where
  /-- The sign the command was given: 1 or -1. -/
  sgn : ℤ
  sgn_eq : sgn = 1 ∨ sgn = -1
  regs : Regs
  input : ℕ → In
  written : ℕ
  start : ℕ
  written_lt : written < start
  delivers : Delivers (input written) (sgn * mapPwm x)
  noReset : ∀ t < 2048, (input (start + t)).rstReset = false
  held : ∀ t < 2048,
    (run regs input (start + t)).command = (run regs input (written + 1)).command

variable {x : ℚ}

/-- The pin of the commanded direction after clock `start + t`. -/
def Window.pin (W : Window x) (t : ℕ) : Bool :=
  if W.sgn = 1 then (run W.regs W.input (W.start + t + 1)).m1
  else (run W.regs W.input (W.start + t + 1)).m2

/-- The number of clocks of the window after which that pin is high. -/
def Window.onTime (W : Window x) : ℕ := Nat.count (fun t => W.pin t = true) 2048

/-- Inputs that write the command at the first clock and nothing after it. -/
def writeOnce (x : ℚ) (sgn : ℤ) (t : ℕ) : In :=
  ⟨false, decide (t = 0), BitVec.ofInt 32 (sgn * mapPwm x), 0⟩

/-- After the one write the command stays as it is. -/
theorem command_writeOnce (x : ℚ) (sgn : ℤ) (s : Regs) (t : ℕ) :
    (run s (writeOnce x sgn) (1 + t)).command = (run s (writeOnce x sgn) 1).command := by
  induction t with
  | zero => rfl
  | succ t ih =>
    have hidle : (writeOnce x sgn (1 + t)).avalonSlaveWrite = false :=
      decide_eq_false (by omega)
    rw [← ih, ← Nat.add_assoc, run, trace_succ, command_idle rfl hidle]

/-- A write of the command and nothing after it: a window for every effort and either sign, from
any registers. -/
def Window.ofWrite (x : ℚ) (sgn : ℤ) (h : sgn = 1 ∨ sgn = -1) (s : Regs) : Window x where
  sgn := sgn
  sgn_eq := h
  regs := s
  input := writeOnce x sgn
  written := 0
  start := 1
  written_lt := Nat.one_pos
  delivers := ⟨rfl, rfl, rfl⟩
  noReset := fun _ _ => rfl
  held := fun t _ => command_writeOnce x sgn s t

/-! ## 2. The on-time is the magnitude -/

/-- The latched command throughout a window. -/
theorem Window.command_eq (W : Window x) (hx : 0 ≤ x) {t : ℕ} (ht : t < 2048) :
    (run W.regs W.input (W.start + t)).command = (decide (W.sgn = 1), (mapPwm x).toNat) := by
  obtain ⟨hlow, hhigh⟩ := mapPwm_bounds hx
  simp only [minPwm, maxPwm] at hlow hhigh
  have hsafe : SafeSpeed (W.sgn * mapPwm x) := by
    rcases W.sgn_eq with h | h <;> rw [h, SafeSpeed] <;> omega
  rw [W.held t ht, run, trace_succ, command_delivered W.delivers hsafe, speedCommand]
  rcases W.sgn_eq with h | h <;> rw [h] <;> simp <;> omega

/-- The counter passes a window in order, from whatever phase it enters it with. -/
theorem Window.counter_eq (W : Window x) {t : ℕ} (ht : t < 2048) :
    (run W.regs W.input (W.start + t)).counter.toNat =
      ((run W.regs W.input W.start).counter.toNat + t) % 2048 := by
  rw [run, trace_add]
  exact run_counter fun j hj => W.noReset j (hj.trans ht)

/-- The commanded pin is high when the counter was below the magnitude. -/
theorem Window.pin_iff (W : Window x) (hx : 0 ≤ x) {t : ℕ} (ht : t < 2048) :
    W.pin t = true ↔
      ((run W.regs W.input W.start).counter.toNat + t) % 2048 < (mapPwm x).toNat := by
  have hcommand := W.command_eq hx ht
  have hdir : (run W.regs W.input (W.start + t)).clockwiseOut = decide (W.sgn = 1) :=
    congrArg Prod.fst hcommand
  have hcompare : (run W.regs W.input (W.start + t)).pwmCompare.toNat = (mapPwm x).toNat :=
    congrArg Prod.snd hcommand
  rw [← W.counter_eq ht, ← hcompare, Window.pin, run, trace_succ]
  by_cases hs : W.sgn = 1
  · rw [if_pos hs, step_m1 (W.noReset t ht), hdir]
    simp [hs]
  · rw [if_neg hs, step_m2 (W.noReset t ht), hdir]
    simp [hs]

/-- **The on-time of a window is the magnitude of the command.** -/
theorem Window.onTime_eq (W : Window x) (hx : 0 ≤ x) : W.onTime = (mapPwm x).toNat := by
  have hle : (mapPwm x).toNat ≤ 2048 := by
    have hhigh := (mapPwm_bounds hx).2
    simp only [maxPwm] at hhigh
    omega
  rw [← count_mod_lt hle (run W.regs W.input W.start).counter.toNat, Window.onTime]
  exact count_congr fun t ht => W.pin_iff hx ht

/-! ## 3. The effort and the on-time -/

/-- **Control effort maps monotonically and without gaps onto motor on-time.**  Over efforts of
magnitude 0 and more and over all windows, of either sign and at any phase: more effort never
gives less on-time; equal effort gives equal on-time; the on-time is in 1150..2047, and is 2047
exactly from an effort of 2047 on; every value in between is the on-time of some effort; and
every effort has a window of either sign, from any registers. -/
theorem effort_to_on_time :
    (∀ x y : ℚ, 0 ≤ x → x ≤ y → ∀ (W : Window x) (V : Window y), W.onTime ≤ V.onTime) ∧
    (∀ x : ℚ, 0 ≤ x → ∀ W V : Window x, W.onTime = V.onTime) ∧
    (∀ x : ℚ, 0 ≤ x → ∀ W : Window x,
      1150 ≤ W.onTime ∧ W.onTime ≤ 2047 ∧ (W.onTime = 2047 ↔ 2047 ≤ x)) ∧
    (∀ c : ℕ, 1150 ≤ c → c ≤ 2047 → ∃ x : ℚ, 0 ≤ x ∧ ∀ W : Window x, W.onTime = c) ∧
    (∀ (x : ℚ) (sgn : ℤ), sgn = 1 ∨ sgn = -1 → ∀ s : Regs,
      ∃ W : Window x, W.sgn = sgn ∧ W.regs = s) := by
  refine ⟨?_, ?_, ?_, ?_, ?_⟩
  · intro x y hx hxy W V
    rw [W.onTime_eq hx, V.onTime_eq (hx.trans hxy)]
    exact Int.toNat_le_toNat (mapPwm_mono hx hxy)
  · intro x hx W V
    rw [W.onTime_eq hx, V.onTime_eq hx]
  · intro x hx W
    have hmax := mapPwm_eq_max_iff hx
    obtain ⟨hlow, hhigh⟩ := mapPwm_bounds hx
    simp only [minPwm, maxPwm] at hlow hhigh hmax
    rw [W.onTime_eq hx, ← hmax]
    omega
  · intro c hlow hhigh
    have hmin : minPwm ≤ c := Int.ofNat_le.mpr hlow
    have hmax : (c : ℤ) ≤ maxPwm := Int.ofNat_le.mpr hhigh
    obtain ⟨x, hx, hval⟩ := mapPwm_surjective hmin hmax
    refine ⟨x, hx, ?_⟩
    intro W
    rw [W.onTime_eq hx, hval, Int.toNat_natCast]
  · intro x sgn h s
    exact ⟨Window.ofWrite x sgn h s, rfl, rfl⟩

end MotorPid.System
