/-
# The duty cycle over any 2048 clocks

The counter is free running: a write does not restart it, and nothing but a reset does.  Over a
stretch of 2048 non-reset clocks it therefore meets every value once, wherever the stretch
starts, and the number of clocks after which a pin is high is governed by the compare values
held just before those clocks (`duty_between`): it lies between their minimum and their maximum,
and is the compare value itself when that does not change.
-/
import MotorPid.Motor.Command
import MotorPid.Clocked.Window

namespace MotorPid.Motor

open Clocked

variable {s : Regs} {x : ℕ → In}

/-! ## 1. The counter and the pins over a stretch -/

/-- Over non-reset clocks the counter is its starting phase plus the number of clocks. -/
theorem run_counter {n : ℕ} (hx : ∀ j < n, (x j).rstReset = false) :
    (run s x n).counter.toNat = (s.counter.toNat + n) % 2048 := by
  induction n with
  | zero =>
    have : s.counter.toNat < 2 ^ ctrLen := s.counter.isLt
    exact (Nat.mod_eq_of_lt this).symm
  | succ n ih =>
    have hprev := ih fun j hj => hx j (Nat.lt_succ_of_lt hj)
    rw [run, trace_succ, step_counter (hx n (Nat.lt_succ_self n)), hprev]
    simp only [ctrLen, Nat.reducePow]
    omega

/-- The compare value held just before clock `t`, as a number. -/
def compareAt (s : Regs) (x : ℕ → In) (t : ℕ) : ℕ := (run s x t).pwmCompare.toNat

theorem compareAt_lt (s : Regs) (x : ℕ → In) (t : ℕ) : compareAt s x t < 2048 :=
  (run s x t).pwmCompare.isLt

/-- The number of the first 2048 clocks after which a pin is high. -/
def onTime (s : Regs) (x : ℕ → In) : ℕ :=
  Nat.count (fun t => (run s x (t + 1)).m1 = true ∨ (run s x (t + 1)).m2 = true) 2048

/-- One pin or the other is high after a clock exactly when the counter was below the compare
value just before it. -/
theorem pin_high_iff {t : ℕ} (hx : ∀ j ≤ t, (x j).rstReset = false) :
    ((run s x (t + 1)).m1 = true ∨ (run s x (t + 1)).m2 = true) ↔
      (s.counter.toNat + t) % 2048 < compareAt s x t := by
  have hcount := run_counter (s := s) fun j hj => hx j (Nat.le_of_lt hj)
  have h := hx t (Nat.le_refl t)
  rw [run, trace_succ, step_m1 h, step_m2 h, compareAt, ← hcount]
  cases (run s x t).clockwiseOut <;> simp

theorem onTime_eq (hx : ∀ t < 2048, (x t).rstReset = false) :
    onTime s x = Nat.count (fun t => (s.counter.toNat + t) % 2048 < compareAt s x t) 2048 := by
  refine count_congr ?_
  intro t ht
  exact pin_high_iff fun j hj => hx j (lt_of_le_of_lt hj ht)

/-! ## 2. The direction -/

/-- Only the pin of the latched direction can go high. -/
theorem other_pin_low {r : Regs} {i : In} (h : i.rstReset = false) :
    (r.clockwiseOut = true → (step r i).m2 = false) ∧
      (r.clockwiseOut = false → (step r i).m1 = false) := by
  constructor
  · intro hd
    rw [← Bool.not_eq_true, step_m2 h, hd]
    simp
  · intro hd
    rw [← Bool.not_eq_true, step_m1 h, hd]
    simp

/-! ## 3. The on-time between its bounds -/

theorem clocks_nonempty : (Finset.range 2048).Nonempty :=
  Finset.nonempty_range_iff.mpr (Nat.succ_ne_zero 2047)

/-- **The duty cycle is bounded by the commands in force.**  From any registers, over 2048
clocks without a reset and with any writes, the on-time lies between the least and the greatest
compare value held just before one of those clocks, so that it is the compare value when that
stays the same; and while the latched direction stays the same the other pin is never high. -/
theorem duty_between (hx : ∀ t < 2048, (x t).rstReset = false) :
    (Finset.range 2048).inf' clocks_nonempty (compareAt s x) ≤ onTime s x ∧
      onTime s x ≤ (Finset.range 2048).sup' clocks_nonempty (compareAt s x) ∧
      ((∀ t < 2048, compareAt s x t = compareAt s x 0) → onTime s x = compareAt s x 0) ∧
      ∀ d : Bool, (∀ t < 2048, (run s x t).clockwiseOut = d) →
        ∀ t < 2048, (if d then (run s x (t + 1)).m2 else (run s x (t + 1)).m1) = false := by
  have hin : ∀ t, t < 2048 → t ∈ Finset.range 2048 := fun t ht => Finset.mem_range.mpr ht
  rw [onTime_eq hx]
  refine ⟨?_, ?_, ?_, ?_⟩
  · have hle : (Finset.range 2048).inf' clocks_nonempty (compareAt s x) ≤ 2048 :=
      le_trans (Finset.inf'_le _ (hin 0 (by decide))) (Nat.le_of_lt (compareAt_lt s x 0))
    exact le_count_mod_lt hle (fun t ht => Finset.inf'_le _ (hin t ht)) _
  · have hle : (Finset.range 2048).sup' clocks_nonempty (compareAt s x) ≤ 2048 :=
      Finset.sup'_le _ _ fun t _ => Nat.le_of_lt (compareAt_lt s x t)
    exact count_mod_lt_le hle (fun t ht => Finset.le_sup' _ (hin t ht)) _
  · intro hconst
    have hle : compareAt s x 0 ≤ 2048 := Nat.le_of_lt (compareAt_lt s x 0)
    exact le_antisymm (count_mod_lt_le hle (fun t ht => (hconst t ht).le) _)
      (le_count_mod_lt hle (fun t ht => (hconst t ht).ge) _)
  · intro d hd t ht
    rw [run, trace_succ]
    cases d with
    | true => exact (other_pin_low (hx t ht)).1 (hd t ht)
    | false => exact (other_pin_low (hx t ht)).2 (hd t ht)

/-- A stretch started in mid-period, with a command of 1150 in force and a write of -2047 after
its first clock: the on-time is between 1150 and 2047. -/
theorem duty_between_update :
    1150 ≤ onTime ⟨5, 1150, true, false, false, 0, false⟩
        (fun t => ⟨false, decide (t = 0), BitVec.ofInt 32 (-2047), 0⟩) ∧
      onTime ⟨5, 1150, true, false, false, 0, false⟩
        (fun t => ⟨false, decide (t = 0), BitVec.ofInt 32 (-2047), 0⟩) ≤ 2047 := by
  set s₀ : Regs := ⟨5, 1150, true, false, false, 0, false⟩
  set y : ℕ → In := fun t => ⟨false, decide (t = 0), BitVec.ofInt 32 (-2047), 0⟩
  have h0 : compareAt s₀ y 0 = 1150 := by decide
  have hlater : ∀ t, 1 ≤ t → t ≤ 2048 → (run s₀ y t).pwmCompare = 2047 :=
    trace_invariant (P := fun r : Regs => r.pwmCompare = 2047) (by decide)
      fun t ht _ r hr => by
        have hidle : (y t).avalonSlaveWrite = false := decide_eq_false (by omega)
        rw [(step_command_idle rfl hidle).1, hr]
  have hcmp : ∀ t < 2048, 1150 ≤ compareAt s₀ y t ∧ compareAt s₀ y t ≤ 2047 := by
    intro t ht
    rcases Nat.eq_zero_or_pos t with rfl | hpos
    · omega
    · rw [compareAt, hlater t hpos (Nat.le_of_lt ht)]
      decide
  obtain ⟨hlo, hhi, -⟩ := duty_between (s := s₀) (x := y) fun _ _ => rfl
  constructor
  · exact le_trans (Finset.le_inf' _ _ fun t ht => (hcmp t (Finset.mem_range.mp ht)).1) hlo
  · exact le_trans hhi (Finset.sup'_le _ _ fun t ht => (hcmp t (Finset.mem_range.mp ht)).2)

end MotorPid.Motor
