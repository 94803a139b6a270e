/-
# The commands of the program, as the motor component decodes them

`hello_world.c` writes an `int`; `motor.v` reads bits 0 to 11 of it.  The two sides agree on every
number whose magnitude fits 11 bits (`command_delivered`), and `map_pwm` saturates at the largest
one, 2047.  So every command of every run is decoded as the number it is, and the final 0 as a
stop (`commands_decoded`).
-/
import MotorPid.Motor.Command
import MotorPid.Controller.Command

namespace MotorPid.System

open Motor Controller

/-- A clock without reset on which the `int` `w` is written, in two's complement. -/
def Delivers (x : In) (w : ℤ) : Prop :=
  x.rstReset = false ∧ x.avalonSlaveWrite = true ∧ x.avalonSlaveWritedata = BitVec.ofInt 32 w

/-- A number in the safe range is latched as its sign and its magnitude. -/
theorem command_delivered {s : Regs} {x : In} {w : ℤ} (hx : Delivers x w) (hw : SafeSpeed w) :
    (step s x).command = speedCommand w := by
  obtain ⟨hrst, hwrite, hdata⟩ := hx
  rw [command_write hrst hwrite, hdata, wordSpeed_ofInt, bmod_of_safe hw, speedMag_of_safe hw,
    speedCommand]

/-- A magnitude that `map_pwm` can give is safe under either sign. -/
theorem safe_of_abs_le {w : ℤ} (h : |w| ≤ maxPwm) : SafeSpeed w := abs_le.mp h

/-- **Software commands are decoded faithfully.**  Whatever the parameters and the readings, each
command of the loop has a magnitude in 1150..2047, and the clock that writes it sets the compare
value to that magnitude and the direction to its sign, from any registers.  The 0 written on the
way out leaves a compare value of 0. -/
theorem commands_decoded (P : Params) (iord : ℕ → ℤ) (n : ℕ) :
    (∀ w ∈ (mainRun P iord n).commands,
      (1150 ≤ |w| ∧ |w| ≤ 2047) ∧
        ∀ (s : Regs) (x : In), Delivers x w →
          ((step s x).pwmCompare.toNat : ℤ) = |w| ∧
            ((step s x).clockwiseOut = true ↔ 0 < w)) ∧
      ∀ (s : Regs) (x : In), Delivers x 0 → (step s x).pwmCompare = 0 := by
  refine ⟨?_, ?_⟩
  · intro w hw
    obtain ⟨k, -, -, rfl⟩ := (mem_commands P iord).mp hw
    have hbounds := command_abs_bounds P.rpms (textbookEffort P iord k)
    have hne := command_ne_zero P.rpms (textbookEffort P iord k)
    refine ⟨hbounds, ?_⟩
    intro s x hx
    have hcommand := command_delivered (s := s) hx (safe_of_abs_le hbounds.2)
    have hcompare : (step s x).pwmCompare.toNat =
        (command P.rpms (textbookEffort P iord k)).natAbs := congrArg Prod.snd hcommand
    have hdir : (step s x).clockwiseOut =
        decide (0 ≤ command P.rpms (textbookEffort P iord k)) := congrArg Prod.fst hcommand
    rw [hcompare, hdir, Int.natCast_natAbs, decide_eq_true_iff]
    exact ⟨rfl, fun h => lt_of_le_of_ne h hne.symm, le_of_lt⟩
  · intro s x hx
    have hcommand := command_delivered (s := s) hx (by decide)
    exact BitVec.eq_of_toNat_eq (congrArg Prod.snd hcommand)

end MotorPid.System
