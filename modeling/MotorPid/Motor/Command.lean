/-
# How the motor component reads a written word

`motor.v` takes the direction from bit 11 of the word and the magnitude from a 32-bit negation
truncated to 11 bits.  Both are functions of the low 12 bits read as a signed number, the
`wordSpeed` of the word: the direction is its sign and the magnitude is its absolute value,
except that `-2048` has no 11-bit magnitude and decodes to 0 (`wordMagnitude_toNat`).

A word written as a signed integer is therefore latched as that integer exactly when its
magnitude is at most 2047, and any other as the one in that range that it agrees with modulo 4096,
or as a stop where it agrees with -2048 (`command_exact`): nothing in the module tells the software
that its word did not fit.
-/
import MotorPid.Motor.Model
import Mathlib.Algebra.Order.Group.Unbundled.Int
import Mathlib.Data.Int.ModEq

namespace MotorPid.Motor

/-! ## 1. The speed of a word -/

/-- The low 12 bits of a word, read as a signed number. -/
def wordSpeed (w : BitVec 32) : ℤ := (w.setWidth (ctrLen + 1)).toInt

/-- The magnitude of a 12-bit signed speed that 11 bits can hold. -/
def speedMag (v : ℤ) : ℕ := if v = -2048 then 0 else v.natAbs

/-- `wordSpeed`, in terms of the unsigned value of the word. -/
theorem wordSpeed_eq (w : BitVec 32) :
    wordSpeed w = if w.toNat % 4096 < 2048 then (w.toNat % 4096 : ℤ)
      else (w.toNat % 4096 : ℤ) - 4096 := by
  rw [wordSpeed, BitVec.toInt_eq_toNat_cond, BitVec.toNat_setWidth]
  simp only [ctrLen, Nat.reduceAdd, Nat.reducePow]
  split <;> split <;> omega

/-- The word of an `int`: the speed is the number modulo 4096, in the signed 12-bit range. -/
theorem wordSpeed_ofInt (v : ℤ) : wordSpeed (BitVec.ofInt 32 v) = v.bmod 4096 := by
  rw [wordSpeed_eq, BitVec.toNat_ofInt, Int.bmod]
  simp only [Nat.reducePow]
  split <;> split <;> omega

/-- The bit the module tests is the sign of the speed. -/
theorem getLsbD_ctrLen (w : BitVec 32) : w.getLsbD ctrLen = decide (2048 ≤ w.toNat % 4096) := by
  rw [BitVec.getLsbD, Nat.testBit_eq_decide_div_mod_eq, decide_eq_decide]
  simp only [ctrLen, Nat.reducePow]
  omega

/-- **The direction bit is the sign of the speed.** -/
theorem wordDirection_eq (w : BitVec 32) : wordDirection w = decide (0 ≤ wordSpeed w) := by
  rw [wordDirection, getLsbD_ctrLen, wordSpeed_eq]
  by_cases h : 2048 ≤ w.toNat % 4096
  · have hneg : ¬ (0 : ℤ) ≤ (w.toNat % 4096 : ℤ) - 4096 := by omega
    rw [if_pos (decide_eq_true h), if_neg (Nat.not_lt.mpr h), decide_eq_false hneg]
  · have hpos : (0 : ℤ) ≤ (w.toNat % 4096 : ℤ) := by omega
    rw [if_neg (by simp [h]), if_pos (Nat.not_le.mp h), decide_eq_true hpos]

/-- **The compare value is the magnitude of the speed.**  Truncating the 32-bit negation to 11
bits loses nothing but the one magnitude that does not fit, `2048`. -/
theorem wordMagnitude_toNat (w : BitVec 32) :
    (wordMagnitude w).toNat = speedMag (wordSpeed w) := by
  have hneg : ~~~w + 1 = -w := (BitVec.neg_eq_not_add w).symm
  have hlt : w.toNat < 2 ^ 32 := w.isLt
  rw [wordMagnitude, speedMag, BitVec.toNat_setWidth, getLsbD_ctrLen, hneg, wordSpeed_eq]
  simp only [ctrLen, Nat.reducePow]
  by_cases h : 2048 ≤ w.toNat % 4096
  · have hmod : (-w).toNat % 2048 = (4096 - w.toNat % 4096) % 2048 := by
      rw [BitVec.toNat_neg]
      omega
    rw [if_pos (decide_eq_true h), if_neg (Nat.not_lt.mpr h), hmod]
    split <;> omega
  · rw [if_neg (by simp [h]), if_pos (Nat.not_le.mp h)]
    split <;> omega

/-! ## 2. The command a word leaves -/

variable {s : Regs} {x : In}

/-- The latched command: the direction and the compare value. -/
def Regs.command (s : Regs) : Bool × ℕ := (s.clockwiseOut, s.pwmCompare.toNat)

/-- The command that stands for the signed speed `v`. -/
def speedCommand (v : ℤ) : Bool × ℕ := (decide (0 ≤ v), v.natAbs)

/-- The speeds whose magnitude fits the compare register. -/
def SafeSpeed (v : ℤ) : Prop := -2047 ≤ v ∧ v ≤ 2047

instance (v : ℤ) : Decidable (SafeSpeed v) := inferInstanceAs (Decidable (_ ∧ _))

/-- A written word leaves the sign and the magnitude of its speed. -/
theorem command_write (hr : x.rstReset = false) (hw : x.avalonSlaveWrite = true) :
    (step s x).command = (decide (0 ≤ wordSpeed x.avalonSlaveWritedata),
      speedMag (wordSpeed x.avalonSlaveWritedata)) := by
  obtain ⟨hmag, hdir⟩ := step_command_write (s := s) hr hw
  rw [Regs.command, hmag, hdir, wordMagnitude_toNat, wordDirection_eq]

/-- A clock without a write keeps the command. -/
theorem command_idle (hr : x.rstReset = false) (hw : x.avalonSlaveWrite = false) :
    (step s x).command = s.command := by
  obtain ⟨hcompare, hdir⟩ := step_command_idle (s := s) hr hw
  rw [Regs.command, Regs.command, hcompare, hdir]

/-- The speed of a word is its signed value, reduced modulo 4096 into -2048..2047. -/
theorem wordSpeed_eq_bmod (w : BitVec 32) : wordSpeed w = w.toInt.bmod 4096 := by
  rw [← wordSpeed_ofInt, BitVec.ofInt_toInt]

/-- In the safe range nothing is reduced. -/
theorem bmod_of_safe {v : ℤ} (h : SafeSpeed v) : v.bmod 4096 = v :=
  Int.bmod_eq_of_le (by unfold SafeSpeed at h; omega) (by unfold SafeSpeed at h; omega)

/-- The reduced speed is safe, or the one that has no magnitude. -/
theorem safe_bmod (v : ℤ) : SafeSpeed (v.bmod 4096) ∨ v.bmod 4096 = -2048 := by
  simp only [SafeSpeed, Int.bmod]
  split <;> omega

theorem speedMag_of_safe {v : ℤ} (h : SafeSpeed v) : speedMag v = v.natAbs :=
  if_neg (by unfold SafeSpeed at h; omega)

theorem bmod_eq_of_modEq {v v' : ℤ} (h : v ≡ v' [ZMOD 4096]) : v.bmod 4096 = v'.bmod 4096 := by
  have hemod : v % (4096 : ℕ) = v' % (4096 : ℕ) := h
  rw [← Int.emod_bmod, hemod, Int.emod_bmod]

theorem modEq_of_bmod_eq {v v' : ℤ} (h : v.bmod 4096 = v') : v ≡ v' [ZMOD 4096] := by
  rw [← h]
  exact Int.bmod_emod.symm

/-- **The exact safe range of the command register.**  From any registers, a word written on a
non-reset clock is latched as its signed value if and only if that is in -2047..2047.  Words that
agree modulo 4096 leave the same command.  A word that agrees with -2048 leaves a stop, and every
other word outside the range leaves the command of another speed inside it, the one it agrees
with. -/
theorem command_exact :
    (∀ (s : Regs) (x : In), x.rstReset = false → x.avalonSlaveWrite = true →
      ((step s x).command = speedCommand x.avalonSlaveWritedata.toInt ↔
        SafeSpeed x.avalonSlaveWritedata.toInt)) ∧
    (∀ (s s' : Regs) (x x' : In), x.rstReset = false → x.avalonSlaveWrite = true →
      x'.rstReset = false → x'.avalonSlaveWrite = true →
      x.avalonSlaveWritedata.toInt ≡ x'.avalonSlaveWritedata.toInt [ZMOD 4096] →
      (step s x).command = (step s' x').command) ∧
    (∀ (s : Regs) (x : In), x.rstReset = false → x.avalonSlaveWrite = true →
      x.avalonSlaveWritedata.toInt ≡ -2048 [ZMOD 4096] →
      (step s x).clockwiseOut = false ∧ (step s x).pwmCompare = 0) ∧
    (∀ (s : Regs) (x : In), x.rstReset = false → x.avalonSlaveWrite = true →
      ¬ SafeSpeed x.avalonSlaveWritedata.toInt →
      ¬ x.avalonSlaveWritedata.toInt ≡ -2048 [ZMOD 4096] →
      ∃ v, SafeSpeed v ∧ v ≠ x.avalonSlaveWritedata.toInt ∧
        v ≡ x.avalonSlaveWritedata.toInt [ZMOD 4096] ∧ (step s x).command = speedCommand v) := by
  refine ⟨?_, ?_, ?_, ?_⟩
  · intro s x hr hw
    constructor
    · intro h
      -- the compare register has 11 bits, so the magnitude it equals has no more
      have hmag : (step s x).pwmCompare.toNat = x.avalonSlaveWritedata.toInt.natAbs :=
        congrArg Prod.snd h
      have hlt : (step s x).pwmCompare.toNat < 2048 := (step s x).pwmCompare.isLt
      unfold SafeSpeed
      omega
    · intro h
      rw [command_write hr hw, wordSpeed_eq_bmod, bmod_of_safe h, speedMag_of_safe h,
        speedCommand]
  · intro s s' x x' hr hw hr' hw' hmod
    rw [command_write hr hw, command_write hr' hw', wordSpeed_eq_bmod, wordSpeed_eq_bmod,
      bmod_eq_of_modEq hmod]
  · intro s x hr hw hmod
    have hedge : x.avalonSlaveWritedata.toInt.bmod 4096 = -2048 := bmod_eq_of_modEq hmod
    have hcommand := command_write (s := s) hr hw
    rw [wordSpeed_eq_bmod, hedge] at hcommand
    exact ⟨congrArg Prod.fst hcommand, BitVec.eq_of_toNat_eq (congrArg Prod.snd hcommand)⟩
  · intro s x hr hw hout hstop
    have hsafe : SafeSpeed (x.avalonSlaveWritedata.toInt.bmod 4096) :=
      (safe_bmod _).resolve_right fun h => hstop (modEq_of_bmod_eq h)
    refine ⟨_, hsafe, fun heq => hout (heq ▸ hsafe), Int.bmod_emod, ?_⟩
    rw [command_write hr hw, wordSpeed_eq_bmod, speedMag_of_safe hsafe, speedCommand]

end MotorPid.Motor
