/-
# A stalled shaft

If the position stops changing while the controller runs without integral action, the error goes
on growing by one step of the target a cycle.  The derivative term stands still from the second
stalled cycle on, so the effort moves along the request by `kp * |D|` a cycle, where `D` is that
step (`along_textbookEffort`).  The magnitude of the command is a function of the effort along the
request that never decreases, through the override, the interpolation and the clamp.  So the
motor is driven harder and harder, and at full magnitude once the effort has made up for where it
started (`stall_drives_harder`).

The iterations are numbered from 0, as the readings are.
-/
import MotorPid.Controller.Command

namespace MotorPid.Controller

variable {P : Params} {iord : ℕ → ℤ} {m : ℕ}

/-! ## 1. The effort along the request -/

theorem along_add (rpms u v : ℚ) : along rpms (u + v) = along rpms u + along rpms v := by
  unfold along
  split
  · rfl
  · ring

theorem neg_abs_le_along (rpms u : ℚ) : -|u| ≤ along rpms u := by
  unfold along
  split
  · exact neg_abs_le u
  · exact neg_le_neg (le_abs_self u)

/-- The step of the target is along the request. -/
theorem along_step (c : ℚ) :
    along P.rpms (c * (P.rpms * 350 * P.tS / 60)) = c * |P.rpms * 350 * P.tS / 60| := by
  have hT := P.tS_pos
  unfold along
  split
  · rename_i hr
    rw [abs_of_nonneg (by positivity)]
  · rename_i hr
    have hD : P.rpms * 350 * P.tS / 60 ≤ 0 := by
      have : P.rpms * P.tS ≤ 0 := mul_nonpos_of_nonpos_of_nonneg (not_lt.mp hr) hT.le
      linarith
    rw [abs_of_nonpos hD]
    ring

theorem errorAt_succ {k : ℕ} (h : iord (k + 1) = iord k) :
    errorAt P iord (k + 1) = errorAt P iord k + P.rpms * 350 * P.tS / 60 := by
  rw [errorAt, errorAt, h]
  push_cast
  ring

/-- **On a stalled shaft the effort goes along the request by `kp * |D|` a cycle.** -/
theorem along_textbookEffort (hki : P.ki = 0) (hstall : ∀ k, m ≤ k → iord k = iord m) (j : ℕ) :
    along P.rpms (textbookEffort P iord (m + 1 + j))
      = along P.rpms (textbookEffort P iord (m + 1))
        + j * (P.kp * |P.rpms * 350 * P.tS / 60|) := by
  have hgrow : ∀ k, m ≤ k →
      errorAt P iord (k + 1) = errorAt P iord k + P.rpms * 350 * P.tS / 60 := fun k hk =>
    errorAt_succ ((hstall (k + 1) (Nat.le_succ_of_le hk)).trans (hstall k hk).symm)
  rw [textbookEffort, textbookEffort, hki, Pid.effort_ramp hgrow, along_add, ← mul_assoc P.kp,
    mul_comm P.kp, along_step, mul_assoc]

/-! ## 2. The magnitude of the commands -/

/-- The magnitude of a command on a stalled shaft. -/
theorem abs_command_stall (hki : P.ki = 0) (hr : P.rpms ≠ 0)
    (hstall : ∀ k, m ≤ k → iord k = iord m) (j : ℕ) :
    |command P.rpms (textbookEffort P iord (m + 1 + j))|
      = mapPwm (max (along P.rpms (textbookEffort P iord (m + 1))
        + j * (P.kp * |P.rpms * 350 * P.tS / 60|)) 0) := by
  rw [command_abs, abs_override_snd hr, along_textbookEffort hki hstall]

/-- **A stalled shaft is driven ever harder until saturation.**  Without integral action and with
a positive proportional gain, let all readings from iteration `m` on be equal, after any earlier
ones.  From iteration `m + 1` on the magnitude of the commands of the run never decreases; and it
is the greatest one, 2047, from `⌈(2047 + |U|) / (kp * |D|)⌉` iterations later on, where `U` is
the effort of iteration `m + 1` before the override and `D` the step of the target. -/
theorem stall_drives_harder (hki : P.ki = 0) (hkp : 0 < P.kp) (hr : P.rpms ≠ 0)
    (hstall : ∀ k, m ≤ k → iord k = iord m) (n : ℕ) :
    (∀ k k' w w', m + 1 ≤ k → k ≤ k' → (mainRun P iord n).commands[k]? = some w →
      (mainRun P iord n).commands[k']? = some w' → |w| ≤ |w'|) ∧
    ∀ k w, m + 1 + ⌈(2047 + |effort P (varsAt P iord (m + 1)) (iord (m + 1))|)
        / (P.kp * |P.rpms * 350 * P.tS / 60|)⌉₊ ≤ k →
      (mainRun P iord n).commands[k]? = some w → |w| = 2047 := by
  have hstep : 0 < P.kp * |P.rpms * 350 * P.tS / 60| := by
    have hD : P.rpms * 350 * P.tS / 60 ≠ 0 :=
      div_ne_zero (mul_ne_zero (mul_ne_zero hr (by norm_num)) P.tS_pos.ne') (by norm_num)
    exact mul_pos hkp (abs_pos.mpr hD)
  constructor
  · intro k k' w w' hk hkk' hw hw'
    obtain ⟨j, rfl⟩ := Nat.exists_eq_add_of_le hk
    obtain ⟨i, rfl⟩ := Nat.exists_eq_add_of_le hkk'
    rw [getElem?_commands P iord hw, getElem?_commands P iord hw', Nat.add_assoc (m + 1) j i,
      abs_command_stall hki hr hstall, abs_command_stall hki hr hstall]
    refine mapPwm_mono (le_max_right _ _) (max_le_max_right 0 ?_)
    have hji : (j : ℚ) ≤ ((j + i : ℕ) : ℚ) := Nat.cast_le.mpr (Nat.le_add_right j i)
    exact add_le_add_right (mul_le_mul_of_nonneg_right hji hstep.le) _
  · intro k w hk hw
    obtain ⟨j, rfl⟩ := Nat.exists_eq_add_of_le (le_trans (Nat.le_add_right _ _) hk)
    rw [effort_varsAt, Nat.add_le_add_iff_left, Nat.ceil_le, div_le_iff₀ hstep] at hk
    rw [getElem?_commands P iord hw, abs_command_stall hki hr hstall]
    -- the effort has made up for its start and for the whole range
    have hstart := neg_abs_le_along P.rpms (textbookEffort P iord (m + 1))
    exact mapPwm_saturated (le_trans (by linarith) (le_max_left _ _))

/-- The parameters in the file on a shaft that never moves: full magnitude at iteration 7. -/
theorem stall_drives_harder_inFile :
    ((mainRun Params.inFile (fun _ => 0) 8).commands[7]?).map (|·|) = some 2047 := by
  have hw : (mainRun Params.inFile (fun _ => 0) 8).commands[7]? = some (-2047) := by
    decide +kernel
  rw [hw]
  exact congrArg some ((stall_drives_harder (m := 0) rfl (by decide +kernel) (by decide +kernel)
    (fun _ _ => rfl) 8).2 7 (-2047) (by decide +kernel) hw)

end MotorPid.Controller
