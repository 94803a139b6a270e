/-
# From effort to command

What the loop writes is a sign times a magnitude.  The magnitude `map_pwm(|u|)` is in 1150..2047
for every effort (`mapPwm_bounds`), so the command is never 0 and its sign is the sign alone
(`command_pos_iff`, `command_neg_iff`).

The sign is chosen in two steps.  `u > 0 ? 1 : -1` gives the sign `-1` to an effort of exactly 0,
and the override after it corrects only efforts that are strictly below or strictly above 0.
Under a negative request that is harmless: every command is negative.  Under a positive request
an effort of exactly 0 is not corrected, and the smallest command the other way is written
(`reverse_at_zero`).  `direction_kept_iff` is the exact extent of it over whole runs: the
commands of a run have the sign of the request if and only if, under a positive request, the
textbook PID effort of the readings is 0 at no iteration that takes place.
-/
import MotorPid.Controller.Run
import Mathlib.Tactic.Positivity

namespace MotorPid.Controller

/-! ## 1. The magnitude -/

theorem truncInt_of_nonneg {x : ℚ} (h : 0 ≤ x) : truncInt x = ⌊x⌋ := if_pos h

/-- Below saturation the magnitude is the interpolation rounded down. -/
theorem mapPwm_eq_floor {x : ℚ} (h0 : 0 ≤ x) (h : x ≤ 2047) :
    mapPwm x = ⌊x * 897 / 2047 + 1150⌋ := by
  have hnot : ¬ x > ((maxPwm : ℤ) : ℚ) := by simpa [maxPwm] using h
  have hval : x * ((maxPwm : ℤ) - (minPwm : ℤ)) / (maxPwm : ℤ) + (minPwm : ℤ)
      = x * 897 / 2047 + 1150 := by
    simp only [maxPwm, minPwm]
    norm_num
  rw [mapPwm, if_neg hnot, hval, truncInt_of_nonneg (by positivity)]

/-- From 2047 on the magnitude is the greatest one: the clamp and the interpolation meet there. -/
theorem mapPwm_saturated {x : ℚ} (h : 2047 ≤ x) : mapPwm x = maxPwm := by
  rcases eq_or_lt_of_le h with heq | hlt
  · rw [← heq, mapPwm_eq_floor (by norm_num) (le_refl _)]
    norm_num [maxPwm]
  · exact if_pos (by simpa [maxPwm] using hlt)

/-- **The magnitude is between 1150 and 2047**, for every effort. -/
theorem mapPwm_bounds {x : ℚ} (h : 0 ≤ x) : minPwm ≤ mapPwm x ∧ mapPwm x ≤ maxPwm := by
  rcases le_total 2047 x with hx | hx
  · rw [mapPwm_saturated hx]
    exact ⟨by decide, le_refl maxPwm⟩
  · rw [mapPwm_eq_floor h hx]
    have hlow : ((1150 : ℤ) : ℚ) ≤ x * 897 / 2047 + 1150 := by
      push_cast
      linarith
    have hhigh : x * 897 / 2047 + 1150 < ((2047 : ℤ) : ℚ) + 1 := by
      push_cast
      linarith
    exact ⟨Int.le_floor.mpr hlow, Int.floor_le_iff.mpr hhigh⟩

/-- **More effort never gives a smaller magnitude**, across the clamp too. -/
theorem mapPwm_mono {x y : ℚ} (h0 : 0 ≤ x) (h : x ≤ y) : mapPwm x ≤ mapPwm y := by
  rcases le_total 2047 y with hy | hy
  · rw [mapPwm_saturated hy]
    exact (mapPwm_bounds h0).2
  · rw [mapPwm_eq_floor h0 (h.trans hy), mapPwm_eq_floor (h0.trans h) hy]
    exact Int.floor_mono (by linarith)

/-- **The greatest magnitude takes an effort of 2047.** -/
theorem mapPwm_eq_max_iff {x : ℚ} (h0 : 0 ≤ x) : mapPwm x = maxPwm ↔ 2047 ≤ x := by
  refine ⟨fun h => ?_, mapPwm_saturated⟩
  by_contra hlt
  have hx : x < 2047 := not_le.mp hlt
  rw [mapPwm_eq_floor h0 hx.le, Int.floor_eq_iff] at h
  have hge : (2047 : ℚ) ≤ x * 897 / 2047 + 1150 := by simpa [maxPwm] using h.1
  linarith

/-- **Every magnitude between the bounds is given by some effort.** -/
theorem mapPwm_surjective {c : ℤ} (hlow : minPwm ≤ c) (hhigh : c ≤ maxPwm) :
    ∃ x : ℚ, 0 ≤ x ∧ mapPwm x = c := by
  have hlow' : (1150 : ℚ) ≤ c := by exact_mod_cast hlow
  have hhigh' : (c : ℚ) ≤ 2047 := by exact_mod_cast hhigh
  have h0 : (0 : ℚ) ≤ (c - 1150) * 2047 / 897 := by linarith
  have hval : ((c : ℚ) - 1150) * 2047 / 897 * 897 / 2047 + 1150 = c := by ring
  exact ⟨(c - 1150) * 2047 / 897, h0, by
    rw [mapPwm_eq_floor h0 (by linarith), hval, Int.floor_intCast]⟩

/-- Both bounds are attained. -/
example : mapPwm 0 = minPwm ∧ mapPwm 2047 = maxPwm := by decide +kernel

/-! ## 2. The sign -/

theorem override_fst_eq_or (rpms u : ℚ) :
    (override rpms u).1 = 1 ∨ (override rpms u).1 = -1 := by
  simp only [override]
  by_cases hneg : u < 0 ∧ rpms > 0
  · exact .inl (by rw [if_pos hneg])
  · rw [if_neg hneg]
    by_cases hpos : u > 0 ∧ rpms < 0
    · exact .inr (by rw [if_pos hpos])
    · rw [if_neg hpos]
      exact ite_eq_or_eq (u > 0) 1 (-1)

variable {rpms u : ℚ}

/-- Under a negative request the sign is negative, whatever the effort. -/
theorem override_fst_of_neg (h : rpms < 0) : (override rpms u).1 = -1 := by
  rw [override, if_neg fun hc => lt_asymm hc.2 h]
  split
  · rfl
  · rename_i hopp
    exact if_neg fun hu => hopp ⟨hu, h⟩

/-- Under a positive request the sign is positive, except at an effort of exactly 0. -/
theorem override_fst_of_pos (h : 0 < rpms) :
    (override rpms u).1 = if u = 0 then -1 else 1 := by
  rcases lt_trichotomy u 0 with hu | hu | hu
  · rw [override, if_pos ⟨hu, h⟩, if_neg hu.ne]
  · rw [override, if_neg fun hc => hc.1.ne hu, if_neg fun hc => lt_asymm hc.2 h, if_pos hu]
    exact if_neg hu.not_gt
  · rw [override, if_neg fun hc => lt_asymm hc.1 hu, if_neg fun hc => lt_asymm hc.2 h,
      if_neg hu.ne']
    exact if_pos hu

/-! ## 3. The command -/

/-- The magnitude of the command is that of the overridden effort. -/
theorem command_abs (rpms u : ℚ) : |command rpms u| = mapPwm |(override rpms u).2| := by
  have hlow := (mapPwm_bounds (abs_nonneg (override rpms u).2)).1
  rw [command, abs_mul, abs_of_nonneg (le_trans (by decide) hlow)]
  rcases override_fst_eq_or rpms u with h | h <;> simp [h]

/-- **Every command has a magnitude in 1150..2047.** -/
theorem command_abs_bounds (rpms u : ℚ) :
    minPwm ≤ |command rpms u| ∧ |command rpms u| ≤ maxPwm := by
  rw [command_abs]
  exact mapPwm_bounds (abs_nonneg _)

/-- The part of an effort that goes along the request. -/
def along (rpms u : ℚ) : ℚ := if 0 < rpms then u else -u

/-- The override keeps of an effort what goes along the request. -/
theorem abs_override_snd (h : rpms ≠ 0) : |(override rpms u).2| = max (along rpms u) 0 := by
  rcases lt_or_gt_of_ne h with hr | hr
  · rw [along, if_neg hr.not_gt, override, if_neg fun hc => lt_asymm hc.2 hr]
    by_cases hu : u > 0
    · rw [if_pos ⟨hu, hr⟩, abs_zero, max_eq_right (by linarith)]
    · rw [if_neg fun hc => hu hc.1, abs_of_nonpos (not_lt.mp hu), max_eq_left (by linarith)]
  · rw [along, if_pos hr, override]
    by_cases hu : u < 0
    · rw [if_pos ⟨hu, hr⟩, abs_zero, max_eq_right hu.le]
    · rw [if_neg fun hc => hu hc.1, if_neg fun hc => lt_asymm hc.2 hr,
        abs_of_nonneg (not_lt.mp hu), max_eq_left (not_lt.mp hu)]

theorem command_ne_zero (rpms u : ℚ) : command rpms u ≠ 0 := by
  have h := (command_abs_bounds rpms u).1
  intro h0
  rw [h0] at h
  exact absurd h (by decide)

/-- The sign of the command is the sign chosen. -/
theorem command_pos_iff : 0 < command rpms u ↔ (override rpms u).1 = 1 := by
  have hm0 : 0 < mapPwm |(override rpms u).2| :=
    lt_of_lt_of_le (by decide) (mapPwm_bounds (abs_nonneg _)).1
  rw [command]
  rcases override_fst_eq_or rpms u with h | h
  · simp [h, hm0]
  · simp [h, hm0.le]

theorem command_neg_of_neg (h : rpms < 0) : command rpms u < 0 := by
  have hpos : ¬ 0 < command rpms u := by
    rw [command_pos_iff, override_fst_of_neg h]
    decide
  exact lt_of_le_of_ne (not_lt.mp hpos) (command_ne_zero rpms u)

theorem command_pos_iff_of_pos (h : 0 < rpms) : 0 < command rpms u ↔ u ≠ 0 := by
  rw [command_pos_iff, override_fst_of_pos h]
  by_cases hu : u = 0 <;> simp [hu]

/-! ## 4. Whole runs -/

/-- The word `w` has the sign of the requested speed. -/
def WithRequest (rpms : ℚ) (w : ℤ) : Prop := (0 < rpms → 0 < w) ∧ (rpms < 0 → w < 0)

theorem withRequest_command : WithRequest rpms (command rpms u) ↔ ¬ (0 < rpms ∧ u = 0) := by
  constructor
  · rintro ⟨hpos, -⟩ ⟨hr, hu⟩
    exact (command_pos_iff_of_pos hr).mp (hpos hr) hu
  · intro h
    exact ⟨fun hr => (command_pos_iff_of_pos hr).mpr fun hu => h ⟨hr, hu⟩, command_neg_of_neg⟩

/-- **When the motor is never driven against the request.**  For every choice of parameters and
every sequence of readings, all commands of the run have the sign of the requested speed if and
only if no iteration that takes place has, under a positive request, a textbook PID effort of
exactly 0. -/
theorem direction_kept_iff (P : Params) (iord : ℕ → ℤ) :
    (∀ n, ∀ w ∈ (mainRun P iord n).commands, WithRequest P.rpms w) ↔
      ∀ k, TakesPlace P k → ¬ (0 < P.rpms ∧ textbookEffort P iord k = 0) := by
  constructor
  · intro h k hk
    rw [← withRequest_command]
    exact h (k + 1) _ ((mem_commands P iord).mpr ⟨k, Nat.lt_succ_self k, hk, rfl⟩)
  · intro h n w hw
    obtain ⟨k, -, hk, rfl⟩ := (mem_commands P iord).mp hw
    exact withRequest_command.mpr (h k hk)

/-- **An effort of exactly 0 reverses the motor.**  At 60 RPM the first target is 35 counts
ahead.  A first reading of 35 makes the first effort 0, and the first command is `-1150`. -/
theorem reverse_at_zero :
    (mainRun { Params.inFile with rpms := 60 } (fun _ => 35) 1).commands = [-1150] ∧
      ¬ WithRequest (60 : ℚ) (-1150) := by
  refine ⟨by decide +kernel, fun h => ?_⟩
  exact absurd (h.1 (by norm_num)) (by decide)

end MotorPid.Controller
