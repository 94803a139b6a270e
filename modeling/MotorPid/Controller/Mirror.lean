/-
# The controller in a mirror

Ask for the opposite speed and turn every reading around, and a controller should do the opposite.
Target, error and effort do, on every run, and the clock does not care.  The command does not quite:
`u > 0 ? 1 : -1` gives an effort of exactly 0 the sign `-1` on both sides of the mirror.

`mirror_iff`: the commands of the mirrored run are the opposite ones if and only if no iteration
that takes place has an effort of exactly 0.
-/
import MotorPid.Controller.Textbook

namespace MotorPid.Controller

/-! ## 1. The mirror -/

/-- The opposite request. -/
def Params.mirror (P : Params) : Params := { P with rpms := -P.rpms }

/-- The opposite values of the variables. -/
def Vars.mirror (s : Vars) : Vars := ⟨-s.eprev, -s.eIntegral, -s.target⟩

@[simp] theorem Params.mirror_mirror (P : Params) : P.mirror.mirror = P := by
  simp [Params.mirror]

@[simp] theorem Vars.mirror_mirror (s : Vars) : s.mirror.mirror = s := by
  simp [Vars.mirror]

variable (P : Params) (iord : ℕ → ℤ)

theorem targetIncr_mirror : P.mirror.targetIncr = -P.targetIncr := by
  rw [targetIncr_eq, targetIncr_eq, Params.mirror]
  ring

theorem nextVars_mirror (s : Vars) (pos : ℤ) :
    nextVars P.mirror s.mirror (-pos) = (nextVars P s pos).mirror := by
  have hdelta : P.mirror.deltaT = P.deltaT := rfl
  have htarget : nextTarget P.mirror s.mirror = -nextTarget P s := by
    rw [nextTarget, targetIncr_mirror, Vars.mirror, nextTarget]
    ring
  have herror : error P.mirror s.mirror (-pos) = -error P s pos := by
    rw [error, htarget, error]
    push_cast
    ring
  rw [nextVars, nextEIntegral, herror, htarget, hdelta, Vars.mirror, nextVars, Vars.mirror,
    nextEIntegral]
  congr 1
  ring

theorem varsAt_mirror (n : ℕ) :
    varsAt P.mirror (fun k => -iord k) n = (varsAt P iord n).mirror := by
  induction n with
  | zero =>
    have hstart : Vars.start.mirror = .start := by
      rw [Vars.mirror, Vars.start, neg_zero]
    exact hstart.symm
  | succ n ih =>
    have hnext : varsAt P.mirror (fun k => -iord k) (n + 1)
        = nextVars P.mirror (varsAt P.mirror (fun k => -iord k) n) (-iord n) := rfl
    rw [hnext, ih, nextVars_mirror]
    rfl

theorem errorAt_mirror (k : ℕ) :
    errorAt P.mirror (fun k => -iord k) k = -errorAt P iord k := by
  rw [errorAt, errorAt, Params.mirror]
  push_cast
  ring

theorem textbookEffort_mirror (k : ℕ) :
    textbookEffort P.mirror (fun k => -iord k) k = -textbookEffort P iord k := by
  have herrors : errorAt P.mirror (fun k => -iord k) = fun k => -errorAt P iord k :=
    funext (errorAt_mirror P iord)
  rw [textbookEffort, herrors, textbookEffort]
  exact Pid.effort_neg _ _ _ _ _ _

/-! ## 2. The command -/

variable {rpms u : ℚ}

/-- An effort that is not 0 changes the sign of its command. -/
theorem command_mirror (hu : u ≠ 0) : command (-rpms) (-u) = -command rpms u := by
  rw [command_eq_steered, command_eq_steered, steered, steered, neg_mul_neg]
  by_cases hopp : u * rpms < 0
  · rw [if_pos hopp, if_pos hopp]
    rcases mul_neg_iff.mp hopp with ⟨-, hr⟩ | ⟨-, hr⟩
    · rw [if_pos (neg_pos.mpr hr), if_neg hr.not_gt]
      ring
    · rw [if_neg (neg_neg_of_pos hr).not_gt, if_pos hr]
      ring
  · rw [if_neg hopp, if_neg hopp, abs_neg]
    rcases lt_or_gt_of_ne hu with hneg | hpos
    · rw [if_pos (neg_pos.mpr hneg), if_neg hneg.not_gt]
      ring
    · rw [if_neg (neg_neg_of_pos hpos).not_gt, if_pos hpos]
      ring

/-- An effort of 0 is the same command whatever is requested. -/
theorem command_zero (rpms : ℚ) : command rpms 0 = -1150 := by
  have hsteered : steered rpms 0 = (-1, 0) := by
    rw [steered, zero_mul, if_neg (lt_irrefl 0), if_neg (lt_irrefl 0), abs_zero]
  rw [command_eq_steered, hsteered]
  decide +kernel

theorem command_mirror_iff : command (-rpms) (-u) = -command rpms u ↔ u ≠ 0 := by
  refine ⟨?_, command_mirror⟩
  rintro hopposite rfl
  rw [neg_zero, command_zero, command_zero] at hopposite
  exact absurd hopposite (by decide)

/-! ## 3. Whole runs -/

theorem commands_eq (n : ℕ) : ∃ m, (mainRun P iord n).commands
      = (List.range m).map (fun k => command P.rpms (textbookEffort P iord k)) ∧
    ∀ k, k < m ↔ k < n ∧ TakesPlace P k := by
  obtain ⟨m, hlog, hm⟩ := run_log P iord n
  refine ⟨m, ?_, hm⟩
  rw [Progress.commands, hlog, List.map_map]
  exact List.map_congr_left fun k _ => cycleAt_pwm P iord k

/-- The commands of the mirrored run, over the same iterations. -/
theorem commands_mirror_iff (n : ℕ) :
    (mainRun P.mirror (fun k => -iord k) n).commands
        = (mainRun P iord n).commands.map (fun w => -w) ↔
      ∀ k < n, TakesPlace P k → textbookEffort P iord k ≠ 0 := by
  obtain ⟨m, hcommands, hm⟩ := commands_eq P iord n
  obtain ⟨m', hcommands', hm'⟩ := commands_eq P.mirror (fun k => -iord k) n
  have hsame : m' = m := by
    have hiff : ∀ k, k < m' ↔ k < m := fun k => (hm' k).trans (hm k).symm
    exact Nat.le_antisymm (Nat.not_lt.mp fun h => (hiff m).mp h |>.false)
      (Nat.not_lt.mp fun h => (hiff m').mpr h |>.false)
  have hrpms : P.mirror.rpms = -P.rpms := rfl
  rw [hcommands, hcommands', hsame, List.map_map, List.map_inj_left]
  simp only [Function.comp_apply, textbookEffort_mirror, hrpms, command_mirror_iff, List.mem_range,
    hm, and_imp]

/-- At the top of the loop the mirrored run has the opposite variables and the same clock. -/
theorem looping_mirror {n : ℕ} {s : Vars} {t : ℤ} {log : List Cycle}
    (hloop : mainRun P iord n = .looping s t log) :
    ∃ log', mainRun P.mirror (fun k => -iord k) n = .looping s.mirror t log' := by
  have hplace : TakesPlace P n := takesPlace_of_looping P iord hloop
  have hplace' : TakesPlace P.mirror n := hplace
  rw [run_looping P iord hplace] at hloop
  obtain ⟨rfl, rfl, -⟩ := Progress.looping.inj hloop
  rw [run_looping P.mirror _ hplace', loopingAt, varsAt_mirror]
  exact ⟨_, rfl⟩

/-- **The controller in a mirror.**  For all parameters and readings, the run with the opposite
request and the opposite readings is at the top of the loop exactly when the other is, with the
opposite variables and the same clock; and it writes the opposite commands if and only if no
iteration that takes place has an effort of exactly 0. -/
theorem mirror_iff (P : Params) (iord : ℕ → ℤ) :
    (∀ n s t, (∃ log, mainRun P iord n = .looping s t log) ↔
      ∃ log, mainRun P.mirror (fun k => -iord k) n = .looping s.mirror t log) ∧
    ((∀ n, (mainRun P.mirror (fun k => -iord k) n).commands
        = (mainRun P iord n).commands.map fun w => -w) ↔
      ∀ k, TakesPlace P k → textbookEffort P iord k ≠ 0) := by
  constructor
  · intro n s t
    constructor
    · rintro ⟨log, hloop⟩
      exact looping_mirror P iord hloop
    · rintro ⟨log, hloop⟩
      have hback := looping_mirror P.mirror (fun k => -iord k) hloop
      simpa using hback
  · simp only [commands_mirror_iff]
    constructor
    · intro h k hk
      exact h (k + 1) k (Nat.lt_succ_self k) hk
    · intro h n k _ hk
      exact h k hk

end MotorPid.Controller
