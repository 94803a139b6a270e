/-
# When an LED fades smoothly

The comment at the assignment of `compare[i]` promises "decrement by one or keep same value".
That holds at a clock exactly when the two registers of the LED are IN STEP: the value about to
come forward is the present one or one less.  A write puts full duty into one of the two only,
and a reset clears only one, so either can leave them out of step, and then the threshold jumps
between two fades on every clock (`write_flickers`).

`smooth_iff` says when a whole run from power-up keeps the promise at LED `i`: every idle clock
that follows a write follows the second of two writes in a row, and every idle clock that follows
a reset comes at a time when no earlier write has LEFT a fade BEHIND.  From idle clock to idle
clock the registers stay in step by themselves (`InStep.idle`).

A fade left behind is told from the writes and resets alone.  The fade of a write moves from one
register to the other on every clock that does not reset.  It ends by a reset that finds it in the
first register, by a write that finds it in the second, or by itself after `2^26 - 1` steps; a
reset that finds it in the second register leaves it there, and it comes forward again.
-/
import MotorPid.Lights.Model
import Mathlib.Order.Interval.Finset.Nat

namespace MotorPid.Lights

open Clocked

variable {s : Regs} {x : ℕ → In} {i : Fin 26}

/-! ## 1. The law and the invariant behind it -/

/-- A threshold that neither rises nor falls by more than one. -/
def KeepsOrDecrements (v v' : BitVec ctrLen) : Prop :=
  v'.toNat ≤ v.toNat ∧ v.toNat ≤ v'.toNat + 1

instance (v v' : BitVec ctrLen) : Decidable (KeepsOrDecrements v v') :=
  inferInstanceAs (Decidable (_ ∧ _))

/-- LED `i` over a run from power-up: a write sets its threshold to full duty, and every clock
that neither resets nor writes it keeps or decrements the threshold. -/
def FadesSmoothly (x : ℕ → In) (i : Fin 26) : Prop :=
  (∀ t, (x t).writes i = true → (run powerUp x (t + 1)).compare i = maxDuty) ∧
    ∀ t, (x t).idle i = true →
      KeepsOrDecrements ((run powerUp x t).compare i) ((run powerUp x (t + 1)).compare i)

/-- The two registers of LED `i` are in step: the next threshold is the present one or one
less. -/
def InStep (s : Regs) (i : Fin 26) : Prop := KeepsOrDecrements (s.compare i) (s.compareNext i)

/-- At an idle clock, being in step is the law. -/
theorem keepsOrDecrements_iff {y : In} (h : y.idle i = true) :
    KeepsOrDecrements (s.compare i) ((step s y).compare i) ↔ InStep s i := by
  rw [(step_idle_lane h).1]
  exact Iff.rfl

/-- **Idle clocks keep the registers in step.** -/
theorem InStep.idle {y : In} (hs : InStep s i) (h : y.idle i = true) : InStep (step s y) i := by
  obtain ⟨h1, h2⟩ := hs
  rw [InStep, KeepsOrDecrements, (step_idle_lane h).1, (step_idle_lane h).2, fade_toNat]
  omega

/-! ## 2. Full duty means a write just before -/

/-- The second register never holds full duty: all it is given has been decremented. -/
theorem compareNext_lt (x : ℕ → In) (i : Fin 26) (t : ℕ) :
    ((run powerUp x t).compareNext i).toNat < 2 ^ 26 - 1 := by
  have hstart : (0 : BitVec ctrLen).toNat < 2 ^ 26 - 1 := by decide
  refine trace_invariant (P := fun r : Regs => (r.compareNext i).toNat < 2 ^ 26 - 1) (a := 0)
    (b := t) hstart (fun j _ _ r hr => ?_) t (Nat.zero_le t) (Nat.le_refl t)
  rcases clock_cases (x j) i with h | h | h
  · rw [(step_reset_lane h).2]
    exact hr
  · have hlt : (r.compare i).toNat < 2 ^ 26 := (r.compare i).isLt
    rw [(step_write_lane h).2, fade_toNat]
    omega
  · have hlt : (r.compare i).toNat < 2 ^ 26 := (r.compare i).isLt
    rw [(step_idle_lane h).2, fade_toNat]
    omega

/-- Full duty before a clock was written on the clock just before it. -/
theorem writes_of_compare_max {t : ℕ} (h : 2 ^ 26 - 1 ≤ ((run powerUp x t).compare i).toNat) :
    ∃ p, t = p + 1 ∧ (x p).writes i = true := by
  cases t with
  | zero =>
    have h0 : ((run powerUp x 0).compare i).toNat = 0 := rfl
    omega
  | succ p =>
    refine ⟨p, rfl, ?_⟩
    rw [run, trace_succ] at h
    rcases clock_cases (x p) i with hp | hp | hp
    · rw [(step_reset_lane hp).1] at h
      exact absurd h (by decide)
    · exact hp
    · rw [(step_idle_lane hp).1] at h
      exact absurd h (Nat.not_le.mpr (compareNext_lt x i p))

/-! ## 3. Where the registers fall out of step -/

/-- After a write, the registers are in step exactly when the clock before it was a write too:
only then does the second register follow the first one from full duty. -/
theorem inStep_after_write {t : ℕ} (hw : (x t).writes i = true) :
    InStep (run powerUp x (t + 1)) i ↔ ∃ p, t = p + 1 ∧ (x p).writes i = true := by
  have hstep := step_write_lane (s := run powerUp x t) hw
  have hlt : ((run powerUp x t).compare i).toNat < 2 ^ 26 := ((run powerUp x t).compare i).isLt
  have hmax : maxDuty.toNat = 2 ^ 26 - 1 := rfl
  rw [run, trace_succ, InStep, KeepsOrDecrements, hstep.1, hstep.2, fade_toNat, hmax]
  constructor
  · intro h
    exact writes_of_compare_max (x := x) (by omega)
  · rintro ⟨p, rfl, hp⟩
    have hfull : (run powerUp x (p + 1)).compare i = maxDuty := (step_write_lane hp).1
    rw [hfull, hmax]
    omega

/-- After a reset, the registers are in step exactly when the second one is at 0 like the
first. -/
theorem inStep_after_reset {t : ℕ} (hr : (x t).rstReset = true) :
    InStep (run s x (t + 1)) i ↔ (run s x (t + 1)).compareNext i = 0 := by
  have hzero : (run s x (t + 1)).compare i = 0 := (step_reset_lane hr).1
  rw [InStep, KeepsOrDecrements, hzero]
  constructor
  · intro h
    exact BitVec.eq_of_toNat_eq (Nat.le_zero.mp h.1)
  · intro h
    rw [h]
    decide

/-! ## 4. The fade a write leaves behind -/

/-- The clocks after `w` and before `t` that do not reset: the turns that the fade of a write at
clock `w` has taken before clock `t`. -/
def turns (x : ℕ → In) (w t : ℕ) : ℕ :=
  ((Finset.Ioo w t).filter fun u => (x u).rstReset = false).card

@[simp] theorem turns_start (x : ℕ → In) (w : ℕ) : turns x w (w + 1) = 0 := by
  rw [turns, Finset.card_eq_zero, Finset.filter_eq_empty_iff]
  intro u hu
  have hbetween := Finset.mem_Ioo.mp hu
  omega

theorem turns_succ {w t : ℕ} (hwt : w < t) :
    turns x w (t + 1) = turns x w t + if (x t).rstReset = false then 1 else 0 := by
  have hinsert : Finset.Ioo w (t + 1) = insert t (Finset.Ioo w t) := by
    ext u
    simp only [Finset.mem_Ioo, Finset.mem_insert]
    omega
  have hout : t ∉ (Finset.Ioo w t).filter fun u => (x u).rstReset = false := by simp
  rw [turns, turns, hinsert, Finset.filter_insert]
  split
  · rw [Finset.card_insert_of_notMem hout]
  · rfl

theorem turns_reset {w t : ℕ} (hwt : w < t) (h : (x t).rstReset = true) :
    turns x w (t + 1) = turns x w t := by
  simp [turns_succ hwt, h]

theorem turns_clock {w t : ℕ} (hwt : w < t) (h : (x t).rstReset = false) :
    turns x w (t + 1) = turns x w t + 1 := by
  simp [turns_succ hwt, h]

/-- Nothing has ended the fade of a write at clock `w` before clock `t`: no reset on a turn that it
spends in `compare[i]`, and no write on a turn that it spends in `compare_next[i]`. -/
def Lasts (x : ℕ → In) (i : Fin 26) (w t : ℕ) : Prop :=
  ∀ u, w < u → u < t →
    if turns x w u % 2 = 0 then (x u).rstReset = false else (x u).writes i = false

theorem lasts_start (x : ℕ → In) (i : Fin 26) (w : ℕ) : Lasts x i w (w + 1) :=
  fun u h1 h2 => absurd h1 (by omega)

theorem Lasts.before {w t : ℕ} (h : Lasts x i w (t + 1)) : Lasts x i w t :=
  fun u h1 h2 => h u h1 (by omega)

theorem Lasts.even {w t : ℕ} (h : Lasts x i w t) (hev : turns x w t % 2 = 0)
    (ht : (x t).rstReset = false) : Lasts x i w (t + 1) := by
  intro u h1 h2
  rcases Nat.lt_succ_iff_lt_or_eq.mp h2 with hlt | rfl
  · exact h u h1 hlt
  · rwa [if_pos hev]

theorem Lasts.odd {w t : ℕ} (h : Lasts x i w t) (hodd : turns x w t % 2 = 1)
    (ht : (x t).writes i = false) : Lasts x i w (t + 1) := by
  intro u h1 h2
  rcases Nat.lt_succ_iff_lt_or_eq.mp h2 with hlt | rfl
  · exact h u h1 hlt
  · rwa [if_neg (by omega)]

/-- On a clock that does not reset, the second register takes the first one, decremented. -/
theorem step_next_lane {y : In} (h : y.rstReset = false) :
    (step s y).compareNext i = fade (s.compare i) := by
  simp [step, nextCompareNext, h]

/-- **Where a fade is.**  A fade that lasts is in the first register after an even number of turns
and in the second after an odd number, one step lower each time it gets there. -/
theorem Lasts.place {w t : ℕ} (hw : (x w).writes i = true) (hwt : w < t) (h : Lasts x i w t) :
    (turns x w t % 2 = 0 →
        ((run s x t).compare i).toNat = 2 ^ 26 - 1 - turns x w t / 2) ∧
      (turns x w t % 2 = 1 →
        ((run s x t).compareNext i).toNat = 2 ^ 26 - 1 - (turns x w t + 1) / 2) := by
  induction t, hwt using Nat.le_induction with
  | base =>
    have hfull : (run s x (w + 1)).compare i = maxDuty := (step_write_lane hw).1
    rw [turns_start, hfull]
    exact ⟨fun _ => rfl, fun h1 => absurd h1 (by decide)⟩
  | succ t hwt ih =>
    obtain ⟨hev, hodd⟩ := ih h.before
    have hnow := h t hwt (Nat.lt_succ_self t)
    rw [run, trace_succ]
    rcases Nat.mod_two_eq_zero_or_one (turns x w t) with hpar | hpar
    · -- in the first register, and not reset: it moves to the second
      rw [if_pos hpar] at hnow
      rw [turns_clock hwt hnow, step_next_lane hnow, fade_toNat, hev hpar]
      exact ⟨fun h0 => by omega, fun _ => by omega⟩
    · -- in the second register, and not written: it comes forward or is held by a reset
      rw [if_neg (by omega)] at hnow
      rcases clock_cases (x t) i with hc | hc | hc
      · rw [turns_reset hwt hc, (step_reset_lane hc).2]
        exact ⟨fun h0 => by omega, hodd⟩
      · rw [hnow] at hc
        exact absurd hc (by decide)
      · rw [turns_clock hwt (idle_iff.mp hc).1, (step_idle_lane hc).1, hodd hpar]
        exact ⟨fun _ => by omega, fun h1 => by omega⟩

/-- **Where a threshold comes from.**  Over a run from power-up, what is in a register and not 0
is the lasting fade of an earlier write. -/
theorem exists_write_of_ne_zero (x : ℕ → In) (i : Fin 26) (t : ℕ) :
    ((run powerUp x t).compare i ≠ 0 →
        ∃ w < t, (x w).writes i = true ∧ Lasts x i w t ∧ turns x w t % 2 = 0) ∧
      ((run powerUp x t).compareNext i ≠ 0 →
        ∃ w < t, (x w).writes i = true ∧ Lasts x i w t ∧ turns x w t % 2 = 1) := by
  induction t with
  | zero => exact ⟨fun h => absurd rfl h, fun h => absurd rfl h⟩
  | succ t ih =>
    obtain ⟨hfront, hback⟩ := ih
    have hforward : (x t).rstReset = false → (run powerUp x (t + 1)).compareNext i ≠ 0 →
        ∃ w < t + 1, (x w).writes i = true ∧ Lasts x i w (t + 1) ∧ turns x w (t + 1) % 2 = 1 := by
      intro hr hne
      have hne' : (run powerUp x t).compare i ≠ 0 := by
        intro h0
        rw [run, trace_succ, step_next_lane hr, ← run, h0] at hne
        exact hne (by decide)
      obtain ⟨w, hwt, hw, hlasts, hev⟩ := hfront hne'
      exact ⟨w, by omega, hw, hlasts.even hev hr, by rw [turns_clock hwt hr]; omega⟩
    rw [run, trace_succ]
    rcases clock_cases (x t) i with hc | hc | hc
    · have hwrites : (x t).writes i = false := by simp [In.writes, hc]
      rw [(step_reset_lane hc).1, (step_reset_lane hc).2]
      refine ⟨fun h => absurd rfl h, fun hne => ?_⟩
      obtain ⟨w, hwt, hw, hlasts, hodd⟩ := hback hne
      exact ⟨w, by omega, hw, hlasts.odd hodd hwrites, by rwa [turns_reset hwt hc]⟩
    · refine ⟨fun _ => ⟨t, Nat.lt_succ_self t, hc, lasts_start x i t, ?_⟩,
        hforward (writes_iff.mp hc).1⟩
      rw [turns_start]
    · obtain ⟨hr, hsel⟩ := idle_iff.mp hc
      have hwrites : (x t).writes i = false := by simp [In.writes, hsel]
      refine ⟨fun hne => ?_, hforward hr⟩
      rw [(step_idle_lane hc).1] at hne
      obtain ⟨w, hwt, hw, hlasts, hodd⟩ := hback hne
      exact ⟨w, by omega, hw, hlasts.odd hodd hwrites, by rw [turns_clock hwt hr]; omega⟩

/-- Before clock `t`, a write at clock `w` has left its fade behind in the second register: nothing
has ended it, and it has taken an odd number of turns, too few to have run out. -/
def LeavesFade (x : ℕ → In) (i : Fin 26) (w t : ℕ) : Prop :=
  (x w).writes i = true ∧ Lasts x i w t ∧ turns x w t % 2 = 1 ∧
    (turns x w t + 1) / 2 < 2 ^ 26 - 1

/-- Over a run from power-up the second register is at 0 exactly when no write has left its fade
there. -/
theorem compareNext_eq_zero_iff (x : ℕ → In) (i : Fin 26) (t : ℕ) :
    (run powerUp x t).compareNext i = 0 ↔ ∀ w < t, ¬ LeavesFade x i w t := by
  constructor
  · rintro h0 w hwt ⟨hw, hlasts, hodd, hleft⟩
    have hplace := (hlasts.place (s := powerUp) hw hwt).2 hodd
    rw [h0] at hplace
    have hzero : (0 : BitVec ctrLen).toNat = 0 := rfl
    omega
  · intro hnone
    by_contra hne
    obtain ⟨w, hwt, hw, hlasts, hodd⟩ := (exists_write_of_ne_zero x i t).2 hne
    have hplace := (hlasts.place (s := powerUp) hw hwt).2 hodd
    have hpos : 0 < ((run powerUp x t).compareNext i).toNat :=
      Nat.pos_of_ne_zero fun h0 => hne (BitVec.eq_of_toNat_eq h0)
    exact hnone w hwt ⟨hw, hlasts, hodd, by omega⟩

/-- So after a reset the registers are in step exactly when no write had left its fade behind. -/
theorem inStep_after_reset_iff {t : ℕ} (hr : (x t).rstReset = true) :
    InStep (run powerUp x (t + 1)) i ↔ ∀ w < t, ¬ LeavesFade x i w t := by
  have hheld : (run powerUp x (t + 1)).compareNext i = (run powerUp x t).compareNext i :=
    (step_reset_lane hr).2
  rw [inStep_after_reset hr, hheld, compareNext_eq_zero_iff]

/-! ## 5. The exact condition -/

/-- **When an LED fades smoothly.**  Over a run from power-up the law holds at LED `i` if and only
if every idle clock that directly follows a write of it follows two writes in a row, and no reset
that an idle clock directly follows comes while a write has left its fade behind. -/
theorem smooth_iff (x : ℕ → In) (i : Fin 26) :
    FadesSmoothly x i ↔ ∀ t, (x (t + 1)).idle i = true →
      ((x t).writes i = true → ∃ p, t = p + 1 ∧ (x p).writes i = true) ∧
        ((x t).rstReset = true → ∀ w < t, ¬ LeavesFade x i w t) := by
  constructor
  · rintro ⟨-, hlaw⟩ t hidle
    have hstep : InStep (run powerUp x (t + 1)) i :=
      (keepsOrDecrements_iff hidle).mp (hlaw (t + 1) hidle)
    exact ⟨fun hw => (inStep_after_write hw).mp hstep,
      fun hr => (inStep_after_reset_iff hr).mp hstep⟩
  · intro hcond
    -- induction on the clock: idle clocks pass the invariant on, the condition restores it
    have hinv : ∀ t, (x t).idle i = true → InStep (run powerUp x t) i := by
      intro t
      induction t with
      | zero =>
        have hstart : KeepsOrDecrements 0 0 := by decide
        exact fun _ => hstart
      | succ t ih =>
        intro hidle
        obtain ⟨hwrite, hreset⟩ := hcond t hidle
        rcases clock_cases (x t) i with h | h | h
        · exact (inStep_after_reset_iff h).mpr (hreset h)
        · exact (inStep_after_write h).mpr (hwrite h)
        · exact (ih h).idle h
    exact ⟨fun t hw => (step_write_lane hw).1,
      fun t hidle => (keepsOrDecrements_iff hidle).mpr (hinv t hidle)⟩

/-- **A single write flickers.**  Bit 0 written at clock 0 and nothing after it: the threshold of
LED 0 is full, then 0, then one less than full. -/
theorem write_flickers :
    let x : ℕ → In := fun t => ⟨false, decide (t = 0), 1⟩
    (run powerUp x 1).compare 0 = maxDuty ∧ (run powerUp x 2).compare 0 = 0 ∧
      (run powerUp x 3).compare 0 = maxDuty - 1 ∧ (x 1).idle 0 = true ∧ (x 2).idle 0 = true ∧
      ¬ FadesSmoothly x 0 := by
  refine ⟨by decide, by decide, by decide, by decide, by decide, ?_⟩
  rintro ⟨-, hlaw⟩
  exact absurd (hlaw 1 (by decide)) (by decide)

end MotorPid.Lights
