/-
# The fade law of the LED component

`compare[i]` and `compare_next[i]` are the two registers of a `TwoPhase` loop around the guarded
decrement, and a write of bit `i` is a load of full duty (`run_lane`).  So an LED holds two fades
that take turns: a write restarts the one whose turn it is and leaves the other alone.  Started
from zero and never reset, the threshold is therefore a closed form of the latest write on its
own turn (`fade_law`).
-/
import MotorPid.Lights.Model
import MotorPid.Clocked.TwoPhase
import Mathlib.Order.Bounds.Basic

namespace MotorPid.Lights

open Clocked TwoPhase

variable {s : Regs} {i : Fin 26}

/-! ## 1. The two fades of an LED -/

/-- The two registers of LED `i`. -/
def Regs.lane (s : Regs) (i : Fin 26) : Pair (BitVec ctrLen) := ⟨s.compare i, s.compareNext i⟩

/-- What a clock loads into the threshold of LED `i`. -/
def In.load (x : In) (i : Fin 26) : Option (BitVec ctrLen) :=
  if x.selects i then some maxDuty else none

theorem load_eq_none {x : In} (h : x.selects i = false) : x.load i = none := by
  simp [In.load, h]

theorem load_eq_some {x : In} (h : x.selects i = true) : x.load i = some maxDuty := by
  simp [In.load, h]

/-- A non-reset clock is a clock of the loop. -/
theorem step_lane {x : In} (h : x.rstReset = false) :
    (step s x).lane i = tick fade (s.lane i) (x.load i) := by
  cases hs : x.selects i <;>
    simp [Regs.lane, tick, In.load, step, nextCompare, nextCompareNext, h, hs]

/-- **The run lemma.**  Without resets the two registers of an LED run as the loop does. -/
theorem run_lane {x : ℕ → In} {t : ℕ} (hx : ∀ j < t, (x j).rstReset = false) :
    (run s x t).lane i = trace (tick fade) (s.lane i) (fun j => (x j).load i) t :=
  trace_relate (R := fun (r : Regs) p => r.lane i = p) (b := t) rfl
    (fun j hj r p hr => by rw [step_lane (hx j hj), hr]) t (Nat.le_refl t)

theorem run_compare {x : ℕ → In} {t : ℕ} (hx : ∀ j < t, (x j).rstReset = false) :
    (run s x t).compare i = frontAt fade (s.lane i) (fun j => (x j).load i) t :=
  congrArg Pair.front (run_lane hx)

theorem fade_iterate_toNat (v : BitVec ctrLen) : ∀ n : ℕ, (fade^[n] v).toNat = v.toNat - n
  | 0 => rfl
  | n + 1 => by
    rw [Function.iterate_succ_apply', fade_toNat, fade_iterate_toNat v n]
    omega

theorem fade_iterate_zero (n : ℕ) : fade^[n] 0 = 0 := by
  apply BitVec.eq_of_toNat_eq
  rw [fade_iterate_toNat]
  exact Nat.zero_sub n

/-! ## 2. The closed form -/

/-- The latest write on the turn of clock `t - 1` decides the threshold before clock `t`. -/
theorem compare_of_latest {x : ℕ → In} (hx : ∀ j, (x j).rstReset = false) {t w : ℕ}
    (hw : IsGreatest {w | w < t ∧ w % 2 = (t - 1) % 2 ∧ (x w).selects i = true} w) :
    ((run s x t).compare i).toNat = 2 ^ 26 - 1 - (t - 1 - w) / 2 := by
  obtain ⟨⟨hlt, hpar, hsel⟩, hmax⟩ := hw
  obtain ⟨n, rfl⟩ : ∃ n, t = w + 1 + 2 * n := ⟨(t - 1 - w) / 2, by omega⟩
  have hlater : ∀ j < n, (x (w + 2 * j + 2)).load i = none := by
    intro j hj
    refine load_eq_none (Bool.eq_false_iff.mpr fun hs => ?_)
    have hle : w + 2 * j + 2 ≤ w := hmax ⟨by omega, by omega, hs⟩
    omega
  have hturns : (w + 1 + 2 * n - 1 - w) / 2 = n := by omega
  rw [run_compare fun j _ => hx j, front_of_load (load_eq_some hsel) hlater, fade_iterate_toNat,
    hturns]
  rfl

/-- With no write on the turn of clock `t - 1` since power-up, the threshold is 0. -/
theorem compare_of_none {x : ℕ → In} (hx : ∀ j, (x j).rstReset = false) {t : ℕ}
    (hnone : ∀ w < t, w % 2 = (t - 1) % 2 → (x w).selects i = false) :
    (run powerUp x t).compare i = 0 := by
  rw [run_compare fun j _ => hx j]
  obtain ⟨n, rfl | rfl⟩ : ∃ n, t = 2 * n ∨ t = 2 * n + 1 := ⟨t / 2, by omega⟩
  · have hload : ∀ j < n, (x (0 + 2 * j + 1)).load i = none := fun j hj =>
      load_eq_none (hnone _ (by omega) (by omega))
    rw [← Nat.zero_add (2 * n), front_iterate hload]
    exact fade_iterate_zero n
  · have hload : ∀ j < n, (x (1 + 2 * j + 1)).load i = none := fun j hj =>
      load_eq_none (hnone _ (by omega) (by omega))
    have hfirst : frontAt fade (powerUp.lane i) (fun j => (x j).load i) 1 = 0 := by
      rw [frontAt_succ, load_eq_none (hnone 0 (by omega) (by omega))]
      rfl
    rw [Nat.add_comm, front_iterate hload, hfirst, fade_iterate_zero]

/-- Every two clocks a fade loses one step, and nothing else happens to it: from 0 it stays at
0. -/
theorem compare_add_two {x : ℕ → In} (hx : ∀ j, (x j).rstReset = false) (t : ℕ) :
    ((run s x (t + 2)).compare i).toNat =
      if (x (t + 1)).selects i then 2 ^ 26 - 1 else ((run s x t).compare i).toNat - 1 := by
  rw [run_compare fun j _ => hx j, run_compare fun j _ => hx j, frontAt_add_two]
  cases hs : (x (t + 1)).selects i with
  | true => rw [load_eq_some hs]; rfl
  | false => rw [load_eq_none hs, Option.getD_none, fade_toNat]; rfl

/-! ## 3. What an LED depends on -/

/-- The registers that LED `i` depends on. -/
def Regs.view (s : Regs) (i : Fin 26) :
    BitVec ctrLen × BitVec ctrLen × BitVec ctrLen × BitVec ctrLen × Bool :=
  (s.counter, s.counterNext, s.compare i, s.compareNext i, s.ledsNewSignal i)

/-- A clock changes them as a function of themselves, the reset and bit `i` of a write. -/
theorem step_view {s s' : Regs} {x y : In} (hs : s.view i = s'.view i)
    (hr : x.rstReset = y.rstReset) (hsel : x.selects i = y.selects i) :
    (step s x).view i = (step s' y).view i := by
  simp only [Regs.view, Prod.mk.injEq] at hs
  obtain ⟨h1, h2, h3, h4, h5⟩ := hs
  simp [Regs.view, step, nextCounter, nextCounterNext, nextCompare, nextCompareNext,
    nextLedsNewSignal, Regs.pwmBits, h1, h2, h3, h4, hr, hsel]

/-- With a zero threshold the LED is dark after the next clock. -/
theorem dark_of_compare_zero {x : In} (h : s.compare i = 0) :
    (step s x).ledsNewSignal i = false := by
  have hoff : s.pwmBits i = false := by
    rw [← Bool.not_eq_true, pwmBits_eq_true, h]
    exact Nat.not_lt_zero _
  simp [step, nextLedsNewSignal, hoff]

/-- Once both fades of an LED are at 0 they stay there until it is written. -/
theorem compare_zero_of_ended {x : ℕ → In} (hx : ∀ j, (x j).rstReset = false) {T : ℕ}
    (h0 : (run s x T).compare i = 0) (h1 : (run s x (T + 1)).compare i = 0)
    (hidle : ∀ t, T ≤ t → (x t).selects i = false) :
    ∀ t, T ≤ t → (run s x t).compare i = 0 ∧ (run s x (t + 1)).compare i = 0 := by
  intro t ht
  induction t, ht using Nat.le_induction with
  | base => exact ⟨h0, h1⟩
  | succ t ht ih =>
    have hnext := compare_add_two (s := s) (i := i) hx t
    rw [hidle _ (by omega), ih.1] at hnext
    exact ⟨ih.2, BitVec.eq_of_toNat_eq hnext⟩

/-! ## 4. The fade law -/

/-- **The fade law.**  From power-up and without a reset, the threshold of LED `i` before clock
`t` is full duty less half the time since the latest write on the turn of clock `t - 1`, floored
at 0, and is 0 if there was none: two fades, each losing one step every two clocks and staying
at 0.  Nothing but the writes of bit `i` enters, and an LED that is not written any more is dark
for ever once both fades have ended. -/
theorem fade_law {x : ℕ → In} (hx : ∀ j, (x j).rstReset = false) (i : Fin 26) :
    (∀ t w, IsGreatest {w | w < t ∧ w % 2 = (t - 1) % 2 ∧ (x w).selects i = true} w →
      ((run powerUp x t).compare i).toNat = 2 ^ 26 - 1 - (t - 1 - w) / 2) ∧
    (∀ t, (∀ w < t, w % 2 = (t - 1) % 2 → (x w).selects i = false) →
      (run powerUp x t).compare i = 0) ∧
    (∀ t, ((run powerUp x (t + 2)).compare i).toNat =
      if (x (t + 1)).selects i then 2 ^ 26 - 1 else ((run powerUp x t).compare i).toNat - 1) ∧
    (∀ y : ℕ → In, (∀ j, (y j).rstReset = false) → (∀ j, (x j).selects i = (y j).selects i) →
      ∀ t, (run powerUp x t).compare i = (run powerUp y t).compare i ∧
        (run powerUp x t).ledsNewSignal i = (run powerUp y t).ledsNewSignal i) ∧
    (∀ T, (run powerUp x T).compare i = 0 → (run powerUp x (T + 1)).compare i = 0 →
      (∀ t, T ≤ t → (x t).selects i = false) →
      ∀ t, T ≤ t → (run powerUp x t).compare i = 0 ∧
        (run powerUp x (t + 1)).ledsNewSignal i = false) := by
  refine ⟨fun t w hw => compare_of_latest hx hw, fun t hnone => compare_of_none hx hnone,
    compare_add_two hx, ?_, ?_⟩
  · intro y hy hsel t
    have hview : (run powerUp x t).view i = (run powerUp y t).view i :=
      trace_relate (R := fun r r' : Regs => r.view i = r'.view i) (b := t) rfl
        (fun j _ r r' hr => step_view hr ((hx j).trans (hy j).symm) (hsel j)) t (Nat.le_refl t)
    simp only [Regs.view, Prod.mk.injEq] at hview
    exact ⟨hview.2.2.1, hview.2.2.2.2⟩
  · intro T h0 h1 hidle t ht
    have hzero := (compare_zero_of_ended hx h0 h1 hidle t ht).1
    exact ⟨hzero, dark_of_compare_zero hzero⟩

/-- One write of LED 3 at clock 0: its fade has lost 500 steps before clock 1001. -/
theorem fade_law_single :
    ((run powerUp (fun t => ⟨false, decide (t = 0), 8⟩) 1001).compare 3).toNat
      = 2 ^ 26 - 1 - 500 := by
  refine (fade_law (x := fun t => ⟨false, decide (t = 0), 8⟩) (fun _ => rfl) 3).1 1001 0 ⟨?_, ?_⟩
  · exact ⟨by decide, by decide, by decide⟩
  · rintro w ⟨-, -, hsel⟩
    have hw : w = 0 := by simpa [In.selects] using (Bool.and_eq_true _ _).mp hsel |>.1
    exact Nat.le_of_eq hw

end MotorPid.Lights
