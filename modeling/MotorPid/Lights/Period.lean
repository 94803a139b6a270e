/-
# From one PWM period to the next

Over a stretch of clocks that neither resets nor writes LED `i`, the counter has the period
`2^14` (`counter_period`) and the threshold of the LED, looked at every second clock, only counts
down (`compare_le`).  `2^14` is even, so a clock and the one a period later read the same one of
the two fades: an LED that is lit by the later clock was lit by the earlier one (`only_dim`).
The threshold itself need not fall from clock to clock, since the two fades take turns in it.
-/
import MotorPid.Lights.Counter
import MotorPid.Clocked.Window

namespace MotorPid.Lights

open Clocked TwoPhase

variable {s : Regs} {x : ℕ → In} {i : Fin 26}

/-! ## 1. One period -/

/-- Every second clock the threshold of an unwritten LED is where it was or lower. -/
theorem compare_le {t m : ℕ} (hx : ∀ j < t + 2 * m, (x j).idle i = true) :
    ((run s x (t + 2 * m)).compare i).toNat ≤ ((run s x t).compare i).toNat := by
  have hrst : ∀ j < t + 2 * m, (x j).rstReset = false := fun j hj => (idle_iff.mp (hx j hj)).1
  have hload : ∀ j < m, (x (t + 2 * j + 1)).load i = none := fun j hj =>
    load_eq_none (idle_iff.mp (hx _ (by omega))).2
  rw [run_compare hrst, run_compare fun j hj => hrst j (by omega), front_iterate hload,
    fade_iterate_toNat]
  exact Nat.sub_le _ _

/-- An LED is lit by a clock when the counter was below its threshold just before it. -/
theorem lit_iff {t : ℕ} (h : (x t).rstReset = false) :
    (run s x (t + 1)).ledsNewSignal i = true ↔
      (run s x t).counter.toNat < ((run s x t).compare i).toNat := by
  rw [run, trace_succ, (step_counter h).2.2, pwmBits_eq_true]

theorem lit_of_lit_period {t : ℕ} (hx : ∀ j ≤ t + 2 ^ 14, (x j).idle i = true)
    (hlit : (run s x (t + 2 ^ 14 + 1)).ledsNewSignal i = true) :
    (run s x (t + 1)).ledsNewSignal i = true := by
  have hrst : ∀ j ≤ t + 2 ^ 14, (x j).rstReset = false := fun j hj => (idle_iff.mp (hx j hj)).1
  have hcompare : ((run s x (t + 2 ^ 14)).compare i).toNat ≤ ((run s x t).compare i).toNat :=
    compare_le (m := 8192) fun j hj => hx j (Nat.le_of_lt hj)
  rw [lit_iff (hrst _ (Nat.le_refl _)), counter_period fun j hj => hrst j (Nat.le_of_lt hj)] at hlit
  rw [lit_iff (hrst t (Nat.le_add_right t _))]
  exact lt_of_lt_of_le hlit hcompare

/-! ## 2. The lit clocks of a period -/

/-- The number of the `2^14` clocks from clock `a` on by which LED `i` is lit. -/
def litClocks (s : Regs) (x : ℕ → In) (i : Fin 26) (a : ℕ) : ℕ :=
  Nat.count (fun j => (run s x (a + j + 1)).ledsNewSignal i = true) (2 ^ 14)

/-- A period later no more clocks are lit. -/
theorem litClocks_period_le {n a : ℕ} (hx : ∀ j < n, (x j).idle i = true)
    (ha : a + 2 ^ 14 + 2 ^ 14 ≤ n) : litClocks s x i (a + 2 ^ 14) ≤ litClocks s x i a := by
  refine Nat.count_mono_left ?_
  intro j hj hlit
  have hclock : a + 2 ^ 14 + j = a + j + 2 ^ 14 := by omega
  rw [hclock] at hlit
  exact lit_of_lit_period (fun m hm => hx m (by omega)) hlit

/-- **LEDs only dim.**  From any registers, over `n` clocks that neither reset nor write LED `i`:
an LED lit by a clock was lit by the clock one period before, and the number of lit clocks in
consecutive blocks of one period, wherever the first of them starts, never increases. -/
theorem only_dim {n : ℕ} (hx : ∀ j < n, (x j).idle i = true) :
    (∀ t, t + 2 ^ 14 < n → (run s x (t + 2 ^ 14 + 1)).ledsNewSignal i = true →
      (run s x (t + 1)).ledsNewSignal i = true) ∧
    ∀ a k k' : ℕ, k ≤ k' → a + k' * 2 ^ 14 + 2 ^ 14 ≤ n →
      litClocks s x i (a + k' * 2 ^ 14) ≤ litClocks s x i (a + k * 2 ^ 14) := by
  refine ⟨?_, ?_⟩
  · intro t ht
    exact lit_of_lit_period fun j hj => hx j (lt_of_le_of_lt hj ht)
  · intro a k k' hkk'
    have hnext : ∀ m, a + (m + 1) * 2 ^ 14 = a + m * 2 ^ 14 + 2 ^ 14 := fun m => by omega
    -- induction on the later block: it has no more lit clocks than the block before it
    induction k', hkk' using Nat.le_induction with
    | base =>
      intro _
      exact le_refl _
    | succ m _ ih =>
      intro hn
      rw [hnext] at hn ⊢
      exact le_trans (litClocks_period_le hx hn) (ih (le_trans (Nat.le_add_right _ _) hn))

/-- LED 0 over two periods, with its two fades at different thresholds and LED 1 written all the
time. -/
theorem only_dim_two_periods :
    litClocks ⟨5, 70000, fun _ => 900000, fun _ => 50, fun _ => true⟩ (fun _ => ⟨false, true, 2⟩) 0
        (2 ^ 14)
      ≤ litClocks ⟨5, 70000, fun _ => 900000, fun _ => 50, fun _ => true⟩
        (fun _ => ⟨false, true, 2⟩) 0 0 := by
  have hidle : (⟨false, true, 2⟩ : In).idle 0 = true := by decide
  have h := (only_dim (s := ⟨5, 70000, fun _ => 900000, fun _ => 50, fun _ => true⟩)
    (x := fun _ => ⟨false, true, 2⟩) (n := 2 ^ 15) fun _ _ => hidle).2 0 0 1 (by decide) (by decide)
  simpa only [Nat.zero_mul, Nat.one_mul, Nat.zero_add, Nat.add_zero] using h

end MotorPid.Lights
