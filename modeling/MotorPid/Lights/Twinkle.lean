/-
# How bright a word makes an LED

"100% duty cycle" is what a word loads for the LED it picks, but into one of the LED's two fades
only.  If the LED was dark the other fade is at 0, and it is seen at every second clock.

`picked_half_lit`: until the next word, which is at least the shortest sleep away, a picked LED that
was dark is lit for almost a half of the clocks, of every period of the counter, and at no two
clocks in a row.
-/
import MotorPid.Lights.Period
import MotorPid.Lights.Program
import Mathlib.Order.SuccPred.Archimedean

namespace MotorPid.Lights

open Bus Clocked TwoPhase

/-! ## 1. The counter from power-up -/

theorem counter_toNat {x : ℕ → In} (hx : ∀ j, (x j).rstReset = false) (t : ℕ) :
    (run powerUp x t).counter.toNat = 8192 * (t / 2 % 8192) := by
  have hzero : (0 : BitVec ctrLen).toNat = 0 := rfl
  rw [run_count fun j _ => hx j]
  obtain ⟨n, rfl | rfl⟩ : ∃ n, t = 0 + 2 * n ∨ t = 1 + 2 * n := ⟨t / 2, by omega⟩
  · have hstart : frontAt (· + ctrIncr) powerUp.count (fun _ => none) 0 = 0 := rfl
    rw [front_iterate fun _ _ => rfl, hstart, incr_iterate_toNat, hzero]
    omega
  · have hstart : frontAt (· + ctrIncr) powerUp.count (fun _ => none) 1 = 0 := rfl
    rw [front_iterate fun _ _ => rfl, hstart, incr_iterate_toNat, hzero]
    omega

/-! ## 2. A word for a dark LED -/

/-- LED `i` is picked at clock `a` when it has been left alone for `2 ^ 27` clocks, which is how
long a fade takes, and is left alone afterwards for as long as the shortest sleep. -/
structure PickedDark (x : ℕ → In) (i : Fin 26) (a : ℕ) : Prop where
  noReset : ∀ j, (x j).rstReset = false
  picked : (x a).selects i = true
  before : ∀ u < a, a ≤ u + 2 ^ 27 → (x u).selects i = false
  after : ∀ u, a < u → u < a + 800002 → (x u).selects i = false

namespace PickedDark

variable {x : ℕ → In} {i : Fin 26} {a t : ℕ}

/-- The picked fade is seen at every second clock. -/
theorem compare_turn (hpick : PickedDark x i a) (hat : a < t) (hend : t ≤ a + 800002)
    (hturn : (t - a) % 2 = 1) :
    ((run powerUp x t).compare i).toNat = 2 ^ 26 - 1 - (t - 1 - a) / 2 := by
  refine compare_of_latest hpick.noReset ⟨⟨hat, by omega, hpick.picked⟩, ?_⟩
  rintro w ⟨hwt, -, hsel⟩
  by_contra hlt
  have hnot := hpick.after w (Nat.not_le.mp hlt) (by omega)
  exact Bool.noConfusion (hnot.symm.trans hsel)

/-- The other one has ended, if there ever was one. -/
theorem compare_other (hpick : PickedDark x i a) (hat : a < t) (hend : t ≤ a + 800002)
    (hturn : (t - a) % 2 = 0) : (run powerUp x t).compare i = 0 := by
  by_cases hex : {w | w < t ∧ w % 2 = (t - 1) % 2 ∧ (x w).selects i = true}.Nonempty
  · have hbdd : BddAbove {w | w < t ∧ w % 2 = (t - 1) % 2 ∧ (x w).selects i = true} :=
      ⟨t, fun w hw => hw.1.le⟩
    obtain ⟨w, hw⟩ := hbdd.exists_isGreatest_of_nonempty hex
    obtain ⟨hwt, hpar, hsel⟩ := hw.1
    have hwa : w < a := by
      by_contra hle
      have hnot := hpick.after w (by omega) (by omega)
      exact Bool.noConfusion (hnot.symm.trans hsel)
    have hlong : w + 2 ^ 27 < a := by
      by_contra hle
      have hnot := hpick.before w hwa (Nat.not_lt.mp hle)
      exact Bool.noConfusion (hnot.symm.trans hsel)
    have hzero : (0 : BitVec ctrLen).toNat = 0 := rfl
    apply BitVec.eq_of_toNat_eq
    rw [compare_of_latest hpick.noReset hw, hzero]
    omega
  · refine compare_of_none hpick.noReset fun w hwt hpar => ?_
    rw [← Bool.not_eq_true]
    exact fun hsel => hex ⟨w, hwt, hpar, hsel⟩

/-- **Never at two clocks in a row.** -/
theorem turn_of_lit (hpick : PickedDark x i a) (hat : a < t) (hend : t ≤ a + 800002)
    (hlit : (run powerUp x (t + 1)).ledsNewSignal i = true) : (t - a) % 2 = 1 := by
  by_contra hturn
  have hzero := hpick.compare_other hat hend (by omega)
  exact Bool.noConfusion ((dark_of_compare_zero hzero).symm.trans hlit)

/-- On its turn the LED is lit at all but the highest counts. -/
theorem lit_of_turn (hpick : PickedDark x i a) (hat : a < t) (hend : t < a + 800002)
    (hturn : (t - a) % 2 = 1) (hlow : t / 2 % 8192 < 8144) :
    (run powerUp x (t + 1)).ledsNewSignal i = true := by
  rw [lit_iff (hpick.noReset t), counter_toNat hpick.noReset, hpick.compare_turn hat hend.le hturn]
  omega

/-- The clocks of the turn in one period of the counter. -/
theorem le_count_turn (hpick : PickedDark x i a) {c e : ℕ} (hac : a < c)
    (hc : c + 2 ^ 14 ≤ a + 800002) (he : e < 2) (hturn : (c + e - a) % 2 = 1) :
    8144 ≤
      Nat.count (fun k => (run powerUp x (c + (2 * k + e) + 1)).ledsNewSignal i = true) 8192 := by
  have hlow : Nat.count (fun k => ((c + e) / 2 + k) % 8192 < 8144) 8192 = 8144 :=
    count_mod_lt (by decide) _
  rw [← hlow]
  refine Nat.count_mono_left fun k hk hcount => ?_
  have hhalf : (c + (2 * k + e)) / 2 = (c + e) / 2 + k := by omega
  exact hpick.lit_of_turn (by omega) (by omega) (by omega) (by rwa [hhalf])

/-- And between them it is dark. -/
theorem count_other (hpick : PickedDark x i a) {c e : ℕ} (hac : a < c)
    (hc : c + 2 ^ 14 ≤ a + 800002) (he : e < 2) (hturn : (c + e - a) % 2 = 0) :
    Nat.count (fun k => (run powerUp x (c + (2 * k + e) + 1)).ledsNewSignal i = true) 8192 = 0 := by
  refine Nat.count_iff_forall_not.mpr fun k hk hlit => ?_
  have hodd := hpick.turn_of_lit (by omega) (by omega) hlit
  omega

/-- **Half lit.** -/
theorem litClocks_bounds (hpick : PickedDark x i a) {c : ℕ} (hac : a < c)
    (hc : c + 2 ^ 14 ≤ a + 800002) :
    8144 ≤ litClocks powerUp x i c ∧ litClocks powerUp x i c ≤ 8192 := by
  have hlen : 2 ^ 14 = 2 * 8192 := rfl
  have hsplit : litClocks powerUp x i c
      = Nat.count (fun k => (run powerUp x (c + (2 * k + 0) + 1)).ledsNewSignal i = true) 8192
        + Nat.count (fun k => (run powerUp x (c + (2 * k + 1) + 1)).ledsNewSignal i = true)
          8192 := by
    rw [litClocks, hlen, count_two_mul]
    rfl
  rcases Nat.mod_two_eq_zero_or_one (c - a) with hpar | hpar
  · have hle : Nat.count (fun k =>
        (run powerUp x (c + (2 * k + 1) + 1)).ledsNewSignal i = true) 8192 ≤ 8192 := Nat.count_le _
    rw [hsplit, hpick.count_other hac hc Nat.two_pos hpar, Nat.zero_add]
    exact ⟨hpick.le_count_turn hac hc Nat.one_lt_two (by omega), hle⟩
  · have hle : Nat.count (fun k =>
        (run powerUp x (c + (2 * k + 0) + 1)).ledsNewSignal i = true) 8192 ≤ 8192 := Nat.count_le _
    rw [hsplit, hpick.count_other (e := 1) hac hc Nat.one_lt_two (by omega), Nat.add_zero]
    exact ⟨hpick.le_count_turn hac hc Nat.two_pos hpar, hle⟩

end PickedDark

/-! ## 3. The words of the program -/

variable {η : Type*}

theorem Twinkle.pickedDark {rand : ℕ → ℕ} {h zero : Packet η} {x : ℕ → TwinkleIn} {i : Fin 26}
    {a : ℕ} (hpick : (ledIns rand h zero x a).selects i = true)
    (hdark : ∀ u < a, a ≤ u + 2 ^ 27 → (ledIns rand h zero x u).selects i = false) :
    PickedDark (ledIns rand h zero x) i a where
  noReset := fun _ => rfl
  picked := hpick
  before := hdark
  after := by
    intro u hau hu
    rw [← Bool.not_eq_true]
    intro hsel
    have hapart := apart hau ((selects_iff a i).mp hpick).1 ((selects_iff u i).mp hsel).1
    omega

/-- **A word makes an LED half bright.**  Whenever the program picks an LED that it has not picked
in the `2 ^ 27` clocks before, then until the next word the LED is lit by at most 8192, and at least
8144, of any `2 ^ 14` clocks, and never by two in a row: "100% duty" is loaded into one fade of
two. -/
theorem picked_half_lit (rand : ℕ → ℕ) (h zero : Packet η) (x : ℕ → TwinkleIn) {i : Fin 26} {a : ℕ}
    (hpick : (Twinkle.ledIns rand h zero x a).selects i = true)
    (hdark : ∀ u < a, a ≤ u + 2 ^ 27 → (Twinkle.ledIns rand h zero x u).selects i = false) :
    (∀ c, a < c → c + 2 ^ 14 ≤ a + 800002 →
      8144 ≤ litClocks powerUp (Twinkle.ledIns rand h zero x) i c ∧
        litClocks powerUp (Twinkle.ledIns rand h zero x) i c ≤ 8192) ∧
    ∀ t, a < t → t ≤ a + 800002 →
      (Twinkle.run rand h zero x (t + 1)).regs.ledsNewSignal i = true → (t - a) % 2 = 1 := by
  have hpicked := Twinkle.pickedDark hpick hdark
  refine ⟨fun c hac hc => hpicked.litClocks_bounds hac hc, fun t hat hend hlit => ?_⟩
  rw [Twinkle.regs_run] at hlit
  exact hpicked.turn_of_lit hat hend hlit

/-- LED 0, picked by the first word. -/
theorem picked_half_lit_first : ∃ a,
    8144 ≤ litClocks powerUp (Twinkle.ledIns (fun k => 7 * k) ⟨.write, 0, 1, 2, 0, ()⟩
      ⟨.write, 0, 0, 0, 0, ()⟩ (fun _ => ⟨true, some 7, true, true⟩)) 0 (a + 1) := by
  have hfair : Twinkle.Fair 1 fun _ => ⟨true, some 7, true, true⟩ :=
    ⟨fun _ => ⟨0, Nat.one_pos, rfl⟩, fun _ => ⟨0, Nat.one_pos, rfl⟩, fun _ => ⟨0, Nat.one_pos, rfl⟩⟩
  have hpass : 0 < (Twinkle.run (fun k => 7 * k) ⟨.write, 0, 1, 2, 0, ()⟩ ⟨.write, 0, 0, 0, 0, ()⟩
      (fun _ => ⟨true, some 7, true, true⟩) (1 * (1440002 * 1))).main.passes := hfair.passes 1
  obtain ⟨a, -, htaken, hpasses⟩ := Twinkle.exists_taken hpass
  refine ⟨a, ((picked_half_lit _ _ _ _ (i := 0) (a := a) ?_ ?_).1 (a + 1) ?_ ?_).1⟩
  · exact (Twinkle.selects_iff a 0).mpr ⟨htaken, by rw [hpasses]; rfl⟩
  · -- no word before the first
    intro u hu _
    rw [← Bool.not_eq_true]
    intro hsel
    have hmore := Twinkle.passes_of_taken hu ((Twinkle.selects_iff u 0).mp hsel).1
    rw [hpasses] at hmore
    exact absurd hmore (Nat.not_lt_zero _)
  · exact Nat.lt_succ_self a
  · omega

end MotorPid.Lights
