/-
# What the position register says about the shaft

`motor.v` counts the rising edges of `c1`, up with `c2` high and down with it low: it is the
single-edge decoder of `Quadrature.Walk`, wrapped to 32 bits (`run_position`).  `c1_prev` is not
reset, but it follows `c1` on the reset clock too, so the first sample after a reset is compared
with the sample of the reset clock itself.

The register therefore holds the net number of passes through the c1-high half of the cycle,
with the same-side visits as its error (`position_modEq`), and it is within one cycle of the
displacement of the shaft exactly as far as that error allows (`position_tracks`); a visit that the
reset cut in two is part of the error for as long as its second half lasts.  A shaft that dithers
across one boundary moves the register on every visit and never back (`position_drifts`).
-/
import MotorPid.Motor.Model
import MotorPid.Quadrature.Walk
import Mathlib.Data.Int.ModEq
import Mathlib.Algebra.Order.Field.Rat
import Mathlib.Algebra.Order.Field.Basic
import Mathlib.Tactic.Linarith
import Mathlib.Tactic.NormNum

namespace MotorPid.Motor

open Clocked Quadrature

/-! ## 1. The register is a single-edge decoder -/

/-- The encoder sample of one clock. -/
def In.sample (x : In) : Sample := ⟨x.c1, x.c2⟩

/-- The samples from the reset clock `r` on. -/
def samples (x : ℕ → In) (r t : ℕ) : Sample := (x (r + t)).sample

/-- The position register just after clock `r + t`. -/
def positionAfter (s : Regs) (x : ℕ → In) (r t : ℕ) : BitVec 32 :=
  (run s x (r + 1 + t)).motorPositionIn

/-- One non-reset clock adds the edge between the previous sample of `c1` and this one. -/
theorem step_position {s : Regs} {x : In} (h : x.rstReset = false) {a : Sample}
    (ha : s.c1Prev = a.c1) :
    (step s x).motorPositionIn = s.motorPositionIn + BitVec.ofInt 32 (edge a x.sample) := by
  cases h1 : x.c1 <;> cases h2 : a.c1 <;> cases h3 : x.c2 <;>
    simp [step, nextMotorPositionIn, edge, In.sample, h, ha, h1, h2, h3, BitVec.sub_eq_add_neg]

theorem run_c1Prev (s : Regs) (x : ℕ → In) (r t : ℕ) :
    (run s x (r + 1 + t)).c1Prev = (samples x r t).c1 := by
  have hclock : r + 1 + t = r + t + 1 := by omega
  rw [hclock, run, trace_succ]
  rfl

/-- **The register is the single-edge count of the samples since the reset**, from any register
contents before it. -/
theorem run_position {s : Regs} {x : ℕ → In} {r t : ℕ} (hr : (x r).rstReset = true)
    (ht : ∀ j, r < j → j ≤ r + t → (x j).rstReset = false) :
    positionAfter s x r t = BitVec.ofInt 32 (singleEdge (samples x r) t) := by
  induction t with
  | zero => exact congrArg Regs.motorPositionIn (step_reset (s := run s x r) hr)
  | succ t ih =>
    have hprev := ih fun j h1 h2 => ht j h1 (by omega)
    have hclock : (x (r + 1 + t)).rstReset = false := ht _ (by omega) (by omega)
    have hsample : samples x r (t + 1) = (x (r + 1 + t)).sample :=
      congrArg (fun j => (x j).sample) (by omega)
    rw [positionAfter] at hprev
    rw [positionAfter, ← Nat.add_assoc, run, trace_succ,
      step_position hclock (run_c1Prev s x r t), hprev, ← BitVec.ofInt_add, ← hsample,
      singleEdge_succ]

/-! ## 2. The exact error -/

/-- The register, modulo its width, at any clock. -/
theorem position_toNat_modEq {s : Regs} {x : ℕ → In} {r t : ℕ} (hr : (x r).rstReset = true)
    (ht : ∀ j, r < j → j ≤ r + t → (x j).rstReset = false) :
    ((positionAfter s x r t).toNat : ℤ) ≡ singleEdge (samples x r) t [ZMOD 2 ^ 32] := by
  rw [run_position hr ht, BitVec.toNat_ofInt]
  have hnonneg : 0 ≤ singleEdge (samples x r) t % (2 ^ 32 : ℕ) :=
    Int.emod_nonneg _ (by decide)
  rw [Int.toNat_of_nonneg hnonneg]
  exact Int.mod_modEq _ _

/-- **The position is exact up to same-side visits.**  At a clock whose sample has c1 low, the
register is congruent to the net number of passes, plus the visits entered and left across the
01/11 boundary, less those entered and left across the 00/10 boundary.  On a walk that never
turns back while c1 is high it is the net number of passes. -/
theorem position_modEq {s : Regs} {x : ℕ → In} {r t : ℕ} (hr : (x r).rstReset = true)
    (ht : ∀ j, r < j → j ≤ r + t → (x j).rstReset = false)
    (hlow : (samples x r t).c1 = false) :
    ((positionAfter s x r t).toNat : ℤ) ≡ netPasses (samples x r) t
        + visits (samples x r) .rear .rear t - visits (samples x r) .front .front t
        [ZMOD 2 ^ 32] ∧
      (IsWalk (samples x r) → ¬ TurnsBackHigh (samples x r) →
        ((positionAfter s x r t).toNat : ℤ) ≡ netPasses (samples x r) t [ZMOD 2 ^ 32]) := by
  have hmod := position_toNat_modEq (s := s) hr ht
  have hcount := singleEdge_eq (samples x r) t
  rw [inProgress_of_low hlow, Int.add_zero] at hcount
  constructor
  · rw [Int.add_sub_assoc]
    exact hcount ▸ hmod
  · intro hw hT
    rw [sameSideExcess_eq_zero hw hT, Int.add_zero] at hcount
    exact hcount ▸ hmod

/-- One forward pass, dwelling inside it, from an arbitrary register content: up to clock 4 the
register has gone to 1. -/
theorem position_modEq_pass :
    ((positionAfter ⟨7, 3, false, true, false, 99, true⟩
      (fun t => ⟨decide (t = 0), false, 0, if t = 0 then 1 else if t = 3 then 2 else
        if t < 3 then 3 else 0⟩) 0 4).toNat : ℤ) ≡ 1 [ZMOD 2 ^ 32] :=
  (position_modEq (by decide) (fun j h _ => decide_eq_false (by omega)) (by decide)).1

/-! ## 3. The register against the displacement -/

theorem abs_sub_div_lt_one {a d : ℤ} (h : |4 * a - d| < 4) : |(a : ℚ) - d / 4| < 1 := by
  obtain ⟨h1, h2⟩ := abs_lt.mp h
  have h1' : (-4 : ℚ) < 4 * a - d := by exact_mod_cast h1
  have h2' : (4 * a - d : ℚ) < 4 := by exact_mod_cast h2
  rw [abs_lt]
  constructor <;> linarith

theorem abs_sub_div_le {a d : ℤ} (h : |4 * a - d| ≤ 5) : |(a : ℚ) - d / 4| ≤ 5 / 4 := by
  obtain ⟨h1, h2⟩ := abs_le.mp h
  have h1' : (-5 : ℚ) ≤ 4 * a - d := by exact_mod_cast h1
  have h2' : (4 * a - d : ℚ) ≤ 5 := by exact_mod_cast h2
  rw [abs_le]
  constructor <;> linarith

/-- **How far the position tracks the shaft.**  On every quadrature walk the register is modulo its
width a number that, less the excess of same-side visits, is within 1 of a quarter of the
displacement, and back at the displacement of the reset it is that excess: but where the visit in
progress on the reset clock was left at the boundary at which the present one was entered, the two
count as one more same-side visit, and the number is within 5/4.  That takes c1 high on both clocks.
Where the excess is 0, as it is on every walk that never turns back while c1 is high, the signed
register is itself as close to a quarter of the displacement. -/
theorem position_tracks {s : Regs} {x : ℕ → In} {r t : ℕ} (hr : (x r).rstReset = true)
    (ht : ∀ j, r < j → j ≤ r + t → (x j).rstReset = false) (hw : IsWalk (samples x r)) :
    (∃ P : ℤ, positionAfter s x r t = BitVec.ofInt 32 P ∧
      |((P - sameSideExcess (samples x r) t - reentry (samples x r) t : ℤ) : ℚ)
        - disp (samples x r) t / 4| < 1 ∧
      |((P - sameSideExcess (samples x r) t : ℤ) : ℚ) - disp (samples x r) t / 4| ≤ 5 / 4) ∧
    (disp (samples x r) t = 0 → positionAfter s x r t
      = BitVec.ofInt 32 (sameSideExcess (samples x r) t + reentry (samples x r) t)) ∧
    (sameSideExcess (samples x r) t = 0 → -2 ^ 31 ≤ disp (samples x r) t →
      disp (samples x r) t < 2 ^ 31 →
      |((positionAfter s x r t).toInt : ℚ) - disp (samples x r) t / 4| ≤ 5 / 4 ∧
        (reentry (samples x r) t = 0 →
          |((positionAfter s x r t).toInt : ℚ) - disp (samples x r) t / 4| < 1 ∧
            (disp (samples x r) t = 0 → positionAfter s x r t = 0))) ∧
    ((samples x r 0).c1 = false ∨ (samples x r t).c1 = false → reentry (samples x r) t = 0) ∧
    (¬ TurnsBackHigh (samples x r) → sameSideExcess (samples x r) t = 0) := by
  have hpos := run_position (s := s) hr ht
  obtain ⟨hlt, hle⟩ := abs_singleEdge_sub_disp hw t
  have hback : disp (samples x r) t = 0 → positionAfter s x r t
      = BitVec.ofInt 32 (sameSideExcess (samples x r) t + reentry (samples x r) t) := fun hd => by
    rw [hpos, singleEdge_of_disp_eq_zero hw hd]
  refine ⟨⟨_, hpos, abs_sub_div_lt_one hlt, abs_sub_div_le hle⟩, hback, ?_, reentry_of_low,
    fun hT => sameSideExcess_eq_zero hw hT t⟩
  intro hex hlo hhi
  rw [hex, Int.sub_zero] at hlt hle
  obtain ⟨h1, h2⟩ := abs_le.mp hle
  rw [hpos, BitVec.toInt_ofInt_eq_self (by decide) (by omega) (by omega)]
  refine ⟨abs_sub_div_le hle, fun hre => ⟨?_, fun hd => ?_⟩⟩
  · rw [hre, Int.sub_zero] at hlt
    exact abs_sub_div_lt_one hlt
  · rw [← hpos, hback hd, hex, hre]
    rfl

/-- Inside the c1-high half on the reset clock, and out of it across the front boundary: at clock 2
c1 is low, and the register is within 1 of half a count. -/
theorem position_tracks_start_high :
    |((positionAfter ⟨7, 3, false, true, false, 99, true⟩
      (fun t => ⟨decide (t = 0), false, 0, if t = 0 then 3 else if t = 1 then 2 else 0⟩) 0 2).toInt
        : ℚ) - (2 : ℤ) / 4| < 1 := by
  set y : ℕ → In := fun t => ⟨decide (t = 0), false, 0, if t = 0 then 3 else if t = 1 then 2 else 0⟩
  have hw : IsWalk (samples y 0) := by
    rintro (_ | _ | t)
    · decide
    · decide
    · exact Or.inl rfl
  have hd : disp (samples y 0) 2 = 2 := by decide
  have htrack := position_tracks (s := ⟨7, 3, false, true, false, 99, true⟩) (x := y) (r := 0)
    (t := 2) rfl (fun j h _ => decide_eq_false (by omega)) hw
  have hclose := (htrack.2.2.1 (by decide) (by decide) (by decide)).2 (by decide)
  rw [hd] at hclose
  exact hclose.1

/-- A reset clock at sample `a`, one clock at `b`, and back to `a` for good. -/
def dither (a b : BitVec 2) (t : ℕ) : In := ⟨decide (t = 0), false, 0, if t = 1 then b else a⟩

theorem isWalk_dither {a b : BitVec 2} (h : ∀ t < 2, samples (dither a b) 0 (t + 1)
      = (samples (dither a b) 0 t).next ∨ samples (dither a b) 0 t
      = (samples (dither a b) 0 (t + 1)).next) : IsWalk (samples (dither a b) 0) := by
  rintro (_ | _ | t)
  · exact Or.inr (h 0 (by decide))
  · exact Or.inr (h 1 (by decide))
  · exact Or.inl rfl

/-- **The register drifts under a dither.**  Two walks that are back at the displacement of the
reset with the register at 1: `01 -> 11 -> 01` steps into the c1-high half and out again across
the 01/11 boundary, and `11 -> 01 -> 11` is inside it on the reset clock and steps out and in. -/
theorem position_drifts :
    (IsWalk (samples (dither 1 3) 0) ∧ disp (samples (dither 1 3) 0) 2 = 0 ∧
      ∀ s, (positionAfter s (dither 1 3) 0 2).toInt = 1 ∧
        ¬ |((positionAfter s (dither 1 3) 0 2).toInt : ℚ)
            - disp (samples (dither 1 3) 0) 2 / 4| < 1) ∧
    (IsWalk (samples (dither 3 1) 0) ∧ disp (samples (dither 3 1) 0) 2 = 0 ∧
      ∀ s, (positionAfter s (dither 3 1) 0 2).toInt = 1 ∧
        ¬ |((positionAfter s (dither 3 1) 0 2).toInt : ℚ)
            - disp (samples (dither 3 1) 0) 2 / 4| < 1) := by
  have hbound : ¬ |((1 : ℤ) : ℚ) - ((0 : ℤ) : ℚ) / 4| < 1 := by norm_num
  have hclear : ∀ a b : BitVec 2, ∀ j, 0 < j → j ≤ 0 + 2 → (dither a b j).rstReset = false :=
    fun _ _ j h _ => decide_eq_false (by omega)
  have h13 : disp (samples (dither 1 3) 0) 2 = 0 := by decide
  have h31 : disp (samples (dither 3 1) 0) 2 = 0 := by decide
  refine ⟨⟨isWalk_dither (by decide), h13, fun s => ?_⟩,
    ⟨isWalk_dither (by decide), h31, fun s => ?_⟩⟩
  · have hpos : (positionAfter s (dither 1 3) 0 2).toInt = 1 := by
      rw [run_position rfl (hclear 1 3)]
      decide
    rw [h13, hpos]
    exact ⟨rfl, hbound⟩
  · have hpos : (positionAfter s (dither 3 1) 0 2).toInt = 1 := by
      rw [run_position rfl (hclear 3 1)]
      decide
    rw [h31, hpos]
    exact ⟨rfl, hbound⟩

end MotorPid.Motor
