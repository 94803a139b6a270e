/-
# How long `usleep` spins

Neither system has a timer, so `usleep` is `alt_busy_sleep`: it counts a register down in an
assembler loop, in pieces when the count does not fit an `int`.  Two loops are used, and they differ
in how they end: one goes on as long as the register is positive, the other until it is zero.

`busy_sleep_exact` gives the number of iterations for every argument.  16 for each microsecond,
since 50 MHz by 3 cycles an iteration is cut down to that; and of two arguments where the source
looks wrong, 0 is harmless, but every multiple of what a big loop is for leaves a rest of 0 for the
second kind of loop, which then goes all the way around.
-/
import Mathlib.Algebra.BigOperators.Group.List.Basic
import Mathlib.Algebra.Order.Ring.Nat
import Mathlib.Data.List.Forall2

namespace MotorPid.Hal

/-! ## 1. The assembler loops -/

/-- The branch at the end of a loop: `bne %0,zero` or `bgt %0,zero`. -/
inductive Branch where
  | bne
  | bgt

def Branch.taken : Branch → BitVec 32 → Bool
  | .bne, r => r != 0
  | .bgt, r => BitVec.slt 0 r

/-- `0: addi %0,%0,-1` and the branch back to it, entered with `r`, is left after `k` iterations. -/
inductive Spins (b : Branch) : BitVec 32 → ℕ → Prop
  | last {r : BitVec 32} (h : b.taken (r - 1) = false) : Spins b r 1
  | again {r : BitVec 32} {k : ℕ} (h : b.taken (r - 1) = true) (hs : Spins b (r - 1) k) :
    Spins b r (k + 1)

/-- How often a loop is run through. -/
def Branch.count : Branch → BitVec 32 → ℕ
  | .bne, r => if r = 0 then 2 ^ 32 else r.toNat
  | .bgt, r => if 0 < r.toNat ∧ r.toNat ≤ 2 ^ 31 then r.toNat else 1

theorem Spins.unique {b : Branch} {r : BitVec 32} {k k' : ℕ} (h : Spins b r k)
    (h' : Spins b r k') : k = k' := by
  induction h generalizing k' with
  | last h =>
    cases h' with
    | last => rfl
    | again htaken => exact Bool.noConfusion (h.symm.trans htaken)
  | again h _ ih =>
    cases h' with
    | last htaken => exact Bool.noConfusion (htaken.symm.trans h)
    | again _ hs => rw [ih hs]

theorem toNat_sub_one {r : BitVec 32} {n : ℕ} (hr : r.toNat = n + 1) : (r - 1).toNat = n := by
  have hle : (1 : BitVec 32) ≤ r := by
    rw [BitVec.le_def, hr]
    exact Nat.succ_le_succ (Nat.zero_le n)
  rw [BitVec.toNat_sub_of_le hle, hr]
  rfl

/-- `bgt` takes the register as a signed number. -/
theorem taken_bgt {r : BitVec 32} :
    Branch.bgt.taken r = decide (0 < r.toNat ∧ r.toNat < 2 ^ 31) := by
  have hlt := r.isLt
  have hsigned : Branch.bgt.taken r = decide (0 < r.toInt) := by
    rw [Branch.taken, BitVec.slt]
    rfl
  rw [hsigned, decide_eq_decide, BitVec.toInt_eq_toNat_cond]
  split <;> omega

/-- A loop that counts a positive register down. -/
theorem spins_of_pos {b : Branch} {n : ℕ} {r : BitVec 32} (hr : r.toNat = n + 1)
    (hsmall : b = .bgt → n < 2 ^ 31) : Spins b r (n + 1) := by
  induction n generalizing r with
  | zero =>
    have hzero : r - 1 = 0 := BitVec.eq_of_toNat_eq (toNat_sub_one hr)
    refine .last ?_
    rw [hzero]
    cases b <;> rfl
  | succ n ih =>
    have hnext := toNat_sub_one hr
    refine .again ?_ (ih hnext fun hb => Nat.lt_of_succ_lt (hsmall hb))
    cases b with
    | bne =>
      refine bne_iff_ne.mpr fun hzero => ?_
      rw [hzero] at hnext
      exact absurd hnext (Nat.succ_ne_zero n).symm
    | bgt =>
      rw [taken_bgt, decide_eq_true_iff, hnext]
      exact ⟨Nat.succ_pos n, hsmall rfl⟩

/-- **A loop is left after its count**, whatever it is entered with. -/
theorem spins_count (b : Branch) (r : BitVec 32) : Spins b r (b.count r) := by
  cases b with
  | bne =>
    have hcount : Branch.bne.count r = if r = 0 then 2 ^ 32 else r.toNat := rfl
    rw [hcount]
    by_cases hzero : r = 0
    · -- the register goes around
      have htop : ((0 : BitVec 32) - 1).toNat = 4294967294 + 1 := rfl
      have hrest : Spins .bne ((0 : BitVec 32) - 1) (4294967294 + 1) :=
        spins_of_pos htop fun hb => nomatch hb
      rw [if_pos hzero, hzero]
      exact .again rfl hrest
    · rw [if_neg hzero]
      have hne : r.toNat ≠ 0 := fun h0 => hzero (BitVec.eq_of_toNat_eq h0)
      obtain ⟨n, hn⟩ := Nat.exists_eq_succ_of_ne_zero hne
      rw [hn]
      exact spins_of_pos hn fun hb => nomatch hb
  | bgt =>
    have hcount : Branch.bgt.count r
        = if 0 < r.toNat ∧ r.toNat ≤ 2 ^ 31 then r.toNat else 1 := rfl
    rw [hcount]
    split
    · next hrange =>
      obtain ⟨n, hn⟩ := Nat.exists_eq_succ_of_ne_zero hrange.1.ne'
      rw [hn]
      refine spins_of_pos hn fun _ => ?_
      have hle := hrange.2
      omega
    · next hrange =>
      -- the first decrement leaves a negative number
      refine .last ?_
      rw [taken_bgt, decide_eq_false_iff_not]
      have hlt := r.isLt
      by_cases hzero : r = 0
      · rw [hzero]
        decide
      · have hne : r.toNat ≠ 0 := fun h0 => hzero (BitVec.eq_of_toNat_eq h0)
        obtain ⟨n, hn⟩ := Nat.exists_eq_succ_of_ne_zero hne
        rw [toNat_sub_one hn]
        omega

/-! ## 2. `alt_busy_sleep` -/

/-- `NIOS2_CPU_IMPLEMENTATION`, compared with "tiny". -/
inductive CpuImplementation where
  | tiny
  | fast

/-- `cycles_per_loop`. -/
def CpuImplementation.cyclesPerLoop : CpuImplementation → BitVec 32
  | .tiny => 9
  | .fast => 3

/-- `ALT_CPU_FREQ`. -/
def altCpuFreq : BitVec 32 := 50000000

def intMax : BitVec 32 := 0x7FFFFFFF

section

variable (cpu : CpuImplementation)

/-- `ALT_CPU_FREQ/(cycles_per_loop * 1000000)`. -/
def loopsPerUs : BitVec 32 := altCpuFreq / (cpu.cyclesPerLoop * 1000000)

/-- What one big loop is for. -/
def bigLoopUs : BitVec 32 := intMax / loopsPerUs cpu

/-- The `for` over the big loops, and what it leaves of `us`. -/
def bigLoops : ℕ → BitVec 32 → List (Branch × BitVec 32) × BitVec 32
  | 0, us => ([], us)
  | i + 1, us =>
    let rest := bigLoops i (us - bigLoopUs cpu)
    ((.bne, intMax) :: rest.1, rest.2)

/-- The loops `alt_busy_sleep` enters, with what they are entered with. -/
def altBusySleep (us : BitVec 32) : List (Branch × BitVec 32) :=
  let big := (us / bigLoopUs cpu).toNat
  if big ≠ 0 then
    let loops := bigLoops cpu big us
    loops.1 ++ [(.bne, loops.2 * loopsPerUs cpu)]
  else [(.bgt, us * loopsPerUs cpu)]

/-- `alt_busy_sleep` returns after `n` iterations in all. -/
def Sleeps (us : BitVec 32) (n : ℕ) : Prop :=
  ∃ counts, List.Forall₂ (fun loop k => Spins loop.1 loop.2 k) (altBusySleep cpu us) counts ∧
    counts.sum = n

/-- The iterations of all its loops. -/
def spinCount (us : BitVec 32) : ℕ :=
  ((altBusySleep cpu us).map fun loop => loop.1.count loop.2).sum

end

/-! ## 3. The number of iterations -/

theorem sleeps_iff {cpu : CpuImplementation} {us : BitVec 32} {n : ℕ} :
    Sleeps cpu us n ↔ n = spinCount cpu us := by
  have hcounts : ∀ (loops : List (Branch × BitVec 32)) (counts : List ℕ),
      List.Forall₂ (fun loop k => Spins loop.1 loop.2 k) loops counts ↔
        counts = loops.map fun loop => loop.1.count loop.2 := by
    intro loops counts
    constructor
    · intro h
      induction h with
      | nil => rfl
      | cons hspins _ ih => rw [List.map_cons, hspins.unique (spins_count _ _), ih]
    · rintro rfl
      induction loops with
      | nil => exact .nil
      | cons loop loops ih => exact .cons (spins_count _ _) ih
  unfold Sleeps spinCount
  constructor
  · rintro ⟨counts, hall, rfl⟩
    rw [(hcounts _ _).mp hall]
  · rintro rfl
    exact ⟨_, (hcounts _ _).mpr rfl, rfl⟩

section

variable {cpu : CpuImplementation} {us : BitVec 32}

variable (cpu us) in
/-- The big loops take their part of `us`, one after the other. -/
theorem bigLoops_eq (i : ℕ) (h : i * (bigLoopUs cpu).toNat ≤ us.toNat) :
    (bigLoops cpu i us).1 = List.replicate i (.bne, intMax) ∧
      (bigLoops cpu i us).2.toNat = us.toNat - i * (bigLoopUs cpu).toNat := by
  induction i generalizing us with
  | zero => exact ⟨rfl, by rw [Nat.zero_mul, Nat.sub_zero]; rfl⟩
  | succ i ih =>
    rw [Nat.succ_mul] at h
    have hle : bigLoopUs cpu ≤ us := by
      rw [BitVec.le_def]
      exact (Nat.le_add_left _ _).trans h
    have hsub : (us - bigLoopUs cpu).toNat = us.toNat - (bigLoopUs cpu).toNat :=
      BitVec.toNat_sub_of_le hle
    obtain ⟨hloops, hrest⟩ := ih (us - bigLoopUs cpu) (by omega)
    have hnext : bigLoops cpu (i + 1) us
        = ((.bne, intMax) :: (bigLoops cpu i (us - bigLoopUs cpu)).1,
          (bigLoops cpu i (us - bigLoopUs cpu)).2) := rfl
    rw [hnext]
    refine ⟨by rw [hloops, List.replicate_succ], ?_⟩
    rw [hrest, hsub, Nat.succ_mul]
    omega

variable (us) in
theorem mul_loopsPerUs (h : us.toNat < 134217727) :
    (us * loopsPerUs .fast).toNat = us.toNat * 16 := by
  have h16 : (loopsPerUs .fast).toNat = 16 := by decide
  rw [BitVec.toNat_mul, h16]
  exact Nat.mod_eq_of_lt (by omega)

theorem spinCount_fast (us : BitVec 32) :
    spinCount .fast us = 16 * us.toNat + 15 * (us.toNat / 134217727)
      + if us = 0 then 1 else if 134217727 ∣ us.toNat then 2 ^ 32 else 0 := by
  have hbig : (bigLoopUs .fast).toNat = 134217727 := by decide
  have hzero : us = 0 ↔ us.toNat = 0 := by rw [← BitVec.toNat_inj]; rfl
  have hdiv : (us / bigLoopUs .fast).toNat = us.toNat / 134217727 := by
    rw [BitVec.toNat_udiv, hbig]
  unfold spinCount altBusySleep
  simp only [hdiv, hzero]
  by_cases hq : us.toNat / 134217727 = 0
  · have hlt : us.toNat < 134217727 := by omega
    have hentered := mul_loopsPerUs us hlt
    rw [if_neg (not_not.mpr hq), List.map_singleton, List.sum_singleton, Branch.count, hentered]
    split <;> split <;> (try split) <;> omega
  · obtain ⟨hloops, hrest⟩ := bigLoops_eq .fast us (us.toNat / 134217727)
      (by rw [hbig]; omega)
    rw [hbig] at hrest
    have hentered := mul_loopsPerUs (bigLoops .fast (us.toNat / 134217727) us).2 (by omega)
    have hlast : (bigLoops .fast (us.toNat / 134217727) us).2 * loopsPerUs .fast = 0 ↔
        134217727 ∣ us.toNat := by
      rw [← BitVec.toNat_inj, hentered, hrest]
      change _ = 0 ↔ _
      omega
    have hone : Branch.bne.count intMax = 2147483647 := by decide
    rw [if_pos hq, List.map_append, List.sum_append, hloops, List.map_replicate, hone,
      List.sum_replicate_nat, List.map_singleton, List.sum_singleton, Branch.count]
    simp only [hlast, hentered, hrest]
    split <;> split <;> omega

end

/-- **How long the sleep is.**  For every argument `alt_busy_sleep` returns, after 16 iterations for
each microsecond and 15 for each of its big loops, and none besides: but for one where it is called
with 0, and but for `2 ^ 32` where the argument is a positive multiple of what a big loop is for. -/
theorem busy_sleep_exact (us : BitVec 32) (n : ℕ) :
    Sleeps .fast us n ↔ n = 16 * us.toNat + 15 * (us.toNat / 134217727)
      + if us = 0 then 1 else if 134217727 ∣ us.toNat then 2 ^ 32 else 0 := by
  rw [sleeps_iff, spinCount_fast]

/-- One big loop, and once around. -/
example : spinCount .fast 134217727 = 2 ^ 31 - 1 + 2 ^ 32 := by decide

end MotorPid.Hal
