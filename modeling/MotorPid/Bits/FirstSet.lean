/-
# The first set bit, by one addition

`x &&& (~~~x + 2 ^ p)` is the first bit of `x` that is set, counted from `p` upwards: the addition
carries through the clear bits of `x` and stops at the first set one (`getLsbD_isolate`).

To go on from the top to the bottom, the vector is put beside itself and the halves of the outcome
are joined: `cyclicFirst x p` is the set bit that comes first when counting from `p` upwards and
around (`cyclicFirst_cases`).
-/
import Mathlib.Data.Finset.Max
import Mathlib.Data.Finset.Range

namespace Bits

/-! ## 1. Upwards -/

/-- Bit `i` is the first that is set from `p` upwards. -/
def FirstSet {w : ℕ} (x : BitVec w) (p i : ℕ) : Prop :=
  p ≤ i ∧ x.getLsbD i = true ∧ ∀ j, p ≤ j → j < i → x.getLsbD j = false

section

variable {w : ℕ} {x : BitVec w} {p i : ℕ}

/-- The carry passes the bits of `x` that are clear. -/
theorem carry_not_twoPow (hp : p < w) (hi : i ≤ w) :
    BitVec.carry i (~~~x) (BitVec.twoPow w p) false = true
      ↔ p < i ∧ ∀ j, p ≤ j → j < i → x.getLsbD j = false := by
  induction i with
  | zero => simp
  | succ i ih =>
    have hcarry := ih (by omega)
    rw [BitVec.carry_succ, BitVec.getLsbD_not, BitVec.getLsbD_twoPow, decide_eq_true hp,
      decide_eq_true (show i < w from hi), Bool.true_and, Bool.true_and]
    by_cases hpi : p = i
    · have hnone : BitVec.carry i (~~~x) (BitVec.twoPow w p) false = false := by
        rw [← Bool.not_eq_true, hcarry]
        exact fun h => absurd h.1 (by omega)
      rw [hnone, decide_eq_true hpi, Bool.atLeastTwo_false_right, Bool.and_true,
        Bool.not_eq_true']
      constructor
      · intro hclear
        refine ⟨by omega, fun j hj hji => ?_⟩
        rwa [show j = i by omega]
      · exact fun h => h.2 i (by omega) (by omega)
    · rw [decide_eq_false hpi, Bool.atLeastTwo_false_mid, Bool.and_eq_true, hcarry,
        Bool.not_eq_true']
      constructor
      · rintro ⟨hclear, hlt, hbelow⟩
        refine ⟨by omega, fun j hj hji => ?_⟩
        rcases Nat.lt_succ_iff_lt_or_eq.mp hji with hlt | rfl
        · exact hbelow j hj hlt
        · exact hclear
      · rintro ⟨hlt, hbelow⟩
        exact ⟨hbelow i (by omega) (by omega), by omega, fun j hj hji => hbelow j hj (by omega)⟩

/-- **One addition finds the first set bit.** -/
theorem getLsbD_isolate (hp : p < w) (hi : i < w) :
    (x &&& (~~~x + BitVec.twoPow w p)).getLsbD i = true ↔ FirstSet x p i := by
  have hcarry := carry_not_twoPow (x := x) hp hi.le
  rw [BitVec.getLsbD_and, BitVec.getLsbD_add hi, BitVec.getLsbD_not, BitVec.getLsbD_twoPow,
    decide_eq_true hp, decide_eq_true hi, Bool.true_and, Bool.true_and]
  unfold FirstSet
  cases hx : x.getLsbD i with
  | false => simp
  | true =>
    by_cases hpi : p = i
    · have hnone : BitVec.carry i (~~~x) (BitVec.twoPow w p) false = false := by
        rw [← Bool.not_eq_true, hcarry]
        exact fun h => absurd h.1 (by omega)
      rw [hnone, decide_eq_true hpi]
      simp only [Bool.not_true, Bool.false_bne, Bool.bne_false, Bool.and_self, true_and, true_iff]
      exact ⟨hpi.le, fun j hj hji => absurd hj (by omega)⟩
    · rw [decide_eq_false hpi]
      simp only [Bool.not_true, Bool.false_bne, Bool.true_and, true_and]
      rw [hcarry]
      constructor
      · exact fun h => ⟨h.1.le, h.2⟩
      · exact fun h => ⟨lt_of_le_of_ne h.1 hpi, h.2⟩

end

/-! ## 2. Around -/

section

variable {n : ℕ}

/-- The double vector, and its halves joined. -/
def cyclicFirst (x : BitVec n) (p : ℕ) : BitVec n :=
  let double := (x ++ x) &&& (~~~(x ++ x) + BitVec.twoPow (n + n) p)
  double.extractLsb' 0 n ||| double.extractLsb' n n

/-- How far it is from `p` to `i`, going upwards and around. -/
def ahead (n p i : ℕ) : ℕ := (i + n - p) % n

variable {x : BitVec n} {p i : ℕ}

theorem ahead_lt (hn : 0 < n) : ahead n p i < n := Nat.mod_lt _ hn

theorem ahead_of_le (hp : p ≤ i) (hi : i < n) : ahead n p i = i - p := by
  rw [ahead, show i + n - p = i - p + n by omega, Nat.add_mod_right, Nat.mod_eq_of_lt (by omega)]

theorem ahead_of_lt (hp : p < n) (hi : i < p) : ahead n p i = i + n - p := by
  rw [ahead, Nat.mod_eq_of_lt (by omega)]

theorem getLsbD_double {j : ℕ} (hj : j < n) :
    (x ++ x).getLsbD j = x.getLsbD j ∧ (x ++ x).getLsbD (j + n) = x.getLsbD j := by
  constructor
  · rw [BitVec.getLsbD_append, if_pos hj]
  · rw [BitVec.getLsbD_append, if_neg (by omega), Nat.add_sub_cancel]

/-- **The first set bit around the vector**: that of all the set ones which is least far ahead. -/
theorem cyclicFirst_eq_true (hp : p < n) (hi : i < n) :
    (cyclicFirst x p).getLsbD i = true ↔
      x.getLsbD i = true ∧ ∀ j, j < n → x.getLsbD j = true → ahead n p i ≤ ahead n p j := by
  have hlow := getLsbD_isolate (x := x ++ x) (p := p) (i := i) (by omega) (by omega)
  have hhigh := getLsbD_isolate (x := x ++ x) (p := p) (i := i + n) (by omega) (by omega)
  have hself := getLsbD_double (x := x) hi
  unfold cyclicFirst
  rw [BitVec.getLsbD_or, BitVec.getLsbD_extractLsb', BitVec.getLsbD_extractLsb', decide_eq_true hi,
    Bool.true_and, Bool.true_and, Nat.zero_add, Nat.add_comm n i, Bool.or_eq_true, hlow, hhigh]
  unfold FirstSet
  rw [hself.1, hself.2]
  constructor
  · rintro (⟨hpi, hset, hbelow⟩ | ⟨-, hset, hbelow⟩)
    · refine ⟨hset, fun j hj hjset => ?_⟩
      rw [ahead_of_le hpi hi]
      by_cases hjp : j < p
      · rw [ahead_of_lt hp hjp]
        omega
      · rw [ahead_of_le (by omega) hj]
        by_contra hlt
        have hclear := hbelow j (by omega) (by omega)
        rw [(getLsbD_double hj).1, hjset] at hclear
        exact Bool.noConfusion hclear
    · refine ⟨hset, fun j hj hjset => ?_⟩
      -- a bit set from `p` to the top would have been found before the top is passed
      have hfar : ∀ k, p ≤ k → k < n → x.getLsbD k = false := by
        intro k hk hkn
        rw [← (getLsbD_double hkn).1]
        exact hbelow k hk (by omega)
      have hip : i < p := by
        by_contra hpi
        rw [hfar i (by omega) hi] at hset
        exact Bool.noConfusion hset
      have hjp : j < p := by
        by_contra hpj
        rw [hfar j (by omega) hj] at hjset
        exact Bool.noConfusion hjset
      rw [ahead_of_lt hp hip, ahead_of_lt hp hjp]
      by_contra hlt
      have hclear := hbelow (j + n) (by omega) (by omega)
      rw [(getLsbD_double hj).2, hjset] at hclear
      exact Bool.noConfusion hclear
  · rintro ⟨hset, hleast⟩
    have hclear : ∀ j, j < n → ahead n p j < ahead n p i → x.getLsbD j = false := by
      intro j hj hlt
      rw [← Bool.not_eq_true]
      exact fun hjset => absurd (hleast j hj hjset) (by omega)
    by_cases hpi : p ≤ i
    · rw [ahead_of_le hpi hi] at hclear
      refine .inl ⟨hpi, hset, fun j hj hji => ?_⟩
      rw [(getLsbD_double (by omega)).1]
      refine hclear j (by omega) ?_
      rw [ahead_of_le hj (by omega)]
      omega
    · rw [ahead_of_lt hp (by omega)] at hclear
      refine .inr ⟨by omega, hset, fun j hj hji => ?_⟩
      by_cases hjn : j < n
      · rw [(getLsbD_double hjn).1]
        refine hclear j hjn ?_
        rw [ahead_of_le hj hjn]
        omega
      · obtain ⟨k, rfl⟩ : ∃ k, j = k + n := ⟨j - n, by omega⟩
        rw [(getLsbD_double (by omega)).2]
        refine hclear k (by omega) ?_
        rw [ahead_of_lt hp (by omega)]
        omega

theorem ahead_inj {j : ℕ} (hp : p < n) (hi : i < n) (hj : j < n)
    (h : ahead n p i = ahead n p j) : i = j := by
  by_cases hpi : p ≤ i <;> by_cases hpj : p ≤ j
  · rw [ahead_of_le hpi hi, ahead_of_le hpj hj] at h
    omega
  · rw [ahead_of_le hpi hi, ahead_of_lt hp (by omega)] at h
    omega
  · rw [ahead_of_lt hp (by omega), ahead_of_le hpj hj] at h
    omega
  · rw [ahead_of_lt hp (by omega), ahead_of_lt hp (by omega)] at h
    omega

/-- When counting starts again behind `k`, all that was behind `k` is nearer by that much. -/
theorem ahead_next {k : ℕ} (hp : p < n) (hk : k < n) (hi : i < n)
    (h : ahead n p k < ahead n p i) :
    ahead n ((k + 1) % n) i = ahead n p i - ahead n p k - 1 := by
  have hnext : (k + 1) % n = if k + 1 = n then 0 else k + 1 := by
    split
    · next hlast => rw [hlast, Nat.mod_self]
    · exact Nat.mod_eq_of_lt (by omega)
  have hdist : ∀ q j, q < n → j < n → ahead n q j = if q ≤ j then j - q else j + n - q := by
    intro q j hq hj
    split
    · next hle => exact ahead_of_le hle hj
    · exact ahead_of_lt hq (by omega)
  rw [hdist p k hp hk, hdist p i hp hi] at h
  rw [hdist _ i (Nat.mod_lt _ (by omega)) hi, hdist p k hp hk, hdist p i hp hi, hnext]
  split at h <;> split at h <;> split <;> split <;> omega

/-- `k` itself is then the last. -/
theorem ahead_self {k : ℕ} (hk : k < n) : ahead n ((k + 1) % n) k = n - 1 := by
  by_cases hlast : k + 1 = n
  · rw [hlast, Nat.mod_self, ahead_of_le (Nat.zero_le k) hk]
    omega
  · rw [Nat.mod_eq_of_lt (by omega), ahead_of_lt (by omega) (by omega)]
    omega

/-- **One bit or none**: the outcome is the nearest set bit, and zero only of zero. -/
theorem cyclicFirst_cases (x : BitVec n) (hp : p < n) :
    x = 0 ∧ cyclicFirst x p = 0 ∨
    ∃ i, i < n ∧ cyclicFirst x p = BitVec.twoPow n i ∧ x.getLsbD i = true ∧
      ∀ j, j < n → x.getLsbD j = true → ahead n p i ≤ ahead n p j := by
  by_cases hx : ∃ i, i < n ∧ x.getLsbD i = true
  · obtain ⟨i₀, hi₀, hset₀⟩ := hx
    obtain ⟨i, hi, hleast⟩ := Finset.exists_min_image
      ((Finset.range n).filter fun i => x.getLsbD i = true) (ahead n p)
      ⟨i₀, Finset.mem_filter.mpr ⟨Finset.mem_range.mpr hi₀, hset₀⟩⟩
    obtain ⟨hin, hset⟩ := Finset.mem_filter.mp hi
    have hin := Finset.mem_range.mp hin
    have hnearest : ∀ j, j < n → x.getLsbD j = true → ahead n p i ≤ ahead n p j := fun j hj hjset =>
      hleast j (Finset.mem_filter.mpr ⟨Finset.mem_range.mpr hj, hjset⟩)
    refine .inr ⟨i, hin, ?_, hset, hnearest⟩
    refine BitVec.eq_of_getLsbD_eq fun k hk => ?_
    rw [Bool.eq_iff_iff, cyclicFirst_eq_true hp hk, BitVec.getLsbD_twoPow, decide_eq_true hin,
      Bool.true_and, decide_eq_true_iff]
    constructor
    · exact fun h => ahead_inj hp hin hk (le_antisymm (hnearest k hk h.1) (h.2 i hin hset))
    · rintro rfl
      exact ⟨hset, hnearest⟩
  · have hclear : ∀ k, k < n → x.getLsbD k = false := by
      intro k hk
      rw [← Bool.not_eq_true]
      exact fun hset => hx ⟨k, hk, hset⟩
    refine .inl ⟨BitVec.eq_of_getLsbD_eq fun k hk => ?_, BitVec.eq_of_getLsbD_eq fun k hk => ?_⟩
    · rw [hclear k hk]
      exact BitVec.getLsbD_zero.symm
    · rw [show (0 : BitVec n).getLsbD k = false from BitVec.getLsbD_zero, ← Bool.not_eq_true,
        cyclicFirst_eq_true hp hk, hclear k hk]
      exact fun h => Bool.noConfusion h.1

end

end Bits
