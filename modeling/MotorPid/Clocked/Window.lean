/-
# On-time of a free-running counter over an unaligned window

A comparator against a free-running counter modulo `M` is on at clock `t` when
`(c + t) % M < thr t`, where `c` is the phase at which the window starts and `thr t` the
threshold in force at that clock.  Over any `M` consecutive clocks the counter meets each of
its `M` values once, so the number of on-clocks (`Nat.count` over the window) is the threshold
itself when that is constant, and lies between the bounds of the threshold when it is not.
-/
import Mathlib.Data.Nat.Periodic
import Mathlib.Algebra.BigOperators.Intervals

namespace Clocked

/-- What holds at the same clocks of a window holds equally often in it. -/
theorem count_congr {p q : ℕ → Prop} [DecidablePred p] [DecidablePred q] {n : ℕ}
    (h : ∀ t < n, p t ↔ q t) : Nat.count p n = Nat.count q n :=
  le_antisymm (Nat.count_mono_left fun t ht => (h t ht).mp)
    (Nat.count_mono_left fun t ht => (h t ht).mpr)

/-- The clocks of a window of even length are every second one and the ones between. -/
theorem count_two_mul {p : ℕ → Prop} [DecidablePred p] (n : ℕ) : Nat.count p (2 * n)
    = Nat.count (fun k => p (2 * k)) n + Nat.count (fun k => p (2 * k + 1)) n := by
  induction n with
  | zero => rfl
  | succ n ih =>
    have hclock : 2 * (n + 1) = 2 * n + 1 + 1 := rfl
    rw [hclock, Nat.count_succ, Nat.count_succ, ih, Nat.count_succ, Nat.count_succ, Nat.add_assoc,
      Nat.add_add_add_comm]

/-- A periodic property holds equally often in every window of one period. -/
theorem count_shift_of_periodic {p : ℕ → Prop} [DecidablePred p] {M : ℕ}
    (hp : Function.Periodic p M) (c : ℕ) : Nat.count (fun t => p (c + t)) M = Nat.count p M := by
  rw [← Nat.filter_Ico_card_eq_of_periodic c M p hp, Nat.count_eq_card_filter_range,
    Finset.card_filter, Finset.card_filter, Finset.sum_Ico_eq_sum_range, Nat.add_sub_cancel_left]

/-- Of the values below `M`, exactly `k` lie below a threshold `k ≤ M`. -/
theorem count_lt_of_le {k M : ℕ} (h : k ≤ M) : Nat.count (fun t => t < k) M = k := by
  obtain ⟨n, rfl⟩ := Nat.exists_eq_add_of_le h
  have h1 : Nat.count (fun t => t < k) k = k := Nat.count_iff_forall.mpr fun _ ht => ht
  have h2 : Nat.count (fun t => k + t < k) n = 0 :=
    Nat.count_iff_forall_not.mpr fun _ _ => by omega
  rw [Nat.count_add, h1, h2, Nat.add_zero]

/-- **Constant threshold.**  Over a window of one period the counter is below `k ≤ M` on
exactly `k` clocks, whatever the phase `c` at which the window starts. -/
theorem count_mod_lt {k M : ℕ} (h : k ≤ M) (c : ℕ) :
    Nat.count (fun t => (c + t) % M < k) M = k := by
  have hp : Function.Periodic (fun n => n % M < k) M := fun n => by
    simp only [Nat.add_mod_right]
  have hmod : Nat.count (fun n => n % M < k) M = Nat.count (fun n => n < k) M :=
    count_congr fun n hn => by rw [Nat.mod_eq_of_lt hn]
  rw [count_shift_of_periodic hp c, hmod, count_lt_of_le h]

/-- **Moving threshold, from below.**  A threshold that never drops under `lo` gives at least
`lo` on-clocks. -/
theorem le_count_mod_lt {lo M : ℕ} (hM : lo ≤ M) {thr : ℕ → ℕ} (h : ∀ t < M, lo ≤ thr t)
    (c : ℕ) : lo ≤ Nat.count (fun t => (c + t) % M < thr t) M :=
  calc lo = Nat.count (fun t => (c + t) % M < lo) M := (count_mod_lt hM c).symm
    _ ≤ _ := Nat.count_mono_left fun t ht hlt => lt_of_lt_of_le hlt (h t ht)

/-- **Moving threshold, from above.**  A threshold that never exceeds `hi` gives at most `hi`
on-clocks. -/
theorem count_mod_lt_le {hi M : ℕ} (hM : hi ≤ M) {thr : ℕ → ℕ} (h : ∀ t < M, thr t ≤ hi)
    (c : ℕ) : Nat.count (fun t => (c + t) % M < thr t) M ≤ hi :=
  calc Nat.count (fun t => (c + t) % M < thr t) M
      ≤ Nat.count (fun t => (c + t) % M < hi) M :=
        Nat.count_mono_left fun t ht hlt => lt_of_lt_of_le hlt (h t ht)
    _ = hi := count_mod_lt hM c

end Clocked
