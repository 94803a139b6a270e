/-
# Events that keep happening

How long a machine takes is counted in edges of its clocks, and how many instants that is depends
on how often there is an edge.  `Recurrent D p` says that `p` holds at one of any `D` instants in a
row.

Two rules turn this into bounds.  Events can be counted: `k * D` instants have at least `k` of
them (`Recurrent.le_count`), and the one with `k` before it can be picked (`exists_count_eq`).  Or
a rank can fall with each event until the goal is reached (`Recurrent.of_rank`).
-/
import Mathlib.Data.Nat.Count

namespace Clocked

/-! ## 1. Counting events -/

section

variable {p : ℕ → Prop} [DecidablePred p]

/-- Where an event happens more than `k` times, there is a place with `k` of them before it. -/
theorem exists_count_eq {n k : ℕ} (h : k + 1 ≤ Nat.count p n) :
    ∃ j < n, p j ∧ Nat.count p j = k := by
  induction n with
  | zero => simp at h
  | succ n ih =>
    by_cases hn : k + 1 ≤ Nat.count p n
    · obtain ⟨j, hj, hpj, hcount⟩ := ih hn
      exact ⟨j, Nat.lt_succ_of_lt hj, hpj, hcount⟩
    · rw [Nat.count_succ] at h
      split at h
      · rename_i hpn
        exact ⟨n, Nat.lt_succ_self n, hpn, by omega⟩
      · omega

end

/-! ## 2. Events that keep happening -/

/-- Among any `D` instants in a row there is one at which `p` holds. -/
def Recurrent (D : ℕ) (p : ℕ → Prop) : Prop := ∀ t, ∃ j < D, p (t + j)

namespace Recurrent

variable {D : ℕ} {p : ℕ → Prop}

/-- In `k * D` instants there are at least `k` events. -/
theorem le_count [DecidablePred p] (h : Recurrent D p) (m k : ℕ) :
    k ≤ Nat.count (fun j => p (m + j)) (k * D) := by
  induction k with
  | zero => exact Nat.zero_le _
  | succ k ih =>
    obtain ⟨j, hj, hp⟩ := h (m + k * D)
    have hin : k * D + j < (k + 1) * D := by
      rw [Nat.succ_mul]
      omega
    have hmore : Nat.count (fun j => p (m + j)) (k * D + j)
        < Nat.count (fun j => p (m + j)) ((k + 1) * D) :=
      Nat.count_strict_mono (by rwa [← Nat.add_assoc]) hin
    have hmono : Nat.count (fun j => p (m + j)) (k * D)
        ≤ Nat.count (fun j => p (m + j)) (k * D + j) := Nat.count_monotone _ (Nat.le_add_right _ _)
    omega

/-- The event that has `k` before it, within `(k + 1) * D` instants. -/
theorem exists_after [DecidablePred p] (h : Recurrent D p) (m k : ℕ) :
    ∃ j < (k + 1) * D, p (m + j) ∧ Nat.count (fun j => p (m + j)) j = k :=
  exists_count_eq (h.le_count m (k + 1))

variable {J R : ℕ → Prop} {rank : ℕ → ℕ}

/-- Until the goal is reached the rank does not grow. -/
theorem stays_or_reaches (hstep : ∀ t, J t →
      R (t + 1) ∨ J (t + 1) ∧ rank (t + 1) ≤ rank t ∧ (p t → rank (t + 1) < rank t))
    {t : ℕ} (hJ : J t) (n : ℕ) :
    (∃ u ≤ t + n, R u) ∨ J (t + n) ∧ rank (t + n) ≤ rank t := by
  induction n with
  | zero => exact .inr ⟨hJ, Nat.le_refl _⟩
  | succ n ih =>
    rcases ih with ⟨u, hu, hR⟩ | ⟨hJn, hle⟩
    · exact .inl ⟨u, Nat.le_succ_of_le hu, hR⟩
    · rcases hstep (t + n) hJn with hR | ⟨hJ', hle', -⟩
      · exact .inl ⟨t + n + 1, Nat.le_refl _, hR⟩
      · exact .inr ⟨hJ', hle'.trans hle⟩

/-- **The ranking rule.**  A rank that does not grow while `J` holds, and falls with each event,
leads from `J` to `R`; a step may reach `R` at once. -/
theorem of_rank (h : Recurrent D p) (rank : ℕ → ℕ) (hstep : ∀ t, J t →
      R (t + 1) ∨ J (t + 1) ∧ rank (t + 1) ≤ rank t ∧ (p t → rank (t + 1) < rank t))
    {t k : ℕ} (hJ : J t) (hk : rank t ≤ k) : ∃ u ≤ t + (k + 1) * D, R u := by
  induction k generalizing t with
  | zero =>
    obtain ⟨j, hj, hp⟩ := h t
    rcases stays_or_reaches hstep hJ j with ⟨u, hu, hR⟩ | ⟨hJj, hle⟩
    · exact ⟨u, by omega, hR⟩
    · rcases hstep (t + j) hJj with hR | ⟨-, -, hlt⟩
      · exact ⟨t + j + 1, by omega, hR⟩
      · have := hlt hp
        omega
  | succ k ih =>
    obtain ⟨j, hj, hp⟩ := h t
    have hD : (k + 1 + 1) * D = (k + 1) * D + D := Nat.succ_mul _ _
    rcases stays_or_reaches hstep hJ j with ⟨u, hu, hR⟩ | ⟨hJj, hle⟩
    · exact ⟨u, by omega, hR⟩
    · rcases hstep (t + j) hJj with hR | ⟨hJ', -, hlt⟩
      · exact ⟨t + j + 1, by omega, hR⟩
      · have := hlt hp
        obtain ⟨u, hu, hR⟩ := ih hJ' (by omega)
        exact ⟨u, by omega, hR⟩

end Recurrent

end Clocked
