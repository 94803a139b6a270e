/-
# A machine in a design with several clocks

In a design with several clocks an instant may or may not have an edge of a machine's clock, so
what it takes in at an instant is an `Option`, and without an edge it stays as it is (`gated`).

By its own clock nothing of this can be seen: the machine does what it does by itself on the
inputs at its edges (`trace_gated`), and what is counted over instants can be counted over its
clocks (`count_gated`).  Results about the machine by itself carry over to runs of the whole.
-/
import MotorPid.Clocked.Trace
import Mathlib.Data.Nat.Nth

namespace Clocked

variable {σ ι : Type*}

/-- An instant: a clock of the machine, or none. -/
def gated (step : σ → ι → σ) (s : σ) : Option ι → σ
  | some i => step s i
  | none => s

section

variable (x : ℕ → Option ι)

/-- The number of edges before instant `t`. -/
def edges (t : ℕ) : ℕ := Nat.count (fun j => (x j).isSome = true) t

/-- What is taken in at edge `k`; `d` stands in where there is none. -/
noncomputable def atEdge (d : ι) (k : ℕ) : ι :=
  (x (Nat.nth (fun j => (x j).isSome = true) k)).getD d

variable {x}

theorem edges_mono {t u : ℕ} (h : t ≤ u) : edges x t ≤ edges x u := Nat.count_monotone _ h

theorem edges_succ_of_some {t : ℕ} {i : ι} (h : x t = some i) :
    edges x (t + 1) = edges x t + 1 := by
  simp [edges, Nat.count_succ, h]

theorem edges_succ_of_none {t : ℕ} (h : x t = none) : edges x (t + 1) = edges x t := by
  simp [edges, Nat.count_succ, h]

theorem atEdge_edges {t : ℕ} {i : ι} (h : x t = some i) (d : ι) : atEdge x d (edges x t) = i := by
  have hedge : (x t).isSome = true := by rw [h]; rfl
  rw [atEdge, edges, Nat.nth_count hedge, h]
  rfl

/-- **By its own clock the machine is alone.** -/
theorem trace_gated (step : σ → ι → σ) (s : σ) (d : ι) (t : ℕ) :
    trace (gated step) s x t = trace step s (atEdge x d) (edges x t) := by
  induction t with
  | zero => simp [edges]
  | succ t ih =>
    rw [trace_succ, ih]
    cases hx : x t with
    | none => rw [edges_succ_of_none hx, gated]
    | some i => rw [edges_succ_of_some hx, trace_succ, atEdge_edges hx d, gated]

/-- What happens at edges from an instant on may be counted by their numbers. -/
theorem count_gated (q : ℕ → Prop) [DecidablePred q] (t n : ℕ) :
    Nat.count (fun j => (x (t + j)).isSome = true ∧ q (edges x (t + j))) n
      = Nat.count (fun k => q (edges x t + k)) (edges x (t + n) - edges x t) := by
  induction n with
  | zero => simp
  | succ n ih =>
    have hle : edges x t ≤ edges x (t + n) := edges_mono (Nat.le_add_right t n)
    rw [Nat.count_succ, ih, ← Nat.add_assoc]
    cases hx : x (t + n) with
    | none => simp [edges_succ_of_none hx]
    | some i =>
      have hnext : edges x (t + n) + 1 - edges x t = edges x (t + n) - edges x t + 1 := by omega
      have hlast : edges x t + (edges x (t + n) - edges x t) = edges x (t + n) := by omega
      rw [edges_succ_of_some hx, hnext, Nat.count_succ, hlast]
      simp

end

end Clocked
