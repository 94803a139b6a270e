/-
# What a run takes in and gives out

A machine may accept or give out a value at an instant: `out : σ → ι → Option β` says which, from
the registers just before the instant and the inputs at it.  `emitted` collects these values over
a run, in order, and `history_invariant` is the invariant rule for a property that relates the
state to what has gone in and what has come out so far.

`Lossless a d c` says what a channel owes: `d`, what has come out, is what went in, `a`, in the
same order and without the at most `c` values still inside.  Nothing is lost, repeated, reordered
or made up, and channels in series are channels (`Lossless.trans`).
-/
import MotorPid.Clocked.Trace
import Mathlib.Data.List.Basic

namespace Clocked

variable {σ ι β γ : Type*}

/-! ## 1. Histories -/

/-- The values given out before instant `t`, in order. -/
def emitted (step : σ → ι → σ) (out : σ → ι → Option β) (s : σ) (x : ℕ → ι) : ℕ → List β
  | 0 => []
  | t + 1 => emitted step out s x t ++ (out (trace step s x t) (x t)).toList

@[simp] theorem emitted_zero (step : σ → ι → σ) (out : σ → ι → Option β) (s : σ) (x : ℕ → ι) :
    emitted step out s x 0 = [] := rfl

theorem emitted_succ (step : σ → ι → σ) (out : σ → ι → Option β) (s : σ) (x : ℕ → ι) (t : ℕ) :
    emitted step out s x (t + 1)
      = emitted step out s x t ++ (out (trace step s x t) (x t)).toList := rfl

/-- What has come out stays the beginning of what comes out later. -/
theorem emitted_isPrefix (step : σ → ι → σ) (out : σ → ι → Option β) (s : σ) (x : ℕ → ι)
    {t u : ℕ} (h : t ≤ u) : emitted step out s x t <+: emitted step out s x u := by
  induction u, h using Nat.le_induction with
  | base => exact List.prefix_rfl
  | succ u _ ih => exact ih.trans (List.prefix_append _ _)

/-- The values given out before instant `t` by a machine that may give out several at once. -/
def collected (step : σ → ι → σ) (out : σ → ι → List β) (s : σ) (x : ℕ → ι) : ℕ → List β
  | 0 => []
  | t + 1 => collected step out s x t ++ out (trace step s x t) (x t)

/-- **The invariant rule with histories.**  A property of the state, of what went in and of what
came out that holds at the start, and that every instant keeps, holds at every instant. -/
theorem history_invariant {step : σ → ι → σ} {inp : σ → ι → Option β} {out : σ → ι → Option γ}
    {s : σ} {x : ℕ → ι} {P : σ → List β → List γ → Prop} (h0 : P s [] [])
    (hstep : ∀ r i a d, P r a d → P (step r i) (a ++ (inp r i).toList) (d ++ (out r i).toList))
    (t : ℕ) : P (trace step s x t) (emitted step inp s x t) (emitted step out s x t) := by
  induction t with
  | zero => exact h0
  | succ t ih => exact hstep _ _ _ _ ih

/-! ## 2. Lossless channels -/

/-- `d` is `a` without the at most `c` values at its end that are still on the way. -/
def Lossless (a d : List β) (c : ℕ) : Prop := ∃ held, a = d ++ held ∧ held.length ≤ c

theorem Lossless.trans {a b d : List β} {c c' : ℕ} (h : Lossless a b c) (h' : Lossless b d c') :
    Lossless a d (c + c') := by
  obtain ⟨held, rfl, hle⟩ := h
  obtain ⟨held', rfl, hle'⟩ := h'
  refine ⟨held' ++ held, List.append_assoc _ _ _, ?_⟩
  rw [List.length_append]
  omega

end Clocked
