/-
# A value that refreshes itself through two registers

Two registers in a loop: `back` takes `f front`, and `front` takes `back`, or a value loaded
from outside.  Written with one register the loop would iterate `f`; written with two it holds
two INDEPENDENT values that take turns in `front`, each advancing by one application of `f`
every second clock, and a load replaces only the one whose turn it is.

`front_iterate` is that law, and `front_of_load` its consequence for the latest load of a turn.
-/
import MotorPid.Clocked.Trace
import Mathlib.Logic.Function.Iterate

namespace TwoPhase

open Clocked

variable {α : Type*}

/-- The two registers. -/
structure Pair (α : Type*) where
  front : α
  back : α

/-- One clock, with the value loaded into `front` if there is one. -/
def tick (f : α → α) (p : Pair α) (load : Option α) : Pair α := ⟨load.getD p.back, f p.front⟩

/-- The content of `front` just before clock `t`. -/
def frontAt (f : α → α) (p : Pair α) (c : ℕ → Option α) (t : ℕ) : α :=
  (trace (tick f) p c t).front

variable {f : α → α} {p : Pair α} {c : ℕ → Option α}

theorem frontAt_succ (t : ℕ) :
    frontAt f p c (t + 1) = (c t).getD (trace (tick f) p c t).back := rfl

/-- **Two clocks.**  What was in `front` comes back with `f` applied, unless a load takes its
place. -/
theorem frontAt_add_two (t : ℕ) :
    frontAt f p c (t + 2) = (c (t + 1)).getD (f (frontAt f p c t)) := rfl

/-- **The turns are independent.**  With no load on its own turns, the value in `front` before
clock `t` is found there `2 n` clocks later after `n` applications of `f`, whatever was loaded
on the other turns. -/
theorem front_iterate {t : ℕ} : ∀ {n : ℕ}, (∀ j < n, c (t + 2 * j + 1) = none) →
    frontAt f p c (t + 2 * n) = f^[n] (frontAt f p c t)
  | 0, _ => rfl
  | n + 1, h => by
    have ih := front_iterate fun j hj => h j (Nat.lt_succ_of_lt hj)
    have hclock : t + 2 * (n + 1) = t + 2 * n + 2 := by omega
    rw [hclock, frontAt_add_two, h n (Nat.lt_succ_self n), ih, Function.iterate_succ_apply',
      Option.getD_none]

/-- The latest load of a turn decides the value: `n` turns after it, `f` has been applied `n`
times. -/
theorem front_of_load {w n : ℕ} {v : α} (hw : c w = some v)
    (h : ∀ j < n, c (w + 2 * j + 2) = none) : frontAt f p c (w + 1 + 2 * n) = f^[n] v := by
  have hload : frontAt f p c (w + 1) = v := by rw [frontAt_succ, hw, Option.getD_some]
  rw [front_iterate fun j hj => by rw [← h j hj]; congr 1; omega, hload]

end TwoPhase
