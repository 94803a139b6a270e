/-
# The PWM counter of the LED component

`counter` and `counter_next` are a `TwoPhase` loop around the increment, like the two registers
of an LED's threshold: two counters that take turns, each advancing by `CTR_INCR` every second
clock from wherever it was (`run_count`).  Both come round after the same `2^14` clocks
(`counter_period`).
-/
import MotorPid.Lights.Fade

namespace MotorPid.Lights

open Clocked TwoPhase

variable {s : Regs} {x : ℕ → In}

/-- The counter and its second register. -/
def Regs.count (s : Regs) : Pair (BitVec ctrLen) := ⟨s.counter, s.counterNext⟩

theorem step_count {y : In} (h : y.rstReset = false) :
    (step s y).count = tick (· + ctrIncr) s.count none := by
  simp [Regs.count, tick, step, nextCounter, nextCounterNext, h]

/-- Without resets the counter runs as a `TwoPhase` loop around its increment. -/
theorem run_count {t : ℕ} (hx : ∀ j < t, (x j).rstReset = false) :
    (run s x t).counter = frontAt (· + ctrIncr) s.count (fun _ => none) t :=
  congrArg Pair.front <|
    trace_relate (R := fun (r : Regs) p => r.count = p) (b := t) rfl
      (fun j hj r p hr => by rw [step_count (hx j hj), hr]) t (Nat.le_refl t)

theorem add_incr_toNat (v : BitVec ctrLen) : (v + ctrIncr).toNat = (v.toNat + 8192) % 2 ^ 26 :=
  BitVec.toNat_add v ctrIncr

theorem incr_iterate_toNat (v : BitVec ctrLen) : ∀ n : ℕ,
    ((· + ctrIncr)^[n] v).toNat = (v.toNat + 8192 * n) % 2 ^ 26
  | 0 => (Nat.mod_eq_of_lt v.isLt).symm
  | n + 1 => by
    rw [Function.iterate_succ_apply', add_incr_toNat, incr_iterate_toNat v n]
    omega

/-- **The period.**  Without resets each counter is back where it was after `2^14` clocks. -/
theorem counter_period {t : ℕ} (hx : ∀ j < t + 2 ^ 14, (x j).rstReset = false) :
    (run s x (t + 2 ^ 14)).counter = (run s x t).counter := by
  have hlen : t + 2 ^ 14 = t + 2 * 8192 := rfl
  have hround : ∀ v : BitVec ctrLen, (· + ctrIncr)^[8192] v = v := fun v => by
    have hlt : v.toNat < 2 ^ 26 := v.isLt
    apply BitVec.eq_of_toNat_eq
    rw [incr_iterate_toNat]
    omega
  rw [run_count hx, run_count fun j hj => hx j (Nat.lt_add_right _ hj), hlen,
    front_iterate fun _ _ => rfl, hround]

end MotorPid.Lights
