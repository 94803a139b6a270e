/-
# What a reset of the LED component leaves behind

A reset clock clears `counter`, every `compare[i]` and the outputs, but neither `counter_next`
nor any `compare_next[i]`: the reset branch of the block that assigns them does not mention
them.  The clock after the reset moves both forward, so a fade that was in its second register
is seen again, against a counter phase that was too.

`ResetErases s s'` is what the reset is for: after it the two states show the same outputs under
the same inputs for ever, and both stay dark until written.  `reset_erases_iff` says exactly when
it does: the stale counters must agree, and every stale fade must be QUIET, over before the
stale counter comes round to 0.  A reset shortly after a write fails it (`reset_leaks`).
-/
import MotorPid.Lights.Counter
import Mathlib.Tactic.Set

namespace MotorPid.Lights

open Clocked TwoPhase

variable {s s' : Regs} {x : ℕ → In} {i : Fin 26}

/-! ## 1. Aligned counters and quiet fades -/

/-- The counter has only ever been incremented by `CTR_INCR`. -/
def Aligned (N : BitVec ctrLen) : Prop := N.toNat % 8192 = 0

/-- A fade at `C` against a counter at `N`: it is over before the counter comes round to 0,
which takes it `(-N) / 8192` increments. -/
def Quiet (N C : BitVec ctrLen) : Prop := C.toNat ≤ (-N).toNat / 8192

instance (N C : BitVec ctrLen) : Decidable (Quiet N C) := inferInstanceAs (Decidable (_ ≤ _))

theorem neg_toNat (N : BitVec ctrLen) : (-N).toNat = (2 ^ 26 - N.toNat) % 2 ^ 26 :=
  BitVec.toNat_neg N

theorem quiet_zero (N : BitVec ctrLen) : Quiet N 0 := Nat.zero_le _

theorem aligned_zero : Aligned 0 := rfl

theorem Aligned.incr {N : BitVec ctrLen} (h : Aligned N) : Aligned (N + ctrIncr) := by
  unfold Aligned at h ⊢
  rw [add_incr_toNat]
  omega

/-- A quiet fade is not seen now. -/
theorem Quiet.not_lt {N C : BitVec ctrLen} (hN : Aligned N) (h : Quiet N C) :
    ¬ N.toNat < C.toNat := by
  have hlt : N.toNat < 2 ^ 26 := N.isLt
  unfold Quiet at h
  unfold Aligned at hN
  rw [neg_toNat] at h
  omega

/-- A quiet fade is quiet one increment later. -/
theorem Quiet.incr {N C : BitVec ctrLen} (hN : Aligned N) (h : Quiet N C) :
    Quiet (N + ctrIncr) (fade C) := by
  have hlt : N.toNat < 2 ^ 26 := N.isLt
  unfold Quiet at h ⊢
  unfold Aligned at hN
  rw [neg_toNat] at h ⊢
  rw [fade_toNat, add_incr_toNat]
  omega

/-- Both counters of a reachable state are aligned. -/
theorem aligned_of_reachable (h : Reachable step powerUp s) :
    Aligned s.counter ∧ Aligned s.counterNext := by
  refine h.invariant (P := fun r : Regs => Aligned r.counter ∧ Aligned r.counterNext)
    ⟨rfl, rfl⟩ ?_
  intro r y hr
  cases hy : y.rstReset with
  | true =>
    rw [(step_reset_counter hy).1, (step_reset_counter hy).2.1]
    exact ⟨aligned_zero, hr.2⟩
  | false =>
    rw [(step_counter hy).1, (step_counter hy).2.1]
    exact ⟨hr.2, hr.1.incr⟩

/-! ## 2. An LED that stays dark -/

/-- LED `i` is off, and neither of its fades will be seen before it is written. -/
structure Dark (r : Regs) (i : Fin 26) : Prop where
  aligned : Aligned r.counter
  alignedNext : Aligned r.counterNext
  quiet : Quiet r.counter (r.compare i)
  quietNext : Quiet r.counterNext (r.compareNext i)
  off : r.ledsNewSignal i = false

/-- A reset clock makes an LED dark if its stale fade is quiet. -/
theorem dark_of_reset {y : In} (hy : y.rstReset = true) (hN : Aligned s.counterNext)
    (hq : Quiet s.counterNext (s.compareNext i)) : Dark (step s y) i := by
  obtain ⟨h1, h2, h3⟩ := step_reset_counter (s := s) hy
  obtain ⟨h4, h5⟩ := step_reset_lane (s := s) (i := i) hy
  exact ⟨h1 ▸ aligned_zero, h2 ▸ hN, by rw [h4]; exact quiet_zero _, by rw [h2, h5]; exact hq,
    by rw [h3]⟩

/-- **Every clock but a write keeps an LED dark**, a reset included. -/
theorem Dark.step {y : In} (hd : Dark s i) (hy : y.writes i = false) :
    Dark (Lights.step s y) i := by
  rcases clock_cases y i with h | h | h
  · exact dark_of_reset h hd.alignedNext hd.quietNext
  · rw [hy] at h
    exact absurd h (by decide)
  · obtain ⟨hr, -⟩ := idle_iff.mp h
    obtain ⟨h1, h2, h3⟩ := step_counter (s := s) hr
    obtain ⟨h4, h5⟩ := step_idle_lane (s := s) h
    have hoff : s.pwmBits i = false := by
      rw [← Bool.not_eq_true, pwmBits_eq_true]
      exact hd.quiet.not_lt hd.aligned
    exact ⟨h1 ▸ hd.alignedNext, h2 ▸ hd.aligned.incr, by rw [h1, h4]; exact hd.quietNext,
      by rw [h2, h5]; exact hd.quiet.incr hd.aligned, by rw [h3]; exact hoff⟩

/-! ## 3. Two runs that look alike -/

/-- Two fades against one counter that are equal, or neither of which will be seen. -/
def Alike (N C C' : BitVec ctrLen) : Prop := C = C' ∨ Quiet N C ∧ Quiet N C'

theorem Alike.incr {N C C' : BitVec ctrLen} (hN : Aligned N) (h : Alike N C C') :
    Alike (N + ctrIncr) (fade C) (fade C') := by
  rcases h with rfl | ⟨h1, h2⟩
  · exact Or.inl rfl
  · exact Or.inr ⟨h1.incr hN, h2.incr hN⟩

/-- Two states that no later output will tell apart. -/
structure SameLight (r r' : Regs) : Prop where
  aligned : Aligned r.counter
  alignedNext : Aligned r.counterNext
  counter : r.counter = r'.counter
  counterNext : r.counterNext = r'.counterNext
  alike : ∀ i, Alike r.counter (r.compare i) (r'.compare i)
  alikeNext : ∀ i, Alike r.counterNext (r.compareNext i) (r'.compareNext i)
  leds : r.ledsNewSignal = r'.ledsNewSignal

/-- A reset clock makes two states look alike as soon as their stale registers do. -/
theorem sameLight_of_reset {y y' : In} (hy : y.rstReset = true) (hy' : y'.rstReset = true)
    (hN : Aligned s.counterNext) (hc : s.counterNext = s'.counterNext)
    (ha : ∀ i, Alike s.counterNext (s.compareNext i) (s'.compareNext i)) :
    SameLight (step s y) (step s' y') := by
  obtain ⟨h1, h2, h3⟩ := step_reset_counter (s := s) hy
  obtain ⟨h1', h2', h3'⟩ := step_reset_counter (s := s') hy'
  refine ⟨h1 ▸ aligned_zero, h2 ▸ hN, by rw [h1, h1'], by rw [h2, h2', hc], fun i => ?_,
    fun i => ?_, by rw [h3, h3']⟩
  · rw [(step_reset_lane hy).1, (step_reset_lane hy').1]
    exact Or.inl rfl
  · rw [h2, (step_reset_lane hy).2, (step_reset_lane hy').2]
    exact ha i

/-- **A common clock keeps two states alike.** -/
theorem SameLight.step {r r' : Regs} (h : SameLight r r') (y : In) :
    SameLight (Lights.step r y) (Lights.step r' y) := by
  cases hy : y.rstReset with
  | true => exact sameLight_of_reset hy hy h.alignedNext h.counterNext h.alikeNext
  | false =>
    obtain ⟨h1, h2, h3⟩ := step_counter (s := r) hy
    obtain ⟨h1', h2', h3'⟩ := step_counter (s := r') hy
    refine ⟨h1 ▸ h.alignedNext, h2 ▸ h.aligned.incr, by rw [h1, h1', h.counterNext],
      by rw [h2, h2', h.counter], fun i => ?_, fun i => ?_, ?_⟩
    · rcases clock_cases y i with hc | hc | hc
      · rw [hy] at hc
        exact absurd hc (by decide)
      · rw [(step_write_lane hc).1, (step_write_lane hc).1]
        exact Or.inl rfl
      · rw [h1, (step_idle_lane hc).1, (step_idle_lane hc).1]
        exact h.alikeNext i
    · have hnext : ∀ q : Regs, (Lights.step q y).compareNext i = fade (q.compare i) :=
        fun q => by simp [Lights.step, nextCompareNext, hy]
      rw [h2, hnext, hnext]
      exact (h.alike i).incr h.aligned
    · rw [h3, h3']
      funext i
      rw [Bool.eq_iff_iff, pwmBits_eq_true, pwmBits_eq_true, ← h.counter]
      rcases h.alike i with heq | ⟨hq, hq'⟩
      · rw [heq]
      · exact iff_of_false (hq.not_lt h.aligned) (hq'.not_lt h.aligned)

/-! ## 4. When a reset erases the history -/

/-- What a reset of any length is for, at two states: if the same inputs follow it, the outputs
agree from its first clock on, and until an LED is written it is off in both runs. -/
def ResetErases (s s' : Regs) : Prop :=
  ∀ (n : ℕ) (x y : ℕ → In), 1 ≤ n →
    (∀ t < n, (x t).rstReset = true ∧ (y t).rstReset = true) → (∀ t, n ≤ t → x t = y t) →
    (∀ t, 1 ≤ t → (run s x t).ledsNewSignal = (run s' y t).ledsNewSignal) ∧
      ∀ i t, 1 ≤ t → (∀ j, n ≤ j → j < t → (x j).writes i = false) →
        (run s x t).ledsNewSignal i = false ∧ (run s' y t).ledsNewSignal i = false

/-- The stale registers of two states give nothing away. -/
def StaleQuiet (s s' : Regs) : Prop :=
  s.counterNext = s'.counterNext ∧
    ∀ i, Quiet s.counterNext (s.compareNext i) ∧ Quiet s'.counterNext (s'.compareNext i)

instance (s s' : Regs) : Decidable (StaleQuiet s s') := inferInstanceAs (Decidable (_ ∧ _))

/-- After a reset of `n` clocks an LED with a quiet stale fade is dark until it is written. -/
theorem dark_after_reset {n : ℕ} (hn : 1 ≤ n) (hr : ∀ t < n, (x t).rstReset = true)
    (hN : Aligned s.counterNext) (hq : Quiet s.counterNext (s.compareNext i)) {t : ℕ} (ht : 1 ≤ t)
    (hw : ∀ j, n ≤ j → j < t → (x j).writes i = false) : Dark (run s x t) i := by
  have hfirst : Dark (run s x 1) i := dark_of_reset (hr 0 hn) hN hq
  refine trace_invariant (P := fun r => Dark r i) (b := t) hfirst
    (fun j _ hjt r hd => hd.step ?_) t ht (Nat.le_refl t)
  rcases Nat.lt_or_ge j n with hj | hj
  · simp [In.writes, hr j hj]
  · exact hw j hj hjt

/-- After a reset of `n` clocks two states with alike stale registers stay alike. -/
theorem sameLight_after_reset {y : ℕ → In} {n : ℕ} (hn : 1 ≤ n)
    (hr : ∀ t < n, (x t).rstReset = true ∧ (y t).rstReset = true)
    (hxy : ∀ t, n ≤ t → x t = y t) (hN : Aligned s.counterNext) (h : StaleQuiet s s') :
    ∀ {t : ℕ}, 1 ≤ t → SameLight (run s x t) (run s' y t) := by
  intro t ht
  induction t, ht using Nat.le_induction with
  | base =>
    exact sameLight_of_reset (hr 0 hn).1 (hr 0 hn).2 hN h.1 fun i =>
      Or.inr ⟨(h.2 i).1, h.1 ▸ (h.2 i).2⟩
  | succ t _ ih =>
    rcases Nat.lt_or_ge t n with hj | hj
    · exact sameLight_of_reset (hr t hj).1 (hr t hj).2 ih.alignedNext ih.counterNext ih.alikeNext
    · have hstep := ih.step (x t)
      rw [run, run, trace_succ, trace_succ, ← hxy t hj]
      exact hstep

/-- After one reset clock, and with nothing selecting LED `i` from the second clock after it on,
the stale fade comes forward on every other clock against the stale counter. -/
theorem stale_run (hr : (x 0).rstReset = true) (hx : ∀ t, (x (1 + t)).rstReset = false)
    (hidle : ∀ t, (x (2 + t)).selects i = false) (j : ℕ) :
    (run s x (3 + 2 * j)).ledsNewSignal i = true ↔
      (s.counterNext.toNat + 8192 * j) % 2 ^ 26
        < (((x 1).load i).getD (s.compareNext i)).toNat - j := by
  set s₁ : Regs := step s (x 0)
  set z : ℕ → In := fun t => x (1 + t)
  have hsplit : 2 + 2 * j = 1 + (1 + 2 * j) := by omega
  have hstart : run s x (2 + 2 * j) = run s₁ z (1 + 2 * j) := by
    rw [hsplit, run, trace_add]
    rfl
  have hcounter : (run s x (2 + 2 * j)).counter.toNat
      = (s.counterNext.toNat + 8192 * j) % 2 ^ 26 := by
    rw [hstart, run_count fun t _ => hx t, front_iterate fun _ _ => rfl, incr_iterate_toNat]
    exact congrArg (fun N : BitVec ctrLen => (N.toNat + 8192 * j) % 2 ^ 26)
      (step_reset_counter hr).2.1
  have hcompare : ((run s x (2 + 2 * j)).compare i).toNat
      = (((x 1).load i).getD (s.compareNext i)).toNat - j := by
    have hload : ∀ k < j, (z (1 + 2 * k + 1)).load i = none := fun k _ => by
      have hclock : z (1 + 2 * k + 1) = x (2 + (2 * k + 1)) := congrArg x (by omega)
      rw [hclock, load_eq_none (hidle _)]
    rw [hstart, run_compare fun t _ => hx t, front_iterate hload, fade_iterate_toNat]
    exact congrArg (fun v => (((x 1).load i).getD v).toNat - j) (step_reset_lane hr).2
  have hclock : (x (2 + 2 * j)).rstReset = false := by
    rw [hsplit]
    exact hx _
  have hlast : 3 + 2 * j = 2 + 2 * j + 1 := by omega
  rw [hlast, run, trace_succ, (step_counter hclock).2.2, pwmBits_eq_true, hcounter, hcompare]

/-- One reset clock, a write of `w` on the next, and nothing after it. -/
def resetThenWrite (w : BitVec 32) (t : ℕ) : In := ⟨decide (t = 0), decide (t = 1), w⟩

theorem stale_run_write (w : BitVec 32) (i : Fin 26) (j : ℕ) :
    (run s (resetThenWrite w) (3 + 2 * j)).ledsNewSignal i = true ↔
      (s.counterNext.toNat + 8192 * j) % 2 ^ 26
        < (((resetThenWrite w 1).load i).getD (s.compareNext i)).toNat - j := by
  have hlate : ∀ t, ¬ 2 + t = 1 := fun t => by omega
  exact stale_run rfl (fun t => decide_eq_false (by omega))
    (fun t => by simp [In.selects, resetThenWrite, hlate]) j

/-- **A stale fade that is not quiet is seen.** -/
theorem quiet_of_dark (hN : Aligned s.counterNext)
    (hdark : ∀ t, 1 ≤ t → (run s (resetThenWrite 0) t).ledsNewSignal i = false) :
    Quiet s.counterNext (s.compareNext i) := by
  -- the increment that brings the stale counter round to 0
  have hlt : s.counterNext.toNat < 2 ^ 26 := s.counterNext.isLt
  set j := (-s.counterNext).toNat / 8192 with hj
  have hoff := hdark (3 + 2 * j) (by omega)
  rw [← Bool.not_eq_true, stale_run_write] at hoff
  have hload : (resetThenWrite 0 1).load i = none := by simp [In.load, In.selects, resetThenWrite]
  rw [hload, Option.getD_none] at hoff
  unfold Aligned at hN
  rw [neg_toNat] at hj
  unfold Quiet
  rw [neg_toNat]
  omega

/-- **Different stale counters are seen.**  A full LED is dark at one increment in each round of
the counter, and the two states would have it at different ones. -/
theorem counterNext_eq_of_same (hN : Aligned s.counterNext) (hN' : Aligned s'.counterNext)
    (hsame : ∀ t, 1 ≤ t → (run s (resetThenWrite 1) t).ledsNewSignal
      = (run s' (resetThenWrite 1) t).ledsNewSignal) : s.counterNext = s'.counterNext := by
  have hlt : s.counterNext.toNat < 2 ^ 26 := s.counterNext.isLt
  have hlt' : s'.counterNext.toNat < 2 ^ 26 := s'.counterNext.isLt
  -- the increment, once the fade has lost 8191 steps, at which the first counter is highest
  set j := 8191 + (8192 - s.counterNext.toNat / 8192) % 8192 with hj
  have hled := congrFun (hsame (3 + 2 * j) (by omega)) 0
  rw [Bool.eq_iff_iff, stale_run_write, stale_run_write] at hled
  have hload : (resetThenWrite 1 1).load 0 = some maxDuty := by decide
  have hmax : maxDuty.toNat = 2 ^ 26 - 1 := rfl
  simp only [hload, Option.getD_some, hmax] at hled
  unfold Aligned at hN hN'
  apply BitVec.eq_of_toNat_eq
  have hfirst : ¬ (s.counterNext.toNat + 8192 * j) % 2 ^ 26 < 2 ^ 26 - 1 - j := by omega
  have hsecond := fun h => hfirst (hled.mpr h)
  omega

/-- **When a reset erases the history.**  At two reachable states it does if and only if their
stale counters agree and all their stale fades are quiet. -/
theorem reset_erases_iff (hs : Reachable step powerUp s) (hs' : Reachable step powerUp s') :
    ResetErases s s' ↔ StaleQuiet s s' := by
  have hN := (aligned_of_reachable hs).2
  have hN' := (aligned_of_reachable hs').2
  constructor
  · intro h
    have hone := fun w => h 1 (resetThenWrite w) (resetThenWrite w) (Nat.le_refl 1)
      (fun t ht => by simp [resetThenWrite, Nat.lt_one_iff.mp ht]) (fun _ _ => rfl)
    have hdark : ∀ i t, 1 ≤ t → (run s (resetThenWrite 0) t).ledsNewSignal i = false ∧
        (run s' (resetThenWrite 0) t).ledsNewSignal i = false := fun i t ht =>
      (hone 0).2 i t ht fun j _ _ => by simp [In.writes, In.selects, resetThenWrite]
    refine ⟨counterNext_eq_of_same hN hN' (hone 1).1, fun i => ⟨?_, ?_⟩⟩
    · exact quiet_of_dark hN fun t ht => (hdark i t ht).1
    · exact quiet_of_dark hN' fun t ht => (hdark i t ht).2
  · intro h n x y hn hr hxy
    refine ⟨fun t ht => (sameLight_after_reset hn hr hxy hN h ht).leds, fun i t ht hw => ⟨?_, ?_⟩⟩
    · exact (dark_after_reset hn (fun j hj => (hr j hj).1) hN (h.2 i).1 ht hw).off
    · refine (dark_after_reset hn (fun j hj => (hr j hj).2) hN' (h.2 i).2 ht ?_).off
      exact fun j hj hjt => hxy j hj ▸ hw j hj hjt

/-- A write of bit 0 at clock 0, reset on the clock after it, is erased: its fade has not reached
the second register yet. -/
theorem reset_erases_write :
    ResetErases (run powerUp (fun t => ⟨false, decide (t = 0), 1⟩) 1)
      (run powerUp (fun _ => ⟨false, false, 0⟩) 1) :=
  (reset_erases_iff (Reachable.trace _ 1) (Reachable.trace _ 1)).mpr (by decide)

/-- **A reset leaks a fresh fade.**  Bit 0 is written at clock 0 and a reset asserted at clock 2,
when the fade is in the second register.  Two clocks after the reset LED 0 lights up without
having been written again, as it does not when it was never written. -/
theorem reset_leaks :
    let s := run powerUp (fun t => ⟨false, decide (t = 0), 1⟩) 2
    let s' := run powerUp (fun _ => ⟨false, false, 0⟩) 2
    Reachable step powerUp s ∧ Reachable step powerUp s' ∧
      (∀ t, (resetThenWrite 0 t).writes 0 = false) ∧
      (run s (resetThenWrite 0) 3).ledsNewSignal 0 = true ∧
      (run s' (resetThenWrite 0) 3).ledsNewSignal 0 = false ∧ ¬ ResetErases s s' := by
  intro s s'
  have hlit : (run s (resetThenWrite 0) 3).ledsNewSignal 0 = true := by decide
  have hoff : (run s' (resetThenWrite 0) 3).ledsNewSignal 0 = false := by decide
  refine ⟨Reachable.trace _ 2, Reachable.trace _ 2,
    fun t => by simp [In.writes, In.selects, resetThenWrite], hlit, hoff, fun h => ?_⟩
  have hsame := (h 1 (resetThenWrite 0) (resetThenWrite 0) (Nat.le_refl 1)
    (fun t ht => by simp [resetThenWrite, Nat.lt_one_iff.mp ht]) (fun _ _ => rfl)).1 3 (by decide)
  rw [hsame, hoff] at hlit
  exact absurd hlit (by decide)

end MotorPid.Lights
