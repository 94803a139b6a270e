/-
# `motor.v` refines the ideal PWM generator

`Refines s g` relates the registers before a clock with the ideal generator: the counter is the
generator's clock count modulo 2048, and the latched direction and compare value are the sign
and the magnitude of its speed.  A reset clock establishes the relation with the stopped
generator from ANY registers (`refines_reset`), every other clock keeps it (`Refines.step`), and
the pins after a clock are the lines the generator drives just before it (`Refines.m1`,
`Refines.m2`): the registered pins lag the ideal waveform by exactly one clock.

The run lemma is the two-run rule applied to the component and the generator, and the closed
form of the generator's state turns it into the statement about the last word written.
-/
import MotorPid.Motor.Command
import MotorPid.Clocked.Pwm

namespace MotorPid.Motor

open Clocked Pwm

variable {s : Regs} {g : Gen} {x : In}

/-! ## 1. The relation -/

/-- The registers before a clock hold what the ideal generator holds. -/
structure Refines (s : Regs) (g : Gen) : Prop where
  counter : s.counter.toNat = g.ticks % 2048
  direction : s.clockwiseOut = decide (0 ≤ g.speed)
  magnitude : s.pwmCompare.toNat = speedMag g.speed

/-- The word written on a clock, if there is one. -/
def In.word (x : In) : Option (BitVec 32) :=
  if x.avalonSlaveWrite then some x.avalonSlaveWritedata else none

/-- The speed a clock commands, if it carries a write. -/
def In.speed (x : In) : Option ℤ := x.word.map wordSpeed

/-! ## 2. One clock -/

/-- A reset clock stops the generator, whatever the registers held. -/
theorem refines_reset (h : x.rstReset = true) : Refines (step s x) Gen.stopped := by
  rw [step_reset h]
  exact ⟨rfl, rfl, rfl⟩

/-- **One clock keeps the relation.**  The counter wraps where the generator's phase does, and a
written word is latched as the sign and the magnitude of its speed. -/
theorem Refines.step (hR : Refines s g) (h : x.rstReset = false) :
    Refines (step s x) (g.tick x.speed) := by
  have hcount : (Motor.step s x).counter.toNat = (g.ticks + 1) % 2048 := by
    rw [step_counter h, hR.counter]
    simp only [ctrLen, Nat.reducePow]
    omega
  cases hw : x.avalonSlaveWrite with
  | false =>
    obtain ⟨hmag, hdir⟩ := step_command_idle (s := s) h hw
    refine ⟨hcount, ?_, ?_⟩
    · simpa [hdir, In.speed, In.word, hw, Gen.tick] using hR.direction
    · simpa [hmag, In.speed, In.word, hw, Gen.tick] using hR.magnitude
  | true =>
    obtain ⟨hmag, hdir⟩ := step_command_write (s := s) h hw
    refine ⟨hcount, ?_, ?_⟩
    · simp [hdir, In.speed, In.word, hw, Gen.tick, wordDirection_eq]
    · simp [hmag, In.speed, In.word, hw, Gen.tick, wordMagnitude_toNat]

/-- The clockwise pin after a clock is the forward line of just before it. -/
theorem Refines.m1 (hR : Refines s g) (h : x.rstReset = false) :
    (Motor.step s x).m1 = true ↔ g.Forward 2048 speedMag := by
  rw [step_m1 h, hR.counter, hR.direction, hR.magnitude, decide_eq_true_iff]
  exact Iff.rfl

/-- The counterclockwise pin after a clock is the backward line of just before it. -/
theorem Refines.m2 (hR : Refines s g) (h : x.rstReset = false) :
    (Motor.step s x).m2 = true ↔ g.Backward 2048 speedMag := by
  rw [step_m2 h, hR.counter, hR.direction, hR.magnitude, decide_eq_false_iff_not, not_le]
  exact Iff.rfl

/-! ## 3. Whole runs -/

/-- **The run lemma.**  `k` non-reset clocks after a reset clock, the registers hold what the
ideal generator holds after `k` clocks under the same commands. -/
theorem refines_run {x : ℕ → In} {r k : ℕ} (hr : (x r).rstReset = true)
    (hk : ∀ j, r < j → j ≤ r + k → (x j).rstReset = false) :
    Refines (run s x (r + 1 + k))
      (trace Gen.tick Gen.stopped (fun j => (x (r + 1 + j)).speed) k) := by
  rw [run, trace_add]
  refine trace_relate (R := Refines) (b := k) ?_ ?_ k (Nat.le_refl k)
  · exact refines_reset hr
  · intro t ht r' g' hR
    exact hR.step (hk _ (by omega) (by omega))

/-- The speed in force after the first `m` clocks of a stream: that of the last word written on
one of them, and 0 when none was. -/
def speedInForce (x : ℕ → In) (m : ℕ) : ℤ :=
  ((lastSome (fun j => (x j).word) m).map wordSpeed).getD 0

theorem run_tick_speed (x : ℕ → In) (k : ℕ) :
    trace Gen.tick Gen.stopped (fun j => (x j).speed) k = ⟨k, speedInForce x k⟩ := by
  rw [run_tick, speedInForce, ← lastSome_map]
  rfl

/-- What `speedInForce` reads of the clocks after a reset. -/
theorem refines_speedInForce {x : ℕ → In} {r k : ℕ} (hr : (x r).rstReset = true)
    (hk : ∀ j, r < j → j ≤ r + k → (x j).rstReset = false) :
    Refines (run s x (r + 1 + k)) ⟨k, speedInForce (fun j => x (r + 1 + j)) k⟩ := by
  rw [← run_tick_speed]
  exact refines_run hr hk

/-! ## 4. A stopped motor stays stopped -/

/-- With a zero compare value both pins go low at the next clock. -/
theorem pins_low (h : s.pwmCompare = 0) : (step s x).m1 = false ∧ (step s x).m2 = false := by
  have hoff : s.pwmOn = false := by
    rw [← Bool.not_eq_true, pwmOn_eq_true, h]
    exact Nat.not_lt_zero _
  simp [step, nextM1, nextM2, hoff]

/-- A zero compare value survives every clock that carries no write, a reset included. -/
theorem step_pwmCompare_zero (h : s.pwmCompare = 0) (hw : x.avalonSlaveWrite = false) :
    (step s x).pwmCompare = 0 := by
  simp [step, nextPwmCompare, h, hw]

/-- **A zero magnitude holds until the next write.**  After a non-reset clock `t` that writes a
word of magnitude 0, both pins are low after every clock up to and including the next one with
a write. -/
theorem pins_low_until_write {s : Regs} {x : ℕ → In} {t t' : ℕ} (hr : (x t).rstReset = false)
    (hw : (x t).avalonSlaveWrite = true)
    (h0 : speedMag (wordSpeed (x t).avalonSlaveWritedata) = 0) (htt : t < t')
    (hidle : ∀ j, t < j → j < t' → (x j).avalonSlaveWrite = false) :
    (run s x (t' + 1)).m1 = false ∧ (run s x (t' + 1)).m2 = false := by
  have hstart : (run s x (t + 1)).pwmCompare = 0 := by
    apply BitVec.eq_of_toNat_eq
    rw [run, trace_succ, (step_command_write hr hw).1, wordMagnitude_toNat, h0]
    rfl
  have hkeep : (run s x t').pwmCompare = 0 :=
    trace_invariant (P := fun r : Regs => r.pwmCompare = 0) (a := t + 1) hstart
      (fun j hj hjt r hz => step_pwmCompare_zero hz (hidle j hj hjt)) t' htt (Nat.le_refl t')
  exact pins_low hkeep

/-! ## 5. The waveform has no other history -/

/-- The registers the pins depend on: all but the two of the encoder. -/
def Regs.drive (s : Regs) : BitVec ctrLen × BitVec ctrLen × Bool × Bool × Bool :=
  (s.counter, s.pwmCompare, s.clockwiseOut, s.m1, s.m2)

/-- Two clocks that agree on everything but the encoder. -/
def In.SameBus (x y : In) : Prop :=
  x.rstReset = y.rstReset ∧ x.avalonSlaveWrite = y.avalonSlaveWrite ∧
    x.avalonSlaveWritedata = y.avalonSlaveWritedata

/-- The drive registers evolve on their own: the encoder and the position do not enter. -/
theorem step_drive {s s' : Regs} {x y : In} (hs : s.drive = s'.drive) (hx : x.SameBus y) :
    (step s x).drive = (step s' y).drive := by
  obtain ⟨hr, hw, hd⟩ := hx
  simp only [Regs.drive, Prod.mk.injEq] at hs
  obtain ⟨h1, h2, h3, h4, h5⟩ := hs
  simp [Regs.drive, step, nextCounter, nextPwmCompare, nextClockwiseOut, nextM1, nextM2,
    Regs.pwmOn, h1, h2, h3, hr, hw, hd]

/-- A reset clock leaves the same drive registers whatever was there before. -/
theorem reset_drive {s s' : Regs} {x y : In} (hx : x.rstReset = true) (hy : y.rstReset = true) :
    (step s x).drive = (step s' y).drive := by
  rw [step_reset hx, step_reset hy]
  rfl

/-- **Two runs that agree on the bus from a common reset clock on have the same pins**, whatever
the registers held, the bus carried and the encoder did before it, and whatever the encoder
does after it. -/
theorem pins_eq_of_sameBus {s s' : Regs} {x y : ℕ → In} {r : ℕ} (hx : (x r).rstReset = true)
    (hy : (y r).rstReset = true) (hxy : ∀ j, r < j → (x j).SameBus (y j)) {t : ℕ} (ht : r < t) :
    (run s x t).m1 = (run s' y t).m1 ∧ (run s x t).m2 = (run s' y t).m2 := by
  obtain ⟨n, rfl⟩ := Nat.exists_eq_add_of_le (Nat.succ_le_of_lt ht)
  have hdrive : (run s x (r + 1 + n)).drive = (run s' y (r + 1 + n)).drive := by
    rw [run, run, trace_add step s x (r + 1) n, trace_add step s' y (r + 1) n]
    exact trace_relate (R := fun p q : Regs => p.drive = q.drive) (b := n) (reset_drive hx hy)
      (fun j _ p q hpq => step_drive hpq (hxy _ (by omega))) n (Nat.le_refl n)
  simp only [Regs.drive, Prod.mk.injEq] at hdrive
  exact hdrive.2.2.2

/-! ## 6. The refinement, assembled -/

/-- **The motor component is an ideal sign-magnitude PWM generator with one clock of latency.**
On the `k`-th clock after a reset the pins take the level the ideal waveform has at phase
`(k - 1) % 2048`, at the speed of the last word written on one of the first `k - 1` clocks.  A
word of magnitude 0 keeps both pins low up to the next write, and neither the encoder nor
anything before the reset enters the waveform. -/
theorem pins_refine_generator :
    (∀ (s : Regs) (x : ℕ → In) (r k : ℕ), 1 ≤ k → (x r).rstReset = true →
      (∀ j, r < j → j ≤ r + k → (x j).rstReset = false) →
      ((run s x (r + k + 1)).m1 = true ↔
        0 ≤ speedInForce (fun j => x (r + 1 + j)) (k - 1) ∧
          (k - 1) % 2048 < speedMag (speedInForce (fun j => x (r + 1 + j)) (k - 1))) ∧
      ((run s x (r + k + 1)).m2 = true ↔
        speedInForce (fun j => x (r + 1 + j)) (k - 1) < 0 ∧
          (k - 1) % 2048 < speedMag (speedInForce (fun j => x (r + 1 + j)) (k - 1))) ∧
      ¬ ((run s x (r + k + 1)).m1 = true ∧ (run s x (r + k + 1)).m2 = true)) ∧
    (∀ (s : Regs) (x : ℕ → In) (t t' : ℕ), (x t).rstReset = false →
      (x t).avalonSlaveWrite = true → speedMag (wordSpeed (x t).avalonSlaveWritedata) = 0 →
      t < t' → (∀ j, t < j → j < t' → (x j).avalonSlaveWrite = false) →
      (run s x (t' + 1)).m1 = false ∧ (run s x (t' + 1)).m2 = false) ∧
    (∀ (s s' : Regs) (x y : ℕ → In) (r t : ℕ), (x r).rstReset = true →
      (y r).rstReset = true → (∀ j, r < j → (x j).SameBus (y j)) → r < t →
      (run s x t).m1 = (run s' y t).m1 ∧ (run s x t).m2 = (run s' y t).m2) := by
  refine ⟨?_, ?_, ?_⟩
  · intro s x r k hk1 hr hk
    obtain ⟨m, rfl⟩ : ∃ m, k = m + 1 := ⟨k - 1, by omega⟩
    have hlast : (x (r + 1 + m)).rstReset = false := hk _ (by omega) (by omega)
    have hR : Refines (run s x (r + 1 + m)) ⟨m, speedInForce (fun j => x (r + 1 + j)) m⟩ :=
      refines_speedInForce hr fun j hj hjm => hk j hj (by omega)
    have hclock : r + (m + 1) + 1 = r + 1 + m + 1 := by omega
    have hrun : run s x (r + (m + 1) + 1) = step (run s x (r + 1 + m)) (x (r + 1 + m)) := by
      rw [hclock, run, trace_succ]
    rw [hrun, Nat.add_sub_cancel]
    refine ⟨hR.m1 hlast, hR.m2 hlast, ?_⟩
    rw [hR.m1 hlast, hR.m2 hlast]
    exact Gen.not_forward_and_backward
  · intro s x t t' hr hw h0 htt hidle
    exact pins_low_until_write hr hw h0 htt hidle
  · intro s s' x y r t hx hy hxy ht
    exact pins_eq_of_sameBus hx hy hxy ht

end MotorPid.Motor
