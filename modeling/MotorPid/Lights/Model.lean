/-
# `new_component.v`: the registers of the LED fading component and one clock

Each of the 26 LEDs has a duty threshold `compare[i]` that a write sets to full and that counts
down.  The count goes through a second register `compare_next[i]`, and so does the PWM counter
through `counter_next`; all assignments are non-blocking, so each of the two loops is two clocks
long.  A word array of the source is a function from the LED's index, and so is a packed vector
that the source only indexes (`pwm_bits`, `leds_new_signal`).

The per-LED block resets synchronously.  The other one is sensitive to `posedge rst_reset` as
well, so a rising reset clears `leds_new_signal` and `counter` ahead of the clock that samples
it; nothing reads them in between and that clock clears them again, so one clock with
`rst_reset` high models both.  The port `avalon_slave_address` is read by no block and is not
modelled.
-/
import MotorPid.Clocked.Trace
import Mathlib.Algebra.Order.Ring.Nat

namespace MotorPid.Lights

/-! ## 1. Ports and registers -/

/-- `CTR_LEN`. -/
abbrev ctrLen : ℕ := 26

/-- `MAX_DUTY = 2**26 - 1`: "100% duty cycle". -/
def maxDuty : BitVec ctrLen := 67108863

/-- `CTR_INCR = 2**13`: the counter grows by this much "to grow faster". -/
def ctrIncr : BitVec ctrLen := 8192

/-- The inputs sampled at one clock. -/
structure In where
  rstReset : Bool
  avalonSlaveWrite : Bool
  avalonSlaveWritedata : BitVec 32
  deriving DecidableEq

/-- The registers.  `counterNext` and `compareNext` are registers of the source, not shorthands
for next values. -/
structure Regs where
  counter : BitVec ctrLen
  counterNext : BitVec ctrLen
  compare : Fin 26 → BitVec ctrLen
  compareNext : Fin 26 → BitVec ctrLen
  ledsNewSignal : Fin 26 → Bool

/-- All registers zero. -/
def powerUp : Regs := ⟨0, 0, fun _ => 0, fun _ => 0, fun _ => false⟩

/-- `avalon_slave_write && avalon_slave_writedata[i]`: the clock carries a word that selects
LED `i`. -/
def In.selects (x : In) (i : Fin 26) : Bool :=
  x.avalonSlaveWrite && x.avalonSlaveWritedata.getLsbD i

/-! ## 2. `pwm_gen_loop` -/

/-- The combinational `pwm_bits[i]`: the counter is below the threshold. -/
def Regs.pwmBits (s : Regs) (i : Fin 26) : Bool := if s.counter < s.compare i then true else false

/-- `compare[i]`: "decrement by one or keep same value", but by way of `compare_next[i]`. -/
def nextCompare (s : Regs) (x : In) (i : Fin 26) : BitVec ctrLen :=
  if x.rstReset then 0 else if x.selects i then maxDuty else s.compareNext i

/-! ## 3. The counter, the decrement and the outputs -/

/-- "Decrement compare_next if compare[k] is not already 0". -/
def fade (v : BitVec ctrLen) : BitVec ctrLen := if v ≠ 0 then v - 1 else v

/-- `counter_next` is not assigned in the reset branch: a reset clock keeps it. -/
def nextCounterNext (s : Regs) (x : In) : BitVec ctrLen :=
  if x.rstReset then s.counterNext else s.counter + ctrIncr

/-- `compare_next` is not assigned in the reset branch either. -/
def nextCompareNext (s : Regs) (x : In) (k : Fin 26) : BitVec ctrLen :=
  if x.rstReset then s.compareNext k else fade (s.compare k)

def nextCounter (s : Regs) (x : In) : BitVec ctrLen :=
  if x.rstReset then 0 else s.counterNext

def nextLedsNewSignal (s : Regs) (x : In) (i : Fin 26) : Bool :=
  if x.rstReset then false else s.pwmBits i

/-! ## 4. One clock -/

/-- One clock of the component. -/
def step (s : Regs) (x : In) : Regs where
  counter := nextCounter s x
  counterNext := nextCounterNext s x
  compare := nextCompare s x
  compareNext := nextCompareNext s x
  ledsNewSignal := nextLedsNewSignal s x

/-- The registers just before clock `t`. -/
abbrev run (s : Regs) (x : ℕ → In) (t : ℕ) : Regs := Clocked.trace step s x t

/-- The clock writes LED `i`: no reset, and a word that selects it. -/
def In.writes (x : In) (i : Fin 26) : Bool := !x.rstReset && x.selects i

/-- The clock neither resets nor writes LED `i`. -/
def In.idle (x : In) (i : Fin 26) : Bool := !x.rstReset && !x.selects i

variable {s : Regs} {x : In} {i : Fin 26}

@[simp] theorem pwmBits_eq_true : s.pwmBits i = true ↔ s.counter.toNat < (s.compare i).toNat := by
  simp [Regs.pwmBits, BitVec.lt_def]

@[simp] theorem fade_toNat (v : BitVec ctrLen) : (fade v).toNat = v.toNat - 1 := by
  unfold fade
  split
  · rename_i h
    have hpos : 0 < v.toNat := Nat.pos_of_ne_zero fun h0 => h (BitVec.eq_of_toNat_eq h0)
    have hle : (1 : BitVec ctrLen) ≤ v := hpos
    rw [BitVec.toNat_sub_of_le hle]
    rfl
  · rename_i h
    have h0 : v = 0 := by simpa using h
    rw [h0]
    rfl

/-- Every clock is a reset, a write of LED `i`, or idle for it. -/
theorem clock_cases (x : In) (i : Fin 26) :
    x.rstReset = true ∨ x.writes i = true ∨ x.idle i = true := by
  simp only [In.writes, In.idle]
  cases x.rstReset <;> cases x.selects i <;> simp

theorem writes_iff : x.writes i = true ↔ x.rstReset = false ∧ x.selects i = true := by
  simp [In.writes]

theorem idle_iff : x.idle i = true ↔ x.rstReset = false ∧ x.selects i = false := by
  simp [In.idle]

theorem step_reset_lane (h : x.rstReset = true) :
    (step s x).compare i = 0 ∧ (step s x).compareNext i = s.compareNext i := by
  simp [step, nextCompare, nextCompareNext, h]

theorem step_write_lane (h : x.writes i = true) :
    (step s x).compare i = maxDuty ∧ (step s x).compareNext i = fade (s.compare i) := by
  obtain ⟨hr, hs⟩ := writes_iff.mp h
  simp [step, nextCompare, nextCompareNext, hr, hs]

theorem step_idle_lane (h : x.idle i = true) :
    (step s x).compare i = s.compareNext i ∧ (step s x).compareNext i = fade (s.compare i) := by
  obtain ⟨hr, hs⟩ := idle_iff.mp h
  simp [step, nextCompare, nextCompareNext, hr, hs]

theorem step_reset_counter (h : x.rstReset = true) :
    (step s x).counter = 0 ∧ (step s x).counterNext = s.counterNext ∧
      (step s x).ledsNewSignal = fun _ => false := by
  simp [step, nextCounter, nextCounterNext, nextLedsNewSignal, h, funext_iff]

theorem step_counter (h : x.rstReset = false) :
    (step s x).counter = s.counterNext ∧ (step s x).counterNext = s.counter + ctrIncr ∧
      (step s x).ledsNewSignal = s.pwmBits := by
  simp [step, nextCounter, nextCounterNext, nextLedsNewSignal, h, funext_iff]

end MotorPid.Lights
