/-
# `motor.v`: the registers of the motor component and one clock

The module is four `always @(posedge clk_clk)` blocks and one combinational one.  Every
assignment in the clocked blocks is non-blocking, so the value a register takes at a clock is a
function of the registers just BEFORE that clock and of the inputs sampled at it.  Each register
has its own `next...` definition, written after the block that assigns it, and `step` updates
all of them at once.

All resets of this module are synchronous.  The ports `avalon_slave_address` and
`avalon_slave_read` are declared by the source and read by none of its blocks, and the
fixed-point `localparam`s are used by none; neither is modelled.
-/
import MotorPid.Clocked.Trace
import Mathlib.Algebra.Order.Ring.Nat

namespace MotorPid.Motor

/-! ## 1. Ports and registers -/

/-- `CTR_LEN`: the width of the duty-cycle counter; "unsigned range for speed is 0-2047". -/
abbrev ctrLen : ℕ := 11

/-- The inputs sampled at one clock. -/
structure In where
  rstReset : Bool
  avalonSlaveWrite : Bool
  avalonSlaveWritedata : BitVec 32
  encodedIn : BitVec 2
  deriving DecidableEq

/-- `wire c1 = encoded_in[1]`. -/
def In.c1 (x : In) : Bool := x.encodedIn.getLsbD 1

/-- `wire c2 = encoded_in[0]`. -/
def In.c2 (x : In) : Bool := x.encodedIn.getLsbD 0

/-- The registers.  `clockwiseOut`, `m1`, `m2` and `c1Prev` are one bit wide. -/
structure Regs where
  counter : BitVec ctrLen
  pwmCompare : BitVec ctrLen
  clockwiseOut : Bool
  m1 : Bool
  m2 : Bool
  motorPositionIn : BitVec 32
  c1Prev : Bool
  deriving DecidableEq

/-! ## 2. Handle PWM duty cycle -/

/-- The combinational `pwm_on`: the counter is below the compare value. -/
def Regs.pwmOn (s : Regs) : Bool := if s.counter < s.pwmCompare then true else false

/-- The counter runs freely, wrapping at its width; only a reset restarts it. -/
def nextCounter (s : Regs) (x : In) : BitVec ctrLen :=
  if x.rstReset then 0 else s.counter + 1

/-! ## 3. Motor speed out -/

/-- The direction a written word selects: "if speed is positive (MSB is 0), set direction to
clockwise".  The bit tested is bit `CTR_LEN`, not bit 31. -/
def wordDirection (w : BitVec 32) : Bool := if w.getLsbD ctrLen then false else true

/-- The magnitude a written word selects.  The negation is taken at 32 bits; the assignment to
the 11-bit register then drops everything above bit 10. -/
def wordMagnitude (w : BitVec 32) : BitVec ctrLen :=
  (if w.getLsbD ctrLen then ~~~w + 1 else w).setWidth ctrLen

def nextClockwiseOut (s : Regs) (x : In) : Bool :=
  if x.rstReset then true
  else if x.avalonSlaveWrite then wordDirection x.avalonSlaveWritedata else s.clockwiseOut

def nextPwmCompare (s : Regs) (x : In) : BitVec ctrLen :=
  if x.rstReset then 0
  else if x.avalonSlaveWrite then wordMagnitude x.avalonSlaveWritedata else s.pwmCompare

/-! ## 4. Write to motor -/

/-- `m1` (GPIO 1) is the clockwise pin. -/
def nextM1 (s : Regs) (x : In) : Bool :=
  if x.rstReset then false
  else if s.pwmOn then (if s.clockwiseOut then true else false) else false

/-- `m2` (GPIO 5) is the counterclockwise pin. -/
def nextM2 (s : Regs) (x : In) : Bool :=
  if x.rstReset then false
  else if s.pwmOn then (if s.clockwiseOut then false else true) else false

/-- `assign pwm_out = {m1, m2}`. -/
def Regs.pwmOut (s : Regs) : Bool × Bool := (s.m1, s.m2)

/-! ## 5. Track motor position -/

/-- On a rising edge of `c1` the position counts up when `c2` is already high and down when it
is not; on every other clock it is kept. -/
def nextMotorPositionIn (s : Regs) (x : In) : BitVec 32 :=
  if x.rstReset then 0
  else if x.c1 && !s.c1Prev then
    (if x.c2 then s.motorPositionIn + 1 else s.motorPositionIn - 1)
  else s.motorPositionIn

/-- `assign avalon_slave_readdata = motor_position_in`: what `IORD` returns. -/
def Regs.avalonSlaveReaddata (s : Regs) : BitVec 32 := s.motorPositionIn

/-! ## 6. One clock -/

/-- One rising edge of `clk_clk`.  `c1_prev` follows `c1` on every clock, reset or not. -/
def step (s : Regs) (x : In) : Regs where
  counter := nextCounter s x
  pwmCompare := nextPwmCompare s x
  clockwiseOut := nextClockwiseOut s x
  m1 := nextM1 s x
  m2 := nextM2 s x
  motorPositionIn := nextMotorPositionIn s x
  c1Prev := x.c1

/-- The registers just before clock `t`. -/
abbrev run (s : Regs) (x : ℕ → In) (t : ℕ) : Regs := Clocked.trace step s x t

variable {s : Regs} {x : In}

@[simp] theorem pwmOn_eq_true : s.pwmOn = true ↔ s.counter.toNat < s.pwmCompare.toNat := by
  simp [Regs.pwmOn, BitVec.lt_def]

theorem step_counter (h : x.rstReset = false) :
    (step s x).counter.toNat = (s.counter.toNat + 1) % 2 ^ ctrLen := by
  simp [step, nextCounter, h]

theorem step_command_idle (h : x.rstReset = false) (hw : x.avalonSlaveWrite = false) :
    (step s x).pwmCompare = s.pwmCompare ∧ (step s x).clockwiseOut = s.clockwiseOut := by
  simp [step, nextPwmCompare, nextClockwiseOut, h, hw]

theorem step_command_write (h : x.rstReset = false) (hw : x.avalonSlaveWrite = true) :
    (step s x).pwmCompare = wordMagnitude x.avalonSlaveWritedata ∧
      (step s x).clockwiseOut = wordDirection x.avalonSlaveWritedata := by
  simp [step, nextPwmCompare, nextClockwiseOut, h, hw]

/-- The pins after a clock show the duty cycle and the direction of just before it. -/
theorem step_m1 (h : x.rstReset = false) :
    (step s x).m1 = true ↔ s.clockwiseOut = true ∧ s.counter.toNat < s.pwmCompare.toNat := by
  rw [← pwmOn_eq_true]
  cases hon : s.pwmOn <;> cases hd : s.clockwiseOut <;> simp [step, nextM1, h, hon, hd]

theorem step_m2 (h : x.rstReset = false) :
    (step s x).m2 = true ↔ s.clockwiseOut = false ∧ s.counter.toNat < s.pwmCompare.toNat := by
  rw [← pwmOn_eq_true]
  cases hon : s.pwmOn <;> cases hd : s.clockwiseOut <;> simp [step, nextM2, h, hon, hd]

/-- What a reset clock leaves, whatever was there before. -/
theorem step_reset (h : x.rstReset = true) :
    step s x = ⟨0, 0, true, false, false, 0, x.c1⟩ := by
  simp [step, nextCounter, nextPwmCompare, nextClockwiseOut, nextM1, nextM2,
    nextMotorPositionIn, h]

end MotorPid.Motor
