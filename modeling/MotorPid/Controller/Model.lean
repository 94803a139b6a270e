/-
# `hello_world.c`: the controller program

The program is one `main` with a control loop that leaves by a `break`, and `map_pwm`.  Its
`float`s are read as exact rationals and its `int`s as integers; a conversion of a `float` to
`int` truncates toward zero and is undefined when the result does not fit (`floatToInt?`).  The
only such conversion whose value is not bounded by the code around it is the one in
`current_time_ms += delay_ms`.

`pass` is one iteration of the loop as a step of a machine whose input is the word `IORD` returns
in it, so `main` is a run (`mainRun`).  A run records the values of the log line of each
iteration, in which `pwm` is the word the iteration writes with `IOWR`.

Not modelled: the sleep between iterations, and `prev_pos` and `real_speed_rpms`, which only a
commented-out log line reads.
-/
import MotorPid.Clocked.Trace
import Mathlib.Data.Rat.Floor
import Mathlib.Algebra.Order.Field.Basic
import Mathlib.Tactic.NormNum

namespace MotorPid.Controller

/-! ## 1. Parameters -/

/-- `PPR`: encoder pulses per revolution of the motor. -/
abbrev ppr : ℚ := 7

/-- `GR`: the gear ratio. -/
abbrev gr : ℚ := 50

abbrev minPwm : ℤ := 1150

abbrev maxPwm : ℤ := 2047

/-- The parameters at the head of the file.  The time step is a divisor and must be positive. -/
structure Params where
  /-- Time in seconds for motor to run. -/
  totalTime : ℚ
  /-- `T_S`: controller time step in seconds. -/
  tS : ℚ
  /-- `RPMs`: target speed; its sign is the requested direction. -/
  rpms : ℚ
  kp : ℚ
  kd : ℚ
  ki : ℚ
  tS_pos : 0 < tS

/-- The values in the file. -/
def Params.inFile : Params where
  totalTime := 60
  tS := 1 / 10
  rpms := -30
  kp := 35
  kd := 165 / 100
  ki := 0
  tS_pos := by norm_num

namespace Params

variable (P : Params)

def totalTimeMs : ℚ := P.totalTime * 1000

def delayMs : ℚ := P.tS * 1000

/-- Increase in target position each cycle to maintain the requested speed. -/
def targetIncr : ℚ := P.rpms * gr * ppr * P.delayMs / 60000

/-- `deltaT`: ms to s. -/
def deltaT : ℚ := P.delayMs * (1 / 1000)

end Params

/-! ## 2. Conversions -/

/-- Truncation toward zero. -/
def truncInt (x : ℚ) : ℤ := if 0 ≤ x then ⌊x⌋ else ⌈x⌉

/-- `INT_MAX` of the 32-bit `int`. -/
abbrev intMax : ℤ := 2147483647

/-- Conversion of a `float` to `int`: `none` where C leaves it undefined. -/
def floatToInt? (x : ℚ) : Option ℤ :=
  if -intMax - 1 ≤ truncInt x ∧ truncInt x ≤ intMax then some (truncInt x) else none

/-! ## 3. From effort to command -/

/-- `map_pwm`: linear interpolation onto 1150..2047, saturating at the top. -/
def mapPwm (x : ℚ) : ℤ :=
  if x > maxPwm then maxPwm
  else truncInt (x * (maxPwm - minPwm) / maxPwm + minPwm)

/-- `sign` and `u` after the override of an effort that opposes the requested direction. -/
def override (rpms u : ℚ) : ℤ × ℚ :=
  let sign := if u > 0 then 1 else -1
  if u < 0 ∧ rpms > 0 then (1, 0)
  else if u > 0 ∧ rpms < 0 then (-1, 0)
  else (sign, u)

/-- `pwm`, the command an effort is turned into. -/
def command (rpms u : ℚ) : ℤ := (override rpms u).1 * mapPwm |(override rpms u).2|

/-! ## 4. One iteration -/

/-- The `float` variables that live across iterations. -/
structure Vars where
  eprev : ℚ
  eIntegral : ℚ
  target : ℚ

/-- Their initial values. -/
def Vars.start : Vars := ⟨0, 0, 0⟩

section

variable (P : Params) (s : Vars) (pos : ℤ)

def nextTarget : ℚ := s.target + P.targetIncr

/-- The error `e` of an iteration that reads the position `pos`. -/
def error : ℚ := nextTarget P s - pos

def dedt : ℚ := (error P s pos - s.eprev) / P.deltaT

def nextEIntegral : ℚ := s.eIntegral + error P s pos * P.deltaT

/-- The control signal `u`, before the override. -/
def effort : ℚ :=
  P.kp * error P s pos + P.kd * dedt P s pos + P.ki * nextEIntegral P s pos

/-- The variables after an iteration. -/
def nextVars : Vars where
  eprev := error P s pos
  eIntegral := nextEIntegral P s pos
  target := nextTarget P s

end

/-- The values of the log line of one iteration. -/
structure Cycle where
  target : ℚ
  pos : ℤ
  e : ℚ
  u : ℚ
  pwm : ℤ

def cycle (P : Params) (s : Vars) (pos : ℤ) : Cycle where
  target := nextTarget P s
  pos := pos
  e := error P s pos
  u := (override P.rpms (effort P s pos)).2
  pwm := command P.rpms (effort P s pos)

/-! ## 5. The loop -/

/-- How far `main` has come: still in the loop, with the iterations so far; returned; or in a
conversion C leaves undefined. -/
inductive Progress where
  | looping (s : Vars) (currentTimeMs : ℤ) (log : List Cycle)
  | returned (log : List Cycle)
  | undefined (log : List Cycle)

def Progress.log : Progress → List Cycle
  | .looping _ _ log => log
  | .returned log => log
  | .undefined log => log

/-- The commands the loop has written, in order. -/
def Progress.commands (p : Progress) : List ℤ := p.log.map Cycle.pwm

/-- All words written to the motor, in order.  The break out of the loop writes a 0 first. -/
def Progress.words : Progress → List ℤ
  | .returned log => (Progress.returned log).commands ++ [0]
  | p => p.commands

/-- One iteration of the loop; nothing once the loop is left. -/
def pass (P : Params) : Progress → ℤ → Progress
  | .looping s currentTimeMs log, pos =>
    match floatToInt? (currentTimeMs + P.delayMs) with
    | none => .undefined (log ++ [cycle P s pos])
    | some t =>
      if t ≥ P.totalTimeMs then .returned (log ++ [cycle P s pos])
      else .looping (nextVars P s pos) t (log ++ [cycle P s pos])
  | p, _ => p

/-- `main`, after `n` iterations (or fewer, if it has left the loop before), when the `k`-th
`IORD` returns `iord k`. -/
abbrev mainRun (P : Params) (iord : ℕ → ℤ) (n : ℕ) : Progress :=
  Clocked.trace (pass P) (.looping .start 0 []) iord n

end MotorPid.Controller
