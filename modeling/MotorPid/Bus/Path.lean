/-
# From the processor's port to the motor component and back

The interconnect takes a command of the processor through `crosser` into the board's clock domain
to the slave port of the motor component, and the response of a read through `crosser_004` back.
The multiplexers between them have one input and one output each and are wires.

An instant says which of the two clocks has an edge and what the world does at it.  The parts are
those of the modules before; their invariants are carried side by side and meet in the histories:
what leaves one part is what enters the next.

`path_exact`: for every interleaving of the clocks, the component is strobed with exactly the
words the processor wrote, in program order, and each read returns what the position register held
when it was served.
-/
import MotorPid.Bus.Crosser
import MotorPid.Bus.Port
import MotorPid.Motor.Command

namespace MotorPid.Bus

open Clocked Motor

variable {η : Type*}

/-! ## 1. The parts and their wires -/

/-- The registers between the processor's port of the interconnect and the motor pins. -/
structure Path (η : Type*) where
  crosser : Crosser (Packet η) 2 2
  port : Port η
  motor : Regs
  crosser004 : Crosser (Packet η) 2 2

/-- What the processor's side does at an edge of its clock; the bits are for the first flops of
the two synchronizers it clocks. -/
structure SysEdge (η : Type*) where
  cmdValid : Bool
  cmdData : Packet η
  rspReady : Bool
  random : Bool × Bool

/-- What happens at an edge of the board's clock. -/
structure BoardEdge where
  encodedIn : BitVec 2
  random : Bool × Bool

/-- An instant: the edges at it. -/
structure PathTick (η : Type*) where
  sysEdge : Option (SysEdge η)
  boardEdge : Option BoardEdge

namespace Path

/-- All registers after reset; `c1Prev` of the component follows its input even then. -/
def reset (zero : Packet η) (c1 : Bool) : Path η where
  crosser := .reset zero (le_refl 2) (le_refl 2)
  port := .reset zero
  motor := ⟨0, 0, true, false, false, 0, c1⟩
  crosser004 := .reset zero (le_refl 2) (le_refl 2)

section

variable (s : Path η) (x : PathTick η)

/-- What the port sees at an edge of the board's clock. -/
def portIn : PortIn η :=
  ⟨s.crosser.outValid, s.crosser.outDataBuffer, s.crosser004.inReady, s.motor.avalonSlaveReaddata⟩

/-- What the component sees. -/
def motorIn (e : BoardEdge) : In :=
  ⟨false, s.port.avWrite s.portIn, s.portIn.cpData.data, e.encodedIn⟩

def cmdTick : Tick (Packet η) where
  inEdge := x.sysEdge.map fun e => ⟨e.cmdValid, e.cmdData, e.random.1⟩
  outEdge := x.boardEdge.map fun e => ⟨s.port.cpReady s.portIn, e.random.1⟩

def rspTick : Tick (Packet η) where
  inEdge := x.boardEdge.map fun e => ⟨s.port.rpValid, s.port.rpData, e.random.2⟩
  outEdge := x.sysEdge.map fun e => ⟨e.rspReady, e.random.2⟩

/-- One instant. -/
def step : Path η where
  crosser := s.crosser.step (s.cmdTick x)
  port := if x.boardEdge.isSome then s.port.step s.portIn else s.port
  motor :=
    match x.boardEdge with
    | some e => Motor.step s.motor (s.motorIn e)
    | none => s.motor
  crosser004 := s.crosser004.step (s.rspTick x)

/-- The command the processor's side hands over at an instant. -/
def issues : Option (Packet η) := s.crosser.enters (s.cmdTick x)

/-- The command the port takes, with what the position register holds just before. -/
def serves : Option (Packet η × BitVec 32) :=
  if x.boardEdge.isSome then s.port.takes s.portIn else none

/-- The word the component is strobed with. -/
def strobes : Option (BitVec 32) := if x.boardEdge.isSome then s.port.strobes s.portIn else none

/-- The response the port gives. -/
def answers : Option (Packet η) := if x.boardEdge.isSome then s.port.gives s.portIn else none

/-- The response that reaches the processor's side. -/
def delivers : Option (Packet η) := s.crosser004.leaves (s.rspTick x)

end

/-! ## 2. What leaves one part enters the next -/

variable {s : Path η} {x : PathTick η}

theorem leaves_cmdTick : s.crosser.leaves (s.cmdTick x) = (s.serves x).map Prod.fst := by
  cases hx : x.boardEdge with
  | none => simp [Crosser.leaves, cmdTick, serves, hx]
  | some e =>
    have hboth : s.crosser.outDataTaken ⟨s.port.cpReady s.portIn, e.random.1⟩
        = (s.portIn.cpValid && s.port.cpReady s.portIn) := Bool.and_comm _ _
    simp only [Crosser.leaves, cmdTick, serves, hx, Option.map_some, Option.isSome_some, if_true,
      hboth, Port.takes]
    split <;> rfl

theorem enters_rspTick : s.crosser004.enters (s.rspTick x) = s.answers x := by
  cases hx : x.boardEdge with
  | none => simp [Crosser.enters, rspTick, answers, hx]
  | some e => simp [Crosser.enters, rspTick, answers, hx, Crosser.takeInData, Port.gives, portIn]

/-! ## 3. One instant -/

/-- The command that stands for the last of the words written; none stands for the speed 0. -/
def commandOf (words : List (BitVec 32)) : Bool × ℕ :=
  let v := (words.getLast?.map wordSpeed).getD 0
  (decide (0 ≤ v), speedMag v)

theorem commandOf_append (words : List (BitVec 32)) (w : BitVec 32) :
    commandOf (words ++ [w]) = (decide (0 ≤ wordSpeed w), speedMag (wordSpeed w)) := by
  simp [commandOf]

/-- The invariants of the parts over the histories between them.  Before the first edge of the
board's clock no command has crossed, so the port's clock of coming out of reset finds none. -/
structure Inv (s : Path η) (issued : List (Packet η)) (served : List (Packet η × BitVec 32))
    (answered delivered : List (Packet η)) : Prop where
  there : s.crosser.Inv issued (served.map Prod.fst)
  port : ∃ hs vs, s.port.Inv served answered hs vs
  back : s.crosser004.Inv answered delivered
  fresh : s.port.waitrequestResetOverride = true →
    s.crosser.outDataToggleFlopped = false ∧
      ∀ b ∈ s.crosser.inToOutSynchronizer.stages, b = false
  latched : s.motor.command = commandOf (served.filterMap fun c => c.1.written)

theorem inv_reset (zero : Packet η) (c1 : Bool) : Inv (reset zero c1) [] [] [] [] where
  there := Crosser.inv_reset zero (le_refl 2) (le_refl 2)
  port := ⟨[], [], Port.inv_reset zero⟩
  back := Crosser.inv_reset zero (le_refl 2) (le_refl 2)
  fresh := fun _ => ⟨rfl, Synchronizer.all_reset (le_refl 2)⟩
  latched := rfl

section

variable {issued answered delivered : List (Packet η)} {served : List (Packet η × BitVec 32)}

/-- A command that reaches the port does not find it coming out of reset. -/
theorem Inv.override_or_idle (h : Inv s issued served answered delivered) :
    s.port.waitrequestResetOverride = false ∨ s.portIn.cpValid = false := by
  rw [Classical.or_iff_not_imp_left, Bool.not_eq_false]
  intro hover
  obtain ⟨hflop, hall⟩ := h.fresh hover
  simp [portIn, Crosser.outValid, hflop, hall _ (Synchronizer.dout_mem _)]

/-- A word is strobed exactly when a write is served. -/
theorem Inv.strobes_eq (h : Inv s issued served answered delivered) :
    s.strobes x = (s.serves x).bind fun c => c.1.written := by
  rw [strobes, serves]
  split
  · exact Port.strobes_eq h.override_or_idle
  · rfl

theorem Inv.latched_step (h : Inv s issued served answered delivered) (x : PathTick η) :
    (s.step x).motor.command
      = commandOf ((served ++ (s.serves x).toList).filterMap fun c => c.1.written) := by
  have hstrobe := h.strobes_eq (x := x)
  have hwords : (s.serves x).toList.filterMap (fun c => c.1.written) = (s.strobes x).toList := by
    rw [hstrobe]
    cases s.serves x with
    | none => rfl
    | some c => cases hc : c.1.written <;> simp [hc]
  rw [List.filterMap_append, hwords]
  cases hx : x.boardEdge with
  | none =>
    have hnone : s.strobes x = none := by simp [strobes, hx]
    simpa [step, hx, hnone] using h.latched
  | some e =>
    have hmotor : (s.step x).motor = Motor.step s.motor (s.motorIn e) := by simp [step, hx]
    rw [hmotor]
    cases hw : s.port.avWrite s.portIn with
    | false =>
      have hnone : s.strobes x = none := by simp [strobes, hx, Port.strobes, hw]
      rw [command_idle rfl hw, hnone, Option.toList_none, List.append_nil, h.latched]
    | true =>
      have hsome : s.strobes x = some s.portIn.cpData.data := by
        simp [strobes, hx, Port.strobes, hw]
      rw [command_write rfl hw, hsome, Option.toList_some, commandOf_append]
      rfl

/-- **One instant keeps the invariants of all parts.** -/
theorem Inv.step (h : Inv s issued served answered delivered) (x : PathTick η) :
    Inv (s.step x) (issued ++ (s.issues x).toList) (served ++ (s.serves x).toList)
      (answered ++ (s.answers x).toList) (delivered ++ (s.delivers x).toList) where
  there := by
    have hthere := h.there.step (s.cmdTick x)
    have hmap : ((s.serves x).map Prod.fst).toList = (s.serves x).toList.map Prod.fst := by
      cases s.serves x <;> rfl
    rw [leaves_cmdTick, hmap] at hthere
    rw [List.map_append]
    exact hthere
  port := by
    obtain ⟨hs, vs, hport⟩ := h.port
    cases hx : x.boardEdge with
    | none => exact ⟨hs, vs, by simpa [Path.step, serves, answers, hx] using hport⟩
    | some e => simpa [Path.step, serves, answers, hx] using hport.step s.portIn
  back := by
    have hback := h.back.step (s.rspTick x)
    rwa [enters_rspTick] at hback
  fresh := by
    cases hx : x.boardEdge with
    | none => simpa [Path.step, hx, Crosser.step, cmdTick] using h.fresh
    | some e => simp [Path.step, hx, Port.step]
  latched := h.latched_step x

/-- A response that is delivered had been owed before. -/
theorem Inv.delivers_isPrefix (h : Inv s issued served answered delivered) (x : PathTick η) :
    delivered ++ (s.delivers x).toList <+: Port.responses served := by
  obtain ⟨hs, vs, hport⟩ := h.port
  exact (h.back.leaves_isPrefix (s.rspTick x)).trans ⟨_, hport.history.symm⟩

end

/-! ## 4. Whole runs -/

section

variable (zero : Packet η) (c1 : Bool) (x : ℕ → PathTick η)

/-- The registers just before instant `t` of a run from reset. -/
abbrev run (t : ℕ) : Path η := trace step (reset zero c1) x t

/-- The commands the processor's side has handed over before instant `t`. -/
def issued (t : ℕ) : List (Packet η) := emitted step issues (reset zero c1) x t

/-- The commands served before instant `t`, each with what the position register held. -/
def served (t : ℕ) : List (Packet η × BitVec 32) := emitted step serves (reset zero c1) x t

/-- The words the component has been strobed with before instant `t`. -/
def strobed (t : ℕ) : List (BitVec 32) := emitted step strobes (reset zero c1) x t

/-- The responses the port has given before instant `t`. -/
def answered (t : ℕ) : List (Packet η) := emitted step answers (reset zero c1) x t

/-- The responses that have reached the processor's side before instant `t`. -/
def delivered (t : ℕ) : List (Packet η) := emitted step delivers (reset zero c1) x t

theorem inv_run (t : ℕ) : Inv (run zero c1 x t) (issued zero c1 x t) (served zero c1 x t)
    (answered zero c1 x t) (delivered zero c1 x t) := by
  induction t with
  | zero => exact inv_reset zero c1
  | succ t ih => exact ih.step (x t)

theorem strobed_eq (t : ℕ) :
    strobed zero c1 x t = (served zero c1 x t).filterMap fun c => c.1.written := by
  induction t with
  | zero => rfl
  | succ t ih =>
    rw [strobed, emitted_succ, (inv_run zero c1 x t).strobes_eq, served, emitted_succ,
      List.filterMap_append, ← strobed, ← served, ih]
    cases serves (run zero c1 x t) (x t) with
    | none => rfl
    | some c => cases hw : c.1.written <;> simp [hw]

/-- **Commands are served once, in order, and answered with the position.**  For every
interleaving of the two clocks, every resolution of metastable flops and any behaviour of the
processor's side: the commands served are those handed over, in order, without at most one on the
way; the component is strobed with the words of the writes among them, each once, and holds the
command of the last; and what comes back is one response for each read served, with the value the
position register held just then, in order, without at most three on the way. -/
theorem path_exact (t : ℕ) :
    Lossless (issued zero c1 x t) ((served zero c1 x t).map Prod.fst) 1 ∧
    strobed zero c1 x t = ((served zero c1 x t).filterMap fun c => c.1.written) ∧
    (run zero c1 x t).motor.command = commandOf (strobed zero c1 x t) ∧
    Lossless (Port.responses (served zero c1 x t)) (delivered zero c1 x t) 3 := by
  have h := inv_run zero c1 x t
  obtain ⟨hs, vs, hport⟩ := h.port
  have hresponses : Lossless (Port.responses (served zero c1 x t)) (answered zero c1 x t) 2 :=
    hport.lossless
  refine ⟨h.there.lossless, strobed_eq zero c1 x t, ?_, hresponses.trans h.back.lossless⟩
  rw [strobed_eq]
  exact h.latched

end

end Path

end MotorPid.Bus
