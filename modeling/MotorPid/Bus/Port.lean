/-
# The slave port of the motor component

A command packet that has crossed into the motor's clock domain is turned into accesses of the
component by `altera_merlin_slave_agent` and `altera_merlin_slave_translator`, with the parameters
of their `motor_0` instances: one wait cycle for a read, none for a write.  The agent keeps the
header of a read in one FIFO and the translator's answer in another, and puts both together into
the response.

The packets are those `altera_merlin_master_agent` makes for this system: single beats
(`BURSTING` is false, so no read is compressed) and posted writes.  Hence the agent synthesizes no
response and the burst uncompressor behind its response FIFO passes every beat on; neither is
modelled.

Nothing in the source makes the translator wait for room in the answer FIFO: `rdata_fifo_src_ready`
is read by nobody.  That it never overflows is part of the invariant (`Port.Inv`).
-/
import MotorPid.Bus.Fifo
import MotorPid.Motor.Model

namespace MotorPid.Bus

open Clocked

/-! ## 1. Packets -/

/-- `PKT_TRANS_READ` or `PKT_TRANS_WRITE`. -/
inductive Trans where
  | read
  | write
  deriving DecidableEq

/-- The fields of a packet the agent reads or changes; `rest` stands for those it passes on. -/
structure Packet (η : Type*) where
  trans : Trans
  data : BitVec 32
  srcId : BitVec 3
  destId : BitVec 3
  protection : BitVec 3
  rest : η

variable {η : Type*}

/-- `rf_source_data`: "have a data field, but fill it with 0s".  Of the protection bits only
`debugaccess` is kept. -/
def Packet.rfSourceData (p : Packet η) : Packet η :=
  { p with data := 0, protection := p.protection &&& 1 }

/-- `rp_data`: the header of a command with the answer, sent back where the command came from. -/
def Packet.rpData (p : Packet η) (readdata : BitVec 32) : Packet η :=
  { p with data := readdata, srcId := p.destId, destId := p.srcId }

/-- The word a command writes. -/
def Packet.written (p : Packet η) : Option (BitVec 32) :=
  match p.trans with
  | .write => some p.data
  | .read => none

/-- The response to a command that finds the value `v` in the register. -/
def Packet.response (p : Packet η) (v : BitVec 32) : Option (Packet η) :=
  match p.trans with
  | .read => some (p.rfSourceData.rpData v)
  | .write => none

/-! ## 2. Registers and signals -/

/-- The registers of the agent's FIFOs and of the translator. -/
structure Port (η : Type*) where
  waitrequestResetOverride : Bool
  waitLatencyCounter : BitVec 2
  readLatencyShiftReg : Bool
  avReaddataPre : BitVec 32
  rspFifo : Fifo (Packet η) 1
  rdataFifo : Fifo (BitVec 32) 1

/-- The inputs sampled at one clock: the command, the response side and the component. -/
structure PortIn (η : Type*) where
  cpValid : Bool
  cpData : Packet η
  rpReady : Bool
  avReaddata : BitVec 32

namespace Port

/-- The registers after reset; `zero` is what the header FIFO is cleared to. -/
def reset (zero : Packet η) : Port η := ⟨true, 0, false, 0, .reset zero, .reset 0⟩

section

variable (s : Port η) (x : PortIn η)

/-- `ready_for_command`: the header FIFO has room, whether or not the command needs it. -/
def readyForCommand : Bool := !s.rspFifo.memUsed.get 1

def m0Read : Bool := s.readyForCommand && (x.cpValid && x.cpData.trans == .read)

def m0Write : Bool := s.readyForCommand && (x.cpValid && x.cpData.trans == .write)

/-- `uav_waitrequest`; the indices of the wait cycles are 1 for a read and 0 for a write. -/
def m0Waitrequest : Bool :=
  (if s.m0Write x then s.waitLatencyCounter != 0 else s.waitLatencyCounter != 1)
    || s.waitrequestResetOverride

/-- `av_write`: what the motor component sees as `avalon_slave_write`. -/
def avWrite : Bool := s.m0Write x && decide (s.waitLatencyCounter ≤ 0)

def cpReady : Bool := !s.m0Waitrequest x && s.readyForCommand

/-- `uav_read & ~uav_waitrequest & ~waitrequest_reset_override`: a read is done. -/
def readDone : Bool := s.m0Read x && !s.m0Waitrequest x && !s.waitrequestResetOverride

def rfSourceValid : Bool :=
  x.cpValid && x.cpData.trans == .read && (s.readyForCommand && s.cpReady x)

/-- What the translator offers the answer FIFO. -/
def rdataOffer : FifoIn (BitVec 32) := ⟨s.readLatencyShiftReg, s.avReaddataPre, false⟩

def rdataFifoSinkValid : Bool := s.rdataFifo.outValid true s.rdataOffer

def rdataFifoSinkReady : Bool := s.rdataFifoSinkValid && x.rpReady

def rfSinkValid : Bool := s.rspFifo.memUsed.get 0

def rpValid : Bool := s.rdataFifoSinkValid || (s.rfSinkValid && s.rdataFifoSinkValid)

def rfSinkReady : Bool := s.rfSinkValid && s.rdataFifoSinkValid && x.rpReady

def rpData : Packet η := (s.rspFifo.mem.get 0).rpData (s.rdataFifo.outPayload true s.rdataOffer)

def rspIn : FifoIn (Packet η) := ⟨s.rfSourceValid x, x.cpData.rfSourceData, s.rfSinkReady x⟩

def rdataIn : FifoIn (BitVec 32) := { s.rdataOffer with outReady := s.rdataFifoSinkReady x }

/-- One clock. -/
def step : Port η where
  waitrequestResetOverride := false
  waitLatencyCounter :=
    if !s.m0Waitrequest x || s.waitrequestResetOverride then 0
    else if s.m0Read x || s.m0Write x then s.waitLatencyCounter + 1
    else 0
  readLatencyShiftReg := s.readDone x
  avReaddataPre := x.avReaddata
  rspFifo := s.rspFifo.step false (s.rspIn x)
  rdataFifo := s.rdataFifo.step true (s.rdataIn x)

/-- The command taken at a clock, with what the component's register holds just before it. -/
def takes : Option (Packet η × BitVec 32) :=
  if x.cpValid && s.cpReady x then some (x.cpData, x.avReaddata) else none

/-- The response given at a clock. -/
def gives : Option (Packet η) := if s.rpValid && x.rpReady then some s.rpData else none

/-- The word the component is strobed with at a clock. -/
def strobes : Option (BitVec 32) := if s.avWrite x then some x.cpData.data else none

end

/-! ## 3. One clock -/

variable {s : Port η} {x : PortIn η}

/-- The readiness the agent reads is the one the header FIFO acts on. -/
theorem inReady_rspIn : s.rspFifo.inReady false (s.rspIn x) = s.readyForCommand := rfl

theorem takes_eq_some {c : Packet η × BitVec 32} (h : s.takes x = some c) :
    c = (x.cpData, x.avReaddata) ∧ x.cpValid = true ∧ s.readyForCommand = true ∧
      s.m0Waitrequest x = false := by
  simp only [takes, Option.ite_none_right_eq_some, Option.some_inj, cpReady, Bool.and_eq_true,
    Bool.not_eq_true'] at h
  exact ⟨h.2.symm, h.1.1, h.1.2.2, h.1.2.1⟩

/-- A word is strobed when, and only when, a write is taken; but a write offered while the
translator is coming out of reset would be strobed without being taken. -/
theorem strobes_eq (h : s.waitrequestResetOverride = false ∨ x.cpValid = false) :
    s.strobes x = (s.takes x).bind fun c => c.1.written := by
  rcases h with h | h
  · by_cases hw : s.m0Write x = true
    · obtain ⟨hready, hvalid, htrans⟩ : s.readyForCommand = true ∧ x.cpValid = true ∧
          x.cpData.trans = .write := by simpa [m0Write] using hw
      by_cases hcounter : s.waitLatencyCounter = 0#2
      · simp [strobes, avWrite, takes, cpReady, m0Waitrequest, hw, h, hcounter, hready, hvalid,
          Packet.written, htrans]
      · have hle : ¬ s.waitLatencyCounter ≤ 0#2 := by
          rw [BitVec.le_def]
          intro hle
          exact hcounter (BitVec.eq_of_toNat_eq (Nat.le_zero.mp hle))
        simp [strobes, avWrite, takes, cpReady, m0Waitrequest, hw, h, hcounter, hle]
    · have hnone : s.strobes x = none := by simp [strobes, avWrite, hw]
      rw [hnone]
      cases ht : s.takes x with
      | none => rfl
      | some c =>
        obtain ⟨rfl, hvalid, hready, -⟩ := takes_eq_some ht
        cases htrans : x.cpData.trans with
        | read => simp [Packet.written, htrans]
        | write => simp [m0Write, hready, hvalid, htrans] at hw
  · simp [strobes, avWrite, m0Write, takes, h]

/-- The header FIFO is written, and the translator answers, exactly when a read is taken. -/
theorem rfSourceValid_eq : s.rfSourceValid x = s.readDone x := by
  simp only [rfSourceValid, readDone, cpReady, m0Read, m0Waitrequest]
  cases s.readyForCommand <;> cases x.cpValid <;> cases x.cpData.trans <;>
    cases s.waitrequestResetOverride <;> simp

theorem response_taken : ((s.takes x).bind fun c => c.1.response c.2)
    = if s.readDone x then some (x.cpData.rfSourceData.rpData x.avReaddata) else none := by
  have htrans : x.cpData.trans = .read ∨ x.cpData.trans = .write := by
    cases x.cpData.trans <;> simp
  rw [← rfSourceValid_eq, takes, rfSourceValid]
  rcases htrans with htrans | htrans
  · cases hready : s.readyForCommand <;> cases x.cpValid <;> cases hcp : s.cpReady x <;>
      simp [Packet.response, htrans]
    simp [cpReady, hready] at hcp
  · cases x.cpValid <;> cases s.cpReady x <;> simp [Packet.response, htrans]

/-! ## 4. What is under way -/

/-- The responses owed for the commands served. -/
def responses (served : List (Packet η × BitVec 32)) : List (Packet η) :=
  served.filterMap fun c => c.1.response c.2

theorem responses_append (l l' : List (Packet η × BitVec 32)) :
    responses (l ++ l') = responses l ++ responses l' := List.filterMap_append

/-- There is one response for each read served. -/
theorem length_responses (served : List (Packet η × BitVec 32)) :
    (responses served).length = (served.map Prod.fst).countP (fun p => p.trans == .read) := by
  induction served with
  | nil => rfl
  | cons c served ih =>
    rw [responses, List.filterMap_cons, List.map_cons, List.countP_cons, ← ih]
    cases htrans : c.1.trans <;> simp [Packet.response, responses, htrans]

/-- The value the translator is just giving to the answer FIFO. -/
def answer (s : Port η) : List (BitVec 32) :=
  if s.readLatencyShiftReg then [s.avReaddataPre] else []

/-- What holds between the registers, the commands served and the responses given, when the
header FIFO holds `hs` and the answer FIFO `vs`: each header that waits has its answer. -/
structure Inv (s : Port η) (served : List (Packet η × BitVec 32)) (given : List (Packet η))
    (hs : List (Packet η)) (vs : List (BitVec 32)) : Prop where
  headers : s.rspFifo.Holds hs
  values : s.rdataFifo.Holds vs
  paired : hs.length = (vs ++ s.answer).length
  history : responses served = given ++ List.zipWith Packet.rpData hs (vs ++ s.answer)

theorem inv_reset (zero : Packet η) : Inv (reset zero) [] [] [] [] :=
  ⟨Fifo.holds_reset _, Fifo.holds_reset _, rfl, rfl⟩

variable {served : List (Packet η × BitVec 32)} {given hs : List (Packet η)}
  {vs : List (BitVec 32)}

theorem Inv.rfSinkValid_iff (h : Inv s served given hs vs) : s.rfSinkValid = true ↔ hs ≠ [] :=
  h.headers.used_zero

/-- An answer is there exactly when a header waits for it. -/
theorem Inv.sinkValid_eq (h : Inv s served given hs vs) :
    s.rdataFifoSinkValid = s.rfSinkValid := by
  have hany : (vs ≠ [] ∨ s.readLatencyShiftReg = true) ↔ 0 < (vs ++ s.answer).length := by
    rw [List.length_append, ← List.length_pos_iff, answer]
    cases s.readLatencyShiftReg <;> simp
  have hheaders : hs ≠ [] ↔ 0 < (vs ++ s.answer).length := by
    rw [← List.length_pos_iff, h.paired]
  rw [Bool.eq_iff_iff, h.rfSinkValid_iff, hheaders, ← hany, rdataFifoSinkValid,
    h.values.outValid_iff]
  simp [rdataOffer]

/-- **The answer FIFO never overflows**: when the translator answers, there is room. -/
theorem Inv.room (h : Inv s served given hs vs) (hshift : s.readLatencyShiftReg = true) :
    s.rdataFifo.inReady true (s.rdataIn x) = true := by
  have hle := h.headers.length_le
  have hpaired := h.paired
  rw [answer, hshift, if_pos rfl, List.length_append, List.length_singleton] at hpaired
  exact h.values.inReady_iff.mpr (.inl (by omega))

/-- Both FIFOs are read together, when a response is given. -/
theorem Inv.gives_eq (h : Inv s served given hs vs) :
    (s.gives x).toList = List.zipWith Packet.rpData
      (s.rspFifo.leaves false (s.rspIn x)).toList (s.rdataFifo.leaves true (s.rdataIn x)).toList ∧
    (s.rspFifo.leaves false (s.rspIn x)).toList.length
      = (s.rdataFifo.leaves true (s.rdataIn x)).toList.length := by
  have hvalid := h.sinkValid_eq
  have hread : s.rspFifo.read false (s.rspIn x) = (s.rfSinkValid && x.rpReady) := by
    rw [Bool.eq_iff_iff, Fifo.read_iff, h.headers.outValid_iff, ← h.rfSinkValid_iff, rspIn,
      rfSinkReady, hvalid]
    cases s.rfSinkValid <;> simp
  have hread' : s.rdataFifo.read true (s.rdataIn x) = (s.rfSinkValid && x.rpReady) := by
    have hout : s.rdataFifo.outValid true (s.rdataIn x) = s.rdataFifoSinkValid := rfl
    rw [Bool.eq_iff_iff, Fifo.read_iff, hout, rdataIn, rdataFifoSinkReady, hvalid]
    cases s.rfSinkValid <;> simp
  have hgives : s.gives x = if s.rfSinkValid && x.rpReady then some s.rpData else none := by
    simp [gives, rpValid, hvalid]
  rw [hgives, Fifo.leaves, Fifo.leaves, hread, hread']
  cases s.rfSinkValid && x.rpReady with
  | false => exact ⟨rfl, rfl⟩
  | true => exact ⟨rfl, rfl⟩

/-- The headers that go in are those of the reads taken, and the answers that go in are those the
translator gives. -/
theorem Inv.enters_eq (h : Inv s served given hs vs) :
    (s.rspFifo.enters false (s.rspIn x)).toList
      = (if s.readDone x then [x.cpData.rfSourceData] else []) ∧
    (s.rdataFifo.enters true (s.rdataIn x)).toList = s.answer := by
  constructor
  · have hwrite : s.rspFifo.write false (s.rspIn x) = s.readDone x := by
      rw [Fifo.write, inReady_rspIn, ← rfSourceValid_eq, rspIn, rfSourceValid]
      cases s.readyForCommand <;> simp
    rw [Fifo.enters, hwrite]
    split <;> rfl
  · have hwrite : s.rdataFifo.write true (s.rdataIn x) = s.readLatencyShiftReg := by
      rw [Bool.eq_iff_iff, Fifo.write_iff]
      exact ⟨fun hw => hw.2, fun hshift => ⟨h.room hshift, hshift⟩⟩
    rw [Fifo.enters, hwrite, answer]
    split <;> rfl

/-- While at most one header waits, the port takes commands. -/
theorem Inv.readyForCommand (h : Inv s served given hs vs)
    (hone : (responses served).length ≤ given.length + 1) : s.readyForCommand = true := by
  have hlen := congrArg List.length h.history
  rw [List.length_append, List.length_zipWith, h.paired, Nat.min_self, ← h.paired] at hlen
  have hused : s.rspFifo.memUsed.get 1 = false := by
    rw [h.headers.used, decide_eq_false_iff_not, Fin.val_one]
    omega
  rw [Port.readyForCommand, hused]
  rfl

/-- **One clock keeps headers and answers together.** -/
theorem Inv.step (h : Inv s served given hs vs) (x : PortIn η) : ∃ hs' vs',
    Inv (s.step x) (served ++ (s.takes x).toList) (given ++ (s.gives x).toList) hs' vs' := by
  obtain ⟨hs', hheaders, hflow⟩ := h.headers.step false (s.rspIn x)
  obtain ⟨vs', hvalues, hflow'⟩ := h.values.step true (s.rdataIn x)
  obtain ⟨hgives, hleaves⟩ := h.gives_eq (x := x)
  obtain ⟨henters, henters'⟩ := h.enters_eq (x := x)
  have hanswer : (s.step x).answer = if s.readDone x then [x.avReaddata] else [] := rfl
  have hnew : (s.rspFifo.enters false (s.rspIn x)).toList.length
      = (s.step x).answer.length := by
    rw [henters, hanswer]
    split <;> rfl
  have hresponse : responses (s.takes x).toList = List.zipWith Packet.rpData
      (s.rspFifo.enters false (s.rspIn x)).toList (s.step x).answer := by
    have htaken := response_taken (s := s) (x := x)
    rw [henters, hanswer]
    cases ht : s.takes x with
    | none =>
      rw [ht, Option.bind_none] at htaken
      cases hr : s.readDone x with
      | false => rfl
      | true => simp [hr] at htaken
    | some c =>
      rw [ht, Option.bind_some] at htaken
      cases hr : s.readDone x <;> simp [responses, htaken, hr]
  rw [henters'] at hflow'
  refine ⟨hs', vs', hheaders, hvalues, ?_, ?_⟩
  · have hlen := congrArg List.length hflow
    have hlen' := congrArg List.length hflow'
    have hpaired := h.paired
    rw [List.length_append, List.length_append] at hlen hlen'
    rw [List.length_append] at hpaired ⊢
    omega
  · have hall : List.zipWith Packet.rpData hs (vs ++ s.answer) ++ responses (s.takes x).toList
        = (s.gives x).toList ++ List.zipWith Packet.rpData hs' (vs' ++ (s.step x).answer) := by
      rw [hresponse, hgives, ← List.zipWith_append h.paired, ← List.zipWith_append hleaves, hflow,
        hflow', List.append_assoc]
    rw [responses_append, h.history, List.append_assoc, hall, List.append_assoc]

theorem Inv.lossless (h : Inv s served given hs vs) : Lossless (responses served) given 2 :=
  ⟨_, h.history, (List.length_zipWith.trans_le (Nat.min_le_left _ _)).trans h.headers.length_le⟩

/-! ## 5. Whole runs -/

section

variable (zero : Packet η) (x : ℕ → PortIn η)

/-- The port just before clock `t` of a run from reset. -/
abbrev run (t : ℕ) : Port η := trace step (reset zero) x t

/-- The commands taken before clock `t`, each with what the register held just before its clock. -/
def taken (t : ℕ) : List (Packet η × BitVec 32) := emitted step takes (reset zero) x t

/-- The responses given before clock `t`. -/
def answered (t : ℕ) : List (Packet η) := emitted step gives (reset zero) x t

/-- The words the component is strobed with before clock `t`. -/
def strobed (t : ℕ) : List (BitVec 32) := emitted step strobes (reset zero) x t

theorem inv_run (t : ℕ) :
    ∃ hs vs, Inv (run zero x t) (taken zero x t) (answered zero x t) hs vs := by
  refine history_invariant (P := fun s a d => ∃ hs vs, Inv s a d hs vs)
    ⟨[], [], inv_reset zero⟩ ?_ t
  rintro s i a d ⟨hs, vs, h⟩
  exact h.step i

/-- Only the first clock of a run is held up by the reset. -/
theorem override_or_idle (hidle : (x 0).cpValid = false) (t : ℕ) :
    (run zero x t).waitrequestResetOverride = false ∨ (x t).cpValid = false := by
  cases t with
  | zero => exact .inr hidle
  | succ t => exact .inl rfl

theorem strobed_eq (hidle : (x 0).cpValid = false) (t : ℕ) :
    strobed zero x t = (taken zero x t).filterMap fun c => c.1.written := by
  induction t with
  | zero => rfl
  | succ t ih =>
    rw [strobed, emitted_succ, strobes_eq (override_or_idle zero x hidle t), taken, emitted_succ,
      List.filterMap_append, ← strobed, ← taken, ih]
    cases takes (run zero x t) (x t) with
    | none => rfl
    | some c => cases hw : c.1.written <;> simp [hw]

/-- **The port serves each command once.**  For any behaviour of both sides: the responses given
are those owed for the reads taken, each with the register's value just before the clock the read
is taken at, in order and each once, without at most two that wait; a value the translator gives
always finds room; and when no command is offered in the first clock, the component is strobed
with the words of the writes taken, in order and each once. -/
theorem port_serves (t : ℕ) :
    Lossless (responses (taken zero x t)) (answered zero x t) 2 ∧
    ((run zero x t).readLatencyShiftReg = true →
      (run zero x t).rdataFifo.inReady true ((run zero x t).rdataIn (x t)) = true) ∧
    ((x 0).cpValid = false →
      strobed zero x t = (taken zero x t).filterMap fun c => c.1.written) := by
  obtain ⟨hs, vs, h⟩ := inv_run zero x t
  exact ⟨h.lossless, h.room, fun hidle => strobed_eq zero x hidle t⟩

end

end Port

end MotorPid.Bus
