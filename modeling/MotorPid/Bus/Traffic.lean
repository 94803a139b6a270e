/-
# The motor among the other slaves

The data master reaches the motor component through the router, the limiter and the demultiplexer,
and so it does memory, key, UART and counter; `rsp_mux` puts their responses together.  Here the
path to the motor takes its place as one of the six slaves of the fabric; the others are only
supposed to answer what they owe, and not to owe more than the limiter can count.

That the motor does so is proved, so that the model's own guard on its responses guards nothing
(`motor_among_slaves`, its last part).  The rest is what a program can rely on that uses the motor
between any other accesses: what enters the motor's path are the commands to its two addresses, and
what comes back from it reaches the master unmixed and in the order of the commands.
-/
import MotorPid.Bus.Limiter
import MotorPid.Bus.Path

namespace MotorPid.Bus

open Clocked

variable {η : Type*}

/-! ## 1. The master's side with the motor in place -/

/-- `src1` of the demultiplexer and `sink1` of `rsp_mux`. -/
def motorSlave : Fin 6 := ⟨1, by decide⟩

/-- An edge of the processor's clock: the command the master offers, what the other slaves do, and
whether the master takes a response. -/
structure MasterEdge (η : Type*) where
  cmdValid : Bool
  address : BitVec 29
  packet : Packet η
  readyVector : BitVec 6
  answer : Fin 6 → Option Payload
  rspReady : Bool
  random : Bool × Bool

structure MasterTick (η : Type*) where
  sysEdge : Option (MasterEdge η)
  boardEdge : Option BoardEdge

/-- `altera_merlin_master_agent`: commands are single beats, and writes are posted. -/
def MasterEdge.cmd (e : MasterEdge η) : CmdSink where
  valid := e.cmdValid
  address := e.address
  readTransaction := e.packet.trans == .read
  transPosted := e.packet.trans == .write
  endofpacket := true

structure Traffic (η : Type*) where
  fabric : Fabric
  path : Path η

namespace Traffic

def reset (zero : Packet η) (c1 : Bool) : Traffic η := ⟨.reset, .reset zero c1⟩

section

variable (pack : Packet η → Payload) (s : Traffic η) (x : MasterTick η) (e : MasterEdge η)

/-- The fabric sees the motor's crossers as it does the other slaves. -/
def fabricIn : FabricIn where
  cmd := e.cmd
  readyVector := e.readyVector &&& ~~~BitVec.twoPow 6 motorSlave
    ||| if s.path.crosser.inReady then BitVec.twoPow 6 motorSlave else 0
  answer := fun i =>
    if i = motorSlave then
      if s.path.crosser004.outValid then some (pack s.path.crosser004.outDataBuffer) else none
    else e.answer i
  rspSrcReady := e.rspReady

/-- The motor's path sees one output of the demultiplexer and its grant at `rsp_mux`. -/
def sysEdge : SysEdge η where
  cmdValid := s.fabric.limiter.srcValid e.cmd motorSlave
  cmdData := e.packet
  rspReady := e.rspReady && s.path.crosser004.outValid
  random := e.random

def pathTick : PathTick η := ⟨x.sysEdge.map s.sysEdge, x.boardEdge⟩

/-- One instant. -/
def step : Traffic η where
  fabric :=
    match x.sysEdge with
    | some e => s.fabric.step (s.fabricIn pack e)
    | none => s.fabric
  path := s.path.step (s.pathTick x)

/-- The command the master gets rid of at an instant, with its address. -/
def accepts : Option (BitVec 29 × Packet η) :=
  match x.sysEdge with
  | some e =>
    if e.cmdValid && !s.fabric.limiter.suppress e.cmd
        && Limiter.cmdSrcReady e.cmd (s.fabricIn pack e).readyVector then
      some (e.address, e.packet)
    else none
  | none => none

def asks : List (Fin 6) :=
  match x.sysEdge with
  | some e => s.fabric.asks (s.fabricIn pack e)
  | none => []

def given : List (Fin 6 × Payload) :=
  match x.sysEdge with
  | some e => s.fabric.given (s.fabricIn pack e)
  | none => []

def receives : Option Payload :=
  match x.sysEdge with
  | some e => s.fabric.receives (s.fabricIn pack e)
  | none => none

end

/-- The command goes to the motor. -/
def ToMotor (c : BitVec 29 × Packet η) : Prop := motor0.Contains c.1 (c.2.trans == .read)

instance (c : BitVec 29 × Packet η) : Decidable (ToMotor c) :=
  inferInstanceAs (Decidable (motor0.Contains _ _))

/-! ## 2. One edge of the processor's clock -/

variable {pack : Packet η → Payload} {s : Traffic η} {e : MasterEdge η}

theorem getLsbD_readyVector :
    (s.fabricIn pack e).readyVector.getLsbD motorSlave = s.path.crosser.inReady := by
  unfold fabricIn
  rw [BitVec.getLsbD_or, BitVec.getLsbD_and, BitVec.getLsbD_not]
  cases s.path.crosser.inReady <;> simp [motorSlave]

theorem twoPow_eq_channel {j : Fin 6} : BitVec.twoPow 6 j = motor0.channel ↔ motorSlave = j := by
  revert j
  decide

/-- A command goes to the motor exactly when the router says so. -/
theorem toMotor_iff {j : Fin 6} (hj : e.cmd.channel = BitVec.twoPow 6 j) :
    ToMotor (e.address, e.packet) ↔ motorSlave = j := by
  have hrange : motor0 ∈ ranges := by simp [ranges]
  have hdefault : motor0 ≠ newSdramController0 := by
    intro h
    exact absurd (congrArg Range.start h) (by decide)
  have hchannel := channel_eq_iff e.address (e.packet.trans == .read) hrange hdefault
  have hroute : (route e.address (e.packet.trans == .read)).1 = BitVec.twoPow 6 j := hj
  rw [hroute, twoPow_eq_channel] at hchannel
  exact hchannel.symm

variable {x : MasterTick η} {n : ℕ} {i : Fin 6}

theorem issues_of_edge (hx : x.sysEdge = some e) :
    s.path.issues (s.pathTick x)
      = if s.fabric.limiter.srcValid e.cmd motorSlave && s.path.crosser.inReady then some e.packet
        else none := by
  unfold Path.issues Crosser.enters Path.cmdTick pathTick
  rw [hx]
  rfl

theorem delivers_of_edge (hx : x.sysEdge = some e) :
    s.path.delivers (s.pathTick x)
      = if s.path.crosser004.outValid && e.rspReady then some s.path.crosser004.outDataBuffer
        else none := by
  have hleaves : s.path.delivers (s.pathTick x)
      = if (e.rspReady && s.path.crosser004.outValid) && s.path.crosser004.outValid then
          some s.path.crosser004.outDataBuffer
        else none := by
    unfold Path.delivers Crosser.leaves Path.rspTick pathTick
    rw [hx]
    rfl
  rw [hleaves, Bool.and_assoc, Bool.and_self, Bool.and_comm]

variable (pack x) in
/-- **What enters the motor's path** are the commands to its addresses. -/
theorem issues_eq (h : s.fabric.limiter.Inv n i) :
    s.path.issues (s.pathTick x)
      = (s.accepts pack x).bind fun c => if ToMotor c then some c.2 else none := by
  cases hx : x.sysEdge with
  | none =>
    unfold Path.issues Crosser.enters Path.cmdTick pathTick accepts
    rw [hx]
    rfl
  | some e =>
    obtain ⟨j, hchannel, hdest⟩ := exists_slave e.cmd
    have haccepts : s.accepts pack x
        = if e.cmdValid && !s.fabric.limiter.suppress e.cmd
            && (s.fabricIn pack e).readyVector.getLsbD j then some (e.address, e.packet)
          else none := by
      unfold accepts
      rw [hx, ← Limiter.cmdSrcReady_eq hchannel]
    have hvalid : e.cmd.valid = e.cmdValid := rfl
    rw [issues_of_edge hx, haccepts, h.srcValid_eq hchannel hdest, Limiter.internalValid, hvalid]
    by_cases hj : motorSlave = j
    · subst hj
      rw [getLsbD_readyVector, decide_eq_true rfl]
      have hto := (toMotor_iff hchannel).mpr rfl
      cases e.cmdValid <;> cases s.fabric.limiter.suppress e.cmd <;>
        cases s.path.crosser.inReady <;> simp [hto]
    · have hto : ¬ ToMotor (e.address, e.packet) := fun hto => hj ((toMotor_iff hchannel).mp hto)
      rw [decide_eq_false hj, Bool.false_and, Bool.false_and, if_neg Bool.false_ne_true]
      split
      · rw [Option.bind_some, if_neg hto]
      · rfl

variable (pack) in
/-- The reads among them are what the motor is asked. -/
theorem countP_issues (hx : x.sysEdge = some e) :
    (s.path.issues (s.pathTick x)).toList.countP (fun p => p.trans == .read)
      = if s.fabric.takes (s.fabricIn pack e) motorSlave then 1 else 0 := by
  have htakes : s.fabric.takes (s.fabricIn pack e) motorSlave
      = (s.fabric.limiter.srcValid e.cmd motorSlave && s.path.crosser.inReady
          && !(e.packet.trans == .write)) := by
    rw [Fabric.takes, getLsbD_readyVector]
    exact Bool.and_true _
  rw [htakes, issues_of_edge hx]
  cases s.fabric.limiter.srcValid e.cmd motorSlave && s.path.crosser.inReady with
  | false => rfl
  | true => cases htrans : e.packet.trans <;> simp [htrans]

variable (pack) in
/-- What the motor gives to the fabric is what comes back from its path, when that is owed. -/
theorem gives_motor (hx : x.sysEdge = some e)
    (howed : s.path.crosser004.outValid = true → 0 < s.fabric.owed motorSlave) :
    s.fabric.gives (s.fabricIn pack e) motorSlave
      = (s.path.delivers (s.pathTick x)).map pack := by
  have hready : (s.fabricIn pack e).rspSrcReady = e.rspReady := rfl
  have hanswer : (s.fabricIn pack e).answer motorSlave
      = if s.path.crosser004.outValid then some (pack s.path.crosser004.outDataBuffer)
        else none := rfl
  rw [delivers_of_edge hx]
  unfold Fabric.gives Fabric.rspValid
  rw [hready, hanswer]
  cases hvalid : s.path.crosser004.outValid with
  | false => simp
  | true =>
    rw [decide_eq_true (howed hvalid)]
    cases e.rspReady <;> simp

/-! ## 3. One instant -/

/-- Both sides over their histories: what was accepted and asked, given and received at the fabric,
and what went through the motor's path. -/
structure Inv (pack : Packet η → Payload) (s : Traffic η) (accepted : List (BitVec 29 × Packet η))
    (asked : List (Fin 6)) (gave : List (Fin 6 × Payload)) (received : List Payload)
    (issued : List (Packet η)) (served : List (Packet η × BitVec 32))
    (answered delivered : List (Packet η)) : Prop where
  fabric : ∃ n i, s.fabric.Inv asked gave received n i
  path : s.path.Inv issued served answered delivered
  commands : issued = (accepted.filter fun c => ToMotor c).map Prod.snd
  owed : s.fabric.owed motorSlave + delivered.length
    = issued.countP fun p => p.trans == .read
  responses : (gave.filter fun g => g.1 = motorSlave).map Prod.snd = delivered.map pack

theorem inv_reset (zero : Packet η) (c1 : Bool) :
    Inv pack (reset zero c1) [] [] [] [] [] [] [] [] :=
  ⟨⟨0, 0, Fabric.inv_reset⟩, Path.inv_reset zero c1, rfl, rfl, rfl⟩

section

variable {path : Path η} {issued answered delivered : List (Packet η)}
  {served : List (Packet η × BitVec 32)}

/-- **The motor answers only what it owes.** -/
theorem length_delivered_lt (h : path.Inv issued served answered delivered)
    (hvalid : path.crosser004.outValid = true) :
    delivered.length < issued.countP fun p => p.trans == .read := by
  -- a master that took the response would have one more
  have hmore := h.delivers_isPrefix
    ⟨some ⟨false, path.crosser.inDataBuffer, true, false, false⟩, none⟩
  have hdelivers : path.delivers ⟨some ⟨false, path.crosser.inDataBuffer, true, false, false⟩, none⟩
      = some path.crosser004.outDataBuffer := by
    simp [Path.delivers, Crosser.leaves, Path.rspTick, Crosser.outDataTaken, hvalid]
  have hlength := hmore.length_le
  obtain ⟨held, hissued, -⟩ := h.there.lossless
  rw [hdelivers, Option.toList_some, List.length_append, List.length_singleton,
    Port.length_responses] at hlength
  rw [hissued, List.countP_append]
  omega

/-- And it never owes more than four. -/
theorem countP_issued_le (h : path.Inv issued served answered delivered) :
    issued.countP (fun p => p.trans == .read) ≤ delivered.length + 4 := by
  obtain ⟨held, hissued, hheld⟩ := h.there.lossless
  obtain ⟨hs, vs, hport⟩ := h.port
  obtain ⟨held', hresponses, hheld'⟩ := Lossless.trans hport.lossless h.back.lossless
  have hlength := congrArg List.length hresponses
  have hreads := List.countP_le_length (p := fun p : Packet η => p.trans == .read) (l := held)
  rw [Port.length_responses, List.length_append] at hlength
  rw [hissued, List.countP_append]
  omega

end

section

variable {accepted : List (BitVec 29 × Packet η)} {asked : List (Fin 6)}
  {gave : List (Fin 6 × Payload)} {received : List Payload}
  {issued answered delivered : List (Packet η)} {served : List (Packet η × BitVec 32)}

theorem Inv.owed_pos (h : Inv pack s accepted asked gave received issued served answered delivered)
    (hvalid : s.path.crosser004.outValid = true) : 0 < s.fabric.owed motorSlave := by
  have hlt := length_delivered_lt h.path hvalid
  have howed := h.owed
  omega

/-- The responses given by the motor at an instant. -/
theorem filter_given {f : FabricIn} {b : Fabric} {asked : List (Fin 6)}
    {gave : List (Fin 6 × Payload)} {received : List Payload} {n : ℕ} {i : Fin 6}
    (h : b.Inv asked gave received n i) :
    ((b.given f).filter fun g => g.1 = motorSlave).map Prod.snd
      = (b.gives f motorSlave).toList := by
  rw [h.given_eq]
  by_cases hi : motorSlave = i
  · subst hi
    cases b.gives f motorSlave <;> simp
  · rw [h.gives_eq_none hi]
    cases b.gives f i with
    | none => rfl
    | some p =>
      have hne : i ≠ motorSlave := fun h => hi h.symm
      simp [hne]

/-- **One instant.** -/
theorem Inv.step (h : Inv pack s accepted asked gave received issued served answered delivered)
    (hpack : ∀ p, endofpacket (pack p) = true) (x : MasterTick η)
    (hroom : ∀ k, k ≠ motorSlave → (s.step pack x).fabric.owed k ≤ 15) :
    Inv pack (s.step pack x) (accepted ++ (s.accepts pack x).toList) (asked ++ s.asks pack x)
      (gave ++ s.given pack x) (received ++ (s.receives pack x).toList)
      (issued ++ (s.path.issues (s.pathTick x)).toList)
      (served ++ (s.path.serves (s.pathTick x)).toList)
      (answered ++ (s.path.answers (s.pathTick x)).toList)
      (delivered ++ (s.path.delivers (s.pathTick x)).toList) := by
  obtain ⟨n, i, hfabric⟩ := h.fabric
  have hpath := h.path.step (s.pathTick x)
  have hissues := issues_eq pack x hfabric.limiter
  have hcommands : issued ++ (s.path.issues (s.pathTick x)).toList
      = ((accepted ++ (s.accepts pack x).toList).filter fun c => ToMotor c).map Prod.snd := by
    rw [hissues, h.commands, List.filter_append, List.map_append]
    congr 1
    cases s.accepts pack x with
    | none => rfl
    | some c => by_cases hc : ToMotor c <;> simp [hc]
  cases hx : x.sysEdge with
  | none =>
    have hsame : (s.step pack x).fabric = s.fabric := by simp [Traffic.step, hx]
    have hnoIssue : s.path.issues (s.pathTick x) = none := by
      simp [Path.issues, Crosser.enters, Path.cmdTick, pathTick, hx]
    have hnoDelivery : s.path.delivers (s.pathTick x) = none := by
      simp [Path.delivers, Crosser.leaves, Path.rspTick, pathTick, hx]
    have hasks : s.asks pack x = [] := by simp [asks, hx]
    have hgiven : s.given pack x = [] := by simp [given, hx]
    have hreceives : s.receives pack x = none := by simp [receives, hx]
    refine ⟨?_, hpath, hcommands, ?_, ?_⟩
    · rw [hsame, hasks, hgiven, hreceives, Option.toList_none, List.append_nil, List.append_nil,
        List.append_nil]
      exact h.fabric
    · rw [hsame, hnoIssue, hnoDelivery, Option.toList_none, List.append_nil, List.append_nil]
      exact h.owed
    · rw [hgiven, hnoDelivery, Option.toList_none, List.append_nil, List.append_nil]
      exact h.responses
  | some e =>
    have hnext : (s.step pack x).fabric = s.fabric.step (s.fabricIn pack e) := by
      simp [Traffic.step, hx]
    have hgives := gives_motor pack hx h.owed_pos
    have hcompletes : s.fabric.completes (s.fabricIn pack e) motorSlave
        = (s.path.delivers (s.pathTick x)).isSome := by
      rw [Fabric.completes, hgives]
      cases s.path.delivers (s.pathTick x) with
      | none => rfl
      | some p => exact hpack p
    have howed : (s.step pack x).fabric.owed motorSlave
          + (delivered ++ (s.path.delivers (s.pathTick x)).toList).length
        = (issued ++ (s.path.issues (s.pathTick x)).toList).countP fun p => p.trans == .read := by
      have hbefore := h.owed
      have hdelivers := delivers_of_edge (s := s) hx
      have howes : (s.step pack x).fabric.owed motorSlave = s.fabric.owed motorSlave
          + (if s.fabric.takes (s.fabricIn pack e) motorSlave then 1 else 0)
          - if s.fabric.completes (s.fabricIn pack e) motorSlave then 1 else 0 := by
        rw [hnext]
        rfl
      rw [howes, hcompletes, List.countP_append, countP_issues pack hx,
        List.length_append]
      cases hd : s.path.delivers (s.pathTick x) with
      | none =>
        simp only [Option.isSome_none, Bool.false_eq_true, if_false, Option.toList_none,
          List.length_nil]
        omega
      | some p =>
        have hvalid : s.path.crosser004.outValid = true := by
          rw [hd] at hdelivers
          by_contra hinvalid
          rw [Bool.not_eq_true] at hinvalid
          rw [hinvalid] at hdelivers
          cases hdelivers
        have hpos := h.owed_pos hvalid
        simp only [Option.isSome_some, if_true, Option.toList_some, List.length_singleton]
        omega
    have hroom' : ∀ k, (s.fabric.step (s.fabricIn pack e)).owed k ≤ 15 := by
      intro k
      by_cases hk : k = motorSlave
      · have hle := countP_issued_le hpath
        rw [← howed, hnext] at hle
        rw [hk]
        omega
      · rw [← hnext]
        exact hroom k hk
    have hasks : s.asks pack x = s.fabric.asks (s.fabricIn pack e) := by simp [asks, hx]
    have hgiven : s.given pack x = s.fabric.given (s.fabricIn pack e) := by simp [given, hx]
    have hreceives : s.receives pack x = s.fabric.receives (s.fabricIn pack e) := by
      simp [receives, hx]
    refine ⟨?_, hpath, hcommands, howed, ?_⟩
    · rw [hnext, hasks, hgiven, hreceives]
      exact hfabric.step hroom'
    · rw [hgiven, List.filter_append, List.map_append, h.responses, filter_given hfabric, hgives,
        List.map_append]
      cases s.path.delivers (s.pathTick x) <;> rfl

end

/-! ## 4. Runs -/

section

variable (pack : Packet η → Payload) (zero : Packet η) (c1 : Bool) (x : ℕ → MasterTick η) (t : ℕ)

def run : Traffic η := trace (step pack) (reset zero c1) x t

/-- The commands the master has got rid of, with their addresses. -/
def accepted : List (BitVec 29 × Packet η) :=
  emitted (step pack) (accepts pack) (reset zero c1) x t

/-- The slaves it has asked for a response. -/
def asked : List (Fin 6) := collected (step pack) (asks pack) (reset zero c1) x t

/-- The beats the slaves have given. -/
def gave : List (Fin 6 × Payload) := collected (step pack) (given pack) (reset zero c1) x t

/-- The beats the master has received. -/
def received : List Payload := emitted (step pack) (receives pack) (reset zero c1) x t

/-- What the motor's path sees of a run. -/
def pathTicks : PathTick η := (run pack zero c1 x t).pathTick (x t)

end

section

variable {pack : Packet η → Payload} {zero : Packet η} {c1 : Bool} {x : ℕ → MasterTick η}

theorem path_run (t : ℕ) :
    (run pack zero c1 x t).path = Path.run zero c1 (pathTicks pack zero c1 x) t := by
  induction t with
  | zero => rfl
  | succ t ih =>
    rw [Path.run, trace_succ, ← Path.run, ← ih]
    rfl

/-- The invariant of a run, with the histories of the motor's path. -/
theorem inv_run (hpack : ∀ p, endofpacket (pack p) = true) (t : ℕ)
    (hroom : ∀ u, u ≤ t → ∀ k, k ≠ motorSlave → (run pack zero c1 x u).fabric.owed k ≤ 15) :
    Inv pack (run pack zero c1 x t) (accepted pack zero c1 x t) (asked pack zero c1 x t)
      (gave pack zero c1 x t) (received pack zero c1 x t)
      (Path.issued zero c1 (pathTicks pack zero c1 x) t)
      (Path.served zero c1 (pathTicks pack zero c1 x) t)
      (Path.answered zero c1 (pathTicks pack zero c1 x) t)
      (Path.delivered zero c1 (pathTicks pack zero c1 x) t) := by
  induction t with
  | zero => exact inv_reset zero c1
  | succ t ih =>
    have h := (ih fun u hu => hroom u (by omega)).step hpack (x t) (hroom (t + 1) le_rfl)
    rw [path_run] at h
    exact h

end

end Traffic

open Traffic

/-- **The motor among any other traffic.**  Whatever the data master accesses in between, for every
interleaving of the clocks, every metastable outcome and any behaviour of the other slaves within
the limiter's count: the path to the motor runs as it would alone, on the commands to the motor's
addresses and no others, in program order; all responses reach the master unmixed and in the order
of the commands; those of the motor among them are what came back from its path; and the motor
offers a response only when it owes one. -/
theorem motor_among_slaves (pack : Packet η → Payload) (zero : Packet η) (c1 : Bool)
    (x : ℕ → MasterTick η) (t : ℕ) (hpack : ∀ p, endofpacket (pack p) = true)
    (hroom : ∀ u, u ≤ t → ∀ k, k ≠ motorSlave → (run pack zero c1 x u).fabric.owed k ≤ 15) :
    (run pack zero c1 x t).path = Path.run zero c1 (pathTicks pack zero c1 x) t ∧
    Path.issued zero c1 (pathTicks pack zero c1 x) t
      = ((accepted pack zero c1 x t).filter fun c => ToMotor c).map Prod.snd ∧
    received pack zero c1 x t = (gave pack zero c1 x t).map Prod.snd ∧
    (∃ n i, asked pack zero c1 x t
      = Fabric.ended (gave pack zero c1 x t) ++ List.replicate n i) ∧
    ((gave pack zero c1 x t).filter fun g => g.1 = motorSlave).map Prod.snd
      = (Path.delivered zero c1 (pathTicks pack zero c1 x) t).map pack ∧
    ((run pack zero c1 x t).path.crosser004.outValid = true →
      0 < (run pack zero c1 x t).fabric.owed motorSlave) := by
  have h := inv_run hpack t hroom
  obtain ⟨n, i, hfabric⟩ := h.fabric
  exact ⟨path_run t, h.commands, hfabric.exact, ⟨n, i, hfabric.order⟩, h.responses, h.owed_pos⟩

/-- The answer in the payload, with the mark of a last beat. -/
def packAnswer (p : Packet Unit) : Payload := p.data.setWidth 113 <<< 1 ||| 1

theorem endofpacket_packAnswer (p : Packet Unit) : endofpacket (packAnswer p) = true := by
  unfold endofpacket packAnswer
  rw [BitVec.getLsbD_or]
  simp

def noPacket : Packet Unit := ⟨.read, 0, 0, 0, 0, ()⟩

/-- A read of the motor, then one of the UART. -/
def motorThenUart (t : ℕ) : MasterTick Unit where
  sysEdge := some
    ⟨true, if t = 0 then 0x10001050 else 0x10001058, noPacket, 0x3F, fun _ => none, true, false,
      false⟩
  boardEdge := some ⟨0, false, false⟩

/-- The second waits for the first. -/
theorem motor_among_slaves_motorThenUart :
    ((run packAnswer noPacket true motorThenUart 2).path
        = Path.run noPacket true (pathTicks packAnswer noPacket true motorThenUart) 2 ∧
      Path.issued noPacket true (pathTicks packAnswer noPacket true motorThenUart) 2
        = ((accepted packAnswer noPacket true motorThenUart 2).filter
          fun c => ToMotor c).map Prod.snd) ∧
    asked packAnswer noPacket true motorThenUart 2 = [motorSlave] := by
  have h := motor_among_slaves packAnswer noPacket true motorThenUart 2 endofpacket_packAnswer
    (by decide)
  exact ⟨⟨h.1, h.2.1⟩, by decide⟩

end MotorPid.Bus
