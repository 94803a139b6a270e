/-
# Responses come back in the order of the commands

The data master sees six slaves.  Its commands pass the router, the limiter and a demultiplexer;
the responses come back through `rsp_mux`, whose arbitration scheme is "no-arb": it grants every
slave that has a response and puts out the OR of all their payloads.  What keeps two responses
from being mixed, and one slave from overtaking another, is `altera_merlin_traffic_limiter`: it
holds a command back while responses of another slave are pending.

The limiter is modelled with the parameters of `nios2_gen2_0_data_master_limiter`: no pipeline, no
reordering, no prevention of hazards.  It suppresses by destination id on its side and masks the
demultiplexer by the last channel on the other, and it is the router that makes the two agree.
Of a slave nothing is assumed but that it answers only what it owes; `Fabric.owed` counts that.

`responses_in_order`: as long as no slave owes more than the limiter can count, what the master
receives is beat for beat what the slaves gave, one response for each command and in the order of
the commands; and all that is owed is owed by one slave.
-/
import MotorPid.Bus.Router
import MotorPid.Clocked.History
import Mathlib.Data.Fin.VecNotation
import Mathlib.Data.Fintype.Basic
import Mathlib.Tactic.FinCases

namespace MotorPid.Bus

open Clocked

/-! ## 1. The limiter and the demultiplexer -/

/-- The registers of the limiter that its outputs depend on. -/
structure Limiter where
  lastDestId : BitVec 3
  lastChannel : BitVec 6
  hasPendingResponses : Bool
  pendingResponseCount : BitVec 4

/-- A beat of a command as the master offers it: whether there is one, its address, whether it is a
read, whether it is posted, so that no response to it is owed, and whether it is the last. -/
structure CmdSink where
  valid : Bool
  address : BitVec 29
  readTransaction : Bool
  transPosted : Bool
  endofpacket : Bool

namespace CmdSink

/-- What the router adds. -/
def channel (c : CmdSink) : BitVec 6 := (route c.address c.readTransaction).1

def destId (c : CmdSink) : BitVec 3 := (route c.address c.readTransaction).2

def nonpostedCmd (c : CmdSink) : Bool := !c.transPosted

end CmdSink

namespace Limiter

def reset : Limiter := ⟨0, 0, false, 0⟩

section

variable (s : Limiter) (c : CmdSink) (readyVector : BitVec 6)

def destChanged : Bool := s.lastDestId != c.destId

def suppress : Bool := c.nonpostedCmd && s.hasPendingResponses && s.destChanged c

/-- "We can save the destid if this is an unsuppressed nonposted command": it need not be taken. -/
def saveDestId : Bool := c.valid && !s.suppress c && c.nonpostedCmd

def internalValid : Bool := if s.suppress c then false else c.valid

def wideValid : BitVec 6 := if c.valid then c.channel else 0

/-- "Use the one-hot channel to determine if the destination has changed." -/
def cmdSrcValid : BitVec 6 :=
  if c.nonpostedCmd && s.hasPendingResponses then wideValid c &&& s.lastChannel else wideValid c

/-- `src0_valid` to `src5_valid` of the demultiplexer. -/
def srcValid (i : Fin 6) : Bool := c.channel.getLsbD i && (s.cmdSrcValid c).getLsbD i

/-- `sink_ready` of the demultiplexer: `|(sink_channel & ready_vector)`. -/
def cmdSrcReady : Bool := c.channel &&& readyVector != 0

def nonpostedCmdAccepted : Bool :=
  c.nonpostedCmd && s.internalValid c && (cmdSrcReady c readyVector && c.endofpacket)

/-- One clock; `responseAccepted` is that of the response side. -/
def step (responseAccepted : Bool) : Limiter where
  lastDestId := if s.saveDestId c then c.destId else s.lastDestId
  lastChannel := if s.saveDestId c then c.channel else s.lastChannel
  hasPendingResponses :=
    s.hasPendingResponses && !(s.pendingResponseCount == 1 && responseAccepted
        && !s.nonpostedCmdAccepted c readyVector)
      || (s.pendingResponseCount == 0 && s.nonpostedCmdAccepted c readyVector
        && !responseAccepted)
  pendingResponseCount :=
    if s.nonpostedCmdAccepted c readyVector && responseAccepted then s.pendingResponseCount
    else if responseAccepted then s.pendingResponseCount - 1
    else if s.nonpostedCmdAccepted c readyVector then s.pendingResponseCount + 1
    else s.pendingResponseCount

end

end Limiter

/-! ## 2. The response side -/

/-- `PAYLOAD_W`: channel, data, and whether a beat is the first and the last of its packet. -/
abbrev Payload := BitVec 113

def endofpacket (payload : Payload) : Bool := payload.getLsbD 0

/-- `rsp_mux`: `grant` is `request`, and `request` is `valid`. -/
def rspMuxSrcValid (valid : Fin 6 → Bool) : Bool := (List.finRange 6).any valid

/-- "Implemented as a sum of products." -/
def rspMuxSrcPayload (grant : Fin 6 → Bool) (payload : Fin 6 → Payload) : Payload :=
  (if grant 0 then payload 0 else 0) ||| (if grant 1 then payload 1 else 0)
    ||| (if grant 2 then payload 2 else 0) ||| (if grant 3 then payload 3 else 0)
    ||| (if grant 4 then payload 4 else 0) ||| (if grant 5 then payload 5 else 0)

/-! ## 3. The master's side of the interconnect -/

/-- The limiter, and how many responses each slave owes. -/
structure Fabric where
  limiter : Limiter
  owed : Fin 6 → ℕ

/-- A clock: what the master offers, which slaves would take a command, the beat each would answer
with, and whether the master takes a response. -/
structure FabricIn where
  cmd : CmdSink
  readyVector : BitVec 6
  answer : Fin 6 → Option Payload
  rspSrcReady : Bool

namespace Fabric

def reset : Fabric := ⟨.reset, fun _ => 0⟩

section

variable (s : Fabric) (x : FabricIn)

/-- A slave has a response when it owes one and has come up with it. -/
def rspValid (i : Fin 6) : Bool := decide (0 < s.owed i) && (x.answer i).isSome

/-- The beat the slave hands over, if any. -/
def gives (i : Fin 6) : Option Payload :=
  if s.rspValid x i && x.rspSrcReady then x.answer i else none

/-- The slave is done with a response. -/
def completes (i : Fin 6) : Bool := (s.gives x i).any endofpacket

/-- The slave takes the last beat of a command to which it owes a response. -/
def takes (i : Fin 6) : Bool :=
  s.limiter.srcValid x.cmd i && x.readyVector.getLsbD i && x.cmd.nonpostedCmd && x.cmd.endofpacket

/-- The slaves asked at a clock. -/
def asks : List (Fin 6) := (List.finRange 6).filter (s.takes x)

/-- The beats handed over at a clock, with the slaves they come from. -/
def given : List (Fin 6 × Payload) := (List.finRange 6).filterMap fun i => (s.gives x i).map (i, ·)

/-- The beat that reaches the master at a clock. -/
def receives : Option Payload :=
  if rspMuxSrcValid (s.rspValid x) && x.rspSrcReady then
    some (rspMuxSrcPayload (s.rspValid x) fun i => (x.answer i).getD 0)
  else none

def responseSinkAccepted : Bool := (s.receives x).any endofpacket

/-- One clock. -/
def step : Fabric where
  limiter := s.limiter.step x.cmd x.readyVector (s.responseSinkAccepted x)
  owed := fun i => s.owed i + (if s.takes x i then 1 else 0) - if s.completes x i then 1 else 0

end

end Fabric

/-! ## 4. The router makes channel and destination agree -/

/-- The destination ids by the bits of the channels. -/
def slaveDestId : Fin 6 → BitVec 3 := ![0, 2, 5, 4, 3, 1]

theorem slaveDestId_inj {i j : Fin 6} : slaveDestId i = slaveDestId j ↔ i = j := by
  revert i j
  decide

/-- A command goes to one slave. -/
theorem exists_slave (c : CmdSink) :
    ∃ i : Fin 6, c.channel = BitVec.twoPow 6 i ∧ c.destId = slaveDestId i := by
  obtain ⟨r, hr, hroute⟩ := exists_route c.address c.readTransaction
  rw [CmdSink.channel, CmdSink.destId, hroute]
  simp only [ranges, List.mem_cons, List.not_mem_nil, or_false] at hr
  rcases hr with rfl | rfl | rfl | rfl | rfl | rfl
  · exact ⟨4, rfl, rfl⟩
  · exact ⟨3, rfl, rfl⟩
  · exact ⟨2, rfl, rfl⟩
  · exact ⟨5, rfl, rfl⟩
  · exact ⟨1, rfl, rfl⟩
  · exact ⟨0, rfl, rfl⟩

/-! ## 5. One clock of the limiter -/

namespace Limiter

/-- The limiter when `n` responses are owed, and if any are, by slave `i`. -/
structure Inv (s : Limiter) (n : ℕ) (i : Fin 6) : Prop where
  count : s.pendingResponseCount.toNat = n
  pending : s.hasPendingResponses = decide (0 < n)
  last : 0 < n → s.lastDestId = slaveDestId i ∧ s.lastChannel = BitVec.twoPow 6 i

theorem inv_reset (i : Fin 6) : Inv reset 0 i :=
  ⟨rfl, rfl, fun h => absurd h (lt_irrefl 0)⟩

variable {s : Limiter} {n : ℕ} {i j : Fin 6} {c : CmdSink} {readyVector : BitVec 6}

/-- A command is held back when responses of another slave are pending. -/
theorem Inv.suppress_iff (h : s.Inv n i) (hj : c.destId = slaveDestId j) :
    s.suppress c = true ↔ c.nonpostedCmd = true ∧ 0 < n ∧ j ≠ i := by
  rw [suppress, Bool.and_eq_true, Bool.and_eq_true, h.pending, decide_eq_true_iff, and_assoc,
    destChanged, bne_iff_ne, hj]
  refine and_congr_right fun _ => and_congr_right fun hn => ?_
  rw [(h.last hn).1, Ne, slaveDestId_inj, eq_comm]

theorem twoPow_ne_zero (j : Fin 6) : BitVec.twoPow 6 j.val ≠ 0#6 := by
  revert j
  decide

theorem cmdSrcReady_eq (hj : c.channel = BitVec.twoPow 6 j) :
    cmdSrcReady c readyVector = readyVector.getLsbD j := by
  rw [cmdSrcReady, hj, BitVec.twoPow_and]
  cases readyVector.getLsbD j <;> simp [twoPow_ne_zero]

/-- **The mask and the suppression agree**: the demultiplexer offers a command to its slave, and
to no other, exactly when the limiter lets it through. -/
theorem Inv.srcValid_eq (h : s.Inv n i) (hchannel : c.channel = BitVec.twoPow 6 j)
    (hdest : c.destId = slaveDestId j) (k : Fin 6) :
    s.srcValid c k = (decide (k = j) && s.internalValid c) := by
  have hbit : ∀ l : Fin 6, (BitVec.twoPow 6 l.val).getLsbD k = decide (k = l) := by
    intro l
    rw [BitVec.getLsbD_twoPow, decide_eq_true l.isLt, Bool.true_and, decide_eq_decide, Fin.ext_iff,
      eq_comm]
  have hsuppress := h.suppress_iff hdest
  rw [srcValid, hchannel, hbit, internalValid, cmdSrcValid, wideValid, hchannel]
  cases hv : c.valid with
  | false => simp
  | true =>
    rw [if_pos rfl]
    by_cases hmask : c.nonpostedCmd = true ∧ s.hasPendingResponses = true
    · obtain ⟨hnonposted, hpending⟩ := hmask
      have hn : 0 < n := by rwa [h.pending, decide_eq_true_iff] at hpending
      rw [hnonposted, hpending, Bool.and_self, if_pos rfl, BitVec.getLsbD_and, hbit, (h.last hn).2,
        hbit]
      by_cases hij : j = i
      · have hpass : s.suppress c = false := by
          rw [← Bool.not_eq_true, hsuppress]
          exact fun hc => hc.2.2 hij
        rw [hpass, hij]
        simp
      · have hheld : s.suppress c = true := hsuppress.mpr ⟨hnonposted, hn, hij⟩
        rw [hheld, if_pos rfl, Bool.and_false]
        by_cases hkj : k = j
        · simp [hkj, hij]
        · simp [hkj]
    · have hfree : (c.nonpostedCmd && s.hasPendingResponses) = false := by
        rw [← Bool.not_eq_true, Bool.and_eq_true]
        exact hmask
      have hpass : s.suppress c = false := by rw [suppress, hfree, Bool.false_and]
      rw [hfree, if_neg Bool.false_ne_true, hbit, hpass, if_neg Bool.false_ne_true]
      simp

/-- So the slave takes a command that needs a response exactly when the limiter counts it. -/
theorem Inv.takes_eq (h : s.Inv n i) (hchannel : c.channel = BitVec.twoPow 6 j)
    (hdest : c.destId = slaveDestId j) (k : Fin 6) :
    (s.srcValid c k && readyVector.getLsbD k && c.nonpostedCmd && c.endofpacket)
      = (decide (k = j) && s.nonpostedCmdAccepted c readyVector) := by
  rw [h.srcValid_eq hchannel hdest, nonpostedCmdAccepted, cmdSrcReady_eq hchannel]
  by_cases hkj : k = j
  · rw [hkj]
    cases c.nonpostedCmd <;> cases s.internalValid c <;> simp
  · simp [hkj]

variable (readyVector) in
/-- What is accepted while responses are pending goes where they come from. -/
theorem Inv.eq_of_accepted (h : s.Inv n i) (hdest : c.destId = slaveDestId j)
    (ha : s.nonpostedCmdAccepted c readyVector = true) (hn : 0 < n) : j = i := by
  rw [nonpostedCmdAccepted, Bool.and_eq_true, Bool.and_eq_true] at ha
  by_contra hij
  have hheld := (h.suppress_iff hdest).mpr ⟨ha.1.1, hn, hij⟩
  have hvalid := ha.1.2
  rw [internalValid, if_pos hheld] at hvalid
  exact Bool.false_ne_true hvalid

variable (readyVector) in
/-- **One clock keeps the count and the destination.** -/
theorem Inv.step (h : s.Inv n i) (hchannel : c.channel = BitVec.twoPow 6 j)
    (hdest : c.destId = slaveDestId j) (rsp : Bool) (hrsp : rsp = true → 0 < n)
    (hroom : s.nonpostedCmdAccepted c readyVector = true → rsp = false → n < 15) :
    (s.step c readyVector rsp).Inv
      (n + (if s.nonpostedCmdAccepted c readyVector then 1 else 0) - if rsp then 1 else 0)
      (if s.nonpostedCmdAccepted c readyVector then j else i) := by
  have hcount := h.count
  have hsaved : s.nonpostedCmdAccepted c readyVector = true → s.saveDestId c = true := by
    rw [nonpostedCmdAccepted, saveDestId, internalValid]
    cases s.suppress c <;> cases c.valid <;> cases c.nonpostedCmd <;> simp
  -- what is saved while responses are pending is what was saved before
  have hsame : s.saveDestId c = true → 0 < n → j = i := by
    intro hsave hn
    rw [saveDestId, Bool.and_eq_true, Bool.and_eq_true, Bool.not_eq_true'] at hsave
    by_contra hij
    have hheld := (h.suppress_iff hdest).mpr ⟨hsave.2, hn, hij⟩
    rw [hsave.1.2] at hheld
    exact Bool.false_ne_true hheld
  refine ⟨?_, ?_, ?_⟩
  · rw [Limiter.step]
    generalize s.nonpostedCmdAccepted c readyVector = a at hroom
    cases rsp with
    | false =>
      cases a with
      | false => simpa using hcount
      | true =>
        have hn := hroom rfl rfl
        have hadd : (s.pendingResponseCount + 1).toNat = n + 1 := by
          rw [BitVec.toNat_add, hcount]
          exact Nat.mod_eq_of_lt (by simp; omega)
        simpa using hadd
    | true =>
      have hn := hrsp rfl
      have hsub : (s.pendingResponseCount - 1).toNat = n - 1 := by
        have hle : (1 : BitVec 4) ≤ s.pendingResponseCount := by
          rw [BitVec.le_def, hcount]
          exact hn
        rw [BitVec.toNat_sub_of_le hle, hcount]
        rfl
      cases a with
      | false => simpa using hsub
      | true => simpa using hcount
  · have hone : (s.pendingResponseCount == 1) = decide (n = 1) := by
      rw [Bool.eq_iff_iff, beq_iff_eq, decide_eq_true_iff, ← BitVec.toNat_inj, hcount]
      rfl
    have hzero : (s.pendingResponseCount == 0) = decide (n = 0) := by
      rw [Bool.eq_iff_iff, beq_iff_eq, decide_eq_true_iff, ← BitVec.toNat_inj, hcount]
      rfl
    rw [Limiter.step, h.pending, hone, hzero]
    generalize s.nonpostedCmdAccepted c readyVector = a
    rw [Bool.eq_iff_iff]
    cases rsp with
    | false =>
      cases a with
      | false => simp
      | true =>
        simp
        omega
    | true =>
      have hn := hrsp rfl
      cases a with
      | false =>
        simp
        omega
      | true => simp
  · intro hn
    have hdestReg : (s.step c readyVector rsp).lastDestId
        = if s.saveDestId c then c.destId else s.lastDestId := rfl
    have hchannelReg : (s.step c readyVector rsp).lastChannel
        = if s.saveDestId c then c.channel else s.lastChannel := rfl
    rw [hdestReg, hchannelReg]
    by_cases ha : s.nonpostedCmdAccepted c readyVector = true
    · rw [if_pos ha, if_pos (hsaved ha), if_pos (hsaved ha)]
      exact ⟨hdest, hchannel⟩
    · rw [if_neg ha] at hn ⊢
      by_cases hsave : s.saveDestId c = true
      · rw [if_pos hsave, if_pos hsave, hdest, hchannel, hsame hsave (by omega)]
        exact ⟨rfl, rfl⟩
      · rw [if_neg hsave, if_neg hsave]
        exact h.last (by omega)

end Limiter

/-! ## 6. One clock of the whole -/

namespace Fabric

/-- Where only one of a list has something, that is all there is. -/
theorem filterMap_single {α β : Type*} {f : α → Option β} {i : α} {l : List α} (hl : l.Nodup)
    (hi : i ∈ l) (h : ∀ k, k ≠ i → f k = none) : l.filterMap f = (f i).toList := by
  induction l with
  | nil => exact absurd hi List.not_mem_nil
  | cons k l ih =>
    obtain ⟨hk, hl⟩ := List.nodup_cons.mp hl
    rw [List.filterMap_cons]
    by_cases hki : k = i
    · have hnone : l.filterMap f = [] := by
        rw [List.filterMap_eq_nil_iff]
        intro k' hk'
        exact h k' fun heq => hk (hki ▸ heq ▸ hk')
      rw [hki, hnone]
      cases f i <;> rfl
    · rw [h k hki]
      exact ih hl ((List.mem_cons.mp hi).resolve_left (Ne.symm hki))

/-- The slaves whose responses are complete. -/
def ended (gave : List (Fin 6 × Payload)) : List (Fin 6) :=
  (gave.filter fun g => endofpacket g.2).map Prod.fst

theorem ended_append (gave gave' : List (Fin 6 × Payload)) :
    ended (gave ++ gave') = ended gave ++ ended gave' := by
  rw [ended, List.filter_append, List.map_append]
  rfl

/-- The state of both sides, when `n` responses are owed, and if any are, by slave `i`. -/
structure Inv (s : Fabric) (asked : List (Fin 6)) (gave : List (Fin 6 × Payload))
    (received : List Payload) (n : ℕ) (i : Fin 6) : Prop where
  limiter : s.limiter.Inv n i
  owed : s.owed = fun k => if k = i then n else 0
  order : asked = ended gave ++ List.replicate n i
  exact : received = gave.map Prod.snd

theorem inv_reset : Inv reset [] [] [] 0 0 :=
  ⟨Limiter.inv_reset 0, by funext k; simp [reset], rfl, rfl⟩

section

variable {s : Fabric} {x : FabricIn} {asked : List (Fin 6)} {gave : List (Fin 6 × Payload)}
  {received : List Payload} {n : ℕ} {i : Fin 6}

/-- Only slave `i` has responses. -/
theorem Inv.rspValid_eq (h : Inv s asked gave received n i) (k : Fin 6) :
    s.rspValid x k = (decide (k = i) && (decide (0 < n) && (x.answer i).isSome)) := by
  rw [rspValid, h.owed]
  by_cases hk : k = i
  · simp [hk]
  · simp [hk]

theorem Inv.gives_eq_none (h : Inv s asked gave received n i) {k : Fin 6} (hk : k ≠ i) :
    s.gives x k = none := by
  rw [gives, h.rspValid_eq, decide_eq_false hk]
  simp

theorem Inv.given_eq (h : Inv s asked gave received n i) :
    s.given x = ((s.gives x i).map (i, ·)).toList :=
  filterMap_single (List.nodup_finRange 6) (List.mem_finRange i) fun k hk => by
    rw [h.gives_eq_none hk, Option.map_none]

/-- What is given is owed. -/
theorem Inv.pos_of_gives (h : Inv s asked gave received n i) {p : Payload}
    (hg : s.gives x i = some p) : 0 < n := by
  by_contra hn
  rw [gives, h.rspValid_eq, decide_eq_false hn] at hg
  simp at hg

theorem any_single (i : Fin 6) (b : Bool) :
    ((List.finRange 6).any fun k => decide (k = i) && b) = b := by
  rw [Bool.eq_iff_iff, List.any_eq_true]
  simp [List.mem_finRange]

theorem filter_single (i : Fin 6) (b : Bool) :
    (List.finRange 6).filter (fun k => decide (k = i) && b) = if b then [i] else [] := by
  revert i b
  decide

/-- With one response there is nothing to mix. -/
theorem rspMuxSrcPayload_single (i : Fin 6) (payload : Fin 6 → Payload) :
    rspMuxSrcPayload (fun k => decide (k = i)) payload = payload i := by
  fin_cases i <;> simp [rspMuxSrcPayload]

/-- **The master receives what the slave gives.** -/
theorem Inv.receives_eq (h : Inv s asked gave received n i) : s.receives x = s.gives x i := by
  have hvalid : s.rspValid x = fun k =>
      decide (k = i) && (decide (0 < n) && (x.answer i).isSome) := funext h.rspValid_eq
  have haccepted : (rspMuxSrcValid (s.rspValid x) && x.rspSrcReady) = (s.gives x i).isSome := by
    rw [rspMuxSrcValid, hvalid, any_single, gives, h.rspValid_eq]
    cases x.answer i <;> cases decide (0 < n) <;> cases x.rspSrcReady <;> simp
  rw [receives, haccepted]
  cases hg : s.gives x i with
  | none => rfl
  | some p =>
    have hanswer : x.answer i = some p := by
      rw [gives] at hg
      split at hg
      · exact hg
      · cases hg
    have hone : s.rspValid x = fun k => decide (k = i) := by
      rw [hvalid, decide_eq_true (h.pos_of_gives hg), hanswer]
      simp
    rw [hone, rspMuxSrcPayload_single, hanswer]
    rfl

/-- The limiter counts the responses the slave completes. -/
theorem Inv.responseSinkAccepted_eq (h : Inv s asked gave received n i) :
    s.responseSinkAccepted x = s.completes x i := by
  rw [responseSinkAccepted, h.receives_eq, completes]

theorem Inv.ended_given (h : Inv s asked gave received n i) :
    ended (s.given x) = if s.completes x i then [i] else [] := by
  rw [h.given_eq, completes, ended]
  cases s.gives x i with
  | none => rfl
  | some p => cases hp : endofpacket p <;> simp [hp]

section

variable {j : Fin 6} {a e : Bool}

/-- A command taken (`a`) joins the end of what is owed, a response completed (`e`) leaves from its
beginning. -/
theorem replicate_advance (hto : a = true → 0 < n → j = i) (hdone : e = true → 0 < n) :
    List.replicate n i ++ (if a then [j] else [])
      = (if e then [i] else [])
        ++ List.replicate (n + (if a then 1 else 0) - if e then 1 else 0) (if a then j else i) := by
  rcases Nat.eq_zero_or_pos n with rfl | hn
  · have he : e = false := by
      rw [← Bool.not_eq_true]
      exact fun he => lt_irrefl 0 (hdone he)
    rw [he]
    cases a <;> rfl
  · obtain ⟨m, rfl⟩ : ∃ m, n = m + 1 := ⟨n - 1, by omega⟩
    cases a with
    | false => cases e <;> simp [List.replicate_succ]
    | true =>
      rw [hto rfl hn]
      cases e <;> simp [List.replicate_succ, ← List.replicate_succ']

theorem owed_advance (hto : a = true → 0 < n → j = i) (hdone : e = true → 0 < n) (k : Fin 6) :
    (if k = i then n else 0) + (if decide (k = j) && a then 1 else 0)
        - (if decide (k = i) && e then 1 else 0)
      = if k = (if a then j else i) then n + (if a then 1 else 0) - (if e then 1 else 0)
        else 0 := by
  rcases Nat.eq_zero_or_pos n with rfl | hn
  · have he : e = false := by
      rw [← Bool.not_eq_true]
      exact fun he => lt_irrefl 0 (hdone he)
    rw [he]
    cases a <;> simp
  · cases a with
    | false => by_cases hk : k = i <;> simp [hk]
    | true =>
      rw [hto rfl hn]
      by_cases hk : k = i <;> simp [hk]

end

/-- **One clock keeps the order.** -/
theorem Inv.step (h : Inv s asked gave received n i) (hroom : ∀ k, (s.step x).owed k ≤ 15) :
    ∃ n' i', Inv (s.step x) (asked ++ s.asks x) (gave ++ s.given x)
      (received ++ (s.receives x).toList) n' i' := by
  obtain ⟨j, hchannel, hdest⟩ := exists_slave x.cmd
  have htakes : ∀ k, s.takes x k
      = (decide (k = j) && s.limiter.nonpostedCmdAccepted x.cmd x.readyVector) :=
    h.limiter.takes_eq hchannel hdest
  have hasks : s.asks x
      = if s.limiter.nonpostedCmdAccepted x.cmd x.readyVector then [j] else [] := by
    rw [asks, funext htakes, filter_single]
  have hto := h.limiter.eq_of_accepted x.readyVector hdest
  have hrsp := h.responseSinkAccepted_eq (x := x)
  have hdone : s.completes x i = true → 0 < n := by
    intro hcompletes
    obtain ⟨p, hp, -⟩ := (Option.any_eq_true _ _).mp hcompletes
    exact h.pos_of_gives hp
  have hcompletes : ∀ k, s.completes x k = (decide (k = i) && s.completes x i) := by
    intro k
    by_cases hk : k = i
    · simp [hk]
    · rw [completes, h.gives_eq_none hk, decide_eq_false hk]
      rfl
  have howed : (s.step x).owed = fun k =>
      if k = (if s.limiter.nonpostedCmdAccepted x.cmd x.readyVector then j else i) then
        n + (if s.limiter.nonpostedCmdAccepted x.cmd x.readyVector then 1 else 0)
          - (if s.completes x i then 1 else 0)
      else 0 := by
    funext k
    rw [← owed_advance hto hdone k, ← htakes, ← hcompletes, Fabric.step, h.owed]
  have hlimiter := h.limiter.step x.readyVector hchannel hdest (s.responseSinkAccepted x)
    (by rwa [hrsp]) (by
      intro ha hr
      have hle := hroom j
      rw [hrsp] at hr
      rw [howed, ha, hr] at hle
      simp only [if_true, Bool.false_eq_true, if_false, Nat.sub_zero] at hle
      omega)
  refine ⟨_, _, hlimiter, by rw [howed, hrsp], ?_, ?_⟩
  · rw [hasks, h.order, ended_append, h.ended_given, hrsp, List.append_assoc, List.append_assoc,
      replicate_advance hto hdone]
  · rw [h.receives_eq, h.given_eq, h.exact]
    cases s.gives x i <;> simp

end

/-! ## 7. Runs -/

section

variable (x : ℕ → FabricIn) (t : ℕ)

def run : Fabric := trace step reset x t

/-- The slaves asked before clock `t`, command by command. -/
def asked : List (Fin 6) := collected step asks reset x t

/-- The beats the slaves have handed over, one after the other. -/
def gave : List (Fin 6 × Payload) := collected step given reset x t

/-- The beats the master has received. -/
def received : List Payload := emitted step receives reset x t

end

theorem inv_run (x : ℕ → FabricIn) (t : ℕ) (hroom : ∀ u, u ≤ t → ∀ k, (run x u).owed k ≤ 15) :
    ∃ n i, Inv (run x t) (Fabric.asked x t) (Fabric.gave x t) (Fabric.received x t) n i := by
  induction t with
  | zero => exact ⟨0, 0, inv_reset⟩
  | succ t ih =>
    obtain ⟨n, i, h⟩ := ih fun u hu => hroom u (by omega)
    exact h.step (hroom (t + 1) le_rfl)

end Fabric

open Fabric

/-- **Responses come back in the order of the commands.**  Whatever the master offers and however
the slaves behave, as long as none owes more responses than the limiter can count: the master has
received beat for beat what the slaves have given, in that order; the slaves have completed the
commands in the order they were asked; and what is still owed is owed by one slave. -/
theorem responses_in_order (x : ℕ → FabricIn) (t : ℕ)
    (hroom : ∀ u, u ≤ t → ∀ k, (run x u).owed k ≤ 15) :
    received x t = (gave x t).map Prod.snd ∧
    ∃ n i, asked x t = ended (gave x t) ++ List.replicate n i ∧
      ∀ k, (run x t).owed k = if k = i then n else 0 := by
  obtain ⟨n, i, h⟩ := inv_run x t hroom
  exact ⟨h.exact, n, i, h.order, fun k => congrFun h.owed k⟩

/-- The motor is read, then the key: the command to the key is held back at the second clock, when
the motor still owes its response. -/
def motorThenKey : ℕ → FabricIn
  | 0 => ⟨⟨true, 0x10001050, true, false, true⟩, 0x3F, fun _ => none, true⟩
  | 1 => ⟨⟨true, 0x10001040, true, false, true⟩, 0x3F, fun _ => some 7, true⟩
  | 2 => ⟨⟨true, 0x10001040, true, false, true⟩, 0x3F, fun _ => some 9, true⟩
  | _ => ⟨⟨false, 0, false, false, false⟩, 0x3F, fun _ => some 11, true⟩

theorem responses_in_order_motorThenKey :
    (received motorThenKey 5 = (gave motorThenKey 5).map Prod.snd ∧
      ∃ n i, asked motorThenKey 5 = ended (gave motorThenKey 5) ++ List.replicate n i ∧
        ∀ k, (run motorThenKey 5).owed k = if k = i then n else 0) ∧
    asked motorThenKey 5 = [1, 5] ∧ received motorThenKey 5 = [7, 11] :=
  ⟨responses_in_order motorThenKey 5 (by decide), by decide, by decide⟩

end MotorPid.Bus
