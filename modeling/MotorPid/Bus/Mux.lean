/-
# Two masters at one slave

The data and the instruction master share the SDRAM and the debug memory.  In front of each stands
`cmd_mux_003`: it grants the slave to one of them for a packet at a time, keeps the grant while the
packet pauses or the master holds the lock, and asks the arbitrator one clock ahead.

`packets_whole`: in every run what reaches the slave is beat for beat what the masters handed over,
and the beats of a packet are not interrupted by the other master.  `waits_one_packet`: a master
that waits sees at most one packet of the other end, and the mux choose twice.
-/
import MotorPid.Bus.Arbitrator
import MotorPid.Bus.Limiter
import Mathlib.Data.List.Chain

namespace MotorPid.Bus

open Bits Clocked

/-! ## 1. The multiplexer -/

/-- `lock[i]`, bit `PKT_TRANS_LOCK` of the data. -/
def transLock (payload : Payload) : Bool := payload.getLsbD (69 + 2)

structure MuxSink where
  valid : Bool
  payload : Payload

structure MuxIn where
  sink : Fin 2 → MuxSink
  srcReady : Bool

/-- The registers of `cmd_mux_003` that its outputs depend on. -/
structure CmdMux where
  locked : BitVec 2
  packetInProgress : Bool
  shareCount : BitVec 1
  shareCountZeroFlag : Bool
  savedGrant : BitVec 2
  arb : Arbitrator 2

/-- `sink0`. -/
def dataMaster : Fin 2 := ⟨0, by decide⟩

/-- `sink1`. -/
def instructionMaster : Fin 2 := ⟨1, by decide⟩

/-- A vector from its bits. -/
def vec (bit : Fin 2 → Bool) : BitVec 2 :=
  BitVec.ofBool (bit instructionMaster) ++ BitVec.ofBool (bit dataMaster)

namespace CmdMux

def reset : CmdMux := ⟨0, false, 0, true, 0, .reset⟩

section

variable (s : CmdMux) (x : MuxIn)

def valid : BitVec 2 := vec fun i => (x.sink i).valid

def lock : BitVec 2 := vec fun i => transLock (x.sink i).payload

def grant : BitVec 2 := s.savedGrant

def srcValid : Bool := s.grant &&& valid x != 0

/-- "Implemented as a sum of products." -/
def srcPayload : Payload :=
  (if s.grant.getLsbD 0 then (x.sink dataMaster).payload else 0)
    ||| if s.grant.getLsbD 1 then (x.sink instructionMaster).payload else 0

def sinkReady (i : Fin 2) : Bool := x.srcReady && s.grant.getLsbD i

def lastCycle : Bool :=
  s.srcValid x && x.srcReady && endofpacket (s.srcPayload x) && !(lock x &&& s.grant != 0)

/-- "The pipeline delays grant by one cycle, so we have to calculate the update_grant signal one
cycle ahead of time." -/
def updateGrant : Bool :=
  !s.packetInProgress && !s.srcValid x || s.lastCycle x && s.shareCountZeroFlag

def arbIn : ArbIn 2 where
  request := valid x ||| s.locked
  incrementTopPriority := s.updateGrant x
  saveTopPriority := s.srcValid x

def nextGrant : BitVec 2 := s.arb.grant .roundRobin (s.arbIn x).request

/-- `share_0` and `share_1`, one packet each. -/
def share : Fin 2 → BitVec 1 := fun _ => 0

def nextGrantShare : BitVec 1 :=
  (if (s.nextGrant x).getLsbD 0 then share dataMaster else 0)
    ||| if (s.nextGrant x).getLsbD 1 then share instructionMaster else 0

/-- "Update the counter, but don't decrement below 0." -/
def p1ShareCount : BitVec 1 := if s.shareCountZeroFlag then 0 else s.shareCount - 1

/-- One clock. -/
def step : CmdMux where
  locked := s.nextGrant x &&& lock x
  packetInProgress :=
    if s.lastCycle x then false else if s.srcValid x then true else s.packetInProgress
  shareCount :=
    if s.updateGrant x then s.nextGrantShare x
    else if s.lastCycle x then s.p1ShareCount else s.shareCount
  shareCountZeroFlag :=
    if s.updateGrant x then s.nextGrantShare x == 0
    else if s.lastCycle x then s.p1ShareCount == 0 else s.shareCountZeroFlag
  savedGrant := if s.updateGrant x then s.nextGrant x else s.savedGrant
  arb := s.arb.step .roundRobin true (s.arbIn x)

/-- The beat that reaches the slave at a clock. -/
def gives : Option Payload :=
  if s.srcValid x && x.srcReady then some (s.srcPayload x) else none

/-- The beat that master `i` hands over. -/
def takes (i : Fin 2) : Option Payload :=
  if (x.sink i).valid && s.sinkReady x i then some (x.sink i).payload else none

/-- The beats handed over at a clock, with the masters they come from. -/
def taken : List (Fin 2 × Payload) :=
  (List.finRange 2).filterMap fun i => (s.takes x i).map (i, ·)

end

/-- After this beat the master may lose the grant. -/
def Ends (beat : Fin 2 × Payload) : Prop :=
  endofpacket beat.2 = true ∧ transLock beat.2 = false

instance (beat : Fin 2 × Payload) : Decidable (Ends beat) := inferInstanceAs (Decidable (_ ∧ _))

/-! ## 2. Who has the grant -/

theorem getLsbD_vec (bit : Fin 2 → Bool) (i : Fin 2) : (vec bit).getLsbD i = bit i := by
  have hbits : ∀ b b' : Bool, (BitVec.ofBool b' ++ BitVec.ofBool b).getLsbD 0 = b
      ∧ (BitVec.ofBool b' ++ BitVec.ofBool b).getLsbD 1 = b' := by decide
  obtain ⟨hlow, hhigh⟩ := hbits (bit dataMaster) (bit instructionMaster)
  unfold vec
  fin_cases i
  · exact hlow
  · exact hhigh

/-- Master `i` has the grant. -/
abbrev Granted (s : CmdMux) (i : Fin 2) : Prop := s.savedGrant = BitVec.twoPow 2 i

variable {s : CmdMux} {x : MuxIn} {i : Fin 2}

theorem getLsbD_twoPow_fin (i k : Fin 2) : (BitVec.twoPow 2 i.val).getLsbD k = decide (k = i) := by
  revert i k
  decide

theorem twoPow_and_ne_zero (i : Fin 2) (v : BitVec 2) :
    (BitVec.twoPow 2 i.val &&& v != 0) = v.getLsbD i := by
  revert i v
  decide

/-- The mux is the granted master's. -/
theorem srcValid_eq (h : s.Granted i) : s.srcValid x = (x.sink i).valid := by
  unfold srcValid grant valid
  rw [h, twoPow_and_ne_zero, getLsbD_vec]

theorem srcPayload_eq (h : s.Granted i) : s.srcPayload x = (x.sink i).payload := by
  unfold srcPayload grant
  rw [h]
  fin_cases i <;> simp [dataMaster, instructionMaster]

theorem lastCycle_eq (h : s.Granted i) :
    s.lastCycle x = ((x.sink i).valid && x.srcReady && endofpacket (x.sink i).payload
      && !transLock (x.sink i).payload) := by
  unfold lastCycle grant lock
  rw [srcValid_eq h, srcPayload_eq h, h, BitVec.and_comm, twoPow_and_ne_zero, getLsbD_vec]

theorem takes_eq (h : s.Granted i) (k : Fin 2) :
    s.takes x k
      = if k = i ∧ (x.sink i).valid = true ∧ x.srcReady = true then some (x.sink i).payload
        else none := by
  unfold takes sinkReady grant
  rw [h, getLsbD_twoPow_fin]
  by_cases hk : k = i
  · rw [hk]
    cases (x.sink i).valid <;> cases x.srcReady <;> simp
  · simp [hk]

/-- What the slave gets is what the granted master hands over. -/
theorem taken_eq (h : s.Granted i) : s.taken x = ((s.gives x).map (i, ·)).toList := by
  have hothers : ∀ k, k ≠ i → (s.takes x k).map (k, ·) = none := by
    intro k hk
    rw [takes_eq h, if_neg fun hand => hk hand.1]
    rfl
  rw [taken, Fabric.filterMap_single (List.nodup_finRange 2) (List.mem_finRange i) hothers,
    takes_eq h, gives, srcValid_eq h, srcPayload_eq h]
  cases (x.sink i).valid <;> cases x.srcReady <;> simp

theorem srcValid_of_none (h : s.savedGrant = 0) : s.srcValid x = false := by
  unfold srcValid grant
  simp [h]

theorem taken_of_none (h : s.savedGrant = 0) : s.taken x = [] := by
  have hnone : ∀ k, s.takes x k = none := by
    intro k
    unfold takes sinkReady grant
    rw [h]
    simp
  unfold taken
  simp [hnone]

/-! ## 3. One clock -/

/-- What holds after the beats `beats`: the share counter is idle; the arbitrator has its top
priority behind the master that has the grant; and after a beat that is not the end of a packet, the
grant stays. -/
structure Inv (s : CmdMux) (beats : List (Fin 2 × Payload)) (out : List Payload) : Prop where
  zeroFlag : s.shareCountZeroFlag = true
  top : ∃ p, s.arb.Top p
  grant : s.savedGrant = 0 ∨ ∃ i, s.Granted i ∧ s.arb.Top ((i + 1) % 2)
  inside : ∀ b ∈ beats.getLast?, ¬ Ends b → s.packetInProgress = true ∧ s.Granted b.1
  whole : beats.IsChain fun b b' => ¬ Ends b → b'.1 = b.1
  exact : out = beats.map Prod.snd

theorem inv_reset : Inv reset [] [] :=
  ⟨rfl, ⟨0, Arbitrator.top_reset one_lt_two⟩, .inl rfl, fun _ h => absurd h (by simp),
    List.isChain_nil, rfl⟩

variable {beats : List (Fin 2 × Payload)} {out : List Payload}

theorem share_zero : s.nextGrantShare x = 0 := by
  unfold nextGrantShare share
  simp

theorem Inv.step_zeroFlag (h : Inv s beats out) : (s.step x).shareCountZeroFlag = true := by
  have hp1 : s.p1ShareCount = 0 := if_pos h.zeroFlag
  unfold CmdMux.step
  simp only [share_zero, hp1, h.zeroFlag]
  split
  · rfl
  · split <;> rfl

/-- When the mux chooses, the arbitrator goes on. -/
theorem Inv.step_grant (h : Inv s beats out) (hupdate : s.updateGrant x = true) :
    (s.step x).savedGrant = 0 ∨
      ∃ i, (s.step x).Granted i ∧ (s.step x).arb.Top ((i + 1) % 2) := by
  obtain ⟨p, hp⟩ := h.top
  have hgrant : (s.step x).savedGrant = s.nextGrant x := if_pos hupdate
  have hnext : (s.step x).arb = s.arb.step .roundRobin true (s.arbIn x) := rfl
  unfold Granted
  rw [hgrant, hnext]
  rcases hp.step one_lt_two (s.arbIn x) with ⟨hidle, -⟩ | ⟨k, hk, -, hgranted, -, htop⟩
  · have hzero : (s.arbIn x).request = 0 :=
      hidle.resolve_right fun hstop => Bool.noConfusion (hstop.symm.trans hupdate)
    refine .inl ?_
    rw [nextGrant, hp.grant_eq one_lt_two, hzero]
    rcases cyclicFirst_cases (0 : BitVec 2) hp.lt with ⟨-, hnone⟩ | ⟨i, -, -, hset, -⟩
    · exact hnone
    · exact Bool.noConfusion (hset.symm.trans BitVec.getLsbD_zero)
  · exact .inr ⟨⟨k, hk⟩, hgranted, htop⟩

/-- Otherwise both stay. -/
theorem step_idle (hupdate : s.updateGrant x = false) :
    (s.step x).savedGrant = s.savedGrant ∧ (s.step x).arb = s.arb := by
  unfold CmdMux.step Arbitrator.step arbIn
  rw [hupdate]
  exact ⟨rfl, rfl⟩

/-- In the middle of a packet the mux does not choose. -/
theorem inside_step (hvalid : s.packetInProgress = true ∨ s.srcValid x = true)
    (hlast : s.lastCycle x = false) :
    (s.step x).packetInProgress = true ∧ s.updateGrant x = false := by
  unfold CmdMux.step updateGrant
  rw [hlast]
  cases hv : s.srcValid x with
  | true => simp
  | false =>
    have hprogress : s.packetInProgress = true := by simpa [hv] using hvalid
    simp [hprogress]

/-- A beat handed over is the granted master's, and ends the packet or does not. -/
theorem lastCycle_of_gives (h : s.Granted i) {payload : Payload}
    (hgives : s.gives x = some payload) :
    s.srcValid x = true ∧ (s.lastCycle x = true ↔ Ends (i, payload)) := by
  have hpair : s.srcValid x = true ∧ x.srcReady = true ∧ s.srcPayload x = payload := by
    unfold gives at hgives
    split at hgives
    · next hand =>
      rw [Bool.and_eq_true] at hand
      exact ⟨hand.1, hand.2, Option.some.inj hgives⟩
    · cases hgives
  obtain ⟨hvalid, hready, hpayload⟩ := hpair
  refine ⟨hvalid, ?_⟩
  rw [srcValid_eq h] at hvalid
  rw [srcPayload_eq h] at hpayload
  rw [lastCycle_eq h, hvalid, hready, hpayload, Ends]
  simp

theorem lastCycle_of_gives_none (hgives : s.gives x = none) : s.lastCycle x = false := by
  unfold gives at hgives
  unfold lastCycle
  cases hvalid : s.srcValid x && x.srcReady with
  | false => rw [Bool.false_and, Bool.false_and]
  | true =>
    rw [hvalid] at hgives
    cases hgives

/-- **One clock keeps the packets whole.** -/
theorem Inv.step (h : Inv s beats out) :
    Inv (s.step x) (beats ++ s.taken x) (out ++ (s.gives x).toList) := by
  have htop : ∃ p, (s.step x).arb.Top p := by
    obtain ⟨p, hp⟩ := h.top
    rcases hp.step one_lt_two (s.arbIn x) with ⟨-, hnext⟩ | ⟨k, -, -, -, -, hnext⟩
    · exact ⟨p, hnext⟩
    · exact ⟨_, hnext⟩
  have hgrant : (s.step x).savedGrant = 0 ∨
      ∃ i, (s.step x).Granted i ∧ (s.step x).arb.Top ((i + 1) % 2) := by
    cases hupdate : s.updateGrant x with
    | true => exact h.step_grant hupdate
    | false =>
      obtain ⟨hsaved, harb⟩ := step_idle hupdate
      unfold Granted
      rw [hsaved, harb]
      exact h.grant
  have hstays : ∀ b ∈ beats.getLast?, ¬ Ends b → s.lastCycle x = false →
      (s.step x).packetInProgress = true ∧ (s.step x).Granted b.1 := by
    intro b hb hnot hlast
    obtain ⟨hprogress, hsaved⟩ := h.inside b hb hnot
    obtain ⟨hprogress', hupdate⟩ := inside_step (.inl hprogress) hlast
    exact ⟨hprogress', (step_idle hupdate).1.trans hsaved⟩
  -- what is handed over, by who has the grant
  rcases h.grant with hnone | ⟨i, hi, -⟩
  · have hgives : s.gives x = none := by rw [gives, srcValid_of_none hnone]; rfl
    have hlast := lastCycle_of_gives_none hgives
    rw [taken_of_none hnone, hgives, List.append_nil, Option.toList_none, List.append_nil]
    exact ⟨h.step_zeroFlag, htop, hgrant, fun b hb hnot => hstays b hb hnot hlast, h.whole, h.exact⟩
  · rw [taken_eq hi]
    cases hgives : s.gives x with
    | none =>
      have hlast := lastCycle_of_gives_none hgives
      rw [Option.map_none, Option.toList_none, Option.toList_none, List.append_nil,
        List.append_nil]
      exact ⟨h.step_zeroFlag, htop, hgrant, fun b hb hnot => hstays b hb hnot hlast, h.whole,
        h.exact⟩
    | some payload =>
      obtain ⟨hvalid, hends⟩ := lastCycle_of_gives hi hgives
      rw [Option.map_some, Option.toList_some, Option.toList_some]
      refine ⟨h.step_zeroFlag, htop, hgrant, ?_, ?_, ?_⟩
      · intro b hb hnot
        obtain rfl : (i, payload) = b := by simpa using hb
        have hlast : s.lastCycle x = false := by
          rw [← Bool.not_eq_true, hends]
          exact hnot
        obtain ⟨hprogress, hupdate⟩ := inside_step (.inr hvalid) hlast
        exact ⟨hprogress, (step_idle hupdate).1.trans hi⟩
      · rw [List.isChain_append]
        refine ⟨h.whole, List.isChain_singleton _, fun b hb b' hb' hnot => ?_⟩
        obtain rfl : (i, payload) = b' := by simpa using hb'
        have hsame := (h.inside b hb hnot).2
        have hfin := Arbitrator.twoPow_inj i.isLt (hi.symm.trans hsame)
        exact Fin.ext hfin
      · rw [h.exact, List.map_append]
        rfl

/-! ## 4. Runs -/

section

variable (x : ℕ → MuxIn) (t : ℕ)

def run : CmdMux := trace step reset x t

/-- The beats the masters have handed over, one after the other. -/
def accepted : List (Fin 2 × Payload) := collected step taken reset x t

/-- The beats that have reached the slave. -/
def delivered : List Payload := emitted step gives reset x t

end

theorem inv_run (x : ℕ → MuxIn) (t : ℕ) : Inv (run x t) (accepted x t) (delivered x t) := by
  induction t with
  | zero => exact inv_reset
  | succ t ih => exact ih.step

/-! ## 5. Waiting -/

theorem other_eq {j k : Fin 2} (h : j ≠ k) : ((j : ℕ) + 1) % 2 = k := by
  revert j k
  decide

/-- **The end of a packet hands the slave over** to the other master if it waits. -/
theorem Inv.granted_of_lastCycle (h : Inv s beats out) (hvalid : (x.sink i).valid = true)
    (hnot : ¬ s.Granted i) (hlast : s.lastCycle x = true) : (s.step x).Granted i := by
  have hupdate : s.updateGrant x = true := by
    unfold updateGrant
    rw [hlast, h.zeroFlag]
    simp
  have hrequest : (s.arbIn x).request.getLsbD i = true := by
    unfold arbIn valid
    rw [BitVec.getLsbD_or, getLsbD_vec, hvalid, Bool.true_or]
  have hgrant : (s.step x).savedGrant = s.nextGrant x := if_pos hupdate
  rcases h.grant with hnone | ⟨j, hj, htop⟩
  · rw [lastCycle, srcValid_of_none hnone] at hlast
    exact Bool.noConfusion hlast
  · -- the top priority is with the master that waits
    have hi : ((j : ℕ) + 1) % 2 = i := by
      refine other_eq ?_
      rintro rfl
      exact hnot hj
    rw [hi] at htop
    unfold Granted
    rw [hgrant, nextGrant, htop.grant_eq one_lt_two]
    rcases cyclicFirst_cases (s.arbIn x).request htop.lt with ⟨hzero, -⟩ | ⟨k, hk, hfirst, -, hnear⟩
    · rw [hzero] at hrequest
      exact Bool.noConfusion (hrequest.symm.trans BitVec.getLsbD_zero)
    · have hself : ahead 2 i i = 0 := by
        rw [ahead_of_le le_rfl i.isLt, Nat.sub_self]
      have hki : k = i :=
        ahead_inj htop.lt hk i.isLt ((Nat.le_zero.mp (hself ▸ hnear i i.isLt hrequest)).trans
          hself.symm)
      rw [hfirst, hki]

/-- A clock ends a packet, or none. -/
theorem Inv.countP_taken (h : Inv s beats out) :
    (s.taken x).countP (fun b => Ends b) = if s.lastCycle x then 1 else 0 := by
  rcases h.grant with hnone | ⟨i, hi, -⟩
  · have hgives : s.gives x = none := by rw [gives, srcValid_of_none hnone]; rfl
    rw [taken_of_none hnone, lastCycle_of_gives_none hgives]
    rfl
  · rw [taken_eq hi]
    cases hgives : s.gives x with
    | none =>
      rw [lastCycle_of_gives_none hgives]
      rfl
    | some payload =>
      have hends := (lastCycle_of_gives hi hgives).2
      rw [Option.map_some, Option.toList_some, List.countP_singleton]
      simp only [hends, decide_eq_true_iff]

variable {x : ℕ → MuxIn} {t d : ℕ}

/-- The arbitrator of a run is a run of the arbitrator. -/
theorem arb_run (x : ℕ → MuxIn) (t : ℕ) :
    (run x t).arb = Arbitrator.run (fun u => (run x u).arbIn (x u)) t := by
  induction t with
  | zero => rfl
  | succ t ih =>
    rw [Arbitrator.run_succ, ← ih]
    rfl

/-- While master `i` waits no packet ends, but at the last clock. -/
theorem lastCycle_of_waits (hvalid : ∀ v, v < d → ((x (t + v)).sink i).valid = true)
    (hwaits : ∀ v, v ≤ d → ¬ (run x (t + v)).Granted i) {v : ℕ} (hv : v < d) :
    (run x (t + v)).lastCycle (x (t + v)) = false := by
  rw [← Bool.not_eq_true]
  intro hlast
  exact hwaits (v + 1) hv
    ((inv_run x (t + v)).granted_of_lastCycle (hvalid v hv) (hwaits v hv.le) hlast)

theorem countP_of_waits (hvalid : ∀ v, v < d → ((x (t + v)).sink i).valid = true)
    (hwaits : ∀ v, v ≤ d → ¬ (run x (t + v)).Granted i) :
    (accepted x (t + d)).countP (fun b => Ends b) = (accepted x t).countP fun b => Ends b := by
  induction d with
  | zero => rfl
  | succ d ih =>
    have hlast := lastCycle_of_waits hvalid hwaits (Nat.lt_succ_self d)
    have htaken := (inv_run x (t + d)).countP_taken (x := x (t + d))
    have hnext : accepted x (t + (d + 1))
        = accepted x (t + d) ++ (run x (t + d)).taken (x (t + d)) := rfl
    rw [hnext, List.countP_append, htaken, hlast, if_neg Bool.false_ne_true, Nat.add_zero]
    exact ih (fun v hv => hvalid v (by omega)) fun v hv => hwaits v (by omega)

/-- While master `i` waits the mux chooses at most once, but for the last clock. -/
theorem count_updates (hvalid : ∀ v, v < d → ((x (t + v)).sink i).valid = true)
    (hwaits : ∀ v, v ≤ d → ¬ (run x (t + v)).Granted i) :
    Nat.count (fun v => (run x (t + v)).updateGrant (x (t + v)) = true) d ≤ 1 := by
  have hrequest : ∀ v, v < d →
      ((run x (t + v)).arbIn (x (t + v))).request.getLsbD i = true := by
    intro v hv
    unfold arbIn valid
    rw [BitVec.getLsbD_or, getLsbD_vec, hvalid v hv, Bool.true_or]
  have hnot : ∀ v, v < d →
      ¬ (Arbitrator.run (fun u => (run x u).arbIn (x u)) (t + v)).Grants
        ((run x (t + v)).arbIn (x (t + v))) i := by
    rintro v hv ⟨hupdate, hgrants⟩
    refine hwaits (v + 1) hv ?_
    have hgrant : (run x (t + (v + 1))).savedGrant = (run x (t + v)).nextGrant (x (t + v)) :=
      if_pos hupdate
    unfold Granted
    rw [hgrant, nextGrant, arb_run]
    exact hgrants
  obtain ⟨p, -, hcount, -⟩ := Arbitrator.waiting (x := fun u => (run x u).arbIn (x u)) one_lt_two
    i.isLt hrequest hnot
  exact le_trans (Nat.le_add_right _ _) hcount

end CmdMux

open CmdMux

/-- **Packets stay whole.**  In every run, whatever the masters offer and whenever the slave is
ready: the slave has received beat for beat what the masters handed over, in that order; and unless
a beat is the last of its packet, and without lock, the next is of the same master. -/
theorem packets_whole (x : ℕ → MuxIn) (t : ℕ) :
    delivered x t = (accepted x t).map Prod.snd ∧
    (accepted x t).IsChain fun b b' => ¬ Ends b → b'.1 = b.1 :=
  ⟨(inv_run x t).exact, (inv_run x t).whole⟩

/-- **A master waits for one packet.**  As long as a master offers a beat and has not got the grant,
from clock `t` on for `d` clocks: at most one packet of the other ends, the grant is handed over
when it does, and the mux chooses at most twice; at every other clock the other's packet is under
way. -/
theorem waits_one_packet (x : ℕ → MuxIn) (t d : ℕ) (i : Fin 2)
    (hvalid : ∀ v, v < d → ((x (t + v)).sink i).valid = true)
    (hwaits : ∀ v, v < d → ¬ (run x (t + v)).Granted i) :
    (accepted x (t + d)).countP (fun b => Ends b)
        ≤ (accepted x t).countP (fun b => Ends b) + 1 ∧
    (∀ v, v < d → (run x (t + v)).lastCycle (x (t + v)) = true →
      (run x (t + v + 1)).Granted i) ∧
    Nat.count (fun v => (run x (t + v)).updateGrant (x (t + v)) = true) d ≤ 2 := by
  refine ⟨?_, fun v hv hlast =>
    (inv_run x (t + v)).granted_of_lastCycle (hvalid v hv) (hwaits v hv) hlast, ?_⟩
  · cases d with
    | zero => exact Nat.le_succ _
    | succ d =>
      have hbefore := countP_of_waits (x := x) (t := t) (d := d)
        (fun v hv => hvalid v (by omega)) fun v hv => hwaits v (by omega)
      have htaken := (inv_run x (t + d)).countP_taken (x := x (t + d))
      have hnext : accepted x (t + (d + 1))
          = accepted x (t + d) ++ (run x (t + d)).taken (x (t + d)) := rfl
      rw [hnext, List.countP_append, hbefore, htaken]
      split <;> omega
  · cases d with
    | zero => exact Nat.zero_le 2
    | succ d =>
      have hbefore := count_updates (x := x) (t := t) (d := d)
        (fun v hv => hvalid v (by omega)) fun v hv => hwaits v (by omega)
      rw [Nat.count_succ]
      split <;> omega

/-- Both masters offer packets of one beat; the data master is granted first. -/
def bothOffer : ℕ → MuxIn := fun _ => ⟨fun i => ⟨true, if i = dataMaster then 1 else 3⟩, true⟩

theorem waits_one_packet_bothOffer :
    ((accepted bothOffer (0 + 2)).countP (fun b => Ends b)
        ≤ (accepted bothOffer 0).countP (fun b => Ends b) + 1 ∧
      (∀ v, v < 2 → (run bothOffer (0 + v)).lastCycle (bothOffer (0 + v)) = true →
        (run bothOffer (0 + v + 1)).Granted instructionMaster) ∧
      Nat.count (fun v => (run bothOffer (0 + v)).updateGrant (bothOffer (0 + v)) = true) 2 ≤ 2) ∧
    accepted bothOffer 3 = [(dataMaster, 1), (instructionMaster, 3)] :=
  ⟨waits_one_packet bothOffer 0 2 instructionMaster (by decide) (by decide), by decide⟩

end MotorPid.Bus
