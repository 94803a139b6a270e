/-
# The whole loop makes progress, and ends with the motor off

When each `D` instants in a row have the edges a part waits for (`Ticking`), a command that is
handed over is served within `7 * D`, its response is given within `4 * D` and received within
`4 * D` more, and the next access is handed over within `11 * D`.  So whatever `main` waits for,
it gets it within `15 * D`, for every interleaving and any resolution of the metastable flops.

`iterations_live`: iteration `k`, if it takes place, has its reading within `45 * (k + 1) * D`.
`ends_off`: a program whose clock gets to its total time has returned, its last word has
arrived, and both pins are low for good.
-/
import MotorPid.Bus.Progress
import MotorPid.System.Safety

namespace MotorPid

open Clocked Bus Controller Motor

/-! ## 1. The port does not wait long -/

namespace Bus.Port

variable {η : Type*} {s : Port η} {x : PortIn η}

/-- Where the wait counter has to be for a command to be taken. -/
def waitIndex : Trans → BitVec 2
  | .read => 1
  | .write => 0

/-- The wait cycles a command has before it. -/
def waitsLeft (s : Port η) (tr : Trans) : ℕ := (waitIndex tr - s.waitLatencyCounter).toNat

theorem waitsLeft_le (s : Port η) (tr : Trans) : s.waitsLeft tr ≤ 3 :=
  Nat.le_of_lt_succ (waitIndex tr - s.waitLatencyCounter).isLt

theorem sub_succ_lt {i c : BitVec 2} (h : c ≠ i) : (i - (c + 1)).toNat < (i - c).toNat := by
  revert i c
  decide

/-- A command that waits has one wait cycle less with every clock. -/
theorem waitsLeft_step (hready : s.readyForCommand = true) (hvalid : x.cpValid = true)
    (hover : s.waitrequestResetOverride = false) (hwaits : s.takes x = none) :
    (s.step x).waitsLeft x.cpData.trans < s.waitsLeft x.cpData.trans := by
  have hcp : s.m0Waitrequest x = true := by
    simpa [takes, hvalid, cpReady, hready] using hwaits
  cases htrans : x.cpData.trans with
  | read =>
    have hread : s.m0Read x = true := by simp [m0Read, hready, hvalid, htrans]
    have hwrite : s.m0Write x = false := by simp [m0Write, htrans]
    have hne : s.waitLatencyCounter ≠ waitIndex .read := by
      simpa [m0Waitrequest, hwrite, hover, waitIndex] using hcp
    have hstep : (s.step x).waitLatencyCounter = s.waitLatencyCounter + 1 := by
      simp [step, hcp, hover, hread]
    rw [waitsLeft, waitsLeft, hstep]
    exact sub_succ_lt hne
  | write =>
    have hwrite : s.m0Write x = true := by simp [m0Write, hready, hvalid, htrans]
    have hne : s.waitLatencyCounter ≠ waitIndex .write := by
      simpa [m0Waitrequest, hwrite, hover, waitIndex] using hcp
    have hstep : (s.step x).waitLatencyCounter = s.waitLatencyCounter + 1 := by
      simp [step, hcp, hover, hwrite]
    rw [waitsLeft, waitsLeft, hstep]
    exact sub_succ_lt hne

end Bus.Port

namespace System.ClosedLoop

variable {η : Type*}

/-! ## 2. The loop seen from its two crossers -/

/-- How often what is waited for happens: every `D` instants in a row have an edge of the
processor's clock at which the program gets to its next access, one at which its response port is
ready, and an edge of the board's clock. -/
structure Ticking (D : ℕ) (x : ℕ → LoopTick) : Prop where
  goes : Recurrent D fun t => (x t).sysEdge.any SysInput.go = true
  ready : Recurrent D fun t => (x t).sysEdge.any SysInput.rspReady = true
  board : Recurrent D fun t => (x t).boardEdge.isSome = true

section

variable (P : Params) (h : Packet η) (c1 : Bool)

section

variable (x : ℕ → LoopTick)

/-- What the crosser of the commands sees. -/
def cmdStream (t : ℕ) : Tick (Packet η) :=
  (run P h c1 x t).path.cmdTick ((run P h c1 x t).pathTick h (x t))

/-- What the crosser of the responses sees. -/
def rspStream (t : ℕ) : Tick (Packet η) :=
  (run P h c1 x t).path.rspTick ((run P h c1 x t).pathTick h (x t))

theorem crosser_eq (t : ℕ) : (run P h c1 x t).path.crosser
    = Crosser.run h (le_refl 2) (le_refl 2) (cmdStream P h c1 x) t := by
  induction t with
  | zero => rfl
  | succ t ih =>
    rw [run, Crosser.run, trace_succ, trace_succ, ← Crosser.run, ← ih]
    rfl

theorem crosser004_eq (t : ℕ) : (run P h c1 x t).path.crosser004
    = Crosser.run h (le_refl 2) (le_refl 2) (rspStream P h c1 x) t := by
  induction t with
  | zero => rfl
  | succ t ih =>
    rw [run, Crosser.run, trace_succ, trace_succ, ← Crosser.run, ← ih]
    rfl

theorem cmd_entered (t : ℕ) : Crosser.entered h (le_refl 2) (le_refl 2) (cmdStream P h c1 x) t
    = (issued P h c1 x t).map (Access.packet h) := by
  induction t with
  | zero => rfl
  | succ t ih =>
    have hissues : (Crosser.run h (le_refl 2) (le_refl 2) (cmdStream P h c1 x) t).enters
        (cmdStream P h c1 x t)
        = ((run P h c1 x t).accesses h (x t)).map (Access.packet h) := by
      rw [← crosser_eq]
      exact issues_eq.1
    have hmore : issued P h c1 x (t + 1)
        = issued P h c1 x t ++ ((run P h c1 x t).accesses h (x t)).toList := rfl
    rw [Crosser.entered_succ, ih, hissues, hmore, List.map_append]
    cases (run P h c1 x t).accesses h (x t) <;> rfl

theorem cmd_left (t : ℕ) : Crosser.left h (le_refl 2) (le_refl 2) (cmdStream P h c1 x) t
    = (served P h c1 x t).map Prod.fst := by
  induction t with
  | zero => rfl
  | succ t ih =>
    have hserves : (Crosser.run h (le_refl 2) (le_refl 2) (cmdStream P h c1 x) t).leaves
        (cmdStream P h c1 x t)
        = ((run P h c1 x t).serves h (x t)).map Prod.fst := by
      rw [← crosser_eq]
      exact Path.leaves_cmdTick
    have hmore : served P h c1 x (t + 1)
        = served P h c1 x t ++ ((run P h c1 x t).serves h (x t)).toList := rfl
    rw [Crosser.left_succ, ih, hserves, hmore, List.map_append]
    cases (run P h c1 x t).serves h (x t) <;> rfl

theorem rsp_entered (t : ℕ) :
    Crosser.entered h (le_refl 2) (le_refl 2) (rspStream P h c1 x) t = answered P h c1 x t := by
  induction t with
  | zero => rfl
  | succ t ih =>
    have hanswers : (Crosser.run h (le_refl 2) (le_refl 2) (rspStream P h c1 x) t).enters
        (rspStream P h c1 x t)
        = (run P h c1 x t).path.answers ((run P h c1 x t).pathTick h (x t)) := by
      rw [← crosser004_eq]
      exact Path.enters_rspTick
    rw [Crosser.entered_succ, ih, hanswers]
    rfl

theorem rsp_left (t : ℕ) :
    Crosser.left h (le_refl 2) (le_refl 2) (rspStream P h c1 x) t = delivered P h c1 x t := by
  induction t with
  | zero => rfl
  | succ t ih =>
    have hreceives : (Crosser.run h (le_refl 2) (le_refl 2) (rspStream P h c1 x) t).leaves
        (rspStream P h c1 x t)
        = (run P h c1 x t).receives h (x t) := by
      rw [← crosser004_eq]
      rfl
    rw [Crosser.left_succ, ih, hreceives]
    rfl

end

/-! ## 3. How long each part takes -/

section

variable {x : ℕ → LoopTick} {D : ℕ}

/-- At most one read is under way. -/
theorem responses_le_succ (t : ℕ) :
    (Port.responses (served P h c1 x t)).length ≤ (delivered P h c1 x t).length + 1 := by
  have hle := (inv_run P h c1 x t).responses_le
  have hasked : (run P h c1 x t).processor.asked.length ≤ 1 := by
    rw [Processor.asked]
    split <;> simp
  omega

theorem delivered_le_answered (t : ℕ) :
    (delivered P h c1 x t).length ≤ (answered P h c1 x t).length := by
  obtain ⟨held, hheld, -⟩ := (inv_run P h c1 x t).path.back.lossless
  rw [hheld, List.length_append]
  exact Nat.le_add_right _ _

theorem answered_mono {t u : ℕ} (htu : t ≤ u) :
    (answered P h c1 x t).length ≤ (answered P h c1 x u).length :=
  (emitted_isPrefix _ _ _ x htu).length_le

/-- So the port never has to hold a command back for want of room. -/
theorem readyForCommand_run (t : ℕ) : (run P h c1 x t).path.port.readyForCommand = true := by
  obtain ⟨hs, vs, hport⟩ := (inv_run P h c1 x t).path.port
  refine hport.readyForCommand ?_
  have hone := responses_le_succ P h c1 (x := x) t
  have hle := delivered_le_answered P h c1 (x := x) t
  omega

/-- A response that has been given is received within `4 * D`. -/
theorem received_after (hx : Ticking D x) (t : ℕ) :
    answered P h c1 x t <+: delivered P h c1 x (t + 4 * D) := by
  obtain ⟨j, hj, hedge, hcount⟩ := hx.ready.exists_after t 3
  obtain ⟨e, he, hready⟩ := (Option.any_eq_true _ _).mp hedge
  have hedges : 3 ≤ outEdges (rspStream P h c1 x) t j := by
    rw [← hcount]
    refine Nat.count_mono_left ?_
    intro k _ hk
    obtain ⟨e, he, -⟩ := (Option.any_eq_true _ _).mp hk
    simp [rspStream, Path.rspTick, pathTick, he]
  rw [← rsp_entered, ← rsp_left]
  rcases Crosser.valid_after h (le_refl 2) (le_refl 2) _ hedges with hdone | ⟨hsame, hvalid⟩
  · exact hdone.trans (Crosser.left_isPrefix (by omega))
  · rw [← hsame]
    have hout : (rspStream P h c1 x (t + j)).outEdge = some ⟨e.rspReady, e.random.2⟩ := by
      simp [rspStream, Path.rspTick, pathTick, he]
    exact (Crosser.entered_isPrefix_of_taken hout hready hvalid).trans
      (Crosser.left_isPrefix (by omega))

/-- The board's clock clocks both crossers. -/
theorem cmd_outEdges (m n : ℕ) : outEdges (cmdStream P h c1 x) m n
    = Nat.count (fun j => (x (m + j)).boardEdge.isSome = true) n := by
  simp [outEdges, cmdStream, Path.cmdTick, pathTick]

theorem rsp_inEdges (m n : ℕ) : inEdges (rspStream P h c1 x) m n
    = Nat.count (fun j => (x (m + j)).boardEdge.isSome = true) n := by
  simp [inEdges, rspStream, Path.rspTick, pathTick]

/-- The response to a read that has been served is given within `4 * D`. -/
theorem answered_after (hx : Ticking D x) (t : ℕ) :
    (Port.responses (served P h c1 x t)).length ≤ (answered P h c1 x (t + 4 * D)).length := by
  by_contra hlt
  have hone := responses_le_succ P h c1 (x := x) t
  have hback := delivered_le_answered P h c1 (x := x) t
  obtain ⟨j, hj, hedge, hcount⟩ := hx.board.exists_after t 3
  have hbefore := answered_mono P h c1 (x := x) (Nat.le_add_right t j)
  have hat := answered_mono P h c1 (x := x) (t := t + j) (u := t + j + 1) (by omega)
  have hafter := answered_mono P h c1 (x := x) (t := t + j + 1) (u := t + 4 * D) (by omega)
  -- so all responses given before have been received, and the way back is free
  have hidle := Crosser.idle_of_all_left h (le_refl 2) (le_refl 2) (rspStream P h c1 x) (n := t)
    (by rw [rsp_entered, rsp_left]; omega)
  have hedges : 3 ≤ inEdges (rspStream P h c1 x) t j := by
    rw [rsp_inEdges, hcount]
  rcases Crosser.ready_after hidle hedges with hmore | hready
  · rw [rsp_entered, rsp_entered] at hmore
    omega
  · -- the response waits at the port, and the crosser takes it
    obtain ⟨hs, vs, hport⟩ := (inv_run P h c1 x (t + j)).path.port
    have hserved : (Port.responses (served P h c1 x t)).length
        ≤ (Port.responses (served P h c1 x (t + j))).length := by
      have hmono := (positions_mono P h c1 x (Nat.le_add_right t j)).length_le
      rwa [positions, positions, List.length_map, List.length_map] at hmono
    have hheaders : hs ≠ [] := by
      rintro rfl
      have hall := congrArg List.length hport.history
      rw [List.zipWith_nil_left, List.append_nil] at hall
      omega
    have hvalid : (run P h c1 x (t + j)).path.port.rpValid = true := by
      rw [Port.rpValid, hport.sinkValid_eq, hport.rfSinkValid_iff.mpr hheaders]
      rfl
    obtain ⟨e, he⟩ := Option.isSome_iff_exists.mp hedge
    have hin : (rspStream P h c1 x (t + j)).inEdge
        = some ⟨(run P h c1 x (t + j)).path.port.rpValid, (run P h c1 x (t + j)).path.port.rpData,
          e.random.2⟩ := by
      simp [rspStream, Path.rspTick, pathTick, he]
    have hmore := Crosser.length_entered_of_ready hin hvalid hready
    rw [rsp_entered, rsp_entered] at hmore
    omega

/-- An instant without an edge of the board's clock leaves the port as it is; one with an edge is
a clock of it. -/
theorem port_succ (t : ℕ) : (run P h c1 x (t + 1)).path.port =
    if (x t).boardEdge.isSome then (run P h c1 x t).path.port.step (run P h c1 x t).path.portIn
    else (run P h c1 x t).path.port := rfl

/-- Three edges of the board's clock after it has been handed over, the last command has been
served or is at the port. -/
theorem served_or_at_port (hx : Ticking D x) {t u : ℕ} (hu : t + 3 * D ≤ u) :
    (issued P h c1 x t).map (Access.packet h) <+: (served P h c1 x u).map Prod.fst ∨
      ((run P h c1 x u).path.portIn.cpValid = true ∧
        (issued P h c1 x t).map (Access.packet h)
          = (served P h c1 x u).map Prod.fst ++ [(run P h c1 x u).path.portIn.cpData]) := by
  obtain ⟨n, rfl⟩ : ∃ n, u = t + n := ⟨u - t, by omega⟩
  have hedges : 3 ≤ outEdges (cmdStream P h c1 x) t n := by
    rw [cmd_outEdges]
    exact (hx.board.le_count t 3).trans (Nat.count_monotone _ (by omega))
  rw [← cmd_entered, ← cmd_left]
  rcases Crosser.valid_after h (le_refl 2) (le_refl 2) _ hedges with hdone | ⟨hsame, hout⟩
  · exact .inl hdone
  · have hinv := Crosser.inv_run h (le_refl 2) (le_refl 2) (cmdStream P h c1 x) (t + n)
    obtain ⟨-, hflop, hword⟩ := hinv.of_valid hout
    have hhistory := hinv.history
    rw [if_neg hflop, ← hword, hsame, ← crosser_eq] at hhistory
    rw [← crosser_eq] at hout
    exact .inr ⟨hout, hhistory⟩

/-- **What an instant does to a command at the port.**  It is served, or it waits: with the port as
it was, or with one wait cycle less if the board's clock has an edge. -/
theorem port_instant {u : ℕ} (hvalid : (run P h c1 x u).path.portIn.cpValid = true) :
    (served P h c1 x (u + 1)).map Prod.fst
        = (served P h c1 x u).map Prod.fst ++ [(run P h c1 x u).path.portIn.cpData] ∨
      (run P h c1 x (u + 1)).path.port.waitsLeft (run P h c1 x u).path.portIn.cpData.trans
          ≤ (run P h c1 x u).path.port.waitsLeft (run P h c1 x u).path.portIn.cpData.trans ∧
        ((x u).boardEdge.isSome = true →
          (run P h c1 x (u + 1)).path.port.waitsLeft (run P h c1 x u).path.portIn.cpData.trans
            < (run P h c1 x u).path.port.waitsLeft (run P h c1 x u).path.portIn.cpData.trans) := by
  have hport := port_succ P h c1 (x := x) u
  cases hboard : (x u).boardEdge.isSome with
  | false =>
    rw [hboard, if_neg Bool.false_ne_true] at hport
    exact .inr ⟨by rw [hport], fun hc => absurd hc Bool.false_ne_true⟩
  | true =>
    rw [hboard, if_pos rfl] at hport
    have hserved : served P h c1 x (u + 1)
        = served P h c1 x u ++ ((run P h c1 x u).serves h (x u)).toList := rfl
    have hserves : (run P h c1 x u).serves h (x u)
        = (run P h c1 x u).path.port.takes (run P h c1 x u).path.portIn := by
      simp [serves, Path.serves, pathTick, hboard]
    cases htakes : (run P h c1 x u).path.port.takes (run P h c1 x u).path.portIn with
    | some c =>
      left
      obtain ⟨rfl, -⟩ := Port.takes_eq_some htakes
      rw [hserved, hserves, htakes, List.map_append]
      rfl
    | none =>
      right
      have hover : (run P h c1 x u).path.port.waitrequestResetOverride = false :=
        (inv_run P h c1 x u).path.override_or_idle.resolve_right (by simp [hvalid])
      have hless := Port.waitsLeft_step (readyForCommand_run P h c1 u) hvalid hover htakes
      rw [← hport] at hless
      exact ⟨hless.le, fun _ => hless⟩

/-- A command that has been handed over is served within `7 * D`: three edges for the crosser,
four at most for the wait counter. -/
theorem served_after (hx : Ticking D x) (t : ℕ) :
    (issued P h c1 x t).map (Access.packet h) <+: (served P h c1 x (t + 7 * D)).map Prod.fst := by
  rcases List.eq_nil_or_concat ((issued P h c1 x t).map (Access.packet h)) with hnil | ⟨l, w, hw⟩
  · rw [hnil]
    exact List.nil_prefix
  have hstep : ∀ u, t + 3 * D ≤ u →
      (issued P h c1 x t).map (Access.packet h) <+: (served P h c1 x (u + 1)).map Prod.fst ∨
      t + 3 * D ≤ u + 1 ∧
        (run P h c1 x (u + 1)).path.port.waitsLeft w.trans
          ≤ (run P h c1 x u).path.port.waitsLeft w.trans ∧
        ((x u).boardEdge.isSome = true → (run P h c1 x (u + 1)).path.port.waitsLeft w.trans
          < (run P h c1 x u).path.port.waitsLeft w.trans) := by
    intro u hu
    rcases served_or_at_port P h c1 hx hu with hdone | ⟨hvalid, hlast⟩
    · exact .inl (hdone.trans ((emitted_isPrefix _ _ _ x (Nat.le_succ u)).map _))
    · have hword : (run P h c1 x u).path.portIn.cpData = w := by
        rw [hw, List.concat_eq_append] at hlast
        exact (List.singleton_inj.mp (List.append_inj_right' hlast rfl)).symm
      have hinstant := port_instant P h c1 (x := x) hvalid
      rw [hword] at hinstant hlast
      rcases hinstant with hserved | ⟨hle, hless⟩
      · left
        rw [hlast, hserved]
      · exact .inr ⟨by omega, hle, hless⟩
  obtain ⟨u, hu, hgoal⟩ := hx.board.of_rank
    (fun u => (run P h c1 x u).path.port.waitsLeft w.trans)
    (J := fun u => t + 3 * D ≤ u)
    (R := fun u => (issued P h c1 x t).map (Access.packet h) <+: (served P h c1 x u).map Prod.fst)
    hstep (Nat.le_refl _) (Port.waitsLeft_le _ _)
  have hmono : served P h c1 x u <+: served P h c1 x (t + 7 * D) :=
    emitted_isPrefix _ _ _ x (by omega)
  exact hgoal.trans (hmono.map _)

/-- An access that is not taken stays on offer. -/
theorem offers_succ {t : ℕ} (hoffers : (run P h c1 x t).processor.offers.isSome = true)
    (hnone : (run P h c1 x t).accesses h (x t) = none) :
    (run P h c1 x (t + 1)).processor.offers.isSome = true := by
  have htaken : (run P h c1 x t).taken h (x t) = false := by
    rw [← Bool.not_eq_true]
    intro htaken
    rw [accesses, if_pos htaken] at hnone
    simp [hnone] at hoffers
  have hstep : (run P h c1 x (t + 1)).processor = (run P h c1 x t).processor.next P false
      (((run P h c1 x t).receives h (x t)).map Packet.data) := by
    rw [← htaken]
    rfl
  rw [hstep]
  cases hphase : (run P h c1 x t).processor.phase with
  | ask => simpa [Processor.next, hphase] using hoffers
  | write w ws => simpa [Processor.next, hphase] using hoffers
  | wait => simp [Processor.offers, hphase] at hoffers
  | done => simp [Processor.offers, hphase] at hoffers

theorem issued_mono {t u : ℕ} (htu : t ≤ u) : issued P h c1 x t <+: issued P h c1 x u :=
  emitted_isPrefix _ _ _ x htu

/-- An access that is on offer is handed over within `11 * D`: the last command is served, and
then four edges free the crosser. -/
theorem handed_over_after (hx : Ticking D x) {t : ℕ}
    (hoffers : (run P h c1 x t).processor.offers.isSome = true) :
    (issued P h c1 x t).length < (issued P h c1 x (t + 11 * D)).length := by
  by_contra hlt
  have hsame : ∀ u, t ≤ u → u ≤ t + 11 * D → (issued P h c1 x u).length
      = (issued P h c1 x t).length := by
    intro u htu hu
    have hle := (issued_mono P h c1 (x := x) htu).length_le
    have hle' := (issued_mono P h c1 (x := x) hu).length_le
    omega
  have hstill : ∀ n, n ≤ 11 * D → (run P h c1 x (t + n)).processor.offers.isSome = true := by
    intro n
    induction n with
    | zero => exact fun _ => hoffers
    | succ n ih =>
      intro hn
      refine offers_succ P h c1 (t := t + n) (ih (by omega)) ?_
      have hmore : issued P h c1 x (t + n + 1)
        = issued P h c1 x (t + n) ++ ((run P h c1 x (t + n)).accesses h (x (t + n))).toList := rfl
      have hlen := congrArg List.length hmore
      rw [List.length_append, hsame (t + n) (by omega) (by omega),
        hsame (t + n + 1) (by omega) (by omega)] at hlen
      exact Option.toList_eq_nil_iff.mp (List.length_eq_zero_iff.mp (by omega))
  have hserved := (served_after P h c1 hx t).length_le
  rw [List.length_map, List.length_map] at hserved
  have hidle := Crosser.idle_of_all_left h (le_refl 2) (le_refl 2) (cmdStream P h c1 x)
    (n := t + 7 * D) (by
      rw [cmd_entered, cmd_left, List.length_map, List.length_map,
        hsame _ (by omega) (by omega)]
      exact hserved)
  obtain ⟨j, hj, hedge, hcount⟩ := hx.goes.exists_after (t + 7 * D) 3
  have hedges : 3 ≤ inEdges (cmdStream P h c1 x) (t + 7 * D) j := by
    rw [← hcount]
    refine Nat.count_mono_left ?_
    intro k _ hk
    obtain ⟨e, he, -⟩ := (Option.any_eq_true _ _).mp hk
    simp [cmdStream, Path.cmdTick, pathTick, he]
  rcases Crosser.ready_after hidle hedges with hmore | hready
  · rw [cmd_entered, cmd_entered, List.length_map, List.length_map,
      hsame (t + 7 * D) (by omega) (by omega), hsame (t + 7 * D + j) (by omega) (by omega)] at hmore
    omega
  · obtain ⟨e, he, hgo⟩ := (Option.any_eq_true _ _).mp hedge
    have hoffer := hstill (7 * D + j) (by omega)
    rw [← Nat.add_assoc] at hoffer
    have hin : (cmdStream P h c1 x (t + 7 * D + j)).inEdge
        = some ⟨true, ((run P h c1 x (t + 7 * D + j)).processor.offers.getD .iord).packet h,
          e.random.1⟩ := by
      simp [cmdStream, Path.cmdTick, pathTick, he, hgo, hoffer]
    have hmore := Crosser.length_entered_of_ready hin rfl hready
    rw [cmd_entered, cmd_entered, List.length_map, List.length_map,
      hsame (t + 7 * D + j) (by omega) (by omega),
      hsame (t + 7 * D + j + 1) (by omega) (by omega)] at hmore
    omega

/-! ## 4. No access hangs -/

variable (x) in
/-- What has happened at the processor: the accesses handed over and the readings received. -/
def events (t : ℕ) : ℕ := (issued P h c1 x t).length + (delivered P h c1 x t).length

/-- **Whatever the program waits for, it gets it.** -/
theorem events_advance (hx : Ticking D x) {t : ℕ}
    (hphase : (run P h c1 x t).processor.phase ≠ .done) :
    events P h c1 x t < events P h c1 x (t + 15 * D) := by
  have hissued := (issued_mono P h c1 (x := x) (t := t) (u := t + 15 * D) (by omega)).length_le
  have hdelivered : (delivered P h c1 x t).length ≤ (delivered P h c1 x (t + 15 * D)).length :=
    (emitted_isPrefix _ _ _ x (by omega)).length_le
  have hoffer : (run P h c1 x t).processor.offers.isSome = true →
      events P h c1 x t < events P h c1 x (t + 15 * D) := by
    intro hoffers
    have hmore := handed_over_after P h c1 hx hoffers
    have hlater := (issued_mono P h c1 (x := x) (t := t + 11 * D) (u := t + 15 * D)
      (by omega)).length_le
    rw [events, events]
    omega
  cases hp : (run P h c1 x t).processor.phase with
  | ask => exact hoffer (by simp [Processor.offers, hp])
  | write w ws => exact hoffer (by simp [Processor.offers, hp])
  | done => exact absurd hp hphase
  | wait =>
    -- the read that is waited for has been handed over
    have hreads := (inv_run P h c1 x t).processor.reads
    have hasked : (run P h c1 x t).processor.asked.length = 1 := by
      rw [Processor.asked, hp]
      rfl
    have hserved := (served_after P h c1 hx t).sublist.countP_le
      (p := fun p => p.trans == .read)
    rw [countP_packet, ← Port.length_responses, hreads, List.length_map, hasked] at hserved
    have hanswered := answered_after P h c1 hx (t + 7 * D)
    have hreceived := (received_after P h c1 hx (t + 7 * D + 4 * D)).length_le
    have hlast : t + 7 * D + 4 * D + 4 * D = t + 15 * D := by omega
    rw [hlast] at hreceived
    rw [events, events]
    omega

/-- An access is a read or writes a word. -/
theorem length_accesses (l : List Access) :
    l.length = l.countP Access.isIord + (l.filterMap Access.word).length := by
  induction l with
  | nil => rfl
  | cons a l ih =>
    cases a with
    | iord =>
      have hword : Access.word .iord = none := rfl
      have hiord : Access.isIord .iord = true := rfl
      rw [List.length_cons, List.countP_cons, List.filterMap_cons, hword, hiord, if_pos rfl, ih]
      exact Nat.add_right_comm _ _ _
    | iowr w =>
      have hword : Access.word (.iowr w) = some w := rfl
      have hiord : Access.isIord (.iowr w) = false := rfl
      rw [List.length_cons, List.countP_cons, List.filterMap_cons, hword, hiord,
        if_neg Bool.false_ne_true, ih, List.length_cons]
      rfl

/-- The program writes one word in an iteration, and one on its way out. -/
theorem length_words_le (iord : ℕ → ℤ) (n : ℕ) : (mainRun P iord n).words.length ≤ n + 1 := by
  obtain ⟨m, hlog, hm⟩ := run_log P iord n
  have hmn : m ≤ n := by
    by_contra hlt
    exact lt_irrefl n ((hm n).mp (by omega)).1
  have hcommands : (mainRun P iord n).commands.length = m := by
    rw [Progress.commands, hlog, List.length_map, List.length_map, List.length_range]
  have hwords : (mainRun P iord n).words.length ≤ (mainRun P iord n).commands.length + 1 := by
    cases mainRun P iord n <;> simp [Progress.words]
  omega

/-- There are three events in an iteration, so their number bounds that of the readings. -/
theorem events_le (t : ℕ) : events P h c1 x t ≤ 3 * (delivered P h c1 x t).length + 2 := by
  have hI := (inv_run P h c1 x t).processor
  have hreads := hI.reads
  have hwords := congrArg List.length hI.words
  have hprogress := hI.progress
  have hle := length_words_le P (iordOf ((delivered P h c1 x t).map Packet.data))
    ((delivered P h c1 x t).map Packet.data).length
  have hasked : (run P h c1 x t).processor.asked.length ≤ 1 := by
    rw [Processor.asked]
    split <;> simp
  rw [← hprogress, List.length_map] at hle
  rw [List.length_append] at hwords
  rw [List.length_map] at hreads
  rw [events, length_accesses]
  omega

/-- A program that is through with its accesses is out of the loop, and stays there. -/
theorem done_succ {t : ℕ} (hdone : (run P h c1 x t).processor.phase = .done) :
    (run P h c1 x (t + 1)).processor.phase = .done := by
  have hstep : (run P h c1 x (t + 1)).processor = (run P h c1 x t).processor.next P
      ((run P h c1 x t).taken h (x t)) (((run P h c1 x t).receives h (x t)).map Packet.data) := rfl
  rw [hstep]
  cases ((run P h c1 x t).receives h (x t)).map Packet.data <;> simp [Processor.next, hdone]

/-- A program that is through with its accesses is out of the loop. -/
theorem out_of_loop {t : ℕ} (hdone : (run P h c1 x t).processor.phase = .done) :
    ∀ s ms log, (run P h c1 x t).processor.progress ≠ .looping s ms log := by
  have hphase : ∀ p ws, phaseAfter p ws = .done → ∀ s ms log, p ≠ .looping s ms log := by
    rintro p ws hws s ms log rfl
    cases ws <;> simp [phaseAfter] at hws
  induction t with
  | zero => cases hdone
  | succ t ih =>
    have hstep : (run P h c1 x (t + 1)).processor = (run P h c1 x t).processor.next P
        ((run P h c1 x t).taken h (x t)) (((run P h c1 x t).receives h (x t)).map Packet.data) :=
      rfl
    rw [hstep] at hdone ⊢
    generalize (run P h c1 x t).taken h (x t) = taken at hdone ⊢
    generalize ((run P h c1 x t).receives h (x t)).map Packet.data = v at hdone ⊢
    cases hp : (run P h c1 x t).processor.phase with
    | ask => cases taken <;> simp [Processor.next, hp] at hdone
    | wait =>
      cases v with
      | none => simp [Processor.next, hp] at hdone
      | some v =>
        simp only [Processor.next, hp] at hdone ⊢
        exact hphase _ _ hdone
    | write w ws =>
      cases taken with
      | false => simp [Processor.next, hp] at hdone
      | true =>
        simp only [Processor.next, hp, if_true] at hdone ⊢
        exact hphase _ _ hdone
    | done =>
      simp only [Processor.next, hp]
      exact ih hp

/-- After enough time the program is through, or has had as many events. -/
theorem done_or_events (hx : Ticking D x) (m : ℕ) :
    (run P h c1 x (15 * m * D)).processor.phase = .done ∨ m ≤ events P h c1 x (15 * m * D) := by
  induction m with
  | zero => exact .inr (Nat.zero_le _)
  | succ m ih =>
    have hlater : 15 * (m + 1) * D = 15 * m * D + 15 * D := by ring
    rw [hlater]
    by_cases hdone : (run P h c1 x (15 * m * D)).processor.phase = .done
    · left
      generalize 15 * D = n
      induction n with
      | zero => exact hdone
      | succ n ih => exact done_succ P h c1 ih
    · right
      have hmore := events_advance P h c1 hx hdone
      have hm := ih.resolve_left hdone
      omega

/-- **The program never hangs.**  For every interleaving with the edges it waits for and every
behaviour of the encoder: if iteration `k` takes place, its reading has been received within
`45 * (k + 1) * D` instants. -/
theorem iterations_live (hx : Ticking D x) {k : ℕ} (hk : TakesPlace P k) :
    k < (delivered P h c1 x (45 * (k + 1) * D)).length := by
  by_contra hlt
  have hlater : 45 * (k + 1) * D = 15 * (3 * k + 3) * D := by ring
  rw [hlater] at hlt
  have hle := events_le P h c1 (x := x) (15 * (3 * k + 3) * D)
  rcases done_or_events P h c1 hx (3 * k + 3) with hdone | hevents
  · -- an iteration that takes place is reached in the loop
    have hprogress := (inv_run P h c1 x (15 * (3 * k + 3) * D)).processor.progress
    rw [List.length_map, run_looping P _ (hk.of_le (Nat.le_of_not_lt hlt))] at hprogress
    exact (out_of_loop P h c1 hdone) _ _ _ hprogress
  · omega

end

/-! ## 5. The end -/

section

variable {x : ℕ → LoopTick} {D N : ℕ}

/-- Once iteration `N` does not take place, the program is through within `45 * (N + 1) * D`. -/
theorem done_of_not_takesPlace (hx : Ticking D x) (hN : ¬ TakesPlace P N) :
    (run P h c1 x (45 * (N + 1) * D)).processor.phase = .done := by
  have hlater : 45 * (N + 1) * D = 15 * (3 * N + 3) * D := by ring
  rw [hlater]
  by_contra hnot
  have hevents := (done_or_events P h c1 hx (3 * N + 3)).resolve_left hnot
  have hle := events_le P h c1 (x := x) (15 * (3 * N + 3) * D)
  have hbegan := (inv_run P h c1 x (15 * (3 * N + 3) * D)).processor.began N
  rw [List.length_map] at hbegan
  exact hN (hbegan (by omega))

/-- A program whose clock gets to its total time within an `int` returns. -/
theorem returned_of_clock {iord : ℕ → ℤ} {n : ℕ} (hmax : N * periodMs P ≤ intMax)
    (hn : ∀ k < n, TakesPlace P k) (hnN : n ≤ N)
    (hout : ∀ s t log, mainRun P iord n ≠ .looping s t log) :
    ∃ log, mainRun P iord n = .returned log := by
  cases n with
  | zero => exact absurd rfl (hout .start 0 [])
  | succ n =>
    have hlast : TakesPlace P n := hn n (Nat.lt_succ_self n)
    have hle : ((n + 1 : ℕ) : ℤ) * periodMs P ≤ N * periodMs P :=
      mul_le_mul_of_nonneg_right (Int.ofNat_le.mpr hnN) (periodMs_nonneg P)
    rw [mainRun_succ, run_looping P iord hlast, pass_loopingAt, if_pos (hle.trans hmax)] at hout ⊢
    split at hout
    · rename_i htotal
      exact ⟨_, if_pos htotal⟩
    · exact absurd rfl (hout _ _ _)

/-- When the program is through, all its words arrive within `7 * D`. -/
theorem all_written_after (hx : Ticking D x) {t : ℕ} {log : List Cycle}
    (hdone : (run P h c1 x t).processor.phase = .done)
    (hlog : (run P h c1 x t).processor.progress = .returned log) :
    (written P h c1 x (t + 7 * D)).length
      = (run P h c1 x (t + 7 * D)).processor.progress.words.length := by
  obtain ⟨rest, hrest, -⟩ := run_written P h c1 x (t + 7 * D)
  have hlater := progress_of_returned P h c1 x hlog (Nat.le_add_right t (7 * D))
  have hwords := (inv_run P h c1 x t).processor.words
  have hpending : (run P h c1 x t).processor.pending = [] := by
    rw [Processor.pending, hdone]
  have hserved := ((served_after P h c1 hx t).filterMap Packet.written).length_le
  rw [filterMap_packet, List.filterMap_map, List.length_map] at hserved
  rw [hpending, List.append_nil, hlog] at hwords
  have hwritten : (List.filterMap (Packet.written ∘ Prod.fst) (served P h c1 x (t + 7 * D))).length
      = (written P h c1 x (t + 7 * D)).length := rfl
  have hlen := congrArg List.length hrest
  rw [List.length_map, List.length_append] at hlen
  rw [hlater] at hlen ⊢
  rw [hwords, hwritten] at hserved
  omega

/-- **The run ends with the motor off.**  For every interleaving with the edges it waits for and
every behaviour of the encoder: if the `int` clock gets to the total time within `N` iterations,
then from instant `(45 * (N + 1) + 8) * D` on `main` has returned, every word it wrote has arrived,
the component holds the stop, and both pins are low. -/
theorem ends_off (hx : Ticking D x) (hN : 1 ≤ N) (hmax : N * periodMs P ≤ intMax)
    (htotal : P.totalTimeMs ≤ ((N * periodMs P : ℤ) : ℚ)) {t : ℕ}
    (ht : (45 * (N + 1) + 8) * D ≤ t) :
    hasReturned (run P h c1 x t) = true ∧
    written P h c1 x t = (run P h c1 x t).processor.progress.words.map (BitVec.ofInt 32) ∧
    (run P h c1 x t).path.motor.command = speedCommand 0 ∧
    (run P h c1 x t).path.motor.m1 = false ∧ (run P h c1 x t).path.motor.m2 = false := by
  have hout : ¬ TakesPlace P N := by
    rintro (hzero | ⟨-, hlt⟩)
    · omega
    · exact absurd hlt (not_lt.mpr htotal)
  obtain ⟨T, hT⟩ : ∃ T, T = 45 * (N + 1) * D := ⟨_, rfl⟩
  have hlast : (45 * (N + 1) + 8) * D = T + 7 * D + D := by rw [hT]; ring
  have hdone : (run P h c1 x T).processor.phase = .done := by
    rw [hT]
    exact done_of_not_takesPlace P h c1 hx hout
  have hI := (inv_run P h c1 x T).processor
  obtain ⟨log, hlog⟩ : ∃ log, (run P h c1 x T).processor.progress = .returned log := by
    have hloop := out_of_loop P h c1 hdone
    rw [hI.progress] at hloop ⊢
    refine returned_of_clock P hmax hI.began ?_ hloop
    by_contra hlt
    exact hout (hI.began N (by omega))
  have hlog' := progress_of_returned P h c1 x hlog (Nat.le_add_right T (7 * D))
  have hall := all_written_after P h c1 hx hdone hlog
  have hstop : ∀ u, T + 7 * D ≤ u → written P h c1 x u = written P h c1 x (T + 7 * D) ∧
      (run P h c1 x u).path.motor.command = speedCommand 0 := fun u htu =>
    stop_in_force P h c1 x htu hlog' hall
  obtain ⟨j, hj, hedge⟩ := hx.board (T + 7 * D)
  obtain ⟨hm1, hm2⟩ := pins_low_from P h c1 x (fun u htu => (hstop u htu).2)
    (Nat.le_add_right _ j) hedge (v := t) (by omega)
  have hprogress := progress_of_returned P h c1 x hlog' (u := t) (by omega)
  refine ⟨hasReturned_iff.mpr ⟨log, hprogress⟩, ?_, (hstop t (by omega)).2, hm1, hm2⟩
  obtain ⟨rest, hrest, -⟩ := run_written P h c1 x t
  rw [hrest]
  have hlen := congrArg List.length hrest
  rw [List.length_map, List.length_append, (hstop t (by omega)).1, hall, hlog', hprogress] at hlen
  rw [List.length_eq_zero_iff.mp (by omega : rest.length = 0), List.append_nil]

end

end

/-- Both clocks in step: `D` is 1. -/
theorem ticking_inStep : Ticking 1 inStep :=
  ⟨fun _ => ⟨0, Nat.one_pos, rfl⟩, fun _ => ⟨0, Nat.one_pos, rfl⟩, fun _ => ⟨0, Nat.one_pos, rfl⟩⟩

/-- With the parameters of the file and both clocks in step, the reading of iteration 599, the
last, has been received by instant 27000. -/
theorem iterations_live_inStep : 599
    < (delivered Params.inFile ⟨.read, 0, 1, 2, 0, ()⟩ false inStep 27000).length :=
  iterations_live Params.inFile ⟨.read, 0, 1, 2, 0, ()⟩ false ticking_inStep (by decide +kernel)

/-- And from instant 27053 on the motor is off. -/
theorem ends_off_inStep :
    (run Params.inFile ⟨.read, 0, 1, 2, 0, ()⟩ false inStep 27053).path.motor.m2 = false :=
  (ends_off Params.inFile ⟨.read, 0, 1, 2, 0, ()⟩ false ticking_inStep (N := 600) (by decide)
    (by decide +kernel) (by decide +kernel) (Nat.le_refl _)).2.2.2.2

end System.ClosedLoop

end MotorPid
