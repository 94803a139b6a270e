/-
# Between the program and the shaft

In the whole loop the motor component is clocked by the board, whatever the processor's clock
does, and by its own clock it is the component of `motor.v` run by itself (`motor_run`).  So what
the register counts and what the pins show can be said of the edges of the board's clock alone.

`readings_track`: each reading of `main` is the single-edge count of the encoder's samples at the
board's edges before the instant its read is served at, and so within one cycle of the displacement
of the shaft there.

`on_time_of_command`: over any 2048 edges of the board's clock with no word arriving, the motor is
on for the magnitude of the command in force, and only in its direction.
-/
import MotorPid.Clocked.Edges
import MotorPid.Motor.Position
import MotorPid.System.Safety

namespace MotorPid.System.ClosedLoop

open Clocked Bus Controller Motor Quadrature

variable {η : Type*}

section

variable (P : Params) (h : Packet η) (c1 : Bool) (x : ℕ → LoopTick)

/-! ## 1. The component by its own clock -/

/-- What the component takes in at an instant. -/
def boardIn (t : ℕ) : Option In := (x t).boardEdge.map (run P h c1 x t).path.motorIn

/-- The component after reset. -/
def motorReset : Regs := ⟨0, 0, true, false, false, 0, c1⟩

/-- What the component takes in at its clock `k`. -/
noncomputable def clockIn (k : ℕ) : In := atEdge (boardIn P h c1 x) ⟨false, false, 0, 0⟩ k

/-- The number of edges of the board's clock before an instant. -/
def boardEdges (t : ℕ) : ℕ := Nat.count (fun j => (x j).boardEdge.isSome = true) t

theorem edges_boardIn (t : ℕ) : edges (boardIn P h c1 x) t = boardEdges x t := by
  simp [edges, boardIn, boardEdges]

/-- **By the board's clock the component is alone.** -/
theorem motor_run (t : ℕ) : (run P h c1 x t).path.motor
    = Motor.run (motorReset c1) (clockIn P h c1 x) (boardEdges x t) := by
  have hgated : (run P h c1 x t).path.motor
      = trace (gated Motor.step) (motorReset c1) (boardIn P h c1 x) t := by
    induction t with
    | zero => rfl
    | succ t ih =>
      rw [motor_succ, trace_succ, ← ih, boardIn]
      cases (x t).boardEdge <;> rfl
  rw [hgated, trace_gated _ _ ⟨false, false, 0, 0⟩, edges_boardIn]
  rfl

/-- The component is never reset during a run. -/
theorem clockIn_rstReset (k : ℕ) : (clockIn P h c1 x k).rstReset = false := by
  rw [clockIn, atEdge]
  cases hin : boardIn P h c1 x (Nat.nth (fun j => (boardIn P h c1 x j).isSome = true) k) with
  | none => rfl
  | some i =>
    obtain ⟨e, -, rfl⟩ := Option.map_eq_some_iff.mp hin
    rfl

end

/-! ## 2. The readings -/

/-- What the encoder shows at an edge of the board's clock. -/
def edgeSample (e : BoardEdge) : Sample := In.sample ⟨false, false, 0, e.encodedIn⟩

/-- The samples at the edges of the board's clock, after the sample `a` during the reset. -/
noncomputable def encoder (a : Sample) (x : ℕ → LoopTick) : ℕ → Sample
  | 0 => a
  | k + 1 => edgeSample (atEdge (fun t => (x t).boardEdge) ⟨0, (false, false)⟩ k)

section

variable (P : Params) (h : Packet η) (a : Sample) (x : ℕ → LoopTick)

/-- The component samples what the encoder shows. -/
theorem clockIn_sample (c1 : Bool) (k : ℕ) :
    (clockIn P h c1 x k).sample = encoder a x (k + 1) := by
  have hsome : ∀ j, (boardIn P h c1 x j).isSome = (x j).boardEdge.isSome := fun j => by
    rw [boardIn, Option.isSome_map]
  simp only [clockIn, encoder, atEdge, hsome]
  rw [boardIn]
  cases (x (Nat.nth (fun j => (x j).boardEdge.isSome = true) k)).boardEdge <;> rfl

/-- By its own clock, the register counts the samples seen so far. -/
theorem position_run (k : ℕ) :
    (Motor.run (motorReset a.c1) (clockIn P h a.c1 x) k).motorPositionIn
        = BitVec.ofInt 32 (singleEdge (encoder a x) k) ∧
      (Motor.run (motorReset a.c1) (clockIn P h a.c1 x) k).c1Prev = (encoder a x k).c1 := by
  induction k with
  | zero => exact ⟨rfl, rfl⟩
  | succ k ih =>
    obtain ⟨hpos, hprev⟩ := ih
    have hsample := clockIn_sample P h a x a.c1 k
    rw [Motor.run, trace_succ]
    constructor
    · rw [step_position (clockIn_rstReset P h a.c1 x k) hprev, hpos, hsample, ← BitVec.ofInt_add,
        singleEdge_succ]
    · exact congrArg Sample.c1 hsample

/-- What a command that is served finds in the register. -/
theorem serves_value {s : ClosedLoop η} {i : LoopTick} {c : Packet η × BitVec 32}
    (hc : s.serves h i = some c) :
    c.2 = s.path.motor.motorPositionIn ∧ i.boardEdge.isSome = true := by
  rw [serves, Path.serves] at hc
  split at hc
  · rename_i hedge
    obtain ⟨rfl, -⟩ := Port.takes_eq_some hc
    exact ⟨rfl, hedge⟩
  · cases hc

/-- A response carries the value its read found. -/
theorem data_response {c : Packet η × BitVec 32} {r : Packet η} (hr : c.1.response c.2 = some r) :
    r.data = c.2 := by
  rw [Packet.response] at hr
  split at hr
  · cases hr
    rfl
  · cases hr

/-- Only a read is answered. -/
theorem response_isSome_iff (p : Packet η) (v : BitVec 32) :
    (p.response v).isSome = true ↔ p.trans = .read := by
  cases htrans : p.trans <;> simp [Packet.response, htrans]

/-- A read is served at an instant. -/
def ReadServed (t : ℕ) : Prop :=
  ∃ c, (run P h a.c1 x t).serves h (x t) = some c ∧ c.1.trans = .read

theorem not_readServed_of_none {t : ℕ} (hc : (run P h a.c1 x t).serves h (x t) = none) :
    ¬ ReadServed P h a x t := by
  rintro ⟨c, hsome, -⟩
  rw [hc] at hsome
  cases hsome

/-- With the last instant decided, the reads before the next one are known. -/
theorem mem_reads_succ {us vs : List ℕ} {t : ℕ}
    (hus : ∀ u, u ∈ us ↔ u < t ∧ ReadServed P h a x u)
    (hvs : ∀ u, u ∈ vs ↔ u = t ∧ ReadServed P h a x u) (u : ℕ) :
    u ∈ us ++ vs ↔ u < t + 1 ∧ ReadServed P h a x u := by
  rw [List.mem_append, hus, hvs, ← or_and_right, Nat.lt_succ_iff_lt_or_eq]

/-- The readings served before an instant are those of the instants `us` at which reads are served,
one after the other, each with an edge of the board's clock, and the reading of instant `u` is the
single-edge count of the samples at the edges before `u`. -/
theorem positions_eq_map (t : ℕ) : ∃ us : List ℕ, us.Pairwise (· < ·) ∧
    (∀ u, u ∈ us ↔ u < t ∧ ReadServed P h a x u) ∧
    positions P h a.c1 x t = us.map fun u =>
      BitVec.ofInt 32 (singleEdge (encoder a x) (boardEdges x u)) := by
  induction t with
  | zero =>
    refine ⟨[], List.Pairwise.nil, fun u => ⟨fun hu => ?_, fun hu => ?_⟩, rfl⟩
    · exact absurd hu List.not_mem_nil
    · exact absurd hu.1 (Nat.not_lt_zero u)
  | succ t ih =>
    obtain ⟨us, hsorted, hmem, hus⟩ := ih
    have hserved : served P h a.c1 x (t + 1)
        = served P h a.c1 x t ++ ((run P h a.c1 x t).serves h (x t)).toList := rfl
    -- nothing is read at this instant
    have hnone : ¬ ReadServed P h a x t → ∀ u, u ∈ us ↔ u < t + 1 ∧ ReadServed P h a x u := by
      intro hnot u
      have hnil : ∀ v, v ∈ ([] : List ℕ) ↔ v = t ∧ ReadServed P h a x v := fun v =>
        ⟨fun hv => absurd hv List.not_mem_nil, fun hv => absurd (hv.1 ▸ hv.2) hnot⟩
      rw [← mem_reads_succ P h a x hmem hnil, List.append_nil]
    rw [positions, hserved, Port.responses_append, List.map_append, ← positions, hus]
    cases hc : (run P h a.c1 x t).serves h (x t) with
    | none =>
      exact ⟨us, hsorted, hnone (not_readServed_of_none P h a x hc), by simp [Port.responses]⟩
    | some c =>
      cases hr : c.1.response c.2 with
      | none =>
        refine ⟨us, hsorted, hnone ?_, by simp [Port.responses, hr]⟩
        rintro ⟨c', hc', hread⟩
        obtain rfl := Option.some.inj (hc.symm.trans hc')
        have hsome := (response_isSome_iff c.1 c.2).mpr hread
        rw [hr] at hsome
        exact Bool.noConfusion hsome
      | some r =>
        have hread : ReadServed P h a x t :=
          ⟨c, hc, (response_isSome_iff c.1 c.2).mp (by rw [hr]; rfl)⟩
        refine ⟨us ++ [t], ?_, mem_reads_succ P h a x hmem fun u => ?_, ?_⟩
        · rw [List.pairwise_append]
          refine ⟨hsorted, List.pairwise_singleton _ _, ?_⟩
          intro u hu v hv
          rw [List.mem_singleton.mp hv]
          exact ((hmem u).mp hu).1
        · rw [List.mem_singleton]
          exact ⟨fun hu => ⟨hu, hu ▸ hread⟩, And.left⟩
        · have hdata : r.data
              = BitVec.ofInt 32 (singleEdge (encoder a x) (boardEdges x t)) := by
            rw [data_response hr, (serves_value h hc).1, motor_run, (position_run P h a x _).1]
          simp [Port.responses, hr, hdata]

/-- A read is served at an edge of the board's clock. -/
theorem ReadServed.boardEdge {t : ℕ} (hread : ReadServed P h a x t) :
    (x t).boardEdge.isSome = true := by
  obtain ⟨c, hc, -⟩ := hread
  exact (serves_value h hc).2

/-- **Every reading tracks the shaft.**  For all parameters and every interleaving, when the
encoder moves by at most one step between edges of the board's clock, begins with c1 low, never
turns back while c1 is high, and stays within the range of the register: the readings served are
the single-edge counts of the samples at the edges before the instants `us` at which the reads are
served, one for each of them and in this order, each is within 1 of a quarter of the displacement
of the shaft there, and what `main` has received so far is the first of them. -/
theorem readings_track (hw : IsWalk (encoder a x)) (h0 : a.c1 = false)
    (hT : ¬ TurnsBackHigh (encoder a x))
    (hrange : ∀ k, -2 ^ 31 ≤ disp (encoder a x) k ∧ disp (encoder a x) k < 2 ^ 31) (t : ℕ) :
    ∃ us : List ℕ, us.Pairwise (· < ·) ∧
      (∀ u, u ∈ us ↔ u < t ∧ ReadServed P h a x u) ∧
      (∀ u ∈ us, u < t ∧ (x u).boardEdge.isSome = true) ∧
      (positions P h a.c1 x t = us.map fun u =>
        BitVec.ofInt 32 (singleEdge (encoder a x) (boardEdges x u))) ∧
      (∀ u ∈ us, |((BitVec.ofInt 32 (singleEdge (encoder a x) (boardEdges x u))).toInt : ℚ)
        - disp (encoder a x) (boardEdges x u) / 4| < 1) ∧
      (delivered P h a.c1 x t).map Packet.data <+: positions P h a.c1 x t := by
  obtain ⟨us, hsorted, hmem, hus⟩ := positions_eq_map P h a x t
  refine ⟨us, hsorted, hmem, ?_, hus, ?_, delivered_isPrefix P h a.c1 x t⟩
  · intro u hu
    obtain ⟨hlt, hread⟩ := (hmem u).mp hu
    exact ⟨hlt, hread.boardEdge⟩
  · intro u _
    have hlt := abs_sub_disp_lt_of_low (t := boardEdges x u) hw (.inl h0)
    rw [sameSideExcess_eq_zero hw hT, Int.sub_zero] at hlt
    obtain ⟨hlo, hhi⟩ := hrange (boardEdges x u)
    obtain ⟨h1, h2⟩ := abs_lt.mp hlt
    rw [BitVec.toInt_ofInt_eq_self (by decide) (by omega) (by omega)]
    exact abs_sub_div_lt_one hlt

end

/-! ## 3. The pins -/

section

variable (P : Params) (h : Packet η) (c1 : Bool) (x : ℕ → LoopTick)

/-- The counter of the component counts the edges of the board's clock. -/
theorem counter_run {t u : ℕ} (htu : t ≤ u) : (run P h c1 x u).path.motor.counter.toNat
    = ((run P h c1 x t).path.motor.counter.toNat + (boardEdges x u - boardEdges x t)) % 2048 := by
  have hle : boardEdges x t ≤ boardEdges x u := Nat.count_monotone _ htu
  obtain ⟨n, hn⟩ := Nat.exists_eq_add_of_le hle
  rw [motor_run, motor_run, hn, Nat.add_sub_cancel_left, Motor.run, trace_add]
  exact run_counter fun j _ => clockIn_rstReset P h c1 x _

/-- While no word is strobed, the command in force stays. -/
theorem command_of_quiet {t u w : ℕ} (hquiet : written P h c1 x u = written P h c1 x t)
    (htw : t ≤ w) (hwu : w ≤ u) :
    (run P h c1 x w).path.motor.command = (run P h c1 x t).path.motor.command := by
  have hlow := (written_mono P h c1 x htw).length_le
  have hhigh := (written_mono P h c1 x hwu).length_le
  have hsame : written P h c1 x t = written P h c1 x w :=
    (written_mono P h c1 x htw).eq_of_length (by rw [hquiet] at hhigh; omega)
  have hw : (run P h c1 x w).path.motor.command = Path.commandOf (written P h c1 x w) :=
    (inv_run P h c1 x w).path.latched
  have ht : (run P h c1 x t).path.motor.command = Path.commandOf (written P h c1 x t) :=
    (inv_run P h c1 x t).path.latched
  rw [hw, ht, hsame]

/-- Of 2048 clocks the counter is below `m` on `m`, if that counts at all. -/
theorem count_window (d : Prop) [Decidable d] {m : ℕ} (hm : m ≤ 2048) (c : ℕ) :
    Nat.count (fun k => d ∧ (c + k) % 2048 < m) 2048 = if d then m else 0 := by
  by_cases hd : d
  · simp only [hd, true_and, if_true]
    exact count_mod_lt hm c
  · simp only [hd, false_and, if_false]
    exact Nat.count_false 2048

/-- **The motor is on for the magnitude of the command in force.**  For all parameters, every
interleaving and any encoder, over any stretch with 2048 edges of the board's clock in which no
word is strobed: there is a speed `v`, 0 or the command of one of the readings served before, such
that the clockwise pin is high after `v` of these edges and the other pin after `-v` of them. -/
theorem on_time_of_command {t u : ℕ} (hclocks : boardEdges x u = boardEdges x t + 2048)
    (hquiet : written P h c1 x u = written P h c1 x t) : ∃ v : ℤ,
    (v = 0 ∨ IsCommand P (iordOf (positions P h c1 x t)) (positions P h c1 x t).length v) ∧
    Nat.count (fun j => (x (t + j)).boardEdge.isSome = true ∧
      (run P h c1 x (t + j + 1)).path.motor.m1 = true) (u - t) = v.toNat ∧
    Nat.count (fun j => (x (t + j)).boardEdge.isSome = true ∧
      (run P h c1 x (t + j + 1)).path.motor.m2 = true) (u - t) = (-v).toNat := by
  have htu : t ≤ u := by
    by_contra hlt
    have hle : boardEdges x u ≤ boardEdges x t := Nat.count_monotone _ (by omega)
    omega
  obtain ⟨v, hcommand, hv⟩ := command_in_force P h c1 x t
  have habs : v.natAbs ≤ 2048 := by
    rcases hv with rfl | hv
    · decide
    · obtain ⟨hlo, hhi⟩ := hv.safe
      omega
  have hstretch : boardEdges x (t + (u - t)) - boardEdges x t = 2048 := by
    rw [Nat.add_sub_of_le htu]
    omega
  -- what the pins show after an edge, by the number of the edge
  have hpins : ∀ j < u - t, (x (t + j)).boardEdge.isSome = true →
      ((run P h c1 x (t + j + 1)).path.motor.m1 = true ↔ 0 ≤ v ∧
        ((run P h c1 x t).path.motor.counter.toNat + (boardEdges x (t + j) - boardEdges x t))
          % 2048 < v.natAbs) ∧
      ((run P h c1 x (t + j + 1)).path.motor.m2 = true ↔ ¬ 0 ≤ v ∧
        ((run P h c1 x t).path.motor.counter.toNat + (boardEdges x (t + j) - boardEdges x t))
          % 2048 < v.natAbs) := by
    intro j hj hedge
    have hforce := command_of_quiet P h c1 x hquiet (Nat.le_add_right t j) (by omega)
    rw [hcommand] at hforce
    have hdir : (run P h c1 x (t + j)).path.motor.clockwiseOut = decide (0 ≤ v) :=
      congrArg Prod.fst hforce
    have hmag : (run P h c1 x (t + j)).path.motor.pwmCompare.toNat = v.natAbs :=
      congrArg Prod.snd hforce
    obtain ⟨e, he⟩ := Option.isSome_iff_exists.mp hedge
    rw [motor_succ, he, ← counter_run P h c1 x (Nat.le_add_right t j), ← hmag]
    dsimp only
    rw [step_m1 rfl, step_m2 rfl, hdir, decide_eq_true_iff, decide_eq_false_iff_not]
    exact ⟨Iff.rfl, Iff.rfl⟩
  have hcount : ∀ (d : Prop) [Decidable d], Nat.count (fun j =>
      (x (t + j)).boardEdge.isSome = true ∧ d ∧ ((run P h c1 x t).path.motor.counter.toNat
        + (boardEdges x (t + j) - boardEdges x t)) % 2048 < v.natAbs) (u - t)
      = if d then v.natAbs else 0 := by
    intro d _
    have hgated := count_gated (x := fun j => (x j).boardEdge) (fun k => d ∧
      ((run P h c1 x t).path.motor.counter.toNat + (k - boardEdges x t)) % 2048 < v.natAbs)
      t (u - t)
    refine hgated.trans ?_
    have hedges : ∀ w, edges (fun j => (x j).boardEdge) w = boardEdges x w := fun _ => rfl
    simp only [hedges, hstretch, Nat.add_sub_cancel_left]
    exact count_window d habs _
  refine ⟨v, hv, ?_, ?_⟩
  · rw [count_congr fun j hj => and_congr_right fun hedge => (hpins j hj hedge).1, hcount]
    split <;> omega
  · rw [count_congr fun j hj => and_congr_right fun hedge => (hpins j hj hedge).2, hcount]
    split <;> omega

end

/-- When all commands handed over have been served and the program gets to no other, none is
served. -/
theorem written_of_idle (P : Params) (h : Packet η) (c1 : Bool) (x : ℕ → LoopTick) {t u : ℕ}
    (htu : t ≤ u) (hall : (served P h c1 x t).length = (issued P h c1 x t).length)
    (hidle : ∀ j, t ≤ j → j < u → (x j).sysEdge.any SysInput.go = false) :
    written P h c1 x u = written P h c1 x t := by
  have hissued : ∀ w, t ≤ w → w ≤ u → issued P h c1 x w = issued P h c1 x t := by
    intro w htw
    induction w, htw using Nat.le_induction with
    | base => exact fun _ => rfl
    | succ w htw ih =>
      intro hw
      have hmore : issued P h c1 x (w + 1)
        = issued P h c1 x w ++ ((run P h c1 x w).accesses h (x w)).toList := rfl
      have hgo := hidle w htw hw
      have hnone : (run P h c1 x w).accesses h (x w) = none := by
        cases hx : (x w).sysEdge with
        | none => simp [accesses, taken, Path.issues, Crosser.enters, Path.cmdTick, pathTick, hx]
        | some e =>
          rw [hx, Option.any_some] at hgo
          simp [accesses, taken, Path.issues, Crosser.enters, Path.cmdTick, pathTick, hx, hgo,
            Crosser.takeInData]
      rw [hmore, hnone, ih (Nat.le_of_succ_le hw)]
      exact List.append_nil _
  obtain ⟨held, hheld, -⟩ := (inv_run P h c1 x u).path.there.lossless
  have hlen := congrArg List.length hheld
  rw [hissued u htu (Nat.le_refl u), List.length_append, List.length_map, List.length_map] at hlen
  have hmono : served P h c1 x t <+: served P h c1 x u := emitted_isPrefix _ _ _ x htu
  have hle := hmono.length_le
  rw [written, written, hmono.eq_of_length (by omega)]

/-- Both clocks in step, and a program that is held up after its first word. -/
def heldUp (t : ℕ) : LoopTick := ⟨some ⟨decide (t < 20), true, (false, false)⟩,
  some ⟨2, (false, false)⟩⟩

/-- The on-time over the 2048 edges from instant 40 on. -/
theorem on_time_of_command_heldUp : ∃ v : ℤ,
    (v = 0 ∨ IsCommand Params.inFile
      (iordOf (positions Params.inFile ⟨.read, 0, 1, 2, 0, ()⟩ false heldUp 40))
      (positions Params.inFile ⟨.read, 0, 1, 2, 0, ()⟩ false heldUp 40).length v) ∧
    Nat.count (fun j => (heldUp (40 + j)).boardEdge.isSome = true ∧
      (run Params.inFile ⟨.read, 0, 1, 2, 0, ()⟩ false heldUp (40 + j + 1)).path.motor.m1 = true)
      (2088 - 40) = v.toNat ∧
    Nat.count (fun j => (heldUp (40 + j)).boardEdge.isSome = true ∧
      (run Params.inFile ⟨.read, 0, 1, 2, 0, ()⟩ false heldUp (40 + j + 1)).path.motor.m2 = true)
      (2088 - 40) = (-v).toNat := by
  have hedges : ∀ t, boardEdges heldUp t = t := fun t => Nat.count_true t
  have hall : (served Params.inFile ⟨.read, 0, 1, 2, 0, ()⟩ false heldUp 40).length
      = (issued Params.inFile ⟨.read, 0, 1, 2, 0, ()⟩ false heldUp 40).length := by
    decide +kernel
  refine on_time_of_command Params.inFile ⟨.read, 0, 1, 2, 0, ()⟩ false heldUp (t := 40)
    (u := 2088) (by rw [hedges, hedges]) (written_of_idle _ _ _ _ (by decide) hall ?_)
  intro j hj _
  exact decide_eq_false (by omega)

/-- Both clocks in step, and an encoder that steps into the c1-high half after ten edges. -/
def oneStep (t : ℕ) : LoopTick :=
  ⟨some ⟨true, true, (false, false)⟩, some ⟨if t < 10 then 1 else 3, (false, false)⟩⟩

theorem encoder_oneStep (k : ℕ) :
    encoder ⟨false, true⟩ oneStep k = if k ≤ 10 then ⟨false, true⟩ else ⟨true, true⟩ := by
  cases k with
  | zero => rfl
  | succ k =>
    have hall : ∀ t, (oneStep t).boardEdge.isSome = true := fun _ => rfl
    have hnth : Nat.nth (fun _ => True) k = k := by simp
    simp only [encoder, atEdge, hall, hnth]
    by_cases hk : k < 10
    · rw [if_pos (by omega)]
      simp [oneStep, hk, edgeSample, In.sample, In.c1, In.c2]
    · rw [if_neg (by omega)]
      simp [oneStep, hk, edgeSample, In.sample, In.c1, In.c2]

theorem stepSign_oneStep (k : ℕ) : stepSign (encoder ⟨false, true⟩ oneStep k)
    (encoder ⟨false, true⟩ oneStep (k + 1)) = if k = 10 then 1 else 0 := by
  rw [encoder_oneStep, encoder_oneStep]
  rcases Nat.lt_trichotomy k 10 with hk | rfl | hk
  · rw [if_pos (by omega), if_pos (by omega), if_neg (by omega)]
    rfl
  · rfl
  · rw [if_neg (by omega), if_neg (by omega), if_neg (by omega)]
    rfl

theorem disp_oneStep (k : ℕ) :
    disp (encoder ⟨false, true⟩ oneStep) k = if k ≤ 10 then 0 else 1 := by
  induction k with
  | zero => rfl
  | succ k ih =>
    rw [disp_succ, ih, stepSign_oneStep]
    rcases Nat.lt_trichotomy k 10 with hk | rfl | hk
    · rw [if_pos (by omega), if_neg (by omega), if_pos (by omega), Int.add_zero]
    · rfl
    · rw [if_neg (by omega), if_neg (by omega), if_neg (by omega), Int.add_zero]

/-- Two readings by instant 22, of which the second has seen the step. -/
theorem readings_track_oneStep :
    positions Params.inFile ⟨.read, 0, 1, 2, 0, ()⟩ false oneStep 23 = [0, 1] ∧
    ∃ us : List ℕ, us.Pairwise (· < ·) ∧
      (∀ u, u ∈ us ↔ u < 23 ∧
        ReadServed Params.inFile ⟨.read, 0, 1, 2, 0, ()⟩ ⟨false, true⟩ oneStep u) ∧
      (∀ u ∈ us, u < 23 ∧ (oneStep u).boardEdge.isSome = true) ∧
      (positions Params.inFile ⟨.read, 0, 1, 2, 0, ()⟩ false oneStep 23 = us.map fun u =>
        BitVec.ofInt 32 (singleEdge (encoder ⟨false, true⟩ oneStep) (boardEdges oneStep u))) ∧
      (∀ u ∈ us, |((BitVec.ofInt 32 (singleEdge (encoder ⟨false, true⟩ oneStep)
          (boardEdges oneStep u))).toInt : ℚ)
        - disp (encoder ⟨false, true⟩ oneStep) (boardEdges oneStep u) / 4| < 1) ∧
      (delivered Params.inFile ⟨.read, 0, 1, 2, 0, ()⟩ false oneStep 23).map Packet.data
        <+: positions Params.inFile ⟨.read, 0, 1, 2, 0, ()⟩ false oneStep 23 := by
  have hw : IsWalk (encoder ⟨false, true⟩ oneStep) := by
    intro k
    rw [encoder_oneStep, encoder_oneStep]
    rcases Nat.lt_trichotomy k 10 with hk | rfl | hk
    · rw [if_pos (by omega), if_pos (by omega)]
      exact .inl rfl
    · exact .inr (.inl rfl)
    · rw [if_neg (by omega), if_neg (by omega)]
      exact .inl rfl
  have hT : ¬ TurnsBackHigh (encoder ⟨false, true⟩ oneStep) := by
    rintro ⟨i, j, -, -, -, hopposite, hmoves⟩
    rw [stepSign_oneStep, stepSign_oneStep] at hopposite
    rw [stepSign_oneStep] at hmoves
    split at hopposite <;> split at hopposite <;> split at hmoves <;> omega
  have hrange : ∀ k, -2 ^ 31 ≤ disp (encoder ⟨false, true⟩ oneStep) k ∧
      disp (encoder ⟨false, true⟩ oneStep) k < 2 ^ 31 := by
    intro k
    rw [disp_oneStep]
    split <;> decide
  exact ⟨by decide +kernel, readings_track Params.inFile ⟨.read, 0, 1, 2, 0, ()⟩ ⟨false, true⟩
    oneStep hw rfl hT hrange 23⟩

end MotorPid.System.ClosedLoop
