/-
# The program and the motor component, through the interconnect

The whole loop: `main` on the processor hands its accesses to the interconnect, which takes them
across two clock domains to the component and the readings back.  An instant says which clocks
have an edge, whether the processor gets to its next access, and what the encoder shows; nothing
is assumed of the plant behind the encoder.

`loop_exact` says that for every interleaving the software and the hardware do together what
`main` says alone: the variables of `main` are those of a run of the loop whose readings are the
values of the position register at the clocks the reads are served, the component is strobed with
the words of that run in order, and every reading is taken with the words of all earlier
iterations in force and with no other.
-/
import MotorPid.Bus.Path
import MotorPid.System.Program

namespace MotorPid.System

open Controller Bus Clocked

variable {η : Type*}

/-! ## 1. Processor and interconnect -/

/-- The processor and everything between it and the motor pins. -/
structure ClosedLoop (η : Type*) where
  processor : Processor
  path : Path η

/-- What an edge of the processor's clock brings: whether the processor gets to its next access,
and whether its response port is ready. -/
structure SysInput where
  go : Bool
  rspReady : Bool
  random : Bool × Bool

/-- An instant: the edges at it. -/
structure LoopTick where
  sysEdge : Option SysInput
  boardEdge : Option BoardEdge

namespace ClosedLoop

/-- Everything after reset; `h` is the header of the program's packets. -/
def reset (h : Packet η) (c1 : Bool) : ClosedLoop η := ⟨.start, .reset h c1⟩

section

variable (P : Params) (h : Packet η) (s : ClosedLoop η) (x : LoopTick)

/-- What the interconnect sees. -/
def pathTick : PathTick η where
  sysEdge := x.sysEdge.map fun e =>
    ⟨e.go && s.processor.offers.isSome, (s.processor.offers.getD .iord).packet h, e.rspReady,
      e.random⟩
  boardEdge := x.boardEdge

/-- The response that reaches the processor. -/
def receives : Option (Packet η) := s.path.delivers (s.pathTick h x)

/-- Whether the access on offer is taken. -/
def taken : Bool := (s.path.issues (s.pathTick h x)).isSome

/-- The access that is handed over. -/
def accesses : Option Access := if s.taken h x then s.processor.offers else none

/-- The command that is served, with what the position register holds just before. -/
def serves : Option (Packet η × BitVec 32) := s.path.serves (s.pathTick h x)

/-- One instant. -/
def step : ClosedLoop η where
  processor := s.processor.next P (s.taken h x) ((s.receives h x).map Packet.data)
  path := s.path.step (s.pathTick h x)

end

/-! ## 2. One instant -/

variable {P : Params} {h : Packet η} {s : ClosedLoop η} {x : LoopTick}

/-- What enters the interconnect is the access on offer. -/
theorem issues_eq : s.path.issues (s.pathTick h x) = (s.accesses h x).map (Access.packet h) ∧
    (s.taken h x = true → s.processor.offers.isSome = true) := by
  rw [accesses, taken]
  cases hx : x.sysEdge with
  | none => simp [Path.issues, Crosser.enters, Path.cmdTick, pathTick, hx]
  | some e =>
    cases ho : s.processor.offers with
    | none => simp [Path.issues, Crosser.enters, Path.cmdTick, pathTick, hx, ho,
        Crosser.takeInData]
    | some a =>
      simp only [Path.issues, Crosser.enters, Path.cmdTick, pathTick, hx, ho, Option.map_some,
        Option.getD_some, Option.isSome_some, implies_true, and_true]
      split <;> rfl

/-- The reads among packets, as among accesses. -/
theorem countP_packet (l : List Access) :
    (l.map (Access.packet h)).countP (fun p => p.trans == .read) = l.countP Access.isIord := by
  rw [List.countP_map]
  exact List.countP_congr fun a _ => by cases a <;> simp [Access.packet, Access.isIord]

theorem filterMap_packet (l : List Access) :
    (l.map (Access.packet h)).filterMap Packet.written
      = (l.filterMap Access.word).map (BitVec.ofInt 32) := by
  rw [List.filterMap_map, List.map_filterMap]
  exact List.filterMap_congr fun a _ => by cases a <;> rfl

/-- The invariants of the processor and of the interconnect over the histories between them. -/
structure Inv (P : Params) (h : Packet η) (s : ClosedLoop η) (issued : List Access)
    (served : List (Packet η × BitVec 32)) (answered delivered : List (Packet η)) : Prop where
  path : s.path.Inv (issued.map (Access.packet h)) served answered delivered
  processor : s.processor.Inv P (delivered.map Packet.data) issued

section

variable {issued : List Access} {served : List (Packet η × BitVec 32)}
  {answered delivered : List (Packet η)}

theorem inv_reset (c1 : Bool) : Inv P h (reset h c1) [] [] [] [] :=
  ⟨Path.inv_reset h c1, Processor.inv_start⟩

/-- The reads served are at most those handed over. -/
theorem Inv.responses_le (hI : Inv P h s issued served answered delivered) :
    (Port.responses served).length ≤ delivered.length + s.processor.asked.length := by
  obtain ⟨held, hheld, -⟩ := hI.path.there.lossless
  have hreads := hI.processor.reads
  have hcount := congrArg (List.countP fun p : Packet η => p.trans == .read) hheld
  rw [countP_packet, List.countP_append, ← Port.length_responses, hreads, List.length_map] at hcount
  omega

/-- **A response arrives only where one is waited for.** -/
theorem Inv.waits (hI : Inv P h s issued served answered delivered)
    (hr : (s.receives h x).isSome = true) :
    s.processor.phase = .wait ∧ s.taken h x = false := by
  have hle := hI.responses_le
  have hmore : delivered ++ (s.receives h x).toList <+: Port.responses served :=
    hI.path.delivers_isPrefix (s.pathTick h x)
  have hlen := hmore.length_le
  obtain ⟨r, hr⟩ := Option.isSome_iff_exists.mp hr
  rw [hr, Option.toList_some, List.length_append, List.length_singleton] at hlen
  have hwait : s.processor.phase = .wait := by
    by_contra hne
    have hasked : s.processor.asked = [] := by
      cases hp : s.processor.phase with
      | wait => exact absurd hp hne
      | _ => simp [Processor.asked, hp]
    rw [hasked, List.length_nil] at hle
    omega
  refine ⟨hwait, ?_⟩
  rw [← Bool.not_eq_true]
  intro htaken
  have hoffers := (issues_eq (h := h) (s := s) (x := x)).2 htaken
  simp [Processor.offers, hwait] at hoffers

/-- **One instant keeps the processor and the interconnect together.** -/
theorem Inv.step (hI : Inv P h s issued served answered delivered) (x : LoopTick) :
    Inv P h (s.step P h x) (issued ++ (s.accesses h x).toList)
      (served ++ (s.serves h x).toList)
      (answered ++ (s.path.answers (s.pathTick h x)).toList)
      (delivered ++ (s.receives h x).toList) where
  path := by
    have hpath := hI.path.step (s.pathTick h x)
    rw [issues_eq.1] at hpath
    rw [List.map_append]
    cases ha : s.accesses h x <;> rw [ha] at hpath <;> exact hpath
  processor := by
    rw [List.map_append]
    cases hr : s.receives h x with
    | none =>
      have hquiet := hI.processor.step_quiet (issues_eq (h := h) (s := s) (x := x)).2
      simpa [ClosedLoop.step, accesses, hr] using hquiet
    | some r =>
      obtain ⟨hwait, htaken⟩ := hI.waits (x := x) (by rw [hr]; rfl)
      have hresponse := hI.processor.step_response hwait r.data
      simpa [ClosedLoop.step, accesses, hr, htaken] using hresponse

end

/-! ## 3. Whole runs -/

section

variable (P : Params) (h : Packet η) (c1 : Bool) (x : ℕ → LoopTick)

/-- The loop just before instant `t` of a run from reset. -/
abbrev run (t : ℕ) : ClosedLoop η := trace (step P h) (reset h c1) x t

/-- The accesses handed over before instant `t`. -/
def issued (t : ℕ) : List Access := emitted (step P h) (accesses h) (reset h c1) x t

/-- The commands served before instant `t`, each with what the position register held. -/
def served (t : ℕ) : List (Packet η × BitVec 32) :=
  emitted (step P h) (serves h) (reset h c1) x t

/-- The responses the port has given before instant `t`. -/
def answered (t : ℕ) : List (Packet η) :=
  emitted (step P h) (fun s i => s.path.answers (s.pathTick h i)) (reset h c1) x t

/-- The responses the processor has received before instant `t`. -/
def delivered (t : ℕ) : List (Packet η) := emitted (step P h) (receives h) (reset h c1) x t

/-- What the reads served before instant `t` found in the position register. -/
def positions (t : ℕ) : List (BitVec 32) :=
  (Port.responses (served P h c1 x t)).map Packet.data

/-- The words of the writes served before instant `t`: those the component has been strobed with
(`strobed_eq_written`). -/
def written (t : ℕ) : List (BitVec 32) := (served P h c1 x t).filterMap fun c => c.1.written

/-- The words the component has been strobed with before instant `t`. -/
def strobed (t : ℕ) : List (BitVec 32) :=
  emitted (step P h) (fun s i => s.path.strobes (s.pathTick h i)) (reset h c1) x t

theorem inv_run (t : ℕ) : Inv P h (run P h c1 x t) (issued P h c1 x t) (served P h c1 x t)
    (answered P h c1 x t) (delivered P h c1 x t) := by
  induction t with
  | zero => exact inv_reset c1
  | succ t ih => exact ih.step (x t)

/-- **The words written are the strobes.**  Each write that is served strobes the component once,
and nothing else does. -/
theorem strobed_eq_written (t : ℕ) : strobed P h c1 x t = written P h c1 x t := by
  induction t with
  | zero => rfl
  | succ t ih =>
    have hstrobes := (inv_run P h c1 x t).path.strobes_eq (x := (run P h c1 x t).pathTick h (x t))
    have hserved : served P h c1 x (t + 1)
        = served P h c1 x t ++ ((run P h c1 x t).serves h (x t)).toList := rfl
    rw [strobed, emitted_succ, hstrobes, ← strobed, ih, written, written, hserved,
      List.filterMap_append, ← serves]
    cases (run P h c1 x t).serves h (x t) <;> rfl

/-- The readings received are the first of those served. -/
theorem delivered_isPrefix (t : ℕ) :
    (delivered P h c1 x t).map Packet.data <+: positions P h c1 x t := by
  obtain ⟨held, hheld, -⟩ := (inv_run P h c1 x t).path.back.lossless
  obtain ⟨hs, vs, hport⟩ := (inv_run P h c1 x t).path.port
  have hanswered : answered P h c1 x t <+: Port.responses (served P h c1 x t) :=
    ⟨_, hport.history.symm⟩
  exact List.IsPrefix.map _ (List.IsPrefix.trans ⟨held, hheld.symm⟩ hanswered)

/-- The variables of `main` are those of a run on the values found in the position register. -/
theorem run_progress (t : ℕ) : (run P h c1 x t).processor.progress
    = mainRun P (iordOf (positions P h c1 x t)) (delivered P h c1 x t).length := by
  have hprogress := (inv_run P h c1 x t).processor.progress
  rw [List.length_map] at hprogress
  rw [hprogress]
  refine mainRun_congr P ?_
  intro k hk
  exact iordOf_isPrefix (delivered_isPrefix P h c1 x t) (by rwa [List.length_map])

/-- The words strobed are those of the program, but for the one under way and those of the
iteration that are still to be written. -/
theorem run_written (t : ℕ) : ∃ rest,
    (run P h c1 x t).processor.progress.words.map (BitVec.ofInt 32) = written P h c1 x t ++ rest ∧
      rest.length ≤ 3 := by
  have hI := inv_run P h c1 x t
  obtain ⟨held, hheld, hlen⟩ := hI.path.there.lossless
  have hwords := hI.processor.words
  have hpackets := congrArg (List.filterMap Packet.written) hheld
  rw [filterMap_packet, List.filterMap_append, List.filterMap_map] at hpackets
  refine ⟨held.filterMap Packet.written
    ++ (run P h c1 x t).processor.pending.map (BitVec.ofInt 32), ?_, ?_⟩
  · rw [← hwords, List.map_append, hpackets, List.append_assoc]
    rfl
  · have hpending := hI.processor.pending_le
    have hheld' := List.length_filterMap_le Packet.written held
    rw [List.length_append, List.length_map]
    omega

/-- When a read is served, what has been served before is the script of the readings before, and
the iteration it belongs to takes place. -/
theorem served_script {t : ℕ} {c : Packet η × BitVec 32}
    (hserve : (run P h c1 x t).serves h (x t) = some c) (hread : c.1.trans = .read) :
    (served P h c1 x t).map Prod.fst
      = (script P (iordOf (positions P h c1 x t)) (positions P h c1 x t).length).map
          (Access.packet h) ∧
    TakesPlace P (positions P h c1 x t).length := by
  have hI := inv_run P h c1 x (t + 1)
  have hserved : served P h c1 x (t + 1) = served P h c1 x t ++ [c] := by
    rw [served, emitted_succ, hserve]
    rfl
  obtain ⟨held, hheld, -⟩ := hI.path.there.lossless
  have hfirst : (served P h c1 x t).map Prod.fst ++ [c.1]
      <+: (issued P h c1 x (t + 1)).map (Access.packet h) := by
    refine ⟨held, ?_⟩
    rw [hheld, hserved, List.map_append]
    rfl
  -- the packets served are those of the first accesses handed over, and the last is a read
  rw [List.prefix_iff_eq_take, ← List.map_take] at hfirst
  obtain ⟨l, l', htake, hl, hl'⟩ := List.map_eq_append_iff.mp hfirst.symm
  obtain ⟨a, rfl, ha⟩ := List.map_eq_singleton_iff.mp hl'
  obtain rfl : a = .iord := by
    cases a with
    | iord => rfl
    | iowr w => simp [← ha, Access.packet] at hread
  have hissued : l ++ [.iord] <+: issued P h c1 x (t + 1) := by
    rw [← htake]
    exact List.take_prefix _ _
  have hasked : (run P h c1 x (t + 1)).processor.asked <+: [.iord] := by
    rw [Processor.asked]
    split
    · exact List.prefix_rfl
    · exact List.nil_prefix
  have hscript := script_isPrefix P (iordOf ((delivered P h c1 x (t + 1)).map Packet.data))
    ((hissued.trans ⟨_, hI.processor.accesses⟩).trans
      ((List.prefix_append_right_inj _).mpr hasked))
  have hcount : l.countP Access.isIord = (positions P h c1 x t).length := by
    rw [positions, List.length_map, Port.length_responses, ← hl, countP_packet]
  have hmore : (positions P h c1 x t).length < (issued P h c1 x (t + 1)).countP Access.isIord := by
    have hiord : [Access.iord].countP Access.isIord = 1 := rfl
    have hle : (l ++ [Access.iord]).countP Access.isIord
        ≤ (issued P h c1 x (t + 1)).countP Access.isIord := hissued.sublist.countP_le
    rwa [List.countP_append, hcount, hiord] at hle
  refine ⟨?_, hI.processor.takesPlace hmore⟩
  rw [hcount] at hscript
  rw [← hl, hscript, script_congr P ?_]
  intro k hk
  have hlater : positions P h c1 x t <+: positions P h c1 x (t + 1) := by
    rw [positions, positions, hserved, Port.responses_append, List.map_append]
    exact List.prefix_append _ _
  rw [iordOf_isPrefix hlater hk]
  refine iordOf_isPrefix (delivered_isPrefix P h c1 x (t + 1)) ?_
  have hone := hasked.length_le
  rw [hI.processor.reads, List.length_map] at hmore
  rw [List.length_singleton] at hone
  rw [List.length_map]
  omega

/-- **The program and the component, through the interconnect.**  For all parameters, every
interleaving of the clocks and any behaviour of the encoder, at every instant: the variables of
`main` are those of a run of the loop on the values found in the position register, of which at
most one has not come back; the component is strobed with the words of the writes served and with
no other; they are those this run writes, in order and each once, without at most three still to
come; and the component holds the command of the last. -/
theorem loop_exact (t : ℕ) : ∃ n,
    (run P h c1 x t).processor.progress = mainRun P (iordOf (positions P h c1 x t)) n ∧
    n ≤ (positions P h c1 x t).length ∧ (positions P h c1 x t).length ≤ n + 1 ∧
    strobed P h c1 x t = written P h c1 x t ∧
    Lossless ((run P h c1 x t).processor.progress.words.map (BitVec.ofInt 32))
      (written P h c1 x t) 3 ∧
    (run P h c1 x t).path.motor.command = Path.commandOf (written P h c1 x t) := by
  have hI := inv_run P h c1 x t
  refine ⟨(delivered P h c1 x t).length, run_progress P h c1 x t, ?_, ?_,
    strobed_eq_written P h c1 x t, run_written P h c1 x t, hI.path.latched⟩
  · have hle := (delivered_isPrefix P h c1 x t).length_le
    rwa [List.length_map] at hle
  · have hle := hI.responses_le
    have hasked : (run P h c1 x t).processor.asked.length ≤ 1 := by
      rw [Processor.asked]
      split <;> simp
    rw [positions, List.length_map]
    omega

/-- **Each reading is taken under the efforts of all readings before it, and of no other.**  When
the read of iteration `k` is served, that iteration takes place, and the words strobed so far are
the commands for the textbook efforts of the readings 0 to `k - 1`. -/
theorem sampled_control {t : ℕ}
    (hread : ((run P h c1 x t).serves h (x t)).map (fun c => c.1.trans) = some .read) :
    TakesPlace P (positions P h c1 x t).length ∧
    written P h c1 x t = (List.range (positions P h c1 x t).length).map fun k =>
      BitVec.ofInt 32 (command P.rpms (textbookEffort P (iordOf (positions P h c1 x t)) k)) := by
  obtain ⟨c, hserve, htrans⟩ := Option.map_eq_some_iff.mp hread
  obtain ⟨hscript, hplace⟩ := served_script P h c1 x hserve htrans
  refine ⟨hplace, ?_⟩
  have hwords := congrArg (List.filterMap Packet.written) hscript
  rw [filterMap_packet, script_words, List.filterMap_map, run_looping P _ hplace] at hwords
  refine Eq.trans hwords ?_
  simp [Progress.words, Progress.commands, Progress.log, loopingAt, cycleAt_pwm]

end

/-- Both clocks in step, nothing in the way, and an encoder that has turned back by one step. -/
def inStep (_ : ℕ) : LoopTick := ⟨some ⟨true, true, (false, false)⟩, some ⟨2, (false, false)⟩⟩

/-- With the parameters of the file, the second read is served at instant 22. -/
theorem sampled_control_second :
    positions Params.inFile ⟨.read, 0, 1, 2, 0, ()⟩ false inStep 22 = [-1] ∧
      written Params.inFile ⟨.read, 0, 1, 2, 0, ()⟩ false inStep 22 = (List.range 1).map fun k =>
        BitVec.ofInt 32 (command (-30) (textbookEffort Params.inFile (iordOf [-1]) k)) := by
  have hpos : positions Params.inFile ⟨.read, 0, 1, 2, 0, ()⟩ false inStep 22 = [-1] := by
    decide +kernel
  have hsampled := (sampled_control Params.inFile ⟨.read, 0, 1, 2, 0, ()⟩ false inStep
    (t := 22) (by decide +kernel)).2
  rw [hpos] at hsampled
  exact ⟨hpos, hsampled⟩

end ClosedLoop

end MotorPid.System
