/-
# What the motor pins can do in the whole loop

The pins follow the command the component holds, the component holds the last word strobed, and
the words strobed are those of `main` on the readings served.  So what the program promises of its
commands holds of the pins, at every instant of every run of the whole loop, whatever the two
clocks and the encoder do.

`turns_with_request`: a request for negative speed never raises the clockwise pin, and a request
for positive speed raises the other pin only after a reading whose effort is exactly zero.

`stays_stopped`: once `main` has returned and its words have arrived, the motor stays off.
-/
import MotorPid.System.ClosedLoop
import MotorPid.System.Decode
import MotorPid.Motor.Duty
import MotorPid.Motor.Refine

namespace MotorPid.System

open Controller Bus Clocked Motor

/-! ## 1. The words of a run -/

section

variable (P : Params)

/-- An effort depends on the readings up to its own. -/
theorem textbookEffort_congr {iord iord' : ℕ → ℤ} {k : ℕ} (h : ∀ j ≤ k, iord j = iord' j) :
    textbookEffort P iord k = textbookEffort P iord' k := by
  have hvars : varsAt P iord k = varsAt P iord' k :=
    trace_relate (R := Eq) rfl (fun j hj r r' hr => by rw [hr, h j (Nat.le_of_lt hj)]) k
      (Nat.le_refl k)
  rw [← effort_varsAt, ← effort_varsAt, hvars, h k (Nat.le_refl k)]

/-- `v` is the command of one of the first `n` iterations. -/
def IsCommand (iord : ℕ → ℤ) (n : ℕ) (v : ℤ) : Prop :=
  ∃ k < n, TakesPlace P k ∧ v = command P.rpms (textbookEffort P iord k)

theorem IsCommand.mono {P : Params} {vs vs' : List (BitVec 32)} {v : ℤ} (hvs : vs <+: vs')
    (h : IsCommand P (iordOf vs) vs.length v) : IsCommand P (iordOf vs') vs'.length v := by
  obtain ⟨k, hk, hplace, hv⟩ := h
  refine ⟨k, lt_of_lt_of_le hk hvs.length_le, hplace, ?_⟩
  rw [hv, textbookEffort_congr P]
  exact fun j hj => iordOf_isPrefix hvs (lt_of_le_of_lt hj hk)

theorem IsCommand.safe {P : Params} {iord : ℕ → ℤ} {n : ℕ} {v : ℤ} (h : IsCommand P iord n v) :
    SafeSpeed v := by
  obtain ⟨k, -, -, rfl⟩ := h
  exact safe_of_abs_le (command_abs_bounds _ _).2

/-- A word of the program is a command, or the 0 on the way out. -/
theorem mem_words {iord : ℕ → ℤ} {n : ℕ} {v : ℤ} (hv : v ∈ (mainRun P iord n).words) :
    v = 0 ∨ IsCommand P iord n v := by
  have hcommand : v ∈ (mainRun P iord n).commands → IsCommand P iord n v :=
    (mem_commands P iord).mp
  cases hp : mainRun P iord n with
  | looping s t log =>
    rw [hp] at hv hcommand
    exact .inr (hcommand hv)
  | undefined log =>
    rw [hp] at hv hcommand
    exact .inr (hcommand hv)
  | returned log =>
    rw [hp] at hv hcommand
    rcases List.mem_append.mp hv with hv | hv
    · exact .inr (hcommand hv)
    · exact .inl (List.mem_singleton.mp hv)

end

namespace ClosedLoop

variable {η : Type*}

section

variable (P : Params) (h : Packet η) (c1 : Bool) (x : ℕ → LoopTick)

/-! ## 2. The command in force -/

/-- What is served later is added to what is served before. -/
theorem positions_mono {t u : ℕ} (htu : t ≤ u) :
    positions P h c1 x t <+: positions P h c1 x u := by
  obtain ⟨l, hl⟩ : served P h c1 x t <+: served P h c1 x u :=
    emitted_isPrefix (step P h) (serves h) _ x htu
  rw [positions, positions, ← hl, Port.responses_append, List.map_append]
  exact List.prefix_append _ _

theorem written_mono {t u : ℕ} (htu : t ≤ u) : written P h c1 x t <+: written P h c1 x u := by
  obtain ⟨l, hl⟩ : served P h c1 x t <+: served P h c1 x u :=
    emitted_isPrefix (step P h) (serves h) _ x htu
  rw [written, written, ← hl, List.filterMap_append]
  exact List.prefix_append _ _

/-- **The command in force** is a stop, or the command of one of the readings served. -/
theorem command_in_force (t : ℕ) : ∃ v : ℤ,
    (run P h c1 x t).path.motor.command = speedCommand v ∧
      (v = 0 ∨ IsCommand P (iordOf (positions P h c1 x t)) (positions P h c1 x t).length v) := by
  have hprogress := run_progress P h c1 x t
  obtain ⟨rest, hwords, -⟩ := run_written P h c1 x t
  have hcommand : (run P h c1 x t).path.motor.command = Path.commandOf (written P h c1 x t) :=
    (inv_run P h c1 x t).path.latched
  rw [hcommand]
  rcases List.eq_nil_or_concat (written P h c1 x t) with hnil | ⟨ws, w, hw⟩
  · rw [hnil]
    exact ⟨0, rfl, .inl rfl⟩
  · have hmem : w ∈ (run P h c1 x t).processor.progress.words.map (BitVec.ofInt 32) := by
      rw [hwords, hw]
      simp
    obtain ⟨v, hv, rfl⟩ := List.mem_map.mp hmem
    rw [hprogress] at hv
    have hvalue := mem_words P hv
    have hsafe : SafeSpeed v := by
      rcases hvalue with rfl | hvalue
      · decide
      · exact hvalue.safe
    refine ⟨v, ?_, ?_⟩
    · rw [hw, List.concat_eq_append, Path.commandOf_append, wordSpeed_ofInt, bmod_of_safe hsafe,
        speedMag_of_safe hsafe, speedCommand]
    · rcases hvalue with rfl | ⟨k, hk, hplace, hcommand⟩
      · exact .inl rfl
      · have hle := (delivered_isPrefix P h c1 x t).length_le
        rw [List.length_map] at hle
        exact .inr ⟨k, lt_of_lt_of_le hk hle, hplace, hcommand⟩

/-! ## 3. The pins -/

/-- The component after an instant: one clock of it, or none. -/
theorem motor_succ (t : ℕ) : (run P h c1 x (t + 1)).path.motor =
    match (x t).boardEdge with
    | some e => Motor.step (run P h c1 x t).path.motor ((run P h c1 x t).path.motorIn e)
    | none => (run P h c1 x t).path.motor := rfl

/-- **A pin is high only after a command of its sign.** -/
theorem high_after_command (t : ℕ) :
    ((run P h c1 x t).path.motor.m1 = true → ∃ v,
      IsCommand P (iordOf (positions P h c1 x t)) (positions P h c1 x t).length v ∧ 0 < v) ∧
    ((run P h c1 x t).path.motor.m2 = true → ∃ v,
      IsCommand P (iordOf (positions P h c1 x t)) (positions P h c1 x t).length v ∧ v < 0) := by
  induction t with
  | zero => exact ⟨fun hm => absurd hm Bool.false_ne_true, fun hm => absurd hm Bool.false_ne_true⟩
  | succ t ih =>
    have hmono := positions_mono P h c1 x (Nat.le_succ t)
    rw [motor_succ]
    cases hx : (x t).boardEdge with
    | none =>
      refine ⟨fun hm => ?_, fun hm => ?_⟩
      · obtain ⟨v, hv, hpos⟩ := ih.1 hm
        exact ⟨v, hv.mono hmono, hpos⟩
      · obtain ⟨v, hv, hneg⟩ := ih.2 hm
        exact ⟨v, hv.mono hmono, hneg⟩
    | some e =>
      -- the pins after the clock show the command in force before it
      obtain ⟨v, hcommand, hv⟩ := command_in_force P h c1 x t
      have hdir : (run P h c1 x t).path.motor.clockwiseOut = decide (0 ≤ v) :=
        congrArg Prod.fst hcommand
      have hmag : (run P h c1 x t).path.motor.pwmCompare.toNat = v.natAbs :=
        congrArg Prod.snd hcommand
      have hreset : ((run P h c1 x t).path.motorIn e).rstReset = false := rfl
      dsimp only
      rw [step_m1 hreset, step_m2 hreset, hdir, hmag, decide_eq_true_iff, decide_eq_false_iff_not]
      refine ⟨fun hm => ?_, fun hm => ?_⟩
      · have hpos : 0 < v := by omega
        exact ⟨v, (hv.resolve_left hpos.ne').mono hmono, hpos⟩
      · have hneg : v < 0 := by omega
        exact ⟨v, (hv.resolve_left hneg.ne).mono hmono, hneg⟩

/-- The two pins are never high together. -/
theorem never_both (t : ℕ) : ¬ ((run P h c1 x t).path.motor.m1 = true ∧
    (run P h c1 x t).path.motor.m2 = true) := by
  induction t with
  | zero => exact fun hm => absurd hm.1 Bool.false_ne_true
  | succ t ih =>
    rw [motor_succ]
    cases hx : (x t).boardEdge with
    | none => exact ih
    | some e =>
      have hother := other_pin_low (r := (run P h c1 x t).path.motor)
        (i := (run P h c1 x t).path.motorIn e) rfl
      rintro ⟨hm1, hm2⟩
      cases hd : (run P h c1 x t).path.motor.clockwiseOut with
      | false => exact absurd (hother.2 hd) (by simpa using hm1)
      | true => exact absurd (hother.1 hd) (by simpa using hm2)

/-- **The motor is driven with the request.**  At every instant of every run of the whole loop:
the pins are never high together, and neither before the first reading is served; with a request
for negative speed the clockwise pin is low; and with a request for positive speed the other pin
is high only after a reading whose effort is exactly zero. -/
theorem turns_with_request (t : ℕ) :
    ¬ ((run P h c1 x t).path.motor.m1 = true ∧ (run P h c1 x t).path.motor.m2 = true) ∧
    (positions P h c1 x t = [] → (run P h c1 x t).path.motor.m1 = false ∧
      (run P h c1 x t).path.motor.m2 = false) ∧
    (P.rpms < 0 → (run P h c1 x t).path.motor.m1 = false) ∧
    (0 < P.rpms → (run P h c1 x t).path.motor.m2 = true → ∃ k < (positions P h c1 x t).length,
      TakesPlace P k ∧ textbookEffort P (iordOf (positions P h c1 x t)) k = 0) := by
  obtain ⟨hm1, hm2⟩ := high_after_command P h c1 x t
  refine ⟨never_both P h c1 x t, ?_, ?_, ?_⟩
  · intro hnone
    rw [← Bool.not_eq_true, ← Bool.not_eq_true]
    constructor
    · intro hm
      obtain ⟨v, ⟨k, hk, -⟩, -⟩ := hm1 hm
      simp [hnone] at hk
    · intro hm
      obtain ⟨v, ⟨k, hk, -⟩, -⟩ := hm2 hm
      simp [hnone] at hk
  · intro hr
    rw [← Bool.not_eq_true]
    intro hm
    obtain ⟨v, ⟨k, -, -, rfl⟩, hpos⟩ := hm1 hm
    exact lt_asymm hpos (command_neg_of_neg hr)
  · intro hr hm
    obtain ⟨v, ⟨k, hk, hplace, rfl⟩, hneg⟩ := hm2 hm
    refine ⟨k, hk, hplace, ?_⟩
    by_contra hu
    exact lt_asymm hneg ((command_pos_iff_of_pos hr).mpr hu)

/-! ## 4. After the program -/

/-- `main` has returned. -/
def hasReturned (s : ClosedLoop η) : Bool :=
  match s.processor.progress with
  | .returned _ => true
  | _ => false

theorem hasReturned_iff {s : ClosedLoop η} :
    hasReturned s = true ↔ ∃ log, s.processor.progress = .returned log := by
  rw [hasReturned]
  cases s.processor.progress <;> simp

theorem progress_of_returned {t u : ℕ} {log : List Cycle}
    (hlog : (run P h c1 x t).processor.progress = .returned log) (htu : t ≤ u) :
    (run P h c1 x u).processor.progress = .returned log :=
  trace_invariant (P := fun s : ClosedLoop η => s.processor.progress = .returned log) hlog
    (fun _ _ _ _ hs => Processor.next_returned P hs _ _) u htu (Nat.le_refl u)

/-- When `main` has returned and all its words have arrived, none is strobed any more, and the
last was the stop. -/
theorem stop_in_force {t u : ℕ} {log : List Cycle} (htu : t ≤ u)
    (hlog : (run P h c1 x t).processor.progress = .returned log)
    (hall : (written P h c1 x t).length = (run P h c1 x t).processor.progress.words.length) :
    written P h c1 x u = written P h c1 x t ∧
      (run P h c1 x u).path.motor.command = speedCommand 0 := by
  obtain ⟨rest, hwords, -⟩ := run_written P h c1 x u
  have hcommand : (run P h c1 x u).path.motor.command = Path.commandOf (written P h c1 x u) :=
    (inv_run P h c1 x u).path.latched
  rw [progress_of_returned P h c1 x hlog htu] at hwords
  rw [hlog] at hall
  have hlen := congrArg List.length hwords
  rw [List.length_map, List.length_append] at hlen
  have hmono := written_mono P h c1 x htu
  have hle := hmono.length_le
  have hrest : rest = [] := List.length_eq_zero_iff.mp (by omega)
  refine ⟨(hmono.eq_of_length (by omega)).symm, ?_⟩
  rw [hrest, List.append_nil, Progress.words, List.map_append] at hwords
  rw [hcommand, ← hwords, List.map_singleton, Path.commandOf_append]
  rfl

/-- Under the stop, both pins are low from the next edge of the board's clock on. -/
theorem pins_low_from {t u v : ℕ}
    (hstop : ∀ u, t ≤ u → (run P h c1 x u).path.motor.command = speedCommand 0) (htu : t ≤ u)
    (hedge : (x u).boardEdge.isSome = true) (huv : u < v) :
    (run P h c1 x v).path.motor.m1 = false ∧ (run P h c1 x v).path.motor.m2 = false := by
  have hzero : ∀ w, t ≤ w → (run P h c1 x w).path.motor.pwmCompare = 0 := fun w htw =>
    BitVec.eq_of_toNat_eq (congrArg Prod.snd (hstop w htw))
  induction v, huv using Nat.le_induction with
  | base =>
    obtain ⟨e, he⟩ := Option.isSome_iff_exists.mp hedge
    rw [motor_succ, he]
    exact pins_low (hzero u htu)
  | succ v huv ih =>
    rw [motor_succ]
    cases (x v).boardEdge with
    | none => exact ih
    | some e => exact pins_low (hzero v (htu.trans (Nat.le_of_lt huv)))

/-- **A stopped motor stays off.**  From an instant on at which `main` has returned and all its
words have arrived, the component holds the stop, no word is strobed any more, and both pins are
low from the next edge of the board's clock on. -/
theorem stays_stopped {t : ℕ} (hreturned : hasReturned (run P h c1 x t) = true)
    (hall : (written P h c1 x t).length = (run P h c1 x t).processor.progress.words.length) :
    (∀ u, t ≤ u → written P h c1 x u = written P h c1 x t ∧
      (run P h c1 x u).path.motor.command = speedCommand 0) ∧
    ∀ u v, t ≤ u → (x u).boardEdge.isSome = true → u < v →
      (run P h c1 x v).path.motor.m1 = false ∧ (run P h c1 x v).path.motor.m2 = false := by
  obtain ⟨log, hlog⟩ := hasReturned_iff.mp hreturned
  have hstop : ∀ u, t ≤ u → written P h c1 x u = written P h c1 x t ∧
      (run P h c1 x u).path.motor.command = speedCommand 0 := fun u htu =>
    stop_in_force P h c1 x htu hlog hall
  exact ⟨hstop, fun u v htu hedge huv =>
    pins_low_from P h c1 x (fun w htw => (hstop w htw).2) htu hedge huv⟩

end

/-- A run of one iteration: `main` has returned and its two words have arrived by instant 22. -/
theorem stays_stopped_one :
    (run { Params.inFile with totalTime := 1 / 10 } ⟨.read, 0, 1, 2, 0, ()⟩ false inStep
      1000).path.motor.m2 = false :=
  ((stays_stopped { Params.inFile with totalTime := 1 / 10 } ⟨.read, 0, 1, 2, 0, ()⟩ false inStep
    (t := 22) (by decide +kernel) (by decide +kernel)).2 22 1000 (Nat.le_refl 22) rfl
      (by decide)).2

end ClosedLoop

end MotorPid.System
