/-
# The register FIFOs of the interconnect

`altera_avalon_sc_fifo` with `USE_MEMORY_BLOCKS = 0` is a shift register: slot 0 is the head, each
slot has a bit that says whether it is occupied, and new data goes into every slot that is not.
Such FIFOs keep the responses of the motor component and the headers they are sent with.

The module is modelled for every depth and for both latencies its registers are used with: with
`EMPTY_LATENCY = 0` a word shows at the output in the clock it is offered at the input.  The
depth is `n + 1`, so slot 0 is always there.

`fifo_queue` says that the module is a queue, whatever is offered and whenever it is taken: the
occupancy bits are the length of what is inside, and the handshake outputs are exactly what a
queue of that length and capacity shows.
-/
import MotorPid.Clocked.History
import Mathlib.Data.Fin.Basic

namespace MotorPid.Bus

open Clocked

/-! ## 1. Registers and signals -/

/-- The registers of a FIFO of depth `n + 1`. -/
structure Fifo (α : Type*) (n : ℕ) where
  mem : Vector α (n + 1)
  memUsed : Vector Bool (n + 1)

/-- The inputs sampled at one clock. -/
structure FifoIn (α : Type*) where
  inValid : Bool
  inPayload : α
  outReady : Bool

namespace Fifo

variable {α : Type*} {n : ℕ}

def reset (zero : α) : Fifo α n := ⟨.replicate _ zero, .replicate _ false⟩

section

variable (lookahead : Bool) (s : Fifo α n) (x : FifoIn α)

/-- "Writes clear empty immediately for lookahead modes." -/
def empty : Bool := if lookahead then !s.memUsed.get 0 && !x.inValid else !s.memUsed.get 0

def outValid : Bool := !s.empty lookahead x

def outPayload : α :=
  if lookahead && (!s.memUsed.get 0 && x.inValid) then x.inPayload else s.mem.get 0

def internalOutReady : Bool := x.outReady || !s.outValid lookahead x

def read : Bool := s.internalOutReady lookahead x && s.outValid lookahead x

/-- "For a single slot FIFO, reading clears the full status immediately." -/
def full : Bool :=
  if n = 0 then s.memUsed.get 0 && !s.read lookahead x else s.memUsed.get (Fin.last n)

def inReady : Bool := !s.full lookahead x

def write : Bool := s.inReady lookahead x && x.inValid

/-- A slot takes the next one's word, or the new one, when it is read or free; the last slot takes
the new one when it is free. -/
def nextMem (i : Fin (n + 1)) : α :=
  if h : i.val < n then
    if s.read lookahead x || !s.memUsed.get i then
      if !s.memUsed.get ⟨i.val + 1, Nat.succ_lt_succ h⟩ then x.inPayload
      else s.mem.get ⟨i.val + 1, Nat.succ_lt_succ h⟩
    else s.mem.get i
  else if n = 0 then
    if s.write lookahead x then x.inPayload else s.mem.get i
  else if !s.memUsed.get i then x.inPayload else s.mem.get i

/-- The occupancy bits are shifted up by a write and down by a read, and kept by both at once. -/
def nextMemUsed (i : Fin (n + 1)) : Bool :=
  if s.write lookahead x ^^ s.read lookahead x then
    if s.write lookahead x then
      if i.val = 0 then true else s.memUsed.get ⟨i.val - 1, by omega⟩
    else if h : i.val < n then s.memUsed.get ⟨i.val + 1, Nat.succ_lt_succ h⟩ else false
  else s.memUsed.get i

/-- One clock. -/
def step : Fifo α n := ⟨.ofFn (s.nextMem lookahead x), .ofFn (s.nextMemUsed lookahead x)⟩

@[simp] theorem step_mem (i : Fin (n + 1)) :
    (s.step lookahead x).mem.get i = s.nextMem lookahead x i := Vector.getElem_ofFn i.isLt

@[simp] theorem step_memUsed (i : Fin (n + 1)) :
    (s.step lookahead x).memUsed.get i = s.nextMemUsed lookahead x i :=
  Vector.getElem_ofFn i.isLt

/-- The word that goes in at a clock. -/
def enters : Option α := if s.write lookahead x then some x.inPayload else none

/-- The word that is taken at a clock. -/
def leaves : Option α := if s.read lookahead x then some (s.outPayload lookahead x) else none

end

/-! ## 2. What a FIFO holds -/

/-- The words in the FIFO, the oldest first: the occupancy bits are contiguous from bit 0. -/
structure Holds (s : Fifo α n) (q : List α) : Prop where
  length_le : q.length ≤ n + 1
  used : ∀ i, s.memUsed.get i = decide (i.val < q.length)
  word : ∀ i : Fin (n + 1), i.val < q.length → q[i.val]? = some (s.mem.get i)

variable {lookahead : Bool} {s : Fifo α n} {x : FifoIn α} {q : List α}

theorem holds_reset (zero : α) : Holds (reset zero : Fifo α n) [] :=
  ⟨Nat.zero_le _, fun i => Vector.getElem_replicate i.isLt, fun _ h => absurd h (Nat.not_lt_zero _)⟩

theorem Holds.used_zero (h : Holds s q) : s.memUsed.get 0 = true ↔ q ≠ [] := by
  rw [h.used, decide_eq_true_iff, ← List.length_pos_iff]
  simp

/-- The output is valid when there is a word inside, or one passes. -/
theorem Holds.outValid_iff (h : Holds s q) :
    s.outValid lookahead x = true ↔ q ≠ [] ∨ (lookahead = true ∧ x.inValid = true) := by
  rw [← h.used_zero, outValid, empty]
  cases lookahead <;> simp

theorem read_iff : s.read lookahead x = true ↔
    x.outReady = true ∧ s.outValid lookahead x = true := by
  rw [read, internalOutReady]
  cases s.outValid lookahead x <;> simp

/-- A word may go in when there is room, or when the only slot is being read. -/
theorem Holds.inReady_iff (h : Holds s q) : s.inReady lookahead x = true ↔
    q.length ≤ n ∨ (n = 0 ∧ s.read lookahead x = true) := by
  have hused : s.memUsed.get (Fin.last n) = true ↔ n < q.length := by
    rw [h.used, decide_eq_true_iff, Fin.val_last]
  rw [inReady, full]
  by_cases hn : n = 0
  · subst hn
    have hused0 : s.memUsed.get 0 = true ↔ 0 < q.length := hused
    rw [if_pos rfl, Bool.not_eq_true', Bool.and_eq_false_iff, Bool.not_eq_false',
      ← Bool.not_eq_true, hused0, Nat.not_lt]
    simp
  · rw [if_neg hn, Bool.not_eq_true', ← Bool.not_eq_true, hused, Nat.not_lt]
    simp [hn]

theorem write_iff : s.write lookahead x = true ↔
    s.inReady lookahead x = true ∧ x.inValid = true := by
  rw [write, Bool.and_eq_true]

/-- A word is taken that is not inside only as it passes. -/
theorem Holds.passes (h : Holds s q) (hr : s.read lookahead x = true) (hq : q = []) :
    s.write lookahead x = true ∧ s.outPayload lookahead x = x.inPayload := by
  obtain ⟨hlook, hvalid⟩ : lookahead = true ∧ x.inValid = true := by
    have hv := h.outValid_iff.mp (read_iff.mp hr).2
    exact hv.resolve_left fun hne => hne hq
  have hused : s.memUsed.get 0 = false := by
    rw [← Bool.not_eq_true, h.used_zero]
    exact fun hne => hne hq
  refine ⟨write_iff.mpr ⟨h.inReady_iff.mpr (.inl ?_), hvalid⟩, ?_⟩
  · simp [hq]
  · simp [outPayload, hlook, hused, hvalid]

/-- Otherwise it is the oldest inside. -/
theorem Holds.head (h : Holds s q) (hq : q ≠ []) :
    q[0]? = some (s.outPayload lookahead x) := by
  have hused := h.used_zero.mpr hq
  have hpay : s.outPayload lookahead x = s.mem.get 0 := by simp [outPayload, hused]
  rw [hpay]
  exact h.word 0 (List.length_pos_iff.mpr hq)

/-! ## 3. One clock -/

/-- Slot `i` after a clock that reads: the word behind it. -/
theorem Holds.nextMem_shift (h : Holds s q) (hr : s.read lookahead x = true) (i : Fin (n + 1))
    (hi : i.val + 1 < q.length) : some (s.nextMem lookahead x i) = q[i.val + 1]? := by
  have hin : i.val < n := by
    have := h.length_le
    omega
  have hused : s.memUsed.get ⟨i.val + 1, Nat.succ_lt_succ hin⟩ = true := by
    rw [h.used]
    exact decide_eq_true hi
  have hword := h.word ⟨i.val + 1, Nat.succ_lt_succ hin⟩ hi
  simp [nextMem, hin, hr, hused, hword]

/-- Slot `i` after a clock that does not read: unchanged when occupied. -/
theorem Holds.nextMem_keep (h : Holds s q) (hr : s.read lookahead x = false)
    (hw : n = 0 → s.write lookahead x = false) (i : Fin (n + 1)) (hi : i.val < q.length) :
    s.nextMem lookahead x i = s.mem.get i := by
  have hused : s.memUsed.get i = true := by
    rw [h.used]
    exact decide_eq_true hi
  by_cases hn : n = 0
  · subst hn
    simp [nextMem, hw rfl]
  · simp [nextMem, hr, hused, hn]

/-- The first slot that is not needed for what is left takes the new word. -/
theorem Holds.nextMem_new (h : Holds s q) (hw : s.write lookahead x = true) (i : Fin (n + 1))
    (hi : i.val + (if s.read lookahead x then 1 else 0) = q.length) :
    s.nextMem lookahead x i = x.inPayload := by
  have hready := h.inReady_iff.mp (write_iff.mp hw).1
  by_cases hin : i.val < n
  · have hnext : s.memUsed.get ⟨i.val + 1, Nat.succ_lt_succ hin⟩ = false := by
      rw [h.used, decide_eq_false_iff_not]
      dsimp only
      split at hi <;> omega
    have hfree : (s.read lookahead x || !s.memUsed.get i) = true := by
      cases hr : s.read lookahead x with
      | true => rfl
      | false =>
        have hused : ¬ i.val < q.length := by
          rw [hr, if_neg Bool.false_ne_true] at hi
          omega
        simp [h.used, hused]
    simp [nextMem, hin, hfree, hnext]
  · by_cases hn : n = 0
    · subst hn
      simp [nextMem, hw]
    · -- the last of several slots is free, for none is written when it is not
      have hfree : s.memUsed.get i = false := by
        rw [h.used, decide_eq_false_iff_not]
        have hroom : q.length ≤ n := hready.resolve_right fun hn' => hn hn'.1
        omega
      simp [nextMem, hin, hn, hfree]

/-- A clock without a read: the queue grows by what is written. -/
theorem Holds.step_push (h : Holds s q) (hr : s.read lookahead x = false) :
    Holds (s.step lookahead x) (q ++ (s.enters lookahead x).toList) := by
  cases hw : s.write lookahead x with
  | false =>
    have hstay : q ++ (s.enters lookahead x).toList = q := by simp [enters, hw]
    rw [hstay]
    refine ⟨h.length_le, ?_, ?_⟩
    · intro i
      simpa [nextMemUsed, hw, hr] using h.used i
    · intro i hi
      rw [h.word i hi, step_mem, h.nextMem_keep hr (fun _ => hw) i hi]
  | true =>
    have hgrow : q ++ (s.enters lookahead x).toList = q ++ [x.inPayload] := by simp [enters, hw]
    have hroom : q.length ≤ n := by
      have hready := h.inReady_iff.mp (write_iff.mp hw).1
      exact hready.resolve_right fun hn => by simp [hr] at hn
    rw [hgrow]
    refine ⟨?_, ?_, ?_⟩
    · rw [List.length_append, List.length_singleton]
      omega
    · intro i
      rw [List.length_append, List.length_singleton]
      by_cases hi : i.val = 0
      · simp [nextMemUsed, hw, hr, hi]
      · have hshift : (s.step lookahead x).memUsed.get i = s.memUsed.get ⟨i.val - 1, by omega⟩ := by
          simp [nextMemUsed, hw, hr, hi]
        rw [hshift, h.used, decide_eq_decide]
        dsimp only
        omega
    · intro i hi
      rw [List.length_append, List.length_singleton] at hi
      rcases Nat.lt_succ_iff_lt_or_eq.mp hi with hi | hi
      · have hn : n ≠ 0 := by omega
        rw [List.getElem?_append_left hi, h.word i hi, step_mem,
          h.nextMem_keep hr (fun hn' => absurd hn' hn) i hi]
      · have hnew : s.nextMem lookahead x i = x.inPayload :=
          h.nextMem_new hw i (by rw [hr, if_neg Bool.false_ne_true]; exact hi)
        rw [step_mem, hnew, hi, List.getElem?_append_right (Nat.le_refl _), Nat.sub_self]
        rfl

/-- A clock with a read: the queue grows by what is written and loses its head. -/
theorem Holds.step_pop {p : α} {r : List α} (h : Holds s (p :: r))
    (hr : s.read lookahead x = true) :
    Holds (s.step lookahead x) (r ++ (s.enters lookahead x).toList) := by
  have hlen : r.length ≤ n := Nat.le_of_succ_le_succ h.length_le
  cases hw : s.write lookahead x with
  | false =>
    have hstay : r ++ (s.enters lookahead x).toList = r := by simp [enters, hw]
    rw [hstay]
    refine ⟨by omega, ?_, ?_⟩
    · intro i
      by_cases hi : i.val < n
      · have hshift : (s.step lookahead x).memUsed.get i
            = s.memUsed.get ⟨i.val + 1, Nat.succ_lt_succ hi⟩ := by
          simp [nextMemUsed, hw, hr, hi]
        rw [hshift, h.used, decide_eq_decide]
        dsimp only
        rw [List.length_cons]
        omega
      · have hlast : (s.step lookahead x).memUsed.get i = false := by
          simp [nextMemUsed, hw, hr, hi]
        rw [hlast, eq_comm, decide_eq_false_iff_not]
        omega
    · intro i hi
      rw [step_mem, h.nextMem_shift hr i (Nat.succ_lt_succ hi), List.getElem?_cons_succ]
  | true =>
    have hgrow : r ++ (s.enters lookahead x).toList = r ++ [x.inPayload] := by simp [enters, hw]
    rw [hgrow]
    refine ⟨?_, ?_, ?_⟩
    · rw [List.length_append, List.length_singleton]
      omega
    · intro i
      have hkeep : (s.step lookahead x).memUsed.get i = s.memUsed.get i := by
        simp [nextMemUsed, hw, hr]
      rw [hkeep, h.used, List.length_cons, List.length_append, List.length_singleton]
    · intro i hi
      rw [List.length_append, List.length_singleton] at hi
      rcases Nat.lt_succ_iff_lt_or_eq.mp hi with hi | hi
      · rw [List.getElem?_append_left hi, step_mem, h.nextMem_shift hr i (Nat.succ_lt_succ hi),
          List.getElem?_cons_succ]
      · have hnew : s.nextMem lookahead x i = x.inPayload := by
          refine h.nextMem_new hw i ?_
          rw [hr, if_pos rfl, hi, List.length_cons]
        rw [step_mem, hnew, hi, List.getElem?_append_right (Nat.le_refl _), Nat.sub_self]
        rfl

/-- **One clock is one step of a queue.**  What is inside afterwards is what was inside, and then
what went in, without what was taken from the front. -/
theorem Holds.step (h : Holds s q) (lookahead : Bool) (x : FifoIn α) :
    ∃ q', Holds (s.step lookahead x) q' ∧
      q ++ (s.enters lookahead x).toList = (s.leaves lookahead x).toList ++ q' := by
  cases hr : s.read lookahead x with
  | false => exact ⟨_, h.step_push hr, by simp [leaves, hr]⟩
  | true =>
    cases q with
    | nil =>
      obtain ⟨hw, hpay⟩ := h.passes hr rfl
      refine ⟨[], ⟨Nat.zero_le _, ?_, fun _ hi => absurd hi (Nat.not_lt_zero _)⟩, ?_⟩
      · intro i
        simpa [nextMemUsed, hw, hr] using h.used i
      · simp [enters, leaves, hw, hr, hpay]
    | cons p r =>
      have hhead : (p :: r)[0]? = some (s.outPayload lookahead x) := h.head (List.cons_ne_nil p r)
      rw [List.getElem?_cons_zero, Option.some_inj] at hhead
      exact ⟨_, h.step_pop hr, by simp [leaves, hr, ← hhead]⟩

/-! ## 4. Whole runs -/

section

variable (lookahead : Bool) (zero : α) (x : ℕ → FifoIn α)

/-- The FIFO just before clock `t` of a run from reset. -/
abbrev run (t : ℕ) : Fifo α n := trace (Fifo.step lookahead) (reset zero) x t

/-- The words that have gone in before clock `t`. -/
def entered (n t : ℕ) : List α :=
  emitted (Fifo.step lookahead) (Fifo.enters lookahead) (reset zero : Fifo α n) x t

/-- The words that have been taken before clock `t`. -/
def left (n t : ℕ) : List α :=
  emitted (Fifo.step lookahead) (Fifo.leaves lookahead) (reset zero : Fifo α n) x t

theorem inv_run (n t : ℕ) : ∃ held,
    entered lookahead zero x n t = left lookahead zero x n t ++ held ∧
      Holds (run lookahead zero x t : Fifo α n) held := by
  refine history_invariant (P := fun s a d => ∃ q, a = d ++ q ∧ Holds s q)
    ⟨[], rfl, holds_reset zero⟩ ?_ t
  intro s i a d h
  obtain ⟨q, rfl, hq⟩ := h
  obtain ⟨q', hq', hflow⟩ := hq.step lookahead i
  exact ⟨q', by rw [List.append_assoc, hflow, List.append_assoc], hq'⟩

/-- **The FIFO is a queue.**  For every depth, either latency and any behaviour of both sides: the
words taken are the words that went in, in order and each once, without those still inside, of
which there are at most as many as slots.  The output is valid when there is a word inside, or in
lookahead mode one on offer; the input is ready when a slot is free, or when the only slot is
being read; and each occupancy bit says whether there is a word for its slot. -/
theorem fifo_queue (n t : ℕ) : ∃ held,
    entered lookahead zero x n t = left lookahead zero x n t ++ held ∧
    held.length ≤ n + 1 ∧
    ((run lookahead zero x t : Fifo α n).outValid lookahead (x t) = true ↔
      held ≠ [] ∨ (lookahead = true ∧ (x t).inValid = true)) ∧
    ((run lookahead zero x t : Fifo α n).inReady lookahead (x t) = true ↔
      held.length ≤ n ∨
        (n = 0 ∧ (run lookahead zero x t : Fifo α n).read lookahead (x t) = true)) ∧
    ∀ i, (run lookahead zero x t : Fifo α n).memUsed.get i = decide (i.val < held.length) := by
  obtain ⟨held, hhistory, hholds⟩ := inv_run lookahead zero x n t
  exact ⟨held, hhistory, hholds.length_le, hholds.outValid_iff, hholds.inReady_iff, hholds.used⟩

end

end Fifo

end MotorPid.Bus
