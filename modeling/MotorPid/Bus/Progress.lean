/-
# The clock crosser makes progress

A flip needs one edge for each stage of a synchronizer and one for the register behind it.  While
a word is on the way nothing in front of the flip moves, so the first stages of the synchronizer
it is in agree with the near side, one more of them with every edge (`Filled`).

`crosser_live` puts a bound on it that no interleaving and no resolution of the metastable flops
exceeds: a word leaves within `fwd + 2` edges of a ready receiver, and the sender is served
within `bwd + 2` edges more.  The crosser never deadlocks.
-/
import MotorPid.Bus.Crosser
import MotorPid.Clocked.Leads

namespace MotorPid.Bus

open Clocked

/-! ## 1. How far a flip has come -/

namespace Synchronizer

variable {depth : ℕ} {s : Synchronizer depth} {c random : Bool} {k : ℕ}

/-- The first `k` bits on the way show `c`. -/
def Filled (c : Bool) (k : ℕ) (s : Synchronizer depth) : Prop := ∀ b ∈ s.stages.take k, b = c

theorem filled_zero (c : Bool) (s : Synchronizer depth) : Filled c 0 s := by simp [Filled]

theorem length_stages (s : Synchronizer depth) : s.stages.length = depth + 1 := by
  have := s.two_le
  have := s.dreg_length
  simp only [stages, List.length_cons]
  omega

theorem Filled.all (h : Filled c (depth + 1) s) : ∀ b ∈ s.stages, b = c := by
  rwa [Filled, ← length_stages s, List.take_length] at h

theorem Filled.mono {k' : ℕ} (h : Filled c k s) (hk : k' ≤ k) : Filled c k' s :=
  fun b hb => h b ((List.take_prefix_take_left hk).subset hb)

/-- An edge at which the input shows `c` fills one stage more. -/
theorem Filled.step (h : Filled c k s) : Filled c (k + 1) (s.step c random) := by
  intro b hb
  rw [stages_step, List.take_succ_cons] at hb
  rcases List.mem_cons.mp hb with rfl | hb
  · rfl
  cases k with
  | zero => simp at hb
  | succ k =>
    have hlast : s.dinLast = c := h _ (by simp [stages])
    rw [hlast, Bool.xor_self, if_neg Bool.false_ne_true, List.take_succ_cons] at hb
    rcases List.mem_cons.mp hb with rfl | hb
    · rfl
    · have hfirst : s.dinS1 :: s.dreg.dropLast <+: s.dinS1 :: s.dreg :=
        List.cons_prefix_cons.mpr ⟨rfl, List.dropLast_prefix _⟩
      exact h b (by
        rw [stages, List.take_succ_cons]
        exact List.mem_cons_of_mem _ ((hfirst.take k).subset hb))

end Synchronizer

/-! ## 2. The crosser under a ready receiver and an eager sender -/

section

variable {α : Type*}

/-- The receiver is ready at each of its edges among the `t` instants from `m` on. -/
def ReceiverReady (x : ℕ → Tick α) (m t : ℕ) : Prop :=
  ∀ j < t, ∀ e, (x (m + j)).outEdge = some e → e.outReady = true

/-- The sender offers a word at each of its edges among the `t` instants from `m` on. -/
def SenderEager (x : ℕ → Tick α) (m t : ℕ) : Prop :=
  ∀ j < t, ∀ e, (x (m + j)).inEdge = some e → e.inValid = true

/-- The edges of `out_clk` among the `t` instants from `m` on. -/
def outEdges (x : ℕ → Tick α) (m t : ℕ) : ℕ :=
  Nat.count (fun j => (x (m + j)).outEdge.isSome = true) t

/-- The edges of `in_clk` among the `t` instants from `m` on. -/
def inEdges (x : ℕ → Tick α) (m t : ℕ) : ℕ :=
  Nat.count (fun j => (x (m + j)).inEdge.isSome = true) t

end

namespace Crosser

variable {α : Type*} {fwd bwd : ℕ} {s : Crosser α fwd bwd} {t : Tick α}

/-- While a word is on the way, or the flip on its way back, none enters. -/
theorem enters_eq_none (hr : s.inReady = false) :
    s.enters t = none ∧ (s.step t).inDataToggle = s.inDataToggle := by
  cases hi : t.inEdge with
  | none => simp [enters, step, hi]
  | some e => simp [enters, step, hi, takeInData, hr]

theorem Inv.not_ready {a d : List α} (h : Inv s a d)
    (hne : s.outDataToggleFlopped ≠ s.inDataToggle) : s.inReady = false := by
  rw [← Bool.not_eq_true]
  exact fun hr => hne (h.all_of_ready hr).1

variable {zero : α} {hf : 2 ≤ fwd} {hb : 2 ≤ bwd} {x : ℕ → Tick α}

theorem entered_succ (n : ℕ) : entered zero hf hb x (n + 1)
    = entered zero hf hb x n ++ ((run zero hf hb x n).enters (x n)).toList := rfl

theorem left_succ (n : ℕ) : left zero hf hb x (n + 1)
    = left zero hf hb x n ++ ((run zero hf hb x n).leaves (x n)).toList := rfl

theorem entered_isPrefix {m n : ℕ} (h : m ≤ n) :
    entered zero hf hb x m <+: entered zero hf hb x n :=
  emitted_isPrefix step enters _ x h

theorem left_isPrefix {m n : ℕ} (h : m ≤ n) : left zero hf hb x m <+: left zero hf hb x n :=
  emitted_isPrefix step leaves _ x h

variable (zero hf hb x) in
/-- Where all that has entered has left, nothing is on the way. -/
theorem idle_of_all_left {n : ℕ}
    (h : (entered zero hf hb x n).length ≤ (left zero hf hb x n).length) :
    (run zero hf hb x n).outDataToggleFlopped = (run zero hf hb x n).inDataToggle := by
  by_contra hne
  have hhistory := congrArg List.length (inv_run zero hf hb x n).history
  rw [if_neg hne, List.length_append, List.length_singleton] at hhistory
  omega

/-- A ready receiver takes a word that is at the output, and then nothing is on the way. -/
theorem entered_isPrefix_of_taken {n : ℕ} {e : OutEdge} (he : (x n).outEdge = some e)
    (hready : e.outReady = true) (hvalid : (run zero hf hb x n).outValid = true) :
    entered zero hf hb x n <+: left zero hf hb x (n + 1) := by
  have hinv := inv_run zero hf hb x n
  obtain ⟨-, hflop, hword⟩ := hinv.of_valid hvalid
  have hleaves : (run zero hf hb x n).leaves (x n) = some (run zero hf hb x n).outDataBuffer := by
    simp [leaves, he, outDataTaken, hready, hvalid]
  rw [hinv.history, if_neg hflop, left_succ, hleaves, hword]
  exact List.prefix_rfl

/-- A word on offer enters where it may. -/
theorem length_entered_of_ready {n : ℕ} {e : InEdge α} (he : (x n).inEdge = some e)
    (hvalid : e.inValid = true) (hready : (run zero hf hb x n).inReady = true) :
    (entered zero hf hb x n).length < (entered zero hf hb x (n + 1)).length := by
  have henters : (run zero hf hb x n).enters (x n) = some e.inData := by
    simp [enters, he, takeInData, hvalid, hready]
  rw [entered_succ, henters, Option.toList_some, List.length_append, List.length_singleton]
  exact Nat.lt_succ_self _

variable (zero hf hb x) in
/-- **The way there.**  After some instants, what had entered has left, or a word is still on the
way and its flip has come one stage further with each edge. -/
theorem forth_progress (m n : ℕ) :
    entered zero hf hb x m <+: left zero hf hb x (m + n) ∨
      (entered zero hf hb x (m + n) = entered zero hf hb x m ∧
        (run zero hf hb x (m + n)).outDataToggleFlopped ≠ (run zero hf hb x (m + n)).inDataToggle ∧
        (run zero hf hb x (m + n)).inToOutSynchronizer.Filled
          (run zero hf hb x (m + n)).inDataToggle (outEdges x m n)) := by
  induction n with
  | zero =>
    have hinv := inv_run zero hf hb x m
    by_cases hflop :
        (run zero hf hb x m).outDataToggleFlopped = (run zero hf hb x m).inDataToggle
    · left
      rw [Nat.add_zero, hinv.history, if_pos hflop, List.append_nil]
    · exact .inr ⟨rfl, hflop, Synchronizer.filled_zero _ _⟩
  | succ n ih =>
    rcases ih with hdone | ⟨hsame, hflop, hfill⟩
    · exact .inl (hdone.trans (left_isPrefix (Nat.le_succ _)))
    have hinv := inv_run zero hf hb x (m + n)
    have hinv' := inv_run zero hf hb x (m + n + 1)
    obtain ⟨hnone, htoggle⟩ := enters_eq_none (t := x (m + n)) (hinv.not_ready hflop)
    have hentered : entered zero hf hb x (m + n + 1) = entered zero hf hb x m := by
      rw [← hsame, entered_succ, hnone, Option.toList_none, List.append_nil]
    have hrun : run zero hf hb x (m + n + 1) = (run zero hf hb x (m + n)).step (x (m + n)) := rfl
    rw [← Nat.add_assoc]
    rcases leaves_cases (run zero hf hb x (m + n)) (x (m + n)) with
      ⟨-, hflop'⟩ | ⟨hvalid, -, hflop'⟩
    · right
      refine ⟨hentered, ?_, ?_⟩
      · rw [hrun, hflop', htoggle]
        exact hflop
      · rw [hrun, htoggle]
        cases ho : (x (m + n)).outEdge with
        | none =>
          have hcount : outEdges x m (n + 1) = outEdges x m n := by
            simp [outEdges, Nat.count_succ, ho]
          rw [hcount]
          simpa only [step, ho] using hfill
        | some e =>
          have hcount : outEdges x m (n + 1) = outEdges x m n + 1 := by
            simp [outEdges, Nat.count_succ, ho]
          rw [hcount]
          simpa only [step, ho] using hfill.step
    · left
      have heq : (run zero hf hb x (m + n + 1)).outDataToggleFlopped
          = (run zero hf hb x (m + n + 1)).inDataToggle := by
        rw [hrun, hflop', htoggle, (hinv.of_valid hvalid).1]
      have hall := hinv'.history
      rw [if_pos heq, List.append_nil] at hall
      rw [← hentered, hall]

variable (zero hf hb x) in
/-- A word that is on the way is at the output after `fwd + 1` edges. -/
theorem valid_after {m n : ℕ} (hcount : fwd + 1 ≤ outEdges x m n) :
    entered zero hf hb x m <+: left zero hf hb x (m + n) ∨
      (entered zero hf hb x (m + n) = entered zero hf hb x m ∧
        (run zero hf hb x (m + n)).outValid = true) := by
  rcases forth_progress zero hf hb x m n with hdone | ⟨hsame, hflop, hfill⟩
  · exact .inl hdone
  · have hdout := (hfill.mono hcount).all _ (Synchronizer.dout_mem _)
    exact .inr ⟨hsame, by simpa [outValid, hdout] using hflop.symm⟩

/-- **The way back.**  Once nothing is on the way, another word has entered, or the flip has come
one stage further on its way back with each edge. -/
theorem back_progress {m : ℕ} (n : ℕ)
    (hidle : (run zero hf hb x m).outDataToggleFlopped = (run zero hf hb x m).inDataToggle) :
    (entered zero hf hb x m).length < (entered zero hf hb x (m + n)).length ∨
      ((run zero hf hb x (m + n)).outDataToggleFlopped = (run zero hf hb x (m + n)).inDataToggle ∧
        (run zero hf hb x (m + n)).outToInSynchronizer.Filled
          (run zero hf hb x (m + n)).inDataToggle (inEdges x m n)) := by
  induction n with
  | zero => exact .inr ⟨hidle, Synchronizer.filled_zero _ _⟩
  | succ n ih =>
    rw [← Nat.add_assoc]
    rcases ih with hdone | ⟨hflop, hfill⟩
    · exact .inl (lt_of_lt_of_le hdone (entered_isPrefix (Nat.le_succ _)).length_le)
    have hinv := inv_run zero hf hb x (m + n)
    have hrun : run zero hf hb x (m + n + 1) = (run zero hf hb x (m + n)).step (x (m + n)) := rfl
    have hflop' : (run zero hf hb x (m + n + 1)).outDataToggleFlopped
        = (run zero hf hb x (m + n)).outDataToggleFlopped := by
      rcases leaves_cases (run zero hf hb x (m + n)) (x (m + n)) with ⟨-, h⟩ | ⟨hvalid, -, -⟩
      · exact h
      · exact absurd hflop (hinv.of_valid hvalid).2.1
    by_cases hserved : (run zero hf hb x (m + n)).enters (x (m + n)) = none
    · have htoggle : (run zero hf hb x (m + n + 1)).inDataToggle
          = (run zero hf hb x (m + n)).inDataToggle := by
        rw [hrun]
        cases hi : (x (m + n)).inEdge with
        | none => simp [step, hi]
        | some e =>
          have htake : (run zero hf hb x (m + n)).takeInData e = false := by
            simpa [enters, hi] using hserved
          simp [step, hi, htake]
      right
      refine ⟨by rw [hflop', htoggle, hflop], ?_⟩
      rw [htoggle, hrun]
      cases hi : (x (m + n)).inEdge with
      | none =>
        have hcount : inEdges x m (n + 1) = inEdges x m n := by
          simp [inEdges, Nat.count_succ, hi]
        rw [hcount]
        simpa only [step, hi] using hfill
      | some e =>
        have hcount : inEdges x m (n + 1) = inEdges x m n + 1 := by
          simp [inEdges, Nat.count_succ, hi]
        rw [hcount]
        simpa only [step, hi, hflop] using hfill.step
    · left
      obtain ⟨w, hw⟩ := Option.ne_none_iff_exists'.mp hserved
      have hmore : entered zero hf hb x (m + n + 1) = entered zero hf hb x (m + n) ++ [w] := by
        rw [entered_succ, hw, Option.toList_some]
      rw [hmore, List.length_append, List.length_singleton]
      exact Nat.lt_succ_of_le (entered_isPrefix (Nat.le_add_right m n)).length_le

/-- With nothing on the way, the next word may enter after `bwd + 1` edges. -/
theorem ready_after {m n : ℕ}
    (hidle : (run zero hf hb x m).outDataToggleFlopped = (run zero hf hb x m).inDataToggle)
    (hcount : bwd + 1 ≤ inEdges x m n) :
    (entered zero hf hb x m).length < (entered zero hf hb x (m + n)).length ∨
      (run zero hf hb x (m + n)).inReady = true := by
  rcases back_progress n hidle with hdone | ⟨-, hfill⟩
  · exact .inl hdone
  · have hdout := (hfill.mono hcount).all _ (Synchronizer.dout_mem _)
    exact .inr (by simp [inReady, hdout])

/-- **The crosser makes progress.**  For any two clocks and any resolution of the metastable
flops: whatever has entered has left once a ready receiver has had `fwd + 2` edges, and after
`bwd + 2` edges more of an eager sender another word has entered. -/
theorem crosser_live (zero : α) (hf : 2 ≤ fwd) (hb : 2 ≤ bwd) (x : ℕ → Tick α) :
    (∀ m n, ReceiverReady x m n → fwd + 2 ≤ outEdges x m n →
      entered zero hf hb x m <+: left zero hf hb x (m + n)) ∧
    (∀ m n n', ReceiverReady x m n → fwd + 2 ≤ outEdges x m n → SenderEager x (m + n) n' →
      bwd + 2 ≤ inEdges x (m + n) n' →
      (entered zero hf hb x m).length < (entered zero hf hb x (m + n + n')).length) := by
  have hthere : ∀ m n, ReceiverReady x m n → fwd + 2 ≤ outEdges x m n →
      entered zero hf hb x m <+: left zero hf hb x (m + n) := by
    intro m n hready hcount
    -- at the last of these edges the word is at the output
    obtain ⟨j, hj, hedge, hbefore⟩ := exists_count_eq (k := fwd + 1) hcount
    rcases valid_after zero hf hb x hbefore.ge with hdone | ⟨hsame, hvalid⟩
    · exact hdone.trans (left_isPrefix (Nat.add_le_add_left hj.le m))
    · rw [← hsame]
      obtain ⟨e, he⟩ := Option.isSome_iff_exists.mp hedge
      exact (entered_isPrefix_of_taken he (hready j hj e he) hvalid).trans
        (left_isPrefix (Nat.add_le_add_left hj m))
  refine ⟨hthere, ?_⟩
  intro m n n' hready hcount heager hcount'
  have hinv := inv_run zero hf hb x (m + n)
  by_cases hidle : (run zero hf hb x (m + n)).outDataToggleFlopped
      = (run zero hf hb x (m + n)).inDataToggle
  · obtain ⟨j, hj, hedge, hbefore⟩ := exists_count_eq (k := bwd + 1) hcount'
    obtain ⟨e, he⟩ := Option.isSome_iff_exists.mp hedge
    have hmn : (entered zero hf hb x m).length ≤ (entered zero hf hb x (m + n)).length :=
      (entered_isPrefix (Nat.le_add_right m n)).length_le
    have hjn : (entered zero hf hb x (m + n + (j + 1))).length
        ≤ (entered zero hf hb x (m + n + n')).length :=
      (entered_isPrefix (Nat.add_le_add_left hj (m + n))).length_le
    have hstep : (entered zero hf hb x (m + n)).length
        < (entered zero hf hb x (m + n + (j + 1))).length := by
      rcases ready_after (n := j) hidle hbefore.ge with hmore | hready'
      · exact lt_of_lt_of_le hmore
          (entered_isPrefix (Nat.add_le_add_left (Nat.le_succ j) (m + n))).length_le
      · exact lt_of_le_of_lt (entered_isPrefix (Nat.le_add_right (m + n) j)).length_le
          (length_entered_of_ready he (heager j hj e he) hready')
    omega
  · -- a word that is on the way again is another one
    have hleft := (hthere m n hready hcount).length_le
    have hmore : (entered zero hf hb x (m + n)).length
        = (left zero hf hb x (m + n)).length + 1 := by
      rw [hinv.history, if_neg hidle, List.length_append, List.length_singleton]
    have hlater : (entered zero hf hb x (m + n)).length
        ≤ (entered zero hf hb x (m + n + n')).length :=
      (entered_isPrefix (Nat.le_add_right (m + n) n')).length_le
    omega

/-- With both clocks in step: the word of instant 0 has left before instant 5, four edges after it
entered, and four edges later the next has entered. -/
theorem crosser_live_inStep :
    entered 0 (le_refl 2) (le_refl 2) inStep 1 <+: left 0 (le_refl 2) (le_refl 2) inStep 5 ∧
      (entered 0 (le_refl 2) (le_refl 2) inStep 1).length
        < (entered 0 (le_refl 2) (le_refl 2) inStep 9).length := by
  have hready : ReceiverReady inStep 1 4 := fun _ _ e he => by cases he; rfl
  have heager : SenderEager inStep 5 4 := fun _ _ e he => by cases he; rfl
  have hlive := crosser_live 0 (le_refl 2) (le_refl 2) inStep
  exact ⟨hlive.1 1 4 hready (by decide), hlive.2 1 4 4 hready (by decide) heager (by decide)⟩

end Crosser

end MotorPid.Bus
