/-
# The program as a sequence of bus accesses

`main` touches the motor component through `IORD` and `IOWR` only.  A `Processor` is at one of
these accesses: it may hand the next one to the interconnect whenever it gets to it, a read makes
it wait for the response, and a write is done when it is handed over.

`script` lists the accesses of the first iterations in program order.  `Processor.Inv` says that
what has been handed over is the script of the readings received so far, but for the words of the
last iteration that are still to be written.
-/
import MotorPid.Bus.Port
import MotorPid.Controller.Run

namespace MotorPid.System

open Controller Bus Clocked

/-! ## 1. Accesses -/

/-- `IORD(MOTOR_0_BASE, 0)` and `IOWR(MOTOR_0_BASE, 0, w)`. -/
inductive Access where
  | iord
  | iowr (w : ℤ)

/-- The packet of an access; the other header fields are those of `h`. -/
def Access.packet {η : Type*} (h : Packet η) : Access → Packet η
  | .iord => { h with trans := .read }
  | .iowr w => { h with trans := .write, data := BitVec.ofInt 32 w }

def Access.isIord : Access → Bool
  | .iord => true
  | .iowr _ => false

def Access.word : Access → Option ℤ
  | .iord => none
  | .iowr w => some w

/-! ## 2. The processor -/

/-- What the processor is at: about to read, waiting for the response, about to write `w` and
then `ws`, or through with `main`. -/
inductive Phase where
  | ask
  | wait
  | write (w : ℤ) (ws : List ℤ)
  | done

/-- The variables of `main`, up to the reading last received, and the access it is at. -/
structure Processor where
  progress : Progress
  phase : Phase

/-- The words an iteration writes on its way from `p` to `p'`. -/
def freshWords (p p' : Progress) : List ℤ := p'.words.drop p.words.length

/-- The next thing to do when the words `ws` are still to be written. -/
def phaseAfter (p : Progress) : List ℤ → Phase
  | w :: ws => .write w ws
  | [] =>
    match p with
    | .looping .. => .ask
    | _ => .done

namespace Processor

def start : Processor := ⟨.looping .start 0 [], .ask⟩

/-- The access that may be handed over. -/
def offers (c : Processor) : Option Access :=
  match c.phase with
  | .ask => some .iord
  | .write w _ => some (.iowr w)
  | _ => none

/-- An edge of the processor's clock at which its access is taken or not, and at which the
response `v` arrives. -/
def next (P : Params) (c : Processor) (taken : Bool) (v : Option (BitVec 32)) : Processor :=
  match c.phase, v with
  | .ask, _ => if taken then { c with phase := .wait } else c
  | .wait, some v =>
    ⟨pass P c.progress v.toInt,
      phaseAfter (pass P c.progress v.toInt) (freshWords c.progress (pass P c.progress v.toInt))⟩
  | .write _ ws, _ => if taken then { c with phase := phaseAfter c.progress ws } else c
  | _, _ => c

/-- The words still to be written. -/
def pending (c : Processor) : List ℤ :=
  match c.phase with
  | .write w ws => w :: ws
  | _ => []

/-- The read that has been handed over and not been answered. -/
def asked (c : Processor) : List Access :=
  match c.phase with
  | .wait => [.iord]
  | _ => []

end Processor

/-! ## 3. The script -/

/-- What `IORD` returns in iteration `k` when the responses are `vs`. -/
def iordOf (vs : List (BitVec 32)) (k : ℕ) : ℤ := (vs.getD k 0).toInt

/-- The accesses of the first `n` iterations. -/
def script (P : Params) (iord : ℕ → ℤ) : ℕ → List Access
  | 0 => []
  | n + 1 => script P iord n ++
      .iord :: (freshWords (mainRun P iord n) (mainRun P iord (n + 1))).map .iowr

/-- The words written by `p` are written by what follows it, at most two more in an iteration. -/
theorem words_pass (P : Params) (p : Progress) (pos : ℤ) :
    p.words ++ freshWords p (pass P p pos) = (pass P p pos).words ∧
      (freshWords p (pass P p pos)).length ≤ 2 := by
  have key : ∃ ws : List ℤ, (pass P p pos).words = p.words ++ ws ∧ ws.length ≤ 2 := by
    cases p with
    | looping s t log =>
      simp only [Controller.pass]
      set w := (cycle P s pos).pwm with hw
      split
      · exact ⟨[w], by simp [Progress.words, Progress.commands, Progress.log, hw], by simp⟩
      · split
        · exact ⟨[w, 0], by simp [Progress.words, Progress.commands, Progress.log, hw], by simp⟩
        · exact ⟨[w], by simp [Progress.words, Progress.commands, Progress.log, hw], by simp⟩
    | returned log => exact ⟨[], by simp [Controller.pass], by simp⟩
    | undefined log => exact ⟨[], by simp [Controller.pass], by simp⟩
  obtain ⟨ws, hws, hlen⟩ := key
  have hfresh : freshWords p (pass P p pos) = ws := by rw [freshWords, hws, List.drop_left]
  rw [hfresh]
  exact ⟨hws.symm, hlen⟩

variable (P : Params) (iord : ℕ → ℤ)

theorem script_succ (n : ℕ) : script P iord (n + 1) = script P iord n ++
    .iord :: (freshWords (mainRun P iord n) (mainRun P iord (n + 1))).map .iowr := rfl

theorem filterMap_word_iowr (ws : List ℤ) : (ws.map Access.iowr).filterMap Access.word = ws := by
  induction ws with
  | nil => rfl
  | cons w ws ih => simp [Access.word, ih]

theorem countP_isIord_iowr (ws : List ℤ) : (ws.map Access.iowr).countP Access.isIord = 0 := by
  simp [List.countP_eq_zero, Access.isIord]

/-- The script writes what the program writes. -/
theorem script_words (n : ℕ) :
    (script P iord n).filterMap Access.word = (mainRun P iord n).words := by
  induction n with
  | zero => rfl
  | succ n ih =>
    have hword : Access.word .iord = none := rfl
    rw [script_succ, List.filterMap_append, List.filterMap_cons, hword, filterMap_word_iowr, ih]
    exact (words_pass P (mainRun P iord n) (iord n)).1

/-- The script reads once in each iteration. -/
theorem script_reads (n : ℕ) : (script P iord n).countP Access.isIord = n := by
  induction n with
  | zero => rfl
  | succ n ih =>
    have hiord : Access.isIord .iord = true := rfl
    rw [script_succ, List.countP_append, List.countP_cons, countP_isIord_iowr, ih, hiord]
    rfl

/-- The program depends on the readings it has received, and on no others. -/
theorem mainRun_congr {iord iord' : ℕ → ℤ} {n : ℕ} (h : ∀ k < n, iord k = iord' k) :
    mainRun P iord n = mainRun P iord' n :=
  trace_relate (R := Eq) rfl (fun k hk r r' hr => by rw [hr, h k hk]) n (Nat.le_refl n)

theorem script_congr {iord iord' : ℕ → ℤ} {n : ℕ} (h : ∀ k < n, iord k = iord' k) :
    script P iord n = script P iord' n := by
  induction n with
  | zero => rfl
  | succ n ih =>
    have hn : ∀ k < n, iord k = iord' k := fun k hk => h k (Nat.lt_succ_of_lt hk)
    rw [script_succ, script_succ, ih hn, mainRun_congr P hn, mainRun_congr P h]

/-- Later responses do not change what earlier iterations read. -/
theorem iordOf_isPrefix {vs vs' : List (BitVec 32)} (h : vs <+: vs') {k : ℕ} (hk : k < vs.length) :
    iordOf vs k = iordOf vs' k := by
  obtain ⟨u, rfl⟩ := h
  simp [iordOf, List.getElem?_append_left hk]

theorem iordOf_append_length (vs : List (BitVec 32)) (v : BitVec 32) :
    iordOf (vs ++ [v]) vs.length = v.toInt := by
  simp [iordOf]

/-- A read that follows words follows all of them. -/
theorem eq_of_prefix_iowr {ws : List ℤ} {m : List Access}
    (h : m ++ [.iord] <+: ws.map .iowr ++ [.iord]) : m = ws.map .iowr := by
  induction ws generalizing m with
  | nil =>
    have hlen := h.length_le
    simp only [List.map_nil, List.nil_append, List.length_append, List.length_singleton] at hlen
    exact List.length_eq_zero_iff.mp (by omega)
  | cons w ws ih =>
    cases m with
    | nil => simp at h
    | cons a m =>
      rw [List.cons_append, List.map_cons, List.cons_append, List.cons_prefix_cons] at h
      rw [List.map_cons, h.1, ih h.2]

/-- What has been handed over when a read is next determines how far the script is: nothing is
read between the words of an iteration. -/
theorem script_isPrefix {n : ℕ} {l : List Access}
    (h : l ++ [.iord] <+: script P iord n ++ [.iord]) :
    l = script P iord (l.countP Access.isIord) := by
  induction n with
  | zero =>
    have hlen := h.length_le
    simp only [script, List.nil_append, List.length_append, List.length_singleton] at hlen
    have hnil : l = [] := List.length_eq_zero_iff.mp (by omega)
    rw [hnil]
    rfl
  | succ n ih =>
    set fresh := (freshWords (mainRun P iord n) (mainRun P iord (n + 1))).map Access.iowr
      with hfresh
    have hsplit : script P iord (n + 1) ++ [.iord]
        = (script P iord n ++ [.iord]) ++ (fresh ++ [.iord]) := by
      rw [script_succ, ← hfresh]
      simp
    rcases Nat.lt_or_ge l.length (script P iord n ++ [Access.iord]).length with hlt | hge
    · refine ih ?_
      rw [hsplit] at h
      refine List.prefix_of_prefix_length_le h (List.prefix_append _ _) ?_
      rw [List.length_append, List.length_singleton]
      exact hlt
    · -- `l` reaches into the words of iteration `n`, and what follows it is a read
      rw [hsplit] at h
      have hl : script P iord n ++ [.iord] <+: l :=
        List.prefix_of_prefix_length_le (List.prefix_append _ _)
          ((List.prefix_append _ _).trans h) hge
      obtain ⟨m, rfl⟩ := hl
      rw [List.append_assoc, List.prefix_append_right_inj] at h
      have hm : m = fresh := eq_of_prefix_iowr (by simpa using h)
      have hcount : ((script P iord n ++ [Access.iord]) ++ m).countP Access.isIord = n + 1 := by
        rw [hm, hfresh, List.countP_append, List.countP_append, script_reads, countP_isIord_iowr]
        rfl
      rw [hcount, script_succ, ← hfresh, hm]
      simp

/-! ## 4. One edge of the processor's clock -/

/-- What has been handed over, and what has been received, at a point of the run. -/
structure Processor.Inv (P : Params) (vs : List (BitVec 32)) (issued : List Access)
    (c : Processor) : Prop where
  progress : c.progress = mainRun P (iordOf vs) vs.length
  accesses : issued ++ c.pending.map .iowr = script P (iordOf vs) vs.length ++ c.asked
  pending_le : c.pending.length ≤ 2
  began : ∀ k < vs.length, TakesPlace P k
  looping : c.phase = .ask ∨ c.phase = .wait → TakesPlace P vs.length

namespace Processor

variable {P} {vs : List (BitVec 32)} {issued : List Access} {c : Processor}

theorem inv_start : Inv P [] [] start :=
  ⟨rfl, rfl, Nat.zero_le _, fun k hk => absurd hk (Nat.not_lt_zero k), fun _ => .inl rfl⟩

theorem pending_phaseAfter (p : Progress) (ws : List ℤ) :
    pending ⟨p, phaseAfter p ws⟩ = ws ∧ asked ⟨p, phaseAfter p ws⟩ = [] := by
  cases ws with
  | nil => cases p <;> exact ⟨rfl, rfl⟩
  | cons w ws => exact ⟨rfl, rfl⟩

/-- The loop goes on to an iteration only if it takes place. -/
theorem takesPlace_phaseAfter {iord : ℕ → ℤ} {n : ℕ} {ws : List ℤ}
    (h : phaseAfter (mainRun P iord n) ws = .ask ∨ phaseAfter (mainRun P iord n) ws = .wait) :
    TakesPlace P n := by
  cases ws with
  | cons w ws => simp [phaseAfter] at h
  | nil =>
    cases hp : mainRun P iord n with
    | looping s t log => exact takesPlace_of_looping P iord hp
    | returned log => simp [phaseAfter, hp] at h
    | undefined log => simp [phaseAfter, hp] at h

/-- The reads handed over are those answered and the one that is waited for. -/
theorem Inv.reads (h : Inv P vs issued c) :
    issued.countP Access.isIord = vs.length + c.asked.length := by
  have hcount := congrArg (List.countP Access.isIord) h.accesses
  have hasked : c.asked.countP Access.isIord = c.asked.length := by
    rw [asked]
    split <;> rfl
  rwa [List.countP_append, List.countP_append, countP_isIord_iowr, script_reads, hasked,
    Nat.add_zero] at hcount

/-- A read that has been handed over is that of an iteration that takes place. -/
theorem Inv.takesPlace (h : Inv P vs issued c) {k : ℕ} (hk : k < issued.countP Access.isIord) :
    TakesPlace P k := by
  rw [h.reads, asked] at hk
  split at hk
  · rename_i hwait
    exact (h.looping (.inr hwait)).of_le (Nat.lt_succ_iff.mp hk)
  · exact h.began k hk

/-- The words handed over and those still to be written are the words of the program. -/
theorem Inv.words (h : Inv P vs issued c) :
    issued.filterMap Access.word ++ c.pending = c.progress.words := by
  have hword := congrArg (List.filterMap Access.word) h.accesses
  have hasked : c.asked.filterMap Access.word = [] := by
    rw [asked]
    split <;> rfl
  rwa [List.filterMap_append, List.filterMap_append, filterMap_word_iowr, script_words, hasked,
    List.append_nil, ← h.progress] at hword

/-- An edge at which nothing arrives. -/
theorem Inv.step_quiet (h : Inv P vs issued c) {taken : Bool}
    (htaken : taken = true → c.offers.isSome = true) :
    Inv P vs (issued ++ (if taken then c.offers else none).toList) (c.next P taken none) := by
  cases taken with
  | false =>
    have hstay : c.next P false none = c := by
      cases hp : c.phase <;> simp [next, hp]
    simpa [hstay] using h
  | true =>
    obtain ⟨p, phase⟩ := c
    cases phase with
    | ask =>
      refine ⟨h.progress, ?_, Nat.zero_le _, h.began, fun _ => h.looping (.inl rfl)⟩
      have hacc := h.accesses
      simp only [pending, asked, List.map_nil, List.append_nil] at hacc
      simp [next, offers, pending, asked, hacc]
    | wait => simp [offers] at htaken
    | done => simp [offers] at htaken
    | write w ws =>
      obtain ⟨hpending, hasked⟩ := pending_phaseAfter p ws
      have hacc := h.accesses
      have hlen := h.pending_le
      simp only [pending, asked, List.map_cons, List.append_nil, List.length_cons] at hacc hlen
      refine ⟨h.progress, ?_, ?_, h.began, ?_⟩
      · simpa [next, offers, hpending, hasked] using hacc
      · simp only [next, if_true, hpending]
        omega
      · have hp : p = mainRun P (iordOf vs) vs.length := h.progress
        simp only [next, if_true, hp]
        exact takesPlace_phaseAfter

/-- An edge at which the response arrives that is waited for: one iteration of the loop. -/
theorem Inv.step_response (h : Inv P vs issued c) (hwait : c.phase = .wait) (v : BitVec 32) :
    Inv P (vs ++ [v]) issued (c.next P false (some v)) := by
  obtain ⟨p, phase⟩ := c
  obtain rfl : phase = .wait := hwait
  have hsame : ∀ k < vs.length, iordOf vs k = iordOf (vs ++ [v]) k :=
    fun k hk => iordOf_isPrefix (List.prefix_append vs [v]) hk
  have hprogress : p = mainRun P (iordOf (vs ++ [v])) vs.length :=
    h.progress.trans (mainRun_congr P hsame)
  have hpass : pass P p v.toInt = mainRun P (iordOf (vs ++ [v])) (vs.length + 1) := by
    rw [mainRun_succ, iordOf_append_length, ← hprogress]
  obtain ⟨hpending, hasked⟩ := pending_phaseAfter (pass P p v.toInt)
    (freshWords p (pass P p v.toInt))
  have hlen : (vs ++ [v]).length = vs.length + 1 := by simp
  have hacc := h.accesses
  simp only [pending, asked, List.map_nil, List.append_nil] at hacc
  refine ⟨?_, ?_, ?_, ?_, ?_⟩
  · rw [hlen]
    exact hpass
  · simp only [next, hpending, hasked, List.append_nil]
    rw [hlen, script_succ, ← hpass, ← hprogress, ← script_congr P hsame, hacc]
    simp
  · simp only [next, hpending]
    exact (words_pass P p v.toInt).2
  · intro k hk
    rw [hlen] at hk
    rcases Nat.lt_succ_iff_lt_or_eq.mp hk with hk | rfl
    · exact h.began k hk
    · exact h.looping (.inr rfl)
  · simp only [next, hlen, hpass]
    exact takesPlace_phaseAfter

/-- A program that has returned stays as it is. -/
theorem next_returned (P : Params) {log : List Cycle} (hlog : c.progress = .returned log)
    (taken : Bool) (v : Option (BitVec 32)) : (c.next P taken v).progress = .returned log := by
  obtain ⟨p, phase⟩ := c
  obtain rfl : p = .returned log := hlog
  cases phase with
  | ask => cases taken <;> rfl
  | wait => cases v <;> rfl
  | write w ws => cases taken <;> rfl
  | done => cases v <;> rfl

end Processor

end MotorPid.System
