/-
# Round robin

`altera_merlin_arbitrator` decides which of several masters gets a slave.  It finds the first
request from `top_priority` upwards and around with one addition to the doubled request vector, and
rotates what it granted to make the next top priority.  The adder is written out for up to eight
bits and left to synthesis above that; both are the sum (`arbAdder_eq`).

`round_robin` is what its users rely on, for any number of requesters and over whole runs of the
pipelined arbitrator: as long as there is a request, exactly one requester is granted, the nearest
to the top priority; and while one requester waits, none other is granted twice.
-/
import MotorPid.Bits.FirstSet
import MotorPid.Clocked.Trace
import Mathlib.Data.Nat.Count

namespace MotorPid.Bus

open Bits Clocked

/-! ## 1. The adder -/

section

variable {w : ℕ} (a b : BitVec w)

/-- `cout[i]`. -/
def cout : ℕ → Bool
  | 0 => a.getLsbD 0 && b.getLsbD 0
  | i + 1 => a.getLsbD (i + 1) && b.getLsbD (i + 1)
      || cout i && (a.getLsbD (i + 1) ^^ b.getLsbD (i + 1))

/-- `sum[i]`. -/
def sumBit : ℕ → Bool
  | 0 => a.getLsbD 0 ^^ b.getLsbD 0
  | i + 1 => (a.getLsbD (i + 1) ^^ b.getLsbD (i + 1)) ^^ cout a b i

/-- The lowest bits of the sum. -/
def fullAdder : (k : ℕ) → BitVec k
  | 0 => 0
  | k + 1 => (fullAdder k).cons (sumBit a b k)

/-- `altera_merlin_arb_adder`.  "The magic number is 4 requesters, which means an 8 bit adder." -/
def arbAdder : BitVec w := if w ≤ 8 then fullAdder a b w else a + b

theorem cout_eq (i : ℕ) : cout a b i = BitVec.carry (i + 1) a b false := by
  induction i with
  | zero =>
    rw [BitVec.carry_succ, BitVec.carry_zero, Bool.atLeastTwo_false_right]
    rfl
  | succ i ih =>
    rw [BitVec.carry_succ, ← ih, cout]
    cases a.getLsbD (i + 1) <;> cases b.getLsbD (i + 1) <;> cases cout a b i <;> rfl

theorem sumBit_eq {i : ℕ} (hi : i < w) : sumBit a b i = (a + b).getLsbD i := by
  rw [BitVec.getLsbD_add hi]
  cases i with
  | zero => rw [BitVec.carry_zero, Bool.xor_false, sumBit]
  | succ i => rw [← cout_eq, sumBit, Bool.xor_assoc]

theorem getLsbD_fullAdder {i k : ℕ} (hi : i < k) : (fullAdder a b k).getLsbD i = sumBit a b i := by
  induction k with
  | zero => exact absurd hi (Nat.not_lt_zero i)
  | succ k ih =>
    rw [fullAdder, BitVec.getLsbD_cons]
    split
    · next hik => rw [hik]
    · exact ih (by omega)

/-- **The two adders agree.** -/
theorem arbAdder_eq : arbAdder a b = a + b := by
  unfold arbAdder
  split
  · refine BitVec.eq_of_getLsbD_eq fun i hi => ?_
    rw [getLsbD_fullAdder a b hi, sumBit_eq a b hi]
  · rfl

end

/-! ## 2. The arbitrator -/

/-- "Implemented schemes". -/
inductive Scheme where
  | roundRobin
  | fixedPriority
  | noArb
  deriving DecidableEq

structure Arbitrator (n : ℕ) where
  topPriorityReg : BitVec n

/-- The requests and the control signals of a clock. -/
structure ArbIn (n : ℕ) where
  request : BitVec n
  incrementTopPriority : Bool
  saveTopPriority : Bool

namespace Arbitrator

variable {n : ℕ}

def reset : Arbitrator n := ⟨1⟩

section

variable (scheme : Scheme) (pipeline : Bool) (s : Arbitrator n)

def topPriority : BitVec n :=
  if scheme = .roundRobin ∧ 1 < n then s.topPriorityReg else 1

/-- "Do the math in double-vector domain", unless there is no arbitration. -/
def grant (request : BitVec n) : BitVec n :=
  if scheme = .noArb then request
  else
    let result := arbAdder (~~~request ++ ~~~request) ((0 : BitVec n) ++ s.topPriority scheme)
    let grantDoubleVector := (request ++ request) &&& result
    grantDoubleVector.extractLsb' 0 n ||| grantDoubleVector.extractLsb' n n

/-- One clock: "left-rotate the last grant vector to create top_priority". -/
def step (x : ArbIn n) : Arbitrator n :=
  if pipeline then
    if x.incrementTopPriority then
      if x.request ≠ 0 then ⟨(s.grant scheme x.request).rotateLeft 1⟩ else s
    else s
  else if x.incrementTopPriority then
    if x.request ≠ 0 then ⟨(s.grant scheme x.request).rotateLeft 1⟩
    else ⟨s.topPriorityReg.rotateLeft 1⟩
  else if x.saveTopPriority then ⟨s.grant scheme x.request⟩
  else s

end

/-! ## 3. One clock -/

/-- The top priority is with requester `p`. -/
structure Top (s : Arbitrator n) (p : ℕ) : Prop where
  lt : p < n
  eq : s.topPriorityReg = BitVec.twoPow n p

/-- The double vector is that of the first set bit. -/
theorem Top.grant_eq {s : Arbitrator n} {p : ℕ} (h : s.Top p) (hn : 1 < n) (request : BitVec n) :
    s.grant .roundRobin request = cyclicFirst request p := by
  have htop : (0 : BitVec n) ++ s.topPriority .roundRobin = BitVec.twoPow (n + n) p := by
    have hlt := h.lt
    refine BitVec.eq_of_getLsbD_eq fun i hi => ?_
    rw [topPriority, if_pos ⟨rfl, hn⟩, h.eq, BitVec.getLsbD_append, BitVec.getLsbD_twoPow,
      BitVec.getLsbD_twoPow, decide_eq_true h.lt, decide_eq_true (show p < n + n by omega)]
    split
    · rfl
    · next hin => rw [decide_eq_false (show p ≠ i by omega)]; simp
  rw [grant, if_neg (by decide), arbAdder_eq, htop, ← BitVec.not_append]
  rfl

theorem rotateLeft_twoPow {k : ℕ} (hn : 1 < n) (hk : k < n) :
    (BitVec.twoPow n k).rotateLeft 1 = BitVec.twoPow n ((k + 1) % n) := by
  refine BitVec.eq_of_getLsbD_eq fun i hi => ?_
  rw [BitVec.getLsbD_rotateLeft_of_le hn, BitVec.getLsbD_twoPow, BitVec.getLsbD_twoPow,
    BitVec.getLsbD_twoPow, decide_eq_true hk, decide_eq_true (Nat.mod_lt (k + 1) (by omega)),
    decide_eq_true hi]
  by_cases hlast : k + 1 = n
  · rw [hlast, Nat.mod_self]
    rcases Nat.eq_zero_or_pos i with rfl | hpos
    · simp
      omega
    · rw [decide_eq_false (show ¬ i < 1 by omega), cond_false,
        decide_eq_false (show k ≠ i - 1 by omega), decide_eq_false hpos.ne]
      rfl
  · rw [Nat.mod_eq_of_lt (by omega)]
    rcases Nat.eq_zero_or_pos i with rfl | hpos
    · simp
      omega
    · rw [decide_eq_false (show ¬ i < 1 by omega), cond_false]
      simp only [Bool.true_and, decide_eq_decide]
      omega

/-- **What a clock does**: nothing, unless the arbitrator is told to go on and there is a request;
then the requester nearest to the top priority is granted, and the top priority goes behind it. -/
theorem Top.step {s : Arbitrator n} {p : ℕ} (h : s.Top p) (hn : 1 < n) (x : ArbIn n) :
    (x.request = 0 ∨ x.incrementTopPriority = false) ∧ (s.step .roundRobin true x).Top p ∨
    ∃ k, k < n ∧ x.incrementTopPriority = true ∧
      s.grant .roundRobin x.request = BitVec.twoPow n k ∧
      (∀ j, j < n → x.request.getLsbD j = true → ahead n p k ≤ ahead n p j) ∧
      (s.step .roundRobin true x).Top ((k + 1) % n) := by
  rw [Arbitrator.step, if_pos rfl]
  by_cases hinc : x.incrementTopPriority = true
  · rw [if_pos hinc]
    rcases cyclicFirst_cases x.request h.lt with ⟨hzero, -⟩ | ⟨k, hk, hgrant, hset, hnearest⟩
    · rw [if_neg (not_not.mpr hzero)]
      exact .inl ⟨.inl hzero, h⟩
    · rw [← h.grant_eq hn] at hgrant
      have hrequest : x.request ≠ 0 := by
        intro hzero
        rw [hzero] at hset
        exact Bool.noConfusion (hset.symm.trans BitVec.getLsbD_zero)
      rw [if_pos hrequest]
      refine .inr ⟨k, hk, hinc, hgrant, hnearest, Nat.mod_lt _ (by omega), ?_⟩
      exact (congrArg (BitVec.rotateLeft · 1) hgrant).trans (rotateLeft_twoPow hn hk)
  · rw [if_neg hinc]
    exact .inl ⟨.inr (Bool.not_eq_true _ ▸ hinc), h⟩

theorem top_reset (hn : 1 < n) : (reset : Arbitrator n).Top 0 :=
  ⟨by omega, BitVec.twoPow_zero.symm⟩

/-! ## 4. Waiting -/

/-- Requester `j` is granted at a clock, and the arbitrator goes on. -/
def Grants (s : Arbitrator n) (x : ArbIn n) (j : ℕ) : Prop :=
  x.incrementTopPriority = true ∧ s.grant .roundRobin x.request = BitVec.twoPow n j

instance (s : Arbitrator n) (x : ArbIn n) (j : ℕ) : Decidable (s.Grants x j) :=
  inferInstanceAs (Decidable (_ ∧ _))

theorem twoPow_inj {j k : ℕ} (hj : j < n) (h : BitVec.twoPow n j = BitVec.twoPow n k) : j = k := by
  have hbit := congrArg (BitVec.getLsbD · j) h
  simp only [BitVec.getLsbD_twoPow, decide_eq_true hj, decide_true, Bool.and_self] at hbit
  have hand := (Bool.and_eq_true _ _).mp hbit.symm
  exact (of_decide_eq_true hand.2).symm

/-- **A requester that waits gets nearer.**  Whenever the arbitrator goes on without granting it,
and whoever is granted instead is from then on behind it, so that it is not granted again. -/
theorem Top.step_waiting {s : Arbitrator n} {x : ArbIn n} {p i : ℕ} (h : s.Top p) (hn : 1 < n)
    (hi : i < n) (hrequest : x.request.getLsbD i = true) (hnot : ¬ s.Grants x i) :
    ∃ p', (s.step .roundRobin true x).Top p' ∧
      ahead n p' i + (if x.incrementTopPriority then 1 else 0) ≤ ahead n p i ∧
      ∀ j, j < n → j ≠ i →
        (s.Grants x j → ahead n p j < ahead n p i ∧ ahead n p' i < ahead n p' j) ∧
        (ahead n p i < ahead n p j → ahead n p' i < ahead n p' j) := by
  rcases h.step hn x with ⟨hidle, hsame⟩ | ⟨k, hk, hinc, hgrant, hnearest, hnext⟩
  · have hstop : x.incrementTopPriority = false := by
      refine hidle.resolve_left fun hzero => ?_
      rw [hzero] at hrequest
      exact Bool.noConfusion (hrequest.symm.trans BitVec.getLsbD_zero)
    refine ⟨p, hsame, by simp [hstop], fun j _ _ => ⟨fun hj => ?_, id⟩⟩
    exact Bool.noConfusion (hstop.symm.trans hj.1)
  · have hki : k ≠ i := by
      rintro rfl
      exact hnot ⟨hinc, hgrant⟩
    have hlt : ahead n p k < ahead n p i := by
      refine lt_of_le_of_ne (hnearest i hi hrequest) fun heq => hki ?_
      exact ahead_inj h.lt hk hi heq
    have hnear := ahead_next h.lt hk hi hlt
    have hbound : ahead n p i < n := ahead_lt (by omega)
    refine ⟨(k + 1) % n, hnext, by rw [hinc, if_pos rfl]; omega, fun j hj hji => ⟨?_, ?_⟩⟩
    · rintro ⟨-, hgranted⟩
      obtain rfl : k = j := twoPow_inj hk (hgrant.symm.trans hgranted)
      refine ⟨hlt, ?_⟩
      rw [ahead_self hk]
      omega
    · intro hbehind
      rw [hnear, ahead_next h.lt hk hj (by omega)]
      omega

/-! ## 5. Runs -/

def run (x : ℕ → ArbIn n) (t : ℕ) : Arbitrator n := trace (step .roundRobin true) reset x t

theorem run_succ (x : ℕ → ArbIn n) (t : ℕ) :
    run x (t + 1) = (run x t).step .roundRobin true (x t) := rfl

theorem top_run (hn : 1 < n) (x : ℕ → ArbIn n) (t : ℕ) : ∃ p, (run x t).Top p := by
  induction t with
  | zero => exact ⟨0, top_reset hn⟩
  | succ t ih =>
    obtain ⟨p, hp⟩ := ih
    rcases hp.step hn (x t) with ⟨-, hnext⟩ | ⟨k, -, -, -, -, hnext⟩
    · exact ⟨p, hnext⟩
    · exact ⟨_, hnext⟩

/-- While requester `i` waits, from clock `t` on, for `d` clocks. -/
theorem waiting (hn : 1 < n) {x : ℕ → ArbIn n} {t d i : ℕ} (hi : i < n)
    (hrequest : ∀ v, v < d → (x (t + v)).request.getLsbD i = true)
    (hnot : ∀ v, v < d → ¬ (run x (t + v)).Grants (x (t + v)) i) :
    ∃ p, (run x (t + d)).Top p ∧
      Nat.count (fun v => (x (t + v)).incrementTopPriority = true) d + ahead n p i ≤ n - 1 ∧
      ∀ j, j < n → j ≠ i →
        Nat.count (fun v => (run x (t + v)).Grants (x (t + v)) j) d ≤ 1 ∧
        (0 < Nat.count (fun v => (run x (t + v)).Grants (x (t + v)) j) d →
          ahead n p i < ahead n p j) := by
  induction d with
  | zero =>
    obtain ⟨p, hp⟩ := top_run hn x t
    have hbound : ahead n p i < n := ahead_lt (by omega)
    refine ⟨p, hp, by simp; omega, fun j _ _ => ⟨by simp, fun h => absurd h (by simp)⟩⟩
  | succ d ih =>
    obtain ⟨p, hp, hcount, hothers⟩ := ih (fun v hv => hrequest v (by omega))
      fun v hv => hnot v (by omega)
    obtain ⟨p', hp', hnearer, hstep⟩ := hp.step_waiting hn hi (hrequest d (by omega))
      (hnot d (by omega))
    refine ⟨p', hp', ?_, fun j hj hji => ?_⟩
    · rw [Nat.count_succ]
      omega
    · obtain ⟨hle, hbehind⟩ := hothers j hj hji
      obtain ⟨hgrants, hstays⟩ := hstep j hj hji
      rw [Nat.count_succ]
      split
      · next hj' =>
        have hzero : Nat.count (fun v => (run x (t + v)).Grants (x (t + v)) j) d = 0 := by
          by_contra hpos
          exact absurd (hbehind (Nat.pos_of_ne_zero hpos)) (hgrants hj').1.not_gt
        exact ⟨by omega, fun _ => (hgrants hj').2⟩
      · exact ⟨hle, fun hpos => hstays (hbehind hpos)⟩

end Arbitrator

open Arbitrator

/-- **Round robin.**  In every run of the pipelined arbitrator, whatever is requested: at every
clock the top priority is with one requester, and if there is a request, the nearest to it, counted
upwards and around, is granted and none other; and as long as a requester waits, the arbitrator goes
on less than `n` times and grants no other requester twice. -/
theorem round_robin {n : ℕ} (hn : 1 < n) (x : ℕ → ArbIn n) (t : ℕ) :
    (∃ p, (run x t).Top p ∧
      ((x t).request = 0 ∧ (run x t).grant .roundRobin (x t).request = 0 ∨
        ∃ k, k < n ∧ (run x t).grant .roundRobin (x t).request = BitVec.twoPow n k ∧
          (x t).request.getLsbD k = true ∧
          ∀ j, j < n → (x t).request.getLsbD j = true → ahead n p k ≤ ahead n p j)) ∧
    ∀ i d, i < n → (∀ v, v < d → (x (t + v)).request.getLsbD i = true) →
      (∀ v, v < d → ¬ (run x (t + v)).Grants (x (t + v)) i) →
      Nat.count (fun v => (x (t + v)).incrementTopPriority = true) d < n ∧
      ∀ j, j < n → Nat.count (fun v => (run x (t + v)).Grants (x (t + v)) j) d ≤ 1 := by
  constructor
  · obtain ⟨p, hp⟩ := top_run hn x t
    refine ⟨p, hp, ?_⟩
    rw [hp.grant_eq hn]
    exact cyclicFirst_cases _ hp.lt
  · intro i d hi hrequest hnot
    obtain ⟨p, -, hcount, hothers⟩ := waiting hn hi hrequest hnot
    refine ⟨by omega, fun j hj => ?_⟩
    by_cases hji : j = i
    · rw [hji, (Nat.count_iff_forall_not ..).mpr hnot]
      exact Nat.zero_le 1
    · exact (hothers j hj hji).1

/-- Three requesters that always request. -/
def allRequest : ℕ → ArbIn 3 := fun _ => ⟨0b111, true, true⟩

/-- The third waits for two clocks, while the first and the second are granted. -/
theorem round_robin_allRequest :
    (Nat.count (fun v => (allRequest (0 + v)).incrementTopPriority = true) 2 < 3 ∧
      ∀ j, j < 3 →
        Nat.count (fun v => (run allRequest (0 + v)).Grants (allRequest (0 + v)) j) 2 ≤ 1) ∧
    (run allRequest 1).grant .roundRobin 0b111 = 0b010 ∧
    (run allRequest 2).grant .roundRobin 0b111 = 0b100 :=
  ⟨(round_robin (by decide) allRequest 0).2 2 2 (by decide) (by decide) (by decide), by decide,
    by decide⟩

end MotorPid.Bus
