/-
# Quadrature walks and what a single-edge decoder reads of them

A two-channel encoder shows the cycle `00 -> 01 -> 11 -> 10 -> 00` of samples `(c1, c2)` as its
shaft turns forward, and the reverse cycle as it turns back.  A QUADRATURE WALK is a stream of
samples in which consecutive ones are equal or neighbours in the cycle: any dwell, any reversal.

A single-edge decoder counts only the rising edges of `c1`, up when `c2` is high and down when
it is low.  The file settles what such a count says about the shaft.

* `singleEdge_eq`: the count is the NET number of passes through the c1-high half of the cycle,
  plus the visits to that half entered and left at its rear boundary `01/11`, minus those entered
  and left at its front boundary `00/10`, plus the visit in progress.  The two correction terms
  are the whole error of the decoder.
* `phase_add_disp`: the net number of passes is the displacement of the shaft in units of one
  cycle, up to the phase within the cycle.
* `abs_singleEdge_sub_disp`: hence the count, less its error, is within one cycle of the
  displacement; `visits_same_side_eq_zero` says that the error is zero on every walk that never
  turns back while c1 is high.

A walk may begin inside the c1-high half.  That first visit is never counted, so a later one that
is entered where the first was left is a same-side visit cut in two, and counts as one while it
lasts (`reentry`).
-/
import Mathlib.Data.Nat.Count
import Mathlib.Algebra.BigOperators.Group.Finset.Basic
import Mathlib.Algebra.Order.Group.Unbundled.Int
import Mathlib.Tactic.Linarith

namespace Quadrature

/-! ## 1. Samples, steps and walks -/

/-- One sample of the two channels. -/
structure Sample where
  c1 : Bool
  c2 : Bool
  deriving DecidableEq

/-- The neighbour in the forward direction: `00 -> 01 -> 11 -> 10 -> 00`. -/
def Sample.next : Sample → Sample
  | ⟨false, false⟩ => ⟨false, true⟩
  | ⟨false, true⟩ => ⟨true, true⟩
  | ⟨true, true⟩ => ⟨true, false⟩
  | ⟨true, false⟩ => ⟨false, false⟩

/-- The position of a sample in the cycle, from `00`. -/
def Sample.phase : Sample → ℤ
  | ⟨false, false⟩ => 0
  | ⟨false, true⟩ => 1
  | ⟨true, true⟩ => 2
  | ⟨true, false⟩ => 3

/-- The displacement between consecutive samples: `+1` forward, `-1` backward. -/
def stepSign (a b : Sample) : ℤ :=
  if b = a.next then 1 else if a = b.next then -1 else 0

/-- Consecutive samples are equal or neighbours in the cycle. -/
def IsWalk (w : ℕ → Sample) : Prop :=
  ∀ t, w (t + 1) = w t ∨ w (t + 1) = (w t).next ∨ w t = (w (t + 1)).next

/-- The displacement of the shaft at sample `t`: the sum of the steps up to it. -/
def disp (w : ℕ → Sample) (t : ℕ) : ℤ := ∑ j ∈ Finset.range t, stepSign (w j) (w (j + 1))

/-- The walk turns back while c1 is high: two opposite steps, with nothing but a dwell at one
c1-high sample between them. -/
def TurnsBackHigh (w : ℕ → Sample) : Prop :=
  ∃ i j, i < j ∧ (∀ k, i < k → k ≤ j → w k = w j) ∧ (w j).c1 = true ∧
    stepSign (w i) (w (i + 1)) = -stepSign (w j) (w (j + 1)) ∧
    stepSign (w i) (w (i + 1)) ≠ 0

/-! ## 2. Visits to the c1-high half -/

/-- The two boundaries of the c1-high half: a forward pass enters at the rear one, `01/11`, and
leaves at the front one, `10/00`. -/
inductive Side
  | rear
  | front
  deriving DecidableEq

/-- The boundary at which a change of c1 with this sample takes place: c2 does not change there,
and is high on the rear boundary. -/
def Sample.side (a : Sample) : Side := if a.c2 then .rear else .front

/-- The side at which the c1-high visit in progress at sample `t` was entered; `none` while c1
is low, and during a visit that the walk began inside. -/
def enteredBy (w : ℕ → Sample) : ℕ → Option Side
  | 0 => none
  | t + 1 =>
    if (w (t + 1)).c1 then
      if (w t).c1 then enteredBy w t else some (w (t + 1)).side
    else none

/-- Between samples `t` and `t + 1` a visit entered at `e` is left at `l`. -/
def Completes (w : ℕ → Sample) (e l : Side) (t : ℕ) : Prop :=
  (w t).c1 = true ∧ (w (t + 1)).c1 = false ∧ enteredBy w t = some e ∧ (w (t + 1)).side = l

instance (w : ℕ → Sample) (e l : Side) : DecidablePred (Completes w e l) :=
  fun _ => inferInstanceAs (Decidable (_ ∧ _ ∧ _ ∧ _))

/-- The number of visits entered at `e` and left at `l` that are complete at sample `t`. -/
def visits (w : ℕ → Sample) (e l : Side) (t : ℕ) : ℕ := Nat.count (Completes w e l) t

/-- The net number of passes through the c1-high half: forward ones less backward ones. -/
def netPasses (w : ℕ → Sample) (t : ℕ) : ℤ := visits w .rear .front t - visits w .front .rear t

/-- The visits that came out at the side they went in: those at the rear boundary less those at
the front one. -/
def sameSideExcess (w : ℕ → Sample) (t : ℕ) : ℤ :=
  visits w .rear .rear t - visits w .front .front t

/-- What the visit in progress has contributed so far to a count of entries. -/
def inProgress (w : ℕ → Sample) (t : ℕ) : ℤ :=
  match enteredBy w t with
  | none => 0
  | some .rear => 1
  | some .front => -1

/-- The boundary at which the visit that the walk began inside has been left. -/
def firstLeft (w : ℕ → Sample) : ℕ → Option Side
  | 0 => none
  | t + 1 =>
    if (w t).c1 = true ∧ (w (t + 1)).c1 = false ∧ enteredBy w t = none then
      some (w (t + 1)).side
    else firstLeft w t

/-- The visit in progress was entered where the one that the walk began inside was left: `1` at the
rear boundary, `-1` at the front one. -/
def reentry (w : ℕ → Sample) (t : ℕ) : ℤ :=
  match firstLeft w t, enteredBy w t with
  | some .rear, some .rear => 1
  | some .front, some .front => -1
  | _, _ => 0

/-! ## 3. The single-edge decoder -/

/-- What a single-edge decoder adds between two samples. -/
def edge (a b : Sample) : ℤ := if b.c1 && !a.c1 then (if b.c2 then 1 else -1) else 0

/-- The count of a single-edge decoder at sample `t`. -/
def singleEdge (w : ℕ → Sample) (t : ℕ) : ℤ := ∑ j ∈ Finset.range t, edge (w j) (w (j + 1))

theorem singleEdge_succ (w : ℕ → Sample) (t : ℕ) :
    singleEdge w (t + 1) = singleEdge w t + edge (w t) (w (t + 1)) := Finset.sum_range_succ _ t

theorem disp_succ (w : ℕ → Sample) (t : ℕ) :
    disp w (t + 1) = disp w t + stepSign (w t) (w (t + 1)) := Finset.sum_range_succ _ t

theorem visits_succ (w : ℕ → Sample) (e l : Side) (t : ℕ) :
    visits w e l (t + 1) = visits w e l t + if Completes w e l t then 1 else 0 :=
  Nat.count_succ _ t

theorem enteredBy_of_low {w : ℕ → Sample} {t : ℕ} (h : (w t).c1 = false) :
    enteredBy w t = none := by
  cases t with
  | zero => rfl
  | succ t => simp [enteredBy, h]

/-- With c1 low no visit is in progress. -/
theorem inProgress_of_low {w : ℕ → Sample} {t : ℕ} (h : (w t).c1 = false) :
    inProgress w t = 0 := by rw [inProgress, enteredBy_of_low h]

/-- Only leaving the c1-high half completes a visit. -/
theorem not_completes {w : ℕ → Sample} {t : ℕ} (h : (w t).c1 = true → (w (t + 1)).c1 = true)
    (e l : Side) : ¬ Completes w e l t := by
  rintro ⟨h1, h2, -, -⟩
  rw [h h1] at h2
  exact absurd h2 (by decide)

/-- On leaving, the visit in progress moves to the completed ones. -/
theorem leave_ledger {w : ℕ → Sample} {t : ℕ} (h1 : (w t).c1 = true)
    (h2 : (w (t + 1)).c1 = false) :
    netPasses w (t + 1) + sameSideExcess w (t + 1)
      = netPasses w t + sameSideExcess w t + inProgress w t := by
  simp only [netPasses, sameSideExcess, inProgress, visits_succ, Completes, h1, h2, true_and]
  rcases enteredBy w t with _ | _ | _ <;> cases (w (t + 1)).side <;> simp <;> omega

/-- On every other step the completed visits stay, and an edge opens the visit it counts. -/
theorem stay_ledger {w : ℕ → Sample} {t : ℕ} (h : (w t).c1 = true → (w (t + 1)).c1 = true) :
    inProgress w (t + 1) = inProgress w t + edge (w t) (w (t + 1)) := by
  cases ht : (w t).c1 with
  | true => simp [inProgress, enteredBy, edge, ht, h ht]
  | false =>
    rw [inProgress_of_low ht]
    cases h1 : (w (t + 1)).c1 with
    | false => simp [inProgress_of_low h1, edge, h1]
    | true =>
      cases h2 : (w (t + 1)).c2 <;>
        simp [inProgress, enteredBy, edge, Sample.side, ht, h1, h2]

/-- **What a single-edge decoder counts.**  Net passes, plus the excess of same-side visits,
plus the visit in progress.  No assumption on the samples is needed. -/
theorem singleEdge_eq (w : ℕ → Sample) : ∀ t : ℕ,
    singleEdge w t = netPasses w t + sameSideExcess w t + inProgress w t
  | 0 => rfl
  | t + 1 => by
    have ih := singleEdge_eq w t
    rw [singleEdge_succ]
    by_cases h : (w t).c1 = true → (w (t + 1)).c1 = true
    · have hn : netPasses w (t + 1) = netPasses w t := by
        simp [netPasses, visits_succ, not_completes h]
      have hs : sameSideExcess w (t + 1) = sameSideExcess w t := by
        simp [sameSideExcess, visits_succ, not_completes h]
      rw [hn, hs, stay_ledger h]
      omega
    · obtain ⟨h1, h2⟩ : (w t).c1 = true ∧ (w (t + 1)).c1 = false := by simpa using h
      have hedge : edge (w t) (w (t + 1)) = 0 := by simp [edge, h2]
      rw [leave_ledger h1 h2, inProgress_of_low h2, hedge]
      omega

/-! ## 4. The count against the displacement -/

/-- The net number of times a step crosses the front boundary, where the phase wraps. -/
def frontCrossing (a b : Sample) : ℤ :=
  if b.c2 then 0 else if a.c1 && !b.c1 then 1 else if b.c1 && !a.c1 then -1 else 0

/-- A step of a walk moves the phase by its sign, up to the wrap at the front boundary. -/
theorem stepSign_eq {a b : Sample} (h : b = a ∨ b = a.next ∨ a = b.next) :
    stepSign a b = 4 * frontCrossing a b + b.phase - a.phase := by
  rcases a with ⟨_ | _, _ | _⟩ <;> rcases b with ⟨_ | _, _ | _⟩ <;> revert h <;> decide

theorem phase_of_low {a : Sample} (h : a.c1 = false) : 0 ≤ a.phase ∧ a.phase ≤ 1 := by
  rcases a with ⟨_ | _, _ | _⟩ <;> revert h <;> decide

theorem phase_of_high {a : Sample} (h : a.c1 = true) : 2 ≤ a.phase ∧ a.phase ≤ 3 := by
  rcases a with ⟨_ | _, _ | _⟩ <;> revert h <;> decide

/-- A backward visit in progress has crossed the front boundary without being a pass yet. -/
def behind (w : ℕ → Sample) (t : ℕ) : ℤ := if enteredBy w t = some .front then -1 else 0

theorem behind_of_low {w : ℕ → Sample} {t : ℕ} (h : (w t).c1 = false) : behind w t = 0 := by
  simp [behind, enteredBy_of_low h]

/-- The visit that the walk began inside has been left across the front boundary, and was not a
pass. -/
def ahead (w : ℕ → Sample) (t : ℕ) : ℤ := if firstLeft w t = some .front then 1 else 0

/-- A walk has entered every visit it is in, but for the one that it may have begun inside. -/
theorem firstLeft_cases (w : ℕ → Sample) (t : ℕ) :
    (w 0).c1 = true ∧ (w t).c1 = true ∧ firstLeft w t = none ∧ enteredBy w t = none ∨
    ((w 0).c1 = false ∧ firstLeft w t = none ∨ (w 0).c1 = true ∧ (firstLeft w t).isSome = true) ∧
      ((w t).c1 = true → (enteredBy w t).isSome = true) := by
  induction t with
  | zero =>
    cases h0 : (w 0).c1 with
    | true => exact .inl ⟨rfl, rfl, rfl, rfl⟩
    | false => exact .inr ⟨.inl ⟨rfl, rfl⟩, fun h => Bool.noConfusion h⟩
  | succ t ih =>
    cases h1 : (w (t + 1)).c1 with
    | true =>
      have hkept : firstLeft w (t + 1) = firstLeft w t := if_neg fun h => by simp [h1] at h
      rw [hkept]
      rcases ih with ⟨h0, ht, hnone, hentered⟩ | ⟨hleft, hentered⟩
      · exact .inl ⟨h0, rfl, hnone, by simp [enteredBy, h1, ht, hentered]⟩
      · refine .inr ⟨hleft, fun _ => ?_⟩
        cases ht : (w t).c1 with
        | true => simpa [enteredBy, h1, ht] using hentered ht
        | false => simp [enteredBy, h1, ht]
    | false =>
      refine .inr ⟨?_, fun h => Bool.noConfusion h⟩
      rcases ih with ⟨h0, ht, -, hentered⟩ | ⟨hleft, hentered⟩
      · exact .inr ⟨h0, by simp [firstLeft, h1, ht, hentered]⟩
      · -- the visit left, if one is, is one that was entered
        have hkept : firstLeft w (t + 1) = firstLeft w t := by
          refine if_neg ?_
          rintro ⟨ht, -, hnone⟩
          have hsome := hentered ht
          rw [hnone] at hsome
          exact Bool.noConfusion hsome
        rw [hkept]
        exact hleft

/-- One step of the front boundary's ledger: passes, the visit in progress and the one at the
start together count its crossings. -/
theorem front_ledger (w : ℕ → Sample) (t : ℕ) :
    netPasses w (t + 1) + behind w (t + 1) + ahead w (t + 1)
      = netPasses w t + behind w t + ahead w t + frontCrossing (w t) (w (t + 1)) := by
  by_cases h : (w t).c1 = true → (w (t + 1)).c1 = true
  · have hn : netPasses w (t + 1) = netPasses w t := by
      simp [netPasses, visits_succ, not_completes h]
    have hl : ahead w (t + 1) = ahead w t := by
      have hkept : firstLeft w (t + 1) = firstLeft w t := by
        refine if_neg ?_
        rintro ⟨ht, hlow, -⟩
        rw [h ht] at hlow
        exact Bool.noConfusion hlow
      rw [ahead, ahead, hkept]
    rw [hn, hl]
    cases ht : (w t).c1 with
    | true => simp [behind, enteredBy, frontCrossing, ht, h ht]
    | false =>
      rw [behind_of_low ht]
      cases h1 : (w (t + 1)).c1 with
      | false => simp [behind, enteredBy, frontCrossing, ht, h1]
      | true =>
        cases h2 : (w (t + 1)).c2 with
        | false =>
          have hb : behind w (t + 1) = -1 := by simp [behind, enteredBy, Sample.side, ht, h1, h2]
          have hf : frontCrossing (w t) (w (t + 1)) = -1 := by simp [frontCrossing, ht, h1, h2]
          rw [hb, hf]
          omega
        | true => simp [behind, enteredBy, frontCrossing, Sample.side, ht, h1, h2]
  · obtain ⟨h1, h2⟩ : (w t).c1 = true ∧ (w (t + 1)).c1 = false := by simpa using h
    rw [behind_of_low h2]
    rcases firstLeft_cases w t with ⟨-, -, hnone, hentered⟩ | ⟨-, hentered⟩
    · simp only [netPasses, visits_succ, Completes, behind, ahead, firstLeft, frontCrossing,
        Sample.side, h1, h2, hnone, hentered, true_and]
      cases (w (t + 1)).c2 <;> simp
    · obtain ⟨e, he⟩ := Option.isSome_iff_exists.mp (hentered h1)
      simp only [netPasses, visits_succ, Completes, behind, ahead, firstLeft, frontCrossing,
        Sample.side, h1, h2, he, true_and]
      cases e <;> cases (w (t + 1)).c2 <;> simp <;> omega

/-- **Passes are displacement.**  The net number of passes and the phase within the cycle give the
displacement of the shaft. -/
theorem phase_add_disp {w : ℕ → Sample} (hw : IsWalk w) : ∀ t : ℕ,
    (w 0).phase + disp w t = 4 * (netPasses w t + behind w t + ahead w t) + (w t).phase
  | 0 => by
    have hn : netPasses w 0 = 0 := rfl
    have hd : disp w 0 = 0 := rfl
    have hb : behind w 0 = 0 := rfl
    have ha : ahead w 0 = 0 := rfl
    rw [hn, hd, hb, ha]
    omega
  | t + 1 => by
    have ih := phase_add_disp hw t
    rw [disp_succ, stepSign_eq (hw t), front_ledger w t]
    omega

/-- The visit at the start matters only while a later one is in progress, and only if there was
one. -/
theorem reentry_of_low {w : ℕ → Sample} {t : ℕ} (h : (w 0).c1 = false ∨ (w t).c1 = false) :
    reentry w t = 0 := by
  rcases h with h | h
  · have hnone : firstLeft w t = none := by
      rcases firstLeft_cases w t with ⟨h0, -⟩ | ⟨⟨-, hnone⟩ | ⟨h0, -⟩, -⟩
      · exact Bool.noConfusion (h.symm.trans h0)
      · exact hnone
      · exact Bool.noConfusion (h.symm.trans h0)
    simp [reentry, hnone]
  · simp [reentry, enteredBy_of_low h]

theorem abs_reentry_le (w : ℕ → Sample) (t : ℕ) : |reentry w t| ≤ 1 := by
  unfold reentry
  split <;> decide

/-- With c1 low at the start or now, the count less the excess is within one cycle of the
displacement. -/
theorem abs_sub_disp_lt_of_low {w : ℕ → Sample} (hw : IsWalk w) {t : ℕ}
    (h : (w 0).c1 = false ∨ (w t).c1 = false) :
    |4 * (singleEdge w t - sameSideExcess w t) - disp w t| < 4 := by
  have hcount := singleEdge_eq w t
  have hphase := phase_add_disp hw t
  rw [abs_lt]
  rcases firstLeft_cases w t with ⟨h0, ht, -⟩ | ⟨hstart, hentered⟩
  · rcases h with h | h
    · exact Bool.noConfusion (h.symm.trans h0)
    · exact Bool.noConfusion (h.symm.trans ht)
  · cases ht : (w t).c1 with
    | false =>
      have hnow := phase_of_low ht
      rw [inProgress_of_low ht] at hcount
      rw [behind_of_low ht] at hphase
      rcases hstart with ⟨h0, hnone⟩ | ⟨h0, hleft⟩
      · have hfirst := phase_of_low h0
        simp only [ahead, hnone, reduceCtorEq, if_false] at hphase
        omega
      · have hfirst := phase_of_high h0
        obtain ⟨l, hl⟩ := Option.isSome_iff_exists.mp hleft
        cases l <;> simp [ahead, hl] at hphase <;> omega
    | true =>
      have hnow := phase_of_high ht
      obtain ⟨e, he⟩ := Option.isSome_iff_exists.mp (hentered ht)
      rcases hstart with ⟨h0, hnone⟩ | ⟨h0, -⟩
      · have hfirst := phase_of_low h0
        simp only [inProgress, he] at hcount
        simp only [behind, ahead, he, hnone] at hphase
        cases e <;> simp at hcount hphase <;> omega
      · rcases h with h | h
        · exact Bool.noConfusion (h.symm.trans h0)
        · exact Bool.noConfusion (h.symm.trans ht)

/-- With c1 high both at the start and now, it is a quarter of a cycle at most, once the visit cut
in two is made up for. -/
theorem abs_sub_disp_le_of_high {w : ℕ → Sample} (hw : IsWalk w) {t : ℕ} (h0 : (w 0).c1 = true)
    (ht : (w t).c1 = true) :
    |4 * (singleEdge w t - sameSideExcess w t - reentry w t) - disp w t| ≤ 1 := by
  have hcount := singleEdge_eq w t
  have hphase := phase_add_disp hw t
  have hfirst := phase_of_high h0
  have hnow := phase_of_high ht
  rw [abs_le]
  rcases firstLeft_cases w t with ⟨-, -, hnone, hentered⟩ | ⟨⟨hlow, -⟩ | ⟨-, hleft⟩, hentered⟩
  · -- still in the visit that the walk began inside
    have hre : reentry w t = 0 := by simp [reentry, hnone]
    simp only [inProgress, hentered] at hcount
    simp only [behind, ahead, hnone, hentered, reduceCtorEq, if_false] at hphase
    omega
  · exact Bool.noConfusion (hlow.symm.trans h0)
  · obtain ⟨l, hl⟩ := Option.isSome_iff_exists.mp hleft
    obtain ⟨e, he⟩ := Option.isSome_iff_exists.mp (hentered ht)
    simp only [inProgress, he] at hcount
    simp only [behind, ahead, he, hl] at hphase
    simp only [reentry, he, hl]
    cases e <;> cases l <;> simp at hcount hphase ⊢ <;> omega

/-- **The count is true up to its error.**  Less the excess of same-side visits, of which one may
have been cut in two, a single-edge count is within one cycle of the displacement; and the one that
was cut in two makes it a quarter of a cycle more at most. -/
theorem abs_singleEdge_sub_disp {w : ℕ → Sample} (hw : IsWalk w) (t : ℕ) :
    |4 * (singleEdge w t - sameSideExcess w t - reentry w t) - disp w t| < 4 ∧
      |4 * (singleEdge w t - sameSideExcess w t) - disp w t| ≤ 5 := by
  by_cases hlow : (w 0).c1 = false ∨ (w t).c1 = false
  · have hlt := abs_sub_disp_lt_of_low hw hlow
    rw [reentry_of_low hlow, Int.sub_zero]
    exact ⟨hlt, by omega⟩
  · rw [not_or, Bool.not_eq_false, Bool.not_eq_false] at hlow
    have hle := abs_le.mp (abs_sub_disp_le_of_high hw hlow.1 hlow.2)
    have hre := abs_le.mp (abs_reentry_le w t)
    rw [abs_lt, abs_le]
    omega

/-- **Back at the start the count IS its error.**  When the shaft has the displacement it began
with, all that a single-edge count shows is the excess of same-side visits. -/
theorem singleEdge_of_disp_eq_zero {w : ℕ → Sample} (hw : IsWalk w) {t : ℕ}
    (hd : disp w t = 0) : singleEdge w t = sameSideExcess w t + reentry w t := by
  have hlt := abs_lt.mp (abs_singleEdge_sub_disp hw t).1
  omega

/-! ## 5. Walks that never turn back while c1 is high -/

/-- The direction in which the c1-high half is entered at a side. -/
def Side.dir : Side → ℤ
  | .rear => 1
  | .front => -1

theorem Side.dir_ne_zero (e : Side) : e.dir ≠ 0 := by cases e <;> decide

theorem stepSign_enter {a b : Sample} (h : b = a ∨ b = a.next ∨ a = b.next) (ha : a.c1 = false)
    (hb : b.c1 = true) : stepSign a b = b.side.dir := by
  rcases a with ⟨_ | _, _ | _⟩ <;> rcases b with ⟨_ | _, _ | _⟩ <;> revert h ha hb <;> decide

theorem stepSign_leave {a b : Sample} (h : b = a ∨ b = a.next ∨ a = b.next) (ha : a.c1 = true)
    (hb : b.c1 = false) : stepSign a b = -b.side.dir := by
  rcases a with ⟨_ | _, _ | _⟩ <;> rcases b with ⟨_ | _, _ | _⟩ <;> revert h ha hb <;> decide

theorem stepSign_cases {a b : Sample} (h : b = a ∨ b = a.next ∨ a = b.next) (e : Side) :
    b = a ∨ stepSign a b = e.dir ∨ e.dir = -stepSign a b := by
  rcases a with ⟨_ | _, _ | _⟩ <;> rcases b with ⟨_ | _, _ | _⟩ <;> cases e <;> revert h <;>
    decide

/-- Without a turn back while c1 is high, the last move of a visit in progress went the way it
was entered. -/
theorem last_move {w : ℕ → Sample} (hw : IsWalk w) (hT : ¬ TurnsBackHigh w) (e : Side) : ∀ t : ℕ,
    enteredBy w t = some e →
      ∃ i < t, (∀ k, i < k → k ≤ t → w k = w t) ∧ stepSign (w i) (w (i + 1)) = e.dir
  | 0, h => by simp [enteredBy] at h
  | t + 1, h => by
    have hself : ∀ k, t < k → k ≤ t + 1 → w k = w (t + 1) := fun k h1 h2 =>
      congrArg w (by omega)
    cases h1 : (w (t + 1)).c1 with
    | false => rw [enteredBy_of_low h1] at h; exact absurd h (by simp)
    | true =>
      cases h0 : (w t).c1 with
      | false =>
        have he : (w (t + 1)).side = e := by simpa [enteredBy, h0, h1] using h
        exact ⟨t, Nat.lt_succ_self t, hself, he ▸ stepSign_enter (hw t) h0 h1⟩
      | true =>
        have hprev : enteredBy w t = some e := by simpa [enteredBy, h0, h1] using h
        obtain ⟨i, hit, hsame, hdir⟩ := last_move hw hT e t hprev
        rcases stepSign_cases (hw t) e with heq | hfwd | hback
        · -- a dwell: the last move is still the same one
          refine ⟨i, Nat.lt_succ_of_lt hit, fun k h2 h3 => ?_, hdir⟩
          rcases Nat.lt_or_ge t k with hk | hk
          · exact hself k hk h3
          · rw [hsame k h2 hk, heq]
        · exact ⟨t, Nat.lt_succ_self t, hself, hfwd⟩
        · exact absurd ⟨i, t, hit, hsame, h0, hdir.trans hback, hdir ▸ e.dir_ne_zero⟩ hT

/-- **No turn back while c1 is high, no error.**  Every completed visit went right through. -/
theorem visits_same_side_eq_zero {w : ℕ → Sample} (hw : IsWalk w) (hT : ¬ TurnsBackHigh w)
    (e : Side) (t : ℕ) : visits w e e t = 0 := by
  refine Nat.count_iff_forall_not.mpr ?_
  rintro j - ⟨h1, h2, he, hl⟩
  obtain ⟨i, hij, hsame, hdir⟩ := last_move hw hT e j he
  have hleave : stepSign (w j) (w (j + 1)) = -e.dir := hl ▸ stepSign_leave (hw j) h1 h2
  exact hT ⟨i, j, hij, hsame, h1, by rw [hdir, hleave, neg_neg], hdir ▸ e.dir_ne_zero⟩

theorem sameSideExcess_eq_zero {w : ℕ → Sample} (hw : IsWalk w) (hT : ¬ TurnsBackHigh w)
    (t : ℕ) : sameSideExcess w t = 0 := by
  simp [sameSideExcess, visits_same_side_eq_zero hw hT]

end Quadrature
