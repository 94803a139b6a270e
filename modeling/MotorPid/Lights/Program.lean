/-
# The program of the lights

`main` of the first system reads the keys, sleeps for as long as they say, and writes a word with
one random bit to the LED component, for ever.  `printf` and the compiler's own instructions take
time only; a clock says what gets on at it: whether the answer of the keys arrives, whether the
sleep's loop finishes an iteration, and whether the write is offered and taken.

The component's slave port is the one the motor component has in the other system, with the same
parameters, but on the processor's own clock.  There is no `rdata_fifo` behind it here: the agent's
`rdata_fifo_src` goes straight to `avalon_st_adapter_001`.  The port is modelled with the FIFO all
the same, which stays empty, since only reads put something in and the program reads nothing of the
component.  Nothing in front of the port stores a command: when the interconnect offers the write
is left open.

`twinkle_exact`: the component is strobed with the words of the passes, in order and each once, and
every two of them are at least the shortest sleep apart.  `passes_rate`: if nothing is kept waiting
for more than `D` clocks, a pass takes at most 1440002 times as many.
-/
import MotorPid.Bus.Port
import MotorPid.Clocked.Leads
import MotorPid.Hal.BusySleep
import MotorPid.Lights.Fade

namespace MotorPid.Lights

open Bus Clocked Hal

variable {η : Type*}

/-! ## 1. `main` -/

/-- "Set wait time based on key". -/
def waitTime (key : BitVec 32) : BitVec 32 :=
  if key = 13 then 90000
  else if key = 11 then 70000
  else if key = 7 then 50000
  else 90000

/-- "get a random int between 0 and 26 and set the r-th bit in leds to 1". -/
def leds (rand : ℕ) : BitVec 32 := 0 ||| (1 : BitVec 32) <<< (rand % 26)

theorem leds_bit (rand : ℕ) (i : Fin 26) :
    (leds rand).getLsbD i = decide ((i : ℕ) = rand % 26) := by
  have hi : (i : ℕ) < 32 := i.isLt.trans (by decide)
  rw [leds, BitVec.getLsbD_or, BitVec.getLsbD_shiftLeft]
  by_cases hle : (i : ℕ) < rand % 26
  · simp [hle, hle.ne]
  · have hzero : (i : ℕ) - rand % 26 = 0 ↔ (i : ℕ) = rand % 26 := by omega
    simp [hi, hle, hzero]

/-- What `main` is at: the read of the keys, the sleep with its iterations left, or the write. -/
inductive Phase where
  | readKey
  | sleep (left : ℕ)
  | write (leds : BitVec 32)

/-- The passes done, which is how often `rand` has been called before, and what `main` is at. -/
structure Main where
  passes : ℕ
  phase : Phase

namespace Main

def start : Main := ⟨0, .readKey⟩

/-- The word that `main` is about to write. -/
def pending (c : Main) : Option (BitVec 32) :=
  match c.phase with
  | .write w => some w
  | _ => none

/-- One clock: the answer of the keys, if it arrives, whether the loop of the sleep finishes an
iteration, and whether the write is taken. -/
def next (rand : ℕ → ℕ) (c : Main) (key : Option (BitVec 32)) (spins taken : Bool) : Main :=
  match c.phase, key with
  | .readKey, some v => { c with phase := .sleep (spinCount .fast (waitTime v)) }
  | .readKey, none => c
  | .sleep left, _ =>
    if spins then
      { c with phase := if left ≤ 1 then .write (leds (rand c.passes)) else .sleep (left - 1) }
    else c
  | .write _, _ => if taken then ⟨c.passes + 1, .readKey⟩ else c

/-- What `main` waits for happens. -/
def getsOn (c : Main) (key : Option (BitVec 32)) (spins taken : Bool) : Bool :=
  match c.phase with
  | .readKey => key.isSome
  | .sleep _ => spins
  | .write _ => taken

/-- **What a clock does to `main`.** -/
theorem next_cases (rand : ℕ → ℕ) (c : Main) (key : Option (BitVec 32)) (spins taken : Bool) :
    c.next rand key spins taken = c ∧ c.getsOn key spins taken = false ∨
    (∃ v, c.phase = .readKey ∧
      c.next rand key spins taken = ⟨c.passes, .sleep (spinCount .fast (waitTime v))⟩) ∨
    (∃ left, c.phase = .sleep (left + 1) ∧ 0 < left ∧
      c.next rand key spins taken = ⟨c.passes, .sleep left⟩) ∨
    (∃ left, c.phase = .sleep left ∧ left ≤ 1 ∧
      c.next rand key spins taken = ⟨c.passes, .write (leds (rand c.passes))⟩) ∨
    c.pending.isSome = true ∧ taken = true ∧
      c.next rand key spins taken = ⟨c.passes + 1, .readKey⟩ := by
  obtain ⟨passes, phase⟩ := c
  cases phase with
  | readKey =>
    cases key with
    | none => exact .inl ⟨rfl, rfl⟩
    | some v => exact .inr (.inl ⟨v, rfl, rfl⟩)
  | sleep left =>
    cases spins with
    | false => exact .inl ⟨rfl, rfl⟩
    | true =>
      by_cases hle : left ≤ 1
      · refine .inr (.inr (.inr (.inl ⟨left, rfl, hle, ?_⟩)))
        simp [next, hle]
      · obtain ⟨m, rfl⟩ : ∃ m, left = m + 1 := ⟨left - 1, by omega⟩
        refine .inr (.inr (.inl ⟨m, rfl, by omega, ?_⟩))
        simp [next, hle]
  | write w =>
    cases taken with
    | false => exact .inl ⟨rfl, rfl⟩
    | true => exact .inr (.inr (.inr (.inr ⟨rfl, rfl, rfl⟩)))

theorem getsOn_of_pending {c : Main} (hpending : c.pending.isSome = true)
    (key : Option (BitVec 32)) (spins taken : Bool) : c.getsOn key spins taken = taken := by
  obtain ⟨passes, phase⟩ := c
  cases phase with
  | write w => rfl
  | _ => exact Bool.noConfusion hpending

theorem next_of_not_getsOn {rand : ℕ → ℕ} {c : Main} {key : Option (BitVec 32)}
    {spins taken : Bool} (hgets : c.getsOn key spins taken = false) :
    c.next rand key spins taken = c := by
  obtain ⟨passes, phase⟩ := c
  cases phase with
  | readKey =>
    cases key with
    | none => rfl
    | some v => exact Bool.noConfusion hgets
  | sleep left =>
    cases spins with
    | false => rfl
    | true => exact Bool.noConfusion hgets
  | write w =>
    cases taken with
    | false => rfl
    | true => exact Bool.noConfusion hgets

end Main

/-! ## 2. The system -/

structure Twinkle (η : Type*) where
  main : Main
  port : Port η
  regs : Regs

/-- What happens at a clock. -/
structure TwinkleIn where
  goesOn : Bool
  key : Option (BitVec 32)
  spins : Bool
  rspReady : Bool

namespace Twinkle

def reset (zero : Packet η) : Twinkle η := ⟨.start, .reset zero, powerUp⟩

section

variable (rand : ℕ → ℕ) (h : Packet η) (s : Twinkle η) (x : TwinkleIn)

/-- What the port sees; the component has nothing to read, and its answer is terminated. -/
def portIn : PortIn η where
  cpValid := x.goesOn && s.main.pending.isSome
  cpData := { h with trans := .write, data := s.main.pending.getD 0 }
  rpReady := x.rspReady
  avReaddata := 0xDEADBEAD

/-- What the component sees. -/
def ledIn : In := ⟨false, s.port.avWrite (s.portIn h x), (s.portIn h x).cpData.data⟩

def taken : Bool := (s.port.takes (s.portIn h x)).isSome

/-- One clock. -/
def step : Twinkle η where
  main := s.main.next rand x.key x.spins (s.taken h x)
  port := s.port.step (s.portIn h x)
  regs := Lights.step s.regs (s.ledIn h x)

/-- The word the component is strobed with. -/
def strobes : Option (BitVec 32) := s.port.strobes (s.portIn h x)

end

/-! ## 3. One clock -/

variable {rand : ℕ → ℕ} {h : Packet η} {s : Twinkle η} {x : TwinkleIn}

/-- The port comes out of reset while `main` reads the keys for the first time, has nothing to
answer, and does not let a write wait; the sleep is within its bounds, and what `main` is about to
write is the word of its pass. -/
structure Inv (rand : ℕ → ℕ) (s : Twinkle η) : Prop where
  fresh : s.port.waitrequestResetOverride = true → s.main.phase = .readKey
  latency : s.port.waitLatencyCounter = 0
  silent : ∃ served given hs vs, s.port.Inv served given hs vs ∧ Port.responses served = []
  sleep : ∀ left, s.main.phase = .sleep left → 0 < left ∧ left ≤ 1440000
  word : ∀ w, s.main.phase = .write w → w = leds (rand s.main.passes)

theorem inv_reset (zero : Packet η) : Inv rand (reset zero) where
  fresh := fun _ => rfl
  latency := rfl
  silent := ⟨[], [], [], [], Port.inv_reset zero, rfl⟩
  sleep := fun _ hphase => nomatch hphase
  word := fun _ hphase => nomatch hphase

/-- **A word is strobed when its write is taken**, and then it is that of the pass. -/
theorem Inv.strobes_eq (hI : Inv rand s) :
    s.strobes h x = if s.taken h x then some (leds (rand s.main.passes)) else none := by
  have hfresh : s.port.waitrequestResetOverride = false ∨ (s.portIn h x).cpValid = false := by
    rw [Classical.or_iff_not_imp_left, Bool.not_eq_false]
    intro hover
    have hphase := hI.fresh hover
    simp [portIn, Main.pending, hphase]
  rw [strobes, Port.strobes_eq hfresh, taken]
  cases ht : s.port.takes (s.portIn h x) with
  | none => rfl
  | some c =>
    obtain ⟨hc, hvalid, -⟩ := Port.takes_eq_some ht
    obtain ⟨w, hw⟩ : ∃ w, s.main.phase = .write w := by
      cases hphase : s.main.phase with
      | write w => exact ⟨w, rfl⟩
      | _ => simp [portIn, Main.pending, hphase] at hvalid
    have hdata : c.1.written = some w := by
      rw [hc]
      simp [portIn, Packet.written, Main.pending, hw]
    rw [Option.bind_some, hdata, hI.word w hw]
    rfl

/-- The sleeps are those of 50000 to 90000 microseconds, 16 iterations each. -/
theorem spinCount_waitTime (key : BitVec 32) :
    800000 ≤ spinCount .fast (waitTime key) ∧ spinCount .fast (waitTime key) ≤ 1440000 := by
  have hbounds : 50000 ≤ (waitTime key).toNat ∧ (waitTime key).toNat ≤ 90000 := by
    unfold waitTime
    split
    · decide
    · split
      · decide
      · split <;> decide
  have hzero : waitTime key ≠ 0 := by
    intro hzero
    rw [hzero] at hbounds
    exact absurd hbounds.1 (by decide)
  rw [spinCount_fast, if_neg hzero, if_neg (by omega)]
  omega

theorem Inv.latency_step (hI : Inv rand s) : (s.step rand h x).port.waitLatencyCounter = 0 := by
  have hread : s.port.m0Read (s.portIn h x) = false := by simp [Port.m0Read, portIn]
  have hnext : (s.step rand h x).port = s.port.step (s.portIn h x) := rfl
  rw [hnext, Port.step, Port.m0Waitrequest, hread, hI.latency]
  cases s.port.m0Write (s.portIn h x) <;> cases s.port.waitrequestResetOverride <;> rfl

theorem Inv.silent_step (hI : Inv rand s) : ∃ served given hs vs,
    (s.step rand h x).port.Inv served given hs vs ∧ Port.responses served = [] := by
  obtain ⟨served, given, hs, vs, hport, hnone⟩ := hI.silent
  obtain ⟨hs', vs', hport'⟩ := hport.step (s.portIn h x)
  refine ⟨_, _, hs', vs', hport', ?_⟩
  rw [Port.responses_append, hnone, List.nil_append]
  cases ht : s.port.takes (s.portIn h x) with
  | none => rfl
  | some c =>
    rw [(Port.takes_eq_some ht).1]
    rfl

theorem Inv.step (hI : Inv rand s) : Inv rand (s.step rand h x) := by
  have hnext : (s.step rand h x).main = s.main.next rand x.key x.spins (s.taken h x) := rfl
  refine ⟨fun hover => Bool.noConfusion (show false = true from hover), hI.latency_step,
    hI.silent_step, ?_, ?_⟩
  · intro left hphase
    rcases s.main.next_cases rand x.key x.spins (s.taken h x) with
      ⟨hsame, -⟩ | ⟨v, -, hsleep⟩ | ⟨left', hbefore, hpos, hsleep⟩ | ⟨left', -, -, hwrite⟩ |
      ⟨-, -, hread⟩
    · rw [hnext, hsame] at hphase
      exact hI.sleep left hphase
    · rw [hnext, hsleep] at hphase
      have hcount := spinCount_waitTime v
      rw [← Phase.sleep.inj hphase]
      omega
    · rw [hnext, hsleep] at hphase
      have hbounds := hI.sleep _ hbefore
      rw [← Phase.sleep.inj hphase]
      omega
    · rw [hnext, hwrite] at hphase
      cases hphase
    · rw [hnext, hread] at hphase
      cases hphase
  · intro w hw
    rcases s.main.next_cases rand x.key x.spins (s.taken h x) with
      ⟨hsame, -⟩ | ⟨v, -, hsleep⟩ | ⟨left, -, -, hsleep⟩ | ⟨left, -, -, hwrite⟩ | ⟨-, -, hread⟩
    · rw [hnext, hsame] at hw ⊢
      exact hI.word w hw
    · rw [hnext, hsleep] at hw
      cases hw
    · rw [hnext, hsleep] at hw
      cases hw
    · rw [hnext, hwrite] at hw ⊢
      exact (Phase.write.inj hw).symm
    · rw [hnext, hread] at hw
      cases hw

/-- **A write that is offered is taken at once.** -/
theorem Inv.taken_of_pending (hI : Inv rand s) (hpending : s.main.pending.isSome = true)
    (hgoes : x.goesOn = true) : s.taken h x = true := by
  have hover : s.port.waitrequestResetOverride = false := by
    rw [← Bool.not_eq_true]
    intro hover
    have hphase := hI.fresh hover
    simp [Main.pending, hphase] at hpending
  obtain ⟨served, given, hs, vs, hport, hnone⟩ := hI.silent
  have hready : s.port.readyForCommand = true := hport.readyForCommand (by simp [hnone])
  have hvalid : (s.portIn h x).cpValid = true := by
    rw [portIn, hgoes, hpending]
    rfl
  have hwrite : s.port.m0Write (s.portIn h x) = true := by
    rw [Port.m0Write, hready, hvalid]
    rfl
  have hwait : s.port.m0Waitrequest (s.portIn h x) = false := by
    rw [Port.m0Waitrequest, hwrite, if_pos rfl, hI.latency, hover]
    rfl
  rw [taken, Port.takes, hvalid, Port.cpReady, hwait, hready]
  rfl

/-- A write is taken only when there is one. -/
theorem pending_of_taken (htaken : s.taken h x = true) : s.main.pending.isSome = true := by
  obtain ⟨c, hc⟩ := Option.isSome_iff_exists.mp htaken
  have hvalid := (Port.takes_eq_some hc).2.1
  exact ((Bool.and_eq_true _ _).mp hvalid).2

theorem step_of_taken (htaken : s.taken h x = true) :
    (s.step rand h x).main = ⟨s.main.passes + 1, .readKey⟩ := by
  have hpending := pending_of_taken htaken
  have hnext : (s.step rand h x).main = s.main.next rand x.key x.spins (s.taken h x) := rfl
  rw [hnext]
  rcases s.main.next_cases rand x.key x.spins (s.taken h x) with
    ⟨-, hnot⟩ | ⟨v, hphase, -⟩ | ⟨left, hphase, -, -⟩ | ⟨left, hphase, -, -⟩ | ⟨-, -, hread⟩
  · rw [Main.getsOn_of_pending hpending, htaken] at hnot
    exact Bool.noConfusion hnot
  · simp [Main.pending, hphase] at hpending
  · simp [Main.pending, hphase] at hpending
  · simp [Main.pending, hphase] at hpending
  · exact hread

theorem passes_of_not_taken (htaken : s.taken h x = false) :
    (s.step rand h x).main.passes = s.main.passes := by
  have hnext : (s.step rand h x).main = s.main.next rand x.key x.spins (s.taken h x) := rfl
  rw [hnext]
  rcases s.main.next_cases rand x.key x.spins (s.taken h x) with
    ⟨hsame, -⟩ | ⟨v, -, hsleep⟩ | ⟨left, -, -, hsleep⟩ | ⟨left, -, -, hwrite⟩ | ⟨-, htrue, -⟩
  · rw [hsame]
  · rw [hsleep]
  · rw [hsleep]
  · rw [hwrite]
  · exact Bool.noConfusion (htaken.symm.trans htrue)

/-! ## 4. The sleep -/

/-- At least so many clocks pass before the next write is taken. -/
def clocksLeft (c : Main) : ℕ :=
  match c.phase with
  | .readKey => 800001
  | .sleep left => left
  | .write _ => 0

theorem clocksLeft_step (htaken : s.taken h x = false) :
    clocksLeft s.main ≤ clocksLeft (s.step rand h x).main + 1 := by
  have hnext : (s.step rand h x).main = s.main.next rand x.key x.spins (s.taken h x) := rfl
  rw [hnext]
  rcases s.main.next_cases rand x.key x.spins (s.taken h x) with
    ⟨hsame, -⟩ | ⟨v, hphase, hsleep⟩ | ⟨left, hphase, -, hsleep⟩ | ⟨left, hphase, hle, hwrite⟩ |
    ⟨-, htrue, -⟩
  · rw [hsame]
    exact Nat.le_succ _
  · rw [hsleep, clocksLeft, hphase]
    exact Nat.succ_le_succ (spinCount_waitTime v).1
  · rw [hsleep, clocksLeft, hphase]
    exact le_rfl
  · rw [hwrite, clocksLeft, hphase]
    exact hle
  · exact Bool.noConfusion (htaken.symm.trans htrue)

theorem clocksLeft_of_taken (htaken : s.taken h x = true) : clocksLeft s.main = 0 := by
  have hpending := pending_of_taken htaken
  cases hphase : s.main.phase with
  | write w => rw [clocksLeft, hphase]
  | readKey => simp [Main.pending, hphase] at hpending
  | sleep left => simp [Main.pending, hphase] at hpending

/-! ## 5. Runs -/

section

variable (rand : ℕ → ℕ) (h zero : Packet η) (x : ℕ → TwinkleIn) (t : ℕ)

def run : Twinkle η := trace (step rand h) (reset zero) x t

/-- The words the component has been strobed with before clock `t`. -/
def strobed : List (BitVec 32) := emitted (step rand h) (strobes h) (reset zero) x t

/-- What the component sees at clock `t`. -/
def ledIns : In := (run rand h zero x t).ledIn h (x t)

end

variable {zero : Packet η} {x : ℕ → TwinkleIn}

theorem inv_run (t : ℕ) : Inv rand (run rand h zero x t) := by
  induction t with
  | zero => exact inv_reset zero
  | succ t ih => exact ih.step

/-- The component runs on what it sees. -/
theorem regs_run (t : ℕ) :
    (run rand h zero x t).regs = Lights.run powerUp (ledIns rand h zero x) t := by
  induction t with
  | zero => rfl
  | succ t ih =>
    rw [Lights.run, trace_succ, ← Lights.run, ← ih]
    rfl

theorem strobed_eq (t : ℕ) : strobed rand h zero x t
    = (List.range (run rand h zero x t).main.passes).map fun k => leds (rand k) := by
  induction t with
  | zero => rfl
  | succ t ih =>
    have hnext : run rand h zero x (t + 1) = (run rand h zero x t).step rand h (x t) := rfl
    have hstrobes : strobes h (trace (Twinkle.step rand h) (reset zero) x t) (x t)
        = if (run rand h zero x t).taken h (x t) then
            some (leds (rand (run rand h zero x t).main.passes))
          else none := (inv_run t).strobes_eq
    rw [strobed, emitted_succ, ← strobed, ih, hstrobes, hnext]
    cases htaken : (run rand h zero x t).taken h (x t) with
    | true =>
      rw [step_of_taken htaken, List.range_succ, List.map_append]
      rfl
    | false =>
      rw [passes_of_not_taken htaken]
      exact List.append_nil _

/-- After a write there are so many clocks at which none is taken. -/
theorem clocksLeft_after {a : ℕ} (ha : (run rand h zero x a).taken h (x a) = true) {d : ℕ}
    (hd : d ≤ 800001) : 800001 ≤ clocksLeft (run rand h zero x (a + 1 + d)).main + d := by
  induction d with
  | zero =>
    have hnext : run rand h zero x (a + 1) = (run rand h zero x a).step rand h (x a) := rfl
    rw [Nat.add_zero, hnext, step_of_taken ha]
    exact le_rfl
  | succ d ih =>
    have hleft := ih (by omega)
    have hnot : (run rand h zero x (a + 1 + d)).taken h (x (a + 1 + d)) = false := by
      rw [← Bool.not_eq_true]
      intro htaken
      have hzero := clocksLeft_of_taken htaken
      omega
    have hnext : run rand h zero x (a + 1 + (d + 1))
        = (run rand h zero x (a + 1 + d)).step rand h (x (a + 1 + d)) := rfl
    have hstep : clocksLeft (run rand h zero x (a + 1 + d)).main
        ≤ clocksLeft (run rand h zero x (a + 1 + (d + 1))).main + 1 := by
      rw [hnext]
      exact clocksLeft_step hnot
    omega

/-- The words are at least the shortest sleep apart. -/
theorem apart {a b : ℕ} (hab : a < b) (ha : (run rand h zero x a).taken h (x a) = true)
    (hb : (run rand h zero x b).taken h (x b) = true) : a + 800002 ≤ b := by
  by_contra hlt
  have hleft := clocksLeft_after ha (d := b - (a + 1)) (by omega)
  have hclock : a + 1 + (b - (a + 1)) = b := by omega
  rw [hclock, clocksLeft_of_taken hb] at hleft
  omega

/-- What an LED sees of the program. -/
theorem selects_iff (t : ℕ) (i : Fin 26) : (ledIns rand h zero x t).selects i = true ↔
    (run rand h zero x t).taken h (x t) = true ∧
      (i : ℕ) = rand (run rand h zero x t).main.passes % 26 := by
  have hstrobes : strobes h (run rand h zero x t) (x t)
      = if (run rand h zero x t).taken h (x t) then
          some (leds (rand (run rand h zero x t).main.passes))
        else none := (inv_run t).strobes_eq
  rw [strobes, Port.strobes] at hstrobes
  cases htaken : (run rand h zero x t).taken h (x t) with
  | true =>
    rw [htaken, if_pos rfl, Option.ite_none_right_eq_some, Option.some_inj] at hstrobes
    obtain ⟨hwrite, hdata⟩ := hstrobes
    rw [ledIns, ledIn, In.selects, hwrite, hdata, leds_bit, Bool.true_and, decide_eq_true_iff]
    exact (and_iff_right rfl).symm
  | false =>
    have hwrite :
        (run rand h zero x t).port.avWrite ((run rand h zero x t).portIn h (x t)) = false := by
      rw [htaken] at hstrobes
      simpa using hstrobes
    rw [ledIns, ledIn, In.selects, hwrite, Bool.false_and]
    exact ⟨fun hf => Bool.noConfusion hf, fun hf => Bool.noConfusion hf.1⟩

end Twinkle

/-- **What the program shows.**  Whatever the keys say and however long anything takes, the LED
component is strobed with the words of the passes, each once and in order; a word picks the one LED
that its random number names; and between two words there are at least the 800000 iterations of the
shortest sleep. -/
theorem twinkle_exact (rand : ℕ → ℕ) (h zero : Packet η) (x : ℕ → TwinkleIn) :
    (∀ t, Twinkle.strobed rand h zero x t
      = (List.range (Twinkle.run rand h zero x t).main.passes).map fun k => leds (rand k)) ∧
    (∀ t, (Twinkle.run rand h zero x t).regs
      = Lights.run powerUp (Twinkle.ledIns rand h zero x) t) ∧
    (∀ t i, (Twinkle.ledIns rand h zero x t).selects i = true ↔
      (Twinkle.run rand h zero x t).taken h (x t) = true ∧
        (i : ℕ) = rand (Twinkle.run rand h zero x t).main.passes % 26) ∧
    ∀ a b, a < b → (Twinkle.run rand h zero x a).taken h (x a) = true →
      (Twinkle.run rand h zero x b).taken h (x b) = true → a + 800002 ≤ b :=
  ⟨Twinkle.strobed_eq, Twinkle.regs_run, Twinkle.selects_iff, fun _ _ => Twinkle.apart⟩

/-! ## 6. How fast it goes -/

namespace Twinkle

section

variable (s : Twinkle η) (x : TwinkleIn) (h : Packet η)

/-- What `main` waits for happens. -/
def getsOn : Bool := s.main.getsOn x.key x.spins (s.taken h x)

end

/-- So often, at most, it has to happen until only the write is left. -/
def stepsLeft (c : Main) : ℕ :=
  match c.phase with
  | .readKey => 1440001
  | .sleep left => left
  | .write _ => 0

theorem Inv.stepsLeft_le (hI : Inv rand s) : stepsLeft s.main ≤ 1440001 := by
  unfold stepsLeft
  cases hphase : s.main.phase with
  | readKey => exact le_rfl
  | sleep left => exact (hI.sleep left hphase).2.trans (Nat.le_succ _)
  | write w => exact Nat.zero_le _

/-- **One clock at which something gets on.** -/
theorem Inv.step_of_getsOn (hI : Inv rand s) (hgets : s.getsOn x h = true) :
    s.taken h x = true ∨ (s.step rand h x).main.passes = s.main.passes ∧
      stepsLeft (s.step rand h x).main < stepsLeft s.main := by
  have hnext : (s.step rand h x).main = s.main.next rand x.key x.spins (s.taken h x) := rfl
  rw [hnext]
  rcases s.main.next_cases rand x.key x.spins (s.taken h x) with
    ⟨-, hnot⟩ | ⟨v, hphase, hsleep⟩ | ⟨left, hphase, -, hsleep⟩ | ⟨left, hphase, -, hwrite⟩ |
    ⟨-, htaken, -⟩
  · exact Bool.noConfusion (hnot.symm.trans hgets)
  · rw [hsleep, stepsLeft, stepsLeft, hphase]
    exact .inr ⟨rfl, Nat.lt_succ_of_le (spinCount_waitTime v).2⟩
  · rw [hsleep, stepsLeft, stepsLeft, hphase]
    exact .inr ⟨rfl, Nat.lt_succ_self left⟩
  · rw [hwrite, stepsLeft, stepsLeft, hphase]
    exact .inr ⟨rfl, (hI.sleep left hphase).1⟩
  · exact .inl htaken

/-- The answers of the keys, the iterations and the offers each keep coming. -/
structure Fair (D : ℕ) (x : ℕ → TwinkleIn) : Prop where
  key : Recurrent D fun t => (x t).key.isSome = true
  spins : Recurrent D fun t => (x t).spins = true
  goesOn : Recurrent D fun t => (x t).goesOn = true

variable {D : ℕ}

/-- So what `main` waits for keeps happening, whatever that is. -/
theorem Fair.getsOn (hfair : Fair D x) :
    Recurrent D fun t => (run rand h zero x t).getsOn (x t) h = true := by
  intro t
  by_contra hnone
  have hnot : ∀ j < D, (run rand h zero x (t + j)).getsOn (x (t + j)) h = false := by
    intro j hj
    rw [← Bool.not_eq_true]
    exact fun hgets => hnone ⟨j, hj, hgets⟩
  -- until it happens `main` stays at what it is at
  have hstays : ∀ j ≤ D, (run rand h zero x (t + j)).main = (run rand h zero x t).main := by
    intro j
    induction j with
    | zero => exact fun _ => rfl
    | succ j ih =>
      intro hj
      rw [← ih (Nat.le_of_succ_le hj)]
      exact Main.next_of_not_getsOn (hnot j hj)
  cases hphase : (run rand h zero x t).main.phase with
  | readKey =>
    obtain ⟨j, hj, hkey⟩ := hfair.key t
    have hgets := hnot j hj
    rw [Twinkle.getsOn, Main.getsOn, hstays j hj.le, hphase] at hgets
    exact Bool.noConfusion (hgets.symm.trans hkey)
  | sleep left =>
    obtain ⟨j, hj, hspins⟩ := hfair.spins t
    have hgets := hnot j hj
    rw [Twinkle.getsOn, Main.getsOn, hstays j hj.le, hphase] at hgets
    exact Bool.noConfusion (hgets.symm.trans hspins)
  | write w =>
    obtain ⟨j, hj, hgoes⟩ := hfair.goesOn t
    have hpending : (run rand h zero x (t + j)).main.pending.isSome = true := by
      rw [hstays j hj.le, Main.pending, hphase]
      rfl
    have hgets := hnot j hj
    rw [Twinkle.getsOn, Main.getsOn_of_pending hpending,
      (inv_run (t + j)).taken_of_pending hpending hgoes] at hgets
    exact Bool.noConfusion hgets

theorem passes_mono {t u : ℕ} (htu : t ≤ u) :
    (run rand h zero x t).main.passes ≤ (run rand h zero x u).main.passes := by
  induction u, htu using Nat.le_induction with
  | base => exact le_rfl
  | succ u _ ih =>
    refine ih.trans ?_
    have hnext : run rand h zero x (u + 1) = (run rand h zero x u).step rand h (x u) := rfl
    rw [hnext]
    cases htaken : (run rand h zero x u).taken h (x u) with
    | true =>
      rw [step_of_taken htaken]
      exact Nat.le_succ _
    | false => rw [passes_of_not_taken htaken]

theorem passes_of_taken {t u : ℕ} (htu : t < u)
    (htaken : (run rand h zero x t).taken h (x t) = true) :
    (run rand h zero x t).main.passes < (run rand h zero x u).main.passes := by
  have hnext : run rand h zero x (t + 1) = (run rand h zero x t).step rand h (x t) := rfl
  have hmono : (run rand h zero x (t + 1)).main.passes ≤ (run rand h zero x u).main.passes :=
    passes_mono htu
  rw [hnext, step_of_taken htaken] at hmono
  exact hmono

/-- The write that ends a pass. -/
theorem exists_taken {n t : ℕ} (hn : n < (run rand h zero x t).main.passes) : ∃ a < t,
    (run rand h zero x a).taken h (x a) = true ∧ (run rand h zero x a).main.passes = n := by
  induction t with
  | zero => exact absurd hn (Nat.not_lt_zero n)
  | succ t ih =>
    have hnext : run rand h zero x (t + 1) = (run rand h zero x t).step rand h (x t) := rfl
    by_cases hdone : n < (run rand h zero x t).main.passes
    · obtain ⟨a, hat, htaken⟩ := ih hdone
      exact ⟨a, Nat.lt_succ_of_lt hat, htaken⟩
    · rw [hnext] at hn
      cases htaken : (run rand h zero x t).taken h (x t) with
      | true =>
        rw [step_of_taken htaken] at hn
        have hle : n ≤ (run rand h zero x t).main.passes := Nat.le_of_lt_succ hn
        exact ⟨t, Nat.lt_succ_self t, htaken, Nat.le_antisymm (Nat.not_lt.mp hdone) hle⟩
      | false =>
        rw [passes_of_not_taken htaken] at hn
        exact absurd hn hdone

/-- A pass is done in time. -/
theorem Fair.pass (hfair : Fair D x) (t : ℕ) : (run rand h zero x t).main.passes + 1
    ≤ (run rand h zero x (t + 1440002 * D)).main.passes := by
  have hgetsOn : Recurrent D fun u => (run rand h zero x u).getsOn (x u) h = true := hfair.getsOn
  have hsteps : stepsLeft (run rand h zero x t).main ≤ 1440001 := (inv_run t).stepsLeft_le
  obtain ⟨u, hu, hpass⟩ := hgetsOn.of_rank
    (J := fun u => (run rand h zero x u).main.passes = (run rand h zero x t).main.passes)
    (R := fun u => (run rand h zero x t).main.passes + 1 ≤ (run rand h zero x u).main.passes)
    (fun u => stepsLeft (run rand h zero x u).main) (fun u hsame => by
      have hnext : run rand h zero x (u + 1) = (run rand h zero x u).step rand h (x u) := rfl
      rw [hnext, ← hsame]
      cases hgets : (run rand h zero x u).getsOn (x u) h with
      | true =>
        rcases (inv_run u).step_of_getsOn hgets with htaken | ⟨hpasses, hfalls⟩
        · refine .inl ?_
          rw [step_of_taken htaken]
        · exact .inr ⟨hpasses, hfalls.le, fun _ => hfalls⟩
      | false =>
        have hmain : ((run rand h zero x u).step rand h (x u)).main
            = (run rand h zero x u).main := Main.next_of_not_getsOn hgets
        rw [hmain]
        exact .inr ⟨rfl, le_rfl, fun hf => Bool.noConfusion hf⟩) rfl hsteps
  exact hpass.trans (passes_mono hu)

theorem Fair.passes (hfair : Fair D x) (n : ℕ) :
    n ≤ (run rand h zero x (n * (1440002 * D))).main.passes := by
  induction n with
  | zero => exact Nat.zero_le _
  | succ n ih =>
    rw [Nat.succ_mul]
    exact (Nat.succ_le_succ ih).trans (hfair.pass _)

/-- Each pass has had its sleep. -/
theorem passes_mul_le (t : ℕ) : (run rand h zero x t).main.passes * 800002 ≤ t ∧
    (run rand h zero x t).main.passes * 800002 + 800001
      ≤ t + clocksLeft (run rand h zero x t).main := by
  induction t with
  | zero =>
    have hstart : (run rand h zero x 0).main = .start := rfl
    have hleft : clocksLeft .start = 800001 := rfl
    rw [hstart, hleft, Main.start, Nat.zero_mul]
    exact ⟨le_rfl, le_rfl⟩
  | succ t ih =>
    have hnext : run rand h zero x (t + 1) = (run rand h zero x t).step rand h (x t) := rfl
    obtain ⟨hdone, hclocks⟩ := ih
    rw [hnext]
    cases htaken : (run rand h zero x t).taken h (x t) with
    | true =>
      have hread : ∀ passes, clocksLeft ⟨passes, .readKey⟩ = 800001 := fun _ => rfl
      rw [clocksLeft_of_taken htaken] at hclocks
      rw [step_of_taken htaken, hread, Nat.succ_mul]
      omega
    | false =>
      have hleft : clocksLeft (run rand h zero x t).main
          ≤ clocksLeft ((run rand h zero x t).step rand h (x t)).main + 1 := clocksLeft_step htaken
      rw [passes_of_not_taken htaken]
      omega

end Twinkle

/-- **How fast the lights twinkle.**  If the answers of the keys, the iterations of the loop and the
offers of the write each come at one of any `D` clocks, the passes go on for ever: each takes at
least 800002 clocks, and at most 1440002 times `D`. -/
theorem passes_rate {D : ℕ} {x : ℕ → TwinkleIn} (hfair : Twinkle.Fair D x) (rand : ℕ → ℕ)
    (h zero : Packet η) (t : ℕ) : (Twinkle.run rand h zero x t).main.passes * 800002 ≤ t ∧
      t < ((Twinkle.run rand h zero x t).main.passes + 1) * (1440002 * D) := by
  refine ⟨(Twinkle.passes_mul_le t).1, ?_⟩
  by_contra hlate
  rw [Nat.not_lt] at hlate
  have hmore : (Twinkle.run rand h zero x t).main.passes + 1
      ≤ (Twinkle.run rand h zero x t).main.passes :=
    (hfair.passes _).trans (Twinkle.passes_mono hlate)
  exact absurd hmore (Nat.not_succ_le_self _)

/-- Key 3 held down and nothing in the way: after ten million clocks. -/
theorem passes_rate_key_three :
    (Twinkle.run (fun k => 7 * k) ⟨.write, 0, 1, 2, 0, ()⟩ ⟨.write, 0, 0, 0, 0, ()⟩
        (fun _ => ⟨true, some 7, true, true⟩) 10000000).main.passes * 800002 ≤ 10000000 ∧
      10000000 < ((Twinkle.run (fun k => 7 * k) ⟨.write, 0, 1, 2, 0, ()⟩ ⟨.write, 0, 0, 0, 0, ()⟩
        (fun _ => ⟨true, some 7, true, true⟩) 10000000).main.passes + 1) * (1440002 * 1) :=
  passes_rate ⟨fun _ => ⟨0, Nat.one_pos, rfl⟩, fun _ => ⟨0, Nat.one_pos, rfl⟩,
    fun _ => ⟨0, Nat.one_pos, rfl⟩⟩ _ _ _ _

end MotorPid.Lights
