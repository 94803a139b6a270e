/-
# Where an address goes

`nios_system_mm_interconnect_0_router` gives a command of the data master its channel and its
destination id: a row of `if`s, one for each range of addresses, each comparing the address with
its low bits masked off, and a later one overriding an earlier one.

`route_exact`: for every address, at most one of the ranges is hit; a command goes to the slave of
the range its address is in, and to the SDRAM controller, the default, when there is none.  A
range that is for reads only counts as absent for a write.
-/
import Mathlib.Data.List.Pairwise
import Mathlib.Algebra.Order.Ring.Nat
import Mathlib.Tactic.Push

namespace MotorPid.Bus

/-! ## 1. Ranges -/

/-- `log2ceil`: how often 1 is doubled until it is no less than `val`; the source's registers are
66 bits wide. -/
def log2ceil (val : ℕ) : ℕ := go 66 1 0
where
  go : ℕ → ℕ → ℕ → ℕ
    | 0, _, n => n
    | fuel + 1, i, n => if i < val then go fuel (i <<< 1) (n + 1) else n

/-- One range of the decoder: the addresses from `start` to before `stop`, and where they go.  Its
size is a power of two to which it is aligned; the masking relies on it. -/
structure Range where
  start : ℕ
  stop : ℕ
  channel : BitVec 6
  destId : BitVec 3
  readOnly : Bool
  stop_eq : stop = start + 2 ^ log2ceil (stop - start)
  aligned : 2 ^ log2ceil (stop - start) ∣ start
  stop_le : stop ≤ 2 ^ 29

namespace Range

/-- `PAD0` to `PAD5`. -/
def pad (r : Range) : ℕ := log2ceil (r.stop - r.start)

/-- `{address[RG:PAD],{PAD{1'b0}}} == start`, for reads only where the source says
`&& read_transaction`. -/
def hits (r : Range) (address : BitVec 29) (readTransaction : Bool) : Bool :=
  (address >>> r.pad) <<< r.pad == BitVec.ofNat 29 r.start && (!r.readOnly || readTransaction)

/-- What the comment above each `if` says. -/
def Contains (r : Range) (address : BitVec 29) (readTransaction : Bool) : Prop :=
  (r.start ≤ address.toNat ∧ address.toNat < r.stop) ∧ (r.readOnly = true → readTransaction = true)

instance (r : Range) (address : BitVec 29) (readTransaction : Bool) :
    Decidable (r.Contains address readTransaction) := inferInstanceAs (Decidable (_ ∧ _))

end Range

/-- Masking the low bits compares an address with an aligned range. -/
theorem mask_eq_iff {a b p : ℕ} (hb : 2 ^ p ∣ b) :
    a / 2 ^ p * 2 ^ p = b ↔ b ≤ a ∧ a < b + 2 ^ p := by
  obtain ⟨k, rfl⟩ := hb
  have hpos : 0 < 2 ^ p := Nat.two_pow_pos p
  rw [Nat.mul_comm (2 ^ p) k, Nat.mul_left_inj hpos.ne', Nat.div_eq_iff hpos]
  constructor <;> rintro ⟨h1, h2⟩ <;> omega

/-- **The decoder compares with the range.** -/
theorem Range.hits_iff (r : Range) (address : BitVec 29) (readTransaction : Bool) :
    r.hits address readTransaction = true ↔ r.Contains address readTransaction := by
  have hsmall : r.start < 2 ^ 29 := by
    have hpos : 0 < 2 ^ log2ceil (r.stop - r.start) := Nat.two_pow_pos _
    have hstop := r.stop_eq
    have hle := r.stop_le
    omega
  have hmask : ((address >>> r.pad) <<< r.pad).toNat = address.toNat / 2 ^ r.pad * 2 ^ r.pad := by
    rw [BitVec.toNat_shiftLeft, BitVec.toNat_ushiftRight, Nat.shiftLeft_eq,
      Nat.shiftRight_eq_div_pow]
    exact Nat.mod_eq_of_lt (lt_of_le_of_lt (Nat.div_mul_le_self _ _) address.isLt)
  have hcompare : (address >>> r.pad) <<< r.pad = BitVec.ofNat 29 r.start ↔
      r.start ≤ address.toNat ∧ address.toNat < r.stop := by
    have hiff := mask_eq_iff (a := address.toNat) r.aligned
    rw [← r.stop_eq] at hiff
    rwa [← BitVec.toNat_inj, hmask, BitVec.toNat_ofNat, Nat.mod_eq_of_lt hsmall]
  rw [hits, Bool.and_eq_true, beq_iff_eq, hcompare, Contains]
  cases r.readOnly <;> simp

/-! ## 2. The map -/

/-- `( 0x8000000 .. 0x10000000 )`. -/
def newSdramController0 : Range :=
  ⟨0x8000000, 0x10000000, 0b010000, 3, false, by decide, by decide, by decide⟩

/-- `( 0x10000800 .. 0x10001000 )`. -/
def nios2Gen20DebugMem : Range :=
  ⟨0x10000800, 0x10001000, 0b001000, 4, false, by decide, by decide, by decide⟩

/-- `( 0x10001000 .. 0x10001040 )`. -/
def performanceCounter0 : Range :=
  ⟨0x10001000, 0x10001040, 0b000100, 5, false, by decide, by decide, by decide⟩

/-- `( 0x10001040 .. 0x10001050 )`, for reads only. -/
def key : Range :=
  ⟨0x10001040, 0x10001050, 0b100000, 1, true, by decide, by decide, by decide⟩

/-- `( 0x10001050 .. 0x10001058 )`. -/
def motor0 : Range :=
  ⟨0x10001050, 0x10001058, 0b000010, 2, false, by decide, by decide, by decide⟩

/-- `( 0x10001058 .. 0x10001060 )`. -/
def jtagUart0 : Range :=
  ⟨0x10001058, 0x10001060, 0b000001, 0, false, by decide, by decide, by decide⟩

/-- The ranges in the order of the `if`s. -/
def ranges : List Range :=
  [newSdramController0, nios2Gen20DebugMem, performanceCounter0, key, motor0, jtagUart0]

/-- `the_default_decode`: `DEFAULT_CHANNEL` and `DEFAULT_DESTID`. -/
def defaultRoute : BitVec 6 × BitVec 3 := (1 <<< 4, 3)

/-- `src_channel` and the destination id. -/
def route (address : BitVec 29) (readTransaction : Bool) : BitVec 6 × BitVec 3 :=
  ranges.foldl (fun out r => if r.hits address readTransaction then (r.channel, r.destId) else out)
    defaultRoute

/-! ## 3. The map is unambiguous -/

/-- Two slaves share no address, no channel and no destination id. -/
def Range.Apart (r r' : Range) : Prop :=
  (r.stop ≤ r'.start ∨ r'.stop ≤ r.start) ∧ r.channel ≠ r'.channel ∧ r.destId ≠ r'.destId

instance (r r' : Range) : Decidable (r.Apart r') := inferInstanceAs (Decidable (_ ∧ _))

instance : Std.Symm Range.Apart :=
  ⟨fun _ _ h => ⟨h.1.symm, h.2.1.symm, h.2.2.symm⟩⟩

theorem apart_of_ne {r r' : Range} (hr : r ∈ ranges) (hr' : r' ∈ ranges) (hne : r ≠ r') :
    r.Apart r' := by
  have hall : ranges.Pairwise Range.Apart := by decide
  exact hall.forall hr hr' hne

section

variable {address : BitVec 29} {readTransaction : Bool}

/-- The ranges are disjoint. -/
theorem eq_of_contains {r r' : Range} (hr : r ∈ ranges) (hr' : r' ∈ ranges)
    (h : r.Contains address readTransaction) (h' : r'.Contains address readTransaction) :
    r = r' := by
  by_contra hne
  have hapart := (apart_of_ne hr hr' hne).1
  have hlow := h.1
  have hlow' := h'.1
  omega

/-- Of a row of `if`s with one outcome `v` among those hit, that is the outcome. -/
theorem foldl_eq {l : List Range} {out v : BitVec 6 × BitVec 3}
    (h : ∀ r ∈ l, r.hits address readTransaction = true → (r.channel, r.destId) = v)
    (hv : out = v ∨ ∃ r ∈ l, r.hits address readTransaction = true) :
    l.foldl (fun out r => if r.hits address readTransaction then (r.channel, r.destId) else out)
      out = v := by
  induction l generalizing out with
  | nil => simpa using hv
  | cons r l ih =>
    have hlater : ∀ r' ∈ l, r'.hits address readTransaction = true → (r'.channel, r'.destId) = v :=
      fun r' hr' => h r' (List.mem_cons_of_mem r hr')
    rw [List.foldl_cons]
    by_cases hhit : r.hits address readTransaction = true
    · rw [if_pos hhit]
      exact ih hlater (.inl (h r (List.mem_cons_self ..) hhit))
    · rw [if_neg hhit]
      refine ih hlater (hv.imp_right ?_)
      rintro ⟨r', hr', hhit'⟩
      rcases List.mem_cons.mp hr' with rfl | hr'
      · exact absurd hhit' hhit
      · exact ⟨r', hr', hhit'⟩

theorem route_of_contains {r : Range} (hr : r ∈ ranges)
    (h : r.Contains address readTransaction) :
    route address readTransaction = (r.channel, r.destId) := by
  refine foldl_eq ?_ (.inr ⟨r, hr, (r.hits_iff _ _).mpr h⟩)
  intro r' hr' hhit
  rw [eq_of_contains hr' hr ((r'.hits_iff _ _).mp hhit) h]

theorem route_of_none (h : ∀ r ∈ ranges, ¬ r.Contains address readTransaction) :
    route address readTransaction = defaultRoute :=
  foldl_eq (fun r hr hhit => absurd ((r.hits_iff _ _).mp hhit) (h r hr)) (.inl rfl)

variable (address readTransaction) in
/-- A slave other than the default is reached from its own range only. -/
theorem channel_eq_iff {r : Range} (hr : r ∈ ranges) (hne : r ≠ newSdramController0) :
    (route address readTransaction).1 = r.channel ↔ r.Contains address readTransaction := by
  constructor
  · intro hroute
    by_cases h : ∃ r' ∈ ranges, r'.Contains address readTransaction
    · obtain ⟨r', hr', hcontains⟩ := h
      rw [route_of_contains hr' hcontains] at hroute
      by_contra hnot
      have hapart : r' ≠ r := fun hsame => hnot (hsame ▸ hcontains)
      exact (apart_of_ne hr' hr hapart).2.1 hroute
    · push Not at h
      rw [route_of_none h] at hroute
      exact absurd hroute (apart_of_ne (List.mem_cons_self ..) hr hne.symm).2.1
  · intro hcontains
    rw [route_of_contains hr hcontains]

/-- A command goes to one of the six slaves. -/
theorem exists_route (address : BitVec 29) (readTransaction : Bool) :
    ∃ r ∈ ranges, route address readTransaction = (r.channel, r.destId) := by
  by_cases h : ∃ r ∈ ranges, r.Contains address readTransaction
  · obtain ⟨r, hr, hcontains⟩ := h
    exact ⟨r, hr, route_of_contains hr hcontains⟩
  · push Not at h
    exact ⟨newSdramController0, List.mem_cons_self .., route_of_none h⟩

end

/-- **Every address goes to one slave.**  For every address, of reads and of writes: no two
ranges contain it; a command goes to the slave of the range that does, and to the SDRAM
controller when none does; and a slave other than that is reached from its own range only. -/
theorem route_exact (address : BitVec 29) (readTransaction : Bool) :
    (∀ r ∈ ranges, ∀ r' ∈ ranges, r.Contains address readTransaction →
      r'.Contains address readTransaction → r = r') ∧
    (∀ r ∈ ranges, r.Contains address readTransaction →
      route address readTransaction = (r.channel, r.destId)) ∧
    ((∀ r ∈ ranges, ¬ r.Contains address readTransaction) →
      route address readTransaction = (newSdramController0.channel, newSdramController0.destId)) ∧
    ∀ r ∈ ranges, r ≠ newSdramController0 →
      ((route address readTransaction).1 = r.channel ↔ r.Contains address readTransaction) := by
  exact ⟨fun r hr r' hr' h h' => eq_of_contains hr hr' h h', fun r hr h => route_of_contains hr h,
    route_of_none, fun r hr hne => channel_eq_iff _ _ hr hne⟩

/-- `IORD(MOTOR_0_BASE, 0)` and a write to the key, which is for reads only. -/
example : route 0x10001050 true = (motor0.channel, motor0.destId) ∧
    route 0x10001040 false = (newSdramController0.channel, newSdramController0.destId) := by
  decide

end MotorPid.Bus
