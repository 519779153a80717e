import Tukija.Mapdb.Region

/-! `Mtrr::memtype`: the memory type of an address, and how far it holds. -/
namespace Tukija.Memtype

open Tukija.Lib.Word Tukija.Mapdb

structure Mtrr where
  base : Mword
  mask : Mword

/-- `bit_scan_forward`, which is -1 for 0. -/
def scan (x : Mword) : Mword := if x = 0 then ones else BitVec.ofNat 64 (bitScanForward x)

/-- A byte of a 64-bit register, as `unsigned`. -/
def low8 (x : Mword) : Nat := (x.setWidth 32 &&& 0xff).toNat

namespace Mtrr

def size (x : Mtrr) : Mword :=
  shl 1 (if x.mask ≠ 0 then scan (x.mask >>> 12) + 12 else scan (x.mask >>> 32) + 32)

/-- `mtrr->mask & 0x800`. -/
def valid (x : Mtrr) : Bool := x.mask &&& 0x800 != 0

/-- `mtrr->base & ~PAGE_MASK`. -/
def start (x : Mtrr) : Mword := x.base &&& ~~~0xfff

/-- `((phys ^ mtrr->base) & mtrr->mask) >> PAGE_BITS == 0`. -/
def hits (x : Mtrr) (phys : Mword) : Bool := ((phys ^^^ x.base) &&& x.mask) >>> 12 == 0

end Mtrr

/-- `msr` is what `rdmsr` returns. -/
structure State where
  msr : Nat → Mword
  list : List Mtrr
  dtype : Nat

def State.init (msr : Nat → Mword) : State where
  msr := msr
  list := (List.range (low8 (msr 0xfe))).map fun i => ⟨msr (0x200 + 2 * i), msr (0x201 + 2 * i)⟩
  dtype := low8 (msr 0x2ff)

/-- `~0U`: no range so far. -/
def noType : Nat := 2 ^ 32 - 1

/-- The body of the loop over the variable ranges, on `type` and `next`. -/
def look (phys : Mword) (r : Nat × Mword) (x : Mtrr) : Nat × Mword :=
  if !x.valid then r
  else if phys < x.start then (r.1, wmin r.2 x.start)
  else if x.hits phys then (min r.1 (low8 x.base), wmin r.2 (x.start + x.size))
  else r

/-- `Mtrr::memtype`: the type, and `next`. -/
def memtype (s : State) (phys : Mword) : Nat × Mword :=
  if phys < 0x80000 then
    (low8 (s.msr 0x250 >>> (phys >>> 13 &&& 0x38).toNat), 1 + (phys ||| 0xffff))
  else if phys < 0xc0000 then
    (low8 (s.msr (0x258 + (phys >>> 17 &&& 0x1).toNat) >>> (phys >>> 11 &&& 0x38).toNat),
      1 + (phys ||| 0x3fff))
  else if phys < 0x100000 then
    (low8 (s.msr (0x268 + (phys >>> 15 &&& 0x7).toNat) >>> (phys >>> 9 &&& 0x38).toNat),
      1 + (phys ||| 0xfff))
  else
    let r := s.list.foldl (look phys) (noType, ones)
    (if r.1 = noType then s.dtype else r.1, r.2)

/-- Byte `i` of a register. -/
def byteOf (x : Mword) (i : Nat) : Nat := x.toNat / 2 ^ (8 * i) % 256

/-- The fixed ranges: 8 of 64 KiB, 16 of 16 KiB and 64 of 4 KiB, 8 to a register. -/
def fixedType (s : State) (p : Nat) : Nat :=
  if p < 0x80000 then byteOf (s.msr 0x250) (p / 0x10000)
  else if p < 0xc0000 then byteOf (s.msr (0x258 + (p - 0x80000) / 0x20000)) ((p - 0x80000) / 0x4000 % 8)
  else byteOf (s.msr (0x268 + (p - 0xc0000) / 0x8000)) ((p - 0xc0000) / 0x1000 % 8)

def Mtrr.covers (x : Mtrr) (p : Nat) : Bool := x.start.toNat ≤ p && p < x.start.toNat + x.size.toNat

/-- The memory type of an address.  Of several ranges the one with the smallest type
counts: uncacheable (0) before all others, write-through (4) before write-back (6). -/
def mtrrType (s : State) (p : Nat) : Nat :=
  if p < 0x100000 then fixedType s p
  else ((s.list.filter fun x => x.valid && x.covers p).map fun x => low8 x.base).min?.getD s.dtype

/-- A range of `2 ^ k` bytes below `2 ^ w`: its base is naturally aligned, its mask has
ones from bit `k` up to the width. -/
structure Mtrr.Fits (x : Mtrr) (w k : Nat) : Prop where
  page : 12 ≤ k
  lt : k < w
  mask : ∀ i, 12 ≤ i → (x.mask.getLsbD i = true ↔ k ≤ i ∧ i < w)
  aligned : Aligned k x.start
  start_lt : x.start.toNat < 2 ^ w

/-- `w` is a physical address width, and every range that is switched on fits into it. -/
structure State.Fits (s : State) (w : Nat) : Prop where
  low : 20 ≤ w
  high : w < 64
  ranges : ∀ x ∈ s.list, x.valid = true → ∃ k, x.Fits w k

/-- No address of a variable range differs from `p` by bits above the width only. -/
def State.Direct (s : State) (w p : Nat) : Prop :=
  2 ^ w ≤ p → ∀ x ∈ s.list, x.valid = true → x.covers (p % 2 ^ w) = false

section Bits

theorem low8_eq (x : Mword) : low8 x = x.toNat % 256 := by
  unfold low8
  rw [BitVec.toNat_and, BitVec.toNat_setWidth, show (0xff : BitVec 32).toNat = 2 ^ 8 - 1 from rfl,
    Nat.and_two_pow_sub_one_eq_mod]
  omega

theorem and_octet (n a : Nat) : n / 2 ^ a &&& 0x38 = 8 * (n / 2 ^ (a + 3) % 8) := by
  apply Nat.eq_of_testBit_eq
  intro i
  rw [Nat.testBit_and, ← Nat.shiftRight_eq_div_pow, ← Nat.shiftRight_eq_div_pow, Nat.testBit_shiftRight,
    show 8 * (n >>> (a + 3) % 8) = 2 ^ 3 * (n >>> (a + 3) % 2 ^ 3) from rfl, Nat.testBit_two_pow_mul,
    Nat.testBit_mod_two_pow, Nat.testBit_shiftRight]
  by_cases hi : 3 ≤ i
  · obtain ⟨j, rfl⟩ := Nat.exists_eq_add_of_le hi
    have h7 : (0x38 : Nat).testBit (3 + j) = decide (j < 3) := by
      rw [show (0x38 : Nat) = 2 ^ 3 * (2 ^ 3 - 1) from rfl, Nat.testBit_two_pow_mul, Nat.testBit_two_pow_sub_one]
      simp
    rw [h7, show a + (3 + j) = a + 3 + j by omega, show 3 + j - 3 = j by omega]
    simp [Bool.and_comm]
  · have h7 : (0x38 : Nat).testBit i = false := by
      interval_cases i <;> rfl
    simp [h7, hi]

theorem low8_shift (x phys : Mword) (a : Nat) :
    low8 (x >>> (phys >>> a &&& 0x38).toNat) = byteOf x (phys.toNat / 2 ^ (a + 3) % 8) := by
  rw [low8_eq, byteOf, BitVec.toNat_ushiftRight, BitVec.toNat_and, BitVec.toNat_ushiftRight,
    Nat.shiftRight_eq_div_pow, Nat.shiftRight_eq_div_pow, show (0x38 : Mword).toNat = 0x38 from rfl,
    and_octet]

theorem or_low (n k : Nat) : n ||| (2 ^ k - 1) = n / 2 ^ k * 2 ^ k + (2 ^ k - 1) := by
  have hpos : 0 < 2 ^ k := Nat.two_pow_pos k
  have hr : n % 2 ^ k < 2 ^ k := Nat.mod_lt _ hpos
  have hm : 2 ^ k - 1 < 2 ^ k := by omega
  have hlow : n % 2 ^ k ||| (2 ^ k - 1) = 2 ^ k - 1 := by
    have hle : 2 ^ k - 1 ≤ n % 2 ^ k ||| (2 ^ k - 1) := Nat.right_le_or
    have hlt := Nat.or_lt_two_pow hr hm
    omega
  calc n ||| (2 ^ k - 1) = (2 ^ k * (n / 2 ^ k) + n % 2 ^ k) ||| (2 ^ k - 1) := by rw [Nat.div_add_mod]
    _ = 2 ^ k * (n / 2 ^ k) ||| (n % 2 ^ k ||| (2 ^ k - 1)) := by
      rw [Nat.two_pow_add_eq_or_of_lt hr, Nat.or_assoc]
    _ = n / 2 ^ k * 2 ^ k + (2 ^ k - 1) := by
      rw [hlow, ← Nat.two_pow_add_eq_or_of_lt hm, Nat.mul_comm]

theorem toNat_blockEnd {phys m : Mword} {k : Nat} (hm : m.toNat = 2 ^ k - 1) (hk : k < 63)
    (hp : phys.toNat < 2 ^ 63) : (1 + (phys ||| m)).toNat = (phys.toNat / 2 ^ k + 1) * 2 ^ k := by
  have hpos : 0 < 2 ^ k := Nat.two_pow_pos k
  have hk' : 2 ^ k < 2 ^ 63 := Nat.pow_lt_pow_right (by decide) hk
  have hle : phys.toNat / 2 ^ k * 2 ^ k ≤ phys.toNat := Nat.div_mul_le_self _ _
  rw [BitVec.toNat_add, BitVec.toNat_or, hm, or_low, show (1 : Mword).toNat = 1 from rfl,
    Nat.mod_eq_of_lt (by omega), Nat.add_mul, Nat.one_mul]
  omega

theorem toNat_field (phys m : Mword) (a k : Nat) (hm : m.toNat = 2 ^ k - 1) :
    (phys >>> a &&& m).toNat = phys.toNat / 2 ^ a % 2 ^ k := by
  rw [BitVec.toNat_and, BitVec.toNat_ushiftRight, Nat.shiftRight_eq_div_pow, hm,
    Nat.and_two_pow_sub_one_eq_mod]

end Bits

section Fixed

variable {s : State} {phys : Mword}

theorem memtype_fixed (h : phys.toNat < 0x100000) :
    (memtype s phys).1 = fixedType s phys.toNat ∧ ∃ k, 12 ≤ k ∧
      (memtype s phys).2.toNat = (phys.toNat / 2 ^ k + 1) * 2 ^ k ∧
      ∀ q, q / 2 ^ k = phys.toNat / 2 ^ k → q < 0x100000 ∧ fixedType s q = fixedType s phys.toNat := by
  have h63 : phys.toNat < 2 ^ 63 := by omega
  have h1 : phys < 0x80000 ↔ phys.toNat < 0x80000 := BitVec.lt_def
  have h2 : phys < 0xc0000 ↔ phys.toNat < 0xc0000 := BitVec.lt_def
  have h3 : phys < 0x100000 ↔ phys.toNat < 0x100000 := BitVec.lt_def
  unfold memtype fixedType
  by_cases ha : phys.toNat < 0x80000
  · rw [if_pos (h1.mpr ha), if_pos ha]
    dsimp only
    rw [low8_shift]
    refine ⟨congrArg _ (by omega), 16, by decide, toNat_blockEnd rfl (by decide) h63, fun q hq => ?_⟩
    have hq' : q < 0x80000 := by omega
    rw [if_pos hq']
    exact ⟨by omega, congrArg _ (by omega)⟩
  by_cases hb : phys.toNat < 0xc0000
  · rw [if_neg (h1.not.mpr ha), if_pos (h2.mpr hb), if_neg ha, if_pos hb]
    dsimp only
    rw [low8_shift, toNat_field phys 1 17 1 rfl,
      show phys.toNat / 2 ^ 17 % 2 ^ 1 = (phys.toNat - 0x80000) / 0x20000 by omega]
    refine ⟨congrArg _ (by omega), 14, by decide, toNat_blockEnd rfl (by decide) h63, fun q hq => ?_⟩
    have hq' : ¬q < 0x80000 ∧ q < 0xc0000 := by omega
    rw [if_neg hq'.1, if_pos hq'.2,
      show (q - 0x80000) / 0x20000 = (phys.toNat - 0x80000) / 0x20000 by omega]
    exact ⟨by omega, congrArg _ (by omega)⟩
  · rw [if_neg (h1.not.mpr ha), if_neg (h2.not.mpr hb), if_pos (h3.mpr h), if_neg ha, if_neg hb]
    dsimp only
    rw [low8_shift, toNat_field phys 7 15 3 rfl,
      show phys.toNat / 2 ^ 15 % 2 ^ 3 = (phys.toNat - 0xc0000) / 0x8000 by omega]
    refine ⟨congrArg _ (by omega), 12, by decide, toNat_blockEnd rfl (by decide) h63, fun q hq => ?_⟩
    have hq' : ¬q < 0x80000 ∧ ¬q < 0xc0000 := by omega
    rw [if_neg hq'.1, if_neg hq'.2,
      show (q - 0xc0000) / 0x8000 = (phys.toNat - 0xc0000) / 0x8000 by omega]
    exact ⟨by omega, congrArg _ (by omega)⟩

end Fixed

section Ranges

variable {x : Mtrr} {w k : Nat}

theorem scan_eq {m : Mword} {j n : Nat} (hj : j < n) (hn : n ≤ 64)
    (hm : ∀ i, m.getLsbD i = true ↔ j ≤ i ∧ i < n) : scan m = BitVec.ofNat 64 j := by
  have hbit : m.getLsbD j = true := (hm j).mpr ⟨le_rfl, hj⟩
  have hne : m ≠ 0 := by
    rintro rfl
    simp at hbit
  have hfind : ((List.range 64).find? fun i => m.getLsbD i) = some j := by
    rw [List.find?_range_eq_some]
    refine ⟨hbit, List.mem_range.mpr (by omega), fun i hi => ?_⟩
    have hni : ¬m.getLsbD i = true := fun h => by
      have := ((hm i).mp h).1
      omega
    simpa using hni
  rw [scan, if_neg hne, bitScanForward, hfind, Option.getD_some]

theorem start_getLsbD (x : Mtrr) {i : Nat} (hi : 12 ≤ i) (hlt : i < 64) :
    x.start.getLsbD i = x.base.getLsbD i := by
  have hmask : (0xfff : Mword).getLsbD i = false := by
    rw [← BitVec.testBit_toNat, show (0xfff : Mword).toNat = 2 ^ 12 - 1 from rfl,
      Nat.testBit_two_pow_sub_one]
    simp [hi]
  rw [Mtrr.start, BitVec.getLsbD_and, BitVec.getLsbD_not, hmask]
  simp [hlt]

theorem Mtrr.Fits.size (h : x.Fits w k) (hw : w < 64) : x.size.toNat = 2 ^ k := by
  have hk := h.page
  have hkw := h.lt
  have hbit : x.mask.getLsbD k = true := (h.mask k hk).mpr ⟨le_rfl, hkw⟩
  have hne : x.mask ≠ 0 := by
    rintro he
    simp [he] at hbit
  have hscan : scan (x.mask >>> 12) = BitVec.ofNat 64 (k - 12) := by
    refine @scan_eq _ (k - 12) (w - 12) (by omega) (by omega) fun i => ?_
    rw [BitVec.getLsbD_ushiftRight, h.mask (12 + i) (by omega)]
    omega
  have hk' : (BitVec.ofNat 64 (k - 12) + 12 : Mword).toNat = k := by
    rw [BitVec.toNat_add, BitVec.toNat_ofNat, show (12 : Mword).toNat = 12 from rfl]
    omega
  unfold Mtrr.size
  rw [if_pos hne, hscan, toNat_shl_one (by omega), hk']

theorem Mtrr.Fits.stop_le (h : x.Fits w k) : x.start.toNat + 2 ^ k ≤ 2 ^ w :=
  add_le_of_dvd_of_lt h.aligned (Nat.pow_dvd_pow 2 h.lt.le) h.start_lt

theorem Mtrr.Fits.hits_iff (h : x.Fits w k) (hw : w < 64) (phys : Mword) :
    x.hits phys = true ↔ x.covers (phys.toNat % 2 ^ w) = true := by
  have hbits : x.hits phys = true ↔ ∀ i, k ≤ i → i < w → phys.getLsbD i = x.base.getLsbD i := by
    unfold Mtrr.hits
    rw [beq_iff_eq]
    constructor
    · intro heq i hki hiw
      have hi := congrArg (fun v : Mword => v.getLsbD (i - 12)) heq
      have hp := h.page
      rw [BitVec.getLsbD_ushiftRight, show 12 + (i - 12) = i by omega, BitVec.getLsbD_and,
        (h.mask i (by omega)).mpr ⟨hki, hiw⟩] at hi
      simpa using hi
    · intro hall
      apply BitVec.eq_of_getLsbD_eq
      intro i _
      rw [BitVec.getLsbD_ushiftRight, BitVec.getLsbD_and, BitVec.getLsbD_xor]
      by_cases hm : x.mask.getLsbD (12 + i) = true
      · obtain ⟨h1, h2⟩ := (h.mask (12 + i) (by omega)).mp hm
        simp [hall _ h1 h2]
      · simp [hm]
  have hp := h.page
  have hblock : x.covers (phys.toNat % 2 ^ w) = true ↔ phys.toNat % 2 ^ w / 2 ^ k = x.start.toNat / 2 ^ k := by
    obtain ⟨q, hq⟩ := h.aligned
    have hpos : 0 < 2 ^ k := Nat.two_pow_pos k
    unfold Mtrr.covers
    rw [h.size hw, hq, Nat.mul_div_cancel_left _ hpos, Nat.div_eq_iff hpos, Nat.mul_comm q]
    simp only [Bool.and_eq_true, decide_eq_true_eq]
    omega
  rw [hbits, hblock]
  have htest : ∀ j, (phys.toNat % 2 ^ w / 2 ^ k).testBit j = (decide (k + j < w) && phys.getLsbD (k + j)) := by
    intro j
    rw [← Nat.shiftRight_eq_div_pow, Nat.testBit_shiftRight, Nat.testBit_mod_two_pow,
      BitVec.testBit_toNat]
  have hstart : ∀ j, (x.start.toNat / 2 ^ k).testBit j = (decide (k + j < w) && x.base.getLsbD (k + j)) := by
    intro j
    rw [← Nat.shiftRight_eq_div_pow, Nat.testBit_shiftRight]
    by_cases hj : k + j < w
    · rw [BitVec.testBit_toNat, start_getLsbD x (by omega : 12 ≤ k + j) (by omega)]
      simp [hj]
    · rw [Nat.testBit_lt_two_pow (h.start_lt.trans_le (Nat.pow_le_pow_right two_pos (by omega)))]
      simp [hj]
  constructor
  · intro hall
    apply Nat.eq_of_testBit_eq
    intro j
    rw [htest, hstart]
    by_cases hj : k + j < w
    · rw [hall _ (Nat.le_add_right k j) hj]
    · simp [hj]
  · intro heq i hki hiw
    have hi := congrArg (fun n : Nat => n.testBit (i - k)) heq
    rw [htest, hstart, show k + (i - k) = i by omega] at hi
    simpa [hiw] using hi

theorem Mtrr.Fits.covers_iff (h : x.Fits w k) (hw : w < 64) (p : Nat) :
    x.covers p = true ↔ x.start.toNat ≤ p ∧ p < x.start.toNat + 2 ^ k := by
  simp [Mtrr.covers, h.size hw]

end Ranges

section Loop

variable {s : State} {w : Nat} {phys q : Mword}

def Mtrr.kind (x : Mtrr) (phys : Mword) : Nat :=
  if x.valid && !decide (phys < x.start) && x.hits phys then low8 x.base else noType

/-- What a range has to say about `next`. -/
def Mtrr.stop (x : Mtrr) (phys : Mword) : Mword :=
  if !x.valid then ones
  else if phys < x.start then x.start
  else if x.hits phys then x.start + x.size
  else ones

theorem low8_lt (x : Mword) : low8 x < noType := by
  have : low8 x < 256 := by
    rw [low8_eq]
    exact Nat.mod_lt _ (by decide)
  exact this.trans (by decide)

theorem wmin_ones (n : Mword) : wmin n ones = n := by
  apply BitVec.eq_of_toNat_eq
  rw [toNat_wmin]
  have := n.isLt
  have hones : ones.toNat = 2 ^ 64 - 1 := rfl
  omega

theorem look_eq (x : Mtrr) {r : Nat × Mword} (hr : r.1 ≤ noType) :
    look phys r x = (min r.1 (x.kind phys), wmin r.2 (x.stop phys)) := by
  have hnone : r = (min r.1 noType, wmin r.2 ones) := by
    rw [Nat.min_eq_left hr, wmin_ones]
  unfold look Mtrr.kind Mtrr.stop
  by_cases hv : x.valid = true
  · by_cases hlt : phys < x.start
    · simpa [hv, hlt] using hr
    · by_cases hh : x.hits phys = true
      · simp [hv, hlt, hh]
      · simpa [hv, hlt, hh] using hnone
  · simpa [hv] using hnone

theorem foldl_look (l : List Mtrr) {r : Nat × Mword} (hr : r.1 ≤ noType) :
    l.foldl (look phys) r =
      ((l.map fun x => x.kind phys).foldl min r.1, (l.map fun x => x.stop phys).foldl wmin r.2) := by
  induction l generalizing r with
  | nil => rfl
  | cons x l ih =>
    rw [List.foldl_cons, look_eq x hr, ih ((Nat.min_le_left _ _).trans hr)]
    rfl

theorem foldl_wmin_le (l : List Mword) (n : Mword) :
    (l.foldl wmin n).toNat ≤ n.toNat ∧ ∀ y ∈ l, (l.foldl wmin n).toNat ≤ y.toNat := by
  induction l generalizing n with
  | nil => simp
  | cons a l ih =>
    obtain ⟨h1, h2⟩ := ih (wmin n a)
    rw [toNat_wmin] at h1
    refine ⟨h1.trans (Nat.min_le_left _ _), fun y hy => ?_⟩
    rcases List.mem_cons.mp hy with rfl | hy
    · exact h1.trans (Nat.min_le_right _ _)
    · exact h2 y hy

theorem foldl_wmin_mem (l : List Mword) (n : Mword) : l.foldl wmin n = n ∨ l.foldl wmin n ∈ l := by
  induction l generalizing n with
  | nil => exact Or.inl rfl
  | cons a l ih =>
    rcases ih (wmin n a) with h | h
    · rw [List.foldl_cons, h]
      unfold wmin
      split
      · exact Or.inl rfl
      · exact Or.inr List.mem_cons_self
    · exact Or.inr (List.mem_cons_of_mem _ h)

theorem foldl_min_select {α : Type*} (c : α → Bool) (f : α → Nat) (hf : ∀ x, f x < noType) (l : List α)
    (d : Nat) :
    (if (l.map fun x => if c x then f x else noType).foldl min noType = noType then d
      else (l.map fun x => if c x then f x else noType).foldl min noType)
      = ((l.filter c).map f).min?.getD d := by
  have hfold : ∀ n ≤ noType, (l.map fun x => if c x then f x else noType).foldl min n
      = ((l.filter c).map f).foldl min n := by
    induction l with
    | nil => exact fun _ _ => rfl
    | cons a l ih =>
      intro n hn
      by_cases hc : c a = true
      · simpa [hc] using ih _ ((Nat.min_le_left n (f a)).trans hn)
      · simpa [hc, Nat.min_eq_left hn] using ih n hn
  rw [hfold _ le_rfl]
  cases hL : (l.filter c).map f with
  | nil => simp
  | cons a L =>
    have ha : a < noType := by
      have : a ∈ (l.filter c).map f := by simp [hL]
      obtain ⟨x, -, rfl⟩ := List.mem_map.mp this
      exact hf x
    have hle : ∀ (L : List Nat) (n : Nat), L.foldl min n ≤ n := by
      intro L
      induction L with
      | nil => exact fun _ => le_rfl
      | cons b L ih => exact fun n => (ih _).trans (Nat.min_le_left _ _)
    have hne : L.foldl min a ≠ noType := ((hle L a).trans_lt ha).ne
    rw [List.foldl_cons, Nat.min_eq_right ha.le, if_neg hne, List.min?_cons', Option.getD_some]

theorem memtype_ranges (h : ¬phys.toNat < 0x100000) :
    memtype s phys = (if (s.list.map fun x => x.kind phys).foldl min noType = noType then s.dtype
        else (s.list.map fun x => x.kind phys).foldl min noType,
      (s.list.map fun x => x.stop phys).foldl wmin ones) := by
  have h1 : phys < 0x80000 ↔ phys.toNat < 0x80000 := BitVec.lt_def
  have h2 : phys < 0xc0000 ↔ phys.toNat < 0xc0000 := BitVec.lt_def
  have h3 : phys < 0x100000 ↔ phys.toNat < 0x100000 := BitVec.lt_def
  unfold memtype
  rw [if_neg (h1.not.mpr (by omega)), if_neg (h2.not.mpr (by omega)), if_neg (h3.not.mpr h),
    foldl_look s.list le_rfl]

theorem State.Direct.hits_iff (hs : s.Fits w) (hd : s.Direct w phys.toNat) {x : Mtrr} (hx : x ∈ s.list)
    (hv : x.valid = true) : ¬phys < x.start ∧ x.hits phys = true ↔ x.covers phys.toNat = true := by
  obtain ⟨k, hk⟩ := hs.ranges x hx hv
  have hstop := hk.stop_le
  rw [hk.hits_iff hs.high, BitVec.lt_def]
  by_cases hw : 2 ^ w ≤ phys.toNat
  · rw [hd hw x hx hv, hk.covers_iff hs.high]
    simp only [Bool.false_eq_true, and_false, false_iff]
    omega
  · rw [Nat.mod_eq_of_lt (by omega), hk.covers_iff hs.high]
    omega

theorem kind_eq (hs : s.Fits w) (hd : s.Direct w phys.toNat) {x : Mtrr} (hx : x ∈ s.list) :
    x.kind phys = if x.valid && x.covers phys.toNat then low8 x.base else noType := by
  unfold Mtrr.kind
  by_cases hv : x.valid = true
  · have := hd.hits_iff hs hx hv
    congr 1
    rw [Bool.eq_iff_iff]
    simpa [hv] using this
  · simp [hv]

theorem stop_eq (hs : s.Fits w) (hd : s.Direct w phys.toNat) {x : Mtrr} (hx : x ∈ s.list) :
    x.stop phys = if !x.valid then ones else if phys < x.start then x.start
      else if x.covers phys.toNat then x.start + x.size else ones := by
  unfold Mtrr.stop
  by_cases hv : x.valid = true
  · have := hd.hits_iff hs hx hv
    by_cases hlt : phys < x.start
    · simp [hv, hlt]
    · simp only [hlt, not_false_eq_true, true_and] at this
      simp [hv, hlt, ← this]
  · simp [hv]

theorem Mtrr.Fits.stop_toNat {x : Mtrr} {k : Nat} (h : x.Fits w k) (hw : w < 64) :
    (x.start + x.size).toNat = x.start.toNat + 2 ^ k := by
  have hle := h.stop_le
  have hlt : 2 ^ w < 2 ^ 64 := Nat.pow_lt_pow_right (by decide) hw
  rw [BitVec.toNat_add, h.size hw, Nat.mod_eq_of_lt (by omega)]

/-- What `memtype` is for: the type of the address, up to the next place where it may change. -/
structure Answers (s : State) (phys : Mword) (r : Nat × Mword) : Prop where
  type : r.1 = mtrrType s phys.toNat
  next : phys.toNat < r.2.toNat
  const : ∀ q, phys.toNat ≤ q → q < r.2.toNat → mtrrType s q = mtrrType s phys.toNat
  page : 2 ^ 12 ∣ r.2.toNat ∨ r.2 = ones

theorem answers_fixed (h : phys.toNat < 0x100000) : Answers s phys (memtype s phys) := by
  obtain ⟨htype, k, hk, hnext, hconst⟩ := @memtype_fixed s phys h
  have hpos : 0 < 2 ^ k := Nat.two_pow_pos k
  have hmul := Nat.div_add_mod phys.toNat (2 ^ k)
  have hmod := Nat.mod_lt phys.toNat hpos
  have hend : (phys.toNat / 2 ^ k + 1) * 2 ^ k = 2 ^ k * (phys.toNat / 2 ^ k) + 2 ^ k := by
    rw [Nat.add_mul, Nat.one_mul, Nat.mul_comm]
  have hfix : mtrrType s phys.toNat = fixedType s phys.toNat := if_pos h
  refine ⟨htype.trans hfix.symm, by omega, fun q hq hlt => ?_, Or.inl ?_⟩
  · have hdiv : q / 2 ^ k = phys.toNat / 2 ^ k := by
      rw [Nat.div_eq_iff hpos, Nat.mul_comm]
      omega
    obtain ⟨hlow, hq'⟩ := hconst q hdiv
    rw [hfix, ← hq']
    exact if_pos hlow
  · rw [hnext]
    exact (Nat.pow_dvd_pow 2 hk).trans (Nat.dvd_mul_left _ _)

theorem answers_ranges (hs : s.Fits w) (h : ¬phys.toNat < 0x100000) (hp : phys.toNat < 2 ^ 63)
    (hd : s.Direct w phys.toNat) : Answers s phys (memtype s phys) := by
  have hones : ones.toNat = 2 ^ 64 - 1 := rfl
  obtain ⟨-, hle⟩ := foldl_wmin_le (s.list.map fun x => x.stop phys) ones
  have hstop : ∀ x ∈ s.list, (memtype s phys).2.toNat ≤ (x.stop phys).toNat := by
    intro x hx
    rw [memtype_ranges h]
    exact hle _ (List.mem_map_of_mem hx)
  have hmem : (memtype s phys).2 = ones ∨ ∃ x ∈ s.list, (memtype s phys).2 = x.stop phys := by
    rw [memtype_ranges h]
    rcases foldl_wmin_mem (s.list.map fun x => x.stop phys) ones with he | he
    · exact Or.inl he
    · obtain ⟨x, hx, he⟩ := List.mem_map.mp he
      exact Or.inr ⟨x, hx, he.symm⟩
  refine ⟨?_, ?_, fun q hq hlt => ?_, ?_⟩
  · have hmap : (s.list.map fun x => x.kind phys)
        = s.list.map fun x => if x.valid && x.covers phys.toNat then low8 x.base else noType :=
      List.map_congr_left fun x hx => kind_eq hs hd hx
    rw [memtype_ranges h, hmap, mtrrType, if_neg h]
    exact foldl_min_select (fun x : Mtrr => x.valid && x.covers phys.toNat) _ (fun x => low8_lt x.base) _ _
  · rcases hmem with he | ⟨x, hx, he⟩
    · rw [he]
      omega
    · rw [he, stop_eq hs hd hx]
      by_cases hv : x.valid = true
      · obtain ⟨k, hk⟩ := hs.ranges x hx hv
        by_cases hb : phys < x.start
        · simpa [hv, hb] using BitVec.lt_def.mp hb
        · by_cases hc : x.covers phys.toNat = true
          · simpa [hv, hb, hc, hk.stop_toNat hs.high] using ((hk.covers_iff hs.high _).mp hc).2
          · simp only [hv, hb, hc, Bool.not_true, Bool.false_eq_true, if_false]
            omega
      · simp only [hv, Bool.not_false, if_true]
        omega
  · have hq1 : ¬q < 0x100000 := by omega
    rw [mtrrType, mtrrType, if_neg hq1, if_neg h]
    congr 3
    apply List.filter_congr
    intro x hx
    by_cases hv : x.valid = true
    · obtain ⟨k, hk⟩ := hs.ranges x hx hv
      have hsx := hstop x hx
      rw [stop_eq hs hd hx] at hsx
      rw [hv, Bool.true_and, Bool.true_and, Bool.eq_iff_iff, hk.covers_iff hs.high, hk.covers_iff hs.high]
      by_cases hb : phys < x.start
      · have hb' := BitVec.lt_def.mp hb
        simp only [hv, hb, Bool.not_true, Bool.false_eq_true, if_false, if_true] at hsx
        omega
      · rw [BitVec.lt_def] at hb
        by_cases hc : x.covers phys.toNat = true
        · simp only [hv, BitVec.lt_def, hb, hc, Bool.not_true, Bool.false_eq_true, if_false, if_true,
            hk.stop_toNat hs.high] at hsx
          have := (hk.covers_iff hs.high _).mp hc
          omega
        · rw [hk.covers_iff hs.high] at hc
          omega
    · simp [hv]
  · rcases hmem with he | ⟨x, hx, he⟩
    · exact Or.inr he
    · rw [he, stop_eq hs hd hx]
      by_cases hv : x.valid = true
      · obtain ⟨k, hk⟩ := hs.ranges x hx hv
        have hpage : 2 ^ 12 ∣ x.start.toNat := (Nat.pow_dvd_pow 2 hk.page).trans hk.aligned
        by_cases hb : phys < x.start
        · simpa [hv, hb] using Or.inl hpage
        · by_cases hc : x.covers phys.toNat = true
          · have hend : 2 ^ 12 ∣ (x.start + x.size).toNat := by
              rw [hk.stop_toNat hs.high]
              exact dvd_add hpage (Nat.pow_dvd_pow 2 hk.page)
            simpa [hv, hb, hc] using Or.inl hend
          · simp [hv, hb, hc]
      · simp [hv]

theorem answers (hs : s.Fits w) (hp : phys.toNat < 2 ^ 63) (hd : s.Direct w phys.toNat) :
    Answers s phys (memtype s phys) := by
  by_cases h : phys.toNat < 0x100000
  · exact answers_fixed h
  · exact answers_ranges hs h hp hd

theorem next_le_of_not_direct (hs : s.Fits w) (hd : ¬s.Direct w phys.toNat) :
    (memtype s phys).2.toNat ≤ phys.toNat := by
  unfold State.Direct at hd
  push Not at hd
  obtain ⟨hw, x, hx, hv, hc⟩ := hd
  obtain ⟨k, hk⟩ := hs.ranges x hx hv
  have hlow : 2 ^ 20 ≤ 2 ^ w := Nat.pow_le_pow_right two_pos hs.low
  have hstop := hk.stop_le
  have hpos : 0 < 2 ^ k := Nat.two_pow_pos k
  rw [memtype_ranges (by omega)]
  have hle := (foldl_wmin_le (s.list.map fun x => x.stop phys) ones).2 (x.stop phys)
    (List.mem_map.mpr ⟨x, hx, rfl⟩)
  refine hle.trans ?_
  have hb : ¬phys < x.start := by
    rw [BitVec.lt_def]
    omega
  have hh : x.hits phys = true := by
    rw [hk.hits_iff hs.high]
    simpa using hc
  simp only [Mtrr.stop, hv, hb, hh, Bool.not_true, Bool.false_eq_true, if_false, if_true,
    hk.stop_toNat hs.high]
  omega

end Loop

end Tukija.Memtype
