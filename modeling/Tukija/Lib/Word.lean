import Mathlib

/-! 64-bit machine words as an x86 compiler sees them, and the naturally
aligned power-of-two blocks that index arithmetic on such words describes. -/
namespace Tukija.Lib.Word

/-! The numerals of `Fin 1` and `Fin 2`. -/

instance one_neZero : NeZero 1 := ⟨by decide⟩

instance two_neZero : NeZero 2 := ⟨by decide⟩

abbrev Mword := BitVec 64

def ones : Mword := BitVec.allOnes 64

/-- `x >> c`: the processor looks at the low six bits of the count only. -/
def shr (x c : Mword) : Mword := x >>> (c.toNat % 64)

/-- `x << c`, with the same treatment of the count. -/
def shl (x c : Mword) : Mword := x <<< (c.toNat % 64)

/-- `v1 > v2 ? v1 : v2`. -/
def wmax (x y : Mword) : Mword := if y < x then x else y

/-- `v1 < v2 ? v1 : v2`. -/
def wmin (x y : Mword) : Mword := if x < y then x else y

@[simp] theorem toNat_wmax (x y : Mword) : (wmax x y).toNat = max x.toNat y.toNat := by
  unfold wmax
  split
  · rename_i h
    exact (Nat.max_eq_left (BitVec.lt_def.mp h).le).symm
  · rename_i h
    exact (Nat.max_eq_right (Nat.le_of_not_lt fun h' => h (BitVec.lt_def.mpr h'))).symm

@[simp] theorem toNat_wmin (x y : Mword) : (wmin x y).toNat = min x.toNat y.toNat := by
  unfold wmin
  split
  · rename_i h
    exact (Nat.min_eq_left (BitVec.lt_def.mp h).le).symm
  · rename_i h
    exact (Nat.min_eq_right (Nat.le_of_not_lt fun h' => h (BitVec.lt_def.mpr h'))).symm

/-- The two indices lie in one aligned block of `2 ^ k`. -/
def SameBlock (k : Nat) (x y : Mword) : Prop := x.toNat / 2 ^ k = y.toNat / 2 ^ k

instance (k : Nat) (x y : Mword) : Decidable (SameBlock k x y) :=
  inferInstanceAs (Decidable (_ = _))

/-- The low `k` bits are clear. -/
def Aligned (k : Nat) (x : Mword) : Prop := 2 ^ k ∣ x.toNat

instance (k : Nat) (x : Mword) : Decidable (Aligned k x) :=
  inferInstanceAs (Decidable (_ ∣ _))

theorem SameBlock.refl (k : Nat) (x : Mword) : SameBlock k x x := rfl

theorem SameBlock.symm {k : Nat} {x y : Mword} (h : SameBlock k x y) : SameBlock k y x :=
  Eq.symm h

theorem SameBlock.trans {k : Nat} {x y z : Mword} (h : SameBlock k x y)
    (h' : SameBlock k y z) : SameBlock k x z :=
  Eq.trans h h'

theorem SameBlock.mono {j k : Nat} {x y : Mword} (hjk : j ≤ k) (h : SameBlock j x y) :
    SameBlock k x y := by
  obtain ⟨d, rfl⟩ := Nat.exists_eq_add_of_le hjk
  unfold SameBlock at h ⊢
  rw [Nat.pow_add, ← Nat.div_div_eq_div_mul, ← Nat.div_div_eq_div_mul, h]

theorem Aligned.mono {j k : Nat} {x : Mword} (hjk : j ≤ k) (h : Aligned k x) : Aligned j x :=
  (Nat.pow_dvd_pow 2 hjk).trans h

theorem aligned_zero (x : Mword) : Aligned 0 x := by simp [Aligned]

theorem sameBlock_iff_of_aligned {k : Nat} {x y : Mword} (hx : Aligned k x) :
    SameBlock k x y ↔ x.toNat ≤ y.toNat ∧ y.toNat < x.toNat + 2 ^ k := by
  obtain ⟨q, hq⟩ := hx
  have hpos : 0 < 2 ^ k := Nat.two_pow_pos k
  unfold SameBlock
  rw [hq, Nat.mul_div_cancel_left _ hpos, eq_comm, Nat.div_eq_iff hpos, Nat.mul_comm q]
  omega

theorem add_le_of_not_sameBlock {j k : Nat} {x y : Mword} (hx : Aligned j x)
    (hlt : x.toNat < y.toNat) (h : ¬SameBlock (max j k) x y) : x.toNat + 2 ^ j ≤ y.toNat := by
  by_contra hcon
  have hj : SameBlock j x y := (sameBlock_iff_of_aligned hx).mpr ⟨hlt.le, by omega⟩
  exact h (hj.mono (Nat.le_max_left j k))

theorem xor_shiftRight_eq_zero (x y : Mword) (k : Nat) :
    (x ^^^ y) >>> k = 0 ↔ SameBlock k x y := by
  unfold SameBlock
  rw [← BitVec.toNat_inj, BitVec.toNat_ushiftRight, BitVec.toNat_xor,
    Nat.shiftRight_xor_distrib, Nat.shiftRight_eq_div_pow, Nat.shiftRight_eq_div_pow]
  simp

theorem shr_xor_eq_zero (x y c : Mword) :
    shr (x ^^^ y) c = 0 ↔ SameBlock (c.toNat % 64) x y :=
  xor_shiftRight_eq_zero x y _

theorem mod_64_eq {c : Mword} (h : c.toNat < 64) : c.toNat % 64 = c.toNat :=
  Nat.mod_eq_of_lt h

theorem toNat_shl_one {c : Mword} (h : c.toNat < 64) : (shl 1 c).toNat = 2 ^ c.toNat := by
  unfold shl
  rw [mod_64_eq h, BitVec.toNat_shiftLeft, Nat.shiftLeft_eq,
    show (1 : Mword).toNat = 1 from rfl, one_mul]
  exact Nat.mod_eq_of_lt (Nat.pow_lt_pow_right (by decide) h)

theorem or_of_sameBlock {k : Nat} {x y : Mword} (hy : Aligned k y) (h : SameBlock k y x) :
    x ||| y = x := by
  obtain ⟨q, hq⟩ := hy
  have hq' : x.toNat / 2 ^ k = q := by
    rw [← h, hq, Nat.mul_div_cancel_left _ (Nat.two_pow_pos k)]
  have hx : x.toNat = 2 ^ k * q + x.toNat % 2 ^ k := by
    rw [← hq', Nat.div_add_mod]
  apply BitVec.eq_of_toNat_eq
  rw [BitVec.toNat_or, hq]
  conv_lhs => rw [hx]
  conv_rhs => rw [hx]
  have hr : x.toNat % 2 ^ k < 2 ^ k := Nat.mod_lt _ (Nat.two_pow_pos k)
  rw [Nat.two_pow_add_eq_or_of_lt hr, Nat.or_comm, ← Nat.or_assoc, Nat.or_self]

theorem Aligned.add {k : Nat} {x y : Mword} (hk : k ≤ 64) (hx : Aligned k x) (hy : Aligned k y) :
    Aligned k (x + y) := by
  unfold Aligned
  rw [BitVec.toNat_add]
  exact (Nat.dvd_mod_iff (Nat.pow_dvd_pow 2 hk)).mpr (Nat.dvd_add hx hy)

theorem Aligned.sub {k : Nat} {x y : Mword} (hk : k ≤ 64) (hx : Aligned k x) (hy : Aligned k y) :
    Aligned k (x - y) := by
  have hpow : 2 ^ k ∣ 2 ^ 64 := Nat.pow_dvd_pow 2 hk
  unfold Aligned
  rw [BitVec.toNat_sub]
  exact (Nat.dvd_mod_iff hpow).mpr (Nat.dvd_add (Nat.dvd_sub hpow hy) hx)

theorem add_le_of_dvd_of_lt {d x y : Nat} (hx : d ∣ x) (hy : d ∣ y) (h : x < y) : x + d ≤ y := by
  obtain ⟨p, rfl⟩ := hx
  obtain ⟨q, rfl⟩ := hy
  have hpq : p < q := Nat.lt_of_mul_lt_mul_left h
  calc d * p + d = d * (p + 1) := by ring
    _ ≤ d * q := Nat.mul_le_mul_left _ hpq

theorem Aligned.add_le {k : Nat} {x : Mword} (hk : k ≤ 64) (hx : Aligned k x) :
    x.toNat + 2 ^ k ≤ 2 ^ 64 := by
  exact add_le_of_dvd_of_lt hx (Nat.pow_dvd_pow 2 hk) x.isLt

theorem toNat_rebase {k : Nat} {x y b : Mword} (hk : k ≤ 64) (hx : Aligned k x)
    (hy : Aligned k y) (h : SameBlock k x b) :
    (b - x + y).toNat = b.toNat - x.toNat + y.toNat := by
  have hb := (sameBlock_iff_of_aligned hx).mp h
  have hle := hy.add_le hk
  have hlt := b.isLt
  have hsub : (b - x).toNat = b.toNat - x.toNat := BitVec.toNat_sub_of_le (BitVec.le_def.mpr hb.1)
  rw [BitVec.toNat_add, hsub]
  exact Nat.mod_eq_of_lt (by omega)

theorem sameBlock_rebase {k : Nat} {x y b : Mword} (hk : k ≤ 64) (hx : Aligned k x)
    (hy : Aligned k y) (h : SameBlock k x b) : SameBlock k y (b - x + y) := by
  have hb := (sameBlock_iff_of_aligned hx).mp h
  rw [sameBlock_iff_of_aligned hy, toNat_rebase hk hx hy h]
  omega

theorem Aligned.or_eq_add {k : Nat} {x y : Mword} (hx : Aligned k x) (hy : y.toNat < 2 ^ k) :
    x ||| y = x + y := by
  obtain ⟨q, hq⟩ := hx
  have hor : (x ||| y).toNat = x.toNat + y.toNat := by
    rw [BitVec.toNat_or, hq, Nat.two_pow_add_eq_or_of_lt hy]
  apply BitVec.eq_of_toNat_eq
  rw [BitVec.toNat_add, ← hor]
  exact (Nat.mod_eq_of_lt (x ||| y).isLt).symm

theorem and_not_zero (x : Mword) : x &&& ~~~0 = x := by
  rw [show ~~~(0 : Mword) = BitVec.allOnes 64 from rfl]
  exact BitVec.and_allOnes

end Tukija.Lib.Word
