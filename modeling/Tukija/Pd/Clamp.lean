import Tukija.Pd.State

namespace Tukija.Pd

open Tukija.Lib.Word Tukija.Mapdb

theorem wmin_ne_ones {x y : Mword} (hx : x.toNat < 64) : wmin x y ≠ ones := by
  intro h
  have := congrArg BitVec.toNat h
  rw [toNat_wmin] at this
  have hones : ones.toNat = 2 ^ 64 - 1 := by decide
  omega

theorem clamp_eq_ones_iff {x b ox ob : Mword} (hx : ox.toNat < 64) (hb : ob.toNat < 64) :
    (clamp x b ox ob).1 = ones ↔ ¬SameBlock (max ox.toNat ob.toNat) x b := by
  have hlt : (wmax ox ob).toNat < 64 := by
    rw [toNat_wmax]
    omega
  rw [← toNat_wmax, ← mod_64_eq hlt, ← shr_xor_eq_zero]
  unfold clamp
  split
  · simp_all
  · simp_all [wmin_ne_ones hx]

/-- The common part of a naturally aligned node and a naturally aligned range. -/
structure Part (mdb : Mdb) (base ord b o : Mword) : Prop where
  order : o.toNat = min mdb.nodeOrder.toNat ord.toNat
  aligned : Aligned o.toNat b
  node : SameBlock mdb.nodeOrder.toNat mdb.nodeBase b
  range : SameBlock ord.toNat base b

theorem clamp_part {mdb : Mdb} {base ord : Mword} (hm : mdb.Natural) (ho : ord.toNat < 64)
    (hb : Aligned ord.toNat base)
    (hc : (clamp mdb.nodeBase base mdb.nodeOrder ord).1 ≠ ones) :
    Part mdb base ord (clamp mdb.nodeBase base mdb.nodeOrder ord).2
      (clamp mdb.nodeBase base mdb.nodeOrder ord).1 := by
  have hsame := not_not.mp (mt (clamp_eq_ones_iff hm.order_lt ho).mpr hc)
  have heq : clamp mdb.nodeBase base mdb.nodeOrder ord =
      (wmin mdb.nodeOrder ord, base ||| mdb.nodeBase) := by
    have hlt : (wmax mdb.nodeOrder ord).toNat < 64 := by
      rw [toNat_wmax]
      have := hm.order_lt
      omega
    rw [← toNat_wmax, ← mod_64_eq hlt, ← shr_xor_eq_zero] at hsame
    simp [clamp, hsame]
  rw [heq]
  dsimp only
  by_cases hle : ord.toNat ≤ mdb.nodeOrder.toNat
  · -- the range lies in the node
    rw [max_eq_left hle] at hsame
    rw [or_of_sameBlock hm.base hsame]
    refine ⟨toNat_wmin _ _, ?_, hsame, SameBlock.refl _ _⟩
    rw [toNat_wmin, min_eq_right hle]
    exact hb
  · -- the node lies in the range
    have hle' := Nat.le_of_not_le hle
    rw [max_eq_right hle'] at hsame
    rw [BitVec.or_comm, or_of_sameBlock hb hsame.symm]
    refine ⟨toNat_wmin _ _, ?_, SameBlock.refl _ _, hsame.symm⟩
    rw [toNat_wmin, min_eq_left hle']
    exact hm.base

section Part

variable {mdb : Mdb} {base ord b o : Mword}

theorem Part.order_le (hp : Part mdb base ord b o) :
    o.toNat ≤ mdb.nodeOrder.toNat ∧ o.toNat ≤ ord.toNat := by
  rw [hp.order]
  omega

theorem Part.phys_aligned (hp : Part mdb base ord b o) (hm : mdb.Natural) :
    Aligned o.toNat (b - mdb.nodeBase + mdb.nodePhys) := by
  have hle := hp.order_le.1
  have hlt := hm.order_lt
  exact Aligned.add (by omega) (Aligned.sub (by omega) hp.aligned (hm.base.mono hle))
    (hm.phys.mono hle)

theorem Part.mem (hp : Part mdb base ord b o) (hm : mdb.Natural) (hb : Aligned ord.toNat base)
    {i : Nat} (hi : mdb.nodeBase.toNat ≤ i ∧ i < mdb.top)
    (hr : base.toNat ≤ i ∧ i < base.toNat + 2 ^ ord.toNat) :
    b.toNat ≤ i ∧ i < b.toNat + 2 ^ o.toNat := by
  have hnode := (sameBlock_iff_of_aligned hm.base).mp hp.node
  have hrange := (sameBlock_iff_of_aligned hb).mp hp.range
  by_cases hle : mdb.nodeOrder.toNat ≤ ord.toNat
  · have ho : o.toNat = mdb.nodeOrder.toNat := by
      rw [hp.order]
      omega
    have hal := hp.aligned
    rw [ho] at hal ⊢
    have := (sameBlock_iff_of_aligned hal).mp hp.node.symm
    unfold Mdb.top at hi
    omega
  · have ho : o.toNat = ord.toNat := by
      rw [hp.order]
      omega
    have hal := hp.aligned
    rw [ho] at hal ⊢
    have := (sameBlock_iff_of_aligned hal).mp hp.range.symm
    omega

end Part

/-- Two aligned blocks are in one block of the larger size exactly if they
share an index. -/
theorem sameBlock_max_iff {j k : Nat} {x y : Mword} (hx : Aligned j x) (hy : Aligned k y) :
    SameBlock (max j k) x y ↔
      ∃ i, (x.toNat ≤ i ∧ i < x.toNat + 2 ^ j) ∧ y.toNat ≤ i ∧ i < y.toNat + 2 ^ k := by
  have hj := Nat.two_pow_pos j
  have hk := Nat.two_pow_pos k
  constructor
  · intro h
    by_cases hle : k ≤ j
    · rw [max_eq_left hle, sameBlock_iff_of_aligned hx] at h
      exact ⟨y.toNat, h, le_rfl, by omega⟩
    · rw [max_eq_right (Nat.le_of_not_le hle)] at h
      have := (sameBlock_iff_of_aligned hy).mp h.symm
      exact ⟨x.toNat, ⟨le_rfl, by omega⟩, this⟩
  · rintro ⟨i, hxi, hyi⟩
    rcases Nat.lt_trichotomy x.toNat y.toNat with hlt | heq | hlt
    · have : SameBlock j x y := (sameBlock_iff_of_aligned hx).mpr ⟨hlt.le, by omega⟩
      exact this.mono (Nat.le_max_left _ _)
    · unfold SameBlock
      rw [heq]
    · have : SameBlock k y x := (sameBlock_iff_of_aligned hy).mpr ⟨hlt.le, by omega⟩
      exact this.symm.mono (Nat.le_max_right _ _)

/-- The node `x` has an index in the range `(base, ord)`. -/
def Meeting (x : Mdb) (base ord : Mword) : Prop :=
  ∃ i, (x.nodeBase.toNat ≤ i ∧ i < x.top) ∧ base.toNat ≤ i ∧ i < base.toNat + 2 ^ ord.toNat

theorem clamp_ne_ones_iff {x : Mdb} {base ord : Mword} (hx : x.Natural) (ho : ord.toNat < 64)
    (hb : Aligned ord.toNat base) :
    (clamp x.nodeBase base x.nodeOrder ord).1 ≠ ones ↔ Meeting x base ord := by
  rw [ne_eq, clamp_eq_ones_iff hx.order_lt ho, not_not, sameBlock_max_iff hx.base hb]
  rfl

/-- The node `y` holds a physical index that `x` has in the range `(base, ord)`. -/
def FromPart (x : Mdb) (base ord : Mword) (y : Mdb) : Prop :=
  ∃ i, (x.nodeBase.toNat ≤ i ∧ i < x.top) ∧
    (base.toNat ≤ i ∧ i < base.toNat + 2 ^ ord.toNat) ∧
    y.nodePhys.toNat ≤ i - x.nodeBase.toNat + x.nodePhys.toNat ∧
    i - x.nodeBase.toNat + x.nodePhys.toNat < y.nodePhys.toNat + 2 ^ y.nodeOrder.toNat

end Tukija.Pd
