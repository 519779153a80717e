import Tukija.Lib.Bytes
import Tukija.Slabs.Runs

/-! Where the objects of a slab are.  Each one has a buffer, with the link of the
free list behind the object; the first buffer ends where the page does. -/
namespace Tukija.Slabs

open Tukija.Lib.Word Tukija.Lib.Bytes

def alignUp (val align : Mword) : Mword := (val + (align - 1)) &&& ~~~(align - 1)

def pageSize : Nat := 4096

/-- `sizeof (Slab)`. -/
def headerSize : Nat := 40

def pageAddr (s : Nat) : Nat := s * pageSize

theorem pageAddr_step {s t : Nat} (h : s < t) : pageAddr s + pageSize ≤ pageAddr t := by
  unfold pageAddr
  rw [← Nat.succ_mul]
  exact Nat.mul_le_mul_right _ h

/-- The part of `class Slab_cache` that does not change. -/
structure Geometry where
  size : Mword
  buff : Mword
  elem : Mword

/-- `Slab_cache::Slab_cache`. -/
def Geometry.ofElem (elemSize : Mword) (elemAlign : BitVec 32) : Geometry :=
  let size := alignUp elemSize 8
  let buff := alignUp (size + 8) (elemAlign.setWidth 64)
  ⟨size, buff, BitVec.ofNat 64 (pageSize - headerSize) / buff⟩

namespace Geometry

variable {g : Geometry} {elemSize s e k : Nat} {o p : Obj}

def objAddr (g : Geometry) (o : Obj) : Nat := pageAddr o.1 + pageSize - (o.2 + 1) * g.buff.toNat

def linkAddr (g : Geometry) (o : Obj) : Nat := g.objAddr o + g.size.toNat

/-- A buffer has room for the object and its link, and the page for the header
and the buffers. -/
structure Fits (g : Geometry) (elemSize : Nat) : Prop where
  size : elemSize ≤ g.size.toNat
  link : g.size.toNat + 8 ≤ g.buff.toNat
  elems : g.elem.toNat * g.buff.toNat + headerSize ≤ pageSize

theorem toNat_alignUp (val : Mword) (hk : k ≤ 12) :
    (alignUp val (BitVec.ofNat 64 (2 ^ k))).toNat = (val.toNat + (2 ^ k - 1)) % 2 ^ 64 / 2 ^ k * 2 ^ k := by
  have hpow : 2 ^ k < 2 ^ 64 := Nat.pow_lt_pow_right (by decide) (by omega)
  have hpos : 0 < 2 ^ k := Nat.two_pow_pos k
  have hmask : (BitVec.ofNat 64 (2 ^ k) - 1 : Mword) = BitVec.ofNat 64 (2 ^ k - 1) := by
    apply BitVec.eq_of_toNat_eq
    rw [BitVec.toNat_sub, BitVec.toNat_ofNat, BitVec.toNat_ofNat, Nat.mod_eq_of_lt hpow]
    change (2 ^ 64 - 1 + 2 ^ k) % 2 ^ 64 = _
    omega
  have hclear : ∀ x : Mword, x &&& ~~~BitVec.ofNat 64 (2 ^ k - 1) = (x >>> k) <<< k := by
    intro x
    refine BitVec.eq_of_getLsbD_eq fun i hi => ?_
    simp only [BitVec.getLsbD_and, BitVec.getLsbD_not, BitVec.getLsbD_shiftLeft, BitVec.getLsbD_ofNat,
      Nat.testBit_two_pow_sub_one, hi, decide_true, Bool.true_and]
    by_cases h : i < k
    · simp [h]
    · simp only [h, decide_false, Bool.not_false, Bool.and_true, Bool.true_and, BitVec.getLsbD_ushiftRight]
      rw [Nat.add_sub_cancel' (by omega)]
  have hle := Nat.div_mul_le_self ((val.toNat + (2 ^ k - 1)) % 2 ^ 64) (2 ^ k)
  unfold alignUp
  rw [hmask, hclear, BitVec.toNat_shiftLeft, BitVec.toNat_ushiftRight, BitVec.toNat_add, BitVec.toNat_ofNat,
    Nat.shiftLeft_eq, Nat.shiftRight_eq_div_pow, Nat.mod_eq_of_lt (by omega : 2 ^ k - 1 < 2 ^ 64)]
  exact Nat.mod_eq_of_lt (by omega)

theorem fits_ofElem {elemSize : Mword} {elemAlign : BitVec 32} (hs : elemSize.toNat ≤ 2 ^ 64 - 8)
    (ha : elemAlign.toNat ∣ pageSize) (he : 1 ≤ (ofElem elemSize elemAlign).elem.toNat) :
    (ofElem elemSize elemAlign).Fits elemSize.toNat ∧ elemAlign.toNat ∣ (ofElem elemSize elemAlign).buff.toNat := by
  obtain ⟨k, hk, hak⟩ := (Nat.dvd_prime_pow Nat.prime_two (m := 12)).mp ha
  have halign : (elemAlign.setWidth 64 : Mword) = BitVec.ofNat 64 (2 ^ k) := by
    apply BitVec.eq_of_toNat_eq
    rw [BitVec.toNat_setWidth, hak, BitVec.toNat_ofNat]
  have hpow : 2 ^ k ≤ 2 ^ 12 := Nat.pow_le_pow_right (by decide) hk
  have hpos : 0 < 2 ^ k := Nat.two_pow_pos k
  have hsize : (ofElem elemSize elemAlign).size.toNat = (elemSize.toNat + 7) / 8 * 8 := by
    have := toNat_alignUp (k := 3) elemSize (by decide)
    rw [Nat.mod_eq_of_lt (by omega)] at this
    exact this
  have hbuff : (ofElem elemSize elemAlign).buff.toNat =
      (((ofElem elemSize elemAlign).size.toNat + 8) % 2 ^ 64 + (2 ^ k - 1)) % 2 ^ 64 / 2 ^ k * 2 ^ k := by
    change (alignUp ((ofElem elemSize elemAlign).size + 8) (elemAlign.setWidth 64)).toNat = _
    rw [halign, toNat_alignUp _ hk, BitVec.toNat_add]
    rfl
  have helem : (ofElem elemSize elemAlign).elem.toNat = 4056 / (ofElem elemSize elemAlign).buff.toNat :=
    BitVec.toNat_udiv
  generalize ofElem elemSize elemAlign = g at *
  have hle : 1 ≤ g.buff.toNat ∧ g.buff.toNat ≤ 4056 := by
    rw [helem] at he
    exact Nat.div_pos_iff.mp he
  have hdiv := Nat.div_mul_le_self 4056 g.buff.toNat
  have hdvd : 2 ^ k ∣ g.buff.toNat := by
    rw [hbuff]
    exact Nat.dvd_mul_left ..
  -- a sum that wraps around is rounded down to zero
  have hlink : g.size.toNat + 8 ≤ g.buff.toNat := by
    have hdown := Nat.div_mul_le_self (((g.size.toNat + 8) % 2 ^ 64 + (2 ^ k - 1)) % 2 ^ 64) (2 ^ k)
    have hup := Nat.lt_div_mul_add (a := ((g.size.toNat + 8) % 2 ^ 64 + (2 ^ k - 1)) % 2 ^ 64) hpos
    rw [← hbuff] at hdown hup
    have hnz : ¬((g.size.toNat + 8) % 2 ^ 64 + (2 ^ k - 1)) % 2 ^ 64 < 2 ^ k := fun h => by
      rw [Nat.div_eq_of_lt h] at hbuff
      omega
    omega
  refine ⟨⟨by omega, hlink, ?_⟩, hak ▸ hdvd⟩
  · rw [helem]
    unfold headerSize pageSize
    omega

theorem Fits.offset_le (h : g.Fits k) (he : e < g.elem.toNat) : (e + 1) * g.buff.toNat + headerSize ≤ pageSize :=
  (Nat.add_le_add_right (Nat.mul_le_mul_right _ he) _).trans h.elems

theorem Fits.buff_inside (h : g.Fits k) (he : o.2 < g.elem.toNat) :
    pageAddr o.1 + headerSize ≤ g.objAddr o ∧ g.objAddr o + g.buff.toNat ≤ pageAddr o.1 + pageSize := by
  have hoff := h.offset_le he
  have hpos : g.buff.toNat ≤ (o.2 + 1) * g.buff.toNat := Nat.le_mul_of_pos_left _ o.2.succ_pos
  simp only [objAddr, pageAddr, pageSize, headerSize] at *
  omega

theorem Fits.buff_apart (h : g.Fits k) (he : o.2 < g.elem.toNat) (he' : p.2 < g.elem.toNat) (hne : o ≠ p) :
    Apart (g.objAddr o) g.buff.toNat (g.objAddr p) g.buff.toNat := by
  have hin := h.buff_inside he
  have hin' := h.buff_inside he'
  have hoff := h.offset_le he
  have hoff' := h.offset_le he'
  obtain ⟨s, e⟩ := o
  obtain ⟨s', e'⟩ := p
  have hstep : ∀ i j, i < j → (i + 1) * g.buff.toNat + g.buff.toNat ≤ (j + 1) * g.buff.toNat := by
    intro i j hij
    rw [← Nat.succ_mul]
    exact Nat.mul_le_mul_right _ (by omega)
  unfold Apart
  dsimp only at hin hin' hoff hoff'
  rcases Nat.lt_trichotomy s s' with hs | rfl | hs
  · have := pageAddr_step hs
    omega
  · simp only [objAddr] at *
    rcases Nat.lt_trichotomy e e' with he | rfl | he
    · have := hstep e e' he
      omega
    · exact absurd rfl hne
    · have := hstep e' e he
      omega
  · have := pageAddr_step hs
    omega

theorem Fits.link_apart (h : g.Fits k) (he : o.2 < g.elem.toNat) (he' : p.2 < g.elem.toNat) (hne : o ≠ p) :
    Apart (g.linkAddr o) 8 (g.linkAddr p) 8 := by
  have hb := h.buff_apart he he' hne
  have hlink := h.link
  unfold linkAddr
  unfold Apart at *
  omega

theorem Fits.obj_link (h : g.Fits k) (he : o.2 < g.elem.toNat) (he' : p.2 < g.elem.toNat) :
    Apart (g.objAddr o) k (g.linkAddr p) 8 := by
  have hlink := h.link
  have hsize := h.size
  unfold linkAddr
  by_cases hoo : o = p
  · subst hoo
    exact .inl (Nat.add_le_add_left hsize _)
  · have hb := h.buff_apart he he' hoo
    unfold Apart at *
    omega

/-- The objects that callers have are aligned, each of them lies in its page behind
the header, and none overlaps another one or a link. -/
structure Placed (g : Geometry) (elemSize elemAlign : Nat) (c : Cache) : Prop where
  aligned : ∀ o ∈ c.live, elemAlign ∣ g.objAddr o
  inside : ∀ o ∈ c.live, pageAddr o.1 + headerSize ≤ g.objAddr o ∧ g.objAddr o + elemSize ≤ pageAddr o.1 + pageSize
  apart : ∀ o ∈ c.live, ∀ o' ∈ c.live, o ≠ o' →
    Apart (g.objAddr o) elemSize (g.objAddr o') elemSize ∧ g.objAddr o ≠ g.objAddr o'
  links : ∀ o ∈ c.live, ∀ s ∈ c.pages, ∀ e < g.elem.toNat, Apart (g.objAddr o) elemSize (g.linkAddr (s, e)) 8

theorem Fits.placed {c : Cache} {elemAlign : Nat} (h : g.Fits k) (hb : elemAlign ∣ g.buff.toNat)
    (hp : elemAlign ∣ pageSize) (hl : ∀ o ∈ c.live, o.2 < g.elem.toNat) : g.Placed k elemAlign c := by
  have hlink := h.link
  have hsize := h.size
  refine ⟨fun o ho => ?_, fun o ho => ?_, fun o ho o' ho' hne => ?_, fun o ho s _ e he => h.obj_link (hl o ho) he⟩
  · exact Nat.dvd_sub ((Dvd.dvd.mul_left hp _).add hp) (Dvd.dvd.mul_left hb _)
  · have := h.buff_inside (hl o ho)
    omega
  · have hap := h.buff_apart (hl o ho) (hl o' ho') hne
    refine ⟨hap.mono (by omega) (by omega), fun heq => ?_⟩
    unfold Apart at hap
    omega

end Geometry

end Tukija.Slabs
