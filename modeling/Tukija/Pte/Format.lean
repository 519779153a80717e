import Mathlib.Tactic

/-! The formats of page-table entries. -/
namespace Tukija.Pte

def pageBits : Nat := 12

/-- What a class that is derived from `Pte` tells about its entries: the width of
a word, the template arguments and the functions that read and write fields. -/
structure Format where
  w : Nat
  L : Nat
  B : Nat
  lev : Bool
  pteN : BitVec w
  super : BitVec w → Nat → Bool
  pteS : Nat → BitVec w
  order : BitVec w → Nat
  orderOf : Nat → BitVec w
  addr : BitVec w → BitVec w

abbrev Format.Word (F : Format) := BitVec F.w

/-- `~PAGE_MASK`. -/
def frameMask (w : Nat) : BitVec w := ~~~(BitVec.ofNat w (2 ^ pageBits - 1))

namespace Format

/-- `HPT_NX`. -/
def nx : BitVec 64 := 0x8000000000000000

/-- The end of `Hpt::addr`: bit 63 is made equal to bit 62. -/
def canonical (paddr : BitVec 64) : BitVec 64 :=
  if (paddr &&& nx != 0#64) != (paddr &&& (nx >>> 1) != 0#64) then
    if paddr &&& nx != 0#64 then (~~~0#64 ^^^ nx) &&& paddr else nx ||| paddr
  else paddr

/-- `Hpt` on a processor of 64 bits. -/
abbrev hpt : Format where
  w := 64
  L := 4
  B := 9
  lev := false
  pteN := 0x27
  super val _ := val &&& 0x80 != 0
  pteS l := if l = 0 then 0 else 0x80
  order _ := pageBits
  orderOf _ := 0
  addr val := canonical (val &&& frameMask 64)

/-- `Hpt` on a processor of 32 bits. -/
abbrev hpt32 : Format where
  w := 32
  L := 2
  B := 10
  lev := false
  pteN := 0x27
  super val _ := val &&& 0x80 != 0
  pteS l := if l = 0 then 0 else 0x80
  order _ := pageBits
  orderOf _ := 0
  addr val := val &&& frameMask 32

abbrev ept : Format where
  w := 64
  L := 4
  B := 9
  lev := false
  pteN := 0x7
  super val _ := val &&& 0x80 != 0
  pteS l := if l = 0 then 0 else 0x80
  order val := pageBits + ((val >>> 8) &&& 0xf).toNat
  orderOf o := BitVec.ofNat 64 o <<< 8
  addr val := val &&& frameMask 64

abbrev dpt : Format where
  w := 64
  L := 4
  B := 9
  lev := false
  pteN := 0x3
  super val _ := val &&& 0x80 != 0
  pteS l := if l = 0 then 0 else 0x80
  order _ := pageBits
  orderOf _ := 0
  addr val := val &&& frameMask 64

abbrev ipt : Format where
  w := 64
  L := 4
  B := 9
  lev := true
  pteN := 0x6000000000000001
  super val l := l != 0 && (val >>> 9) &&& 0x7 == 0
  pteS _ := 0
  order _ := pageBits
  orderOf _ := 0
  addr val := (val &&& frameMask 64) &&& 0xfffffffffffff

variable (F : Format)

/-- What `update` adds to an address. -/
def flags (a : F.Word) (l k : Nat) : F.Word := F.orderOf k ||| F.pteS l ||| a

/-- What `walk` writes for a new table, on level `l`. -/
def pointer (q : F.Word) (l : Nat) : F.Word :=
  q ||| (if l = F.L then 0 else F.pteN) ||| (if F.lev then BitVec.ofNat F.w l <<< 9 else 0)

end Format

/-- How a format divides its words: `field` holds addresses and `attrs` the
attributes that a caller may ask for; `extra` is how much of its order an entry
tells. -/
structure Layout (F : Format) where
  field : F.Word
  attrs : F.Word
  extra : Nat → Nat
  room : F.L * F.B + pageBits ≤ F.w
  base : F.B ≠ 0
  depth : F.L ≠ 0
  apart : ∀ {a l k}, a &&& attrs = a → k < F.B → field &&& F.flags a l k = 0
  addr_leaf : ∀ {p a l k}, p &&& field = p → a &&& attrs = a → k < F.B →
    F.addr (p ||| F.flags a l k) = p
  super_leaf : ∀ {p a l k}, p &&& field = p → a &&& attrs = a → k < F.B → l ≠ 0 →
    F.super (p ||| F.flags a l k) l = true
  order_leaf : ∀ {p a l k}, p &&& field = p → a &&& attrs = a → k < F.B →
    F.order (p ||| F.flags a l k) = pageBits + extra k
  extra_le : ∀ k, extra k ≤ k
  low : field &&& BitVec.ofNat F.w (2 ^ pageBits - 1) = 0
  addr_pointer : ∀ {q l}, q &&& field = q → l ≤ F.L → F.addr (F.pointer q l) = q
  super_pointer : ∀ {q l}, q &&& field = q → l ≠ 0 → l ≤ F.L → F.super (F.pointer q l) l = false

section Masks

variable {w : Nat} {x y m c : BitVec w}

theorem and_eq_zero_of_field (h : x &&& m = x) (hm : m &&& c = 0#w) : x &&& c = 0#w := by
  rw [← h, BitVec.and_assoc, hm, BitVec.and_zero]

theorem and_eq_self_of_field (h : x &&& m = x) (hm : m &&& c = m) : x &&& c = x := by
  rw [← h, BitVec.and_assoc, hm]

theorem or_and_of_left (hx : x &&& c = x) (hy : y &&& c = 0#w) : (x ||| y) &&& c = x := by
  rw [BitVec.and_or_distrib_right, hx, hy, BitVec.or_zero]

theorem or_and_of_right (hx : x &&& c = 0#w) : (x ||| y) &&& c = y &&& c := by
  rw [BitVec.and_or_distrib_right, hx, BitVec.zero_or]

theorem or_and_eq_zero (hx : x &&& c = 0#w) (hy : y &&& c = 0#w) : (x ||| y) &&& c = 0#w := by
  rw [or_and_of_right hx, hy]

theorem ite_and_eq_zero {P : Prop} [Decidable P] (hx : x &&& c = 0#w) (hy : y &&& c = 0#w) :
    (if P then x else y) &&& c = 0#w := by
  split <;> assumption

theorem pointer_and_of_left (L l : Nat) (n : BitVec w) (hx : x &&& m = x) (hm : m &&& c = m)
    (hn : n &&& c = 0#w) : ((x ||| if l = L then 0#w else n) ||| 0#w) &&& c = x := by
  rw [BitVec.or_zero]
  exact or_and_of_left (and_eq_self_of_field hx hm) (ite_and_eq_zero BitVec.zero_and hn)

theorem pointer_and_eq_zero (L l : Nat) (n : BitVec w) (hx : x &&& m = x) (hm : m &&& c = 0#w)
    (hn : n &&& c = 0#w) : ((x ||| if l = L then 0#w else n) ||| 0#w) &&& c = 0#w := by
  rw [BitVec.or_zero]
  exact or_and_eq_zero (and_eq_zero_of_field hx hm) (ite_and_eq_zero BitVec.zero_and hn)

theorem superpage_and_ne_zero {s : BitVec w} {l : Nat} (hs : s &&& s ≠ 0#w) (hl : l ≠ 0)
    (x o z : BitVec w) : (x ||| (o ||| (if l = 0 then 0#w else s) ||| z)) &&& s ≠ 0#w := by
  rw [if_neg hl]
  intro h
  simp only [BitVec.and_or_distrib_right, BitVec.or_eq_zero_iff] at h
  exact hs h.2.1.2

end Masks

namespace Layout

def hpt32 : Layout Format.hpt32 where
  field := 0xfffff000
  attrs := 0xfff
  extra _ := 0
  room := by decide
  base := by decide
  depth := by decide
  apart := by
    intro (a : BitVec 32) l k ha _
    rw [BitVec.and_comm]
    exact or_and_eq_zero (or_and_eq_zero BitVec.zero_and (ite_and_eq_zero (by decide) (by decide)))
      (and_eq_zero_of_field ha (by decide))
  addr_leaf := by
    intro (p : BitVec 32) (a : BitVec 32) l k hp ha _
    exact or_and_of_left (and_eq_self_of_field hp (by decide))
      (or_and_eq_zero (or_and_eq_zero BitVec.zero_and (ite_and_eq_zero (by decide) (by decide)))
        (and_eq_zero_of_field ha (by decide)))
  super_leaf := by
    intro (p : BitVec 32) (a : BitVec 32) l k hp ha _ hl
    exact bne_iff_ne.mpr (superpage_and_ne_zero (by decide) hl p _ a)
  order_leaf := fun _ _ _ => rfl
  extra_le := fun _ => Nat.zero_le _
  low := by decide
  addr_pointer := by
    intro (q : BitVec 32) l hq _
    exact pointer_and_of_left 2 l 0x27 hq (by decide) (by decide)
  super_pointer := by
    intro (q : BitVec 32) l hq _ _
    exact bne_eq_false_iff_eq.mpr (pointer_and_eq_zero 2 l 0x27 hq (by decide) (by decide))

section Ept

variable {p a : BitVec 64} {l k : Nat}

theorem ept_orderOf_and (hk : k < 9) : (BitVec.ofNat 64 k <<< 8) &&& frameMask 64 = 0#64 := by
  interval_cases k <;> decide

theorem ept_order (hp : p &&& 0xfffffffffffff000 = p) (ha : a &&& 0xff = a) (hk : k < 9) :
    (((p ||| (BitVec.ofNat 64 k <<< 8 ||| (if l = 0 then 0 else 0x80) ||| a)) >>> 8) &&& 0xf).toNat =
      k := by
  have hp0 : p &&& 0xf00 = 0#64 := and_eq_zero_of_field hp (by decide)
  have ha0 : a &&& 0xf00 = 0#64 := and_eq_zero_of_field ha (by decide)
  have hs0 : (if l = 0 then (0 : BitVec 64) else 0x80) &&& 0xf00 = 0#64 :=
    ite_and_eq_zero (by decide) (by decide)
  have hmask : (0xf : BitVec 64) = (0xf00 : BitVec 64) >>> 8 := by decide
  rw [hmask, ← BitVec.ushiftRight_and_distrib]
  simp only [BitVec.and_or_distrib_right, hp0, ha0, hs0, BitVec.zero_or, BitVec.or_zero]
  interval_cases k <;> decide

end Ept

def ept : Layout Format.ept where
  field := 0xfffffffffffff000
  attrs := 0xff
  extra k := k
  room := by decide
  base := by decide
  depth := by decide
  apart := by
    intro (a : BitVec 64) l k ha hk
    rw [BitVec.and_comm]
    exact or_and_eq_zero (or_and_eq_zero (ept_orderOf_and hk) (ite_and_eq_zero (by decide) (by decide)))
      (and_eq_zero_of_field ha (by decide))
  addr_leaf := by
    intro (p : BitVec 64) (a : BitVec 64) l k hp ha hk
    exact or_and_of_left (and_eq_self_of_field hp (by decide))
      (or_and_eq_zero (or_and_eq_zero (ept_orderOf_and hk) (ite_and_eq_zero (by decide) (by decide)))
        (and_eq_zero_of_field ha (by decide)))
  super_leaf := by
    intro (p : BitVec 64) (a : BitVec 64) l k hp ha _ hl
    exact bne_iff_ne.mpr (superpage_and_ne_zero (by decide) hl p _ a)
  order_leaf := by
    intro (p : BitVec 64) (a : BitVec 64) l k hp ha hk
    exact congrArg (pageBits + ·) (ept_order hp ha hk)
  extra_le := fun _ => le_rfl
  low := by decide
  addr_pointer := by
    intro (q : BitVec 64) l hq _
    exact pointer_and_of_left 4 l 0x7 hq (by decide) (by decide)
  super_pointer := by
    intro (q : BitVec 64) l hq _ _
    exact bne_eq_false_iff_eq.mpr (pointer_and_eq_zero 4 l 0x7 hq (by decide) (by decide))

def dpt : Layout Format.dpt where
  field := 0xfffffffffffff000
  attrs := 0xfff
  extra _ := 0
  room := by decide
  base := by decide
  depth := by decide
  apart := by
    intro (a : BitVec 64) l k ha _
    rw [BitVec.and_comm]
    exact or_and_eq_zero (or_and_eq_zero BitVec.zero_and (ite_and_eq_zero (by decide) (by decide)))
      (and_eq_zero_of_field ha (by decide))
  addr_leaf := by
    intro (p : BitVec 64) (a : BitVec 64) l k hp ha _
    exact or_and_of_left (and_eq_self_of_field hp (by decide))
      (or_and_eq_zero (or_and_eq_zero BitVec.zero_and (ite_and_eq_zero (by decide) (by decide)))
        (and_eq_zero_of_field ha (by decide)))
  super_leaf := by
    intro (p : BitVec 64) (a : BitVec 64) l k hp ha _ hl
    exact bne_iff_ne.mpr (superpage_and_ne_zero (by decide) hl p _ a)
  order_leaf := fun _ _ _ => rfl
  extra_le := fun _ => Nat.zero_le _
  low := by decide
  addr_pointer := by
    intro (q : BitVec 64) l hq _
    exact pointer_and_of_left 4 l 0x3 hq (by decide) (by decide)
  super_pointer := by
    intro (q : BitVec 64) l hq _ _
    exact bne_eq_false_iff_eq.mpr (pointer_and_eq_zero 4 l 0x3 hq (by decide) (by decide))

section Hpt

variable {p f : BitVec 64}

theorem canonical_of_low (h : p &&& (Format.nx >>> 1) = 0#64) :
    Format.canonical p = p &&& ~~~Format.nx := by
  unfold Format.canonical
  rw [h]
  by_cases hn : p &&& Format.nx = 0#64
  · have hself : p &&& ~~~Format.nx = p := by
      have := BitVec.and_or_distrib_left (x := p) (y := Format.nx) (z := ~~~Format.nx)
      rwa [hn, BitVec.zero_or, show Format.nx ||| ~~~Format.nx = BitVec.allOnes 64 by decide,
        BitVec.and_allOnes, eq_comm] at this
    rw [hn, hself]
    rfl
  · have hne : (p &&& Format.nx != 0#64) = true := bne_iff_ne.mpr hn
    rw [hne, BitVec.and_comm p]
    rfl

theorem hpt_addr (hp : p &&& 0x3ffffffffffff000 = p) (hf : f &&& 0x7ffffffffffff000 = 0#64) :
    Format.hpt.addr (p ||| f) = p := by
  have hlow : ((p ||| f) &&& frameMask 64) &&& (Format.nx >>> 1) = 0#64 := by
    rw [BitVec.and_assoc]
    refine or_and_eq_zero (and_eq_zero_of_field hp (by decide)) ?_
    have hmask : frameMask 64 &&& (Format.nx >>> 1) = 0x7ffffffffffff000 &&& (Format.nx >>> 1) := by
      decide
    rw [hmask, ← BitVec.and_assoc]
    exact (congrArg (· &&& (Format.nx >>> 1)) hf).trans BitVec.zero_and
  have hmask : frameMask 64 &&& ~~~Format.nx = 0x7ffffffffffff000 := by decide
  refine (canonical_of_low hlow).trans ?_
  rw [BitVec.and_assoc, hmask]
  exact or_and_of_left (and_eq_self_of_field hp (by decide)) hf

end Hpt

def hpt : Layout Format.hpt where
  field := 0x3ffffffffffff000
  attrs := 0x8000000000000fff
  extra _ := 0
  room := by decide
  base := by decide
  depth := by decide
  apart := by
    intro (a : BitVec 64) l k ha _
    rw [BitVec.and_comm]
    exact or_and_eq_zero (or_and_eq_zero BitVec.zero_and (ite_and_eq_zero (by decide) (by decide)))
      (and_eq_zero_of_field ha (by decide))
  addr_leaf := by
    intro (p : BitVec 64) (a : BitVec 64) l k hp ha _
    exact hpt_addr hp
      (or_and_eq_zero (or_and_eq_zero BitVec.zero_and (ite_and_eq_zero (by decide) (by decide)))
        (and_eq_zero_of_field ha (by decide)))
  super_leaf := by
    intro (p : BitVec 64) (a : BitVec 64) l k hp ha _ hl
    exact bne_iff_ne.mpr (superpage_and_ne_zero (by decide) hl p _ a)
  order_leaf := fun _ _ _ => rfl
  extra_le := fun _ => Nat.zero_le _
  low := by decide
  addr_pointer := by
    intro (q : BitVec 64) l hq _
    have h : (0#64 ||| if l = 4 then 0#64 else 0x27) &&& 0x7ffffffffffff000 = 0#64 :=
      or_and_eq_zero BitVec.zero_and (ite_and_eq_zero (by decide) (by decide))
    refine Eq.trans ?_ (hpt_addr hq h)
    simp only [Format.pointer, BitVec.zero_or]
    exact congrArg Format.hpt.addr BitVec.or_zero
  super_pointer := by
    intro (q : BitVec 64) l hq _ _
    exact bne_eq_false_iff_eq.mpr (pointer_and_eq_zero 4 l 0x27 hq (by decide) (by decide))

section Ipt

variable {x f : BitVec 64} {l : Nat}

theorem ipt_level (hx : x &&& 0xffffffffff000 = x) :
    (x ||| f) >>> 9 &&& 0x7#64 = (f &&& 0xe00#64) >>> 9 := by
  have hmask : 0x7#64 = 0xe00#64 >>> 9 := by decide
  have hx0 : x &&& 0xe00#64 = 0#64 := and_eq_zero_of_field hx (by decide)
  rw [hmask, ← BitVec.ushiftRight_and_distrib, or_and_of_right hx0]

theorem ipt_super_eq_true (hx : x &&& 0xffffffffff000 = x) (hl : l ≠ 0)
    (hf : f &&& 0xe00#64 = 0#64) : Format.ipt.super (x ||| f) l = true := by
  have hlev : (x ||| f) >>> 9 &&& 0x7#64 = 0#64 := by
    rw [ipt_level hx, hf]
    rfl
  exact Bool.and_eq_true_iff.mpr ⟨bne_iff_ne.mpr hl, beq_iff_eq.mpr hlev⟩

theorem ipt_super_eq_false (hx : x &&& 0xffffffffff000 = x) (hf : (f &&& 0xe00#64) >>> 9 ≠ 0#64) :
    Format.ipt.super (x ||| f) l = false := by
  have hlev : (x ||| f) >>> 9 &&& 0x7#64 ≠ 0#64 := by rwa [ipt_level hx]
  exact Bool.and_eq_false_iff.mpr (.inr (beq_eq_false_iff_ne.mpr hlev))

end Ipt

def ipt : Layout Format.ipt where
  field := 0xffffffffff000
  attrs := 0xfff00000000001ff
  extra _ := 0
  room := by decide
  base := by decide
  depth := by decide
  apart := by
    intro (a : BitVec 64) l k ha _
    rw [BitVec.and_comm]
    exact or_and_eq_zero (or_and_eq_zero BitVec.zero_and BitVec.zero_and)
      (and_eq_zero_of_field ha (by decide))
  addr_leaf := by
    intro (p : BitVec 64) (a : BitVec 64) l k hp ha _
    refine (BitVec.and_assoc _ _ _).trans ?_
    exact or_and_of_left (and_eq_self_of_field hp (by decide))
      (or_and_eq_zero (or_and_eq_zero BitVec.zero_and BitVec.zero_and)
        (and_eq_zero_of_field ha (by decide)))
  super_leaf := by
    intro (p : BitVec 64) (a : BitVec 64) l k hp ha _ hl
    refine ipt_super_eq_true hp hl ?_
    exact or_and_eq_zero (or_and_eq_zero BitVec.zero_and BitVec.zero_and)
      (and_eq_zero_of_field ha (by decide))
  order_leaf := fun _ _ _ => rfl
  extra_le := fun _ => Nat.zero_le _
  low := by decide
  addr_pointer := by
    intro (q : BitVec 64) l hq hl
    have hlev : (BitVec.ofNat 64 l <<< 9) &&& (frameMask 64 &&& 0xfffffffffffff) = 0#64 := by
      have hl : l ≤ 4 := hl
      interval_cases l <;> decide
    have hq' : q &&& (frameMask 64 &&& 0xfffffffffffff) = q := and_eq_self_of_field hq (by decide)
    have hn : (if l = 4 then 0#64 else 0x6000000000000001#64) &&& (frameMask 64 &&& 0xfffffffffffff) =
        0#64 := ite_and_eq_zero (by decide) (by decide)
    refine (BitVec.and_assoc _ _ _).trans ?_
    refine (congrArg (· &&& (frameMask 64 &&& 0xfffffffffffff)) (BitVec.or_assoc q _ _)).trans ?_
    exact or_and_of_left hq' (or_and_eq_zero hn hlev)
  super_pointer := by
    intro (q : BitVec 64) l hq hl0 hl
    have hl : l ≤ 4 := hl
    refine Eq.trans (congrArg (Format.ipt.super · l) (BitVec.or_assoc _ _ _)) ?_
    apply ipt_super_eq_false hq
    interval_cases l <;> simp at hl0 ⊢

end Layout

end Tukija.Pte
