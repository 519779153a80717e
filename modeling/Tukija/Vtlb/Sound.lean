import Tukija.Pte.Update
import Tukija.Vtlb.Flush

/-! What `Vtlb::miss` fills in is what the guest's and the host's page tables say. -/
namespace Tukija.Vtlb

open Tukija.Lib.Word Tukija.Pte

/-! ## What the tables say -/

/-- What the tables of the guest allow on a page, the kernel of the guest aside. -/
structure Rights where
  write : Bool
  user : Bool
  deriving DecidableEq

def Rights.Allows (x : Rights) (wp user write : Bool) : Prop :=
  (user = true → x.user = true) ∧ (write = true → x.write = true ∨ user = false ∧ wp = false)

/-- Bits 13 to 20 of an entry for 4 MByte are more address bits, above the others. -/
def largeFrame (d : BitVec 32) : Mword :=
  (d.setWidth 64 &&& frameMask 22) ||| ((d.setWidth 64 >>> 13 &&& 0xff) <<< 32)

/-- The translation of an address of the guest by its tables of two levels, as a processor does it. -/
def guestWalk (r : Regs) (g : Guest) (a : Mword) : Option (Mword × Rights) :=
  if !r.pg then some (a, ⟨true, true⟩)
  else if r.pae then none
  else (g.peek (entryAt a 1 (r.cr3 &&& frameMask 12))).bind fun d =>
    if !d.getLsbD tlbP then none
    else if r.pse && d.getLsbD tlbS then
      if d.getLsbD 21 then none
      else some (largeFrame d ||| (a &&& (bit 22 - 1)), ⟨d.getLsbD tlbW, d.getLsbD tlbU⟩)
    else (g.peek (entryAt a 0 (frameOf d))).bind fun e =>
      if !e.getLsbD tlbP then none
      else some (frameOf e ||| (a &&& (bit 12 - 1)),
        ⟨d.getLsbD tlbW && e.getLsbD tlbW, d.getLsbD tlbU && e.getLsbD tlbU⟩)

/-- The guest does not use PAE, the kernel can read what its walk reads, and an entry for 4 MByte
has none of the bits 12 to 21, which are more address bits and the memory type. -/
def Regs.Plain (r : Regs) (g : Guest) (a : Mword) : Prop :=
  r.pg = true → r.pae = false ∧ ∃ d, g.peek (entryAt a 1 (r.cr3 &&& frameMask 12)) = some d ∧
    (d.getLsbD tlbP = true →
      if r.pse && d.getLsbD tlbS then ∀ i, 12 ≤ i → i < 22 → d.getLsbD i = false
      else ∃ e, g.peek (entryAt a 0 (frameOf d)) = some e)

/-- The leaves of a host's table are as `Pte::update` writes them: aligned, of an order below that
of the next level, and readable. -/
def Tidy (m : Mem Format.ept) : Prop :=
  ∀ q l w, m.leaf q = some (l, w) → l ≤ 4 ∧ (∀ i < l * 9 + 12, (Format.ept.addr w).getLsbD i = false) ∧
    Format.ept.order w ≤ 20 ∧ w.getLsbD eptR = true

def Hit.phys (h : Hit) (a : Mword) : Mword := (h.val &&& frameMask h.shift) ||| (a &&& (bit h.shift - 1))

/-- With `CR0_WP`, as the processor runs a guest with a shadow page table. -/
def Hit.Allows (h : Hit) (user write : Bool) : Prop :=
  (user = true → h.val.getLsbD tlbU = true) ∧ (write = true → h.val.getLsbD tlbW = true)

/-! ## Addresses in a block -/

/-- `x` with the low bits of `a`. -/
def splice (s : Nat) (x a : Mword) : Mword := (x &&& frameMask s) ||| (a &&& (bit s - 1))

variable {s k : Nat} {a b x virt : Mword}

theorem getLsbD_splice (hs : s < 64) (x a : Mword) (i : Nat) :
    (splice s x a).getLsbD i = if i < s then a.getLsbD i else x.getLsbD i := by
  by_cases hi : i < 64
  · unfold splice
    rw [BitVec.getLsbD_or, BitVec.getLsbD_and, BitVec.getLsbD_and, getLsbD_mask hs, getLsbD_frameMask hs hi]
    by_cases his : i < s
    · simp [his, Nat.not_le.mpr his]
    · simp [his, Nat.le_of_not_lt his]
  · rw [BitVec.getLsbD_of_ge _ _ (Nat.le_of_not_lt hi), if_neg (by omega), BitVec.getLsbD_of_ge _ _ (Nat.le_of_not_lt hi)]

theorem getLsbD_sameBlock (h : SameBlock s a b) {i : Nat} (hi : s ≤ i) : a.getLsbD i = b.getLsbD i := by
  obtain ⟨j, rfl⟩ := Nat.exists_eq_add_of_le hi
  have hbit : ∀ x : Mword, x.getLsbD (s + j) = (x.toNat / 2 ^ s).testBit j := by
    intro x
    rw [BitVec.getLsbD, Nat.testBit_div_two_pow, Nat.add_comm]
  rw [hbit, hbit, h]

theorem sameBlock_splice (hs : s < 64) (x a : Mword) : SameBlock s (splice s x a) x := by
  apply Nat.eq_of_testBit_eq
  intro i
  rw [Nat.testBit_div_two_pow, Nat.testBit_div_two_pow]
  change (splice s x a).getLsbD (i + s) = x.getLsbD (i + s)
  rw [getLsbD_splice hs, if_neg (by omega)]

theorem splice_self (hs : s < 64) (h : SameBlock s a b) : splice s b a = a := by
  apply BitVec.eq_of_getLsbD_eq
  intro i _
  rw [getLsbD_splice hs]
  split_ifs with hi
  · rfl
  · exact (getLsbD_sameBlock h (Nat.le_of_not_lt hi)).symm

theorem splice_splice (hs : s < 64) (x b a : Mword) : splice s x (splice s b a) = splice s x a := by
  apply BitVec.eq_of_getLsbD_eq
  intro i _
  rw [getLsbD_splice hs, getLsbD_splice hs, getLsbD_splice hs]
  split_ifs <;> rfl

theorem splice_offset {f : Mword} (hk : k < 64) (hf : ∀ i < s, f.getLsbD i = false) (hs : s ≤ k) (h : SameBlock s a b) :
    splice s (f ||| (b &&& (bit k - 1))) a = f ||| (a &&& (bit k - 1)) := by
  apply BitVec.eq_of_getLsbD_eq
  intro i _
  rw [getLsbD_splice (by omega)]
  simp only [BitVec.getLsbD_or, BitVec.getLsbD_and, getLsbD_mask hk]
  split_ifs with hi
  · have hik : i < k := by omega
    simp [hf i hi, hik]
  · rw [getLsbD_sameBlock h (Nat.le_of_not_lt hi)]

/-! ## The shadow page table -/

section Shadow

variable {size host attr : Mword} {o : Origin} {lev l : Nat} {t : Table}

theorem walk_fill (hp : attr.getLsbD tlbP = true) (hlev : lev ≤ 2) :
    ∃ l < 2, (l = 0 ∨ bit (l * 9 + 12) ≤ size) ∧
      walk virt lev (fill virt size host attr o lev t) = some ⟨l * 9 + 12, filled l host attr, o⟩ := by
  induction lev generalizing t with
  | zero =>
    refine ⟨0, by decide, .inl rfl, ?_⟩
    have ht' : fill virt size host attr o 0 t (index virt 0) = .leaf (filled 0 host attr) o :=
      Function.update_self _ _ _
    rw [walk, ht']
    exact hit_eq_some.mpr ⟨(getLsbD_filled (by omega) (by decide) (by decide) (by decide) (by decide)).trans hp, rfl⟩
  | succ lev ih =>
    rw [fill_succ, walk, Function.update_self]
    by_cases hdown : lev + 1 = 2 ∨ size < bit ((lev + 1) * 9 + 12)
    · rw [if_pos hdown]
      simp only
      rw [if_pos]
      · exact ih (by omega)
      · rw [getLsbD_passed _ _ (by decide) (by decide), enter_present]
        simp [tlbP, tlbM]
    · rw [if_neg hdown]
      rw [not_or, BitVec.not_lt] at hdown
      refine ⟨lev + 1, by omega, .inr hdown.2, ?_⟩
      exact hit_eq_some.mpr ⟨(getLsbD_filled (by omega) (by decide) (by decide) (by decide) (by decide)).trans hp, rfl⟩

theorem phys_filled (hattr : ∀ i, 12 ≤ i → attr.getLsbD i = false) (hl : l < 2) (a : Mword) :
    Hit.phys ⟨l * 9 + 12, filled l host attr, o⟩ a = splice (l * 9 + 12) host a := by
  have hval : filled l host attr &&& frameMask (l * 9 + 12) = host &&& frameMask (l * 9 + 12) := by
    apply BitVec.eq_of_getLsbD_eq
    intro i hi
    rw [BitVec.getLsbD_and, BitVec.getLsbD_and, getLsbD_frameMask (by omega) hi]
    by_cases his : l * 9 + 12 ≤ i
    · have hx : (if l = 0 then attr else attr ||| bit tlbS).getLsbD i = false := by
        have hS : tlbS ≠ i := by unfold tlbS; omega
        split_ifs
        · exact hattr i (by omega)
        · rw [BitVec.getLsbD_or, hattr i (by omega), BitVec.getLsbD_twoPow]
          simp [hS]
      have hA : tlbA ≠ i := by unfold tlbA; omega
      have hD : tlbD ≠ i := by unfold tlbD; omega
      unfold filled
      simp only [BitVec.getLsbD_or, BitVec.getLsbD_and, hx, getLsbD_frameMask (show l * 9 + 12 < 64 by omega) hi,
        BitVec.getLsbD_twoPow]
      simp [his, hA, hD]
    · simp [his]
  unfold Hit.phys splice
  rw [hval]

end Shadow

/-! ## The guest's tables -/

section Gwalk

variable {r : Regs} {gla attr error pte base addr : Mword} {g : Guest} {d e bits : BitVec 32} {lev : Nat} {q : Rights}

theorem entryAt_congr (hs : s ≤ lev * 10 + 12) (h : SameBlock s a b) (base : Mword) :
    entryAt a lev base = entryAt b lev base := by
  have hidx : a >>> (lev * 10 + 12) &&& 0x3ff = b >>> (lev * 10 + 12) &&& 0x3ff := by
    apply BitVec.eq_of_getLsbD_eq
    intro i _
    rw [BitVec.getLsbD_and, BitVec.getLsbD_and, BitVec.getLsbD_ushiftRight, BitVec.getLsbD_ushiftRight,
      getLsbD_sameBlock h (by omega)]
  rw [entryAt, entryAt, hidx]

theorem peek_markPte (hd : g.peek pte = some d) (he : g.peek addr = some e) :
    ∃ e', (g.markPte pte d bits).peek addr = some e' ∧ (e' = e ∨ e' = e ||| bits) := by
  unfold Guest.markPte Guest.cmpSwap
  split_ifs
  · exact ⟨e, he, .inl rfl⟩
  · by_cases heq : addr = pte
    · subst heq
      obtain rfl : d = e := Option.some.inj (hd.symm.trans he)
      exact ⟨d ||| bits, Function.update_self _ _ _, .inr rfl⟩
    · exact ⟨e, (Function.update_of_ne heq _ _).trans he, .inl rfl⟩
  · exact ⟨e, he, .inl rfl⟩

theorem getLsbD_frameOf (e : BitVec 32) {i : Nat} (hi : i < 12) : (frameOf e).getLsbD i = false := by
  rw [frameOf, BitVec.getLsbD_and, getLsbD_frameMask (by decide) (by omega), decide_eq_false (by omega), Bool.and_false]

/-- The attributes allow no more than the tables of the guest. -/
structure Grants (q : Rights) (wp : Bool) (attr : Mword) : Prop where
  present : attr.getLsbD tlbP = true
  allows : ∀ user write, (user = true → attr.getLsbD tlbU = true) → (write = true → attr.getLsbD tlbW = true) →
    q.Allows wp user write

theorem Grants.mono {attr' : Mword} {wp : Bool} (h : Grants q wp attr) (hp : attr'.getLsbD tlbP = true)
    (hU : attr'.getLsbD tlbU = true → attr.getLsbD tlbU = true)
    (hW : attr'.getLsbD tlbW = true → attr.getLsbD tlbW = true) : Grants q wp attr' :=
  ⟨hp, fun user write hu hw => h.allows user write (hU ∘ hu) (hW ∘ hw)⟩

theorem grants_grant (hp : attr.getLsbD tlbP = true) (hU : attr.getLsbD tlbU = q.user)
    (hW : attr.getLsbD tlbW = q.write) : Grants q r.wp (grant r attr error) := by
  unfold grant
  split_ifs with hwp
  · rw [Bool.and_eq_true, Bool.not_eq_true'] at hwp
    refine ⟨?_, fun user write hu hw => ?_⟩
    · rw [BitVec.getLsbD_or, getLsbD_clear, hp]
      rfl
    · -- the translation is for the kernel of the guest alone
      have hnone : user = false := by
        rw [Bool.eq_false_iff]
        intro hu'
        have hbit := hu hu'
        rw [BitVec.getLsbD_or, getLsbD_clear] at hbit
        simp [tlbU, tlbW] at hbit
      exact ⟨fun hu' => absurd (hnone.symm.trans hu') (by decide), fun _ => .inr ⟨hnone, hwp.1⟩⟩
  · refine ⟨hp, fun user write hu hw => ⟨fun hu' => hU ▸ hu hu', fun hw' => .inl (hW ▸ hw hw')⟩⟩

theorem getLsbD_lend_of_ne {n : Nat} (hn : n ≠ tlbW) : (lend e attr error).getLsbD n = attr.getLsbD n := by
  unfold lend
  split_ifs
  · rw [getLsbD_clear, decide_eq_true (Ne.symm hn), Bool.and_true]
  · rfl

theorem getLsbD_limit_of_ne {n : Nat} (hn : n ≠ tlbW) : (limit error attr).getLsbD n = attr.getLsbD n := by
  unfold limit
  split_ifs
  · rw [getLsbD_clear, decide_eq_true (Ne.symm hn), Bool.and_true]
  · rfl

theorem finish_spec (hp : attr.getLsbD tlbP = true) (hU : attr.getLsbD tlbU = q.user)
    (hW : attr.getLsbD tlbW = q.write) (hs : (finish r gla lev pte e attr error g).size ≠ 0) :
    (finish r gla lev pte e attr error g).size = bit (lev * 10 + 12) ∧
      (finish r gla lev pte e attr error g).gpa = frameOf e ||| (gla &&& (bit (lev * 10 + 12) - 1)) ∧
      Grants q r.wp (finish r gla lev pte e attr error g).attr := by
  unfold finish at hs ⊢
  simp only at hs ⊢
  split_ifs at hs ⊢
  · exact absurd rfl hs
  · have hgrant : Grants q r.wp (grant r attr error) := grants_grant hp hU hW
    refine ⟨rfl, rfl, hgrant.mono ?_ ?_ ?_⟩
    · rw [getLsbD_adopt (by decide) (by decide), getLsbD_lend_of_ne (by decide)]
      exact hgrant.present
    · rw [getLsbD_adopt (by decide) (by decide)]
      exact getLsbD_lend
    · rw [getLsbD_adopt (by decide) (by decide)]
      exact getLsbD_lend

theorem bit_le_bit {m n : Nat} (hm : m < 64) (hn : n < 64) (h : bit m ≤ bit n) : m ≤ n := by
  rw [BitVec.le_def, BitVec.toNat_twoPow, BitVec.toNat_twoPow,
    Nat.mod_eq_of_lt (Nat.pow_lt_pow_right (by decide) hm), Nat.mod_eq_of_lt (Nat.pow_lt_pow_right (by decide) hn)] at h
  exact (Nat.pow_le_pow_iff_right (by decide)).mp h

theorem scan_zero (he : g.peek (entryAt gla 0 base) = some e) (hs : (scan r gla error 0 base attr g).size ≠ 0) :
    e.getLsbD tlbP = true ∧ scan r gla error 0 base attr g =
      finish r gla 0 (entryAt gla 0 base) e (attr &&& (e.setWidth 64 &&& 0xfff)) error g := by
  have heq : scan r gla error 0 base attr g = if !e.getLsbD tlbP then ⟨0, 0, attr, error, g⟩
      else finish r gla 0 (entryAt gla 0 base) e (attr &&& (e.setWidth 64 &&& 0xfff)) error g := by
    rw [scan]
    simp only [he]
  rw [heq] at hs ⊢
  cases hp : e.getLsbD tlbP with
  | false =>
    rw [hp] at hs
    exact absurd rfl hs
  | true => exact ⟨rfl, rfl⟩

theorem scan_one (hpae : r.pae = false) (hd : g.peek (entryAt gla 1 base) = some d)
    (hs : (scan r gla error 1 base attr g).size ≠ 0) :
    d.getLsbD tlbP = true ∧ scan r gla error 1 base attr g =
      if r.pse && d.getLsbD tlbS then
        finish r gla 1 (entryAt gla 1 base) d (attr &&& (d.setWidth 64 &&& 0xfff)) error g
      else scan r gla error 0 (frameOf d) (attr &&& (d.setWidth 64 &&& 0xfff))
        (g.markPte (entryAt gla 1 base) d (BitVec.twoPow 32 tlbA)) := by
  have heq : scan r gla error 1 base attr g = if !d.getLsbD tlbP then ⟨0, 0, attr, error, g⟩
      else if !(r.pse || r.pae) || !d.getLsbD tlbS then
        scan r gla error 0 (frameOf d) (attr &&& (d.setWidth 64 &&& 0xfff))
          (g.markPte (entryAt gla 1 base) d (BitVec.twoPow 32 tlbA))
      else finish r gla 1 (entryAt gla 1 base) d (attr &&& (d.setWidth 64 &&& 0xfff)) error g := by
    rw [scan]
    simp only [hd]
  rw [heq, hpae] at hs ⊢
  cases hp : d.getLsbD tlbP with
  | false =>
    rw [hp] at hs
    exact absurd rfl hs
  | true =>
    refine ⟨rfl, ?_⟩
    cases r.pse <;> cases d.getLsbD tlbS <;> rfl

theorem getLsbD_three (x : BitVec 32) {n : Nat} (hn : n < 3) :
    ((bit tlbU ||| bit tlbW ||| bit tlbP) &&& (x.setWidth 64 &&& 0xfff)).getLsbD n = x.getLsbD n := by
  interval_cases n <;> simp [tlbU, tlbW, tlbP]

theorem getLsbD_and_low (attr : Mword) (x : BitVec 32) {n : Nat} (hn : n < 3) :
    (attr &&& (x.setWidth 64 &&& 0xfff)).getLsbD n = (attr.getLsbD n && x.getLsbD n) := by
  interval_cases n <;> simp

theorem getLsbD_accessed {e' : BitVec 32} (h : e' = e ∨ e' = e ||| BitVec.twoPow 32 tlbA) {n : Nat} (hn : n ≠ tlbA) :
    e'.getLsbD n = e.getLsbD n := by
  obtain rfl | rfl := h
  · rfl
  · rw [BitVec.getLsbD_or, BitVec.getLsbD_twoPow, decide_eq_false (Ne.symm hn), Bool.and_false, Bool.or_false]

theorem frameOf_accessed {e' : BitVec 32} (h : e' = e ∨ e' = e ||| BitVec.twoPow 32 tlbA) : frameOf e' = frameOf e := by
  apply BitVec.eq_of_getLsbD_eq
  intro i hi
  by_cases hlow : i < 12
  · rw [getLsbD_frameOf _ hlow, getLsbD_frameOf _ hlow]
  · rw [frameOf, frameOf, BitVec.getLsbD_and, BitVec.getLsbD_and, BitVec.getLsbD_setWidth, BitVec.getLsbD_setWidth,
      getLsbD_accessed h (by unfold tlbA; omega)]

theorem largeFrame_of_clear (hd : ∀ i, 12 ≤ i → i < 22 → d.getLsbD i = false) : largeFrame d = frameOf d := by
  apply BitVec.eq_of_getLsbD_eq
  intro i hi
  have hhigh : ((d.setWidth 64 >>> 13 &&& 0xff) <<< 32).getLsbD i = false := by
    rw [BitVec.getLsbD_shiftLeft, BitVec.getLsbD_and, BitVec.getLsbD_ushiftRight, BitVec.getLsbD_setWidth]
    by_cases hlow : i < 32
    · simp [hlow]
    · by_cases htop : i < 40
      · rw [hd (13 + (i - 32)) (by omega) (by omega)]
        simp
      · have hmask : (0xff : Mword).getLsbD (i - 32) = false := by
          have : (0xff : Mword).toNat < 2 ^ (i - 32) :=
            lt_of_lt_of_le (by decide) (Nat.pow_le_pow_right (by decide) (show 8 ≤ i - 32 by omega))
          exact Nat.testBit_lt_two_pow this
        rw [hmask]
        simp
  unfold largeFrame
  rw [BitVec.getLsbD_or, hhigh, Bool.or_false, frameOf, BitVec.getLsbD_and, BitVec.getLsbD_and,
    getLsbD_frameMask (by decide) hi, getLsbD_frameMask (by decide) hi, BitVec.getLsbD_setWidth]
  by_cases h12 : 12 ≤ i
  · by_cases h22 : i < 22
    · simp [hd i h12 h22]
    · simp [h12, Nat.le_of_not_lt h22]
  · simp [h12, show ¬22 ≤ i by omega]

/-- Where the guest walk of the kernel gets to a page, so does that of a processor, on the whole
block that the size allows. -/
theorem gwalk_spec (hplain : r.Plain g gla)
    (hs : (gwalk r gla (bit tlbU ||| bit tlbW ||| bit tlbP) error g).size ≠ 0) :
    ∃ q : Rights, Grants q r.wp (gwalk r gla (bit tlbU ||| bit tlbW ||| bit tlbP) error g).attr ∧
      bit 12 ≤ (gwalk r gla (bit tlbU ||| bit tlbW ||| bit tlbP) error g).size ∧ ∀ s < 64, bit s ≤ (gwalk r gla (bit tlbU ||| bit tlbW ||| bit tlbP) error g).size →
        ∀ a, SameBlock s a gla → guestWalk r g a =
          some (splice s (gwalk r gla (bit tlbU ||| bit tlbW ||| bit tlbP) error g).gpa a, q) := by
  cases hpg : r.pg with
  | false =>
    have hw : gwalk r gla (bit tlbU ||| bit tlbW ||| bit tlbP) error g =
        ⟨ones, gla, bit tlbU ||| bit tlbW ||| bit tlbP, error, g⟩ := by
      rw [gwalk, hpg]
      rfl
    rw [hw]
    have hpres : (bit tlbU ||| bit tlbW ||| bit tlbP).getLsbD tlbP = true := by decide
    refine ⟨⟨true, true⟩, ⟨hpres, fun _ _ _ _ => ⟨fun _ => rfl, fun _ => .inl rfl⟩⟩, ?_, fun s hs64 _ a hb => ?_⟩
    · change bit 12 ≤ ones
      decide
    rw [guestWalk, hpg, splice_self hs64 hb]
    rfl
  | true =>
    obtain ⟨hpae, d, hd, hrest⟩ := hplain hpg
    have hw : gwalk r gla (bit tlbU ||| bit tlbW ||| bit tlbP) error g =
        scan r gla error 1 (r.cr3 &&& frameMask 12) (bit tlbU ||| bit tlbW ||| bit tlbP) g := by
      rw [gwalk, hpg]
      rfl
    rw [hw] at hs ⊢
    obtain ⟨hp, heq⟩ := scan_one hpae hd hs
    have hrest := hrest hp
    rw [heq] at hs ⊢
    clear heq hw
    split_ifs at hs hrest ⊢ with hlarge
    · -- a page of 4 MByte
      obtain ⟨hsize, hgpa, hgrants⟩ := finish_spec (q := ⟨d.getLsbD tlbW, d.getLsbD tlbU⟩)
        ((getLsbD_three d (by decide)).trans hp) (getLsbD_three d (by decide)) (getLsbD_three d (by decide)) hs
      refine ⟨_, hgrants, by rw [hsize]; decide, fun s hs64 hle a hb => ?_⟩
      rw [hsize] at hle
      have hle := bit_le_bit hs64 (by decide) hle
      have hframe : ∀ i < 22, (frameOf d).getLsbD i = false := by
        intro i hi
        by_cases hlow : i < 12
        · exact getLsbD_frameOf d hlow
        · rw [frameOf, BitVec.getLsbD_and, BitVec.getLsbD_setWidth, hrest i (by omega) hi]
          simp
      rw [hgpa, splice_offset (by decide) (fun i hi => hframe i (by omega)) hle hb, guestWalk, hpg, hpae, entryAt_congr hle hb, hd]
      simp only [Option.bind_some, hp, hlarge, hrest 21 (by decide) (by decide), largeFrame_of_clear hrest]
      rfl
    · -- a page of 4 KByte
      obtain ⟨e, he⟩ := hrest
      have hmark : ∃ e', (g.markPte (entryAt gla 1 (r.cr3 &&& frameMask 12)) d (BitVec.twoPow 32 tlbA)).peek
          (entryAt gla 0 (frameOf d)) = some e' ∧ (e' = e ∨ e' = e ||| BitVec.twoPow 32 tlbA) := peek_markPte hd he
      obtain ⟨e', he', hacc⟩ := hmark
      obtain ⟨hp', heq⟩ := scan_zero he' hs
      rw [heq] at hs ⊢
      obtain ⟨hsize, hgpa, hgrants⟩ := finish_spec
        (q := ⟨d.getLsbD tlbW && e'.getLsbD tlbW, d.getLsbD tlbU && e'.getLsbD tlbU⟩)
        (by rw [getLsbD_and_low _ _ (by decide), getLsbD_three d (by decide), hp, hp']; rfl)
        (by rw [getLsbD_and_low _ _ (by decide), getLsbD_three d (by decide)])
        (by rw [getLsbD_and_low _ _ (by decide), getLsbD_three d (by decide)]) hs
      refine ⟨_, hgrants, by rw [hsize]; decide, fun s hs64 hle a hb => ?_⟩
      rw [hsize] at hle
      have hle := bit_le_bit hs64 (by decide) hle
      have hpe : e.getLsbD tlbP = true := (getLsbD_accessed hacc (by decide)).symm.trans hp'
      rw [hgpa, splice_offset (by decide) (fun i hi => getLsbD_frameOf e' (by omega)) hle hb, guestWalk, hpg, hpae,
        entryAt_congr (by omega) hb, hd, frameOf_accessed hacc]
      simp only [Option.bind_some, hp, hlarge]
      rw [if_neg (by decide), if_neg (by decide), if_neg (by decide), if_neg (by decide),
        entryAt_congr hle hb, he]
      simp only [Option.bind_some, hpe, getLsbD_accessed hacc (show tlbW ≠ tlbA by decide),
        getLsbD_accessed hacc (show tlbU ≠ tlbA by decide)]
      rfl

end Gwalk

/-! ## The host's table -/

section Hwalk

variable {ept : Mem Format.ept} {gpa attr error : Mword} {q q' l j : Nat} {w : Mword} {x : Loc Format.ept}
  {f : Found Format.ept}

theorem leafAt_le (hl : ept.leafAt q j x = some (l, w)) : l ≤ j := by
  induction j generalizing x with
  | zero =>
    rw [Mem.leafAt] at hl
    split_ifs at hl
    exact (Prod.mk.inj (Option.some.inj hl)).1.ge
  | succ j ih =>
    rw [Mem.leafAt] at hl
    split_ifs at hl
    · exact (Prod.mk.inj (Option.some.inj hl)).1.ge
    · exact (ih hl).trans (Nat.le_succ j)

theorem leafAt_block (hl : ept.leafAt q j x = some (l, w)) (hq : q' / 512 ^ l = q / 512 ^ l) :
    ept.leafAt q' j x = some (l, w) := by
  induction j generalizing x with
  | zero => exact hl
  | succ j ih =>
    rw [Mem.leafAt] at hl ⊢
    split_ifs at hl ⊢
    · exact hl
    · have hidx : q' / Format.ept.width ^ j % Format.ept.width = q / Format.ept.width ^ j % Format.ept.width := by
        obtain ⟨k, rfl⟩ := Nat.exists_eq_add_of_le (leafAt_le hl)
        have hwidth : Format.ept.width = 512 := rfl
        rw [hwidth, Nat.pow_add, ← Nat.div_div_eq_div_mul, ← Nat.div_div_eq_div_mul, hq]
      rw [hidx]
      exact ih hl

theorem pageOf_div (hl : l ≤ 4) (h : SameBlock (l * 9 + 12) a b) :
    Mem.pageOf (F := Format.ept) a / 512 ^ l = Mem.pageOf (F := Format.ept) b / 512 ^ l := by
  obtain ⟨k, hk⟩ := Nat.exists_eq_add_of_le hl
  have hdiv : ∀ v : Mword, Mem.pageOf (F := Format.ept) v / 512 ^ l = v.toNat / 2 ^ (l * 9 + 12) % 512 ^ k := by
    intro v
    change v.toNat / 2 ^ 12 % 512 ^ 4 / 512 ^ l = _
    have hpow : (2 : Nat) ^ (l * 9 + 12) = 2 ^ 12 * 512 ^ l := by
      rw [Nat.pow_add, Nat.mul_comm l, Nat.pow_mul, Nat.mul_comm]
    rw [hk, Nat.pow_add, Nat.mod_mul_right_div_self, hpow, Nat.div_div_eq_div_mul]
  rw [hdiv, hdiv, h]

theorem lookup_block (ht : Tidy ept) {v v' : Mword} (hf : ept.lookup v 4 .root = some f)
    (hs : s = 12 ∨ s = 21 ∧ bit 21 ≤ f.size) (hb : SameBlock s v' v) :
    ept.lookup v' 4 .root = some ⟨f.size, splice s f.p v', f.a⟩ ∧ f.a.getLsbD eptR = true := by
  rw [Mem.lookup_eq Layout.ept ept v le_rfl] at hf
  obtain ⟨⟨l, w⟩, hleaf, rfl⟩ := Option.map_eq_some_iff.mp hf
  obtain ⟨hl, hlow, horder, hR⟩ := ht _ _ _ hleaf
  have horder' : 12 ≤ Format.ept.order w := Nat.le_add_right ..
  have hle : s ≤ l * 9 + 12 := by
    obtain rfl | ⟨rfl, hsize⟩ := hs
    · omega
    · have := bit_le_bit (n := l * 9 + Format.ept.order w) (by decide) (by omega) hsize
      omega
  have hleaf' : ept.leaf (Mem.pageOf (F := Format.ept) v') = some (l, w) := leafAt_block hleaf (pageOf_div hl (hb.mono hle))
  refine ⟨?_, ?_⟩
  · rw [Mem.lookup_eq Layout.ept ept v' le_rfl]
    change Option.map _ (ept.leaf (Mem.pageOf (F := Format.ept) v')) = _
    rw [hleaf', Option.map_some]
    have hp : splice s (Mem.found w v l).p v' = (Mem.found w v' l).p :=
      splice_offset (k := l * 9 + Format.ept.order w) (by omega) (fun i hi => hlow i (by omega)) (by omega) hb
    rw [hp]
    rfl
  · change (w &&& 0xfff).getLsbD eptR = true
    rw [BitVec.getLsbD_and, hR]
    rfl

/-- Where the host walk of the kernel gets to a page, the attributes are those of the guest, but
that the host may not allow to write. -/
theorem hwalk_spec (hs : (hwalk ept gpa attr error).size ≠ 0) : ∃ f, ept.lookup gpa 4 .root = some f ∧
    (hwalk ept gpa attr error).size = f.size ∧ (hwalk ept gpa attr error).hpa = f.p ∧
      (hwalk ept gpa attr error).attr = limit f.a attr := by
  unfold hwalk at hs ⊢
  cases hf : ept.lookup gpa 4 .root with
  | none =>
    rw [hf] at hs
    exact absurd rfl hs
  | some f =>
    rw [hf] at hs
    simp only at hs ⊢
    split_ifs at hs ⊢
    · exact absurd rfl hs
    · exact absurd rfl hs
    · exact ⟨f, rfl, rfl, rfl, rfl⟩

theorem limit_write (h : (limit error attr).getLsbD tlbW = true) : error.getLsbD eptW = true := by
  unfold limit at h
  split_ifs at h with hw
  · rw [getLsbD_clear] at h
    simp at h
  · simpa using hw

end Hwalk

section Miss

variable {r : Regs} {g : Guest} {ept : Mem Format.ept} {time : Nat} {virt error : Mword} {t : Table}

def walked (r : Regs) (g : Guest) (virt error : Mword) : Walked :=
  gwalk r virt (bit tlbU ||| bit tlbW ||| bit tlbP) (error &&& (errU ||| errW)) g

def hosted (r : Regs) (g : Guest) (ept : Mem Format.ept) (virt error : Mword) : Hosted :=
  hwalk ept (walked r g virt error).gpa (walked r g virt error).attr (walked r g virt error).error

def given (r : Regs) (g : Guest) (ept : Mem Format.ept) (virt error : Mword) : Mword :=
  if (hosted r g ept virt error).size < (walked r g virt error).size then (hosted r g ept virt error).attr ||| bit tlbF
  else (hosted r g ept virt error).attr

theorem miss_success (hs : (miss r g ept time virt error t).reason = .success) :
    (walked r g virt error).size ≠ 0 ∧ (hosted r g ept virt error).size ≠ 0 ∧
      (miss r g ept time virt error t).vtlb =
        fill virt (wmin (walked r g virt error).size (hosted r g ept virt error).size) (hosted r g ept virt error).hpa
          (given r g ept virt error) ⟨time, pageShift (walked r g virt error).size⟩ 2 t := by
  have heq : miss r g ept time virt error t =
      if (walked r g virt error).size = 0 then
        ⟨.glaGpa, (walked r g virt error).error, t, (walked r g virt error).guest, none⟩
      else if (hosted r g ept virt error).size = 0 then
        ⟨.gpaHpa, (hosted r g ept virt error).error, t, (walked r g virt error).guest,
          some ((walked r g virt error).gpa, (hosted r g ept virt error).error)⟩
      else ⟨.success, (hosted r g ept virt error).error,
        fill virt (wmin (walked r g virt error).size (hosted r g ept virt error).size) (hosted r g ept virt error).hpa
          (given r g ept virt error) ⟨time, pageShift (walked r g virt error).size⟩ 2 t,
        (walked r g virt error).guest, none⟩ := rfl
  rw [heq] at hs ⊢
  split_ifs at hs ⊢ with hw hh
  exact ⟨hw, hh, rfl⟩

theorem getLsbD_given {n : Nat} (hn : n ≠ tlbF) :
    (given r g ept virt error).getLsbD n = (hosted r g ept virt error).attr.getLsbD n := by
  unfold given
  split_ifs
  · rw [BitVec.getLsbD_or, BitVec.getLsbD_twoPow, decide_eq_false (Ne.symm hn), Bool.and_false, Bool.or_false]
  · rfl

theorem given_high {i : Nat} (hi : 12 ≤ i) : (given r g ept virt error).getLsbD i = false := by
  rw [getLsbD_given (by unfold tlbF; omega), Bool.eq_false_iff]
  intro h
  have hthree := attr_gwalk (by unfold tlbW; omega) (by unfold tlbUc; omega) (by unfold tlbM; omega) (attr_hwalk h)
  have hsmall : (bit tlbU ||| bit tlbW ||| bit tlbP).toNat < 2 ^ i :=
    lt_of_lt_of_le (by decide) (Nat.pow_le_pow_right (by decide) hi)
  exact absurd (hthree.symm.trans (Nat.testBit_lt_two_pow hsmall)) (by decide)

theorem wmin_le (x y : Mword) : wmin x y ≤ x ∧ wmin x y ≤ y := by
  rw [BitVec.le_def, BitVec.le_def, toNat_wmin]
  exact ⟨Nat.min_le_left .., Nat.min_le_right ..⟩

end Miss

theorem leaf_flatHost {q l : Nat} {w : Mword} (h : flatHost.leaf q = some (l, w)) : l = 2 ∧ w = 0x87 := by
  have hroot : flatHost.leaf q = flatHost.leafAt q 3 (.slot 0x1000 (q / 512 ^ 3 % 512)) := rfl
  have hread : ∀ t i, flatHost.read (.slot t i) =
      if t = 0x1000 ∧ i = 0 then 0x2007 else if t = 0x2000 ∧ i = 0 then 0x87 else 0 := fun _ _ => rfl
  rw [hroot] at h
  by_cases h3 : q / 512 ^ 3 % 512 = 0
  · have hval : flatHost.read (.slot 0x1000 (q / 512 ^ 3 % 512)) = 0x2007 := by
      rw [hread, if_pos ⟨rfl, h3⟩]
    have hnext : flatHost.leafAt q 3 (.slot 0x1000 (q / 512 ^ 3 % 512)) =
        flatHost.leafAt q 2 (.slot 0x2000 (q / 512 ^ 2 % 512)) := by
      rw [Mem.leafAt, hval, if_neg (by decide), if_neg (by decide)]
      rfl
    rw [hnext] at h
    by_cases h2 : q / 512 ^ 2 % 512 = 0
    · have hval : flatHost.read (.slot 0x2000 (q / 512 ^ 2 % 512)) = 0x87 := by
        rw [hread, if_neg (fun hx => absurd hx.1 (by decide)), if_pos ⟨rfl, h2⟩]
      rw [Mem.leafAt_of_leaf (by rw [hval]; decide) (fun _ => by rw [hval]; decide), hval] at h
      obtain ⟨rfl, rfl⟩ := Prod.mk.inj (Option.some.inj h)
      exact ⟨rfl, rfl⟩
    · rw [Mem.leafAt_of_zero] at h
      · cases h
      · rw [hread, if_neg (fun hx => absurd hx.1 (by decide)), if_neg (fun hx => h2 hx.2)]
  · rw [Mem.leafAt_of_zero] at h
    · cases h
    · rw [hread, if_neg (fun hx => h3 hx.2), if_neg (fun hx => absurd hx.1 (by decide))]

theorem tidy_flatHost : Tidy flatHost := by
  intro q l w h
  obtain ⟨rfl, rfl⟩ := leaf_flatHost h
  exact ⟨by decide, fun i hi => by interval_cases i <;> decide, by decide, by decide⟩

end Tukija.Vtlb
