import Tukija.Pte.Refine

/-! What `lookup` answers, for every format: the address that an aligned range
was mapped to, with a size of which the answer holds in full. -/
namespace Tukija.Pte

variable {F : Format}

theorem or_eq_add_mod {e s x y : Nat} (hes : e ≤ s) (hy : y < 2 ^ s)
    (hx : x % 2 ^ s = y / 2 ^ e * 2 ^ e) : x ||| y = x + y % 2 ^ e := by
  have hlow := Nat.mod_lt y (Nat.two_pow_pos e)
  have hdvd : 2 ^ e ∣ 2 ^ s := Nat.pow_dvd_pow 2 hes
  have hsplit := Nat.div_add_mod y (2 ^ e)
  have hlt : 2 ^ e * (y / 2 ^ e) < 2 ^ s := by omega
  have hxs : 2 ^ s * (x / 2 ^ s) ||| 2 ^ e * (y / 2 ^ e) = x := by
    rw [← Nat.two_pow_add_eq_or_of_lt hlt, Nat.mul_comm (2 ^ e), ← hx, Nat.div_add_mod]
  have hxe : 2 ^ e * (x / 2 ^ e) = x := by
    apply Nat.mul_div_cancel'
    rw [← Nat.div_add_mod x (2 ^ s), hx]
    exact Nat.dvd_add (hdvd.mul_right _) (Dvd.intro_left _ rfl)
  calc x ||| y = x ||| (2 ^ e * (y / 2 ^ e) ||| y % 2 ^ e) := by
        rw [← Nat.two_pow_add_eq_or_of_lt hlow, hsplit]
    _ = x ||| y % 2 ^ e := by
        nth_rewrite 1 [← hxs]
        rw [Nat.or_assoc, ← Nat.or_assoc (2 ^ e * (y / 2 ^ e)), Nat.or_self, ← Nat.or_assoc, hxs]
    _ = x + y % 2 ^ e := by
        nth_rewrite 1 [← hxe]
        rw [← Nat.two_pow_add_eq_or_of_lt hlow, hxe]

variable {Y : Layout F} {x : Mapping F} {v : F.Word}

/-- The logarithm of the size that `lookup` returns. -/
def Mapping.bits (Y : Layout F) (x : Mapping F) : Nat :=
  x.order / F.B * F.B + pageBits + Y.extra (x.order % F.B)

theorem Mapping.bits_le (Y : Layout F) (x : Mapping F) : x.bits Y ≤ x.order + pageBits := by
  have := Y.extra_le (x.order % F.B)
  have := Nat.div_add_mod x.order F.B
  rw [Nat.mul_comm] at this
  unfold Mapping.bits
  omega

/-- How far into a mapping the page of `v` is, in entries. -/
def Mapping.step (x : Mapping F) (v : F.Word) : Nat :=
  (Mem.pageOf v - x.base) / F.width ^ (x.order / F.B)

theorem ofNat_two_pow {w n : Nat} : (1 : BitVec w) <<< n = BitVec.ofNat w (2 ^ n) := by
  apply BitVec.eq_of_toNat_eq
  rw [BitVec.toNat_shiftLeft, BitVec.toNat_ofNat, Nat.shiftLeft_eq, BitVec.ofNat_eq_ofNat,
    BitVec.toNat_ofNat, Nat.mod_mul_mod, Nat.one_mul]

theorem Mapping.step_lt (hc : x.Covers (Mem.pageOf v)) : x.step v < 2 ^ (x.order % F.B) := by
  rw [Mapping.step, Nat.div_lt_iff_lt_mul (width_pow_pos F _), Nat.mul_comm,
    ← Mem.two_pow_order F x.order]
  obtain ⟨h1, h2⟩ := hc
  omega

theorem page_mod {l k : Nat} (hk : l * F.B + k ≤ F.L * F.B) :
    Mem.pageOf v / F.width ^ l % 2 ^ k = v.toNat / 2 ^ (l * F.B + pageBits) % 2 ^ k := by
  obtain ⟨i, hi⟩ := Nat.exists_eq_add_of_le hk
  rw [Mem.pageOf, width_pow, width_pow, hi, Nat.add_assoc, Nat.pow_add 2 (l * F.B) (k + i),
    Nat.mod_mul_right_div_self, Nat.pow_add 2 k i, Nat.mod_mul_right_mod, Nat.div_div_eq_div_mul,
    ← Nat.pow_add, Nat.add_comm pageBits]

section Sound

variable (hx : x.Sound Y)

include hx

theorem Mapping.Sound.pow_dvd : F.width ^ (x.order / F.B) * 2 ^ (x.order % F.B) ∣ x.base :=
  Mem.two_pow_order F x.order ▸ hx.dvd

theorem Mapping.Sound.order_le : x.order / F.B * F.B + x.order % F.B ≤ F.L * F.B := by
  have := Nat.div_add_mod x.order F.B
  have := hx.fits.le
  rw [Nat.mul_comm (x.order / F.B)]
  omega

variable (hc : x.Covers (Mem.pageOf v))

include hc

theorem Mapping.Sound.div_eq :
    Mem.pageOf v / F.width ^ (x.order / F.B) = x.base / F.width ^ (x.order / F.B) + x.step v := by
  obtain ⟨c, hb⟩ := (Dvd.intro _ rfl).trans hx.pow_dvd
  have hle := Nat.div_le_div_right (c := F.width ^ (x.order / F.B)) hc.1
  rw [Mapping.step, hb, Nat.sub_mul_div]
  rw [hb] at hle
  rw [Nat.mul_div_cancel_left _ (width_pow_pos F _)] at hle ⊢
  omega

theorem Mapping.Sound.step_mod :
    x.step v % 2 ^ Y.extra (x.order % F.B) =
      v.toNat / 2 ^ (x.order / F.B * F.B + pageBits) % 2 ^ Y.extra (x.order % F.B) := by
  have hle := hx.order_le
  have hextra := Y.extra_le (x.order % F.B)
  rw [← page_mod (v := v) (by omega), hx.div_eq hc]
  obtain ⟨c, hb⟩ := hx.pow_dvd
  have hdvd : 2 ^ Y.extra (x.order % F.B) ∣ 2 ^ (x.order % F.B) * c :=
    (Nat.pow_dvd_pow 2 hextra).mul_right c
  rw [hb, Nat.mul_assoc, Nat.mul_div_cancel_left _ (width_pow_pos F _), Nat.add_mod,
    Nat.mod_eq_zero_of_dvd hdvd, Nat.zero_add, Nat.mod_mod]

theorem Mapping.Sound.offset_eq :
    (Mem.pageOf v - x.base) * 2 ^ pageBits + v.toNat % 2 ^ pageBits =
      x.step v * 2 ^ (x.order / F.B * F.B + pageBits) +
        v.toNat % 2 ^ (x.order / F.B * F.B + pageBits) := by
  have hle := hx.order_le
  -- the page within its entry
  have hmod : (Mem.pageOf v - x.base) % F.width ^ (x.order / F.B) =
      v.toNat / 2 ^ pageBits % F.width ^ (x.order / F.B) := by
    obtain ⟨c, hb⟩ := (Dvd.intro _ rfl).trans hx.pow_dvd
    have hdvd : F.width ^ (x.order / F.B) ∣ F.width ^ F.L := by
      apply Nat.pow_dvd_pow
      exact Mem.level_le hx.fits.le
    rw [hb, Nat.sub_mul_mod (hb ▸ hc.1), Mem.pageOf, Nat.mod_mod_of_dvd _ hdvd]
  have hsplit := Nat.div_add_mod (Mem.pageOf v - x.base) (F.width ^ (x.order / F.B))
  rw [hmod] at hsplit
  rw [← hsplit, Mapping.step, Nat.add_comm _ pageBits, Nat.pow_add, Nat.mod_mul, width_pow]
  ring

end Sound

theorem Mapping.Sound.bits_lt (hx : x.Sound Y) : x.bits Y < F.w :=
  lt_of_le_of_lt (x.bits_le Y) hx.fits.size

theorem toNat_mask {w n : Nat} (y : BitVec w) (hn : n < w) :
    (y &&& (BitVec.ofNat w (2 ^ n) - 1)).toNat = y.toNat % 2 ^ n := by
  have hlt : 2 ^ n < 2 ^ w := Nat.pow_lt_pow_right (by decide) hn
  have hpos := Nat.two_pow_pos n
  have hone : (1 : BitVec w).toNat = 1 := by
    rw [BitVec.ofNat_eq_ofNat, BitVec.toNat_ofNat, Nat.mod_eq_of_lt]
    exact Nat.one_lt_two_pow (Nat.ne_of_gt (Nat.zero_lt_of_lt hn))
  have hmask : (BitVec.ofNat w (2 ^ n) - 1).toNat = 2 ^ n - 1 := by
    rw [BitVec.toNat_sub_of_le, BitVec.toNat_ofNat, Nat.mod_eq_of_lt hlt, hone]
    rw [BitVec.le_def, BitVec.toNat_ofNat, Nat.mod_eq_of_lt hlt, hone]
    exact hpos
  rw [BitVec.toNat_and, hmask, Nat.and_two_pow_sub_one_eq_mod]

theorem Mapping.Sound.phys_eq (hx : x.Sound Y) (hc : x.Covers (Mem.pageOf v)) :
    (x.p + BitVec.ofNat F.w (x.step v) * Mem.span F (x.order / F.B)) |||
        (v &&& (BitVec.ofNat F.w (2 ^ x.bits Y) - 1)) = x.phys v := by
  have hbits := hx.bits_lt
  have hspan : BitVec.ofNat F.w (x.step v) * Mem.span F (x.order / F.B) =
      BitVec.ofNat F.w (x.step v * 2 ^ (x.order / F.B * F.B + pageBits)) := by
    rw [Mem.span, ofNat_two_pow, BitVec.ofNat_mul]
  have halign : x.p.toNat % 2 ^ x.bits Y = 0 := Nat.mod_eq_zero_of_dvd hx.fits.aligned
  have hmod : (x.p + BitVec.ofNat F.w (x.step v) * Mem.span F (x.order / F.B)).toNat %
      2 ^ x.bits Y = v.toNat % 2 ^ x.bits Y / 2 ^ (x.order / F.B * F.B + pageBits) *
        2 ^ (x.order / F.B * F.B + pageBits) := by
    have hdvd : 2 ^ x.bits Y ∣ 2 ^ F.w := Nat.pow_dvd_pow 2 hbits.le
    rw [hspan, BitVec.toNat_add, BitVec.toNat_ofNat, Nat.add_mod_mod, Nat.mod_mod_of_dvd _ hdvd,
      Nat.add_mod, halign, Nat.zero_add, Nat.mod_mod, Mapping.bits,
      Nat.pow_add 2 _ (Y.extra _), Nat.mod_mul_right_div_self, ← hx.step_mod hc,
      Nat.mul_comm (x.step v), Nat.mul_mod_mul_left, Nat.mul_comm]
  apply BitVec.eq_of_toNat_eq
  have hlt := ((x.p + BitVec.ofNat F.w (x.step v) * Mem.span F (x.order / F.B)) |||
    (v &&& (BitVec.ofNat F.w (2 ^ x.bits Y) - 1))).isLt
  have hle : x.order / F.B * F.B + pageBits ≤ x.bits Y := Nat.le_add_right _ _
  rw [BitVec.toNat_or, toNat_mask v hbits] at hlt ⊢
  rw [or_eq_add_mod hle (Nat.mod_lt _ (Nat.two_pow_pos _)) hmod,
    Nat.mod_mod_of_dvd _ (Nat.pow_dvd_pow 2 hle)] at hlt ⊢
  rw [Mapping.phys, hx.offset_eq hc, BitVec.ofNat_add, ← BitVec.add_assoc, ← hspan,
    BitVec.toNat_add _ (BitVec.ofNat _ _), BitVec.toNat_ofNat, Nat.add_mod_mod, Nat.mod_eq_of_lt hlt]

theorem Mapping.Sound.found (hx : x.Sound Y) (hc : x.Covers (Mem.pageOf v)) :
    Mem.found (x.entry (Mem.pageOf v)).2 v (x.entry (Mem.pageOf v)).1 =
      ⟨BitVec.ofNat F.w (2 ^ x.bits Y), x.phys v, x.shown⟩ := by
  have hmap := hx.fits.mappable
  have hfield := hmap.field _ (x.step_lt hc)
  have hB := Mem.mod_lt Y x.order
  have haddr := Y.addr_leaf (l := x.order / F.B) hfield hmap.attrs hB
  have horder := Y.order_leaf (l := x.order / F.B) hfield hmap.attrs hB
  have hlow := and_eq_zero_of_field hfield Y.low
  have hphys := hx.phys_eq hc
  change Mem.found (Mem.entry x.p x.a x.order (x.step v)) v (x.order / F.B) = _
  unfold Mem.found Mem.entry
  rw [haddr, horder, ← Nat.add_assoc, ofNat_two_pow]
  change (⟨BitVec.ofNat F.w (2 ^ x.bits Y), _ ||| (v &&& (BitVec.ofNat F.w (2 ^ x.bits Y) - 1)), _⟩ :
    Found F) = _
  rw [hphys, BitVec.and_or_distrib_right, hlow, BitVec.zero_or]
  rfl

section Linear

variable {m : Mem F} {M : Mappings F} {v' : F.Word}

theorem Refines.lookup (h : Refines Y m M) (v : F.Word) :
    m.lookup v F.L .root = (M.find (Mem.pageOf v)).map fun x =>
      ⟨BitVec.ofNat F.w (2 ^ x.bits Y), x.phys v, x.shown⟩ := by
  have hleaf := h.leaf _ (Mem.pageOf_lt v)
  rw [Mem.leaf] at hleaf
  rw [Mem.lookup_eq Y m v le_rfl, hleaf, Option.map_map]
  apply Option.map_congr
  intro x hx
  have hc : x.Covers (Mem.pageOf v) := by simpa using List.find?_some hx
  exact (h.sound.sound x (List.mem_of_find?_eq_some hx)).found hc

/-- The address space that `v` belongs to, of those that repeat. -/
def turn (v : F.Word) : Nat := v.toNat / 2 ^ pageBits / F.width ^ F.L

theorem turn_add (v : F.Word) :
    turn v * F.width ^ F.L * 2 ^ pageBits + (Mem.pageOf v * 2 ^ pageBits + v.toNat % 2 ^ pageBits) =
      v.toNat := by
  have hpage := Nat.div_add_mod v.toNat (2 ^ pageBits)
  have hturn := Nat.div_add_mod (v.toNat / 2 ^ pageBits) (F.width ^ F.L)
  rw [← Nat.add_assoc, ← Nat.add_mul, turn, Mem.pageOf, Nat.mul_comm _ (F.width ^ F.L), hturn,
    Nat.mul_comm, hpage]

theorem phys_add (hc : x.Covers (Mem.pageOf v)) :
    x.phys v + BitVec.ofNat F.w ((turn v * F.width ^ F.L + x.base) * 2 ^ pageBits) = x.p + v := by
  obtain ⟨i, hi⟩ := Nat.exists_eq_add_of_le hc.1
  have hall : i * 2 ^ pageBits + v.toNat % 2 ^ pageBits +
      (turn v * F.width ^ F.L + x.base) * 2 ^ pageBits = v.toNat := by
    have hsum := turn_add v
    rw [hi, Nat.add_mul] at hsum
    rw [Nat.add_mul]
    omega
  rw [Mapping.phys, hi, Nat.add_sub_cancel_left, BitVec.add_assoc, ← BitVec.ofNat_add, hall,
    BitVec.ofNat_toNat, BitVec.setWidth_eq]

variable (hx : x.Sound Y) (hv : v'.toNat / 2 ^ x.bits Y = v.toNat / 2 ^ x.bits Y)

include hv

theorem page_div_eq :
    v'.toNat / 2 ^ pageBits / 2 ^ x.order = v.toNat / 2 ^ pageBits / 2 ^ x.order := by
  rw [Nat.div_div_eq_div_mul, Nat.div_div_eq_div_mul, ← Nat.pow_add, Nat.add_comm]
  exact Mem.div_pow_eq_of_le (x.bits_le Y) hv

include hx

theorem turn_eq : turn v' = turn v := by
  obtain ⟨i, hi⟩ := Nat.exists_eq_add_of_le hx.fits.le
  unfold turn
  rw [width_pow, hi, Nat.pow_add, ← Nat.div_div_eq_div_mul, ← Nat.div_div_eq_div_mul,
    page_div_eq hv]

theorem covers_region (hc : x.Covers (Mem.pageOf v)) : x.Covers (Mem.pageOf v') := by
  have hdiv : Mem.pageOf v' / 2 ^ x.order = Mem.pageOf v / 2 ^ x.order := by
    obtain ⟨i, hi⟩ := Nat.exists_eq_add_of_le hx.fits.le
    unfold Mem.pageOf
    rw [width_pow, hi, Nat.pow_add, Nat.mod_mul_right_div_self, Nat.mod_mul_right_div_self,
      page_div_eq hv]
  obtain ⟨c, hb⟩ := hx.dvd
  have hpos := Nat.two_pow_pos x.order
  have hiff : ∀ r, x.Covers r ↔ r / 2 ^ x.order = c := by
    intro r
    unfold Mapping.Covers
    rw [hb, Nat.div_eq_iff hpos, Nat.mul_comm c]
    omega
  rw [hiff] at hc ⊢
  rw [hdiv, hc]

theorem phys_region (hc : x.Covers (Mem.pageOf v)) : x.phys v' = x.phys v + (v' - v) := by
  have h1 := phys_add hc
  have h2 := phys_add (covers_region hx hv hc)
  rw [turn_eq hx hv] at h2
  have hsum : x.phys v + (v' - v) + BitVec.ofNat F.w ((turn v * F.width ^ F.L + x.base) * 2 ^ pageBits) =
      x.p + v' := by
    rw [BitVec.add_assoc, BitVec.add_comm (v' - v), ← BitVec.add_assoc, h1, BitVec.add_assoc,
      BitVec.add_comm v, BitVec.sub_add_cancel]
  exact (BitVec.add_left_inj _).mp (h2.trans hsum.symm)

end Linear

inductive Instance where
  | hpt
  | hpt32
  | ept
  | dpt
  | ipt

namespace Instance

def format : Instance → Format
  | hpt => .hpt
  | hpt32 => .hpt32
  | ept => .ept
  | dpt => .dpt
  | ipt => .ipt

def layout : (i : Instance) → Layout i.format
  | hpt => .hpt
  | hpt32 => .hpt32
  | ept => .ept
  | dpt => .dpt
  | ipt => .ipt

end Instance

section Supply

def firstFree (frames : List F.Word) (log : List (Event F)) : Option F.Word :=
  frames.find? fun q => q ∉ taken log

theorem supply_firstFree {Y : Layout F} {frames : List F.Word}
    (h : ∀ q ∈ frames, q &&& Y.field = q ∧ q ≠ 0) : Supply Y (firstFree frames) := by
  intro log q hq
  have hmem := h q (List.mem_of_find?_eq_some hq)
  exact ⟨by simpa using List.find?_some hq, hmem.1, hmem.2⟩

end Supply

/-- After every run, `lookup` finds what is mapped and nothing else; around each
address its answer is linear; an update is not seen outside its range. -/
theorem lookup_refines (i : Instance) {alloc : List (Event i.format) → Option i.format.Word}
    (hs : Supply i.layout alloc) {m : Mem i.format} {M : Mappings i.format}
    (h : Reach i.layout alloc m M) :
    (∀ v, m.translate v = M.translate v) ∧
      (∀ v f, m.lookup v i.format.L .root = some f → ∃ n < i.format.w, f.size.toNat = 2 ^ n ∧
        ∀ v' : i.format.Word, v'.toNat / 2 ^ n = v.toNat / 2 ^ n →
          m.lookup v' i.format.L .root = some ⟨f.size, f.p + (v' - v), f.a⟩) ∧
      ∀ (act : Act i.format) m', act.Allowed i.layout M → act.exec alloc m = some m' →
        ∀ v, ¬Mem.InRange act.range.1 act.range.2 (Mem.pageOf v) →
          m'.lookup v i.format.L .root = m.lookup v i.format.L .root := by
  have hm := h.refines hs
  refine ⟨?_, ?_, ?_⟩
  · intro v
    rw [Mem.translate, hm.lookup v, Option.map_map]
    rfl
  · intro v f hf
    rw [hm.lookup v] at hf
    obtain ⟨x, hfind, rfl⟩ := Option.map_eq_some_iff.mp hf
    have hx := hm.sound.sound x (List.mem_of_find?_eq_some hfind)
    have hc : x.Covers (Mem.pageOf v) := by simpa using List.find?_some hfind
    refine ⟨x.bits i.layout, hx.bits_lt, ?_, ?_⟩
    · rw [BitVec.toNat_ofNat]
      exact Nat.mod_eq_of_lt (Nat.pow_lt_pow_right (by decide) hx.bits_lt)
    · intro v' hv
      rw [hm.lookup v', hm.sound.find_eq (List.mem_of_find?_eq_some hfind) (covers_region hx hv hc),
        Option.map_some, phys_region hx hv hc]
  · intro act m' ha he v hv
    rw [(hm.step hs ha he).lookup v, hm.lookup v, hm.sound.find_apply ha hv]

/-- A superpage where a table is left over. -/
theorem lookup_refines_superpage :
    ∃ m : Mem Format.ept, m.lookup 0x1234 4 .root = some ⟨0x200000, 0x201234, 0x87⟩ ∧
      ∀ v, m.translate v = Mappings.translate [⟨0, 9, 0x200000, 7⟩] v := by
  have hframes : ∀ q ∈ ([0x1000, 0x2000, 0x3000, 0x4000] : List (BitVec 64)),
      q &&& 0xfffffffffffff000 = q ∧ q ≠ 0 := by
    simp
  have hs : Supply Layout.ept (firstFree [0x1000, 0x2000, 0x3000, 0x4000]) :=
    supply_firstFree hframes
  have hpage : Fits Layout.ept 0 0x9000 7 :=
    ⟨by decide, by decide, ⟨by decide, by decide, by decide +kernel⟩, by decide +kernel⟩
  have hsuper : Fits Layout.ept 9 0x200000 7 :=
    ⟨by decide, by decide, ⟨by decide, by decide, by decide +kernel⟩, by decide +kernel⟩
  have hrun : (Option.bind
      ((Act.map 0x5000 0 0x9000 7).exec (firstFree [0x1000, 0x2000, 0x3000, 0x4000])
        (⟨0, fun _ _ => 0, []⟩ : Mem Format.ept)) fun m =>
      Option.bind ((Act.unmap 0x5000 0 0 .dn).exec (firstFree [0x1000, 0x2000, 0x3000, 0x4000]) m)
        fun m => Option.bind
          ((Act.map 0 9 0x200000 7).exec (firstFree [0x1000, 0x2000, 0x3000, 0x4000]) m)
          fun m => m.lookup 0x1234 4 .root) = some ⟨0x200000, 0x201234, 0x87⟩ := by decide +kernel
  obtain ⟨m₁, h₁, hrun⟩ := Option.bind_eq_some_iff.mp hrun
  obtain ⟨m₂, h₂, hrun⟩ := Option.bind_eq_some_iff.mp hrun
  obtain ⟨m₃, h₃, hlookup⟩ := Option.bind_eq_some_iff.mp hrun
  have ha₁ : Act.Allowed Layout.ept [] (.map 0x5000 0 0x9000 7) :=
    ⟨by decide +kernel, hpage, by simp⟩
  have ha₂ : Act.Allowed Layout.ept [⟨5, 0, 0x9000, 7⟩] (.unmap 0x5000 0 0 .dn) :=
    ⟨by decide +kernel, _, List.mem_singleton_self _, by decide +kernel, rfl⟩
  have ha₃ : Act.Allowed Layout.ept [] (.map 0 9 0x200000 7) :=
    ⟨by decide +kernel, hsuper, by simp⟩
  have hmap := (Reach.start (Y := Layout.ept) rfl).step ha₁ h₁
  have hunmap : Reach Layout.ept _ m₂ [] := hmap.step ha₂ h₂
  have hreach : Reach Layout.ept _ m₃ [⟨0, 9, 0x200000, 7⟩] := hunmap.step ha₃ h₃
  exact ⟨m₃, hlookup, (lookup_refines .ept hs hreach).1⟩

end Tukija.Pte
