import Tukija.Boot.Pools

/-! When the memory that the kernel takes for its pools is its own. -/
namespace Tukija.Boot.Info

open Tukija.Lib.Checked Tukija.Lib.Gaps

/-! ## The region -/

def larger (r : Region Nat) (lo hi : Nat) : Bool := decide (lo - r.start < r.stop - hi)

/-- What is reserved, as `_add_buddy` sees it. -/
def holes (l : List HipMem) : List (Nat × Nat) :=
  (l.filter fun m => decide (m.type ≠ HipMem.memoryAvail)).map fun m => (m.addr.toNat, m.mEnd)

theorem exclude_inside {r : Region Nat} (hr : r.stop < 2 ^ 64) {m : HipMem} (ht : m.type ≠ HipMem.memoryAvail)
    (hstop : m.addr.toNat < r.stop) (hend : r.start < m.mEnd) (hstart : r.start ≤ m.addr.toNat) :
    exclude r m = pure (if m.mEnd < r.stop ∧ larger r m.addr.toNat m.mEnd = true then ⟨m.mEnd, r.stop⟩
      else ⟨r.start, m.addr.toNat⟩) := by
  unfold exclude larger
  rw [if_neg ht, if_neg hstop.not_ge, if_neg hend.not_ge, if_pos hstart, min_eq_right hstop.le]
  dsimp only
  rw [sub64_eq hstart (by omega), pure_bind]
  by_cases h : m.mEnd < r.stop
  · rw [if_pos h, sub64_eq h.le hr, pure_bind]
    simp only [h, true_and, decide_eq_true_eq]
    split_ifs <;> rfl
  · rw [if_neg h, if_neg fun hb => h hb.1]

theorem exclude_eq {r : Region Nat} (hr : r.stop < 2 ^ 64) (m : HipMem) :
    exclude r m = pure (if m.type = HipMem.memoryAvail then r
      else r.without (larger r m.addr.toNat m.mEnd) m.addr.toNat m.mEnd) := by
  by_cases ht : m.type = HipMem.memoryAvail
  · rw [exclude, if_pos ht, if_pos ht]
  by_cases hstop : r.stop ≤ m.addr.toNat
  · rw [exclude, Region.without, if_neg ht, if_neg ht, if_pos hstop, if_pos hstop]
  by_cases hend : m.mEnd ≤ r.start
  · rw [exclude, Region.without, if_neg ht, if_neg ht, if_neg hstop, if_neg hstop, if_pos hend, if_pos hend]
  rw [Region.without, if_neg ht, if_neg hstop, if_neg hend]
  by_cases hstart : r.start ≤ m.addr.toNat
  · rw [exclude_inside hr ht (not_le.mp hstop) (not_le.mp hend) hstart, if_pos hstart]
  · rw [exclude, if_neg ht, if_neg hstop, if_neg hend, if_neg hstart, if_neg hstart, if_pos (not_le.mp hend).le]

theorem holes_avail {m : HipMem} (h : m.type = HipMem.memoryAvail) (l : List HipMem) : holes (m :: l) = holes l := by
  simp [holes, h]

theorem holes_reserved {m : HipMem} (h : m.type ≠ HipMem.memoryAvail) (l : List HipMem) :
    holes (m :: l) = (m.addr.toNat, m.mEnd) :: holes l := by
  simp [holes, h]

theorem mem_holes {m : HipMem} {l : List HipMem} (hm : m ∈ l) (h : m.type ≠ HipMem.memoryAvail) :
    (m.addr.toNat, m.mEnd) ∈ holes l :=
  List.mem_map_of_mem (List.mem_filter.mpr ⟨hm, decide_eq_true h⟩)

theorem trim_eq (l : List HipMem) {r : Region Nat} (hr : r.stop < 2 ^ 64) :
    trim l r = pure (r.withoutAll larger (holes l)) := by
  induction l generalizing r with
  | nil => rfl
  | cons m l ih =>
    rw [trim, exclude_eq hr, pure_bind]
    by_cases h : m.type = HipMem.memoryAvail
    · rw [if_pos h, ih hr, holes_avail h]
    · rw [if_neg h, ih ((Region.without_stop_le _).trans_lt hr), holes_reserved h]
      rfl

/-- The first page of 2 MB from `n` on. -/
@[irreducible] def pageUp (n : Nat) : Nat := (n + (maskSize - 1)) / maskSize * maskSize

theorem le_pageUp (n : Nat) : n ≤ pageUp n := by
  simp only [pageUp, maskSize]
  omega

theorem pageUp_aligned {n : Nat} (h : n % maskSize = 0) : pageUp n = n := by
  simp only [pageUp, maskSize] at *
  omega

theorem pageUp_unaligned {n : Nat} (h : n % maskSize ≠ 0) : pageUp n = n + (maskSize - n % maskSize) := by
  simp only [pageUp, maskSize] at *
  omega

theorem align_eq {start stop : Nat} (h : start ≤ stop) (hs : stop < 2 ^ 64) :
    align start (stop - start) =
      pure (if pageUp start ≤ stop then (pageUp start, stop - pageUp start) else (start, 0)) := by
  unfold align
  by_cases hm : start % maskSize = 0
  · rw [if_neg (not_not.mpr hm), pageUp_aligned hm, if_pos h]
  · have hlt : start % maskSize < maskSize := Nat.mod_lt _ (by decide)
    rw [if_pos hm, sub64_eq hlt.le (by decide), pure_bind, pageUp_unaligned hm]
    by_cases ha : maskSize - start % maskSize ≤ stop - start
    · rw [if_pos ha, if_pos (by omega), sub64_eq ha (by omega), pure_bind, Nat.mod_eq_of_lt (by omega),
        Nat.sub_add_eq]
    · rw [if_neg ha, if_neg (by omega)]

theorem buddyVMax_lt : buddyVMax < 2 ^ 64 := by
  unfold buddyVMax
  decide

namespace Layout

variable (k : Layout) (max : Nat) (s : Kmem) (cmp : HipMem)

/-! ## What is taken -/

def place (start : Nat) : Nat := k.mempoolE + (start - k.linkE)

def need : Nat :=
  if s.allocated < k.kernelTargetSize max then k.kernelTargetSize max - s.allocated else k.kernelTargetSize max

/-- What there is room for in the window, if the place does not wrap. -/
def room (virt size : Nat) : Nat := if buddyVMax ≤ (virt + size) % 2 ^ 64 then buddyVMax - virt else size

/-- In pages of 2 MB what is needed and there is room for, if there is a descriptor left for it. -/
@[irreducible] def amount (start size : Nat) : Nat :=
  if buddyVMax ≤ k.place start % 2 ^ 64 ∨ pageHSize < s.hip.length + Info.memSize then 0
  else min (k.need max s) (room (k.place start % 2 ^ 64) size) / maskSize * maskSize

theorem kernelTargetSize_lt : k.kernelTargetSize max < 2 ^ 64 := by
  have hmin := k.dynMin_lt
  have hmod : max / 1000 * k.dynPerMill % 2 ^ 64 < 2 ^ 64 := Nat.mod_lt _ (by decide)
  unfold kernelTargetSize
  dsimp only
  split_ifs
  · exact Nat.max_lt.mpr ⟨hmin, hmod⟩
  · exact hmod

theorem missing_eq : k.missing max s.allocated = pure (k.need max s) := by
  unfold missing need
  split_ifs with h
  · exact sub64_eq h.le (k.kernelTargetSize_lt max)
  · rfl

theorem limit_eq {virt : Nat} (h : virt < buddyVMax) (size : Nat) : limit virt size = pure (room virt size) := by
  unfold limit room
  split_ifs
  · exact sub64_eq h.le buddyVMax_lt
  · rfl

theorem take_eq {start : Nat} (h : k.linkE ≤ start) (hs : start < 2 ^ 64) (size : Nat) :
    k.take max s start size = pure (if k.amount max s start size = 0 then none
      else some ⟨start, k.place start % 2 ^ 64, k.amount max s start size⟩) := by
  rw [take, sub64_eq h hs, pure_bind, ← place]
  generalize ha : k.amount max s start size = n
  unfold amount at ha
  generalize k.place start % 2 ^ 64 = virt at ha ⊢
  by_cases hv : buddyVMax ≤ virt
  · rw [if_pos (Or.inl hv)] at ha
    rw [if_pos hv, if_pos ha.symm]
  rw [if_neg hv, limit_eq (Nat.lt_of_not_le hv), pure_bind, missing_eq, pure_bind]
  generalize min (k.need max s) (room virt size) / maskSize * maskSize = m at ha ⊢
  dsimp only
  by_cases hp : pageHSize < s.hip.length + Info.memSize
  · rw [if_pos (Or.inr hp)] at ha
    rw [if_pos hp, ite_self, if_pos ha.symm]
  · rw [if_neg (not_or.mpr ⟨hv, hp⟩)] at ha
    rw [if_neg hp, ← ha]
    exact (apply_ite pure _ _ _).symm

theorem amount_le (start size : Nat) : k.amount max s start size ≤ size := by
  unfold amount
  generalize k.place start % 2 ^ 64 = virt
  split_ifs with h
  · exact Nat.zero_le _
  have hl : room virt size ≤ size := by
    unfold room
    split_ifs with hv
    · exact Nat.sub_le_of_le_add (hv.trans ((Nat.mod_le _ _).trans_eq (Nat.add_comm _ _)))
    · exact le_rfl
  exact (Nat.div_mul_le_self _ _).trans ((min_le_right _ _).trans hl)

theorem dvd_amount (start size : Nat) : maskSize ∣ k.amount max s start size := by
  unfold amount
  split_ifs
  · exact dvd_zero _
  · exact dvd_mul_left _ _

/-- What the reserved descriptors leave of the memory from the end of the image to
the end of the block. -/
def rest : Region Nat :=
  Region.withoutAll larger ⟨k.linkE, (cmp.addr.toNat + cmp.size.toNat) % 2 ^ 64⟩ (holes s.hip.descs)

theorem regionEnd_lt : (cmp.addr.toNat + cmp.size.toNat) % 2 ^ 64 < 2 ^ 64 := Nat.mod_lt _ (by decide)

theorem linkE_le_rest : k.linkE ≤ (k.rest s cmp).start :=
  show Region.start ⟨k.linkE, _⟩ ≤ _ from Region.start_le_withoutAll _

theorem rest_stop_le : (k.rest s cmp).stop ≤ (cmp.addr.toNat + cmp.size.toNat) % 2 ^ 64 :=
  Region.withoutAll_stop_le _

theorem pool_rest (hend : k.linkE < (cmp.addr.toNat + cmp.size.toNat) % 2 ^ 64) :
    k.pool max s cmp = sub64 (k.rest s cmp).stop (k.rest s cmp).start >>= fun regionSize =>
      align (k.rest s cmp).start regionSize >>= fun p => k.take max s p.1 p.2 := by
  rw [pool, if_neg hend.not_ge, trim_eq s.hip.descs (r := ⟨k.linkE, _⟩) (regionEnd_lt cmp), pure_bind, ← rest]

def base : Nat := pageUp (k.rest s cmp).start

def taken : Nat := k.amount max s (k.base s cmp) ((k.rest s cmp).stop - k.base s cmp)

theorem pool_eq (hend : k.linkE < (cmp.addr.toNat + cmp.size.toNat) % 2 ^ 64)
    (hr : (k.rest s cmp).start ≤ (k.rest s cmp).stop) :
    k.pool max s cmp = pure (if k.taken max s cmp = 0 then none
      else some ⟨k.base s cmp, k.place (k.base s cmp) % 2 ^ 64, k.taken max s cmp⟩) := by
  have hs := k.linkE_le_rest s cmp
  have he := (k.rest_stop_le s cmp).trans_lt (regionEnd_lt cmp)
  rw [k.pool_rest max s cmp hend, sub64_eq hr he, pure_bind, align_eq hr he, pure_bind, taken, base]
  by_cases hp : pageUp (k.rest s cmp).start ≤ (k.rest s cmp).stop
  · rw [if_pos hp]
    dsimp only
    rw [k.take_eq max s (hs.trans (le_pageUp _)) (hp.trans_lt he)]
  · rw [if_neg hp, Nat.sub_eq_zero_of_le (not_le.mp hp).le]
    dsimp only
    rw [k.take_eq max s hs (hr.trans_lt he), Nat.le_zero.mp (k.amount_le max s _ 0),
      Nat.le_zero.mp (k.amount_le max s _ 0), if_pos rfl, if_pos rfl]

theorem pool_wraps (hend : k.linkE < (cmp.addr.toNat + cmp.size.toNat) % 2 ^ 64)
    (hr : (k.rest s cmp).stop < (k.rest s cmp).start) : (k.pool max s cmp).wraps = true := by
  rw [k.pool_rest max s cmp hend]
  exact sub64_bind_wraps hr _

theorem base_taken_le (h : k.taken max s cmp ≠ 0) : k.base s cmp + k.taken max s cmp ≤ (k.rest s cmp).stop := by
  have hle : k.taken max s cmp ≤ (k.rest s cmp).stop - k.base s cmp := k.amount_le max s _ _
  omega

/-! ## The pages -/

/-- What a page that becomes the kernel's own should be. -/
structure PageOk (phys virt : Nat) : Prop where
  inside : cmp.addr.toNat ≤ phys ∧ phys + 0x1000 ≤ cmp.addr.toNat + cmp.size.toNat
  free : ∀ d ∈ s.hip.descs, d.type ≠ HipMem.memoryAvail → ∀ a, phys ≤ a → a < phys + 0x1000 →
    a < d.addr.toNat ∨ d.addr.toNat + d.extent ≤ a
  behind : k.linkE ≤ phys
  window : k.mempoolE ≤ virt ∧ virt + 0x1000 ≤ buddyVMax

/-- No difference wraps, and all pages that are handed out are as they should be. -/
def Safe : Prop :=
  (k.pool max s cmp).wraps = false ∧ ∀ p, (k.pool max s cmp).val = some p →
    ∀ i < p.size / 0x1000, k.PageOk s cmp (p.start + i * 0x1000) (p.virt + i * 0x1000)

/-- What is taken begins in the block, its place does not go beyond the window, and
it is outside those descriptors that reserve more than up to their `m_end`: frame buffers that are
higher than wide, and what goes up to 2^64. -/
structure Fits : Prop where
  block : cmp.addr.toNat ≤ k.base s cmp
  window : k.place (k.base s cmp) + k.taken max s cmp ≤ buddyVMax
  beyond : ∀ d ∈ s.hip.descs, d.type ≠ HipMem.memoryAvail → d.mEnd < d.addr.toNat + d.extent →
    ∀ a, k.base s cmp ≤ a → a < k.base s cmp + k.taken max s cmp → a < d.addr.toNat ∨ d.addr.toNat + d.extent ≤ a

/-- No descriptor covers what those in front of it left, and what is taken fits. -/
def Clear : Prop :=
  k.linkE < (cmp.addr.toNat + cmp.size.toNat) % 2 ^ 64 →
    Region.NoneCovers larger ⟨k.linkE, (cmp.addr.toNat + cmp.size.toNat) % 2 ^ 64⟩ (holes s.hip.descs) ∧
      (k.taken max s cmp ≠ 0 → k.Fits max s cmp)

variable {k max s cmp}

theorem Fits.pageOk (h : k.Fits max s cmp) (ht : k.taken max s cmp ≠ 0) {i : Nat}
    (hi : i < k.taken max s cmp / 0x1000) :
    k.PageOk s cmp (k.base s cmp + i * 0x1000) (k.place (k.base s cmp) + i * 0x1000) := by
  have hp : i * 0x1000 + 0x1000 ≤ k.taken max s cmp := by omega
  have hstart := k.linkE_le_rest s cmp
  have hbase : (k.rest s cmp).start ≤ k.base s cmp := le_pageUp _
  have hstop := k.base_taken_le max s cmp ht
  have hend := k.rest_stop_le s cmp
  have hmod := Nat.mod_le (cmp.addr.toNat + cmp.size.toNat) (2 ^ 64)
  constructor
  case inside => exact ⟨h.block.trans (Nat.le_add_right _ _), by omega⟩
  case behind => omega
  case window => exact ⟨(Nat.le_add_right _ _).trans (Nat.le_add_right _ _), by have := h.window; omega⟩
  case free =>
    intro d hd htype a ha ha'
    by_cases hbeyond : d.mEnd < d.addr.toNat + d.extent
    · exact h.beyond d hd htype hbeyond a (by omega) (by omega)
    · have hav : (k.rest s cmp).Avoids d.addr.toNat d.mEnd := Region.withoutAll_avoids (mem_holes hd htype)
      cases hav with
      | inl hlo => exact .inl (by omega)
      | inr hhi => exact .inr (by omega)

theorem place_lt (h : k.base s cmp < 2 ^ 64) : k.place (k.base s cmp) < k.mempoolE + 2 ^ 64 := by
  unfold place
  omega

theorem fits_of_pageOk (ht : k.taken max s cmp ≠ 0)
    (h : ∀ i < k.taken max s cmp / 0x1000,
      k.PageOk s cmp (k.base s cmp + i * 0x1000) (k.place (k.base s cmp) % 2 ^ 64 + i * 0x1000)) :
    k.Fits max s cmp := by
  obtain ⟨n, hn⟩ : 0x1000 ∣ k.taken max s cmp := (by decide : 0x1000 ∣ maskSize).trans (k.dvd_amount max s _ _)
  have hstop := k.base_taken_le max s cmp ht
  have hlt := (k.rest_stop_le s cmp).trans_lt (regionEnd_lt cmp)
  have hplace : k.place (k.base s cmp) < k.mempoolE + 2 ^ 64 := place_lt (by omega)
  rw [hn, Nat.mul_div_cancel_left n (by decide : 0 < 0x1000)] at h
  have first := h 0 (by omega)
  rw [Nat.zero_mul, Nat.add_zero, Nat.add_zero] at first
  have last := h (n - 1) (by omega)
  have hmod : k.place (k.base s cmp) % 2 ^ 64 = k.place (k.base s cmp) := by
    have := first.window.1
    have := k.mempoolE_lt
    omega
  rw [hmod] at last
  constructor
  case block => exact first.inside.1
  case window =>
    have := last.window.2
    omega
  case beyond =>
    intro d hd htype _ a ha ha'
    have hi : (a - k.base s cmp) / 0x1000 < n := by omega
    exact (h _ hi).free d hd htype a (by omega) (by omega)

end Layout

def smallLayout : Layout := ⟨0x1800000, 0xffffffff81800000, 0xc00000, 0, by decide, by decide, by decide⟩

/-- Memory up to 26 MB and from 1 GB on, with nothing said about the addresses between. -/
def splitMap : Hip :=
  { Hip.zero with
    length := Info.memOffs + 5 * Info.memSize
    memDesc := [⟨0x100000, 0x1900000, HipMem.memoryAvail, 0⟩, ⟨0x40000000, 0x40000000, HipMem.memoryAvail, 0⟩,
      ⟨0x200000, 0x20000, HipMem.hypervisor, 0⟩, ⟨0x1000, 0x1000, HipMem.hypervisor, 0⟩,
      ⟨0x1000000, 0x800000, HipMem.hypervisor, 0⟩] }

end Tukija.Boot.Info
