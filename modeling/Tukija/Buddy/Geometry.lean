import Tukija.Buddy.Spec

/-! The pools that the constructor sets up.  Its index storage has room for one
descriptor less than there are pages when the division that sizes it leaves a
remainder of a whole page or more; then the last descriptor is the first list
head. -/
namespace Tukija.Buddy

open Tukija.Lib Tukija.Lib.Ring Tukija.Lib.Dyadic

namespace Args

/-- What the two callers of the constructor see to: memory in the kernel's
linear window, in whole pages. -/
structure Admitted (g : Args) : Prop where
  virt_eq : g.virt = g.phys + g.offset
  phys_page : pageSize ∣ g.phys
  offset_page : pageSize ∣ g.offset
  fAddr_page : pageSize ∣ g.fAddr
  virt_le : g.virt ≤ g.fAddr
  size_ge : pageSize ≤ g.size
  size_le : g.virt + g.size ≤ 2 ^ 64

/-- The descriptors of all pages lie before the list heads. -/
def IndexFits (g : Args) : Prop := g.headless % (pageSize + blockSize) < pageSize

instance (g : Args) : Decidable g.IndexFits := inferInstanceAs (Decidable (_ < _))

variable {g : Args}

theorem alignUp_dvd (val k : Nat) : 2 ^ k ∣ alignUp val (2 ^ k) := by
  unfold alignUp
  exact Nat.dvd_sub_mod _

theorem alignUp_ge (val k : Nat) : val ≤ alignUp val (2 ^ k) := by
  have hpos := Nat.two_pow_pos k
  have hlt := Nat.mod_lt (val + (2 ^ k - 1)) hpos
  unfold alignUp
  omega

theorem alignUp_lt (val k : Nat) : alignUp val (2 ^ k) < val + 2 ^ k := by
  have hpos := Nat.two_pow_pos k
  unfold alignUp
  omega

namespace Admitted

variable (h : g.Admitted)
include h

theorem le_bit : pageBits ≤ g.bit := by
  have hsize : 2 ^ 12 ≤ g.size := h.size_ge
  have hne : g.size ≠ 0 := by omega
  exact (Nat.le_log2 hne).mpr hsize

theorem two_pow_bit_le : 2 ^ g.bit ≤ g.size := by
  have hsize : 2 ^ 12 ≤ g.size := h.size_ge
  exact Nat.log2_self_le (by omega)

theorem size_lt : g.size < 2 ^ (g.order + pageBits) := by
  have hsize : 2 ^ 12 ≤ g.size := h.size_ge
  have hbit := h.le_bit
  have heq : g.order + pageBits = g.bit + 1 := by
    unfold order pageBits at *
    omega
  rw [heq]
  exact Nat.lt_log2_self

theorem order_eq : g.order - 1 + pageBits = g.bit := by
  have hbit := h.le_bit
  unfold order pageBits at *
  omega

theorem order_bounds : 0 < g.order ∧ g.order ≤ 53 := by
  have hbit := h.le_bit
  have hsize : 2 ^ 12 ≤ g.size := h.size_ge
  have hle := h.size_le
  have hb : g.bit < 65 := by
    have := (Nat.log2_lt (n := g.size) (k := 65) (by omega)).mpr (by omega)
    exact this
  unfold order pageBits at *
  omega

omit h in
theorem pool_dvd : pageSize ∣ g.pool := Nat.dvd_sub_mod _

omit h in
theorem pool_le : g.pool ≤ g.size := by
  unfold pool headless
  dsimp only
  omega

end Admitted

theorem fields_base : g.fields.base = ((alignUp g.phys (2 ^ g.bit) + g.offset : Nat) : Int) := by
  simp [fields]

theorem fields_order : g.fields.order = g.order := rfl

theorem Admitted.fields_indices (h : g.Admitted) :
    ∃ v o n : Nat, (g.virt : Int) = v * pageSize ∧ g.fields.base = o * pageSize ∧
      g.pool = n * pageSize ∧ g.fields.minIdx = v - o ∧ g.fields.maxIdx = v - o + n := by
  have hvirt : pageSize ∣ g.virt := by
    rw [h.virt_eq]
    exact Dvd.dvd.add h.phys_page h.offset_page
  have hbase : pageSize ∣ alignUp g.phys (2 ^ g.bit) + g.offset := by
    have hpage : pageSize = 2 ^ pageBits := rfl
    apply Dvd.dvd.add _ h.offset_page
    rw [hpage]
    exact (pow_dvd_pow 2 h.le_bit).trans (alignUp_dvd _ _)
  obtain ⟨v, hv⟩ := hvirt
  obtain ⟨o, ho⟩ := hbase
  obtain ⟨n, hn⟩ := Admitted.pool_dvd (g := g)
  have hb : g.fields.base = o * pageSize := by
    rw [fields_base, ho]
    push_cast
    ring
  have hmin : g.fields.minIdx = (g.virt : Int) / pageSize - g.fields.base / pageSize := rfl
  have hmax : g.fields.maxIdx =
      ((g.virt + g.pool : Nat) : Int) / pageSize - g.fields.base / pageSize := rfl
  refine ⟨v, o, n, by rw [hv]; push_cast; ring, hb, by rw [hn]; ring, ?_, ?_⟩
  · rw [hmin, hb, hv]
    simp only [pageSize]
    push_cast
    omega
  · rw [hmax, hb, hv, hn]
    simp only [pageSize]
    push_cast
    omega

theorem Admitted.layout (h : g.Admitted) (hfits : g.IndexFits) : g.fields.Layout := by
  obtain ⟨v, o, n, hv, hb, hn, hmin, hmax⟩ := h.fields_indices
  obtain ⟨hpos, hle⟩ := h.order_bounds
  have hbase := fields_base (g := g)
  have hge := alignUp_ge g.phys g.bit
  have hlt := alignUp_lt g.phys g.bit
  have hbit := h.two_pow_bit_le
  have hsize := h.size_le
  have hvirt := h.virt_eq
  have hpool := Admitted.pool_le (g := g)
  have hpages : n < 2 ^ g.order := by
    have hlt := h.size_lt
    rw [pow_add, show 2 ^ pageBits = pageSize from rfl] at hlt
    exact Nat.lt_of_mul_lt_mul_right (a := pageSize) (by omega)
  simp only [pageSize, Nat.cast_ofNat] at hv hb hn
  refine ⟨hpos, by rw [fields_order]; omega, by omega, by omega, ?_, ?_, ?_, ?_⟩
  · rw [hmin, hmax, fields_order]
    zify at hpages
    linarith
  · -- the last descriptor ends where the first head begins, or before
    intro k _ i h1 h2
    have hroom : g.pool + n * blockSize ≤ g.headless := by
      unfold IndexFits at hfits
      have hdef : g.pool = g.headless - g.headless / (pageSize + blockSize) * blockSize -
        (g.headless - g.headless / (pageSize + blockSize) * blockSize) % pageSize := rfl
      simp only [pageSize, blockSize] at hfits hdef ⊢
      omega
    have hindex : g.fields.indexToBlock i =
        (g.virt + g.pool : Nat) + (i - g.fields.minIdx) * (blockSize : Nat) := by
      unfold Pool.indexToBlock
      have : g.fields.index = (g.virt + g.pool : Nat) - g.fields.minIdx * (blockSize : Nat) := rfl
      rw [this]
      ring
    have hhead : g.fields.headAt k = (g.virt + g.headless : Nat) + (k : Int) * (blockSize : Nat) := rfl
    rw [hindex, hhead]
    simp only [blockSize] at hroom ⊢
    push_cast
    omega
  · rw [hb]
    exact Dvd.intro_left _ rfl
  · rw [fields_order, h.order_eq, hbase]
    have hoff : g.fields.offset = g.offset := rfl
    have hsub : ((alignUp g.phys (2 ^ g.bit) + g.offset : Nat) : Int) - g.fields.offset =
        ((alignUp g.phys (2 ^ g.bit) : Nat) : Int) := by
      rw [hoff]
      push_cast
      ring
    rw [hsub]
    exact_mod_cast alignUp_dvd g.phys g.bit

end Args

section Construct

variable {g : Args}

def released (g : Args) : Set Int :=
  {i | g.fields.pageToIndex g.fAddr ≤ i ∧ i < g.fields.maxIdx}

theorem emptyLists_tiled : Tiled g.fields g.emptyLists ∅ ∅ ∅ ∅ := by
  have hhead : ∀ k < g.fields.order,
      g.emptyLists (g.fields.headAt k) = ⟨g.fields.headAt k, g.fields.headAt k, 0, .used⟩ := by
    intro k hk
    exact if_pos ⟨k, hk, rfl⟩
  refine ⟨⟨?_, by simp, by simp⟩, by simp, by simp, by simp, ?_, ?_, ?_, ?_⟩
  · intro k hk
    refine ⟨[], ⟨by simp, ?_⟩, by simp⟩
    simp [Mem.next, Mem.prev, hhead k hk]
  · simp [Apart]
  · simp [covered]
  · intro i _ _ _
    unfold Args.emptyLists
    split <;> simp
  · simp [Coalesced]

theorem release_spec (hp : g.fields.Layout) (hend : (g.virt + g.pool : Nat) = g.fields.indexToPage g.fields.maxIdx)
    {f i : Int} {n : Nat} {m : Mem} {F : Set Dyadic.Block}
    (hmin : g.fields.minIdx ≤ i) (hf : f ≤ i) (hi : i ≤ g.fields.maxIdx ∨ i = f)
    (hn : g.fields.maxIdx - i ≤ n) (h : Tiled g.fields m F ∅ ∅ {j | f ≤ j ∧ j < i}) :
    ∃ m' F', g.release n (g.fields.indexToPage i) m = some m' ∧
      Tiled g.fields m' F' ∅ ∅ {j | f ≤ j ∧ j < g.fields.maxIdx} := by
  have hcond : g.fields.indexToPage i < (g.virt + g.pool : Nat) ↔ i < g.fields.maxIdx := by
    rw [hend]
    simp only [Pool.indexToPage, pageSize, Nat.cast_ofNat]
    omega
  have hdone : ¬i < g.fields.maxIdx →
      {j : Int | f ≤ j ∧ j < i} = {j | f ≤ j ∧ j < g.fields.maxIdx} := by
    intro hge
    ext j
    simp only [Set.mem_ofPred_eq]
    omega
  induction n generalizing i m F with
  | zero => exact ⟨m, F, rfl, by rw [← hdone (by omega)]; exact h⟩
  | succ n ih =>
    unfold Args.release
    by_cases hlt : i < g.fields.maxIdx
    · rw [if_pos (hcond.mpr hlt)]
      have hmem : ∀ j : Int, j ∈ (⟨i, 0⟩ : Dyadic.Block) ↔ j = i := by
        intro j
        simp [Block.mem_def, Block.size]
      have hstart : (⟨i, 0⟩ : Dyadic.Block).start = i := by simp [Block.start, Block.size]
      have hadd := h.add (b := ⟨i, 0⟩) ⟨hp.order_pos, fun j hj => by rw [(hmem j).mp hj]; omega⟩ (by
        intro j hj
        rw [(hmem j).mp hj]
        simp)
      have hset : {j : Int | f ≤ j ∧ j < i} ∪ {j | j ∈ (⟨i, 0⟩ : Dyadic.Block)} =
          {j | f ≤ j ∧ j < i + 1} := by
        ext j
        simp only [Set.mem_union, Set.mem_ofPred_eq, hmem]
        omega
      rw [hset, show insert (⟨i, 0⟩ : Dyadic.Block) ∅ = {⟨i, 0⟩} by simp] at hadd
      have hvirgin := h.unreleased i hmin hlt (by simp)
      obtain ⟨m1, F1, hfree, htiled⟩ := free_spec hp hadd (by
        rw [Pool.desc, hstart]
        exact hvirgin)
      rw [hstart] at hfree
      have hnext : g.fields.indexToPage i + pageSize = g.fields.indexToPage (i + 1) := by
        unfold Pool.indexToPage
        ring
      rw [hfree, Option.bind_some, hnext]
      apply ih (by omega) (by omega) (by omega) (by omega) htiled
      · rw [hend]
        simp only [Pool.indexToPage, pageSize, Nat.cast_ofNat]
        omega
      · intro hge
        ext j
        simp only [Set.mem_ofPred_eq]
        omega
    · rw [if_neg fun e => hlt (hcond.mp e), ← hdone hlt]
      exact ⟨m, F, rfl, h⟩

theorem construct_spec (h : g.Admitted) (hfits : g.IndexFits) :
    ∃ m F, g.construct = some m ∧ Tiled g.fields m F ∅ ∅ (released g) := by
  have hp := h.layout hfits
  obtain ⟨v, o, n, hv, hb, hn, hmin, hmax⟩ := h.fields_indices
  obtain ⟨q, hq⟩ := h.fAddr_page
  have hle := h.virt_le
  have hidx : g.fields.pageToIndex g.fAddr = q - o := by
    rw [Pool.pageToIndex, hb, hq]
    simp only [pageSize]
    push_cast
    omega
  have haddr : (g.fAddr : Int) = g.fields.indexToPage (q - o) := by
    rw [Pool.indexToPage, hb, hq]
    simp only [pageSize]
    push_cast
    ring
  have hend : ((g.virt + g.pool : Nat) : Int) = g.fields.indexToPage g.fields.maxIdx := by
    rw [Pool.indexToPage, hb, hmax, hn]
    push_cast
    rw [hv]
    ring
  have hvq : (v : Int) ≤ q := by
    simp only [pageSize] at hv hq
    push_cast at hv
    omega
  unfold Args.construct
  rw [haddr]
  obtain ⟨m, F, hrel, ht⟩ := release_spec (f := q - o) (i := q - o) (n := g.pool / pageSize)
    (m := g.emptyLists) (F := ∅) hp hend (by omega) le_rfl (.inr rfl) (by
      have : g.pool / pageSize = n := by
        rw [hn]
        exact Nat.mul_div_cancel _ (by decide)
      rw [this]
      omega) (by
      have hempty : {j : Int | (q : Int) - o ≤ j ∧ j < q - o} = ∅ := by
        apply Set.eq_empty_iff_forall_notMem.mpr
        rintro j ⟨h1, h2⟩
        omega
      rw [hempty]
      exact emptyLists_tiled)
  refine ⟨m, F, hrel, ?_⟩
  rw [released, hidx]
  exact ht

end Construct

end Tukija.Buddy
