import Tukija.Buddy.Runs

/-! Where the constructor puts what: the pages from the start of the memory, the
index storage behind them, the list heads at the end. -/
namespace Tukija.Buddy

namespace Args

variable (g : Args)

def whole : Set Int := Set.Ico (g.virt : Int) ((g.virt + g.size : Nat) : Int)

/-- The pages the pool has, with `size` as the constructor leaves it. -/
def managed : Set Int := Set.Ico (g.virt : Int) ((g.virt + g.pool : Nat) : Int)

def descriptors : Set Int :=
  {x | ∃ page ∈ g.managed, g.fields.indexToBlock (g.fields.pageToIndex page) ≤ x ∧
    x < g.fields.indexToBlock (g.fields.pageToIndex page) + (blockSize : Nat)}

def listHeads : Set Int :=
  {x | ∃ i < g.fields.order, g.fields.headAt i ≤ x ∧ x < g.fields.headAt i + (blockSize : Nat)}

/-- Nothing lies outside, and no byte has two uses. -/
structure Apart : Prop where
  managed_whole : g.managed ⊆ g.whole
  descriptors_whole : g.descriptors ⊆ g.whole
  heads_whole : g.listHeads ⊆ g.whole
  managed_descriptors : Disjoint g.managed g.descriptors
  managed_heads : Disjoint g.managed g.listHeads
  descriptors_heads : Disjoint g.descriptors g.listHeads

variable {g}

theorem mem_managed {x : Int} :
    x ∈ g.managed ↔ (g.virt : Int) ≤ x ∧ x < ((g.virt + g.pool : Nat) : Int) := Iff.rfl

theorem mem_whole {x : Int} :
    x ∈ g.whole ↔ (g.virt : Int) ≤ x ∧ x < ((g.virt + g.size : Nat) : Int) := Iff.rfl

theorem descriptor_eq (page : Int) :
    g.fields.indexToBlock (g.fields.pageToIndex page) =
      (g.virt + g.pool : Nat) + (page / pageSize - (g.virt : Int) / pageSize) * (blockSize : Nat) := by
  have hindex : g.fields.index = (g.virt + g.pool : Nat) - g.fields.minIdx * (blockSize : Nat) := rfl
  have hmin : g.fields.minIdx = (g.virt : Int) / pageSize - g.fields.base / pageSize := rfl
  unfold Pool.indexToBlock Pool.pageToIndex
  rw [hindex, hmin]
  ring

theorem mem_descriptors (hvirt : pageSize ∣ g.virt) {x : Int} :
    x ∈ g.descriptors ↔ ((g.virt + g.pool : Nat) : Int) ≤ x ∧
      x < ((g.virt + g.pool + g.pool / pageSize * blockSize : Nat) : Int) := by
  obtain ⟨v, hv⟩ := hvirt
  obtain ⟨n, hn⟩ := Admitted.pool_dvd (g := g)
  have hdiv : g.pool / pageSize = n := by simp [hn, pageSize]
  simp only [descriptors, mem_managed, Set.mem_ofPred_eq, descriptor_eq, hdiv]
  simp only [hv, hn, pageSize, blockSize]
  constructor
  · rintro ⟨page, ⟨hlo, hhi⟩, hle, hlt⟩
    constructor <;> omega
  · rintro ⟨hle, hlt⟩
    -- the page whose descriptor has the byte
    refine ⟨4096 * (v + (x - (4096 * v + 4096 * n)) / 24), ⟨?_, ?_⟩, ?_, ?_⟩ <;> omega

theorem mem_listHeads {x : Int} :
    x ∈ g.listHeads ↔ ((g.virt + g.headless : Nat) : Int) ≤ x ∧
      x < ((g.virt + g.headless + g.order * blockSize : Nat) : Int) := by
  have hhead (i : Nat) : g.fields.headAt i = (g.virt + g.headless : Nat) + (i : Int) * (blockSize : Nat) := rfl
  simp only [listHeads, Set.mem_ofPred_eq, hhead, fields_order, blockSize]
  constructor
  · rintro ⟨i, hi, hle, hlt⟩
    constructor <;> omega
  · rintro ⟨hle, hlt⟩
    refine ⟨((x - (g.virt + g.headless : Nat)) / 24).toNat, ?_, ?_, ?_⟩ <;> omega

/-- The index storage ends where the heads begin, or before, if the division that
sizes it leaves less than a page. -/
theorem indexFits_iff : g.IndexFits ↔ g.pool + g.pool / pageSize * blockSize ≤ g.headless := by
  have hpool : g.pool = g.headless - g.headless / (pageSize + blockSize) * blockSize -
    (g.headless - g.headless / (pageSize + blockSize) * blockSize) % pageSize := rfl
  unfold IndexFits
  simp only [pageSize, blockSize] at hpool ⊢
  constructor <;> intro h <;> omega

/-- A memory of at least a page with its descriptor and the heads is divided up
without overlap exactly if the descriptors of all pages lie before the heads. -/
theorem apart_iff_indexFits (hvirt : pageSize ∣ g.virt)
    (hsize : pageSize + blockSize + g.order * blockSize ≤ g.size) : g.Apart ↔ g.IndexFits := by
  have hheadless : g.headless + g.order * blockSize = g.size := by
    unfold headless
    omega
  have hpool : g.pool ≤ g.headless := by
    unfold pool
    dsimp only
    omega
  have horder : 0 < g.order := by
    have hbit : 12 ≤ g.bit := (Nat.le_log2 (by simp only [pageSize] at hsize; omega)).mpr
      (by simp only [pageSize] at hsize; omega)
    unfold order pageBits
    omega
  rw [indexFits_iff]
  constructor
  · intro h
    by_contra hlt
    -- the first byte of the first head
    have hd : ((g.virt + g.headless : Nat) : Int) ∈ g.descriptors :=
      (mem_descriptors hvirt).mpr ⟨by omega, by omega⟩
    have hh : ((g.virt + g.headless : Nat) : Int) ∈ g.listHeads :=
      mem_listHeads.mpr ⟨le_refl _, by simp only [blockSize]; omega⟩
    exact Set.disjoint_left.mp h.descriptors_heads hd hh
  · intro h
    constructor
    · intro x hx
      rw [mem_managed] at hx
      rw [mem_whole]
      omega
    · intro x hx
      rw [mem_descriptors hvirt] at hx
      rw [mem_whole]
      omega
    · intro x hx
      rw [mem_listHeads] at hx
      rw [mem_whole]
      omega
    · refine Set.disjoint_left.mpr fun x hx hd => ?_
      rw [mem_managed] at hx
      rw [mem_descriptors hvirt] at hd
      omega
    · refine Set.disjoint_left.mpr fun x hx hd => ?_
      rw [mem_managed] at hx
      rw [mem_listHeads] at hd
      omega
    · refine Set.disjoint_left.mpr fun x hx hd => ?_
      rw [mem_descriptors hvirt] at hx
      rw [mem_listHeads] at hd
      omega

theorem apart_iff_indexFits_twoPages : twoPages.Apart ↔ twoPages.IndexFits :=
  apart_iff_indexFits (by decide) (by decide +kernel)

/-- The first head of the boot pool lies on the descriptor of its last page. -/
theorem bootPool_not_apart : pageSize ∣ bootPool.virt ∧
    pageSize + blockSize + bootPool.order * blockSize ≤ bootPool.size ∧ ¬bootPool.Apart := by
  refine ⟨by decide, by decide +kernel, fun h => ?_⟩
  have hd : ((bootPool.virt + bootPool.headless : Nat) : Int) ∈ bootPool.descriptors :=
    (mem_descriptors (by decide)).mpr (by decide +kernel)
  have hh : ((bootPool.virt + bootPool.headless : Nat) : Int) ∈ bootPool.listHeads :=
    mem_listHeads.mpr (by decide +kernel)
  exact Set.disjoint_left.mp h.descriptors_heads hd hh

end Args

end Tukija.Buddy
