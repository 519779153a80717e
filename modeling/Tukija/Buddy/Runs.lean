import Tukija.Buddy.Geometry

/-! All runs of one pool: the constructor, then any sequence of `_alloc` and of
`_free` of live blocks. -/
namespace Tukija.Buddy

open Tukija.Lib Tukija.Lib.Ring Tukija.Lib.Dyadic

/-- The descriptors after some sequence of operations, with the live blocks by
address and order. -/
inductive Reach (g : Args) : Mem → List (Int × Nat) → Prop
  | construct {m : Mem} (h : g.construct = some m) : Reach g m []
  | alloc {m m' : Mem} {live : List (Int × Nat)} {ord : Nat} {r : Option Int} (hr : Reach g m live)
      (h : g.fields._alloc m ord = some (r, m')) :
      Reach g m' (r.elim live fun v => (v, ord) :: live)
  | free {m m' : Mem} {live : List (Int × Nat)} {b : Int × Nat} (hr : Reach g m live) (hb : b ∈ live)
      (h : g.fields._free m b.1 = some m') : Reach g m' (live.erase b)

/-- The indices of the `2 ^ k` pages from `i` on. -/
def pages (i : Int) (k : Nat) : Set Int := {j | i ≤ j ∧ j < i + 2 ^ k}

def NaturallyAligned (p : Pool) (i : Int) (k : Nat) : Prop :=
  (2 : Int) ^ (k + pageBits) ∣ p.virtToPhys (p.indexToPage i)

def livePages (p : Pool) (b : Int × Nat) : Set Int := pages (p.pageToIndex b.1) b.2

/-- The blocks on the lists, which are given by their page indices. -/
def listed (p : Pool) (rings : Nat → List Int) : Set (Int × Nat) :=
  {b | b.2 < p.order ∧ b.1 ∈ rings b.2}

/-- The list heads are rings through these blocks. -/
def Linked (p : Pool) (m : Mem) (rings : Nat → List Int) : Prop :=
  ∀ k < p.order, LinkedRing m.next m.prev (p.headAt k) ((rings k).map p.indexToBlock)

/-- The lists and the live blocks partition the released pages, and the
descriptors say so. -/
structure SoundWith (g : Args) (m : Mem) (live : List (Int × Nat)) (rings : Nat → List Int) :
    Prop where
  linked : Linked g.fields m rings
  freeHeads : ∀ b ∈ listed g.fields rings,
    (m (g.fields.indexToBlock b.1)).tag = .free ∧ (m (g.fields.indexToBlock b.1)).ord = b.2
  liveHeads : ∀ b ∈ live,
    (m (g.fields.indexToBlock (g.fields.pageToIndex b.1))).tag = .used ∧
      (m (g.fields.indexToBlock (g.fields.pageToIndex b.1))).ord = b.2
  freeAligned : ∀ b ∈ listed g.fields rings, NaturallyAligned g.fields b.1 b.2
  liveAligned : ∀ b ∈ live, NaturallyAligned g.fields (g.fields.pageToIndex b.1) b.2
  liveInside : ∀ b ∈ live, ∀ i ∈ livePages g.fields b, g.fields.minIdx ≤ i ∧ i < g.fields.maxIdx
  liveApart : live.Pairwise fun b c => Disjoint (livePages g.fields b) (livePages g.fields c)
  freeApart : ∀ b ∈ listed g.fields rings, ∀ c ∈ listed g.fields rings, b ≠ c →
    Disjoint (pages b.1 b.2) (pages c.1 c.2)
  freeLiveApart : ∀ b ∈ listed g.fields rings, ∀ c ∈ live,
    Disjoint (pages b.1 b.2) (livePages g.fields c)
  covers : ∀ i, i ∈ released g ↔
    (∃ b ∈ listed g.fields rings, i ∈ pages b.1 b.2) ∨ ∃ b ∈ live, i ∈ livePages g.fields b

def Sound (g : Args) (m : Mem) (live : List (Int × Nat)) : Prop := ∃ rings, SoundWith g m live rings

def freePages (g : Args) (live : List (Int × Nat)) : Set Int :=
  {i | i ∈ released g ∧ ∀ b ∈ live, i ∉ livePages g.fields b}

/-- A naturally aligned block inside `S` that lies in no larger one. -/
structure MaximalRun (p : Pool) (S : Set Int) (i : Int) (k : Nat) : Prop where
  ord_lt : k < p.order
  aligned : NaturallyAligned p i k
  subset : pages i k ⊆ S
  maximal : ∀ i' k', k' < p.order → NaturallyAligned p i' k' → pages i' k' ⊆ S →
    pages i k ⊆ pages i' k' → i' = i ∧ k' = k

section Blocks

variable {p : Pool} {i j : Int} {k : Nat} {b : Dyadic.Block}

theorem mem_pages_start : j ∈ pages b.start b.ord ↔ j ∈ b := Block.mem_iff.symm

theorem Pool.Layout.naturallyAligned (hp : p.Layout) (hk : b.ord < p.order) :
    NaturallyAligned p b.start b.ord := by
  have := hp.orderAligned hk
  rw [Pool.orderAligned, beq_iff_eq] at this
  exact Int.dvd_of_emod_eq_zero this

theorem Pool.Layout.exists_block (hp : p.Layout) (hk : k < p.order) (h : NaturallyAligned p i k) :
    ∃ b : Dyadic.Block, b.start = i ∧ b.ord = k := by
  have hbase : (2 : Int) ^ (k + pageBits) ∣ p.base - p.offset :=
    (pow_dvd_pow 2 (by omega)).trans hp.base_phys
  have hsum : p.virtToPhys (p.indexToPage i) = (p.base - p.offset) + i * pageSize := by
    unfold Pool.virtToPhys Pool.indexToPage
    ring
  have hi : (2 : Int) ^ k ∣ i := by
    rw [NaturallyAligned, hsum, dvd_add_right hbase, pow_add] at h
    exact Int.dvd_of_mul_dvd_mul_right (by decide) h
  obtain ⟨q, hq⟩ := hi
  exact ⟨⟨q, k⟩, by rw [hq, mul_comm]; rfl, rfl⟩

end Blocks

structure Represents (p : Pool) (live : List (Int × Nat)) (L : Set Dyadic.Block) : Prop where
  nodup : live.Nodup
  mem : ∀ b ∈ L, (p.indexToPage b.start, b.ord) ∈ live
  of_mem : ∀ v ∈ live, ∃ b ∈ L, v = (p.indexToPage b.start, b.ord)

section Represents

variable {p : Pool} {live : List (Int × Nat)} {L : Set Dyadic.Block} {b : Dyadic.Block}

theorem Pool.Layout.address_inj (hp : p.Layout) {b c : Dyadic.Block}
    (h : (p.indexToPage b.start, b.ord) = (p.indexToPage c.start, c.ord)) : b = c := by
  obtain ⟨h1, h2⟩ := Prod.mk.inj h
  apply Block.ext_of_start _ h2
  rw [← hp.pageToIndex_indexToPage b.start, h1, hp.pageToIndex_indexToPage]

theorem Represents.insert (hp : p.Layout) (h : Represents p live L) (hb : b ∉ L) :
    Represents p ((p.indexToPage b.start, b.ord) :: live) (insert b L) := by
  refine ⟨List.nodup_cons.mpr ⟨?_, h.nodup⟩, ?_, ?_⟩
  · intro hmem
    obtain ⟨c, hc, hbc⟩ := h.of_mem _ hmem
    exact hb (hp.address_inj hbc ▸ hc)
  · rintro c (rfl | hc)
    · exact List.mem_cons_self
    · exact List.mem_cons_of_mem _ (h.mem c hc)
  · intro v hv
    rcases List.mem_cons.mp hv with rfl | hv
    · exact ⟨b, .inl rfl, rfl⟩
    · obtain ⟨c, hc, rfl⟩ := h.of_mem v hv
      exact ⟨c, .inr hc, rfl⟩

theorem Represents.erase (hp : p.Layout) (h : Represents p live L) :
    Represents p (live.erase (p.indexToPage b.start, b.ord)) (L \ {b}) := by
  refine ⟨h.nodup.erase _, ?_, ?_⟩
  · rintro c ⟨hc, hcb⟩
    rw [h.nodup.mem_erase_iff]
    exact ⟨fun he => hcb (hp.address_inj he), h.mem c hc⟩
  · intro v hv
    rw [h.nodup.mem_erase_iff] at hv
    obtain ⟨c, hc, rfl⟩ := h.of_mem v hv.2
    refine ⟨c, ⟨hc, ?_⟩, rfl⟩
    rintro rfl
    exact hv.1 rfl

end Represents

theorem reach_tiled {g : Args} (ha : g.Admitted) (hfits : g.IndexFits) {m : Mem}
    {live : List (Int × Nat)} (h : Reach g m live) :
    ∃ F L, Tiled g.fields m F L ∅ (released g) ∧ Represents g.fields live L := by
  have hp := ha.layout hfits
  induction h with
  | construct hc =>
    obtain ⟨m', F, hc', ht⟩ := construct_spec ha hfits
    obtain rfl := Option.some.inj (hc.symm.trans hc')
    exact ⟨F, ∅, ht, ⟨List.nodup_nil, by simp, by simp⟩⟩
  | @alloc m m' live ord r _ hop ih =>
    obtain ⟨F, L, ht, hrep⟩ := ih
    rcases alloc_spec hp ht ord with ⟨hnone, -⟩ | ⟨b, m1, F1, hsome, hbo, hbL, -, ht1⟩
    · obtain ⟨rfl, rfl⟩ := Prod.mk.inj (Option.some.inj (hop.symm.trans hnone))
      exact ⟨F, L, ht, hrep⟩
    · obtain ⟨rfl, rfl⟩ := Prod.mk.inj (Option.some.inj (hop.symm.trans hsome))
      have hins := hrep.insert hp hbL
      rw [hbo] at hins
      exact ⟨F1, insert b L, ht1, hins⟩
  | free _ hb hop ih =>
    obtain ⟨F, L, ht, hrep⟩ := ih
    obtain ⟨b, hbL, rfl⟩ := hrep.of_mem _ hb
    have hheld := ht.hold hbL
    rw [show insert b (∅ : Set Dyadic.Block) = {b} by simp] at hheld
    obtain ⟨m1, F1, hfree, ht1⟩ := free_spec hp hheld (ht.live b hbL)
    obtain rfl := Option.some.inj (hop.symm.trans hfree)
    exact ⟨F1, L \ {b}, ht1, hrep.erase hp⟩

section Tiled

variable {g : Args} {m : Mem} {F L : Set Dyadic.Block} {live : List (Int × Nat)}
  {rings : Nat → List Int}

theorem Lists.exists_rings {p : Pool} (hl : Lists p m F) :
    ∃ rings, Linked p m rings ∧
      ∀ b, b ∈ listed p rings ↔ ∃ c ∈ F, (c.start, c.ord) = b := by
  choose! l hring hmem using hl.ring
  refine ⟨fun k => (l k).map Block.start, ?_, ?_⟩
  · intro k hk
    have hmap : ((l k).map Block.start).map p.indexToBlock = (l k).map p.desc := by
      rw [List.map_map]
      rfl
    rw [hmap]
    exact hring k hk
  · rintro ⟨i, k⟩
    simp only [listed, Set.mem_ofPred_eq, List.mem_map, Prod.mk.injEq]
    constructor
    · rintro ⟨hk, c, hc, hi⟩
      obtain ⟨hF, hck⟩ := (hmem k hk c).mp hc
      exact ⟨c, hF, hi, hck⟩
    · rintro ⟨c, hF, hi, rfl⟩
      have hk := (hl.inside c hF).ord_lt
      exact ⟨hk, c, (hmem c.ord hk c).mpr ⟨hF, rfl⟩, hi⟩

theorem mem_livePages (hp : g.fields.Layout) {b : Dyadic.Block} {i : Int} :
    i ∈ livePages g.fields (g.fields.indexToPage b.start, b.ord) ↔ i ∈ b := by
  rw [livePages, hp.pageToIndex_indexToPage, mem_pages_start]

theorem Tiled.apart_of_ne (ht : Tiled g.fields m F L ∅ (released g)) {a b : Dyadic.Block}
    (ha : a ∈ F ∪ L) (hb : b ∈ F ∪ L) (hne : a ≠ b) {i : Int} (hi : i ∈ a) : i ∉ b := fun hib =>
  hne (ht.apart a (.inl ha) b (.inl hb) i hi hib)

theorem Tiled.sound (hp : g.fields.Layout) (ht : Tiled g.fields m F L ∅ (released g))
    (hrep : Represents g.fields live L) (hlink : Linked g.fields m rings)
    (hmem : ∀ b, b ∈ listed g.fields rings ↔ ∃ c ∈ F, (c.start, c.ord) = b) :
    SoundWith g m live rings := by
  have hidx := hp.pageToIndex_indexToPage
  refine ⟨hlink, ?_, ?_, ?_, ?_, ?_, ?_, ?_, ?_, ?_⟩
  · intro b hb
    obtain ⟨c, hc, rfl⟩ := (hmem b).mp hb
    exact ht.lists.marked c hc
  · intro v hv
    obtain ⟨b, hb, rfl⟩ := hrep.of_mem v hv
    rw [hidx]
    exact ht.live b hb
  · intro b hb
    obtain ⟨c, hc, rfl⟩ := (hmem b).mp hb
    exact hp.naturallyAligned (ht.lists.inside c hc).ord_lt
  · intro v hv
    obtain ⟨b, hb, rfl⟩ := hrep.of_mem v hv
    rw [hidx]
    exact hp.naturallyAligned (ht.inside b (.inl hb)).ord_lt
  · intro v hv i hi
    obtain ⟨b, hb, rfl⟩ := hrep.of_mem v hv
    exact (ht.inside b (.inl hb)).bounds i ((mem_livePages hp).mp hi)
  · apply List.Pairwise.imp_of_mem _ hrep.nodup
    intro v w hv hw hne
    obtain ⟨b, hb, rfl⟩ := hrep.of_mem v hv
    obtain ⟨c, hc, rfl⟩ := hrep.of_mem w hw
    apply Set.disjoint_left.mpr
    intro i hib hic
    rw [mem_livePages hp] at hib hic
    exact ht.apart_of_ne (.inr hb) (.inr hc) (by rintro rfl; exact hne rfl) hib hic
  · intro b hb c hc hne
    obtain ⟨b, hbF, rfl⟩ := (hmem b).mp hb
    obtain ⟨c, hcF, rfl⟩ := (hmem c).mp hc
    apply Set.disjoint_left.mpr
    intro i hib hic
    rw [mem_pages_start] at hib hic
    exact ht.apart_of_ne (.inl hbF) (.inl hcF) (by rintro rfl; exact hne rfl) hib hic
  · intro b hb v hv
    obtain ⟨b, hbF, rfl⟩ := (hmem b).mp hb
    obtain ⟨c, hc, rfl⟩ := hrep.of_mem v hv
    apply Set.disjoint_left.mpr
    intro i hib hic
    rw [mem_pages_start] at hib
    rw [mem_livePages hp] at hic
    refine ht.apart_of_ne (.inl hbF) (.inr hc) ?_ hib hic
    rintro rfl
    exact ht.free_notMem_live hbF hc
  · intro i
    rw [← ht.covers, Set.union_empty]
    constructor
    · rintro ⟨b, hb | hb, hi⟩
      · exact .inl ⟨_, (hmem _).mpr ⟨b, hb, rfl⟩, mem_pages_start.mpr hi⟩
      · exact .inr ⟨_, hrep.mem b hb, (mem_livePages hp).mpr hi⟩
    · rintro (⟨b, hb, hi⟩ | ⟨v, hv, hi⟩)
      · obtain ⟨c, hc, rfl⟩ := (hmem b).mp hb
        exact ⟨c, .inl hc, mem_pages_start.mp hi⟩
      · obtain ⟨b, hb, rfl⟩ := hrep.of_mem v hv
        exact ⟨b, .inr hb, (mem_livePages hp).mp hi⟩

theorem Tiled.no_assertion (hp : g.fields.Layout) (ht : Tiled g.fields m F L ∅ (released g))
    (hrep : Represents g.fields live L) :
    (∀ ord, g.fields._alloc m ord ≠ none) ∧ ∀ b ∈ live, g.fields._free m b.1 ≠ none := by
  constructor
  · intro ord
    rcases alloc_spec hp ht ord with ⟨h, -⟩ | ⟨b, m', F', h, -⟩
    · simp [h]
    · simp [h]
  · intro v hv
    obtain ⟨b, hb, rfl⟩ := hrep.of_mem v hv
    have hheld := ht.hold hb
    rw [show insert b (∅ : Set Dyadic.Block) = {b} by simp] at hheld
    obtain ⟨m', F', hfree, -⟩ := free_spec hp hheld (ht.live b hb)
    simp [hfree]

theorem Tiled.freePages_eq (hp : g.fields.Layout) (ht : Tiled g.fields m F L ∅ (released g))
    (hrep : Represents g.fields live L) : freePages g live = covered F := by
  ext i
  constructor
  · rintro ⟨hR, hlive⟩
    rw [← ht.covers] at hR
    obtain ⟨b, (hb | hb) | hb, hi⟩ := hR
    · exact ⟨b, hb, hi⟩
    · exact absurd ((mem_livePages hp).mpr hi) (hlive _ (hrep.mem b hb))
    · exact hb.elim
  · rintro ⟨b, hb, hi⟩
    refine ⟨?_, ?_⟩
    · rw [← ht.covers]
      exact ⟨b, .inl (.inl hb), hi⟩
    · intro v hv hiv
      obtain ⟨c, hc, rfl⟩ := hrep.of_mem v hv
      refine ht.apart_of_ne (.inl hb) (.inr hc) ?_ hi ((mem_livePages hp).mp hiv)
      rintro rfl
      exact ht.free_notMem_live hb hc

theorem maximalRun_iff {p : Pool} (hp : p.Layout) {S : Set Int} (b : Dyadic.Block) :
    MaximalRun p S b.start b.ord ↔ Maximal p.order S b := by
  constructor
  · intro h
    refine ⟨h.ord_lt, fun i hi => h.subset (mem_pages_start.mpr hi), ?_⟩
    intro c hco hcS hbc
    obtain ⟨h1, h2⟩ := h.maximal c.start c.ord hco (hp.naturallyAligned hco)
      (fun i hi => hcS i (mem_pages_start.mp hi))
      (fun i hi => mem_pages_start.mpr (hbc i (mem_pages_start.mp hi)))
    exact Block.ext_of_start h1 h2
  · intro h
    refine ⟨h.ord_lt, hp.naturallyAligned h.ord_lt, fun i hi => h.subset i (mem_pages_start.mp hi), ?_⟩
    intro i' k' hk' hal hS hsub
    obtain ⟨c, rfl, rfl⟩ := hp.exists_block hk' hal
    have := h.maximal c hk' (fun i hi => hS (mem_pages_start.mpr hi))
      (fun i hi => mem_pages_start.mp (hsub (mem_pages_start.mpr hi)))
    rw [this]
    exact ⟨rfl, rfl⟩

theorem Tiled.alloc_eq_none_iff (hp : g.fields.Layout) (ht : Tiled g.fields m F L ∅ (released g))
    (ord : Nat) :
    (∃ m', g.fields._alloc m ord = some (none, m')) ↔
      ¬∃ i, NaturallyAligned g.fields i ord ∧ pages i ord ⊆ covered F := by
  constructor
  · rintro ⟨m', hnone⟩ ⟨i, hal, hsub⟩
    have hsmall : ∀ b ∈ F, b.ord < ord := by
      rcases alloc_spec hp ht ord with ⟨-, h⟩ | ⟨b, m1, F1, h, -⟩
      · exact h
      · simp [h] at hnone
    by_cases hord : ord < g.fields.order
    · obtain ⟨c, rfl, rfl⟩ := hp.exists_block hord hal
      obtain ⟨b, hb, hle, -⟩ := exists_above ht.coalesced hord
        fun i hi => hsub (mem_pages_start.mpr hi)
      have := hsmall b hb
      omega
    · -- more pages than the pool has
      have hin : ∀ j ∈ pages i ord, g.fields.minIdx ≤ j ∧ j < g.fields.maxIdx := by
        intro j hj
        obtain ⟨b, hb, hjb⟩ := hsub hj
        exact (ht.lists.inside b hb).bounds j hjb
      have hpos : (0 : Int) < 2 ^ ord := by positivity
      have h1 := hin i ⟨le_rfl, by omega⟩
      have h2 := hin (i + 2 ^ ord - 1) ⟨by omega, by omega⟩
      have hle : (2 : Int) ^ g.fields.order ≤ 2 ^ ord :=
        pow_le_pow_right₀ (by norm_num) (by omega)
      have := hp.pages_lt
      omega
  · intro hno
    rcases alloc_spec hp ht ord with ⟨h, -⟩ | ⟨b, m1, F1, -, hbo, -, ⟨c, hc, hle, hsub⟩, ht1⟩
    · exact ⟨m, h⟩
    · refine absurd ⟨b.start, ?_, ?_⟩ hno
      · rw [← hbo]
        exact hp.naturallyAligned (ht1.inside b (.inl (.inl rfl))).ord_lt
      · intro i hi
        rw [← hbo, mem_pages_start] at hi
        exact ⟨c, hc, hsub i hi⟩

end Tiled

section Results

variable {g : Args}

def twoPages : Args := ⟨0x100000, 0x2000, 0x102000, 0x102000, 0x2000⟩

theorem twoPages_admitted : twoPages.Admitted :=
  ⟨by decide, by decide, by decide, by decide, by decide, by decide, by decide⟩

theorem reach_sound (ha : g.Admitted) (hfits : g.IndexFits) :
    g.construct ≠ none ∧ ∀ m live, Reach g m live →
      Sound g m live ∧ (∀ ord, g.fields._alloc m ord ≠ none) ∧
        ∀ b ∈ live, g.fields._free m b.1 ≠ none := by
  have hp := ha.layout hfits
  constructor
  · obtain ⟨m, F, hc, -⟩ := construct_spec ha hfits
    simp [hc]
  · intro m live h
    obtain ⟨F, L, ht, hrep⟩ := reach_tiled ha hfits h
    obtain ⟨rings, hlink, hmem⟩ := ht.lists.exists_rings
    exact ⟨⟨rings, ht.sound hp hrep hlink hmem⟩, ht.no_assertion hp hrep⟩

theorem reach_sound_twoPages :
    ∃ m live, Reach twoPages m live ∧ Sound twoPages m live ∧
      (∀ ord, twoPages.fields._alloc m ord ≠ none) ∧
        ∀ b ∈ live, twoPages.fields._free m b.1 ≠ none := by
  have hall := reach_sound twoPages_admitted (by decide)
  obtain ⟨m, hm⟩ := Option.ne_none_iff_exists'.mp hall.1
  exact ⟨m, [], .construct hm, hall.2 m [] (.construct hm)⟩

/-- The boot pool of a kernel image of 2 MiB and a page: 1535 pages up to the
next boundary of 4 MiB, of which 43 are taken.  The descriptor of the last one of
its 1526 pages is the head of the first list. -/
def bootPool : Args := ⟨0xffffffff80000000, 0x1201000, 0xffffffff81201000, 0xffffffff8122c000, 0x5ff000⟩

theorem bootPool_unsound :
    ¬(bootPool.construct ≠ none ∧ ∀ m live, Reach bootPool m live →
      Sound bootPool m live ∧ (∀ ord, bootPool.fields._alloc m ord ≠ none) ∧
        ∀ b ∈ live, bootPool.fields._free m b.1 ≠ none) := by
  rintro ⟨hne, hall⟩
  obtain ⟨m, hm⟩ := Option.ne_none_iff_exists'.mp hne
  obtain ⟨⟨rings, hs⟩, -⟩ := hall m [] (.construct hm)
  have hmax : bootPool.fields.maxIdx = 1015 := by decide +kernel
  have hphys : bootPool.fields.base - bootPool.fields.offset = 0x1400000 := by decide +kernel
  have hlast : (1014 : Int) ∈ released bootPool := ⟨by decide +kernel, by rw [hmax]; decide⟩
  obtain ⟨⟨i, k⟩, hb, hi⟩ := ((hs.covers 1014).mp hlast).resolve_right (by simp)
  have hal := hs.freeAligned _ hb
  -- a larger block would reach beyond the pool
  have hk : k = 0 := by
    by_contra hk
    obtain ⟨k, rfl⟩ := Nat.exists_eq_succ_of_ne_zero hk
    have heven : (2 : Int) ∣ i := by
      have h13 : (2 : Int) ^ 13 ∣ bootPool.fields.virtToPhys (bootPool.fields.indexToPage i) :=
        (pow_dvd_pow 2 (by unfold pageBits; omega)).trans hal
      have hsum : bootPool.fields.virtToPhys (bootPool.fields.indexToPage i) =
          (bootPool.fields.base - bootPool.fields.offset) + i * 4096 := by
        simp only [Pool.virtToPhys, Pool.indexToPage, pageSize, Nat.cast_ofNat]
        ring
      rw [hsum, hphys] at h13
      omega
    have hpow : (2 : Int) ^ (k + 1) = 2 * 2 ^ k := pow_succ' 2 k
    have hnext : (1015 : Int) ∈ pages i (k + 1) := by
      obtain ⟨h1, h2⟩ := hi
      simp only [Nat.succ_eq_add_one] at h1 h2
      exact ⟨by omega, by omega⟩
    have := ((hs.covers 1015).mpr (.inl ⟨_, hb, hnext⟩)).2
    rw [hmax] at this
    exact absurd this (by decide)
  subst hk
  obtain rfl : i = 1014 := by
    obtain ⟨h1, h2⟩ := hi
    simp only [pow_zero] at h1 h2
    omega
  have hring := hs.linked 0 (by decide +kernel)
  have hhead : bootPool.fields.headAt 0 = bootPool.fields.indexToBlock 1014 := by decide +kernel
  apply hring.notMem
  rw [hhead]
  exact List.mem_map_of_mem hb.2

theorem reach_maximal (ha : g.Admitted) (hfits : g.IndexFits) :
    ∀ m live, Reach g m live →
      (∃ rings, Linked g.fields m rings ∧
        ∀ i k, (i, k) ∈ listed g.fields rings ↔ MaximalRun g.fields (freePages g live) i k) ∧
      ∀ ord, (∃ m', g.fields._alloc m ord = some (none, m')) ↔
        ¬∃ i, NaturallyAligned g.fields i ord ∧ pages i ord ⊆ freePages g live := by
  intro m live h
  have hp := ha.layout hfits
  obtain ⟨F, L, ht, hrep⟩ := reach_tiled ha hfits h
  have hfree := ht.freePages_eq hp hrep
  have hapart : Apart F := fun a ha b hb => ht.apart a (.inl (.inl ha)) b (.inl (.inl hb))
  have hmax := mem_iff_maximal hapart ht.coalesced fun b hb => (ht.lists.inside b hb).ord_lt
  constructor
  · obtain ⟨rings, hlink, hmem⟩ := ht.lists.exists_rings
    refine ⟨rings, hlink, ?_⟩
    intro i k
    rw [hmem, hfree]
    constructor
    · rintro ⟨c, hc, hik⟩
      obtain ⟨rfl, rfl⟩ := Prod.mk.inj hik
      exact (maximalRun_iff hp c).mpr ((hmax c).mp hc)
    · intro hik
      obtain ⟨c, rfl, rfl⟩ := hp.exists_block hik.ord_lt hik.aligned
      exact ⟨c, (hmax c).mpr ((maximalRun_iff hp c).mp hik), rfl⟩
  · intro ord
    rw [hfree]
    exact ht.alloc_eq_none_iff hp ord

theorem reach_maximal_twoPages :
    ∃ m, Reach twoPages m [] ∧ ∀ ord, (∃ m', twoPages.fields._alloc m ord = some (none, m')) ↔
      ¬∃ i, NaturallyAligned twoPages.fields i ord ∧ pages i ord ⊆ freePages twoPages [] := by
  have hsome : twoPages.construct.isSome = true := by decide +kernel
  obtain ⟨m, hm⟩ := Option.isSome_iff_exists.mp hsome
  exact ⟨m, .construct hm, (reach_maximal twoPages_admitted (by decide) m [] (.construct hm)).2⟩

def lastPage : Args := { bootPool with fAddr := 0xffffffff817f6000 }

/-- The page is free, and the first list is empty all the same. -/
theorem lastPage_lost :
    ¬∀ m live, Reach lastPage m live →
      (∃ rings, Linked lastPage.fields m rings ∧
        ∀ i k, (i, k) ∈ listed lastPage.fields rings ↔
          MaximalRun lastPage.fields (freePages lastPage live) i k) ∧
      ∀ ord, (∃ m', lastPage.fields._alloc m ord = some (none, m')) ↔
        ¬∃ i, NaturallyAligned lastPage.fields i ord ∧ pages i ord ⊆ freePages lastPage live := by
  intro hall
  have hsome : lastPage.construct.isSome = true := by decide +kernel
  obtain ⟨m, hm⟩ := Option.isSome_iff_exists.mp hsome
  have hnone : ∃ m', lastPage.fields._alloc m 0 = some (none, m') := by
    have hget : (lastPage.construct.bind fun m => (lastPage.fields._alloc m 0).map Prod.fst) =
        some none := by decide +kernel
    rw [hm, Option.bind_some] at hget
    obtain ⟨⟨r, m'⟩, halloc, hr⟩ := Option.map_eq_some_iff.mp hget
    obtain rfl : r = none := hr
    exact ⟨m', halloc⟩
  refine ((hall m [] (.construct hm)).2 0).mp hnone ⟨1014, ?_, ?_⟩
  · have hphys : lastPage.fields.virtToPhys (lastPage.fields.indexToPage 1014) = 0x17f6000 := by
      decide +kernel
    rw [NaturallyAligned, hphys]
    decide
  · rintro i ⟨h1, h2⟩
    simp only [pow_zero] at h2
    obtain rfl : i = 1014 := by omega
    exact ⟨⟨by decide +kernel, by decide +kernel⟩, by simp⟩

end Results

end Tukija.Buddy
