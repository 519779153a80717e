import Tukija.Buddy.Lists

/-! What `_alloc` and `_free` do to the tiling of a pool.  Its pages lie in
blocks on the lists, in live blocks and, within an operation, in blocks that the
operation has in hand; blocks move between the three. -/
namespace Tukija.Buddy

open Tukija.Lib Tukija.Lib.Ring Tukija.Lib.Dyadic

/-- `F` is on the lists, `L` is live, `X` is in hand, and together they tile the
released pages `R`. -/
structure Tiled (p : Pool) (m : Mem) (F L X : Set Dyadic.Block) (R : Set Int) : Prop where
  lists : Lists p m F
  live : ∀ b ∈ L, (m (p.desc b)).tag = .used ∧ (m (p.desc b)).ord = b.ord
  inside : ∀ b ∈ L ∪ X, p.Inside b
  hand : ∀ b ∈ X, b ∉ F ∧ b ∉ L
  apart : Apart (F ∪ L ∪ X)
  covers : covered (F ∪ L ∪ X) = R
  unreleased : ∀ i, p.minIdx ≤ i → i < p.maxIdx → i ∉ R →
    (m (p.indexToBlock i)).tag = .used ∧ (m (p.indexToBlock i)).ord = 0
  coalesced : Coalesced p.order F

namespace Tiled

variable {p : Pool} {m m' : Mem} {F L X : Set Dyadic.Block} {R : Set Int} {b c : Dyadic.Block}

theorem free_notMem_live (h : Tiled p m F L X R) (hb : b ∈ F) : b ∉ L := by
  intro hL
  have := (h.lists.marked b hb).1
  simp [(h.live b hL).1] at this

theorem hand_start_ne (h : Tiled p m F L X R) (hb : b ∈ X) (hc : c ∈ F ∪ L) :
    c.start ≠ b.start := by
  apply h.apart.start_ne (.inl hc) (.inr hb)
  rintro rfl
  rcases hc with hc | hc
  · exact (h.hand c hb).1 hc
  · exact (h.hand c hb).2 hc

theorem hand_mem (h : Tiled p m F L X R) (hb : b ∈ X) {i : Int} (hi : i ∈ b) : i ∈ R := by
  rw [← h.covers]
  exact ⟨b, .inr hb, hi⟩

theorem mark (h : Tiled p m F L X R) (hp : p.Layout) (hb : b ∈ X) (f : Block → Block) :
    Tiled p (m.set (p.desc b) f) F L X R := by
  have hne : ∀ c ∈ F ∪ L, p.desc c ≠ p.desc b := fun c hc he =>
    h.hand_start_ne hb hc (Pool.indexToBlock_inj.mp he)
  refine { h with lists := ?_, live := ?_, unreleased := ?_ }
  · apply h.lists.congr
    · intro k hk
      exact Mem.set_of_ne _ _ (hp.headAt_ne_desc hk (h.inside b (.inr hb)))
    · intro c hc
      exact Mem.set_of_ne _ _ (hne c (.inl hc))
  · intro c hc
    rw [Mem.set_of_ne _ _ (hne c (.inr hc))]
    exact h.live c hc
  · intro i h1 h2 hi
    have hib : p.indexToBlock i ≠ p.desc b := by
      intro he
      rw [Pool.indexToBlock_inj.mp he] at hi
      exact hi (h.hand_mem hb b.start_mem)
    rw [Mem.set_of_ne _ _ hib]
    exact h.unreleased i h1 h2 hi

theorem eq_of_moved {S T : Set Dyadic.Block} (hS : b ∈ S) (hT : b ∈ T)
    (h : ∀ x, x ≠ b → (x ∈ S ↔ x ∈ T)) : S = T := by
  ext x
  by_cases hx : x = b
  · subst hx
    exact iff_of_true hS hT
  · exact h x hx

theorem hold (h : Tiled p m F L X R) (hb : b ∈ L) : Tiled p m F (L \ {b}) (insert b X) R := by
  have hset : F ∪ L \ {b} ∪ insert b X = F ∪ L ∪ X :=
    eq_of_moved (b := b) (by simp [hb]) (by simp [hb]) fun x hx => by simp [hx]
  refine ⟨h.lists, fun c hc => h.live c hc.1, ?_, ?_, by rw [hset]; exact h.apart,
    by rw [hset]; exact h.covers, h.unreleased, h.coalesced⟩
  · rintro c (hc | rfl | hc)
    · exact h.inside c (.inl hc.1)
    · exact h.inside c (.inl hb)
    · exact h.inside c (.inr hc)
  · rintro c (rfl | hc)
    · exact ⟨fun hF => h.free_notMem_live hF hb, fun hL => hL.2 rfl⟩
    · exact ⟨(h.hand c hc).1, fun hL => (h.hand c hc).2 hL.1⟩

theorem keep (h : Tiled p m F L X R) (hb : b ∈ X)
    (hmark : (m (p.desc b)).tag = .used ∧ (m (p.desc b)).ord = b.ord) :
    Tiled p m F (insert b L) (X \ {b}) R := by
  have hset : F ∪ insert b L ∪ X \ {b} = F ∪ L ∪ X :=
    eq_of_moved (b := b) (by simp [hb]) (by simp [hb]) fun x hx => by simp [hx]
  refine ⟨h.lists, ?_, ?_, ?_, by rw [hset]; exact h.apart, by rw [hset]; exact h.covers,
    h.unreleased, h.coalesced⟩
  · rintro c (rfl | hc)
    · exact hmark
    · exact h.live c hc
  · rintro c ((rfl | hc) | hc)
    · exact h.inside c (.inr hb)
    · exact h.inside c (.inl hc)
    · exact h.inside c (.inr hc.1)
  · rintro c ⟨hc, hcb⟩
    refine ⟨(h.hand c hc).1, ?_⟩
    rintro (rfl | hL)
    · exact hcb rfl
    · exact (h.hand c hc).2 hL

theorem add (h : Tiled p m F L X R) (hin : p.Inside b) (hout : ∀ i ∈ b, i ∉ R) :
    Tiled p m F L (insert b X) (R ∪ {i | i ∈ b}) := by
  have hnot : ∀ c ∈ F ∪ L ∪ X, ∀ i ∈ c, i ∉ b := by
    intro c hc i hic hib
    apply hout i hib
    rw [← h.covers]
    exact ⟨c, hc, hic⟩
  have hset : F ∪ L ∪ insert b X = insert b (F ∪ L ∪ X) := by
    ext x
    simp only [Set.mem_union, Set.mem_insert_iff]
    tauto
  refine ⟨h.lists, h.live, ?_, ?_, ?_, ?_, ?_, h.coalesced⟩
  · rintro c (hc | rfl | hc)
    · exact h.inside c (.inl hc)
    · exact hin
    · exact h.inside c (.inr hc)
  · rintro c (rfl | hc)
    · exact ⟨fun hF => hnot c (.inl (.inl hF)) _ c.start_mem c.start_mem,
        fun hL => hnot c (.inl (.inr hL)) _ c.start_mem c.start_mem⟩
    · exact h.hand c hc
  · rw [hset]
    rintro x (rfl | hx) y (rfl | hy) i hix hiy
    · rfl
    · exact absurd hix (hnot y hy i hiy)
    · exact absurd hiy (hnot x hx i hix)
    · exact h.apart x hx y hy i hix hiy
  · rw [hset, ← h.covers]
    ext i
    constructor
    · rintro ⟨x, rfl | hx, hi⟩
      · exact .inr hi
      · exact .inl ⟨x, hx, hi⟩
    · rintro (⟨x, hx, hi⟩ | hi)
      · exact ⟨x, .inr hx, hi⟩
      · exact ⟨b, .inl rfl, hi⟩
  · intro i h1 h2 hi
    exact h.unreleased i h1 h2 fun hR => hi (.inl hR)

theorem dequeue (h : Tiled p m F L X R) (hp : p.Layout) (hb : b ∈ F) :
    Tiled p (m.dequeue (p.desc b)) (F \ {b}) L (insert b X) R := by
  have hset : F \ {b} ∪ L ∪ insert b X = F ∪ L ∪ X :=
    eq_of_moved (b := b) (by simp [hb]) (by simp [hb]) fun x hx => by simp [hx]
  refine ⟨h.lists.dequeue hp hb, ?_, ?_, ?_, by rw [hset]; exact h.apart,
    by rw [hset]; exact h.covers, ?_, h.coalesced.mono Set.sdiff_subset⟩
  · intro c hc
    rw [Mem.dequeue_apply]
    exact h.live c hc
  · rintro c (hc | rfl | hc)
    · exact h.inside c (.inl hc)
    · exact h.lists.inside c hb
    · exact h.inside c (.inr hc)
  · rintro c (rfl | hc)
    · exact ⟨fun hF => hF.2 rfl, h.free_notMem_live hb⟩
    · exact ⟨fun hF => (h.hand c hc).1 hF.1, (h.hand c hc).2⟩
  · intro i h1 h2 hi
    rw [Mem.dequeue_apply]
    exact h.unreleased i h1 h2 hi

theorem enqueue (h : Tiled p m F L X R) (hp : p.Layout) (hb : b ∈ X)
    (hmark : (m (p.desc b)).tag = .free ∧ (m (p.desc b)).ord = b.ord)
    (hbuddy : b.ord + 1 < p.order → b.buddy ∉ F) :
    Tiled p (m.enqueue (p.headAt b.ord) (p.desc b)) (insert b F) L (X \ {b}) R := by
  have hin := h.inside b (.inr hb)
  have hhead : p.desc b ≠ p.headAt b.ord := (hp.headAt_ne_desc hin.ord_lt hin).symm
  have hset : insert b F ∪ L ∪ X \ {b} = F ∪ L ∪ X :=
    eq_of_moved (b := b) (by simp [hb]) (by simp [hb]) fun x hx => by simp [hx]
  refine ⟨?_, ?_, ?_, ?_, by rw [hset]; exact h.apart, by rw [hset]; exact h.covers, ?_,
    h.coalesced.insert hbuddy⟩
  · exact h.lists.enqueue hp hin hmark fun c hc => h.hand_start_ne hb (.inl hc)
  · intro c hc
    rw [Mem.enqueue_apply hhead]
    exact h.live c hc
  · rintro c (hc | hc)
    · exact h.inside c (.inl hc)
    · exact h.inside c (.inr hc.1)
  · rintro c ⟨hc, hcb⟩
    refine ⟨?_, (h.hand c hc).2⟩
    rintro (rfl | hF)
    · exact hcb rfl
    · exact (h.hand c hc).1 hF
  · intro i h1 h2 hi
    rw [Mem.enqueue_apply hhead]
    exact h.unreleased i h1 h2 hi

theorem fuse (h : Tiled p m F L (insert b.buddy {b}) R) (hord : b.ord + 1 < p.order) :
    Tiled p m F L {b.parent} R := by
  have hb : b ∈ insert b.buddy ({b} : Set Dyadic.Block) := .inr rfl
  have hc : b.buddy ∈ insert b.buddy ({b} : Set Dyadic.Block) := .inl rfl
  have hset : F ∪ L ∪ {b.parent} =
      insert b.parent ((F ∪ L ∪ insert b.buddy {b}) \ {b, b.buddy}) := by
    ext x
    have h1 : x ∈ F ∪ L → x ≠ b ∧ x ≠ b.buddy := by
      intro hx
      constructor
      · rintro rfl
        exact h.hand_start_ne hb hx rfl
      · rintro rfl
        exact h.hand_start_ne hc hx rfl
    simp only [Set.mem_union, Set.mem_insert_iff, Set.mem_sdiff, Set.mem_singleton_iff] at h1 ⊢
    tauto
  have hout : ∀ c ∈ F ∪ L, c ≠ b.parent := by
    rintro c hc' rfl
    have := h.apart _ (.inl hc') b (.inr hb) b.start
      (Block.mem_parent_iff.mpr (.inl b.start_mem)) b.start_mem
    have := congrArg Dyadic.Block.ord this
    simp at this
  refine ⟨h.lists, h.live, ?_, ?_, ?_, ?_, h.unreleased, h.coalesced⟩
  · rintro c (hc' | rfl)
    · exact h.inside c (.inl hc')
    · refine ⟨hord, fun i hi => ?_⟩
      rcases Block.mem_parent_iff.mp hi with hi | hi
      · exact (h.inside b (.inr hb)).bounds i hi
      · exact (h.inside _ (.inr hc)).bounds i hi
  · rintro c rfl
    exact ⟨fun hF => hout _ (.inl hF) rfl, fun hL => hout _ (.inr hL) rfl⟩
  · rw [hset]
    exact h.apart.fuse (.inr hb) (.inr hc)
  · rw [hset, covered_fuse (.inr hb) (.inr hc)]
    exact h.covers

theorem halve (h : Tiled p m F L {b} R) (hpos : 0 < b.ord) :
    Tiled p m F L {b.lower, b.lower.buddy} R := by
  have hb : b ∈ ({b} : Set Dyadic.Block) := rfl
  have hset : F ∪ L ∪ {b.lower, b.lower.buddy} =
      insert b.lower (insert b.lower.buddy ((F ∪ L ∪ {b}) \ {b})) := by
    ext x
    have h1 : x ∈ F ∪ L → x ≠ b := by
      rintro hx rfl
      exact h.hand_start_ne hb hx rfl
    simp only [Set.mem_union, Set.mem_insert_iff, Set.mem_sdiff, Set.mem_singleton_iff] at h1 ⊢
    tauto
  have hmem : ∀ i, i ∈ b ↔ i ∈ b.lower ∨ i ∈ b.lower.buddy := by
    intro i
    rw [← Block.mem_parent_iff, Block.parent_lower hpos]
  have hlow := Block.ord_lower hpos
  -- a half that is already there would be the whole block
  have hout : ∀ c ∈ F ∪ L, c ≠ b.lower ∧ c ≠ b.lower.buddy := by
    intro c hc
    constructor
    · rintro rfl
      have := h.apart _ (.inl hc) b (.inr hb) _ (Block.start_mem _) ((hmem _).mpr (.inl (Block.start_mem _)))
      have := congrArg Dyadic.Block.ord this
      omega
    · rintro rfl
      have := h.apart _ (.inl hc) b (.inr hb) _ (Block.start_mem _) ((hmem _).mpr (.inr (Block.start_mem _)))
      have := congrArg Dyadic.Block.ord this
      rw [Block.ord_buddy] at this
      omega
  have hin := h.inside b (.inr hb)
  refine ⟨h.lists, h.live, ?_, ?_, ?_, ?_, h.unreleased, h.coalesced⟩
  · rintro c (hc | rfl | rfl)
    · exact h.inside c (.inl hc)
    · exact ⟨by have := hin.ord_lt; omega, fun i hi => hin.bounds i ((hmem i).mpr (.inl hi))⟩
    · refine ⟨?_, fun i hi => hin.bounds i ((hmem i).mpr (.inr hi))⟩
      have := hin.ord_lt
      rw [Block.ord_buddy]
      omega
  · rintro c (rfl | rfl)
    · exact ⟨fun hF => (hout _ (.inl hF)).1 rfl, fun hL => (hout _ (.inr hL)).1 rfl⟩
    · exact ⟨fun hF => (hout _ (.inl hF)).2 rfl, fun hL => (hout _ (.inr hL)).2 rfl⟩
  · rw [hset]
    exact h.apart.halve (.inr hb) hpos
  · rw [hset, covered_halve (.inr hb) hpos]
    exact h.covers

/-- The test that `_free` makes on the descriptor of the buddy.  What is left
over in descriptors inside of blocks cannot mislead it: a block with the buddy
in its interior would hold the block in hand as well. -/
theorem buddy_test (h : Tiled p m F L {b} R) :
    (¬(b.buddy.start < p.minIdx ∨ p.maxIdx ≤ b.buddy.start) ∧
      ¬((m (p.desc b.buddy)).tag = .used ∨ (m (p.desc b.buddy)).ord ≠ b.ord)) ↔ b.buddy ∈ F := by
  constructor
  · rintro ⟨hrange, htest⟩
    push Not at hrange htest
    obtain ⟨htag, hord⟩ := htest
    have hR : b.buddy.start ∈ R := by
      by_contra hR
      exact htag (h.unreleased _ hrange.1 hrange.2 hR).1
    rw [← h.covers] at hR
    obtain ⟨x, hx, hi⟩ := hR
    have hle : x.ord ≤ b.ord := by
      by_contra hlt
      have hbx : b.start ∈ x := by
        apply Block.parent_subset_of_lt b.buddy.start_mem hi (Nat.lt_of_not_le hlt)
        rw [Block.parent_buddy]
        exact Block.mem_parent_iff.mpr (.inl b.start_mem)
      obtain rfl := h.apart x hx b (.inr rfl) _ hbx b.start_mem
      omega
    have hstart : x.start = b.buddy.start := Block.start_eq_of_le hi hle
    have hdesc : p.desc x = p.desc b.buddy := by rw [Pool.desc, Pool.desc, hstart]
    rcases hx with (hF | hL) | rfl
    · have hxo := (h.lists.marked x hF).2
      rw [hdesc, hord] at hxo
      exact Block.ext_of_start hstart hxo.symm ▸ hF
    · exact absurd (hdesc ▸ (h.live x hL).1) htag
    · exact absurd (hstart ▸ x.start_mem) fun hx' => Block.notMem_buddy hx' x.buddy.start_mem
  · intro hF
    have hin := (h.lists.inside _ hF).bounds _ b.buddy.start_mem
    have hmark := h.lists.marked _ hF
    rw [hmark.1, hmark.2]
    simp only [Block.ord_buddy, reduceCtorEq, ne_eq, not_true_eq_false, or_self, not_false_eq_true,
      and_true]
    omega

end Tiled

end Tukija.Buddy
