import Tukija.Buddy.Pool

/-! The free lists.  A set of blocks is on the lists of a pool when each list is
a ring through the blocks of its order and their descriptors say so. -/
namespace Tukija.Buddy

open Tukija.Lib Tukija.Lib.Ring

namespace Pool

/-- What the proofs need to know about the fields of a pool. -/
structure Layout (p : Pool) : Prop where
  order_pos : 0 < p.order
  order_le : p.order ≤ 62
  min_ge : -2 ^ 62 ≤ p.minIdx
  max_le : p.maxIdx ≤ 2 ^ 62
  pages_lt : p.maxIdx - p.minIdx < 2 ^ p.order
  head_ne : ∀ k < p.order, ∀ i, p.minIdx ≤ i → i < p.maxIdx → p.headAt k ≠ p.indexToBlock i
  base_page : (pageSize : Int) ∣ p.base
  base_phys : (2 : Int) ^ (p.order - 1 + pageBits) ∣ p.base - p.offset

def desc (p : Pool) (b : Dyadic.Block) : Int := p.indexToBlock b.start

structure Inside (p : Pool) (b : Dyadic.Block) : Prop where
  ord_lt : b.ord < p.order
  bounds : ∀ i ∈ b, p.minIdx ≤ i ∧ i < p.maxIdx

variable {p : Pool}

theorem indexToBlock_inj {i j : Int} : p.indexToBlock i = p.indexToBlock j ↔ i = j := by
  simp only [indexToBlock, blockSize, Nat.cast_ofNat]
  omega

theorem indexToBlock_lt {i j : Int} : p.indexToBlock i < p.indexToBlock j ↔ i < j := by
  simp only [indexToBlock, blockSize, Nat.cast_ofNat]
  omega

@[simp] theorem blockToIndex_indexToBlock (i : Int) : p.blockToIndex (p.indexToBlock i) = i := by
  simp only [blockToIndex, indexToBlock, blockSize, Nat.cast_ofNat]
  omega

theorem headAt_inj {j k : Nat} : p.headAt j = p.headAt k ↔ j = k := by
  simp only [headAt, blockSize, Nat.cast_ofNat]
  omega

theorem Layout.headAt_ne_desc (hp : p.Layout) {k : Nat} (hk : k < p.order) {b : Dyadic.Block}
    (hb : p.Inside b) : p.headAt k ≠ p.desc b :=
  hp.head_ne k hk _ (hb.bounds _ b.start_mem).1 (hb.bounds _ b.start_mem).2

theorem Layout.buddyIdx_eq (hp : p.Layout) {b : Dyadic.Block} (hb : p.Inside b) :
    buddyIdx b.start b.ord = b.buddy.start := by
  obtain ⟨h1, h2⟩ := hb.bounds _ b.start_mem
  have hmin := hp.min_ge
  have hmax := hp.max_le
  have hsize : b.size ≤ 2 ^ 61 := by
    have hord := hb.ord_lt
    have hle := hp.order_le
    unfold Dyadic.Block.size
    exact pow_le_pow_right₀ (by norm_num) (by omega)
  have hstart := Dyadic.Block.buddy_start (b := b)
  have hpos := b.size_pos
  rw [buddyIdx, Dyadic.xor_twoPow]
  apply Dyadic.toInt_ofInt_of_lt
  · split at hstart <;> omega
  · split at hstart <;> omega

end Pool

namespace Mem

variable {m : Mem} {b h x : Int}

theorem dequeue_apply :
    m.dequeue b x =
      { m x with
        next := if x = m.prev b then m.next b else m.next x
        prev := if x = m.next b then m.prev b else m.prev x } := by
  simp only [dequeue, set_apply, next, prev]
  by_cases h1 : x = (m b).prev
  · by_cases h2 : b = (m b).prev
    · simp only [h1, ← h2]
      by_cases h3 : b = (m b).next
      · simp [← h3]
      · simp [h3]
    · simp only [h1, h2]
      by_cases h3 : (m b).prev = (m b).next
      · simp [h3]
      · simp [h3]
  · by_cases h2 : b = (m b).prev
    · simp only [← h2] at h1 ⊢
      by_cases h3 : x = (m b).next
      · subst h3
        simp [h1]
      · simp [h3, h1]
    · simp only [h1, h2]
      by_cases h3 : x = (m b).next
      · subst h3
        simp [h1]
      · simp [h3]

theorem dequeue_removed : LinkedRing.Removed m.next m.prev (m.dequeue b).next (m.dequeue b).prev b := by
  constructor <;> intros <;> simp_all [next, prev, dequeue_apply]

theorem enqueue_apply (hb : b ≠ h) :
    m.enqueue h b x =
      { m x with
        next := if x = h then b else if x = b then m.next h else m.next x
        prev := if x = m.next h then b else if x = b then h else m.prev x } := by
  have hh : h ≠ b := hb.symm
  simp only [enqueue, set_apply, next, prev, hh, hb, if_false, if_true]
  by_cases h1 : x = (m h).next
  · subst h1
    by_cases h2 : (m h).next = h
    · simp [h2]
    · by_cases h3 : (m h).next = b
      · simp [h3, hb]
      · simp [h2, h3]
  · by_cases h2 : x = h
    · subst h2
      simp [h1, hh]
    · by_cases h3 : x = b
      · subst h3
        simp [h1, hb]
      · simp [h1, h2, h3]

theorem enqueue_inserted (hb : b ≠ h) (hn : b ≠ m.next h) :
    LinkedRing.Inserted m.next m.prev (m.enqueue h b).next (m.enqueue h b).prev h b := by
  have hh : h ≠ b := hb.symm
  constructor <;> intros <;> simp_all [next, prev, enqueue_apply hb]

end Mem

/-- The blocks of `F` are on the lists, and nothing else is. -/
structure Lists (p : Pool) (m : Mem) (F : Set Dyadic.Block) : Prop where
  ring : ∀ k < p.order, ∃ l : List Dyadic.Block,
    LinkedRing m.next m.prev (p.headAt k) (l.map p.desc) ∧ ∀ b, b ∈ l ↔ b ∈ F ∧ b.ord = k
  marked : ∀ b ∈ F, (m (p.desc b)).tag = .free ∧ (m (p.desc b)).ord = b.ord
  inside : ∀ b ∈ F, p.Inside b

namespace Lists

variable {p : Pool} {m m' : Mem} {F : Set Dyadic.Block} {b c : Dyadic.Block}

theorem congr (hl : Lists p m F) (hh : ∀ k < p.order, m' (p.headAt k) = m (p.headAt k))
    (hd : ∀ b ∈ F, m' (p.desc b) = m (p.desc b)) : Lists p m' F := by
  refine ⟨?_, ?_, hl.inside⟩
  · intro k hk
    obtain ⟨l, hring, hmem⟩ := hl.ring k hk
    have hsame : ∀ x ∈ p.headAt k :: l.map p.desc, m' x = m x := by
      intro x hx
      rcases List.mem_cons.mp hx with rfl | hx
      · exact hh k hk
      · obtain ⟨b, hb, rfl⟩ := List.mem_map.mp hx
        exact hd b ((hmem b).mp hb).1
    refine ⟨l, hring.congr ?_ ?_, hmem⟩
    · intro x hx
      rw [Mem.next, Mem.next, hsame x hx]
    · intro x hx
      rw [Mem.prev, Mem.prev, hsame x hx]
  · intro b hb
    rw [hd b hb]
    exact hl.marked b hb

theorem desc_inj (hl : Lists p m F) (hb : b ∈ F) (hc : c ∈ F) (h : p.desc b = p.desc c) : b = c := by
  have hord := (hl.marked b hb).2
  rw [h, (hl.marked c hc).2] at hord
  exact Dyadic.Block.ext_of_start (Pool.indexToBlock_inj.mp h) hord.symm

theorem dequeue (hl : Lists p m F) (hp : p.Layout) (hb : b ∈ F) :
    Lists p (m.dequeue (p.desc b)) (F \ {b}) := by
  refine ⟨?_, ?_, fun c hc => hl.inside c hc.1⟩
  · intro k hk
    obtain ⟨l, hring, hmem⟩ := hl.ring k hk
    by_cases hkb : b.ord = k
    · obtain ⟨u, v, rfl⟩ := List.append_of_mem ((hmem b).mpr ⟨hb, hkb⟩)
      rw [List.map_append, List.map_cons] at hring
      have hrem := hring.remove Mem.dequeue_removed
      refine ⟨u ++ v, by simpa using hrem, ?_⟩
      intro c
      have hnd : (u ++ b :: v).Nodup := by
        apply List.Nodup.of_map p.desc
        simpa using hring.tail_nodup
      have hbu : b ∉ u ++ v := by
        have := List.nodup_middle.mp hnd
        exact (List.nodup_cons.mp this).1
      have hc := hmem c
      simp only [List.mem_append, List.mem_cons] at hc hbu ⊢
      constructor
      · intro hcuv
        have hcF := hc.mp (by tauto)
        refine ⟨⟨hcF.1, ?_⟩, hcF.2⟩
        rintro rfl
        exact hbu hcuv
      · rintro ⟨⟨hcF, hcb⟩, hck⟩
        have := hc.mpr ⟨hcF, hck⟩
        have hne : c ≠ b := hcb
        tauto
    · -- the ring of another order
      obtain ⟨lb, hringb, hmemb⟩ := hl.ring b.ord (hl.inside b hb).ord_lt
      obtain ⟨u, v, rfl⟩ := List.append_of_mem ((hmemb b).mpr ⟨hb, rfl⟩)
      rw [List.map_append, List.map_cons] at hringb
      refine ⟨l, hring.remove_other Mem.dequeue_removed hringb.rotate ?_, ?_⟩
      · intro hx
        rcases List.mem_cons.mp hx with hx | hx
        · exact hp.headAt_ne_desc hk (hl.inside b hb) hx.symm
        · obtain ⟨c, hc, hcb⟩ := List.mem_map.mp hx
          have hc := (hmem c).mp hc
          obtain rfl := hl.desc_inj hc.1 hb hcb
          exact hkb hc.2
      · intro c
        rw [hmem c]
        constructor
        · rintro ⟨hc, hck⟩
          refine ⟨⟨hc, ?_⟩, hck⟩
          rintro rfl
          exact hkb hck
        · rintro ⟨hc, hck⟩
          exact ⟨hc.1, hck⟩
  · intro c hc
    rw [Mem.dequeue_apply]
    exact hl.marked c hc.1

theorem enqueue (hl : Lists p m F) (hp : p.Layout) (hb : p.Inside b)
    (hmark : (m (p.desc b)).tag = .free ∧ (m (p.desc b)).ord = b.ord)
    (hne : ∀ c ∈ F, c.start ≠ b.start) :
    Lists p (m.enqueue (p.headAt b.ord) (p.desc b)) (insert b F) := by
  have hhead : p.desc b ≠ p.headAt b.ord := (hp.headAt_ne_desc hb.ord_lt hb).symm
  have hout : ∀ k < p.order, ∀ l : List Dyadic.Block, (∀ c ∈ l, c ∈ F) →
      p.desc b ∉ p.headAt k :: l.map p.desc := by
    intro k hk l hl' hx
    rcases List.mem_cons.mp hx with hx | hx
    · exact hp.headAt_ne_desc hk hb hx.symm
    · obtain ⟨c, hc, hcb⟩ := List.mem_map.mp hx
      exact hne c (hl' c hc) (Pool.indexToBlock_inj.mp hcb)
  obtain ⟨l0, hring0, hmem0⟩ := hl.ring b.ord hb.ord_lt
  have hout0 := hout b.ord hb.ord_lt l0 fun c hc => ((hmem0 c).mp hc).1
  have hins := Mem.enqueue_inserted (m := m) hhead (by
    intro he
    exact hout0 (he ▸ hring0.next_mem List.mem_cons_self))
  refine ⟨?_, ?_, ?_⟩
  · intro k hk
    obtain ⟨l, hring, hmem⟩ := hl.ring k hk
    have hnot := hout k hk l fun c hc => ((hmem c).mp hc).1
    by_cases hkb : b.ord = k
    · subst hkb
      refine ⟨b :: l, LinkedRing.insert_head hins hring hnot, ?_⟩
      intro c
      rw [List.mem_cons, hmem c, Set.mem_insert_iff]
      constructor
      · rintro (rfl | hc)
        · exact ⟨.inl rfl, rfl⟩
        · exact ⟨.inr hc.1, hc.2⟩
      · rintro ⟨rfl | hc, hck⟩
        · exact .inl rfl
        · exact .inr ⟨hc, hck⟩
    · refine ⟨l, LinkedRing.insert_other hins hring hring0 ?_ hnot, ?_⟩
      · intro hx
        rcases List.mem_cons.mp hx with hx | hx
        · exact hkb (Pool.headAt_inj.mp hx)
        · obtain ⟨c, hc, hcb⟩ := List.mem_map.mp hx
          exact hp.headAt_ne_desc hb.ord_lt (hl.inside c ((hmem c).mp hc).1) hcb.symm
      · intro c
        rw [hmem c, Set.mem_insert_iff]
        constructor
        · rintro ⟨hc, hck⟩
          exact ⟨.inr hc, hck⟩
        · rintro ⟨rfl | hc, hck⟩
          · exact absurd hck hkb
          · exact ⟨hc, hck⟩
  · intro c hc
    rw [Mem.enqueue_apply hhead]
    rcases hc with rfl | hc
    · exact hmark
    · exact hl.marked c hc
  · rintro c (rfl | hc)
    · exact hb
    · exact hl.inside c hc

end Lists

end Tukija.Buddy
