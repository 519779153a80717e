import Tukija.Mapdb.Search

/-! The regions of the kernel: `Space::addreg` puts a range into the tree as
naturally aligned nodes, `Space::delreg` takes a page out of it. -/
namespace Tukija.Mapdb

open Tukija.Lib.Word

def bitScanForward (x : Mword) : Nat := ((List.range 64).find? fun i => x.getLsbD i).getD 64

/-- `max_order`: the largest block that starts at `base` and fits into `size`. -/
def maxOrder (base size : Mword) : Nat :=
  if base = 0 then size.toNat.log2 else min (bitScanForward base) size.toNat.log2

/-- `Mdb::lookup` as the code descends; `n` is the variable of that name. -/
def avlLookup (h : Heap) (base : Mword) (next : Bool) : Avl NodeId → Option NodeId → Option NodeId
  | .nil, n => n
  | .node l m _ r, n =>
    if (h m).covers base then some m
    else if (h m).nodeBase < base then avlLookup h base next r n
    else avlLookup h base next l (if next then some m else n)

structure Regions where
  mdb : Heap
  tree : Avl NodeId
  fresh : NodeId

/-- The node that `addreg` makes. -/
def newRegion (n : NodeId) (addr : Mword) (o : Nat) (attr type : Mword) : Mdb where
  dpth := 0
  prev := n
  next := n
  prnt := none
  space := kern
  nodePhys := addr
  nodeBase := addr
  nodeOrder := BitVec.ofNat 64 o
  nodeAttr := attr
  nodeType := type
  nodeSub := 0

namespace Regions

/-- `Mdb::insert` of a new node, whether it succeeds or not. -/
def insert (s : Regions) (x : NodeId → Mdb) : Option Regions :=
  let mdb := s.mdb.set s.fresh fun _ => x s.fresh
  (avlInsert mdb s.tree s.fresh).map fun r => ⟨mdb, r.2, s.fresh + 1⟩

/-- `Space::addreg`.  The first argument bounds the turns of the loop; `none` is
that they do not suffice. -/
def addreg (attr type : Mword) : Nat → Mword → Mword → Regions → Option Regions
  | 0, _, size, s => if size = 0 then some s else none
  | fuel + 1, addr, size, s =>
    if size = 0 then some s
    else
      let o := maxOrder addr size
      (s.insert fun n => newRegion n addr o attr type).bind
        (addreg attr type fuel (addr + shl 1 (BitVec.ofNat 64 o)) (size - shl 1 (BitVec.ofNat 64 o)))

def delreg (fuel : Nat) (addr : Mword) (s : Regions) : Option Regions :=
  let addr := shr addr 12
  match avlLookup s.mdb addr false s.tree none with
  | none => some s
  | some n =>
    let node := s.mdb n
    let next := addr + 1
    let base := node.nodeBase
    let last := node.last
    (avlRemove s.mdb s.tree n).bind fun r =>
      (addreg node.nodeAttr node.nodeType fuel base (addr - base) { s with tree := r.2 }).bind
        (addreg node.nodeAttr node.nodeType fuel next (last - next))

structure Good (s : Regions) : Prop where
  valid : Valid s.mdb s.tree
  placed : ∀ n ∈ s.tree.inorder, (s.mdb n).Placed
  made : ∀ n ∈ s.tree.inorder, n < s.fresh

/-- Page `x` is covered: as page `phys`, with these attributes and this type. -/
def Maps (s : Regions) (x phys attr type : Mword) : Prop :=
  ∃ n ∈ s.tree.inorder, (s.mdb n).covers x = true ∧ phys = (s.mdb n).nodePhys + (x - (s.mdb n).nodeBase) ∧
    attr = (s.mdb n).nodeAttr ∧ type = (s.mdb n).nodeType

instance (s : Regions) (x phys attr type : Mword) : Decidable (s.Maps x phys attr type) := by
  unfold Maps
  infer_instance

def Covered (s : Regions) (x : Mword) : Prop := ∃ n ∈ s.tree.inorder, (s.mdb n).covers x = true

end Regions

section Order

theorem two_pow_dvd {x k : Nat} (h : ∀ i < k, x.testBit i = false) : 2 ^ k ∣ x := by
  apply Nat.dvd_of_mod_eq_zero
  apply Nat.eq_of_testBit_eq
  intro i
  rw [Nat.testBit_mod_two_pow, Nat.zero_testBit]
  by_cases hi : i < k
  · simp [h i hi]
  · simp [hi]

theorem bitScanForward_aligned (x : Mword) : Aligned (bitScanForward x) x := by
  apply two_pow_dvd
  intro i hi
  rw [BitVec.testBit_toNat]
  unfold bitScanForward at hi
  cases hf : (List.range 64).find? fun i => x.getLsbD i with
  | none =>
    rw [hf, Option.getD_none] at hi
    simpa using List.find?_range_eq_none.mp hf i hi
  | some k =>
    rw [hf, Option.getD_some] at hi
    simpa using (List.find?_range_eq_some.mp hf).2.2 i hi

variable {addr size : Mword}

theorem maxOrder_le (hs : size ≠ 0) : 2 ^ maxOrder addr size ≤ size.toNat := by
  have hne : size.toNat ≠ 0 := fun h => hs (BitVec.eq_of_toNat_eq h)
  have hle : maxOrder addr size ≤ size.toNat.log2 := by
    unfold maxOrder
    split
    · exact le_rfl
    · exact Nat.min_le_right _ _
  exact (Nat.pow_le_pow_right two_pos hle).trans (Nat.log2_self_le hne)

theorem maxOrder_lt (hs : size ≠ 0) : maxOrder addr size < 64 :=
  (Nat.pow_lt_pow_iff_right Nat.one_lt_two).mp ((maxOrder_le hs).trans_lt size.isLt)

theorem maxOrder_aligned : Aligned (maxOrder addr size) addr := by
  unfold maxOrder
  split
  · rename_i h
    rw [h]
    exact dvd_zero _
  · exact (bitScanForward_aligned addr).mono (Nat.min_le_left _ _)

end Order

section Cover

variable {h h' : Heap} {t : Avl NodeId} {x y : Mdb} {b : Mword}

theorem Mdb.Placed.top_le (hx : x.Placed) : x.top ≤ 2 ^ 64 := hx.base.add_le hx.order_lt.le

theorem Mdb.Placed.covers_iff (hx : x.Placed) (b : Mword) :
    x.covers b = true ↔ x.nodeBase.toNat ≤ b.toNat ∧ b.toNat < x.top := by
  rw [Mdb.covers, beq_iff_eq, shr_xor_eq_zero, mod_64_eq hx.order_lt, sameBlock_iff_of_aligned hx.base,
    Mdb.top]

theorem Mdb.Placed.covers_iff_sub (hx : x.Placed) (b : Mword) :
    x.covers b = true ↔ (b - x.nodeBase).toNat < 2 ^ x.nodeOrder.toNat := by
  have htop := hx.top_le
  have hb := b.isLt
  rw [hx.covers_iff, BitVec.toNat_sub]
  unfold Mdb.top at htop ⊢
  by_cases hle : x.nodeBase.toNat ≤ b.toNat
  · rw [show 2 ^ 64 - x.nodeBase.toNat + b.toNat = b.toNat - x.nodeBase.toNat + 2 ^ 64 by omega,
      Nat.add_mod_right, Nat.mod_eq_of_lt (by omega)]
    omega
  · rw [Nat.mod_eq_of_lt (by omega)]
    omega

theorem Mdb.Placed.exists_of_overlaps (hx : x.Placed) (hy : y.Placed) (ho : x.Overlaps y) :
    ∃ b, x.covers b = true ∧ y.covers b = true := by
  have hxt := x.base_lt_top
  have hyt := y.base_lt_top
  rcases le_total x.nodeBase.toNat y.nodeBase.toNat with hle | hle
  · exact ⟨y.nodeBase, (hx.covers_iff _).mpr ⟨hle, ho.2⟩, (hy.covers_iff _).mpr ⟨le_rfl, hyt⟩⟩
  · exact ⟨x.nodeBase, (hx.covers_iff _).mpr ⟨le_rfl, hxt⟩, (hy.covers_iff _).mpr ⟨hle, ho.1⟩⟩

theorem Mdb.Placed.overlaps_of_covers (hx : x.Placed) (hy : y.Placed) (hb : x.covers b = true)
    (hb' : y.covers b = true) : x.Overlaps y := by
  rw [hx.covers_iff] at hb
  rw [hy.covers_iff] at hb'
  exact ⟨lt_of_le_of_lt hb.1 hb'.2, lt_of_le_of_lt hb'.1 hb.2⟩

theorem Valid.congr (ht : Valid h t) (he : ∀ n ∈ t.inorder, h' n = h n) : Valid h' t where
  sorted := ht.sorted.imp_of_mem fun hx hy hlt => by rwa [he _ hx, he _ hy]
  disjoint := ht.disjoint.imp_of_mem fun hx hy hno => by rwa [he _ hx, he _ hy]
  balanced := ht.balanced

/-- Nothing of a node that ends at or before `base` is looked for. -/
theorem find?_before (base : Mword) {l : List NodeId} (hpl : ∀ n ∈ l, (h n).Placed)
    (hl : ∀ n ∈ l, (h n).top ≤ base.toNat) :
    (l.find? fun n => (h n).covers base) = none ∧ (l.find? fun n => decide (base < (h n).nodeBase)) = none := by
  constructor <;> rw [List.find?_eq_none] <;> intro n hn hc
  · have := (((hpl n hn).covers_iff base).mp hc).2
    have := hl n hn
    omega
  · have := BitVec.lt_def.mp (of_decide_eq_true hc)
    have := hl n hn
    have := (h n).base_lt_top
    omega

theorem find?_behind (base : Mword) {l : List NodeId} (hpl : ∀ n ∈ l, (h n).Placed)
    (hl : ∀ n ∈ l, base.toNat < (h n).nodeBase.toNat) :
    (l.find? fun n => (h n).covers base) = none := by
  rw [List.find?_eq_none]
  intro n hn hc
  have := (((hpl n hn).covers_iff base).mp hc).1
  have := hl n hn
  omega

theorem avlLookup_or {base : Mword} (hs : t.inorder.Pairwise fun x y => (h x).top ≤ (h y).nodeBase.toNat)
    (hpl : ∀ n ∈ t.inorder, (h n).Placed) (next : Bool) (n : Option NodeId) :
    avlLookup h base next t n = (t.inorder.find? fun n => (h n).covers base).or
      (if next then (t.inorder.find? fun n => decide (base < (h n).nodeBase)).or n else n) := by
  induction t generalizing n with
  | nil => cases next <;> rfl
  | node l m bal r ihl ihr =>
    rw [Avl.inorder, List.pairwise_append, List.pairwise_cons] at hs
    obtain ⟨hl, ⟨hmr, hr⟩, hlm⟩ := hs
    have hpl' : ∀ n, n ∈ l.inorder ∨ n = m ∨ n ∈ r.inorder → (h n).Placed := fun n hn =>
      hpl n (by simpa [Avl.inorder] using hn)
    have ihl := ihl hl fun n hn => hpl' n (.inl hn)
    have ihr := ihr hr fun n hn => hpl' n (.inr (.inr hn))
    have hm := hpl' m (.inr (.inl rfl))
    have hleft (hle : (h m).nodeBase.toNat ≤ base.toNat) :=
      find?_before base (fun n hn => hpl' n (.inl hn)) fun n hn =>
        (hlm n hn m List.mem_cons_self).trans hle
    unfold avlLookup
    rw [Avl.inorder, List.find?_append, List.find?_append, List.find?_cons, List.find?_cons]
    by_cases hc : (h m).covers base = true
    · rw [if_pos hc, (hleft ((hm.covers_iff base).mp hc).1).1, hc]
      rfl
    rw [if_neg hc, Bool.eq_false_iff.mpr hc]
    by_cases hlt : (h m).nodeBase < base
    · have hle := (BitVec.lt_def.mp hlt).le
      rw [if_pos hlt, (hleft hle).1, (hleft hle).2, decide_eq_false (fun hb => hle.not_gt (BitVec.lt_def.mp hb)), ihr]
      rfl
    · -- `m` is behind `base`, and all of the right side is
      have hbm : base.toNat < (h m).nodeBase.toNat := by
        have := (hm.covers_iff base).not.mp hc
        have := (h m).base_lt_top
        rw [BitVec.lt_def] at hlt
        omega
      have hright := find?_behind base (fun n hn => hpl' n (.inr (.inr hn))) fun n hn =>
        hbm.trans ((h m).base_lt_top.trans_le (hmr n hn))
      rw [if_neg hlt, ihl, hright, decide_eq_true (BitVec.lt_def.mpr hbm)]
      cases next <;> simp

theorem avlLookup_eq (hs : t.inorder.Pairwise fun x y => (h x).top ≤ (h y).nodeBase.toNat)
    (hpl : ∀ n ∈ t.inorder, (h n).Placed) :
    avlLookup h b false t none = t.inorder.find? fun n => (h n).covers b :=
  (avlLookup_or hs hpl false none).trans (Option.or_none)

end Cover

namespace Regions

variable {s s' : Regions} {x addr size attr type phys : Mword}

theorem toNat_order {o : Nat} (ho : o < 64) : (BitVec.ofNat 64 o).toNat = o := by
  rw [BitVec.toNat_ofNat]
  exact Nat.mod_eq_of_lt (by omega)

theorem newRegion_placed {n : NodeId} {o : Nat} (ho : o < 64) (ha : Aligned o addr) :
    (newRegion n addr o attr type).Placed :=
  ⟨by rwa [newRegion, toNat_order ho], by rwa [newRegion, toNat_order ho]⟩

theorem Good.insert {f : NodeId → Mdb} (hg : s.Good) (hf : (f s.fresh).Placed) :
    ∃ s', s.insert f = some s' ∧ s'.Good ∧
      ((∀ b, (f s.fresh).covers b = true → ¬s.Covered b) →
        (∀ n, n < s.fresh → s'.mdb n = s.mdb n) ∧ s'.mdb s.fresh = f s.fresh ∧
          ∀ n, n ∈ s'.tree.inorder ↔ n = s.fresh ∨ n ∈ s.tree.inorder) := by
  generalize hh : (s.mdb.set s.fresh fun _ => f s.fresh) = h
  have hnew : h s.fresh = f s.fresh := by rw [← hh, Heap.set_self]
  have hold : ∀ n, n < s.fresh → h n = s.mdb n := by
    intro n hn
    rw [← hh, Heap.set_of_ne _ _ hn.ne]
  have htree : ∀ n ∈ s.tree.inorder, h n = s.mdb n := fun n hn => hold n (hg.made n hn)
  have hvalid : Valid h s.tree := hg.valid.congr htree
  have hplaced : ∀ n ∈ s.tree.inorder, (h n).Placed := fun n hn => by
    rw [htree n hn]
    exact hg.placed n hn
  have hf' : (h s.fresh).Placed := by rwa [hnew]
  by_cases ho : ∃ n ∈ s.tree.inorder, (h s.fresh).Overlaps (h n)
  · refine ⟨⟨h, s.tree, s.fresh + 1⟩, ?_, ⟨hvalid, hplaced, ?_⟩, fun hfree => ?_⟩
    · simp only [Regions.insert, hh, avlInsert_overlap hvalid hplaced hf' ho, Option.map_some]
    · exact fun n hn => (hg.made n hn).trans (Nat.lt_succ_self _)
    · obtain ⟨n, hn, ho⟩ := ho
      rw [hnew, htree n hn] at ho
      obtain ⟨b, hb, hnb⟩ := hf.exists_of_overlaps (hg.placed n hn) ho
      exact absurd ⟨n, hn, hnb⟩ (hfree b hb)
  · push Not at ho
    obtain ⟨t', hins, hvalid', hino⟩ := avlInsert_free hvalid hplaced hf' ho
    have hmem : ∀ n, n ∈ t'.inorder ↔ n = s.fresh ∨ n ∈ s.tree.inorder := by
      intro n
      rw [hino, mem_insertOrdered]
    refine ⟨⟨h, t', s.fresh + 1⟩, ?_, ⟨hvalid', ?_, ?_⟩, fun _ => ⟨hold, hnew, hmem⟩⟩
    · simp only [Regions.insert, hh, hins, Option.map_some]
    · intro n hn
      rcases (hmem n).mp hn with rfl | hn
      · exact hf'
      · exact hplaced n hn
    · intro n hn
      rcases (hmem n).mp hn with rfl | hn
      · exact Nat.lt_succ_self _
      · exact (hg.made n hn).trans (Nat.lt_succ_self _)

theorem maps_insert {o : Nat} (hg : s.Good) (ho : o < 64) (ha : Aligned o addr) (attr type : Mword) :
    ∃ s', (s.insert fun n => newRegion n addr o attr type) = some s' ∧ s'.Good ∧
      ((∀ b, (b - addr).toNat < 2 ^ o → ¬s.Covered b) → ∀ x p a t, s'.Maps x p a t ↔
        s.Maps x p a t ∨ (x - addr).toNat < 2 ^ o ∧ p = x ∧ a = attr ∧ t = type) := by
  have hplaced : (newRegion s.fresh addr o attr type).Placed := newRegion_placed ho ha
  have hcovers : ∀ b, (newRegion s.fresh addr o attr type).covers b = true ↔ (b - addr).toNat < 2 ^ o := by
    intro b
    rw [hplaced.covers_iff_sub, newRegion, toNat_order ho]
  obtain ⟨s', hs', hg', hall⟩ := hg.insert (f := fun n => newRegion n addr o attr type) hplaced
  refine ⟨s', hs', hg', fun hfree x p a t => ?_⟩
  obtain ⟨hold, hnew, hmem⟩ := hall fun b hb => hfree b ((hcovers b).mp hb)
  unfold Maps
  constructor
  · rintro ⟨n, hn, hc, hp, hat, hty⟩
    rcases (hmem n).mp hn with rfl | hn
    · rw [hnew] at hc hp hat hty
      refine .inr ⟨(hcovers x).mp hc, ?_, hat, hty⟩
      rw [hp]
      simp [newRegion]
    · rw [hold n (hg.made n hn)] at hc hp hat hty
      exact .inl ⟨n, hn, hc, hp, hat, hty⟩
  · rintro (⟨n, hn, hc, hp, hat, hty⟩ | ⟨hd, rfl, rfl, rfl⟩)
    · refine ⟨n, (hmem n).mpr (.inr hn), ?_⟩
      rw [hold n (hg.made n hn)]
      exact ⟨hc, hp, hat, hty⟩
    · refine ⟨s.fresh, (hmem _).mpr (.inl rfl), ?_⟩
      rw [hnew]
      refine ⟨(hcovers p).mpr hd, ?_, rfl, rfl⟩
      simp [newRegion]

theorem covered_iff : s.Covered x ↔ ∃ p a t, s.Maps x p a t := by
  constructor
  · rintro ⟨n, hn, hc⟩
    exact ⟨_, _, _, n, hn, hc, rfl, rfl, rfl⟩
  · rintro ⟨p, a, t, n, hn, hc, -⟩
    exact ⟨n, hn, hc⟩

theorem sub_lt_iff {block : Mword} (hb : block.toNat ≤ size.toNat) :
    (x - (addr + block)).toNat < (size - block).toNat ↔
      block.toNat ≤ (x - addr).toNat ∧ (x - addr).toNat < size.toNat := by
  have hsize : (size - block).toNat = size.toNat - block.toNat :=
    BitVec.toNat_sub_of_le (BitVec.le_def.mpr hb)
  rw [hsize, ← BitVec.sub_sub]
  generalize x - addr = d
  have hdlt := d.isLt
  have hslt := size.isLt
  by_cases hle : block.toNat ≤ d.toNat
  · rw [BitVec.toNat_sub_of_le (BitVec.le_def.mpr hle)]
    omega
  · rw [BitVec.toNat_sub, Nat.mod_eq_of_lt (by omega)]
    omega

theorem addreg_spec {fuel : Nat} (hg : s.Good) (hf : size.toNat ≤ fuel) (attr type addr : Mword) :
    ∃ s', addreg attr type fuel addr size s = some s' ∧ s'.Good ∧
      ((∀ b, (b - addr).toNat < size.toNat → ¬s.Covered b) → ∀ x p a t, s'.Maps x p a t ↔
        s.Maps x p a t ∨ (x - addr).toNat < size.toNat ∧ p = x ∧ a = attr ∧ t = type) := by
  induction fuel generalizing addr size s with
  | zero =>
    have hzero : size = 0 := BitVec.eq_of_toNat_eq (Nat.le_zero.mp hf)
    exact ⟨s, by simp [addreg, hzero], hg, by simp [hzero]⟩
  | succ fuel ih =>
    by_cases hs : size = 0
    · exact ⟨s, by simp [addreg, hs], hg, by simp [hs]⟩
    · have hle : 2 ^ maxOrder addr size ≤ size.toNat := maxOrder_le hs
      have hlt : maxOrder addr size < 64 := maxOrder_lt hs
      generalize ho : maxOrder addr size = o at hle hlt
      generalize hblock : shl 1 (BitVec.ofNat 64 o) = block
      have hnat : block.toNat = 2 ^ o := by
        rw [← hblock, toNat_shl_one (by rwa [toNat_order hlt]), toNat_order hlt]
      have hpos : 0 < 2 ^ o := Nat.two_pow_pos o
      have hsize : (size - block).toNat = size.toNat - 2 ^ o := by
        rw [BitVec.toNat_sub_of_le (BitVec.le_def.mpr (hnat ▸ hle)), hnat]
      have hrest : ∀ b : Mword, (b - (addr + block)).toNat < (size - block).toNat ↔
          2 ^ o ≤ (b - addr).toNat ∧ (b - addr).toNat < size.toNat := fun b => by
        rw [sub_lt_iff (hnat ▸ hle), hnat]
      obtain ⟨s₁, hs₁, hg₁, hmaps₁⟩ := maps_insert hg hlt (ho ▸ maxOrder_aligned) attr type
      obtain ⟨s₂, hs₂, hg₂, hmaps₂⟩ := @ih s₁ (size - block) hg₁ (by omega) (addr + block)
      refine ⟨s₂, ?_, hg₂, fun hfree x p a t => ?_⟩
      · rw [addreg, if_neg hs]
        simp only [ho, hblock, hs₁, Option.bind_some, hs₂]
      have hmaps₁ := hmaps₁ fun b hb => hfree b (hb.trans_le hle)
      -- the pages of the rest are not those of the first block
      have hfree₁ : ∀ b, (b - (addr + block)).toNat < (size - block).toNat → ¬s₁.Covered b := by
        intro b hb hcov
        obtain ⟨p, a, t, hmaps⟩ := covered_iff.mp hcov
        rcases (hmaps₁ b p a t).mp hmaps with hold | ⟨hd, -⟩
        · exact hfree b ((hrest b).mp hb).2 (covered_iff.mpr ⟨p, a, t, hold⟩)
        · exact absurd hd (Nat.not_lt_of_le ((hrest b).mp hb).1)
      rw [hmaps₂ hfree₁, hmaps₁, hrest x]
      have hor := lt_or_ge (x - addr).toNat (2 ^ o)
      have hlow : (x - addr).toNat < 2 ^ o → (x - addr).toNat < size.toNat := fun h => h.trans_le hle
      tauto

theorem Good.unique {m n : NodeId} (hg : s.Good) (hm : m ∈ s.tree.inorder) (hn : n ∈ s.tree.inorder)
    (hmx : (s.mdb m).covers x = true) (hnx : (s.mdb n).covers x = true) : m = n := by
  have hno := (hg.placed n hn).overlaps_of_covers (hg.placed m hm) hnx hmx
  rw [← (hg.placed n hn).equal_iff_overlaps (hg.placed m hm)] at hno
  exact (hg.valid.equal_iff_eq hg.placed hn hm).mp hno

theorem Good.lookup (hg : s.Good) (b : Mword) :
    avlLookup s.mdb b false s.tree none = s.tree.inorder.find? fun n => (s.mdb n).covers b :=
  avlLookup_eq hg.valid.top_le hg.placed

theorem Good.remove {n : NodeId} (hg : s.Good) (hn : n ∈ s.tree.inorder) :
    ∃ t', avlRemove s.mdb s.tree n = some (true, t') ∧ Good { s with tree := t' } ∧
      ∀ m, m ∈ t'.inorder ↔ m ∈ s.tree.inorder ∧ m ≠ n := by
  obtain ⟨t', hrem, hvalid, hino⟩ := (avlRemove_valid hg.valid hg.placed).1 hn
  have hmem : ∀ m, m ∈ t'.inorder ↔ m ∈ s.tree.inorder ∧ m ≠ n := by
    intro m
    rw [hino, hg.valid.nodup.mem_erase_iff, and_comm]
  refine ⟨t', hrem, ⟨hvalid, fun m hm => ?_, fun m hm => ?_⟩, hmem⟩
  · exact hg.placed m ((hmem m).mp hm).1
  · exact hg.made m ((hmem m).mp hm).1

theorem behind_iff {n : Mdb} {a : Mword} (hn : n.Placed) (ha : n.covers a = true) :
    (x - (a + 1)).toNat < (n.last - (a + 1)).toNat ↔
      (a - n.nodeBase).toNat < (x - n.nodeBase).toNat ∧ n.covers x = true := by
  have hsize : (shl 1 n.nodeOrder).toNat = 2 ^ n.nodeOrder.toNat := toNat_shl_one hn.order_lt
  rw [hn.covers_iff_sub] at ha ⊢
  have hlt : (a - n.nodeBase).toNat + 1 < 2 ^ 64 := by
    have := (shl 1 n.nodeOrder).isLt
    omega
  have hblock : (a - n.nodeBase + 1).toNat = (a - n.nodeBase).toNat + 1 := by
    rw [BitVec.toNat_add]
    exact Nat.mod_eq_of_lt hlt
  have hnext : a + 1 = n.nodeBase + (a - n.nodeBase + 1) := by
    rw [← BitVec.add_assoc, BitVec.add_comm n.nodeBase, BitVec.sub_add_cancel]
  have hrest : n.last - (a + 1) = shl 1 n.nodeOrder - (a - n.nodeBase + 1) := by
    rw [hnext, Mdb.last, ← BitVec.sub_sub, BitVec.add_comm n.nodeBase, BitVec.add_sub_cancel]
  rw [hrest, hnext, sub_lt_iff (by omega), hblock, hsize]
  exact Iff.rfl

theorem delreg_spec {fuel : Nat} (hg : s.Good) (hf : 2 ^ 64 ≤ fuel) (addr : Mword) :
    ∃ s', s.delreg fuel addr = some s' ∧ s'.Good ∧
      ∀ x p a t, s'.Maps x p a t ↔ x ≠ shr addr 12 ∧ ∃ n ∈ s.tree.inorder,
        (s.mdb n).covers x = true ∧ a = (s.mdb n).nodeAttr ∧ t = (s.mdb n).nodeType ∧
          p = if (s.mdb n).covers (shr addr 12) then x else (s.mdb n).nodePhys + (x - (s.mdb n).nodeBase) := by
  unfold delreg
  dsimp only
  generalize shr addr 12 = page
  rw [hg.lookup]
  cases hfind : s.tree.inorder.find? fun n => (s.mdb n).covers page with
  | none =>
    rw [List.find?_eq_none] at hfind
    refine ⟨s, rfl, hg, fun x p a t => ⟨?_, ?_⟩⟩
    · rintro ⟨n, hn, hc, hp, ha, ht⟩
      refine ⟨?_, n, hn, hc, ha, ht, by rw [if_neg (hfind n hn), hp]⟩
      rintro rfl
      exact hfind n hn hc
    · rintro ⟨-, n, hn, hc, ha, ht, hp⟩
      rw [if_neg (hfind n hn)] at hp
      exact ⟨n, hn, hc, hp, ha, ht⟩
  | some n =>
    have hn : n ∈ s.tree.inorder := List.mem_of_find?_eq_some hfind
    have hpage : (s.mdb n).covers page = true :=
      List.find?_some (p := fun n => (s.mdb n).covers page) hfind
    have hpl := hg.placed n hn
    have hdist := (hpl.covers_iff_sub page).mp hpage
    obtain ⟨t', hrem, hg₁, hmem⟩ := hg.remove hn
    generalize hs₁ : ({ s with tree := t' } : Regions) = s₁ at hg₁
    have hmaps₁ : ∀ x p a t, s₁.Maps x p a t ↔ s.Maps x p a t ∧ (s.mdb n).covers x = false := by
      intro x p a t
      rw [← hs₁]
      constructor
      · rintro ⟨m, hm, hc, hrest⟩
        obtain ⟨hm, hne⟩ := (hmem m).mp hm
        refine ⟨⟨m, hm, hc, hrest⟩, Bool.eq_false_of_not_eq_true fun hnx => ?_⟩
        exact hne (hg.unique hm hn hc hnx)
      · rintro ⟨⟨m, hm, hc, hrest⟩, hnx⟩
        refine ⟨m, (hmem m).mpr ⟨hm, ?_⟩, hc, hrest⟩
        rintro rfl
        simp [hnx] at hc
    have hsize : (page - (s.mdb n).nodeBase).toNat ≤ fuel := by
      have := (page - (s.mdb n).nodeBase).isLt
      omega
    have hsize' : ((s.mdb n).last - (page + 1)).toNat ≤ fuel := by
      have := ((s.mdb n).last - (page + 1)).isLt
      omega
    -- the pages before it
    have hbefore : ∀ x, (x - (s.mdb n).nodeBase).toNat < (page - (s.mdb n).nodeBase).toNat →
        (s.mdb n).covers x = true := fun x hx => (hpl.covers_iff_sub x).mpr (hx.trans hdist)
    obtain ⟨s₂, hs₂, hg₂, hmaps₂⟩ := addreg_spec hg₁ hsize (s.mdb n).nodeAttr (s.mdb n).nodeType
      (s.mdb n).nodeBase
    have hmaps₂ := hmaps₂ fun b hb hcov => by
      obtain ⟨p, a, t, hmaps⟩ := covered_iff.mp hcov
      simpa [hbefore b hb] using ((hmaps₁ b p a t).mp hmaps).2
    -- and those behind it
    obtain ⟨s₃, hs₃, hg₃, hmaps₃⟩ := addreg_spec hg₂ hsize' (s.mdb n).nodeAttr (s.mdb n).nodeType
      (page + 1)
    have hmaps₃ := hmaps₃ fun b hb hcov => by
      obtain ⟨hd, hnb⟩ := (behind_iff hpl hpage).mp hb
      obtain ⟨p, a, t, hmaps⟩ := covered_iff.mp hcov
      rcases (hmaps₂ b p a t).mp hmaps with hmaps | ⟨hlt, -⟩
      · simpa [hnb] using ((hmaps₁ b p a t).mp hmaps).2
      · exact absurd hd hlt.asymm
    refine ⟨s₃, ?_, hg₃, fun x p a t => ?_⟩
    · simp only [hrem, Option.bind_some, hs₁, hs₂, hs₃]
    · have hne : x ≠ page ↔ (x - (s.mdb n).nodeBase).toNat ≠ (page - (s.mdb n).nodeBase).toNat := by
        rw [not_iff_not, BitVec.toNat_inj, sub_left_inj]
      rw [hmaps₃, hmaps₂, hmaps₁, behind_iff hpl hpage]
      constructor
      · rintro ((⟨⟨m, hm, hc, hp, ha, ht⟩, hnx⟩ | ⟨hlt, rfl, rfl, rfl⟩) | ⟨⟨hlt, hnx⟩, rfl, rfl, rfl⟩)
        · have hpm : (s.mdb m).covers page = false := by
            refine Bool.eq_false_of_not_eq_true fun hmp => ?_
            obtain rfl := hg.unique hm hn hmp hpage
            simp [hnx] at hc
          refine ⟨?_, m, hm, hc, ha, ht, by simp [hpm, hp]⟩
          rintro rfl
          simp [hnx] at hpage
        · exact ⟨hne.mpr hlt.ne, n, hn, hbefore p hlt, rfl, rfl, by rw [if_pos hpage]⟩
        · exact ⟨hne.mpr hlt.ne', n, hn, hnx, rfl, rfl, by rw [if_pos hpage]⟩
      · rintro ⟨hxp, m, hm, hc, rfl, rfl, hp⟩
        by_cases hmn : m = n
        · subst hmn
          rw [if_pos hpage] at hp
          subst hp
          rcases Nat.lt_or_gt_of_ne (hne.mp hxp) with hlt | hlt
          · exact .inl (.inr ⟨hlt, rfl, rfl, rfl⟩)
          · exact .inr ⟨⟨hlt, hc⟩, rfl, rfl, rfl⟩
        · have hnx : (s.mdb n).covers x = false :=
            Bool.eq_false_of_not_eq_true fun hnx => hmn (hg.unique hm hn hc hnx)
          rw [if_neg fun hmp => hmn (hg.unique hm hn hmp hpage)] at hp
          exact .inl (.inl ⟨⟨m, hm, hc, hp, rfl, rfl⟩, hnx⟩)

/-- Both come to an end and leave a tree of disjoint aligned nodes.  A range of free
pages is put into it page by page as itself; a page is taken out alone, but what is
left of its node is mapped to itself from then on. -/
theorem addreg_delreg {fuel : Nat} (hg : s.Good) (hf : 2 ^ 64 ≤ fuel) :
    (∀ addr size attr type, ∃ s', addreg attr type fuel addr size s = some s' ∧ s'.Good ∧
        ((∀ b, (b - addr).toNat < size.toNat → ¬s.Covered b) → ∀ x p a t, s'.Maps x p a t ↔
          s.Maps x p a t ∨ (x - addr).toNat < size.toNat ∧ p = x ∧ a = attr ∧ t = type)) ∧
      ∀ addr, ∃ s', s.delreg fuel addr = some s' ∧ s'.Good ∧
        ∀ x p a t, s'.Maps x p a t ↔ x ≠ shr addr 12 ∧ ∃ n ∈ s.tree.inorder,
          (s.mdb n).covers x = true ∧ a = (s.mdb n).nodeAttr ∧ t = (s.mdb n).nodeType ∧
            p = if (s.mdb n).covers (shr addr 12) then x else (s.mdb n).nodePhys + (x - (s.mdb n).nodeBase) :=
  ⟨fun addr _ attr type => addreg_spec hg (by omega) attr type addr, delreg_spec hg hf⟩

/-- A node of two pages from page 4 on, mapped to `phys`. -/
def twoPages (phys : Mword) : Regions where
  mdb _ := { newRegion 0 4 1 7 6 with nodePhys := phys }
  tree := .leaf 0
  fresh := 1

theorem twoPages_good (phys : Mword) : (twoPages phys).Good where
  valid := ⟨by simp [twoPages, Avl.leaf, Avl.inorder], by simp [twoPages, Avl.leaf, Avl.inorder],
    by simp [twoPages, Avl.leaf, Avl.Balanced, Avl.Leans]⟩
  placed n _ := ⟨show (1 : Mword).toNat < 64 by decide, show Aligned 1 4 by decide⟩
  made n hn := by
    obtain rfl : n = 0 := by simpa [twoPages, Avl.leaf, Avl.inorder] using hn
    exact Nat.zero_lt_one

theorem addreg_delreg_twoPages :
    (∀ addr size attr type, ∃ s', addreg attr type (2 ^ 64) addr size (twoPages 4) = some s' ∧ s'.Good ∧
        ((∀ b, (b - addr).toNat < size.toNat → ¬(twoPages 4).Covered b) → ∀ x p a t, s'.Maps x p a t ↔
          (twoPages 4).Maps x p a t ∨ (x - addr).toNat < size.toNat ∧ p = x ∧ a = attr ∧ t = type)) ∧
      ∀ addr, ∃ s', (twoPages 4).delreg (2 ^ 64) addr = some s' ∧ s'.Good ∧
        ∀ x p a t, s'.Maps x p a t ↔ x ≠ shr addr 12 ∧ ∃ n ∈ (twoPages 4).tree.inorder,
          ((twoPages 4).mdb n).covers x = true ∧ a = ((twoPages 4).mdb n).nodeAttr ∧
            t = ((twoPages 4).mdb n).nodeType ∧
              p = if ((twoPages 4).mdb n).covers (shr addr 12) then x
                else ((twoPages 4).mdb n).nodePhys + (x - ((twoPages 4).mdb n).nodeBase) :=
  addreg_delreg (twoPages_good 4) le_rfl

/-- Page 4 goes, and page 5 is no longer mapped to page 101. -/
theorem delreg_twoPages_moves :
    (twoPages 100).Good ∧ (twoPages 100).Maps 5 101 7 6 ∧
      ∃ s', (twoPages 100).delreg (2 ^ 64) 0x4000 = some s' ∧ ¬s'.Maps 5 101 7 6 ∧ s'.Maps 5 5 7 6 := by
  refine ⟨twoPages_good 100, by decide, ?_⟩
  obtain ⟨s', hs', -, hmaps⟩ := delreg_spec (twoPages_good 100) le_rfl 0x4000
  exact ⟨s', hs', by rw [hmaps]; decide, by rw [hmaps]; decide⟩

end Regions

end Tukija.Mapdb
