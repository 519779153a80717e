import Tukija.Buddy.Tiling

/-! One specification for `_free` and one for `_alloc`. -/
namespace Tukija.Buddy

open Tukija.Lib Tukija.Lib.Ring Tukija.Lib.Dyadic

variable {p : Pool} {m : Mem} {F L : Set Dyadic.Block} {R : Set Int} {b : Dyadic.Block}

namespace Pool.Layout

theorem pageToIndex_indexToPage (hp : p.Layout) (i : Int) : p.pageToIndex (p.indexToPage i) = i := by
  obtain ⟨q, hq⟩ := hp.base_page
  simp only [Pool.pageToIndex, Pool.indexToPage, hq, pageSize, Nat.cast_ofNat]
  omega

theorem orderAligned (hp : p.Layout) (hb : b.ord < p.order) :
    p.orderAligned (p.indexToPage b.start) b.ord = true := by
  have hbase : (2 : Int) ^ (b.ord + pageBits) ∣ p.base - p.offset :=
    (pow_dvd_pow 2 (by omega)).trans hp.base_phys
  have hstart : (2 : Int) ^ (b.ord + pageBits) ∣ b.start * pageSize := by
    have hpage : ((pageSize : Nat) : Int) = 2 ^ pageBits := by decide
    rw [pow_add, hpage]
    exact mul_dvd_mul b.size_dvd_start dvd_rfl
  have hsum : p.virtToPhys (p.indexToPage b.start) = (p.base - p.offset) + b.start * pageSize := by
    unfold Pool.virtToPhys Pool.indexToPage
    ring
  rw [Pool.orderAligned, hsum, beq_iff_eq]
  exact Int.emod_eq_zero_of_dvd (dvd_add hbase hstart)

end Pool.Layout

section Free

/-- The loop of `_free` goes on exactly as long as there is a buddy to merge
with. -/
theorem merge_spec (hp : p.Layout) {n : Nat} (h : Tiled p m F L {b} R)
    (hn : n = p.order - 1 - b.ord) :
    ∃ b' m' F', p.merge n (p.desc b) b.ord m = (p.desc b', b'.ord, m') ∧
      Tiled p m' F' L {b'} R ∧ (b'.ord + 1 < p.order → b'.buddy ∉ F') := by
  induction n generalizing b m F with
  | zero => exact ⟨b, m, F, rfl, h, fun hlt => by omega⟩
  | succ n ih =>
    have hin := h.inside b (.inr rfl)
    have htest := h.buddy_test
    have hidx : Pool.buddyIdx (p.blockToIndex (p.desc b)) b.ord = b.buddy.start := by
      rw [Pool.desc, Pool.blockToIndex_indexToBlock, hp.buddyIdx_eq hin]
    have hdb : p.indexToBlock b.buddy.start = p.desc b.buddy := rfl
    simp only [Pool.merge, hidx, hdb]
    by_cases hF : b.buddy ∈ F
    · obtain ⟨hrange, hmark⟩ := htest.mpr hF
      have hord : b.ord + 1 < p.order := by omega
      have hfused := ((h.dequeue hp hF).fuse hord)
      have hdesc : (if p.desc b.buddy < p.desc b then p.desc b.buddy else p.desc b) =
          p.desc b.parent := by
        rw [Pool.desc, Pool.desc, Pool.desc, Block.parent_start]
        by_cases hlt : b.buddy.start < b.start
        · rw [if_pos (Pool.indexToBlock_lt.mpr hlt), min_eq_right hlt.le]
        · rw [if_neg (fun e => hlt (Pool.indexToBlock_lt.mp e)), min_eq_left (by omega)]
      rw [if_neg hrange, if_neg hmark, hdesc]
      exact ih hfused (by rw [Block.ord_parent]; omega)
    · refine ⟨b, m, F, ?_, h, fun _ => hF⟩
      by_cases hrange : b.buddy.start < p.minIdx ∨ p.maxIdx ≤ b.buddy.start
      · rw [if_pos hrange]
      · rw [if_neg hrange, if_pos]
        by_contra hmark
        exact hF (htest.mp ⟨hrange, hmark⟩)

/-- `_free` of a block that is marked as used passes the assertions and puts its
pages back on the lists. -/
theorem free_spec (hp : p.Layout) (h : Tiled p m F L {b} R)
    (hmark : (m (p.desc b)).tag = .used ∧ (m (p.desc b)).ord = b.ord) :
    ∃ m' F', p._free m (p.indexToPage b.start) = some m' ∧ Tiled p m' F' L ∅ R := by
  have hin := h.inside b (.inr rfl)
  have hbounds := hin.bounds _ b.start_mem
  obtain ⟨b', m', F', hmerge, htiled, hbuddy⟩ := merge_spec hp h rfl
  have hmarked := htiled.mark hp rfl fun x => { x with ord := b'.ord, tag := .free }
  have hlisted := hmarked.enqueue hp rfl (by simp) hbuddy
  rw [Set.sdiff_self] at hlisted
  refine ⟨_, _, ?_, hlisted⟩
  have hdesc : p.indexToBlock b.start = p.desc b := rfl
  simp only [Pool._free, hp.pageToIndex_indexToPage, hdesc, hmark.2]
  rw [if_pos ⟨hbounds.1, hbounds.2, hmark.1, hp.orderAligned hin.ord_lt⟩, hmerge]

end Free

section Alloc

theorem head_next_eq_iff (hl : Lists p m F) (hp : p.Layout) {k : Nat} (hk : k < p.order) :
    m.next (p.headAt k) = p.headAt k ↔ ∀ b ∈ F, b.ord ≠ k := by
  obtain ⟨l, hring, hmem⟩ := hl.ring k hk
  constructor
  · intro hnext b hb hbk
    have hbl := (hmem b).mpr ⟨hb, hbk⟩
    cases l with
    | nil => simp at hbl
    | cons c l =>
      have hc := ((hmem c).mp List.mem_cons_self).1
      exact hp.headAt_ne_desc hk (hl.inside c hc) (hnext.symm.trans hring.path.1.1)
  · intro hno
    cases l with
    | nil => exact hring.path.1
    | cons c l =>
      have hc := (hmem c).mp List.mem_cons_self
      exact absurd hc.2 (hno c hc.1)

theorem head_next (hl : Lists p m F) {k : Nat} (hk : k < p.order)
    (hne : m.next (p.headAt k) ≠ p.headAt k) : ∃ b ∈ F, b.ord = k ∧ m.next (p.headAt k) = p.desc b := by
  obtain ⟨l, hring, hmem⟩ := hl.ring k hk
  cases l with
  | nil => exact absurd hring.path.1 hne
  | cons c l =>
    have hc := (hmem c).mp List.mem_cons_self
    exact ⟨c, hc.1, hc.2, hring.path.1.1⟩

theorem firstList_eq_none (hl : Lists p m F) (hp : p.Layout) {n j : Nat} (hn : j + n ≤ p.order) :
    p.firstList m n j = none ↔ ∀ b ∈ F, ¬(j ≤ b.ord ∧ b.ord < j + n) := by
  induction n generalizing j with
  | zero =>
    simp only [Pool.firstList, true_iff]
    intro b _
    omega
  | succ n ih =>
    have hhead := head_next_eq_iff hl hp (k := j) (by omega)
    unfold Pool.firstList
    split
    · rename_i he
      rw [ih (by omega)]
      have hempty := hhead.mp he
      constructor
      · intro h b hb hbo
        have := hempty b hb
        exact h b hb (by omega)
      · intro h b hb hbo
        exact h b hb (by omega)
    · rename_i he
      simp only [reduceCtorEq, false_iff]
      intro h
      exact he (hhead.mpr fun b hb hbj => h b hb (by omega))

theorem firstList_eq_some (hl : Lists p m F) (hp : p.Layout) {n j k : Nat} (hn : j + n ≤ p.order)
    (h : p.firstList m n j = some k) :
    j ≤ k ∧ k < j + n ∧ (∀ b ∈ F, ¬(j ≤ b.ord ∧ b.ord < k)) ∧
      ∃ b ∈ F, b.ord = k ∧ m.next (p.headAt k) = p.desc b := by
  induction n generalizing j with
  | zero => simp [Pool.firstList] at h
  | succ n ih =>
    unfold Pool.firstList at h
    split at h
    · rename_i he
      have hempty := (head_next_eq_iff hl hp (by omega)).mp he
      obtain ⟨h1, h2, h3, h4⟩ := ih (by omega) h
      refine ⟨by omega, by omega, ?_, h4⟩
      intro b hb hbo
      have := hempty b hb
      exact h3 b hb (by omega)
    · rename_i he
      obtain rfl : j = k := Option.some.inj h
      exact ⟨le_rfl, by omega, fun b _ => by omega, head_next hl (by omega) he⟩

/-- The writes of one turn of the splitting loop put the upper half on an empty
list. -/
theorem split_writes {u h : Int} {j : Nat} (hne : u ≠ h) (hnext : m.next h = h) (hprev : m.prev h = h) :
    (((m.set u fun x => { x with prev := h, next := h }).set u fun x =>
      { x with ord := j, tag := .free }).set h fun x => { x with next := u, prev := u }) =
      (m.set u fun x => { x with ord := j, tag := .free }).enqueue h u := by
  have hnext' : (m h).next = h := hnext
  have hhu : h ≠ u := hne.symm
  funext x
  rw [Mem.enqueue_apply hne]
  simp only [Mem.set_apply, Mem.next, Mem.prev, hhu, if_false, hnext']
  by_cases hxh : x = h
  · subst hxh
    simp [hhu]
  · by_cases hxu : x = u
    · subst hxu
      simp [hne]
    · simp [hxh, hxu]

theorem split_spec (hp : p.Layout) {ord j : Nat} (h : Tiled p m F L {b} R) (hj : b.ord = j)
    (hle : ord ≤ j) (hempty : ∀ c ∈ F, ¬(ord ≤ c.ord ∧ c.ord < j)) :
    ∃ b' F', Tiled p (p.split (p.desc b) ord j m) F' L {b'} R ∧ b'.start = b.start ∧ b'.ord = ord ∧
      p.split (p.desc b) ord j m (p.desc b) = m (p.desc b) := by
  induction j generalizing b m F with
  | zero =>
    obtain rfl : ord = 0 := by omega
    exact ⟨b, F, h, rfl, hj, rfl⟩
  | succ j ih =>
    unfold Pool.split
    by_cases hord : j + 1 = ord
    · rw [if_pos hord]
      exact ⟨b, F, h, rfl, by omega, rfl⟩
    rw [if_neg hord]
    have hpos : 0 < b.ord := by omega
    have hlow := Block.ord_lower hpos
    have hlowj : b.lower.ord = j := by omega
    have hin := h.inside b (.inr rfl)
    have hjo : j < p.order := by
      have := hin.ord_lt
      omega
    have hhalf := h.halve hpos
    have hinu := hhalf.inside b.lower.buddy (.inr (.inr rfl))
    -- the upper half, and the list it goes to
    have hu : p.desc b + 2 ^ j * (blockSize : Nat) = p.desc b.lower.buddy := by
      rw [Pool.desc, Pool.desc, Block.buddy_lower_start hpos, show b.ord - 1 = j by omega]
      simp only [Pool.indexToBlock]
      ring
    have hne : p.desc b.lower.buddy ≠ p.headAt j := (hp.headAt_ne_desc hjo hinu).symm
    obtain ⟨hnext, hprev⟩ : m.next (p.headAt j) = p.headAt j ∧ m.prev (p.headAt j) = p.headAt j := by
      obtain ⟨l, hring, hmem⟩ := h.lists.ring j hjo
      cases l with
      | nil => exact hring.path
      | cons c l =>
        have hc := (hmem c).mp List.mem_cons_self
        exact absurd ⟨by omega, by omega⟩ (hempty c hc.1)
    have hbuddy : b.lower.buddy.ord + 1 < p.order → b.lower.buddy.buddy ∉ F := by
      intro _ hF
      rw [Block.buddy_buddy] at hF
      exact (hhalf.hand b.lower (.inl rfl)).1 hF
    have hmarked := hhalf.mark hp (.inr rfl) fun x => { x with ord := j, tag := .free }
    have hlisted := hmarked.enqueue hp (.inr rfl) (by simp [hlowj]) hbuddy
    have hset : ({b.lower, b.lower.buddy} : Set Dyadic.Block) \ {b.lower.buddy} = {b.lower} := by
      have := Block.buddy_ne (b := b.lower)
      ext x
      simp only [Set.mem_sdiff, Set.mem_insert_iff, Set.mem_singleton_iff]
      constructor
      · tauto
      · rintro rfl
        exact ⟨.inl rfl, this.symm⟩
    rw [hset, Block.ord_buddy, hlowj, ← split_writes hne hnext hprev, ← hu] at hlisted
    have hdescl : p.desc b.lower = p.desc b := by rw [Pool.desc, Pool.desc, Block.lower_start hpos]
    obtain ⟨b', F', htiled, hstart, hordb, hsame⟩ := ih hlisted hlowj (by omega) (by
      rintro c (rfl | hc) hco
      · rw [Block.ord_buddy] at hco
        omega
      · exact hempty c hc (by omega))
    rw [hdescl] at htiled hsame
    refine ⟨b', F', htiled, hstart.trans (Block.lower_start hpos), hordb, ?_⟩
    have h1 : p.desc b ≠ p.desc b + 2 ^ j * (blockSize : Nat) := by
      have : (0 : Int) < 2 ^ j := by positivity
      simp only [blockSize, Nat.cast_ofNat]
      omega
    have h2 : p.desc b ≠ p.headAt j := (hp.headAt_ne_desc hjo hin).symm
    rw [hsame, Mem.set_of_ne _ _ h2, Mem.set_of_ne _ _ h1, Mem.set_of_ne _ _ h1]

/-- `_alloc` fails when no list from its order on has a block; otherwise it
passes the assertion and returns a block that was on a list. -/
theorem alloc_spec (hp : p.Layout) (h : Tiled p m F L ∅ R) (ord : Nat) :
    (p._alloc m ord = some (none, m) ∧ ∀ b ∈ F, b.ord < ord) ∨
      ∃ b m' F', p._alloc m ord = some (some (p.indexToPage b.start), m') ∧ b.ord = ord ∧ b ∉ L ∧
        (∃ c ∈ F, ord ≤ c.ord ∧ ∀ i ∈ b, i ∈ c) ∧ Tiled p m' F' (insert b L) ∅ R := by
  have hbelow : ∀ b ∈ F, b.ord < p.order := fun b hb => (h.lists.inside b hb).ord_lt
  by_cases hord : p.order ≤ ord
  · refine .inl ⟨?_, fun b hb => (hbelow b hb).trans_le hord⟩
    have hzero : p.order - ord = 0 := by omega
    simp [Pool._alloc, hzero, Pool.firstList]
  have hsum : ord + (p.order - ord) = p.order := by omega
  cases hfirst : p.firstList m (p.order - ord) ord with
  | none =>
    refine .inl ⟨by simp [Pool._alloc, hfirst], ?_⟩
    intro b hb
    have := (firstList_eq_none h.lists hp hsum.le).mp hfirst b hb
    have := hbelow b hb
    omega
  | some j =>
    obtain ⟨hle, hlt, hempty, c, hc, hcj, hnext⟩ := firstList_eq_some h.lists hp hsum.le hfirst
    have hpop := h.dequeue hp hc
    rw [show insert c (∅ : Set Dyadic.Block) = {c} by simp] at hpop
    have hmarked := hpop.mark hp rfl fun x => { x with ord := ord, tag := .used }
    obtain ⟨b, F', htiled, hstart, hbo, hsame⟩ := split_spec hp hmarked hcj hle
      fun d hd => hempty d hd.1
    have hdesc : p.desc b = p.desc c := by rw [Pool.desc, Pool.desc, hstart]
    rw [Mem.set_self] at hsame
    have hlive := htiled.keep rfl (by rw [hdesc, hsame, hbo]; exact ⟨rfl, rfl⟩)
    rw [Set.sdiff_self] at hlive
    have hin := htiled.inside b (.inr rfl)
    refine .inr ⟨b, _, F', ?_, hbo, (htiled.hand b rfl).2, ⟨c, hc, by omega, ?_⟩, hlive⟩
    · have hal := hp.orderAligned hin.ord_lt
      rw [hstart, hbo] at hal
      simp only [Pool._alloc, hfirst, hnext, hsame]
      rw [show p.blockToIndex (p.desc c) = c.start from Pool.blockToIndex_indexToBlock _, if_pos hal,
        hstart]
    · intro i hi
      exact Block.mem_of_mem_of_le b.start_mem (hstart ▸ c.start_mem) (by omega) hi

end Alloc

end Tukija.Buddy
