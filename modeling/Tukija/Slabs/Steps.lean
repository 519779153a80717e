import Tukija.Slabs.Lists

/-! What the operations of a cache do to the list. -/
namespace Tukija.Slabs.Cache

open Tukija.Lib.Chain

variable {c c' : Cache} {s p : SlabId} {A B u v l : List SlabId} {o : Obj} {page : SlabId}

theorem lists_new (elem : Nat) : (new elem).Lists [] [] := by
  refine ⟨⟨trivial, List.nodup_nil, rfl⟩, ⟨?_, ?_, ?_⟩, rfl, ?_, ?_, ?_⟩ <;> simp [new]

theorem elem_grow : (c.grow page).elem = c.elem := by
  unfold grow
  cases c.head <;> rfl

theorem live_grow : (c.grow page).live = c.live := by
  unfold grow
  cases c.head <;> rfl

theorem pages_grow : (c.grow page).pages = insert page c.pages := by
  unfold grow
  cases c.head <;> rfl

theorem Lists.grow (h : c.Lists [] B) (hp : page ∉ c.pages) (he : 1 ≤ c.elem) :
    (c.grow page).Lists [page] B := by
  have hpB : page ∉ B := mt (h.holds.pages page).mpr hp
  have hav := fun x => congrFun (contents_grow c page).1 x
  have hfl := fun x => congrFun (contents_grow c page).2 x
  have hne : ∀ x ∈ B, x ≠ page := by
    rintro x hx rfl
    exact hpB hx
  have helem : (c.grow page).elem = c.elem := elem_grow
  have hlive : (c.grow page).live = c.live := live_grow
  have hpages : (c.grow page).pages = insert page c.pages := pages_grow
  refine ⟨h.listed.grow hpB, ⟨?_, ?_, ?_⟩, rfl, ?_, ?_, by simp⟩
  · intro x
    rw [hpages, Finset.mem_insert, h.holds.pages]
    simp
  · intro x hx
    rcases List.mem_cons.mp hx with rfl | hx
    · have hno : ∀ e, (x, e) ∉ c.live := fun e ho => hpB (h.holds.live _ ho).1
      refine ⟨?_, ?_, ?_⟩
      · rw [hav, hfl]
        simp [newSlab]
      · rw [hfl]
        simp [newSlab, List.nodup_range]
      · intro e
        rw [hfl, hlive, helem]
        simp [newSlab, hno]
    · refine (h.holds.stocked x hx).congr helem ?_ ?_ fun e => by rw [hlive]
      · rw [hav, avail_set, if_neg (hne x hx)]
      · rw [hfl, freeList_set, if_neg (hne x hx)]
  · intro o ho
    rw [hlive] at ho
    rw [helem]
    exact ⟨List.mem_cons_of_mem _ (h.holds.live o ho).1, (h.holds.live o ho).2⟩
  · intro x hx
    obtain rfl := List.mem_singleton.mp hx
    rw [hav, avail_set, if_pos rfl]
    exact Nat.one_le_iff_ne_zero.mp he
  · intro x hx
    rw [hav, avail_set, if_neg (hne x hx)]
    exact h.full x hx

/-- Nothing but the elements of `s` has changed. -/
structure Touched (c c' : Cache) (s : SlabId) : Prop where
  elem : c'.elem = c.elem
  next : c'.next = c.next
  prev : c'.prev = c.prev
  head : c'.head = c.head
  curr : c'.curr = c.curr
  pages : c'.pages = c.pages
  avail : ∀ x, x ≠ s → c'.avail x = c.avail x
  freeList : ∀ x, x ≠ s → c'.freeList x = c.freeList x
  live : ∀ x e, x ≠ s → ((x, e) ∈ c'.live ↔ (x, e) ∈ c.live)

theorem Listed.touched (h : c.Listed l) (ht : Touched c c' s) : c'.Listed l := by
  refine ⟨?_, h.nodup, ht.head.trans h.head⟩
  rw [ht.next, ht.prev]
  exact h.linked

theorem Holds.touched (h : c.Holds l) (ht : Touched c c' s) (hs : s ∈ l) (hst : c'.Stocked s)
    (hlive : ∀ e, (s, e) ∈ c'.live → e < c.elem) : c'.Holds l := by
  refine ⟨fun x => by rw [ht.pages, h.pages], fun x hx => ?_, fun o ho => ?_⟩
  · by_cases hxs : x = s
    · exact hxs ▸ hst
    · exact (h.stocked x hx).congr ht.elem (ht.avail x hxs) (ht.freeList x hxs) fun e => ht.live x e hxs
  · rw [ht.elem]
    by_cases hos : o.1 = s
    · exact ⟨hos ▸ hs, hlive o.2 (hos ▸ ho)⟩
    · exact h.live o ((ht.live o.1 o.2 hos).mp ho)

theorem touched_set (f : Slab → Slab) (hn : (f (c.slab s)).next = (c.slab s).next)
    (hp : (f (c.slab s)).prev = (c.slab s).prev) : Touched c (c.set s f) s := by
  refine ⟨rfl, ?_, ?_, rfl, rfl, rfl, fun x hx => ?_, fun x hx => ?_, fun _ _ _ => Iff.rfl⟩
  · ext1 x
    rw [next_set]
    split
    · subst x
      exact hn
    · rfl
  · ext1 x
    rw [prev_set]
    split
    · subst x
      exact hp
    · rfl
  · rw [avail_set, if_neg hx]
  · rw [freeList_set, if_neg hx]

theorem Touched.live_insert {e : Nat} (h : Touched c c' s) :
    Touched c { c' with live := insert (s, e) c'.live } s := by
  refine ⟨h.elem, h.next, h.prev, h.head, h.curr, h.pages, h.avail, h.freeList, fun x f hx => ?_⟩
  rw [← h.live x f hx, Finset.mem_insert, Prod.mk.injEq]
  simp [hx]

theorem Touched.live_erase {e : Nat} (h : Touched c c' s) :
    Touched c { c' with live := c'.live.erase (s, e) } s := by
  refine ⟨h.elem, h.next, h.prev, h.head, h.curr, h.pages, h.avail, h.freeList, fun x f hx => ?_⟩
  rw [← h.live x f hx, Finset.mem_erase, Ne, Prod.mk.injEq]
  simp [hx]

theorem slabAlloc_eq (h : c.Stocked s) (ha : c.avail s ≠ 0) :
    ∃ e rest, c.freeList s = e :: rest ∧
      c.slabAlloc s = .ok (e, c.set s fun x => { x with avail := x.avail - 1, head := rest }) := by
  cases hf : c.freeList s with
  | nil => exact absurd (h.avail.trans (by rw [hf]; rfl)) ha
  | cons e rest =>
    refine ⟨e, rest, rfl, ?_⟩
    have hle : c.avail s ≤ c.elem := by
      have hsub : (c.freeList s).toFinset ⊆ Finset.range c.elem := fun x hx =>
        Finset.mem_range.mpr ((h.mem x).mp (List.mem_toFinset.mp hx)).1
      have := Finset.card_le_card hsub
      rwa [List.toFinset_card_of_nodup h.nodup, ← h.avail, Finset.card_range] at this
    unfold slabAlloc
    rw [ensure, if_pos (by simp; omega), hf]
    rfl

theorem Stocked.alloc {e : Nat} {rest : List Nat} (h : c.Stocked s) (hf : c.freeList s = e :: rest)
    (he : c'.elem = c.elem) (ha : c'.avail s = c.avail s - 1) (hf' : c'.freeList s = rest)
    (hl : ∀ x, (s, x) ∈ c'.live ↔ x = e ∨ (s, x) ∈ c.live) : c'.Stocked s := by
  have hnd := h.nodup
  rw [hf, List.nodup_cons] at hnd
  refine ⟨?_, hf' ▸ hnd.2, fun x => ?_⟩
  · rw [ha, hf', h.avail, hf]
    rfl
  · have hx := h.mem x
    rw [hf, List.mem_cons] at hx
    rw [hf', he, hl]
    grind

theorem Stocked.free {e : Nat} (h : c.Stocked s) (he : e < c.elem) (hl : (s, e) ∈ c.live)
    (he' : c'.elem = c.elem) (ha : c'.avail s = c.avail s + 1) (hf' : c'.freeList s = e :: c.freeList s)
    (hl' : ∀ x, (s, x) ∈ c'.live ↔ x ≠ e ∧ (s, x) ∈ c.live) : c'.Stocked s := by
  have hno : e ∉ c.freeList s := fun hm => ((h.mem e).mp hm).2 hl
  refine ⟨?_, ?_, fun x => ?_⟩
  · rw [ha, hf', h.avail]
    rfl
  · rw [hf']
    exact List.nodup_cons.mpr ⟨hno, h.nodup⟩
  · rw [hf', List.mem_cons, h.mem, he', hl']
    grind

theorem Listed.curr (h : c.Listed l) (n : Option SlabId) : Listed { c with curr := n } l :=
  ⟨h.linked, h.nodup, h.head⟩

theorem Holds.curr (h : c.Holds l) (n : Option SlabId) : Holds { c with curr := n } l :=
  ⟨h.pages, fun x hx => ⟨(h.stocked x hx).avail, (h.stocked x hx).nodup, (h.stocked x hx).mem⟩, h.live⟩

theorem Lists.ne_last (h : c.Lists (A ++ [s]) B) : ∀ x ∈ A ++ B, x ≠ s := by
  rintro x hx rfl
  have hnd := h.listed.nodup
  simp only [List.nodup_append, List.mem_append, List.mem_singleton] at hnd hx
  grind

theorem Lists.prev_last (h : c.Lists (A ++ [s]) B) : c.prev s = A.getLast? := by
  have hl := h.listed.linked
  rw [List.append_assoc, List.singleton_append] at hl
  rw [hl.prev_eq, Option.or_none]

theorem Lists.next_last (h : c.Lists (A ++ [s]) B) : c.next s = B.head? := by
  have hl := h.listed.linked
  rw [List.append_assoc, List.singleton_append] at hl
  exact hl.next_eq

theorem Lists.avail_le (h : c.Lists A B) (hs : s ∈ A ++ B) : c.avail s ≤ c.elem := by
  have := (h.holds.stocked s hs).avail_add fun o ho => (h.holds.live o ho).2
  omega

theorem Lists.taken_last (h : c.Lists (A ++ [s]) B) (ht : Touched c c' s) (hh : c'.Holds (A ++ [s] ++ B))
    (ha : c'.avail s = 0) : Lists { c' with curr := c'.prev s } A (s :: B) := by
  have hl := h.listed.touched ht
  rw [List.append_assoc, List.singleton_append] at hl hh
  refine ⟨hl.curr _, hh.curr _, ?_, fun x hx => ?_, fun x hx => ?_, fun h1 x hx => ?_⟩
  · exact (congrFun ht.prev s).trans h.prev_last
  · change c'.avail x ≠ 0
    rw [ht.avail x (h.ne_last x (by simp [hx]))]
    exact h.partly x (by simp [hx])
  · change c'.avail x = 0
    rcases List.mem_cons.mp hx with rfl | hx
    · exact ha
    · rw [ht.avail x (h.ne_last x (by simp [hx]))]
      exact h.full x hx
  · change c'.avail x ≠ c'.elem
    rw [ht.avail x (h.ne_last x (by simp [List.mem_of_mem_tail hx])), ht.elem]
    refine h.used (ht.elem ▸ h1) x ?_
    cases A with
    | nil => simp at hx
    | cons a A => exact List.mem_append_left _ hx

theorem Lists.taken (h : c.Lists (A ++ [s]) B) (ht : Touched c c' s) (hh : c'.Holds (A ++ [s] ++ B))
    (ha : c'.avail s ≠ 0) (hlt : c'.avail s < c.avail s) : c'.Lists (A ++ [s]) B := by
  refine ⟨h.listed.touched ht, hh, ht.curr.trans h.curr, fun x hx => ?_, fun x hx => ?_, fun h1 x hx => ?_⟩
  · by_cases hxs : x = s
    · exact hxs ▸ ha
    · rw [ht.avail x hxs]
      exact h.partly x hx
  · rw [ht.avail x (h.ne_last x (by simp [hx]))]
    exact h.full x hx
  · by_cases hxs : x = s
    · have := h.avail_le (s := s) (by simp)
      rw [hxs, ht.elem]
      omega
    · rw [ht.avail x hxs, ht.elem]
      exact h.used (ht.elem ▸ h1) x hx

/-- The object `o` has been taken off the free list of its slab. -/
structure Took (c c' : Cache) (o : Obj) : Prop where
  elem : c'.elem = c.elem
  fresh : o ∉ c.live
  live : c'.live = insert o c.live
  pages : c'.pages = c.pages
  first : c.freeList o.1 = o.2 :: c'.freeList o.1
  others : ∀ x, x ≠ o.1 → c'.freeList x = c.freeList x

/-- The object `o` has been put back, and its slab is gone or not. -/
structure Gave (c c' : Cache) (o : Obj) (gone : Bool) : Prop where
  elem : c'.elem = c.elem
  live : c'.live = c.live.erase o
  pages : c'.pages = if gone then c.pages.erase o.1 else c.pages
  first : c'.freeList o.1 = o.2 :: c.freeList o.1
  others : ∀ x, x ≠ o.1 → c'.freeList x = c.freeList x

theorem Lists.allocCurr (h : c.Lists (A ++ [s]) B) :
    ∃ e c' A' B', c.allocCurr = .ok ((s, e), c') ∧ c'.Lists A' B' ∧ Took c c' (s, e) ∧ A'.length ≤ A.length + 1 ∧
      c'.prev s = A.getLast? ∧ c'.avail s = c.avail s - 1 := by
  have hs : s ∈ A ++ [s] ++ B := by simp
  have hst := h.holds.stocked s hs
  have hav := h.partly s (by simp)
  obtain ⟨e, rest, hf, heq⟩ := slabAlloc_eq hst hav
  have hnext : ensure ((c.next s).all fun n => c.full n) = .ok () := by
    rw [h.next_last]
    cases B with
    | nil => rfl
    | cons n B => simp [ensure, Cache.full, h.full n (by simp)]
  have hnf : ensure (!c.full s) = .ok () := by simp [ensure, Cache.full, hav]
  generalize hc₂ : ({ c.set s fun x => { x with avail := x.avail - 1, head := rest } with
    live := insert (s, e) (c.set s fun x => { x with avail := x.avail - 1, head := rest }).live } : Cache) = c₂
  have ht : Touched c c₂ s := hc₂ ▸ (touched_set _ rfl rfl).live_insert
  have hrun : c.allocCurr = .ok ((s, e), if c₂.full s then { c₂ with curr := c₂.prev s } else c₂) := by
    have hcurr : c.curr = some s := by
      rw [h.curr]
      simp
    unfold Cache.allocCurr
    rw [hcurr]
    subst hc₂
    simp only [deref, bind, Except.bind, hnf, hnext, heq]
    rfl
  have hmem : ∀ x, (s, x) ∈ c₂.live ↔ x = e ∨ (s, x) ∈ c.live := by
    intro x
    subst hc₂
    simp [set]
  have hav₂ : c₂.avail s = c.avail s - 1 := by
    subst hc₂
    simp [Cache.avail, set]
  have hf₂ : c₂.freeList s = rest := by
    subst hc₂
    simp [freeList, set]
  have hst₂ : c₂.Stocked s := hst.alloc hf ht.elem hav₂ hf₂ hmem
  have hh : c₂.Holds (A ++ [s] ++ B) := by
    refine h.holds.touched ht hs hst₂ fun x hx => ?_
    rcases (hmem x).mp hx with rfl | hx
    · exact ((hst.mem x).mp (by simp [hf])).1
    · exact (h.holds.live _ hx).2
  have hprev : c₂.prev s = A.getLast? := (congrFun ht.prev s).trans h.prev_last
  have hlive : c₂.live = insert (s, e) c.live := by
    subst hc₂
    rfl
  have htook : Took c c₂ (s, e) :=
    ⟨ht.elem, ((hst.mem e).mp (by simp [hf])).2, hlive, ht.pages, hf.trans (by rw [hf₂]), ht.freeList⟩
  by_cases hfull : c₂.avail s = 0
  · rw [if_pos (by simp [Cache.full, hfull])] at hrun
    refine ⟨e, _, A, s :: B, hrun, h.taken_last ht hh hfull, ?_, by simp, hprev, hav₂⟩
    exact ⟨htook.elem, htook.fresh, htook.live, htook.pages, htook.first, htook.others⟩
  · rw [if_neg (by simp [Cache.full, hfull])] at hrun
    exact ⟨e, _, A ++ [s], B, hrun, h.taken ht hh hfull (by omega), htook, by simp, hprev, hav₂⟩

/-- A slab that is empty but for `o` is the only one that is given back for it, and
only if there is another one in front. -/
theorem gone_eq_false {gone : Bool} (h : c.prev o.1 = none ∨ c.avail o.1 = 0 ∨ c.avail o.1 + 1 ≠ c.elem)
    (hlt : c.avail o.1 < c.elem) (hrun : c.free o = .ok (c', gone)) : gone = false := by
  have hfree : c.slabFree o = c.set o.1 fun x => { x with avail := x.avail + 1, head := o.2 :: x.head } :=
    if_neg (by simpa using hlt)
  unfold Cache.free at hrun
  rw [hfree] at hrun
  generalize hc₁ : ({ c.set o.1 fun x => { x with avail := x.avail + 1, head := o.2 :: x.head } with
    live := c.live.erase o } : Cache) = c₁ at hrun
  have hav : c₁.avail o.1 = c.avail o.1 + 1 := by
    subst hc₁
    simp [Cache.avail, set]
  have hprev : c₁.prev o.1 = c.prev o.1 := by
    subst hc₁
    simp [Cache.prev, set]
  have helem : c₁.elem = c.elem := by
    subst hc₁
    rfl
  by_cases hfull : c.avail o.1 = 0
  · simp only [Cache.full, hfull] at hrun
    cases hr : c₁.requeueFull o.1 with
    | error e =>
      rw [hr] at hrun
      cases hrun
    | ok d =>
      rw [hr] at hrun
      cases hrun
      rfl
  · have hf : c.full o.1 = false := by simp [Cache.full, hfull]
    simp only [hf] at hrun
    by_cases hempty : c₁.avail o.1 = c.elem
    · have hem : c₁.empty o.1 = true := by simp [Cache.empty, hempty, helem]
      have hnone : c.prev o.1 = none := by
        rcases h with h | h | h
        · exact h
        · exact absurd h hfull
        · exact absurd (hav.symm.trans hempty) h
      simp only [hem, Cache.requeueEmpty, hprev, hnone] at hrun
      cases hrun
      rfl
    · have hem : c₁.empty o.1 = false := by simp [Cache.empty, hempty, helem]
      simp only [hem] at hrun
      cases hrun
      rfl

theorem Lists.alloc (h : c.Lists A B) (hp : page ∉ c.pages) (he : 1 ≤ c.elem) :
    ∃ o c' A' B', c.alloc page = .ok (o, c', c.curr.isNone) ∧ c'.Lists A' B' ∧
      Took (if c.curr.isNone then c.grow page else c) c' o ∧ A'.length ≤ max 1 A.length ∧
      (c'.prev o.1 = none ∨ c'.avail o.1 = 0 ∨ c'.avail o.1 + 1 ≠ c'.elem) := by
  unfold Cache.alloc
  rcases List.eq_nil_or_concat A with rfl | ⟨A, s, rfl⟩
  · have hcurr : c.curr = none := h.curr
    obtain ⟨e, c', A', B', hrun, h', htook, hlen, hprev, -⟩ := Lists.allocCurr (A := []) (h.grow hp he)
    refine ⟨(page, e), c', A', B', ?_, h', ?_, by simpa using hlen, .inl hprev⟩
    · rw [hcurr]
      change (c.grow page).allocCurr >>= _ = _
      rw [hrun]
      rfl
    · rw [hcurr]
      exact htook
  · rw [List.concat_eq_append] at h
    have hcurr : c.curr = some s := by
      rw [h.curr]
      simp
    obtain ⟨e, c', A', B', hrun, h', htook, hlen, hprev, hav⟩ := h.allocCurr
    refine ⟨(s, e), c', A', B', ?_, h', ?_, ?_, ?_⟩
    · rw [hcurr]
      change c.allocCurr >>= _ = _
      rw [hrun]
      rfl
    · rw [hcurr]
      exact htook
    · rw [List.concat_eq_append, List.length_append, List.length_singleton]
      exact hlen.trans (le_max_right _ _)
    · have hpos := h.partly s (by simp)
      have hle := h.avail_le (s := s) (by simp)
      by_cases hA : A = []
      · exact .inl (hprev.trans (by rw [hA]; rfl))
      · refine .inr (or_iff_not_imp_left.mpr fun h0 => ?_)
        have hmem : s ∈ (A ++ [s]).tail := by
          cases A with
          | nil => exact absurd rfl hA
          | cons a A => simp
        have h0 : c'.avail s ≠ 0 := h0
        have := h.used (by omega) s hmem
        change c'.avail s + 1 ≠ c'.elem
        rw [hav, htook.elem]
        omega

/-- A full slab that has got an element back goes behind the slabs with free
elements. -/
theorem Listed.requeueFull (h : c.Listed (A ++ (u ++ s :: v))) (hcurr : c.curr = A.getLast?)
    (hA : ∀ x ∈ A, c.full x = false) (hu : ∀ x ∈ u, c.full x = true) :
    ∃ c', c.requeueFull s = .ok { c' with curr := some s } ∧ c'.Listed (A ++ s :: (u ++ v)) ∧ Relinked c c' := by
  have hprev : c.prev s = (A ++ u).getLast? := by
    have hl := h.linked
    rw [← List.append_assoc] at hl
    rw [hl.prev_eq, Option.or_none]
  unfold Cache.requeueFull
  rcases List.eq_nil_or_concat u with rfl | ⟨u, p, rfl⟩
  · refine ⟨c, ?_, h, Relinked.refl c⟩
    rw [hprev, List.append_nil]
    cases hl : A.getLast? with
    | none => rfl
    | some p =>
      have : c.full p = false := hA p (List.mem_of_getLast? hl)
      simp only [this]
      rfl
  · rw [List.concat_eq_append] at *
    have hp : c.prev s = some p := by
      rw [hprev, ← List.append_assoc]
      simp
    have hfull : c.full p = true := hu p (by simp)
    have hd : (c.dequeue s p).Listed (A ++ (u ++ [p] ++ v)) := by
      rw [← List.append_assoc] at h ⊢
      exact h.dequeue hp
    have hs : s ∉ A ++ (u ++ [p] ++ v) := by
      have hnd := h.nodup
      rw [← List.append_assoc, List.nodup_append, List.nodup_cons] at hnd
      intro hs
      rw [← List.append_assoc, List.mem_append] at hs
      rcases hs with hs | hs
      · exact hnd.2.2 s hs s (by simp) rfl
      · exact hnd.2.1.1 hs
    have hdc : (c.dequeue s p).curr = c.curr := relinked_dequeue.curr
    have hrel := relinked_dequeue (c := c) (s := s) (p := p)
    rw [hp]
    simp only [hfull, if_true, hdc, hcurr]
    cases hl : A.getLast? with
    | none =>
      obtain rfl : A = [] := by simpa using hl
      obtain ⟨c', hrun, h', hr⟩ := Listed.enqueueHead (l := u ++ [p] ++ v) hd hs (by simp)
      refine ⟨c', ?_, h', hrel.trans hr⟩
      simp only [hrun]
      rfl
    | some cur =>
      obtain ⟨c', hrun, h', hr⟩ := hd.enqueueAfter hs hl (by simp)
      refine ⟨c', ?_, h', hrel.trans hr⟩
      simp only [hrun]
      rfl

theorem Relinked.full (h : Relinked c c') (x : SlabId) : c'.full x = c.full x := by
  unfold Cache.full
  rw [h.avail]

theorem Lists.freed_full (h : c.Lists A (u ++ s :: v)) (ht : Touched c c' s) (hh : c'.Holds (A ++ (u ++ s :: v)))
    (ha : c'.avail s = 1) :
    ∃ c'', c'.requeueFull s = .ok c'' ∧ c''.Lists (A ++ [s]) (u ++ v) ∧ c''.elem = c.elem ∧
      c''.pages = c'.pages ∧ c''.live = c'.live ∧ c''.freeList = c'.freeList := by
  have hnd := h.listed.nodup
  have hA : ∀ x ∈ A, x ≠ s := by
    rintro x hx rfl
    exact (List.nodup_append.mp hnd).2.2 x hx x (by simp) rfl
  have huv : ∀ x ∈ u ++ v, x ≠ s := by
    rintro x hx rfl
    have := (List.nodup_append.mp hnd).2.1
    simp only [List.nodup_append, List.nodup_cons, List.mem_append, List.mem_cons] at this hx
    grind
  have hf : ∀ x ∈ u ++ v, c'.avail x = 0 := by
    intro x hx
    rw [ht.avail x (huv x hx)]
    refine h.full x ?_
    rcases List.mem_append.mp hx with hx | hx <;> simp [hx]
  obtain ⟨c₂, hrun, hl, hr⟩ := (h.listed.touched ht).requeueFull (ht.curr.trans h.curr)
    (fun x hx => by simp [Cache.full, ht.avail x (hA x hx), h.partly x hx])
    (fun x hx => by simp [Cache.full, hf x (by simp [hx])])
  have hperm : (A ++ (u ++ s :: v)).Perm (A ++ s :: (u ++ v)) := List.perm_middle.append_left A
  have hav : ∀ x, Cache.avail { c₂ with curr := some s } x = c'.avail x := fun x => congrFun hr.avail x
  have hsplit : A ++ [s] ++ (u ++ v) = A ++ s :: (u ++ v) := by simp
  refine ⟨_, hrun, ⟨hsplit ▸ hl.curr _, hsplit ▸ ((hh.relinked hr).perm hperm).curr _, by simp, ?_, ?_, ?_⟩,
    hr.elem.trans ht.elem, hr.pages, hr.live, hr.freeList⟩
  · intro x hx
    rw [hav]
    rcases List.mem_append.mp hx with hx | hx
    · rw [ht.avail x (hA x hx)]
      exact h.partly x hx
    · rw [List.mem_singleton.mp hx, ha]
      exact Nat.one_ne_zero
  · intro x hx
    rw [hav]
    exact hf x hx
  · intro h1 x hx
    have helem : ({ c₂ with curr := some s } : Cache).elem = c.elem := hr.elem.trans ht.elem
    rw [hav]
    rw [helem] at h1 ⊢
    by_cases hxs : x = s
    · rw [hxs, ha]
      exact h1.symm
    · rw [ht.avail x hxs]
      refine h.used h1 x ?_
      cases A with
      | nil => simp at hx
      | cons a A =>
        rcases List.mem_append.mp (show x ∈ A ++ [s] from hx) with hx | hx
        · exact hx
        · exact absurd (List.mem_singleton.mp hx) hxs

theorem Lists.avail_pos (h : c.Lists A B) (ho : o ∈ c.live) : c.avail o.1 < c.elem := by
  have hadd := (h.holds.stocked o.1 (h.holds.live o ho).1).avail_add fun o ho => (h.holds.live o ho).2
  have : 0 < (c.live.filter fun x => x.1 = o.1).card := Finset.card_pos.mpr ⟨o, by simp [ho]⟩
  omega

theorem Listed.pages (h : c.Listed l) (P : Finset SlabId) : Listed { c with pages := P } l :=
  ⟨h.linked, h.nodup, h.head⟩

theorem Holds.drop (h : c.Holds (u ++ s :: v)) (hnd : (u ++ s :: v).Nodup) (ha : c.avail s = c.elem) :
    Holds { c with pages := c.pages.erase s } (u ++ v) := by
  have hno : ∀ o ∈ c.live, o.1 ≠ s := by
    intro o ho hos
    have hadd := (h.stocked s (by simp)).avail_add fun o ho => (h.live o ho).2
    have : 0 < (c.live.filter fun x => x.1 = s).card := Finset.card_pos.mpr ⟨o, by simp [ho, hos]⟩
    omega
  have hsplit : ∀ x, x ∈ u ++ s :: v ↔ x = s ∨ x ∈ u ++ v := by
    intro x
    simp only [List.mem_append, List.mem_cons]
    tauto
  have hs : s ∉ u ++ v := by
    simp only [List.nodup_append, List.nodup_cons, List.mem_cons, List.mem_append] at hnd ⊢
    grind
  refine ⟨fun x => ?_, fun x hx => ?_, fun o ho => ?_⟩
  · change x ∈ c.pages.erase s ↔ _
    rw [Finset.mem_erase, h.pages, hsplit]
    constructor
    · rintro ⟨hne, rfl | hx⟩
      · exact absurd rfl hne
      · exact hx
    · intro hx
      exact ⟨fun e => hs (e ▸ hx), .inr hx⟩
  · have hst := h.stocked x ((hsplit x).mpr (.inr hx))
    exact ⟨hst.avail, hst.nodup, hst.mem⟩
  · have := h.live o ho
    exact ⟨((hsplit o.1).mp this.1).resolve_left (hno o ho), this.2⟩

theorem Listed.takeOut (h : c.Listed (u ++ [p] ++ s :: v ++ B)) (hcurr : c.curr = (u ++ [p] ++ s :: v).getLast?) :
    ∃ d, (if c.curr = some s then { c with curr := some p } else c).dequeue s p = d ∧
      d.Listed (u ++ [p] ++ v ++ B) ∧ d.curr = (u ++ [p] ++ v).getLast? ∧ Relinked { c with curr := d.curr } d := by
  have hprev : c.prev s = some p := by
    have := h.linked
    rw [List.append_assoc, List.cons_append] at this
    rw [this.prev_eq]
    simp
  have hnd := h.nodup
  rw [List.append_assoc, List.cons_append] at h
  rw [List.append_assoc (u ++ [p]) v B]
  rcases List.eq_nil_or_concat v with rfl | ⟨v, q, rfl⟩
  · rw [if_pos (by rw [hcurr]; simp)]
    refine ⟨_, rfl, (h.curr (some p)).dequeue hprev, ?_, ?_⟩
    · rw [relinked_dequeue.curr]
      simp
    · rw [relinked_dequeue.curr]
      exact relinked_dequeue
  · rw [List.concat_eq_append] at *
    have hne : c.curr ≠ some s := by
      have hq : c.curr = some q := by
        rw [hcurr, ← List.cons_append, ← List.append_assoc, List.getLast?_concat]
      rw [hq]
      rintro e
      obtain rfl := Option.some.inj e
      simp only [List.nodup_append, List.nodup_cons, List.mem_append, List.mem_singleton] at hnd
      grind
    rw [if_neg hne]
    refine ⟨_, rfl, h.dequeue hprev, ?_, ?_⟩
    · rw [relinked_dequeue.curr, hcurr, ← List.cons_append, ← List.append_assoc, ← List.append_assoc,
        List.getLast?_concat, List.getLast?_concat]
    · rw [relinked_dequeue.curr]
      exact relinked_dequeue

/-- A slab that has become empty goes to the front, or back to the buddy
allocator. -/
theorem Lists.freed_empty (h : c.Lists (u ++ s :: v) B) (ht : Touched c c' s)
    (hh : c'.Holds (u ++ s :: v ++ B)) (ha : c'.avail s = c.elem) :
    ∃ c'' gone A', c'.requeueEmpty s = .ok (c'', gone) ∧ c''.Lists A' B ∧ c''.elem = c.elem ∧
      c''.pages = (if gone then c.pages.erase s else c.pages) ∧ c''.live = c'.live ∧ c''.freeList = c'.freeList := by
  have hl := h.listed.touched ht
  have hprev : c'.prev s = u.getLast? := by
    have := hl.linked
    rw [List.append_assoc, List.cons_append] at this
    rw [this.prev_eq, Option.or_none]
  have hnd := h.listed.nodup
  have hother : ∀ x ∈ u ++ v ++ B, x ≠ s := by
    rintro x hx rfl
    simp only [List.nodup_append, List.nodup_cons, List.mem_append, List.mem_cons] at hnd hx
    grind
  have hpos : c.elem ≠ 0 := by
    have := h.avail_le (s := s) (by simp)
    have := h.partly s (by simp)
    omega
  unfold Cache.requeueEmpty
  rw [hprev]
  rcases List.eq_nil_or_concat u with rfl | ⟨u, p, rfl⟩
  · refine ⟨c', false, s :: v, rfl, ⟨hl, hh, ht.curr.trans h.curr, ?_, ?_, ?_⟩, ht.elem, ht.pages, rfl, rfl⟩
    · intro x hx
      by_cases hxs : x = s
      · rw [hxs, ha]
        exact hpos
      · rw [ht.avail x hxs]
        exact h.partly x hx
    · intro x hx
      rw [ht.avail x (hother x (by simp [hx]))]
      exact h.full x hx
    · intro h1 x hx
      rw [ht.elem] at h1 ⊢
      rw [ht.avail x (hother x (List.mem_append_left _ hx))]
      exact h.used h1 x hx
  · rw [List.concat_eq_append] at *
    obtain ⟨d, hd, hdl, hdc, hdr⟩ := hl.takeOut (ht.curr.trans h.curr)
    have hp : (u ++ [p]).getLast? = some p := by simp
    have hdh : d.Holds (u ++ [p] ++ s :: v ++ B) := (hh.curr _).relinked hdr
    have hav : ∀ x, x ≠ s → d.avail x = c.avail x := fun x hx => (congrFun hdr.avail x).trans (ht.avail x hx)
    have helem : d.elem = c.elem := hdr.elem.trans ht.elem
    have hpartly : ∀ x ∈ u ++ [p] ++ v, d.avail x ≠ 0 := by
      intro x hx
      rw [hav x (hother x (List.mem_append_left _ hx))]
      refine h.partly x ?_
      simp only [List.mem_append, List.mem_cons] at hx ⊢
      tauto
    have hfull : ∀ x ∈ B, d.avail x = 0 := by
      intro x hx
      rw [hav x (hother x (by simp [hx]))]
      exact h.full x hx
    have hused : c.elem ≠ 1 → ∀ x ∈ (u ++ [p] ++ v).tail, d.avail x ≠ c.elem := by
      intro h1 x hx
      rw [hav x (hother x (List.mem_append_left _ (List.mem_of_mem_tail hx)))]
      refine h.used h1 x ?_
      cases u with
      | nil => simp_all
      | cons a u =>
        simp only [List.cons_append, List.tail_cons, List.mem_append, List.mem_cons] at hx ⊢
        tauto
    rw [hp]
    simp only [hd]
    have hs : s ∉ u ++ [p] ++ v ++ B := fun hs => hother s hs rfl
    split
    · have hhead : ensure (decide (d.head ≠ some s)) = .ok () := by
        rw [hdl.head]
        have : (u ++ [p] ++ v ++ B).head? ≠ some s := fun e => hs (List.mem_of_head? e)
        exact if_pos (decide_eq_true this)
      rw [hhead]
      refine ⟨_, true, u ++ [p] ++ v, rfl, ⟨hdl.pages _, ?_, hdc, hpartly, hfull, helem ▸ hused⟩, helem, ?_, hdr.live,
        hdr.freeList⟩
      · rw [List.append_assoc, List.cons_append] at hdh hnd
        rw [List.append_assoc (u ++ [p]) v B]
        exact hdh.drop hnd (by rw [helem, hdr.avail]; exact ha)
      · exact congrArg (·.erase s) (hdr.pages.trans ht.pages)
    · rename_i hno
      obtain ⟨e, hrun, hel, her⟩ := hdl.enqueueHead hs (by simp)
      have hperm : (u ++ [p] ++ s :: v ++ B).Perm (s :: (u ++ [p] ++ v ++ B)) := by
        rw [List.append_assoc, List.cons_append, List.append_assoc _ v B]
        exact List.perm_middle
      have hea : ∀ x, e.avail x = d.avail x := fun x => congrFun her.avail x
      rw [hrun]
      refine ⟨e, false, s :: (u ++ [p] ++ v), rfl, ⟨hel, (hdh.relinked her).perm hperm, ?_, ?_, ?_, ?_⟩,
        her.elem.trans helem, her.pages.trans (hdr.pages.trans ht.pages), her.live.trans hdr.live,
        her.freeList.trans hdr.freeList⟩
      · rw [her.curr, hdc]
        simp [List.getLast?_cons]
      · intro x hx
        rw [hea]
        rcases List.mem_cons.mp hx with rfl | hx
        · rw [hdr.avail]
          exact ha.trans_ne hpos
        · exact hpartly x hx
      · intro x hx
        rw [hea]
        exact hfull x hx
      · intro h1 x hx
        rw [her.elem, helem] at h1 ⊢
        rw [hea]
        -- the slab that was the first one is not empty
        have hfirst : ∀ y, (u ++ [p] ++ v ++ B).head? = some y → d.avail y ≠ c.elem := by
          intro y hy hye
          refine hno ?_
          rw [hdl.head, hy]
          simp [Cache.empty, hye, helem]
        cases hl : u ++ [p] ++ v with
        | nil => simp at hl
        | cons y l =>
          rw [hl] at hx hfirst hused
          rcases List.mem_cons.mp (show x ∈ y :: l from hx) with rfl | hx
          · exact hfirst x rfl
          · exact hused h1 x hx

theorem Lists.free (h : c.Lists A B) (ho : o ∈ c.live) :
    ∃ c' gone A' B', c.free o = .ok (c', gone) ∧ c'.Lists A' B' ∧ Gave c c' o gone ∧
      (c.avail o.1 = 0 → A' = A ++ [o.1]) := by
  obtain ⟨s, e⟩ := o
  obtain ⟨hs, he⟩ := h.holds.live _ ho
  have hlt := h.avail_pos ho
  have hst := h.holds.stocked s hs
  have hfree : c.slabFree (s, e) = c.set s fun x => { x with avail := x.avail + 1, head := e :: x.head } :=
    if_neg (by simpa using hlt)
  unfold Cache.free
  rw [hfree]
  generalize hc₁ : ({ c.set s fun x => { x with avail := x.avail + 1, head := e :: x.head } with
    live := c.live.erase (s, e) } : Cache) = c₁
  have ht : Touched c c₁ s := hc₁ ▸ (touched_set _ rfl rfl).live_erase
  have hmem : ∀ x, (s, x) ∈ c₁.live ↔ x ≠ e ∧ (s, x) ∈ c.live := by
    intro x
    subst hc₁
    simp
  have hav : c₁.avail s = c.avail s + 1 := by
    subst hc₁
    simp [Cache.avail, set]
  have hf₁ : c₁.freeList s = e :: c.freeList s := by
    subst hc₁
    simp [freeList, set]
  have hst₁ : c₁.Stocked s := hst.free he ho ht.elem hav hf₁ hmem
  have hh : c₁.Holds (A ++ B) := h.holds.touched ht hs hst₁ fun x hx => (h.holds.live _ ((hmem x).mp hx).2).2
  have hlive : c₁.live = c.live.erase (s, e) := by
    subst hc₁
    rfl
  by_cases hfull : c.avail s = 0
  · obtain ⟨u, v, rfl⟩ : ∃ u v, B = u ++ s :: v := by
      refine List.append_of_mem ((List.mem_append.mp hs).resolve_left ?_)
      exact fun hA => h.partly s hA hfull
    obtain ⟨c'', hrun, h', helem, hpages, hlive', hlist⟩ := h.freed_full ht hh (by omega)
    have hgave : Gave c c'' (s, e) false := ⟨helem, hlive'.trans hlive, hpages.trans ht.pages,
      (congrFun hlist s).trans hf₁, fun x hx => (congrFun hlist x).trans (ht.freeList x hx)⟩
    refine ⟨c'', false, A ++ [s], u ++ v, ?_, h', hgave, fun _ => rfl⟩
    simp only [Cache.full, hfull, hrun]
    rfl
  · obtain ⟨u, v, rfl⟩ : ∃ u v, A = u ++ s :: v := by
      refine List.append_of_mem ((List.mem_append.mp hs).resolve_right ?_)
      exact fun hB => hfull (h.full s hB)
    have hf : c.full s = false := by simp [Cache.full, hfull]
    by_cases hempty : c₁.avail s = c.elem
    · obtain ⟨c'', gone, A', hrun, h', helem, hpages, hlive', hlist⟩ := h.freed_empty ht hh hempty
      have hgave : Gave c c'' (s, e) gone := ⟨helem, hlive'.trans hlive, hpages, (congrFun hlist s).trans hf₁,
        fun x hx => (congrFun hlist x).trans (ht.freeList x hx)⟩
      refine ⟨c'', gone, A', B, ?_, h', hgave, fun h0 => absurd h0 hfull⟩
      have hem : c₁.empty s = true := by simp [Cache.empty, hempty, ht.elem]
      simp only [hf, hem, hrun]
      rfl
    · have hem : c₁.empty s = false := by simp [Cache.empty, hempty, ht.elem]
      refine ⟨c₁, false, u ++ s :: v, B, ?_, ⟨h.listed.touched ht, hh, ht.curr.trans h.curr, ?_, ?_, ?_⟩,
        ⟨ht.elem, hlive, ht.pages, hf₁, ht.freeList⟩, fun h0 => absurd h0 hfull⟩
      · simp only [hf, hem]
        rfl
      · intro x hx
        by_cases hxs : x = s
        · rw [hxs, hav]
          exact Nat.succ_ne_zero _
        · rw [ht.avail x hxs]
          exact h.partly x hx
      · intro x hx
        have hxs : x ≠ s := by
          rintro rfl
          exact hfull (h.full x hx)
        rw [ht.avail x hxs]
        exact h.full x hx
      · intro h1 x hx
        rw [ht.elem] at h1 ⊢
        by_cases hxs : x = s
        · exact hxs ▸ hempty
        · rw [ht.avail x hxs]
          exact h.used h1 x hx

end Tukija.Slabs.Cache
