import Tukija.Slabs.Cache

/-! The list of the slabs: those with free elements first, and then the full
ones. -/
namespace Tukija.Slabs

open Tukija.Lib.Chain

variable {c c' : Cache} {s p q : SlabId} {A B u v l : List SlabId} {o : Obj} {page : SlabId}

namespace Cache

section Fields

@[simp] theorem next_set (f : Slab → Slab) (x : SlabId) :
    (c.set s f).next x = if x = s then (f (c.slab s)).next else c.next x := by
  by_cases h : x = s <;> simp [set, next, h]

@[simp] theorem prev_set (f : Slab → Slab) (x : SlabId) :
    (c.set s f).prev x = if x = s then (f (c.slab s)).prev else c.prev x := by
  by_cases h : x = s <;> simp [set, prev, h]

@[simp] theorem avail_set (f : Slab → Slab) (x : SlabId) :
    (c.set s f).avail x = if x = s then (f (c.slab s)).avail else c.avail x := by
  by_cases h : x = s <;> simp [set, avail, h]

@[simp] theorem freeList_set (f : Slab → Slab) (x : SlabId) :
    (c.set s f).freeList x = if x = s then (f (c.slab s)).head else c.freeList x := by
  by_cases h : x = s <;> simp [set, freeList, h]

@[simp] theorem next_setPrev (n : Option SlabId) : (c.setPrev s n).next = c.next := by
  ext1 x
  by_cases h : x = s <;> simp [setPrev, h]
  rfl

@[simp] theorem prev_setPrev (n : Option SlabId) (x : SlabId) :
    (c.setPrev s n).prev x = if x = s then n else c.prev x := by
  simp [setPrev]

@[simp] theorem next_setNext (n : Option SlabId) (x : SlabId) :
    (c.setNext s n).next x = if x = s then n else c.next x := by
  simp [setNext]

@[simp] theorem prev_setNext (n : Option SlabId) : (c.setNext s n).prev = c.prev := by
  ext1 x
  by_cases h : x = s <;> simp [setNext, h]
  rfl

end Fields

/-- The list of the slabs is `l`. -/
structure Listed (c : Cache) (l : List SlabId) : Prop where
  linked : Linked c.next c.prev none l
  nodup : l.Nodup
  head : c.head = l.head?

structure Relinked (c c' : Cache) : Prop where
  elem : c'.elem = c.elem
  curr : c'.curr = c.curr
  pages : c'.pages = c.pages
  live : c'.live = c.live
  avail : c'.avail = c.avail
  freeList : c'.freeList = c.freeList

/-- What the free list of a slab says: which elements are free, and how many. -/
structure Stocked (c : Cache) (s : SlabId) : Prop where
  avail : c.avail s = (c.freeList s).length
  nodup : (c.freeList s).Nodup
  mem : ∀ e, e ∈ c.freeList s ↔ e < c.elem ∧ (s, e) ∉ c.live

/-- The slabs of `l` are those that the cache has, and all live objects are in
them. -/
structure Holds (c : Cache) (l : List SlabId) : Prop where
  pages : ∀ s, s ∈ c.pages ↔ s ∈ l
  stocked : ∀ s ∈ l, c.Stocked s
  live : ∀ o ∈ c.live, o.1 ∈ l ∧ o.2 < c.elem

/-- The slabs `A` have free elements, and the slabs `B` behind them are full.  Where
a slab has more than one element, only the first one may be empty. -/
structure Lists (c : Cache) (A B : List SlabId) : Prop where
  listed : c.Listed (A ++ B)
  holds : c.Holds (A ++ B)
  curr : c.curr = A.getLast?
  partly : ∀ s ∈ A, c.avail s ≠ 0
  full : ∀ s ∈ B, c.avail s = 0
  used : c.elem ≠ 1 → ∀ s ∈ A.tail, c.avail s ≠ c.elem

theorem Relinked.refl (c : Cache) : Relinked c c := ⟨rfl, rfl, rfl, rfl, rfl, rfl⟩

theorem Relinked.trans {c'' : Cache} (h : Relinked c c') (h' : Relinked c' c'') : Relinked c c'' :=
  ⟨h'.elem.trans h.elem, h'.curr.trans h.curr, h'.pages.trans h.pages, h'.live.trans h.live,
    h'.avail.trans h.avail, h'.freeList.trans h.freeList⟩

theorem relinked_setPrev (n : Option SlabId) : Relinked c (c.setPrev s n) := by
  refine ⟨rfl, rfl, rfl, rfl, ?_, ?_⟩ <;> ext1 x <;> by_cases h : x = s <;> simp [setPrev, h] <;> rfl

theorem relinked_setNext (n : Option SlabId) : Relinked c (c.setNext s n) := by
  refine ⟨rfl, rfl, rfl, rfl, ?_, ?_⟩ <;> ext1 x <;> by_cases h : x = s <;> simp [setNext, h] <;> rfl

theorem relinked_dequeue : Relinked c (c.dequeue s p) := by
  unfold dequeue
  cases c.next s with
  | none => exact relinked_setNext _
  | some n => exact (relinked_setNext _).trans (relinked_setPrev _)

theorem Listed.dequeue (h : c.Listed (u ++ s :: v)) (hp : c.prev s = some p) : (c.dequeue s p).Listed (u ++ v) := by
  have hnd := h.nodup
  refine ⟨h.linked.remove ?_ hnd (by simp), ?_, ?_⟩
  · have hne : p ≠ s := by
      rintro rfl
      rw [h.linked.prev_eq, Option.or_none] at hp
      exact (List.nodup_append.mp hnd).2.2 _ (List.mem_of_getLast? hp) _ (by simp) rfl
    unfold Cache.dequeue
    cases hn : c.next s with
    | none => constructor <;> intro y hy h' <;> simp_all [eq_comm (a := y)]
    | some n => constructor <;> intro y hy h' <;> simp_all [eq_comm (a := y)]
  · simp only [List.nodup_append, List.nodup_cons, List.mem_cons] at hnd ⊢
    exact ⟨hnd.1, hnd.2.1.2, fun a ha b hb => hnd.2.2 a ha b (.inr hb)⟩
  · have hhead : (c.dequeue s p).head = c.head := by
      unfold Cache.dequeue
      cases c.next s <;> rfl
    rw [hhead, h.head]
    cases u with
    | nil =>
      rw [h.linked.prev_eq] at hp
      simp at hp
    | cons y u => rfl

theorem Listed.enqueueAfter {cur : SlabId} (h : c.Listed (u ++ v)) (hs : s ∉ u ++ v)
    (hcur : u.getLast? = some cur) (hv : v ≠ []) :
    ∃ c', c.enqueueAfter s cur = .ok c' ∧ c'.Listed (u ++ s :: v) ∧ Relinked c c' := by
  obtain ⟨n, hn⟩ : ∃ n, v.head? = some n := Option.isSome_iff_exists.mp (by simpa using hv)
  have hnext : c.next cur = some n := by
    obtain ⟨u, rfl⟩ := List.getLast?_eq_some_iff.mp hcur
    rw [List.append_assoc, List.singleton_append] at h
    rw [h.linked.next_eq, hn]
  have hsc : cur ≠ s := by
    rintro rfl
    exact hs (List.mem_append_left _ (List.mem_of_getLast? hcur))
  have hsn : n ≠ s := by
    rintro rfl
    exact hs (List.mem_append_right _ (List.mem_of_head? hn))
  unfold Cache.enqueueAfter
  rw [hnext]
  refine ⟨_, rfl, ⟨h.linked.insert ?_ h.nodup hs (by simp), ?_, ?_⟩, ?_⟩
  · rw [hcur, hn]
    constructor <;> intros <;> simp_all [eq_comm (a := cur), eq_comm (a := n)]
  · have hnd := h.nodup
    simp only [List.nodup_append, List.nodup_cons, List.mem_append, not_or, List.mem_cons] at hnd hs ⊢
    grind
  · change c.head = _
    rw [h.head]
    cases u with
    | nil => simp at hcur
    | cons y u => rfl
  · exact (((relinked_setPrev _).trans (relinked_setNext _)).trans (relinked_setPrev _)).trans (relinked_setNext _)

theorem Listed.enqueueHead (h : c.Listed l) (hs : s ∉ l) (hl : l ≠ []) :
    ∃ c', c.enqueueHead s = .ok c' ∧ c'.Listed (s :: l) ∧ Relinked c c' := by
  obtain ⟨n, hn⟩ : ∃ n, l.head? = some n := Option.isSome_iff_exists.mp (by simpa using hl)
  have hsn : n ≠ s := by
    rintro rfl
    exact hs (List.mem_of_head? hn)
  have hhead : c.head = some n := h.head.trans hn
  unfold Cache.enqueueHead
  have : ((c.setPrev s none).setNext s c.head).head = some n := hhead
  simp only [this]
  refine ⟨_, rfl, ⟨?_, List.nodup_cons.mpr ⟨hs, h.nodup⟩, rfl⟩, ?_⟩
  · refine Linked.insert (u := []) (v := l) ?_ h.linked h.nodup hs (by simp)
    change Inserted _ _ (((c.setPrev s none).setNext s c.head).setPrev n (some s)).next
      (((c.setPrev s none).setNext s c.head).setPrev n (some s)).prev s none l.head?
    rw [hhead, hn]
    constructor <;> intros <;> simp_all [eq_comm (a := n)]
  · exact ((relinked_setPrev _).trans (relinked_setNext _)).trans
      ((relinked_setPrev _).trans ⟨rfl, rfl, rfl, rfl, rfl, rfl⟩)

theorem next_grow (x : SlabId) : (c.grow page).next x = if x = page then c.head else c.next x := by
  unfold grow
  cases c.head with
  | none =>
    refine (next_setNext (c := c.set page fun _ => c.newSlab) none x).trans ?_
    rw [next_set]
    split <;> rfl
  | some n =>
    refine (next_setNext (c := (c.set page fun _ => c.newSlab).setPrev n (some page)) (some n) x).trans ?_
    rw [next_setPrev, next_set]
    split <;> rfl

theorem prev_grow (hp : c.head ≠ some page) (x : SlabId) :
    (c.grow page).prev x = if x = page then none else if c.head = some x then some page else c.prev x := by
  unfold grow
  cases hn : c.head with
  | none =>
    refine (congrFun (prev_setNext (c := c.set page fun _ => c.newSlab) none) x).trans ?_
    rw [prev_set]
    rfl
  | some n =>
    refine (congrFun (prev_setNext (c := (c.set page fun _ => c.newSlab).setPrev n (some page)) (some n)) x).trans ?_
    have hne : n ≠ page := fun e => hp (hn.trans (congrArg some e))
    rw [prev_setPrev, prev_set]
    grind [newSlab]

theorem Listed.grow (h : c.Listed l) (hp : page ∉ l) : (c.grow page).Listed (page :: l) := by
  have hne : c.head ≠ some page := by
    rw [h.head]
    exact fun e => hp (List.mem_of_head? e)
  refine ⟨?_, List.nodup_cons.mpr ⟨hp, h.nodup⟩, rfl⟩
  refine Linked.insert (u := []) (v := l) ?_ h.linked h.nodup hp (by simp)
  rw [← h.head]
  constructor <;> intros <;> simp_all [next_grow, prev_grow hne]

theorem contents_grow (c : Cache) (page : SlabId) : (c.grow page).avail = (c.set page fun _ => c.newSlab).avail ∧
    (c.grow page).freeList = (c.set page fun _ => c.newSlab).freeList := by
  unfold grow
  cases c.head with
  | none =>
    have hr := relinked_setNext (c := c.set page fun _ => c.newSlab) (s := page) none
    exact ⟨hr.avail, hr.freeList⟩
  | some n =>
    have hr := (relinked_setPrev (c := c.set page fun _ => c.newSlab) (s := n) (some page)).trans
      (relinked_setNext (s := page) (some n))
    exact ⟨hr.avail, hr.freeList⟩

theorem Stocked.congr (h : c.Stocked s) (he : c'.elem = c.elem) (ha : c'.avail s = c.avail s)
    (hf : c'.freeList s = c.freeList s) (hl : ∀ e, (s, e) ∈ c'.live ↔ (s, e) ∈ c.live) : c'.Stocked s := by
  refine ⟨by rw [ha, hf, h.avail], hf ▸ h.nodup, fun e => ?_⟩
  rw [hf, he, hl]
  exact h.mem e

theorem Stocked.avail_add (h : c.Stocked s) (hl : ∀ o ∈ c.live, o.2 < c.elem) :
    c.avail s + (c.live.filter fun o => o.1 = s).card = c.elem := by
  have hfree : (c.freeList s).toFinset = (Finset.range c.elem).filter fun e => (s, e) ∉ c.live := by
    ext e
    rw [List.mem_toFinset, h.mem, Finset.mem_filter, Finset.mem_range]
  have hlive : (c.live.filter fun o => o.1 = s).card =
      ((Finset.range c.elem).filter fun e => (s, e) ∈ c.live).card := by
    refine Finset.card_bij' (fun o _ => o.2) (fun e _ => (s, e)) ?_ ?_ ?_ ?_
    · rintro ⟨x, e⟩ ho
      obtain ⟨hx, rfl⟩ := Finset.mem_filter.mp ho
      exact Finset.mem_filter.mpr ⟨Finset.mem_range.mpr (hl _ hx), hx⟩
    · intro e he
      exact Finset.mem_filter.mpr ⟨(Finset.mem_filter.mp he).2, rfl⟩
    · rintro ⟨x, e⟩ ho
      obtain ⟨-, rfl⟩ := Finset.mem_filter.mp ho
      rfl
    · exact fun e _ => rfl
  rw [h.avail, ← List.toFinset_card_of_nodup h.nodup, hfree, hlive, add_comm, Finset.card_filter_add_card_filter_not,
    Finset.card_range]

theorem Holds.relinked (h : c.Holds l) (hr : Relinked c c') : c'.Holds l := by
  refine ⟨fun s => by rw [hr.pages, h.pages], fun s hs => ?_, fun o ho => ?_⟩
  · exact (h.stocked s hs).congr hr.elem (congrFun hr.avail s) (congrFun hr.freeList s) fun e => by rw [hr.live]
  · rw [hr.live] at ho
    rw [hr.elem]
    exact h.live o ho

theorem Holds.perm {l' : List SlabId} (h : c.Holds l) (hp : l.Perm l') : c.Holds l' :=
  ⟨fun s => (h.pages s).trans hp.mem_iff, fun s hs => h.stocked s (hp.mem_iff.mpr hs),
    fun o ho => ⟨hp.mem_iff.mp (h.live o ho).1, (h.live o ho).2⟩⟩

end Cache

end Tukija.Slabs
