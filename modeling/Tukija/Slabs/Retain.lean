import Tukija.Slabs.Runs

/-! How many empty slabs a cache keeps.  Empty slabs are found in the branch of
`Slab_cache::free` for slabs that were not full, so a slab with a single element
is never found empty. -/
namespace Tukija.Slabs

variable {elem n : Nat} {c : Cache} {A B : List SlabId}

inductive Op where
  | alloc (page : SlabId)
  | free (o : Obj)

/-- The histories of a cache: the states before each operation, the latest one
first, with the number of pages that are charged for it then.  `grow` has a page
charged, and `Slab::destroy` has it credited. -/
inductive History (elem : Nat) : List (Cache × Nat × Op) → Cache → Nat → Prop
  | new : History elem [] (.new elem) 0
  | alloc {l : List (Cache × Nat × Op)} {c c' : Cache} {n : Nat} {p : SlabId} {o : Obj} {grown : Bool}
      (h : History elem l c n) (hp : p ∉ c.pages) (hc : c.alloc p = .ok (o, c', grown)) :
      History elem ((c, n, .alloc p) :: l) c' (if grown then n + 1 else n)
  | free {l : List (Cache × Nat × Op)} {c c' : Cache} {n : Nat} {o : Obj} {gone : Bool}
      (h : History elem l c n) (ho : o ∈ c.live) (hc : c.free o = .ok (c', gone)) :
      History elem ((c, n, .free o) :: l) c' (if gone then n - 1 else n)

namespace Cache

def empties (c : Cache) : Finset SlabId := c.pages.filter fun s => c.empty s

/-- At most one slab without an object is kept, and no page is charged but those
of the cache. -/
def Sparing (c : Cache) (n : Nat) : Prop := c.empties.card ≤ 1 ∧ n = c.pages.card

/-- The operation does not free the only element of a slab while another slab is
empty. -/
def Leaves (c : Cache) : Op → Prop
  | .alloc _ => True
  | .free _ => c.elem = 1 → c.empties = ∅

theorem Lists.empties_subset (h : c.Lists A B) (he : 1 ≤ c.elem) : c.empties ⊆ A.toFinset := by
  intro s hs
  obtain ⟨hs, hem⟩ := Finset.mem_filter.mp hs
  have hav : c.avail s = c.elem := by simpa [empty] using hem
  rcases List.mem_append.mp ((h.holds.pages s).mp hs) with hA | hB
  · exact List.mem_toFinset.mpr hA
  · have := h.full s hB
    omega

theorem Lists.empties_eq (h : c.Lists A B) (h1 : c.elem = 1) : c.empties = A.toFinset := by
  refine (h.empties_subset h1.ge).antisymm fun s hs => ?_
  have hA := List.mem_toFinset.mp hs
  have hle := h.avail_le (List.mem_append_left B hA)
  have hne := h.partly s hA
  have hav : c.avail s = c.elem := by omega
  exact Finset.mem_filter.mpr ⟨(h.holds.pages s).mpr (List.mem_append_left B hA), by simp [empty, hav]⟩

theorem Lists.card_empties (h : c.Lists A B) (h1 : c.elem = 1) : c.empties.card = A.length := by
  rw [h.empties_eq h1]
  exact List.toFinset_card_of_nodup (List.nodup_append.mp h.listed.nodup).1

theorem Lists.card_empties_le (h : c.Lists A B) (h1 : 1 < c.elem) : c.empties.card ≤ 1 := by
  have hfirst : ∀ s ∈ c.empties, A.head? = some s := by
    intro s hs
    have hA := List.mem_toFinset.mp (h.empties_subset h1.le hs)
    have hav : c.avail s = c.elem := by simpa [empty] using (Finset.mem_filter.mp hs).2
    cases A with
    | nil => simp at hA
    | cons a A =>
      rcases List.mem_cons.mp hA with rfl | htail
      · rfl
      · exact absurd hav (h.used h1.ne' s htail)
  refine Finset.card_le_one.mpr fun s hs t ht => ?_
  exact Option.some.inj ((hfirst s hs).symm.trans (hfirst t ht))

end Cache

theorem History.reached {l : List (Cache × Nat × Op)} (h : History elem l c n) : Reached elem c := by
  induction h with
  | new => exact .new
  | alloc _ hp hc ih => exact ih.alloc hp hc
  | free _ ho hc ih => exact ih.free ho hc

theorem History.charged {l : List (Cache × Nat × Op)} (he : 1 ≤ elem) (h : History elem l c n) :
    n = c.pages.card := by
  induction h with
  | new => rfl
  | alloc h hp hc ih =>
    obtain ⟨helem, A, B, hl⟩ := h.reached.lists he
    obtain ⟨o, c', A', B', hrun, -, htook, -⟩ := hl.alloc hp (helem ▸ he)
    obtain ⟨rfl, rfl, rfl⟩ := by simpa using hrun.symm.trans hc
    rw [htook.pages, ih]
    split
    · rw [Cache.pages_grow, Finset.card_insert_of_notMem hp]
    · rfl
  | free h ho hc ih =>
    obtain ⟨-, A, B, hl⟩ := h.reached.lists he
    obtain ⟨c', gone, A', B', hrun, -, hgave, -⟩ := hl.free ho
    obtain ⟨rfl, rfl⟩ := by simpa using hrun.symm.trans hc
    rw [hgave.pages, ih]
    split
    · exact (Finset.card_erase_of_mem ((hl.holds.pages _).mpr (hl.holds.live _ ho).1)).symm
    · rfl

theorem Reached.alloc_card {c' : Cache} {p : SlabId} {o : Obj} {grown : Bool} (he : 1 ≤ elem) (h : Reached elem c)
    (hp : p ∉ c.pages) (hc : c.alloc p = .ok (o, c', grown)) (hle : c.empties.card ≤ 1) :
    c'.empties.card ≤ 1 := by
  obtain ⟨rfl, A, B, hl⟩ := h.lists he
  obtain ⟨o, c', A', B', hrun, hl', -, hlen, -⟩ := hl.alloc hp he
  obtain ⟨rfl, rfl, -⟩ := by simpa using hrun.symm.trans hc
  have helem := ((h.alloc hp hc).lists he).1
  rcases he.eq_or_lt with h1 | h1
  · rw [hl.card_empties h1.symm] at hle
    rw [hl'.card_empties (helem.trans h1.symm)]
    omega
  · exact hl'.card_empties_le (helem ▸ h1)

/-- One that frees the only element of a slab adds an empty slab to those there
are. -/
theorem Reached.free_card {c' : Cache} {o : Obj} {gone : Bool} (he : 1 ≤ elem) (h : Reached elem c)
    (ho : o ∈ c.live) (hc : c.free o = .ok (c', gone)) : c'.empties.card ≤ 1 ↔ c.Leaves (.free o) := by
  obtain ⟨rfl, A, B, hl⟩ := h.lists he
  obtain ⟨c', gone, A', B', hrun, hl', hgave, hA'⟩ := hl.free ho
  obtain ⟨rfl, rfl⟩ := by simpa using hrun.symm.trans hc
  have helem := hgave.elem
  rcases he.eq_or_lt with h1 | h1
  · have hfull : c.avail o.1 = 0 := by
      have := hl.avail_pos ho
      omega
    rw [hl'.card_empties (helem.trans h1.symm), hA' hfull, List.length_append, List.length_singleton]
    have hnil : c.empties = ∅ ↔ A.length = 0 := by
      rw [← hl.card_empties h1.symm, Finset.card_eq_zero]
    rw [Cache.Leaves, hnil]
    omega
  · refine iff_of_true (hl'.card_empties_le (helem ▸ h1)) fun h1' => ?_
    omega

/-- A cache keeps at most one empty slab all the time, and has every other page
given back and credited, exactly if slabs have more than one element or no slab
is empty when an object is freed. -/
theorem sparing_iff {l : List (Cache × Nat × Op)} (he : 1 ≤ elem) (h : History elem l c n) :
    (c.Sparing n ∧ ∀ x ∈ l, x.1.Sparing x.2.1) ↔ ∀ x ∈ l, x.1.Leaves x.2.2 := by
  induction h with
  | new => exact iff_of_true ⟨⟨Nat.zero_le 1, rfl⟩, by simp⟩ (by simp)
  | alloc h hp hc ih =>
    simp only [List.forall_mem_cons]
    rw [ih]
    refine and_congr_left fun hl => iff_of_true ⟨?_, (h.alloc hp hc).charged he⟩ trivial
    exact h.reached.alloc_card he hp hc (ih.mpr hl).1.1
  | free h ho hc ih =>
    simp only [List.forall_mem_cons]
    rw [ih]
    refine and_congr_left fun hl => ?_
    rw [← h.reached.free_card he ho hc]
    exact and_iff_left ((h.free ho hc).charged he)

/-- Two objects in one slab, both freed again. -/
theorem sparing_iff_pair : ∃ l c n, History 2 l c n ∧ l.length = 4 ∧ c.pages = {0} ∧ c.Sparing n := by
  have h : History 2 _ _ _ := .free (o := (0, 0)) (.free (o := (0, 1)) (.alloc (p := 5) (.alloc (p := 0) .new (by decide) rfl)
    (by decide) rfl) (by decide) rfl) (by decide) rfl
  refine ⟨_, _, _, h, rfl, by decide, ((sparing_iff (by decide) h).mpr ?_).1⟩
  intro x hx
  simp only [List.mem_cons, List.not_mem_nil, or_false] at hx
  rcases hx with rfl | rfl | rfl | rfl
  · exact fun h1 => absurd h1 (by decide)
  · exact fun h1 => absurd h1 (by decide)
  · trivial
  · trivial

/-- Two slabs with one element each are both kept when both elements are free
again. -/
theorem singles_not_sparing : ¬∀ elem ≥ 1, ∀ l c n, History elem l c n → c.Sparing n := by
  intro hall
  have h : History 1 _ _ _ := .free (o := (1, 0)) (.free (o := (0, 0)) (.alloc (p := 1) (.alloc (p := 0) .new (by decide) rfl)
    (by decide) rfl) (by decide) rfl) (by decide) rfl
  exact absurd (hall 1 le_rfl _ _ _ h).1 (by decide +kernel)

end Tukija.Slabs
