import Tukija.Slabs.Steps

/-! The caches that come about. -/
namespace Tukija.Slabs

variable {elem : Nat} {c : Cache}

theorem Reached.lists (h : Reached elem c) (he : 1 ≤ elem) : c.elem = elem ∧ ∃ A B, c.Lists A B := by
  induction h with
  | new => exact ⟨rfl, [], [], Cache.lists_new elem⟩
  | alloc _ hp hc ih =>
    obtain ⟨helem, A, B, hl⟩ := ih
    obtain ⟨o, c', A', B', hrun, hl', htook, -⟩ := hl.alloc hp (helem ▸ he)
    obtain ⟨rfl, rfl, -⟩ := by simpa using hrun.symm.trans hc
    refine ⟨htook.elem.trans ?_, A', B', hl'⟩
    split
    · exact Cache.elem_grow.trans helem
    · exact helem
  | free _ ho hc ih =>
    obtain ⟨helem, A, B, hl⟩ := ih
    obtain ⟨c', gone, A', B', hrun, hl', hgave, -⟩ := hl.free ho
    obtain ⟨rfl, -⟩ := by simpa using hrun.symm.trans hc
    exact ⟨hgave.elem.trans helem, A', B', hl'⟩

/-- Slabs with free elements come before full ones, `curr` is the last of the
former, and no operation fails. -/
theorem reached_sound (he : 1 ≤ elem) (h : Reached elem c) :
    (∃ A B, c.Lists A B) ∧
    (∀ s ∈ c.pages, c.avail s + (c.live.filter fun o => o.1 = s).card = elem) ∧
    (∀ page, page ∉ c.pages → ∃ o c', c.alloc page = .ok (o, c', c.curr.isNone)) ∧
    ∀ o ∈ c.live, ∃ c' gone, c.free o = .ok (c', gone) := by
  obtain ⟨rfl, A, B, hl⟩ := h.lists he
  refine ⟨⟨A, B, hl⟩, fun s hs => ?_, fun page hp => ?_, fun o ho => ?_⟩
  · exact (hl.holds.stocked s ((hl.holds.pages s).mp hs)).avail_add fun o ho => (hl.holds.live o ho).2
  · obtain ⟨o, c', _, _, hrun, -⟩ := hl.alloc hp he
    exact ⟨o, c', hrun⟩
  · obtain ⟨c', gone, _, _, hrun, -⟩ := hl.free ho
    exact ⟨c', gone, hrun⟩

/-- Two slabs with one element each, of which the first one is free again. -/
theorem reached_sound_two : ∃ c, Reached 1 c ∧ c.live = {(1, 0)} ∧ (∃ A B, c.Lists A B) ∧
    ∃ c' gone, c.free (1, 0) = .ok (c', gone) := by
  have h : Reached 1 _ := .free (o := (0, 0)) (.alloc (p := 1) (.alloc (p := 0) .new (by simp [Cache.new]) rfl)
    (by decide) rfl) (by decide) rfl
  exact ⟨_, h, by decide, (reached_sound le_rfl h).1, (reached_sound le_rfl h).2.2.2 (1, 0) (by decide)⟩

end Tukija.Slabs
