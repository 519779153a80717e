import Tukija.Lib.Ring

/-! Several rings in one memory of pointers.  Every list has a pointer to its first
member; what is in no list may point anywhere. -/
namespace Tukija.Lib.Ring

variable {κ α : Type*}

/-- `l k` are the members of list `k`, in order, and no list shares a member with another. -/
structure Rings (head : κ → Option α) (next prev : α → α) (l : κ → List α) : Prop where
  head : ∀ k, head k = (l k).head?
  ring : ∀ k a u, l k = a :: u → LinkedRing next prev a u
  apart : ∀ k j x, x ∈ l k → x ∈ l j → k = j

/-- `x` is reached from the head of list `k`. -/
def Reached (head : κ → Option α) (next : α → α) (k : κ) (x : α) : Prop :=
  ∃ a n, head k = some a ∧ next^[n] a = x

namespace Rings

variable {head head' : κ → Option α} {next prev next' prev' : α → α} {l : κ → List α}
  {k : κ} {a x : α} {u v : List α}

theorem nil_of_head (h : Rings head next prev l) : head k = none ↔ l k = [] := by
  rw [h.head k, List.head?_eq_none_iff]

theorem cons_of_head (h : Rings head next prev l) (ha : head k = some a) : ∃ u, l k = a :: u := by
  rw [h.head k] at ha
  exact List.head?_eq_some_iff.mp ha

theorem nodup (h : Rings head next prev l) (k : κ) : (l k).Nodup := by
  cases hk : l k with
  | nil => exact List.nodup_nil
  | cons a u => exact (h.ring k a u hk).nodup

theorem ring_of_mem (h : Rings head next prev l) (hx : x ∈ l k) :
    ∃ m, LinkedRing next prev x m ∧ ∀ y, y ∈ x :: m ↔ y ∈ l k := by
  cases hk : l k with
  | nil => simp [hk] at hx
  | cons a u =>
    rw [hk] at hx
    exact (h.ring k a u hk).exists_of_mem hx

theorem next_mem (h : Rings head next prev l) (hx : x ∈ l k) : next x ∈ l k := by
  obtain ⟨m, hm, hmem⟩ := h.ring_of_mem hx
  exact (hmem _).mp (hm.next_mem List.mem_cons_self)

theorem prev_mem (h : Rings head next prev l) (hx : x ∈ l k) : prev x ∈ l k := by
  obtain ⟨m, hm, hmem⟩ := h.ring_of_mem hx
  exact (hmem _).mp (hm.prev_mem List.mem_cons_self)

theorem next_prev (h : Rings head next prev l) (hx : x ∈ l k) : next (prev x) = x := by
  obtain ⟨m, hm, -⟩ := h.ring_of_mem hx
  exact hm.next_prev List.mem_cons_self

theorem prev_next (h : Rings head next prev l) (hx : x ∈ l k) : prev (next x) = x := by
  obtain ⟨m, hm, -⟩ := h.ring_of_mem hx
  exact hm.prev_next List.mem_cons_self

theorem reached_iff (h : Rings head next prev l) : Reached head next k x ↔ x ∈ l k := by
  constructor
  · rintro ⟨a, n, ha, rfl⟩
    obtain ⟨u, hu⟩ := h.cons_of_head ha
    induction n with
    | zero => simp [hu]
    | succ n ih =>
      rw [Function.iterate_succ_apply']
      exact h.next_mem ih
  · intro hx
    cases hk : l k with
    | nil => simp [hk] at hx
    | cons a u =>
      have ha : head k = some a := by rw [h.head k, hk, List.head?_cons]
      rw [hk] at hx
      rcases List.mem_cons.mp hx with rfl | hx
      · exact ⟨x, 0, ha, rfl⟩
      · obtain ⟨n, hn, rfl⟩ := List.mem_iff_getElem.mp hx
        exact ⟨a, n + 1, ha, (h.ring k a u hk).path.next_iterate_get hn⟩

theorem unique {l' : κ → List α} (h : Rings head next prev l) (h' : Rings head next prev l') :
    l = l' := by
  funext k
  cases hk : l k with
  | nil => exact (h'.nil_of_head.mp (h.nil_of_head.mpr hk)).symm
  | cons a u =>
    obtain ⟨u', hu'⟩ := h'.cons_of_head (k := k) (by rw [h.head k, hk, List.head?_cons])
    rw [hu', (h.ring k a u hk).unique (h'.ring k a u' hu')]

theorem congr (h : Rings head next prev l) (hn : ∀ x, (∃ k, x ∈ l k) → next' x = next x)
    (hp : ∀ x, (∃ k, x ∈ l k) → prev' x = prev x) : Rings head next' prev' l :=
  ⟨h.head, fun k a u hk => (h.ring k a u hk).congr
    (fun x hx => hn x ⟨k, by rwa [hk]⟩) (fun x hx => hp x ⟨k, by rwa [hk]⟩), h.apart⟩

section Update

variable [DecidableEq κ]

theorem apart_update (h : Rings head next prev l) {m : List α}
    (hm : ∀ x ∈ m, x ∈ l k ∨ ∀ j, x ∉ l j) (i j : κ) (x : α)
    (hi : x ∈ Function.update l k m i) (hj : x ∈ Function.update l k m j) : i = j := by
  by_cases hik : i = k
  · subst hik
    by_cases hji : j = i
    · exact hji.symm
    rw [Function.update_self] at hi
    rw [Function.update_of_ne hji] at hj
    rcases hm x hi with hx | hx
    · exact h.apart i j x hx hj
    · exact absurd hj (hx j)
  rw [Function.update_of_ne hik] at hi
  by_cases hjk : j = k
  · subst hjk
    rw [Function.update_self] at hj
    rcases hm x hj with hx | hx
    · exact h.apart i j x hi hx
    · exact absurd hi (hx i)
  · rw [Function.update_of_ne hjk] at hj
    exact h.apart i j x hi hj

theorem head_update {m : List α} {o : Option α} (h : Rings head next prev l) (ho : o = m.head?)
    (j : κ) : Function.update head k o j = (Function.update l k m j).head? := by
  by_cases hj : j = k
  · subst hj
    rw [Function.update_self, Function.update_self, ho]
  · rw [Function.update_of_ne hj, Function.update_of_ne hj, h.head j]

theorem alone (h : Rings head next prev l) (hk : l k = []) (hx : ∀ j, x ∉ l j)
    (hnx : next' x = x) (hpx : prev' x = x) (hn : ∀ y, y ≠ x → next' y = next y)
    (hp : ∀ y, y ≠ x → prev' y = prev y) :
    Rings (Function.update head k (some x)) next' prev' (Function.update l k [x]) := by
  refine ⟨h.head_update rfl, fun j a u hj => ?_, h.apart_update (fun y hy => ?_)⟩
  · by_cases hjk : j = k
    · subst hjk
      rw [Function.update_self] at hj
      obtain ⟨rfl, rfl⟩ := List.cons.inj hj
      exact ⟨by simp, hnx, hpx⟩
    · rw [Function.update_of_ne hjk] at hj
      have hne : ∀ y ∈ a :: u, y ≠ x := by
        rintro y hy rfl
        exact hx j (by rwa [hj])
      exact (h.ring j a u hj).congr (fun y hy => hn y (hne y hy)) (fun y hy => hp y (hne y hy))
  · obtain rfl := List.mem_singleton.mp hy
    exact Or.inr hx

theorem append (h : Rings head next prev l) (hk : l k = a :: u)
    (hi : LinkedRing.Inserted next prev next' prev' (prev a) x) (hx : ∀ j, x ∉ l j) :
    Rings head next' prev' (Function.update l k (a :: (u ++ [x]))) := by
  have hring := h.ring k a u hk
  have ha : a ∈ l k := by simp [hk]
  have hxk : x ∉ a :: u := by
    rw [← hk]
    exact hx k
  refine ⟨fun j => ?_, fun j b w hj => ?_, h.apart_update (fun y hy => ?_)⟩
  · by_cases hjk : j = k
    · subst hjk
      rw [Function.update_self, h.head j, hk, List.head?_cons, List.head?_cons]
    · rw [Function.update_of_ne hjk, h.head j]
  · by_cases hjk : j = k
    · subst hjk
      rw [Function.update_self] at hj
      obtain ⟨rfl, rfl⟩ := List.cons.inj hj
      rcases List.eq_nil_or_concat u with rfl | ⟨w, z, rfl⟩
      · have hpa : prev a = a := hring.path.2
        rw [hpa] at hi
        exact hring.insert_head hi hxk
      · rw [List.concat_eq_append] at hring hxk ⊢
        have hz : prev a = z := by
          rw [hring.path.prev_eq]
          simp
        rw [hz] at hi
        simpa using hring.insert hi hxk
    · rw [Function.update_of_ne hjk] at hj
      obtain ⟨m, hm, -⟩ := h.ring_of_mem (h.prev_mem ha)
      refine (h.ring j b w hj).insert_other hi hm (fun hpj => ?_) (fun hxj => ?_)
      · rw [← hj] at hpj
        exact hjk (h.apart j k _ hpj (h.prev_mem ha))
      · rw [← hj] at hxj
        exact hx j hxj
  · rw [List.mem_cons, List.mem_append, List.mem_singleton] at hy
    rcases hy with rfl | hy | rfl
    · exact Or.inl ha
    · exact Or.inl (by rw [hk]; exact List.mem_cons_of_mem _ hy)
    · exact Or.inr hx

theorem advance (h : Rings head next prev l) (hk : l k = u ++ x :: v) :
    Rings (Function.update head k (some x)) next prev (Function.update l k (x :: (v ++ u))) := by
  refine ⟨h.head_update rfl, fun j b w hj => ?_, h.apart_update (fun y hy => ?_)⟩
  · by_cases hjk : j = k
    · subst hjk
      rw [Function.update_self] at hj
      obtain ⟨rfl, rfl⟩ := List.cons.inj hj
      cases u with
      | nil => simpa using h.ring j x v hk
      | cons c u => exact (h.ring j c (u ++ x :: v) hk).rotate
    · rw [Function.update_of_ne hjk] at hj
      exact h.ring j b w hj
  · refine Or.inl ?_
    simp only [List.mem_cons, List.mem_append] at hy
    simp only [hk, List.mem_cons, List.mem_append]
    tauto

theorem remove (h : Rings head next prev l) (hk : l k = u ++ x :: v)
    (hr : LinkedRing.Removed next prev next' prev' x) {o : Option α} (ho : o = (u ++ v).head?) :
    Rings (Function.update head k o) next' prev' (Function.update l k (u ++ v)) := by
  have hx : x ∈ l k := by simp [hk]
  refine ⟨h.head_update ho, fun j b w hj => ?_, h.apart_update (fun y hy => ?_)⟩
  · by_cases hjk : j = k
    · subst hjk
      rw [Function.update_self] at hj
      cases u with
      | nil =>
        -- seen from the last member, the one that is taken is not the first
        rw [List.nil_append] at hj
        subst hj
        have hring := LinkedRing.rotate (u := []) (h.ring j x (b :: w) hk)
        simpa using hring.remove hr
      | cons c u =>
        obtain ⟨rfl, rfl⟩ := List.cons.inj hj
        exact (h.ring j c (u ++ x :: v) hk).remove hr
    · rw [Function.update_of_ne hjk] at hj
      obtain ⟨m, hm, -⟩ := h.ring_of_mem hx
      refine (h.ring j b w hj).remove_other hr hm (fun hxj => ?_)
      rw [← hj] at hxj
      exact hjk (h.apart j k x hxj hx)
  · refine Or.inl ?_
    rw [List.mem_append] at hy
    rw [hk, List.mem_append, List.mem_cons]
    tauto

end Update

theorem head_next [DecidableEq α] (h : Rings head next prev l) (hk : l k = x :: u) :
    (if next x = x then none else some (next x)) = u.head? := by
  have hring := h.ring k x u hk
  cases u with
  | nil => rw [if_pos hring.path.1, List.head?_nil]
  | cons y u =>
    have hy : next x = y := hring.path.1.1
    have hne : y ≠ x := by
      rintro rfl
      exact hring.notMem List.mem_cons_self
    rw [hy, if_neg hne, List.head?_cons]

end Rings

end Tukija.Lib.Ring
