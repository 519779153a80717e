import Mathlib

/-! Doubly linked lists with a null at either end.  A list is read off as its
members from the first to the last. -/
namespace Tukija.Lib.Chain

variable {α : Type*} {next prev next' prev' : α → Option α} {p : Option α} {l u v : List α} {x y : α}

/-- `next` and `prev` link the members of `l` in this order, behind `p`. -/
def Linked (next prev : α → Option α) : Option α → List α → Prop
  | _, [] => True
  | p, x :: l => (prev x = p ∧ next x = l.head?) ∧ Linked next prev (some x) l

@[simp] theorem linked_nil : Linked next prev p [] := trivial

@[simp] theorem linked_cons :
    Linked next prev p (x :: l) ↔ (prev x = p ∧ next x = l.head?) ∧ Linked next prev (some x) l := Iff.rfl

theorem Linked.congr (h : Linked next prev p l) (hn : ∀ x ∈ l, next' x = next x)
    (hp : ∀ x ∈ l, prev' x = prev x) : Linked next' prev' p l := by
  induction l generalizing p with
  | nil => trivial
  | cons x l ih =>
    obtain ⟨⟨h1, h2⟩, h3⟩ := h
    refine ⟨⟨by rw [hp x (by simp), h1], by rw [hn x (by simp), h2]⟩, ?_⟩
    exact ih h3 (fun y hy => hn y (by simp [hy])) (fun y hy => hp y (by simp [hy]))

theorem Linked.next_eq (h : Linked next prev p (u ++ x :: v)) : next x = v.head? := by
  induction u generalizing p with
  | nil => exact h.1.2
  | cons y u ih => exact ih h.2

theorem Linked.prev_eq (h : Linked next prev p (u ++ x :: v)) : prev x = u.getLast?.or p := by
  induction u generalizing p with
  | nil => simpa using h.1.1
  | cons y u ih =>
    rw [ih h.2]
    cases u <;> simp [List.getLast?_cons]

theorem Linked.next_mem (h : Linked next prev p l) (hx : x ∈ l) (hn : next x = some y) : y ∈ l := by
  obtain ⟨u, v, rfl⟩ := List.append_of_mem hx
  rw [h.next_eq] at hn
  simp [List.mem_of_mem_head? hn]

theorem Linked.prev_mem (h : Linked next prev none l) (hx : x ∈ l) (hp : prev x = some y) : y ∈ l := by
  obtain ⟨u, v, rfl⟩ := List.append_of_mem hx
  rw [h.prev_eq, Option.or_none] at hp
  simp [List.mem_of_getLast? hp]

theorem Linked.prev_eq_none (h : Linked next prev none l) (hnd : l.Nodup) (hx : x ∈ l) :
    prev x = none ↔ l.head? = some x := by
  cases l with
  | nil => simp at hx
  | cons y l =>
    obtain ⟨⟨h1, -⟩, h2⟩ := h
    rcases List.mem_cons.mp hx with rfl | hx
    · simp [h1]
    · have hyx : y ≠ x := by
        rintro rfl
        exact (List.nodup_cons.mp hnd).1 hx
      obtain ⟨u, v, rfl⟩ := List.append_of_mem hx
      rw [h2.prev_eq]
      simp [hyx]

/-- What taking `x` out does to the fields of the others. -/
structure Removed (next prev next' prev' : α → Option α) (x : α) : Prop where
  next_prev : ∀ y, y ≠ x → prev x = some y → next' y = next x
  prev_next : ∀ y, y ≠ x → next x = some y → prev' y = prev x
  next_other : ∀ y, y ≠ x → prev x ≠ some y → next' y = next y
  prev_other : ∀ y, y ≠ x → next x ≠ some y → prev' y = prev y

/-- What putting `x` between `a` and `b` does to the fields. -/
structure Inserted (next prev next' prev' : α → Option α) (x : α) (a b : Option α) : Prop where
  next_self : next' x = b
  prev_self : prev' x = a
  next_prev : ∀ y, y ≠ x → a = some y → next' y = some x
  prev_next : ∀ y, y ≠ x → b = some y → prev' y = some x
  next_other : ∀ y, y ≠ x → a ≠ some y → next' y = next y
  prev_other : ∀ y, y ≠ x → b ≠ some y → prev' y = prev y

theorem Linked.remove (hr : Removed next prev next' prev' x) (h : Linked next prev p (u ++ x :: v))
    (hnd : (u ++ x :: v).Nodup) (hp : ∀ y ∈ u ++ x :: v, p ≠ some y) :
    Linked next' prev' p (u ++ v) := by
  induction u generalizing p with
  | nil =>
    obtain ⟨⟨h1, h2⟩, h3⟩ := h
    cases v with
    | nil => trivial
    | cons z v =>
      -- `z` comes directly behind `x`
      have hzx : z ≠ x := by
        rintro rfl
        simp at hnd
      have hrest : ∀ y ∈ v, y ≠ x ∧ prev x ≠ some y ∧ next x ≠ some y := by
        intro y hy
        simp only [List.nil_append, List.nodup_cons, List.mem_cons, not_or] at hnd
        refine ⟨?_, ?_, ?_⟩
        · rintro rfl
          exact hnd.1.2 hy
        · rw [h1]
          exact hp y (by simp [hy])
        · rw [h2]
          rintro e
          obtain rfl : z = y := by simpa using e
          exact hnd.2.1 hy
      refine ⟨⟨by rw [hr.prev_next z hzx (by simpa using h2), h1], ?_⟩, ?_⟩
      · rw [hr.next_other z hzx (by rw [h1]; exact hp z (by simp)), h3.1.2]
      · exact h3.2.congr (fun y hy => hr.next_other y (hrest y hy).1 (hrest y hy).2.1)
          (fun y hy => hr.prev_other y (hrest y hy).1 (hrest y hy).2.2)
  | cons y u ih =>
    have hyx : y ≠ x := by
      rintro rfl
      simp at hnd
    have hyu : y ∉ u ++ x :: v := (List.nodup_cons.mp hnd).1
    have hnd' := (List.nodup_cons.mp hnd).2
    have hprev : prev' y = prev y := by
      apply hr.prev_other y hyx
      intro e
      exact hyu (h.2.next_mem (by simp) e)
    refine ⟨⟨by rw [hprev, h.1.1], ?_⟩, ih h.2 hnd' ?_⟩
    · cases u with
      | nil =>
        rw [hr.next_prev y hyx h.2.1.1, h.2.1.2]
        rfl
      | cons z u =>
        rw [hr.next_other y hyx ?_, h.1.2]
        · rfl
        · rw [h.2.prev_eq]
          intro e
          cases hl : (z :: u).getLast? with
          | none => simp at hl
          | some w =>
            rw [hl, Option.some_or] at e
            obtain rfl := Option.some.inj e
            exact hyu (List.mem_append_left _ (List.mem_of_getLast? hl))
    · intro w hw e
      obtain rfl := Option.some.inj e
      exact hyu hw

theorem Linked.insert (hi : Inserted next prev next' prev' x (u.getLast?.or p) v.head?)
    (h : Linked next prev p (u ++ v)) (hnd : (u ++ v).Nodup) (hx : x ∉ u ++ v)
    (hp : ∀ y ∈ u ++ v, p ≠ some y) : Linked next' prev' p (u ++ x :: v) := by
  induction u generalizing p with
  | nil =>
    simp only [List.getLast?_nil, Option.none_or] at hi
    refine ⟨⟨hi.prev_self, hi.next_self⟩, ?_⟩
    cases v with
    | nil => trivial
    | cons z v =>
      have hzx : z ≠ x := by
        rintro rfl
        simp at hx
      have hrest : ∀ y ∈ v, y ≠ x ∧ y ≠ z := by
        intro y hy
        refine ⟨?_, ?_⟩
        · rintro rfl
          simp [hy] at hx
        · rintro rfl
          exact (List.nodup_cons.mp hnd).1 hy
      refine ⟨⟨hi.prev_next z hzx rfl, ?_⟩, ?_⟩
      · rw [hi.next_other z hzx (hp z (by simp)), h.1.2]
      · refine h.2.congr (fun y hy => hi.next_other y (hrest y hy).1 (hp y (by simp [hy]))) fun y hy => ?_
        apply hi.prev_other y (hrest y hy).1
        simpa using (hrest y hy).2.symm
  | cons y u ih =>
    have hyx : y ≠ x := by
      rintro rfl
      simp at hx
    have hyu : y ∉ u ++ v := (List.nodup_cons.mp hnd).1
    have hprev : prev' y = prev y := by
      apply hi.prev_other y hyx
      intro e
      exact hyu (List.mem_append_right _ (List.mem_of_mem_head? e))
    refine ⟨⟨by rw [hprev, h.1.1], ?_⟩, ih ?_ h.2 (List.nodup_cons.mp hnd).2 ?_ ?_⟩
    · cases u with
      | nil => exact hi.next_prev y hyx (by simp)
      | cons z u =>
        rw [hi.next_other y hyx ?_, h.1.2]
        · rfl
        · intro e
          rw [List.getLast?_cons_cons] at e
          cases hl : (z :: u).getLast? with
          | none => simp at hl
          | some w =>
            rw [hl, Option.some_or] at e
            obtain rfl := Option.some.inj e
            exact hyu (List.mem_append_left _ (List.mem_of_getLast? hl))
    · have hlast : (y :: u).getLast?.or p = u.getLast?.or (some y) := by
        cases u <;> simp [List.getLast?_cons]
      rwa [hlast] at hi
    · intro hxu
      exact hx (List.mem_cons_of_mem _ hxu)
    · intro w hw e
      obtain rfl := Option.some.inj e
      exact hyu hw

end Tukija.Lib.Chain
