import Tukija.Lib.Ring

/-! `Queue`: a ring of linked objects with a pointer to its head. -/
namespace Tukija.Sm

open Tukija.Lib.Ring

/-- `T::next` and `T::prev`. -/
structure Links (T : Type) where
  next : T → Option T
  prev : T → Option T

namespace Links

variable {T : Type}

def null : Links T := ⟨fun _ => none, fun _ => none⟩

variable [DecidableEq T] (k : Links T) (t : T)

def setNext (x : Option T) : Links T := { k with next := Function.update k.next t x }

def setPrev (x : Option T) : Links T := { k with prev := Function.update k.prev t x }

def nextOf : T := (k.next t).getD t

def prevOf : T := (k.prev t).getD t

end Links

variable {T : Type}

section Operations

variable [DecidableEq T]

/-- `Queue::enqueue`, with the new `headptr`. -/
def enqueue (headptr : Option T) (k : Links T) (t : T) : Option T × Links T :=
  match headptr with
  | none => (some t, (k.setNext t (some t)).setPrev t (some t))
  | some h =>
    let p := k.prev h
    let k := (k.setNext t (some h)).setPrev t p
    let k := match p with
      | some p => k.setNext p (some t)
      | none => k
    (some h, k.setPrev h (some t))

/-- `Queue::dequeue`, with the new `headptr`. -/
def dequeue (headptr : Option T) (k : Links T) (t : Option T) : Bool × Option T × Links T :=
  match t with
  | none => (false, headptr, k)
  | some t =>
    match k.next t, k.prev t with
    | some n, some p =>
      if t = n then (true, none, (k.setNext t none).setPrev t none)
      else
        let k := (k.setPrev n (some p)).setNext p (some n)
        (true, if some t = headptr then some n else headptr, (k.setNext t none).setPrev t none)
    | _, _ => (false, headptr, k)

@[simp] theorem setNext_next {k : Links T} {t : T} {o : Option T} : (k.setNext t o).next = Function.update k.next t o := rfl

@[simp] theorem setNext_prev {k : Links T} {t : T} {o : Option T} : (k.setNext t o).prev = k.prev := rfl

@[simp] theorem setPrev_next {k : Links T} {t : T} {o : Option T} : (k.setPrev t o).next = k.next := rfl

@[simp] theorem setPrev_prev {k : Links T} {t : T} {o : Option T} : (k.setPrev t o).prev = Function.update k.prev t o := rfl

end Operations

/-- `l` is in the queue, in this order, and nothing else is linked. -/
structure Queued (headptr : Option T) (k : Links T) (l : List T) : Prop where
  head : headptr = l.head?
  ring : ∀ a u, l = a :: u → LinkedRing k.nextOf k.prevOf a u
  linked : ∀ x ∈ l, k.next x ≠ none ∧ k.prev x ≠ none
  free : ∀ x, x ∉ l → k.next x = none ∧ k.prev x = none

section Links

variable {k : Links T} {x : T}

theorem nextOf_eq {y : T} (h : k.next x = some y) : k.nextOf x = y := by
  unfold Links.nextOf
  rw [h]
  rfl

theorem prevOf_eq {y : T} (h : k.prev x = some y) : k.prevOf x = y := by
  unfold Links.prevOf
  rw [h]
  rfl

theorem nextOf_congr {k' : Links T} (h : k'.next x = k.next x) : k'.nextOf x = k.nextOf x := by
  unfold Links.nextOf
  rw [h]

theorem prevOf_congr {k' : Links T} (h : k'.prev x = k.prev x) : k'.prevOf x = k.prevOf x := by
  unfold Links.prevOf
  rw [h]

variable [DecidableEq T]

theorem inserted {a p t : T} (hp : k.prev a = some p) (hnp : k.nextOf p = a) (hta : t ≠ a)
    (htp : t ≠ p) :
    LinkedRing.Inserted k.nextOf k.prevOf (enqueue (some a) k t).2.nextOf
      (enqueue (some a) k t).2.prevOf p t := by
  have hk : (enqueue (some a) k t).2 =
      (((k.setNext t (some a)).setPrev t (some p)).setNext p (some t)).setPrev a (some t) := by
    simp [enqueue, hp]
  rw [hk]
  refine ⟨nextOf_eq ?_, ?_, prevOf_eq ?_, ?_, fun x hxp hxt => nextOf_congr ?_,
    fun x hxa hxt => prevOf_congr ?_⟩
  · simp
  · rw [hnp]
    apply nextOf_eq
    simp [htp]
  · simp [hta]
  · rw [hnp]
    apply prevOf_eq
    simp
  · simp [hxp, hxt]
  · rw [hnp] at hxa
    simp [hxa, hxt]

theorem linked_enqueue {headptr : Option T} {t : T} (ha : ∀ a, headptr = some a → k.prev a ≠ none)
    (hx : x = t ∨ k.next x ≠ none ∧ k.prev x ≠ none) :
    (enqueue headptr k t).2.next x ≠ none ∧ (enqueue headptr k t).2.prev x ≠ none := by
  cases headptr with
  | none =>
    rcases hx with rfl | hx
    · simp [enqueue]
    · by_cases hxt : x = t
      · simp [enqueue, hxt]
      · simpa [enqueue, hxt] using hx
  | some a =>
    obtain ⟨p, hp⟩ := Option.ne_none_iff_exists'.mp (ha a rfl)
    by_cases hxt : x = t <;> by_cases hxp : x = p <;> by_cases hxa : x = a <;>
      simp_all [enqueue]

theorem removed {n p t : T} (hn : k.next t = some n) (hp : k.prev t = some p) :
    LinkedRing.Removed k.nextOf k.prevOf ((k.setPrev n (some p)).setNext p (some n)).nextOf
      ((k.setPrev n (some p)).setNext p (some n)).prevOf t := by
  have hnt := nextOf_eq hn
  have hpt := prevOf_eq hp
  refine ⟨nextOf_eq ?_, prevOf_eq ?_, fun x hx => nextOf_congr ?_, fun x hx => prevOf_congr ?_⟩
  · simp [hnt, hpt]
  · simp [hnt, hpt]
  · rw [hpt] at hx
    simp [hx]
  · rw [hnt] at hx
    simp [hx]

end Links

section Queued

variable {headptr : Option T} {k : Links T} {l : List T} {t : T}

theorem queued_null : Queued (none : Option T) .null [] :=
  ⟨rfl, by simp, by simp, fun _ _ => ⟨rfl, rfl⟩⟩

theorem Queued.next_eq (h : Queued headptr k l) (ht : t ∈ l) : k.next t = some (k.nextOf t) := by
  obtain ⟨n, hn⟩ := Option.ne_none_iff_exists'.mp (h.linked t ht).1
  rw [nextOf_eq hn, hn]

theorem Queued.prev_eq (h : Queued headptr k l) (ht : t ∈ l) : k.prev t = some (k.prevOf t) := by
  obtain ⟨p, hp⟩ := Option.ne_none_iff_exists'.mp (h.linked t ht).2
  rw [prevOf_eq hp, hp]

theorem Queued.notMem (h : Queued headptr k l) (ht : k.next t = none) : t ∉ l :=
  fun hm => (h.linked t hm).1 ht

theorem Queued.nodup (h : Queued headptr k l) : l.Nodup := by
  cases l with
  | nil => exact List.nodup_nil
  | cons a u => exact (h.ring a u rfl).nodup

theorem Queued.unique {l' : List T} (h : Queued headptr k l) (h' : Queued headptr k l') : l = l' := by
  have hh : l.head? = l'.head? := h.head.symm.trans h'.head
  cases l with
  | nil => exact (List.head?_eq_none_iff.mp hh.symm).symm
  | cons a u =>
    cases l' with
    | nil => simp at hh
    | cons b v =>
      obtain rfl : a = b := by simpa using hh
      rw [LinkedRing.unique (h.ring a u rfl) (h'.ring a v rfl)]

theorem Queued.headptr_eq_none (h : Queued headptr k l) : headptr = none ↔ l = [] := by
  rw [h.head, List.head?_eq_none_iff]

variable [DecidableEq T]

theorem Queued.enqueue (h : Queued headptr k l) (ht : t ∉ l) :
    Queued (enqueue headptr k t).1 (enqueue headptr k t).2 (l ++ [t]) := by
  cases l with
  | nil =>
    rw [show headptr = none from h.head]
    refine ⟨rfl, fun a u heq => ?_, fun x hx => ?_, fun x hx => ?_⟩
    · obtain ⟨rfl, rfl⟩ := List.cons.inj heq
      refine ⟨by simp, nextOf_eq ?_, prevOf_eq ?_⟩ <;> simp [Sm.enqueue]
    · obtain rfl : x = t := by simpa using hx
      simp [Sm.enqueue]
    · have hxt : x ≠ t := by simpa using hx
      simpa [Sm.enqueue, hxt] using h.free x (by simp)
  | cons a u =>
    rw [show headptr = some a from h.head]
    have hring := h.ring a u rfl
    have hta : t ≠ a := by
      rintro rfl
      simp at ht
    -- the member that was last
    have hp := h.prev_eq (t := a) (by simp)
    have hpmem := hring.prev_mem (x := a) (by simp)
    have htp : t ≠ k.prevOf a := by
      intro heq
      rw [← heq] at hpmem
      exact ht hpmem
    have hnp : k.nextOf (k.prevOf a) = a := hring.next_prev (by simp)
    set p := k.prevOf a with hpdef
    have hins := inserted hp hnp hta htp
    have hk : Sm.enqueue (some a) k t =
        (some a, (((k.setNext t (some a)).setPrev t (some p)).setNext p (some t)).setPrev a (some t)) := by
      simp [Sm.enqueue, hp]
    rw [hk] at hins ⊢
    set k' := (((k.setNext t (some a)).setPrev t (some p)).setNext p (some t)).setPrev a (some t)
    refine ⟨by simp, fun b v heq => ?_, fun x hx => ?_, fun x hx => ?_⟩
    · obtain ⟨rfl, rfl⟩ := List.cons.inj heq
      rcases List.eq_nil_or_concat u with rfl | ⟨w, z, rfl⟩
      · have hpa : p = a := hring.path.2
        rw [hpa] at hins
        exact LinkedRing.insert_head hins hring ht
      · rw [List.concat_eq_append] at hring ht ⊢
        have hz : p = z := by
          rw [hpdef, hring.path.prev_eq]
          simp
        rw [hz] at hins
        simpa using LinkedRing.insert hins hring ht
    · rw [← congrArg Prod.snd hk]
      refine linked_enqueue (fun b hb => ?_) ?_
      · obtain rfl := Option.some.inj hb
        simp [hp]
      · rcases List.mem_append.mp hx with hx | hx
        · exact Or.inr (h.linked x hx)
        · exact Or.inl (List.mem_singleton.mp hx)
    · have hxl : x ∉ a :: u := fun hm => hx (List.mem_append_left _ hm)
      have hxt : x ≠ t := by
        rintro rfl
        simp at hx
      have hxa : x ≠ a := by
        rintro rfl
        simp at hxl
      have hxp : x ≠ p := by
        rintro rfl
        exact hxl hpmem
      simpa [k', hxa, hxt, hxp] using h.free x hxl

theorem Queued.dequeue_none (h : Queued headptr k l) (ht : t ∉ l) :
    dequeue headptr k (some t) = (false, headptr, k) := by
  simp [Sm.dequeue, (h.free t ht).1]

theorem Queued.dequeue_only (h : Queued headptr k l) (ht : t ∈ l) (htn : t = k.nextOf t) :
    (dequeue headptr k (some t)).1 = true ∧
      Queued (dequeue headptr k (some t)).2.1 (dequeue headptr k (some t)).2.2 (l.erase t) := by
  obtain ⟨a, u, rfl⟩ := List.exists_cons_of_ne_nil (List.ne_nil_of_mem ht)
  have hring := h.ring a u rfl
  have hd : Sm.dequeue headptr k (some t) = (true, none, (k.setNext t none).setPrev t none) := by
    simp [Sm.dequeue, h.next_eq ht, h.prev_eq ht, ← htn]
  obtain ⟨v, hv, hmem⟩ := hring.exists_of_mem ht
  have hvnil : v = [] := by
    cases v with
    | nil => rfl
    | cons y v =>
      have := hv.path.1.1
      rw [← htn] at this
      have hnd := hv.nodup
      rw [← this] at hnd
      simp at hnd
  have hl : a :: u = [t] := by
    have hall : ∀ x ∈ a :: u, x = t := by
      intro x hx
      have := (hmem x).mpr hx
      rw [hvnil] at this
      simpa using this
    obtain rfl := hall a (by simp)
    cases u with
    | nil => rfl
    | cons y u =>
      obtain rfl := hall y (by simp)
      have := hring.nodup
      simp at this
  rw [hd, hl]
  refine ⟨rfl, by simp, by simp, by simp, fun x hx => ?_⟩
  by_cases hxt : x = t
  · subst hxt
    simp
  · simpa [hxt] using h.free x (by rw [hl]; simpa using hxt)

theorem ring_erase {nx pv nx' pv' : T → T} {a b : T} {u v : List T} (hring : LinkedRing nx pv a u)
    (hrem : LinkedRing.Removed nx pv nx' pv' t) (ht : t ∈ a :: u) (heq : (a :: u).erase t = b :: v) :
    LinkedRing nx' pv' b v := by
  by_cases hta : t = a
  · subst hta
    rw [List.erase_cons_head] at heq
    subst heq
    exact LinkedRing.remove (u := v) (v := []) hrem
      (by simpa using hring.rotate (u := []) (b := b)) |> (by simpa using ·)
  · have hat : a ≠ t := fun heq => hta heq.symm
    have htu : t ∈ u := (List.mem_cons.mp ht).resolve_left hta
    obtain ⟨w, v', rfl⟩ := List.append_of_mem htu
    rw [List.erase_cons_tail (by simpa using hat)] at heq
    obtain ⟨rfl, rfl⟩ := List.cons.inj heq
    have htw : t ∉ w := by
      intro hm
      exact (List.nodup_append.mp (List.nodup_cons.mp hring.nodup).2).2.2 t hm t (by simp) rfl
    rw [List.erase_append_right _ htw, List.erase_cons_head]
    exact LinkedRing.remove hrem hring

theorem Queued.dequeue_other (h : Queued headptr k l) (ht : t ∈ l) (htn : t ≠ k.nextOf t) :
    (dequeue headptr k (some t)).1 = true ∧
      Queued (dequeue headptr k (some t)).2.1 (dequeue headptr k (some t)).2.2 (l.erase t) := by
  have hn := h.next_eq ht
  have hp := h.prev_eq ht
  set n := k.nextOf t with hndef
  set p := k.prevOf t with hpdef
  have hother : ∀ x, x ∉ l.erase t → x ≠ t → x ∉ l := by
    intro x hx hxt hm
    exact hx ((List.mem_erase_of_ne hxt).mpr hm)
  obtain ⟨a, u, rfl⟩ := List.exists_cons_of_ne_nil (List.ne_nil_of_mem ht)
  have hring := h.ring a u rfl
  set k' := (k.setPrev n (some p)).setNext p (some n)
  have hd : Sm.dequeue headptr k (some t) =
      (true, if some t = headptr then some n else headptr, (k'.setNext t none).setPrev t none) := by
    simp [Sm.dequeue, hn, hp, htn, k']
  have hrem : LinkedRing.Removed k.nextOf k.prevOf k'.nextOf k'.prevOf t := removed hn hp
  have hnmem : n ∈ a :: u := hring.next_mem ht
  have hpmem : p ∈ a :: u := hring.prev_mem ht
  -- what is left is linked as before, up to the two neighbours
  have hclear : ∀ b v, LinkedRing k'.nextOf k'.prevOf b v → t ∉ b :: v →
      LinkedRing ((k'.setNext t none).setPrev t none).nextOf
        ((k'.setNext t none).setPrev t none).prevOf b v := by
    intro b v hbv htbv
    have hne : ∀ x ∈ b :: v, x ≠ t := by
      rintro x hx rfl
      exact htbv hx
    exact hbv.congr (fun x hx => nextOf_congr (by simp [hne x hx]))
      (fun x hx => prevOf_congr (by simp [hne x hx]))
  have hnd := hring.nodup
  rw [hd]
  refine ⟨rfl, ?_, fun b v heq => ?_, fun x hx => ?_, fun x hx => ?_⟩
  · show (if some t = headptr then some n else headptr) = ((a :: u).erase t).head?
    rw [h.head]
    by_cases hta : t = a
    · subst hta
      cases u with
      | nil => exact absurd (hring.path.1.symm.trans hndef.symm) htn
      | cons b v =>
        have : n = b := hring.path.1.1
        simp [this]
    · have hat : a ≠ t := fun heq => hta heq.symm
      simp [hta, hat]
  · apply hclear
    · exact ring_erase hring hrem ht heq
    · rw [← heq]
      exact hnd.not_mem_erase
  · have hxt : x ≠ t := by
      rintro rfl
      exact hnd.not_mem_erase hx
    obtain ⟨h1, h2⟩ := h.linked x (List.mem_of_mem_erase hx)
    constructor
    · by_cases hxp : x = p
      · rw [hxp] at hxt
        simp [hxt, k', hxp]
      · simpa [hxt, k', hxp] using h1
    · by_cases hxn : x = n
      · rw [hxn] at hxt
        simp [hxt, k', hxn]
      · simpa [hxt, k', hxn] using h2
  · by_cases hxt : x = t
    · subst hxt
      simp
    · have hxl := hother x hx hxt
      have hxp : x ≠ p := by
        rintro rfl
        exact hxl hpmem
      have hxn : x ≠ n := by
        rintro rfl
        exact hxl hnmem
      simpa [hxt, k', hxp, hxn] using h.free x hxl

theorem Queued.dequeue (h : Queued headptr k l) (ht : t ∈ l) :
    (dequeue headptr k (some t)).1 = true ∧
      Queued (dequeue headptr k (some t)).2.1 (dequeue headptr k (some t)).2.2 (l.erase t) := by
  by_cases htn : t = k.nextOf t
  · exact h.dequeue_only ht htn
  · exact h.dequeue_other ht htn

theorem Queued.dequeue_head (hq : Queued headptr k (t :: l)) :
    headptr = some t ∧ ∃ h' k', Sm.dequeue headptr k headptr = (true, h', k') ∧ Queued h' k' l := by
  obtain ⟨h1, h2⟩ := hq.dequeue (t := t) (by simp)
  rw [List.erase_cons_head] at h2
  have hh : headptr = some t := hq.head
  subst hh
  exact ⟨rfl, _, _, by rw [← h1], h2⟩

end Queued

end Tukija.Sm
