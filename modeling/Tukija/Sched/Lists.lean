import Tukija.Sched.State

/-! What the functions do to the lists.  `Placed` reads the lists off from the pointers. -/
namespace Tukija.Sched

open Tukija.Lib.Word Tukija.Lib.Ring Tukija.Sm

section Linked

variable {κ S : Type} {head : κ → Option S} {k : Links S} {l : κ → List S} {i : κ} {x : S}

structure Linked (head : κ → Option S) (k : Links S) (l : κ → List S) : Prop where
  rings : Rings head k.nextOf k.prevOf l
  linked : ∀ j, ∀ x ∈ l j, k.next x ≠ none ∧ k.prev x ≠ none

theorem Linked.congr {k' : Links S} (h : Linked head k l)
    (hk : ∀ j, ∀ x ∈ l j, k'.next x = k.next x ∧ k'.prev x = k.prev x) : Linked head k' l := by
  refine ⟨h.rings.congr ?_ ?_, fun j x hx => ?_⟩
  · rintro x ⟨j, hx⟩
    exact nextOf_congr (hk j x hx).1
  · rintro x ⟨j, hx⟩
    exact prevOf_congr (hk j x hx).2
  · rw [(hk j x hx).1, (hk j x hx).2]
    exact h.linked j x hx

variable [DecidableEq κ]

theorem Linked.front {u : List S} (h : Linked head k l) (hi : l i = u ++ [x]) :
    Linked (Function.update head i (some x)) k (Function.update l i (x :: u)) := by
  refine ⟨by simpa using h.rings.advance hi, fun j y hy => ?_⟩
  by_cases hj : j = i
  · subst hj
    rw [Function.update_self] at hy
    refine h.linked j y ?_
    rw [hi]
    simp only [List.mem_cons, List.mem_append, List.not_mem_nil, or_false] at hy ⊢
    exact hy.symm
  · rw [Function.update_of_ne hj] at hy
    exact h.linked j y hy

variable [DecidableEq S]

theorem Linked.enqueue (h : Linked head k l) (hx : ∀ j, x ∉ l j) :
    Linked (Function.update head i (enqueue (head i) k x).1) (enqueue (head i) k x).2
      (Function.update l i (l i ++ [x])) := by
  refine ⟨?_, fun j y hy => linked_enqueue (fun a ha => ?_) ?_⟩
  · cases hi : l i with
    | nil =>
      rw [h.rings.nil_of_head.mpr hi]
      refine h.rings.alone hi hx (nextOf_eq ?_) (prevOf_eq ?_) (fun y hy => nextOf_congr ?_)
        (fun y hy => prevOf_congr ?_)
      · simp [Sm.enqueue]
      · simp [Sm.enqueue]
      · simp [Sm.enqueue, hy]
      · simp [Sm.enqueue, hy]
    | cons a u =>
      have ha : a ∈ l i := by simp [hi]
      have hia : head i = some a := by rw [h.rings.head i, hi, List.head?_cons]
      obtain ⟨p, hp⟩ := Option.ne_none_iff_exists'.mp (h.linked i a ha).2
      have hpa := prevOf_eq hp
      have hnp := h.rings.next_prev ha
      rw [hpa] at hnp
      have hta : x ≠ a := fun e => hx i (e ▸ ha)
      have htp : x ≠ p := by
        rintro rfl
        exact hx i (hpa ▸ h.rings.prev_mem ha)
      have hins := inserted hp hnp hta htp
      rw [← hpa] at hins
      have := h.rings.append hi hins hx
      rw [hia]
      rwa [show (Sm.enqueue (some a) k x).1 = head i from hia.symm, Function.update_eq_self]
  · have ha : a ∈ l i := by
      obtain ⟨u, hu⟩ := h.rings.cons_of_head ha
      simp [hu]
    exact (h.linked i a ha).2
  · by_cases hj : j = i
    · subst hj
      rw [Function.update_self] at hy
      rcases List.mem_append.mp hy with hy | hy
      · exact Or.inr (h.linked j y hy)
      · exact Or.inl (List.mem_singleton.mp hy)
    · rw [Function.update_of_ne hj] at hy
      exact Or.inr (h.linked j y hy)

theorem unlink_eq {n p : S} (hn : k.next x = some n) (hp : k.prev x = some p) :
    unlink k x = (k.setPrev n (some p)).setNext p (some n) := by
  simp [unlink, hn, hp]

theorem Linked.unlink {u v : List S} (h : Linked head k l) (hi : l i = u ++ x :: v) {o : Option S}
    (ho : o = (u ++ v).head?) :
    Linked (Function.update head i o) (unlink k x) (Function.update l i (u ++ v)) := by
  have hx : x ∈ l i := by simp [hi]
  obtain ⟨n, hn⟩ := Option.ne_none_iff_exists'.mp (h.linked i x hx).1
  obtain ⟨p, hp⟩ := Option.ne_none_iff_exists'.mp (h.linked i x hx).2
  rw [unlink_eq hn hp]
  refine ⟨h.rings.remove hi (removed hn hp) ho, fun j y hy => ?_⟩
  have hy' : k.next y ≠ none ∧ k.prev y ≠ none := by
    by_cases hj : j = i
    · subst hj
      rw [Function.update_self] at hy
      refine h.linked j y ?_
      rw [hi]
      simp only [List.mem_append, List.mem_cons] at hy ⊢
      tauto
    · rw [Function.update_of_ne hj] at hy
      exact h.linked j y hy
  by_cases hyp : y = p <;> by_cases hyn : y = n <;> simp_all

end Linked

theorem Linked.unlink_next {κ S : Type} [DecidableEq S] {head : κ → Option S} {k : Links S}
    {l : κ → List S} {i : κ} {x : S} (h : Linked head k l) (hx : x ∈ l i) :
    (Sched.unlink k x).next x = k.next x := by
  obtain ⟨n, hn⟩ := Option.ne_none_iff_exists'.mp (h.linked i x hx).1
  obtain ⟨p, hp⟩ := Option.ne_none_iff_exists'.mp (h.linked i x hx).2
  rw [unlink_eq hn hp]
  by_cases hxp : x = p
  · have hnx := h.rings.next_prev hx
    rw [prevOf_eq hp, ← hxp, nextOf_eq hn] at hnx
    rw [hnx] at hn
    simp [← hxp, hnx, hn]
  · simp [hxp]

namespace Machine

variable {ι S E : Type} {s s' : Machine ι S E} {l : Slot ι → List S} {c : ι} {x : S} {p : Nat}
  {o : Option S}

/-- An SC belongs into the lists of its CPU, and into those of its priority. -/
def Fits (s : Machine ι S E) : Slot ι → S → Prop
  | .queue c, x => (s.sc x).cpu = c
  | .ready c p, x => (s.sc x).cpu = c ∧ (s.sc x).prio = p

/-- `l` are the lists. -/
structure Placed (s : Machine ι S E) (l : Slot ι → List S) : Prop where
  linked : Linked s.head s.links l
  fits : ∀ k, ∀ x ∈ l k, s.Fits k x

/-- What no function but `xcpu_clone` changes. -/
def Same (s s' : Machine ι S E) : Prop :=
  ∀ x, (s'.sc x).cpu = (s.sc x).cpu ∧ (s'.sc x).prio = (s.sc x).prio

theorem Same.fits (h : Same s s') {k : Slot ι} (hf : s.Fits k x) : s'.Fits k x := by
  cases k with
  | queue c => exact (h x).1.trans hf
  | ready c p => exact ⟨(h x).1.trans hf.1, (h x).2.trans hf.2⟩

theorem Placed.inList_iff (h : s.Placed l) {k : Slot ι} : s.InList k x ↔ x ∈ l k :=
  h.linked.rings.reached_iff

theorem Placed.unique {l' : Slot ι → List S} (h : s.Placed l) (h' : s.Placed l') : l = l' :=
  h.linked.rings.unique h'.linked.rings

theorem Placed.congr (h : s.Placed l) (hh : s'.head = s.head)
    (hk : ∀ j, ∀ x ∈ l j, s'.links.next x = s.links.next x ∧ s'.links.prev x = s.links.prev x)
    (hf : ∀ k, ∀ x ∈ l k, s.Fits k x → s'.Fits k x) : s'.Placed l := by
  refine ⟨?_, fun k x hx => hf k x hx (h.fits k x hx)⟩
  rw [hh]
  exact h.linked.congr hk

theorem head_same (hl : ∀ j, (s'.cpu j).list = (s.cpu j).list)
    (hq : ∀ j, (s'.cpu j).queue = (s.cpu j).queue)
    (hh : ∀ j, (s'.cpu j).handler = (s.cpu j).handler) : s'.head = s.head := by
  funext k
  cases k with
  | queue j => simp only [head, hh, hq]
  | ready j q => simp only [head, hl]

theorem Placed.note (h : s.Placed l) (e : Event ι S) : (s.note e).Placed l :=
  h.congr rfl (fun _ _ _ => ⟨rfl, rfl⟩) (fun _ _ _ hf => hf)

section References

variable [DecidableEq S]

theorem addRef_eq {b : Bool} (h : s.addRef x b = some s') :
    ∃ r, s' = s.putSc x { s.sc x with ref := r } := by
  unfold addRef at h
  split at h
  · split at h
    · cases h
    · exact ⟨_, (Option.some.inj h).symm⟩
  · refine ⟨(s.sc x).ref, ?_⟩
    obtain rfl := Option.some.inj h
    simp [putSc]

theorem drop_eq (s : Machine ι S E) (x : S) :
    s.drop x = (s.putSc x { s.sc x with ref := if (s.sc x).ref = 1 then 1 else (s.sc x).ref - 1 })
      ∧ (s.sc x).ref ≠ 1 ∨ s.drop x = s.note (.call x) ∧ (s.sc x).ref = 1 := by
  unfold drop
  by_cases h1 : (s.sc x).ref = 1
  · exact Or.inr ⟨by rw [if_pos h1], h1⟩
  · have h0 : (s.sc x).ref - 1 ≠ 0 := by
      intro h0
      exact h1 (sub_eq_zero.mp h0)
    refine Or.inl ⟨?_, h1⟩
    rw [if_neg h1, if_neg h0, if_neg h1]

theorem same_of_update {v : Sc ι E} (hs : s'.sc = Function.update s.sc x v)
    (hc : v.cpu = (s.sc x).cpu) (hp : v.prio = (s.sc x).prio) : Same s s' := by
  intro y
  rw [hs]
  by_cases hy : y = x
  · subst hy
    simp [hc, hp]
  · simp [hy]

theorem Placed.putSc (h : s.Placed l) {v : Sc ι E} (hc : v.cpu = (s.sc x).cpu)
    (hp : v.prio = (s.sc x).prio) : (s.putSc x v).Placed l :=
  h.congr rfl (fun _ _ _ => ⟨rfl, rfl⟩) (fun _ _ _ hf => (same_of_update rfl hc hp).fits hf)

theorem Placed.drop (h : s.Placed l) (x : S) : (s.drop x).Placed l := by
  rcases s.drop_eq x with ⟨he, -⟩ | ⟨he, -⟩
  · rw [he]
    exact h.putSc rfl rfl
  · rw [he]
    exact h.note _

end References

variable [DecidableEq ι]

theorem Placed.update (h : s.Placed l) {i : Slot ι} {m : List S}
    (hL : Linked s'.head s'.links (Function.update l i m)) (hs : Same s s')
    (hm : ∀ x ∈ m, s.Fits i x) : s'.Placed (Function.update l i m) := by
  refine ⟨hL, fun k x hx => hs.fits ?_⟩
  by_cases hk : k = i
  · subst hk
    rw [Function.update_self] at hx
    exact hm x hx
  · rw [Function.update_of_ne hk] at hx
    exact h.fits k x hx

theorem head_ready (hc : ∀ j, j ≠ c → s'.cpu j = s.cpu j) (hq : (s'.cpu c).queue = (s.cpu c).queue)
    (hh : (s'.cpu c).handler = (s.cpu c).handler)
    (hl : (s'.cpu c).list = Function.update (s.cpu c).list p o) :
    s'.head = Function.update s.head (.ready c p) o := by
  funext k
  cases k with
  | queue j =>
    rw [Function.update_of_ne (by simp)]
    by_cases hj : j = c
    · subst hj
      simp only [head, hh, hq]
    · simp only [head, hc j hj]
  | ready j q =>
    by_cases hj : j = c
    · subst hj
      by_cases hqp : q = p
      · subst hqp
        rw [Function.update_self]
        simp only [head, hl, Function.update_self]
      · rw [Function.update_of_ne (by simpa using hqp)]
        simp only [head, hl, Function.update_of_ne hqp]
    · rw [Function.update_of_ne (by simp [hj])]
      simp only [head, hc j hj]

theorem head_queue (hc : ∀ j, j ≠ c → s'.cpu j = s.cpu j) (hl : (s'.cpu c).list = (s.cpu c).list)
    (ho : s'.head (.queue c) = o) : s'.head = Function.update s.head (.queue c) o := by
  funext k
  cases k with
  | queue j =>
    by_cases hj : j = c
    · subst hj
      rw [Function.update_self, ho]
    · rw [Function.update_of_ne (by simpa using hj)]
      simp only [head, hc j hj]
  | ready j q =>
    rw [Function.update_of_ne (by simp)]
    by_cases hj : j = c
    · subst hj
      simp only [head, hl]
    · simp only [head, hc j hj]

variable [DecidableEq S]

/-- Where a new SC of its priority goes: to the end, or to the front with `use_left`. -/
def queued (s : Machine ι S E) (x : S) (useLeft : Bool) (m : List S) : List S :=
  if s.front x useLeft then x :: m else m ++ [x]

theorem Placed.link (h : s.Placed l) (hx : ∀ k, x ∉ l k) (hc : (s.sc x).cpu = c) (t : Mword)
    (useLeft : Bool) :
    (s.link c x t useLeft).Placed (Function.update l (.ready c (s.sc x).prio)
      (s.queued x useLeft (l (.ready c (s.sc x).prio)))) := by
  set i := Slot.ready c (s.sc x).prio with hi
  have henq := h.linked.enqueue (i := i) hx
  have hhead : (s.link c x t useLeft).head = Function.update s.head i
      (if (s.head i).isSome && s.front x useLeft then some x else (enqueue (s.head i) s.links x).1) := by
    refine head_ready (fun j hj => ?_) ?_ ?_ ?_
    · simp [Machine.link, putLinks, hj]
    · simp [Machine.link]
    · simp [Machine.link]
    · simp [Machine.link, head, hi]
  have hsc : (s.link c x t useLeft).sc = Function.update s.sc x
      { s.sc x with left := if (s.sc x).left = 0 then (s.sc x).budget else (s.sc x).left, tsc := t } := rfl
  refine h.update ?_ (same_of_update hsc rfl rfl) (fun y hy => ?_)
  · rw [hhead]
    have hk : (s.link c x t useLeft).links = (enqueue (s.head i) s.links x).2 := rfl
    rw [hk]
    by_cases hf : s.front x useLeft = true
    · have := henq.front (i := i) (by rw [Function.update_self])
      rw [Function.update_idem, Function.update_idem] at this
      have hsome : (if (s.head i).isSome && s.front x useLeft then some x
          else (enqueue (s.head i) s.links x).1) = some x := by
        cases hh : s.head i with
        | none => simp [Sm.enqueue]
        | some a => simp [hf]
      rw [hsome]
      simpa [queued, hf] using this
    · simpa [queued, hf] using henq
  · have hyx : y = x ∨ y ∈ l i := by
      unfold queued at hy
      split at hy
      · exact List.mem_cons.mp hy
      · exact (List.mem_append.mp hy).symm.imp_left List.mem_singleton.mp
    rcases hyx with rfl | hyl
    · exact ⟨hc, rfl⟩
    · exact h.fits i y hyl

theorem link_log (t : Mword) (useLeft : Bool) :
    (s.link c x t useLeft).log = s.log ++ [.ready c x (s.front x useLeft)] := rfl

variable [DecidableEq E]

theorem Placed.readyDequeue (h : s.Placed l) {u v : List S}
    (hx : l (.ready c (s.sc x).prio) = u ++ x :: v) (t : Mword) :
    (s.readyDequeue c x t).Placed (Function.update l (.ready c (s.sc x).prio) (u ++ v)) := by
  set i := Slot.ready c (s.sc x).prio with hi
  have hmem : x ∈ l i := by simp [hx]
  obtain ⟨n, hn⟩ := Option.ne_none_iff_exists'.mp (h.linked.linked i x hmem).1
  obtain ⟨p, hp⟩ := Option.ne_none_iff_exists'.mp (h.linked.linked i x hmem).2
  have hnd := h.linked.rings.nodup i
  rw [hx] at hnd
  have hxuv : x ∉ u ++ v := (List.nodup_middle.mp hnd).notMem
  -- the head of the list afterwards
  have ho : (if s.head i = some x then (if n = x then none else some n) else s.head i)
      = (u ++ v).head? := by
    rw [h.linked.rings.head i, hx]
    cases u with
    | nil =>
      have := h.linked.rings.head_next hx
      rw [nextOf_eq hn] at this
      simpa using this
    | cons a u =>
      have hax : a ≠ x := by
        rintro rfl
        simp at hxuv
      simp [hax]
  have hunl := h.linked.unlink hx ho
  have hhead : (s.readyDequeue c x t).head = Function.update s.head i
      (if s.head i = some x then (if n = x then none else some n) else s.head i) := by
    refine head_ready (fun j hj => ?_) ?_ ?_ ?_
    · simp [Machine.readyDequeue, hn, hp, putLinks, putEc, hj]
    · simp [Machine.readyDequeue, hn, hp, putEc, putLinks]
    · simp [Machine.readyDequeue, hn, hp, putEc, putLinks]
    · by_cases hh : (s.cpu c).list (s.sc x).prio = some x <;>
        simp [Machine.readyDequeue, hn, hp, putEc, putLinks, head, hi, hh]
  have hk : (s.readyDequeue c x t).links =
      ((unlink s.links x).setPrev x none).setNext x none := by
    simp [Machine.readyDequeue, hn, hp, putEc, putLinks]
  have hsc : (s.readyDequeue c x t).sc = Function.update s.sc x { s.sc x with tsc := t } := by
    simp [Machine.readyDequeue, hn, hp, putEc, putLinks]
  refine h.update ?_ (same_of_update hsc rfl rfl) (fun y hy => ?_)
  · rw [hhead, hk]
    refine hunl.congr (fun j y hy => ?_)
    have hyx : y ≠ x := by
      rintro rfl
      by_cases hj : j = i
      · subst hj
        rw [Function.update_self] at hy
        exact hxuv hy
      · rw [Function.update_of_ne hj] at hy
        exact hj (h.linked.rings.apart j i y hy hmem)
    simp [hyx]
  · refine h.fits i y ?_
    rw [hx]
    simp only [List.mem_append, List.mem_cons] at hy ⊢
    tauto

end Machine

end Tukija.Sched
