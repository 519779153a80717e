import Tukija.Sm.Queue

/-! `Queue` over whole runs of operations: it is a list with the oldest member in
front. -/
namespace Tukija.Sm.Fifo

open Tukija.Lib.Ring

variable {T : Type} [DecidableEq T]

/-! ## The queue -/

structure Queue (T : Type) where
  headptr : Option T
  links : Links T

def Queue.empty : Queue T := ⟨none, .null⟩

/-- The loop of `Queue::for_each`, from `element` on: the elements that `fn` is called with. -/
def forEachLoop (q : Queue T) : Nat → T → Option (List T)
  | 0, _ => none
  | fuel + 1, element =>
    match q.links.next element with
    | none => some [element]
    | some n => if some n = q.headptr then some [element] else (forEachLoop q fuel n).map (element :: ·)

def forEach (fuel : Nat) (q : Queue T) : Option (List T) :=
  match q.headptr with
  | none => some []
  | some element => forEachLoop q fuel element

/-! ## Runs -/

/-- `dequeue` may be called with a null pointer. -/
inductive Op (T : Type) where
  | enqueue (t : T)
  | dequeue (t : Option T)

/-- An operation, with what it returns; `enqueue` is for elements whose pointers are null. -/
def Queue.apply (q : Queue T) : Op T → Option (Queue T × List Bool)
  | .enqueue t =>
    if q.links.next t = none ∧ q.links.prev t = none then
      let (headptr, links) := enqueue q.headptr q.links t
      some (⟨headptr, links⟩, [])
    else none
  | .dequeue t =>
    let (b, headptr, links) := dequeue q.headptr q.links t
    some (⟨headptr, links⟩, [b])

def listApply (l : List T) : Op T → Option (List T × List Bool)
  | .enqueue t => if t ∈ l then none else some (l ++ [t], [])
  | .dequeue none => some (l, [false])
  | .dequeue (some t) => if t ∈ l then some (l.erase t, [true]) else some (l, [false])

def run {σ : Type} (apply : σ → Op T → Option (σ × List Bool)) : σ → List (Op T) → Option (σ × List Bool)
  | s, [] => some (s, [])
  | s, op :: ops =>
    (apply s op).bind fun p => (run apply p.1 ops).map fun r => (r.1, p.2 ++ r.2)

/-- The queue is the list: its ring has the elements in this order, and `for_each`
visits them and ends. -/
structure Holds (q : Queue T) (l : List T) : Prop where
  queued : Queued q.headptr q.links l
  visits : ∀ fuel, forEach fuel q = if l.length ≤ fuel then some l else none

/-! ## The loop -/

theorem forEachLoop_eq {q : Queue T} {h a : T} {u : List T} (hh : q.headptr = some h)
    (hp : Path q.links.nextOf q.links.prevOf a u h) (hlinked : ∀ x ∈ a :: u, q.links.next x ≠ none)
    (hne : h ∉ u) (fuel : Nat) :
    forEachLoop q fuel a = if (a :: u).length ≤ fuel then some (a :: u) else none := by
  induction u generalizing a fuel with
  | nil =>
    cases fuel with
    | zero => rfl
    | succ fuel =>
      obtain ⟨n, hn⟩ := Option.ne_none_iff_exists'.mp (hlinked a (by simp))
      have hnh : n = h := (nextOf_eq hn).symm.trans hp.1
      simp [forEachLoop, hn, hnh, hh]
  | cons y u ih =>
    cases fuel with
    | zero => rfl
    | succ fuel =>
      obtain ⟨n, hn⟩ := Option.ne_none_iff_exists'.mp (hlinked a (by simp))
      have hny : n = y := (nextOf_eq hn).symm.trans hp.1.1
      have hyh : some y ≠ q.headptr := by
        intro heq
        rw [hh] at heq
        exact hne (Option.some.inj heq ▸ List.mem_cons_self)
      have hrest := ih hp.2 (fun x hx => hlinked x (List.mem_cons_of_mem _ hx))
        (fun hm => hne (List.mem_cons_of_mem _ hm)) fuel
      rw [forEachLoop, hn]
      simp only [hny, hyh, if_false, hrest, List.length_cons, Nat.add_le_add_iff_right]
      split_ifs <;> rfl

theorem holds_of_queued {q : Queue T} {l : List T} (h : Queued q.headptr q.links l) : Holds q l := by
  refine ⟨h, fun fuel => ?_⟩
  cases l with
  | nil => simp [forEach, h.head]
  | cons a u =>
    have hh : q.headptr = some a := h.head
    have hring := h.ring a u rfl
    rw [forEach, hh]
    exact forEachLoop_eq hh hring.path (fun x hx => (h.linked x hx).1) (List.nodup_cons.mp hring.nodup).1 fuel

/-! ## Refinement -/

/-- The same results, and the queue is the list. -/
def Agree (p : Queue T × List Bool) (r : List T × List Bool) : Prop := p.2 = r.2 ∧ Holds p.1 r.1

theorem Holds.unlinked_iff {q : Queue T} {l : List T} (h : Holds q l) (t : T) :
    q.links.next t = none ∧ q.links.prev t = none ↔ t ∉ l :=
  ⟨fun hn => h.queued.notMem hn.1, h.queued.free t⟩

theorem Holds.apply {q : Queue T} {l : List T} (h : Holds q l) (op : Op T) :
    Option.Rel Agree (q.apply op) (listApply l op) := by
  cases op with
  | enqueue t =>
    by_cases ht : t ∈ l
    · rw [Queue.apply, if_neg fun hn => (h.unlinked_iff t).mp hn ht, listApply, if_pos ht]
      exact .none
    · rw [Queue.apply, if_pos ((h.unlinked_iff t).mpr ht), listApply, if_neg ht]
      exact .some ⟨rfl, holds_of_queued (h.queued.enqueue ht)⟩
  | dequeue t =>
    cases t with
    | none => exact .some ⟨rfl, h⟩
    | some t =>
      by_cases ht : t ∈ l
      · obtain ⟨hb, hq⟩ := h.queued.dequeue ht
        rw [Queue.apply, listApply, if_pos ht]
        exact .some ⟨congrArg (fun b => [b]) hb, holds_of_queued hq⟩
      · rw [Queue.apply, listApply, if_neg ht, h.queued.dequeue_none ht]
        exact .some ⟨rfl, h⟩

theorem Holds.run {q : Queue T} {l : List T} (h : Holds q l) (ops : List (Op T)) :
    Option.Rel Agree (run Queue.apply q ops) (run listApply l ops) := by
  induction ops generalizing q l with
  | nil => exact .some ⟨rfl, h⟩
  | cons op ops ih =>
    have hop := h.apply op
    rw [Fifo.run, Fifo.run]
    generalize q.apply op = p at hop ⊢
    generalize listApply l op = r at hop ⊢
    cases hop with
    | none => exact .none
    | some hop =>
      rename_i p r
      have hops := ih hop.2
      rw [Option.bind_some, Option.bind_some]
      generalize Fifo.run Queue.apply p.1 ops = p' at hops ⊢
      generalize Fifo.run listApply r.1 ops = r' at hops ⊢
      cases hops with
      | none => exact .none
      | some hops => exact .some ⟨congrArg₂ (· ++ ·) hop.1 hops.1, hops.2⟩

/-- Every run of the queue is one of the list. -/
theorem queue_run (ops : List (Op T)) :
    Option.Rel Agree (run Queue.apply (.empty : Queue T) ops) (run listApply [] ops) :=
  (holds_of_queued queued_null).run ops

end Tukija.Sm.Fifo
