import Tukija.Core.Effect
import Tukija.Core.System
import Tukija.Lib.Rely

/-! Outlines of the allocator's functions on a frame: something about the memory
that a CPU knows from one end of a call to the other. -/
namespace Tukija.Core

open Tukija.Lib.Threads

/-- An access that neither gives a CPU away nor enters one into a set of new or
current CPUs, nor takes one off. -/
def Plain {β : Type} (i : Instr β) : Prop :=
  match i with
  | .occupy _ _ | .setCurrent _ _ | .idleSet _ | .idleClr _ => False
  | .coresSet _ .new _ | .coresSet _ .current _ => False
  | .coresClr _ .new _ | .coresClr _ .current _ => False
  | .enqueue _ _ | .dequeue _ _ _ | .create _ | .setToBeDestroyed _ => False
  | .freeCip _ | .freeCell _ => False
  | _ => True

/-- The CPU whose holder the code has just looked at or set, and acts on, when
the access is its next one. -/
def Access.grips {β : Type} (a : Access β) (controls : Bool) : Option Cpu :=
  match a.place, a.instr with
  | .occupy k, .occupy _ _ => if controls then some k else none
  | .borrowed k, _ => if controls then some k else none
  | .occupy k, _ => some k
  | .returnCore k, _ => some k
  | .release k, _ => some k
  | .wakeCore k, _ => some k
  | .transfer k, _ => some k
  | _, _ => none

def Instr.moves {β : Type} : Instr β → Prop
  | .setCurrent _ _ => True
  | _ => False

theorem Instr.not_moves_of_enters {β : Type} {i : Instr β} {x : CellId × CoreSet × Cpu}
    (h : i.enters = some x) : ¬i.moves := by
  cases i with
  | setCurrent k v => cases h
  | _ => exact id

theorem Instr.held_of_current {β : Type} {i : Instr β} {s : State} {k : Cpu} {c : CellId}
    (hi : ¬i.moves) (h : s.current k = some c) : i.held s k = some c := by
  cases i with
  | setCurrent j v => exact (hi trivial).elim
  | occupy j o => simp [Instr.held, h]
  | _ => exact h

structure Aim (X : Type) where
  ok : {β : Type} → Access β → State → Prop
  bad : X → State → Prop

abbrev Aim.goal {X : Type} (g : Aim X) : Goal Access State X := ⟨Access.run, g.ok, g.bad⟩

section Frame

variable {X : Type} (g : Aim X) (w : Terms Access State)

/-- `F` is stable, and plain accesses keep it. -/
structure Frame (F : State → Prop) : Prop where
  stable : ∀ {β : Type} (a : Access β) (s s' : State), F s → w.rely a s s' → F s'
  plain : ∀ {β : Type} (a : Access β), Plain a.instr → ∀ s, F s → w.own a s →
    g.ok a s ∧ F (a.run s).2 ∧ ∀ x, g.bad x (a.run s).2 → g.bad x s

/-- From `A` and the debts `D` to `Q` and the debts `D'`. -/
abbrev Outline {α : Type} (A : State → Prop) (D : Set X) (p : Code α) (Q : α → State → Prop)
    (D' : Set X) : Prop :=
  p.Sat g.goal w Q D' A D

/-- The code starts and ends with `F`, and without debts. -/
def Keeps (F : State → Prop) {α : Type} (p : Code α) : Prop := Outline g w F ∅ p (fun _ => F) ∅

variable {g w} {F : State → Prop} {α β : Type} {D D' : Set X}

theorem Keeps.pure (a : α) : Keeps g w F (Pure.pure a : Code α) := ⟨fun _ h => h, subset_rfl⟩

theorem Keeps.fault (e : Fault) : Keeps g w F (.fault e : Code α) := trivial

theorem Keeps.bind {p : Code α} {f : α → Code β} (h : Keeps g w F p) (hf : ∀ a, Keeps g w F (f a)) :
    Keeps g w F (p >>= f) :=
  Prog.Sat.bind h hf

theorem Keeps.deref (e : Fault) (o : Option CellId) : Keeps g w F (deref e o) := by
  cases o with
  | none => exact .fault e
  | some c => exact .pure c

theorem Keeps.each {l : List α} {f : α → Code Unit} (hf : ∀ x ∈ l, Keeps g w F (f x)) :
    Keeps g w F (each l f) := by
  induction l with
  | nil => exact .pure ()
  | cons x l ih => exact (hf x (by simp)).bind fun _ => ih fun y hy => hf y (by simp [hy])

theorem Keeps.eachUntil {quantity : Nat} {f : Cpu → Code Bool} (hf : ∀ j, Keeps g w F (f j))
    (l : List Cpu) (n : Nat) : Keeps g w F (eachUntil quantity f l n) := by
  induction l generalizing n with
  | nil => exact .pure n
  | cons j l ih =>
    unfold Core.eachUntil
    split
    · exact .pure n
    · exact (hf j).bind fun ok => ih _

variable (hF : Frame g w F)

include hF

theorem Frame.step {pl : Place} {i : Instr α} {f : α → Code β} {Q : β → State → Prop} (hi : Plain i)
    (hf : ∀ v, Outline g w F D (f v) Q D') : Outline g w F D (op pl i >>= f) Q D' := by
  refine Prog.Sat.next (B := fun _ => F) (R := fun _ => D) (hF.stable _) ?_ ?_ ?_ hf
  · exact fun s hs ho => (hF.plain ⟨pl, i⟩ hi s hs ho).1
  · exact fun s hs ho => (hF.plain ⟨pl, i⟩ hi s hs ho).2.1
  · intro s hs ho x hx
    by_cases hx' : x ∈ D
    · exact .inl hx'
    · exact .inr ⟨(hF.plain ⟨pl, i⟩ hi s hs ho).2.2 x hx, hx'⟩

theorem Frame.next {pl : Place} {i : Instr α} {f : α → Code β} (hi : Plain i)
    (hf : ∀ v, Keeps g w F (f v)) : Keeps g w F (op pl i >>= f) :=
  hF.step hi hf

theorem Frame.op {pl : Place} {i : Instr α} (hi : Plain i) : Keeps g w F (op pl i) :=
  hF.next (f := Pure.pure) hi .pure

theorem Frame.readCurrent {pl : Place} {k : Cpu} {f : Option CellId → Code β} {Q : β → State → Prop}
    (hf : ∀ v, Outline g w (fun s => F s ∧ s.current k = v) D (f v) Q D') :
    Outline g w F D (Core.op pl (.current k) >>= f) Q D' := by
  refine Prog.Sat.next (B := fun v s => F s ∧ s.current k = v) (R := fun _ => D) (hF.stable _)
    ?_ ?_ ?_ hf
  · exact fun s hs ho => (hF.plain ⟨pl, .current k⟩ trivial s hs ho).1
  · exact fun s hs _ => ⟨hs, rfl⟩
  · intro s hs _ x hx
    by_cases hx' : x ∈ D
    · exact .inl hx'
    · exact .inr ⟨hx, hx'⟩

theorem keeps_readCores (pl : Place) (c : CellId) (t : CoreSet) (l : List (Fin 4)) :
    Keeps g w F (readCores pl c t l) := by
  induction l with
  | nil => exact .pure []
  | cons i l ih => exact hF.next trivial fun v => ih.bind fun ls => .pure _

theorem keeps_sleepEach (c : CellId) (j : Cpu) (l : List Nat) :
    Keeps g w F (Cell.sleepEach c j l) := by
  induction l with
  | nil => exact .pure ()
  | cons i l ih =>
    refine hF.next trivial fun asleep => ?_
    split
    · exact .pure ()
    · exact ih

theorem keeps_borrowed (j : Cpu) : Keeps g w F (Resource.borrowed j) := by
  refine hF.next trivial fun o => hF.next trivial fun c => ?_
  split
  · exact .pure false
  · exact hF.next trivial fun c => .pure _

theorem keeps_await (j : Cpu) (borrower : Option CellId) (n : Nat) :
    Keeps g w F (Resource.await j borrower n) := by
  induction n with
  | zero => cases borrower <;> exact .pure ()
  | succ n ih =>
    cases borrower with
    | none => exact .pure ()
    | some c =>
      refine hF.next trivial fun v => ?_
      split
      · exact ih
      · exact .pure ()

section Callers

variable {me : Option CellId} (hocc : ∀ k o, Keeps g w F (Resource.occupy k o))
variable (hforget : ∀ k b, Keeps g w F (Resource.forget k b))
variable (hret : ∀ k, Keeps g w F (Resource.returnCore k me))
variable (hwake : ∀ k d, Outline g w (fun s => F s ∧ s.current k = some d) ∅ (Cell.wakeCore d k)
  (fun _ => F) ∅)

include hocc hforget hret

theorem keeps_handleHazard (j : Cpu) (patience : Nat) :
    Keeps g w F (Allocator.handleHazard j patience me) := by
  refine hF.next trivial fun v => ?_
  split
  · refine hF.next trivial fun v => hF.next trivial fun _ => hF.next trivial fun borrower => ?_
    refine (keeps_await hF j borrower patience).bind fun _ => hF.next trivial fun o => ?_
    refine (hocc j o).bind fun ok => ?_
    split
    · exact (hforget j borrower).bind fun _ => .pure true
    · exact (Keeps.deref _ o).bind fun c => hF.next trivial fun _ => .pure false
  · split
    · refine hF.next trivial fun v => hF.next trivial fun _ => ?_
      exact (hret j).bind fun _ => .pure true
    · exact .pure false

theorem keeps_cellReturnCore (c : CellId) (j : Cpu) (patience : Nat) :
    Keeps g w F (Cell.returnCore c j patience me) := by
  refine hF.next trivial fun n => ?_
  split
  · refine hF.next trivial fun ok => ?_
    split
    · exact .pure true
    · refine hF.next trivial fun v => hF.next trivial fun _ => ?_
      exact keeps_handleHazard hF hocc hforget hret j patience
  · exact (hret j).bind fun _ => .pure true

include hwake

theorem keeps_reclaim (j : Cpu) (patience : Nat) :
    Keeps g w F (Resource.reclaim j patience me) := by
  have hgiveUp : Keeps g w F (do
      let owner ← deref .nullOwner (← op (.reclaim j) (.owner j))
      op (.reclaim j) (.coresClr owner .reclaimed j)
      pure false) :=
    hF.next trivial fun o => (Keeps.deref _ o).bind fun c => hF.next trivial fun _ => .pure false
  refine hF.next trivial fun _ => hF.next trivial fun o => (Keeps.deref _ o).bind fun c => ?_
  refine hF.next trivial fun _ => hF.next trivial fun o => (hocc j o).bind fun ok => ?_
  split
  · refine hF.readCurrent fun v => ?_
    cases v with
    | none => trivial
    | some d =>
      rw [deref_some_bind]
      exact Prog.Sat.bind (hwake j d) fun _ => ⟨fun _ h => h, subset_rfl⟩
  · refine hF.next trivial fun borrower => hF.next trivial fun o => ?_
    cases borrower with
    | none => exact hgiveUp
    | some c =>
      by_cases hne : some c ≠ o
      · simp only [if_pos hne]
        exact keeps_cellReturnCore hF hocc hforget hret c j patience
      · simp only [if_neg hne]
        exact hgiveUp

theorem keeps_reclaimLent (patience : Cpu → Nat) (j : Cpu) :
    Keeps g w F (Allocator.reclaimLent patience me j) := by
  refine (keeps_borrowed hF j).bind fun lent => ?_
  split
  · exact keeps_reclaim hF hocc hforget hret hwake j (patience j)
  · exact .pure false

omit hforget hret hwake in
theorem keeps_borrowIdle (quantity : Nat) (c : CellId) (l : List (Fin 4)) (n : Nat) :
    Keeps g w F (Allocator.borrowIdle quantity c l n) := by
  induction l generalizing n with
  | nil => exact .pure n
  | cons i l ih =>
    unfold Allocator.borrowIdle
    split
    · exact .pure n
    · refine hF.next trivial fun idle => Keeps.bind ?_ ih
      exact .eachUntil (fun j => hocc j (some c)) idle n

theorem keeps_allocCleared (quantity : Nat) (c : CellId) (patience : Cpu → Nat) : Keeps g w F (do
    let reserved ← readCores .alloc c .reserved words
    let current ← readCores .alloc c .current words
    let reserved := reserved.filter (· ∉ current)
    let n ← eachUntil quantity (fun k => Resource.occupy k (some c)) reserved 0
    if n = quantity then pure n
    else do
      let n ← Allocator.borrowIdle quantity c words n
      if n = quantity then pure n
      else eachUntil quantity (Allocator.reclaimLent patience me) reserved n) := by
  refine (keeps_readCores hF _ c _ words).bind fun reserved => ?_
  refine (keeps_readCores hF _ c _ words).bind fun current => ?_
  refine Keeps.bind (.eachUntil (fun j => hocc j (some c)) _ 0) fun n => ?_
  split
  · exact .pure n
  · refine (keeps_borrowIdle hF hocc quantity c words n).bind fun n => ?_
    split
    · exact .pure n
    · exact .eachUntil (keeps_reclaimLent hF hocc hforget hret hwake patience) _ n

end Callers

end Frame

end Tukija.Core
