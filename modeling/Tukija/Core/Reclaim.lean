import Tukija.Core.Effect
import Tukija.Core.System

/-! A yield request that has been filed.  From then on the CPU leaves the
borrower for its owner, unless the borrower was about to give it up when the
request came. -/
namespace Tukija.Core

open Tukija.Lib.Threads

namespace Machine

/-- The cell and the CPU of a yield request that `e` files: the last access of a
`reclaim` that returns true and leaves the CPU with its borrower. -/
def filing (m : Machine) : Step → Option (CellId × Cpu)
  | .start _ _ => none
  | .access i =>
    match m.thread i with
    | .step ⟨_, .casFlag b k⟩ _ => if m.mem.flag b k = 0 then some (b, k) else none
    | _ => none

/-- The cell and the CPU of a `Cell::return_core` that `e` begins. -/
def asking (m : Machine) : Step → Option (CellId × Cpu)
  | .start _ _ => none
  | .access i =>
    match m.thread i with
    | .step ⟨.cellReturnCore _, .workers c k⟩ _ => some (c, k)
    | _ => none

/-- A request is filed with the holder, while the CPU is not in a `release` and
no other CPU is in a `return_core` for it; and the holder it is that is asked,
if that cell has no worker to answer. -/
structure Orderly (m : Machine) (e : Step) : Prop where
  holder : ∀ b k, m.filing e = some (b, k) → m.mem.current k = some b
  release : ∀ b k, m.filing e = some (b, k) → m.place k ≠ some (.release k)
  returnCore : ∀ b k, m.filing e = some (b, k) → ∀ j, j ≠ k → m.place j ≠ some (.returnCore k)
  workers : ∀ c k, m.asking e = some (c, k) → m.mem.workers c k = [] → m.mem.current k = some c

theorem orderly_iff (m : Machine) (e : Step) :
    m.Orderly e ↔
      (∀ x ∈ m.filing e, m.mem.current x.2 = some x.1 ∧ m.place x.2 ≠ some (.release x.2) ∧
        ∀ j, j ≠ x.2 → m.place j ≠ some (.returnCore x.2)) ∧
      ∀ x ∈ m.asking e, m.mem.workers x.1 x.2 = [] → m.mem.current x.2 = some x.1 := by
  constructor
  · intro h
    exact ⟨fun x hx => ⟨h.holder _ _ hx, h.release _ _ hx, h.returnCore _ _ hx⟩,
      fun x hx => h.workers _ _ hx⟩
  · rintro ⟨hfile, hask⟩
    exact ⟨fun b k h => (hfile (b, k) h).1, fun b k h => (hfile (b, k) h).2.1,
      fun b k h => (hfile (b, k) h).2.2, fun c k h => hask (c, k) h⟩

instance (m : Machine) (e : Step) : Decidable (m.Orderly e) :=
  decidable_of_iff _ (m.orderly_iff e).symm

end Machine

section Answers

variable (own : Cpu → Option CellId) (len : CellId → Cpu → Nat)

/-- Neither owners nor workers change, and no reclaim hazard is set. -/
structure Base (s : State) : Prop where
  owner : ∀ k, s.owner k = own k
  workers : ∀ c k, (s.workers c k).length = len c k
  hazards : ∀ k, (s.resources k).hazards = 0 ∨ (s.resources k).hazards = Allocator.hzdYield

def base {β : Type} (a : Access β) (v : β) : Prop :=
  match a.instr, v with
  | .owner k, v => v = own k
  | .workers c k, v => v = len c k
  | .hazards _, v => v = 0 ∨ v = Allocator.hzdYield
  | _, _ => True

/-- An access that keeps `Base`, and that asks no cell but a borrower that has
workers. -/
def legal {β : Type} (a : Access β) : Prop :=
  match a.instr with
  | .confer _ _ => False
  | .enqueue _ _ => False
  | .dequeue _ _ _ => False
  | .create _ => False
  | .setHazards _ v => v = 0 ∨ v = Allocator.hzdYield
  | .casFlag c k => own k ≠ some c ∧ len c k ≠ 0
  | _ => True

variable {own len}

theorem base_run {s : State} (h : Base own len s) {β : Type} (a : Access β) :
    base own len a (a.run s).1 := by
  obtain ⟨p, i⟩ := a
  cases i <;> first
    | exact h.owner _
    | exact h.workers _ _
    | exact h.hazards _
    | trivial

theorem legal_base {s : State} (h : Base own len s) {β : Type} {a : Access β}
    (ha : legal own len a) : Base own len (a.run s).2 := by
  obtain ⟨p, i⟩ := a
  refine ⟨fun k => ?_, fun c k => ?_, fun k => ?_⟩
  · rw [Access.run_owner, ← h.owner k]
    cases i with
    | confer j c => exact ha.elim
    | _ => rfl
  · rw [Access.run_workers, ← h.workers c k]
    cases i with
    | enqueue | dequeue | create => exact ha.elim
    | up d j n | dn d j n =>
      simp only [Instr.manned]
      split <;> simp
    | _ => rfl
  · rw [Access.run_hazards]
    cases i with
    | setHazards j v =>
      simp only [Instr.risked]
      split
      · exact ha
      · exact h.hazards k
    | _ => exact h.hazards k

end Answers

section Filed

variable (own : Cpu → Option CellId) (len : CellId → Cpu → Nat) (b : CellId) (k : Cpu)

/-- The answers while the request is pending: a cell that is asked for the CPU
has workers there. -/
def asked {β : Type} (a : Access β) (v : β) : Prop :=
  base own len a v ∧
    match a.place, a.instr, v with
    | .cellReturnCore _, .workers _ j, v => j = k → v ≠ 0
    | _, _, _ => True

/-- The answers on the CPU itself, which sees the borrower and the request. -/
def pending {β : Type} (a : Access β) (v : β) : Prop :=
  asked own len k a v ∧
    match a.instr, v with
    | .current j, v => j = k → v = some b
    | .flag c j, v => c = b ∧ j = k → v = 1
    | _, _ => True

/-- The access takes neither the CPU nor the request from the borrower. -/
def mild {β : Type} (a : Access β) : Prop :=
  legal own len a ∧
    match a.instr with
    | .setCurrent j _ => j ≠ k
    | .setFlag c j _ => ¬(c = b ∧ j = k)
    | _ => True

/-- The access does not take the CPU from the borrower. -/
def keeps {β : Type} (a : Access β) : Prop :=
  legal own len a ∧
    match a.instr with
    | .setCurrent j _ => j ≠ k
    | _ => True

def restores {β : Type} (a : Access β) : Prop :=
  match a.instr with
  | .setCurrent j v => j = k ∧ v = own k
  | _ => False

variable {own len b k}

theorem mild_keeps {β : Type} {a : Access β} (ha : mild own len b k a) : keeps own len k a := by
  obtain ⟨hl, h⟩ := ha
  refine ⟨hl, ?_⟩
  obtain ⟨p, i⟩ := a
  cases i with
  | setCurrent j v => exact h
  | _ => trivial

theorem keeps_current {s : State} (hs : s.current k = some b) {β : Type} {a : Access β}
    (ha : keeps own len k a) : (a.run s).2.current k = some b := by
  obtain ⟨p, i⟩ := a
  rw [Access.run_current]
  cases i with
  | occupy j c => simp [Instr.held, hs]
  | setCurrent j v => simp [Instr.held, hs, ha.2.symm]
  | _ => exact hs

theorem mild_flag {s : State} (hs : s.flag b k = 1) {β : Type} {a : Access β}
    (ha : mild own len b k a) : (a.run s).2.flag b k = 1 := by
  obtain ⟨p, i⟩ := a
  rw [Access.run_flag]
  cases i with
  | create c => exact ha.1.elim
  | casFlag c j => simp [Instr.flagged, hs]
  | setFlag c j v =>
    have hne : ¬(b = c ∧ k = j) := fun h => ha.2 ⟨h.1.symm, h.2.symm⟩
    simp [Instr.flagged, hs, hne]
  | _ => exact hs

theorem restores_current {s : State} {β : Type} {a : Access β} (ha : restores own k a) :
    (a.run s).2.current k = own k := by
  obtain ⟨p, i⟩ := a
  rw [Access.run_current]
  cases i with
  | setCurrent j v =>
    obtain ⟨rfl, rfl⟩ := ha
    simp [Instr.held]
  | _ => exact ha.elim

end Filed

/-- What is known of a CPU's program: the answers it gets while a request is
pending, what it may turn into, and where it must not be when the request is
filed. -/
structure Watch (own : Cpu → Option CellId) (len : CellId → Cpu → Nat) (k : Cpu) where
  ans : {γ : Type} → Access γ → γ → Prop
  tail : {γ : Type} → Code γ → Prop
  danger : {γ : Type} → Access γ → Prop
  ans_asked : ∀ {γ : Type} (a : Access γ) (v : γ), ans a v → asked own len k a v
  tail_bind : ∀ {γ δ : Type} (q : Code γ) (f : γ → Code δ), tail q → tail (q >>= f)

section Fine

variable {own : Cpu → Option CellId} {len : CellId → Cpu → Nat} {b : CellId} {k : Cpu}
variable (w : Watch own len k) (b)

/-- Until it turns into a tail, the program is mild. -/
def Calm {α : Type} (p : Code α) : Prop := p.Unless w.ans (mild own len b k) w.tail

/-- The program is calm from every point of it that is not dangerous. -/
def Tamed {α : Type} (p : Code α) : Prop :=
  p.Tame (base own len) (legal own len) w.danger (Calm b w)

structure Fine {α : Type} (p : Code α) : Prop where
  calm : Calm b w p
  tamed : Tamed b w p

variable {w b} {α β : Type}

theorem Calm.bind {p : Code α} {f : α → Code β} (h : Calm b w p) (hf : ∀ a, Calm b w (f a)) :
    Calm b w (p >>= f) :=
  Prog.Unless.bind h (fun q => w.tail_bind q f) hf

theorem Calm.step {pl : Place} {i : Instr α} {f : α → Code β} (hi : mild own len b k ⟨pl, i⟩)
    (hf : ∀ v, w.ans ⟨pl, i⟩ v → Calm b w (f v)) : Calm b w (op pl i >>= f) :=
  .inr ⟨hi, hf⟩

theorem Tamed.step {pl : Place} {i : Instr α} {f : α → Code β} (hi : legal own len ⟨pl, i⟩)
    (hd : w.danger ⟨pl, i⟩ ∨ Calm b w (op pl i >>= f))
    (hf : ∀ v, base own len ⟨pl, i⟩ v → Tamed b w (f v)) : Tamed b w (op pl i >>= f) :=
  ⟨hi, hd, hf⟩

theorem Fine.pure (a : α) : Fine b w (Pure.pure a : Code α) := ⟨trivial, trivial⟩

theorem Fine.fault (e : Fault) : Fine b w (.fault e : Code α) := ⟨trivial, trivial⟩

theorem Fine.bind {p : Code α} {f : α → Code β} (h : Fine b w p) (hf : ∀ a, Fine b w (f a)) :
    Fine b w (p >>= f) :=
  ⟨h.calm.bind fun a => (hf a).calm,
    Prog.Tame.bind h.tamed (fun _ hq => Calm.bind hq fun a => (hf a).calm) fun a => (hf a).tamed⟩

theorem Fine.step {pl : Place} {i : Instr α} {f : α → Code β} (hi : mild own len b k ⟨pl, i⟩)
    (hf : ∀ v, base own len ⟨pl, i⟩ v → Fine b w (f v)) : Fine b w (op pl i >>= f) := by
  have hcalm : Calm b w (op pl i >>= f) :=
    .step hi fun v hv => (hf v (w.ans_asked _ _ hv).1).calm
  exact ⟨hcalm, .step hi.1 (.inr hcalm) fun v hv => (hf v hv).tamed⟩

theorem Fine.op {pl : Place} {i : Instr α} (hi : mild own len b k ⟨pl, i⟩) :
    Fine b w (op pl i) :=
  Fine.step (f := Pure.pure) hi fun v _ => .pure v

theorem Fine.each {l : List α} {f : α → Code Unit} (hf : ∀ x ∈ l, Fine b w (f x)) :
    Fine b w (each l f) := by
  induction l with
  | nil => exact .pure ()
  | cons x l ih => exact (hf x (by simp)).bind fun _ => ih fun y hy => hf y (by simp [hy])

theorem Fine.eachUntil {quantity : Nat} {f : Cpu → Code Bool} (hf : ∀ j, Fine b w (f j))
    (l : List Cpu) (n : Nat) : Fine b w (eachUntil quantity f l n) := by
  induction l generalizing n with
  | nil => exact .pure n
  | cons j l ih =>
    unfold Core.eachUntil
    split
    · exact .pure n
    · exact (hf j).bind fun ok => ih _

theorem Fine.deref (e : Fault) (o : Option CellId) : Fine b w (deref e o) := by
  cases o with
  | none => exact .fault e
  | some c => exact .pure c

theorem fine_readCores (pl : Place) (c : CellId) (t : CoreSet) (l : List (Fin 4)) :
    Fine b w (readCores pl c t l) := by
  induction l with
  | nil => exact .pure []
  | cons i l ih => exact .step ⟨trivial, trivial⟩ fun v _ => ih.bind fun ls => .pure _

theorem fine_wakeCore (c : CellId) (j : Cpu) : Fine b w (Cell.wakeCore c j) :=
  .step ⟨trivial, trivial⟩ fun _ _ => .each fun _ _ =>
    .step ⟨trivial, trivial⟩ fun _ _ => .op ⟨trivial, trivial⟩

theorem fine_wakeCores (c : CellId) : Fine b w (Cell.wakeCores c) :=
  .each fun _ _ => .step ⟨trivial, trivial⟩ fun _ _ => .each fun j _ => fine_wakeCore c j

theorem fine_sleepEach (c : CellId) (j : Cpu) (l : List Nat) : Fine b w (Cell.sleepEach c j l) := by
  induction l with
  | nil => exact .pure ()
  | cons i l ih =>
    refine .step ⟨trivial, trivial⟩ fun asleep _ => ?_
    split
    · exact .pure ()
    · exact ih

theorem fine_blockWorkersOn (c : CellId) (j : Cpu) : Fine b w (Cell.blockWorkersOn c j) := by
  refine .step ⟨trivial, trivial⟩ fun dead _ => ?_
  split
  · exact .pure ()
  · exact .step ⟨trivial, trivial⟩ fun _ _ => .step ⟨trivial, trivial⟩ fun n _ => fine_sleepEach c j _

theorem fine_occupy (j : Cpu) (o : Option CellId) : Fine b w (Resource.occupy j o) := by
  refine .step ⟨trivial, trivial⟩ fun ok _ => ?_
  split
  · exact .step ⟨trivial, trivial⟩ fun _ _ => (Fine.deref _ o).bind fun c =>
      .step ⟨trivial, trivial⟩ fun _ _ => .pure true
  · exact .pure false

theorem fine_borrowed (j : Cpu) : Fine b w (Resource.borrowed j) := by
  refine .step ⟨trivial, trivial⟩ fun o _ => .step ⟨trivial, trivial⟩ fun c _ => ?_
  split
  · exact .pure false
  · exact .step ⟨trivial, trivial⟩ fun c _ => .pure _

theorem fine_await (j : Cpu) (borrower : Option CellId) (n : Nat) :
    Fine b w (Resource.await j borrower n) := by
  induction n with
  | zero => cases borrower <;> exact .pure ()
  | succ n ih =>
    cases borrower with
    | none => exact .pure ()
    | some c =>
      refine .step ⟨trivial, trivial⟩ fun v _ => ?_
      split
      · exact ih
      · exact .pure ()

theorem fine_forget (j : Cpu) (borrower : Option CellId) : Fine b w (Resource.forget j borrower) := by
  cases borrower with
  | none => exact .pure ()
  | some c => exact .op ⟨trivial, trivial⟩

theorem fine_returnCore {j : Cpu} (hj : j ≠ k) (me : Option CellId) :
    Fine b w (Resource.returnCore j me) := by
  refine .step ⟨trivial, trivial⟩ fun v _ => (Fine.deref _ v).bind fun c => ?_
  refine .step ⟨trivial, fun h => hj h.2⟩ fun _ _ => .step ⟨trivial, trivial⟩ fun o _ => ?_
  refine (Fine.deref _ o).bind fun _ => .step ⟨trivial, trivial⟩ fun o _ => ?_
  refine .step ⟨trivial, hj⟩ fun _ _ => .step ⟨trivial, trivial⟩ fun v _ => ?_
  refine (Fine.deref _ v).bind fun d => (fine_wakeCore d j).bind fun _ => ?_
  split
  · exact fine_blockWorkersOn c j
  · exact .pure ()

section Callers

variable (hret : ∀ me, Tamed b w (Resource.returnCore k me))

include hret

theorem tamed_returnCore (j : Cpu) (me : Option CellId) : Tamed b w (Resource.returnCore j me) := by
  by_cases hj : j = k
  · subst hj
    exact hret me
  · exact (fine_returnCore hj me).tamed

omit hret in
theorem hazards_ne_reclaim {v : Nat} (hv : v = 0 ∨ v = Allocator.hzdYield) :
    v ≠ Allocator.hzdReclaim := by
  rintro rfl
  revert hv
  decide

omit hret in
theorem fine_handleHazard (j : Cpu) (patience : Nat) (me : Option CellId) :
    Fine b w (Allocator.handleHazard j patience me) := by
  refine .step ⟨trivial, trivial⟩ fun v hv => ?_
  split
  · refine .step ⟨trivial, trivial⟩ fun v hv => .step ⟨?_, trivial⟩ fun _ _ => ?_
    · obtain rfl | rfl := hv <;> exact .inl rfl
    · refine .step ⟨trivial, trivial⟩ fun borrower _ => ?_
      refine (fine_await j borrower patience).bind fun _ => ?_
      refine .step ⟨trivial, trivial⟩ fun o _ => (fine_occupy j o).bind fun ok => ?_
      split
      · exact (fine_forget j borrower).bind fun _ => .pure true
      · refine (Fine.deref _ o).bind fun c => ?_
        exact .step ⟨trivial, trivial⟩ fun _ _ => .pure false
  · rw [if_neg (hazards_ne_reclaim hv)]
    exact .pure false

/-- The one branch in which a cell that is asked does not get a request: it has
no workers. -/
theorem fine_cellReturnCore {c : CellId} {j : Cpu} (hc : own j ≠ some c) (patience : Nat)
    (me : Option CellId) : Fine b w (Cell.returnCore c j patience me) := by
  have hworkers : ∀ n, n = len c j → n ≠ 0 → Fine b w (do
      if ← op (.cellReturnCore j) (.casFlag c j) then pure true
      else do
        let hazards ← op (.cellReturnCore j) (.hazards j)
        op (.cellReturnCore j) (.setHazards j (hazards ||| Allocator.hzdYield))
        Allocator.handleHazard j patience me) := by
    rintro n rfl hn
    refine .step ⟨⟨hc, hn⟩, trivial⟩ fun ok _ => ?_
    split
    · exact .pure true
    · refine .step ⟨trivial, trivial⟩ fun v hv => .step ⟨?_, trivial⟩ fun _ _ => ?_
      · obtain rfl | rfl := hv <;> exact .inr rfl
      · exact fine_handleHazard j patience me
  have hcalm : Calm b w (Cell.returnCore c j patience me) := by
    refine .step ⟨trivial, trivial⟩ fun n hn => ?_
    obtain ⟨hlen, hne⟩ := w.ans_asked _ _ hn
    by_cases h0 : n = 0
    · have hj : j ≠ k := fun h => hne h h0
      rw [if_neg (not_not.mpr h0)]
      exact ((fine_returnCore hj me).bind fun _ => .pure true).calm
    · rw [if_pos h0]
      exact (hworkers n hlen h0).calm
  refine ⟨hcalm, .step trivial (.inr hcalm) fun n hn => ?_⟩
  by_cases h0 : n = 0
  · rw [if_neg (not_not.mpr h0)]
    refine Prog.Tame.bind (tamed_returnCore hret j me) (fun q hq => ?_) fun _ => trivial
    exact Calm.bind hq fun _ => trivial
  · rw [if_pos h0]
    exact (hworkers n hn h0).tamed

theorem fine_reclaim (j : Cpu) (patience : Nat) (me : Option CellId) :
    Fine b w (Resource.reclaim j patience me) := by
  have hgiveUp : Fine b w (do
      let owner ← deref .nullOwner (← op (.reclaim j) (.owner j))
      op (.reclaim j) (.coresClr owner .reclaimed j)
      pure false) := by
    refine .step ⟨trivial, trivial⟩ fun o _ => (Fine.deref _ o).bind fun c => ?_
    exact .step ⟨trivial, trivial⟩ fun _ _ => .pure false
  refine .step ⟨trivial, trivial⟩ fun _ _ => .step ⟨trivial, trivial⟩ fun o _ => ?_
  refine (Fine.deref _ o).bind fun c => .step ⟨trivial, trivial⟩ fun _ _ => ?_
  refine .step ⟨trivial, trivial⟩ fun o _ => (fine_occupy j o).bind fun ok => ?_
  split
  · refine .step ⟨trivial, trivial⟩ fun v _ => (Fine.deref _ v).bind fun d => ?_
    exact (fine_wakeCore d j).bind fun _ => .pure true
  · refine .step ⟨trivial, trivial⟩ fun borrower _ => .step ⟨trivial, trivial⟩ fun o ho => ?_
    cases borrower with
    | none => exact hgiveUp
    | some c =>
      by_cases hne : some c ≠ o
      · simp only [if_pos hne]
        refine fine_cellReturnCore hret (fun h => hne ?_) patience me
        rw [← h]
        exact ho.symm
      · simp only [if_neg hne]
        exact hgiveUp

theorem fine_reclaimLent (patience : Cpu → Nat) (me : Option CellId) (j : Cpu) :
    Fine b w (Allocator.reclaimLent patience me j) := by
  refine (fine_borrowed j).bind fun lent => ?_
  split
  · exact fine_reclaim hret j (patience j) me
  · exact .pure false

omit hret in
theorem fine_borrowIdle (quantity : Nat) (c : CellId) (l : List (Fin 4)) (n : Nat) :
    Fine b w (Allocator.borrowIdle quantity c l n) := by
  induction l generalizing n with
  | nil => exact .pure n
  | cons i l ih =>
    unfold Allocator.borrowIdle
    split
    · exact .pure n
    · refine .step ⟨trivial, trivial⟩ fun idle _ => Fine.bind ?_ ih
      exact .eachUntil (fun j => fine_occupy j (some c)) idle n

theorem fine_sysAlloc (quantity : Nat) (c : CellId) (patience : Cpu → Nat) :
    Fine b w (sysAlloc quantity c patience) := by
  have hwake : ∀ n : Nat, Fine b w (if n = 0 then pure () else Cell.wakeCores c) := by
    intro n
    split
    · exact .pure ()
    · exact fine_wakeCores c
  unfold sysAlloc
  split
  · exact .pure ()
  · refine Fine.bind ?_ hwake
    refine Fine.bind (.each fun i _ => .op ⟨trivial, trivial⟩) fun _ => ?_
    refine (fine_readCores _ c _ words).bind fun reserved => ?_
    refine (fine_readCores _ c _ words).bind fun current => ?_
    refine Fine.bind (.eachUntil (fun j => fine_occupy j (some c)) _ 0) fun n => ?_
    split
    · exact .pure n
    · refine (fine_borrowIdle quantity c words n).bind fun n => ?_
      split
      · exact .pure n
      · exact .eachUntil (fine_reclaimLent hret patience (some c)) _ n

end Callers

theorem fine_sysRelease {j : Cpu} (hj : j ≠ k) (r : ReleaseOp) (c : CellId) :
    Fine b w (sysRelease r c j) := by
  cases r with
  | ret => exact fine_returnCore hj (some c)
  | release =>
    refine .step ⟨trivial, trivial⟩ fun v _ => ?_
    split
    · refine .step ⟨trivial, fun h => hj h.2⟩ fun _ _ => ?_
      exact fine_blockWorkersOn c j
    · refine .step ⟨trivial, trivial⟩ fun v _ => (Fine.deref _ v).bind fun d => ?_
      refine .step ⟨trivial, trivial⟩ fun v _ => ?_
      split
      · exact fine_returnCore hj (some c)
      · refine .step ⟨trivial, fun h => hj h.2⟩ fun _ _ => .step ⟨trivial, trivial⟩ fun _ _ => ?_
        refine .step ⟨trivial, hj⟩ fun _ _ => ?_
        split
        · exact fine_blockWorkersOn d j
        · exact .pure ()

end Fine

section Watches

variable (own : Cpu → Option CellId) (len : CellId → Cpu → Nat) (b : CellId) (k : Cpu)

/-- A CPU that does not return `k` is no danger to a request for it. -/
def onOther : Watch own len k where
  ans := asked own len k
  tail _ := False
  danger a := a.place = .returnCore k
  ans_asked _ _ h := h
  tail_bind _ _ h := h

/-- The CPU itself is on its way to restore the owner, or it is yet to see the
request. -/
def onSelf : Watch own len k where
  ans := pending own len b k
  tail := Prog.Leads (base own len) (keeps own len k) (restores own k)
  danger a := a.place = .release k
  ans_asked _ _ h := h.1
  tail_bind _ f h := Prog.Leads.bind h f

variable {own len b k}

theorem tamed_returnCore_other (me : Option CellId) :
    Tamed b (onOther own len k) (Resource.returnCore k me) := by
  refine .step trivial (.inl rfl) fun v _ => ?_
  cases v with
  | none => trivial
  | some c =>
    refine .step trivial (.inl rfl) fun _ _ => .step trivial (.inl rfl) fun o _ => ?_
    cases o with
    | none => trivial
    | some _ =>
      refine .step trivial (.inl rfl) fun o _ => .step trivial (.inl rfl) fun _ _ => ?_
      refine .step trivial (.inl rfl) fun v _ => Fine.tamed ?_
      refine (Fine.deref _ v).bind fun d => (fine_wakeCore d k).bind fun _ => ?_
      split
      · exact fine_blockWorkersOn c k
      · exact .pure ()

section Restore

variable {α : Type} (rest : Code α)

theorem leads_restore : (do
    let owner ← op (.returnCore k) (.owner k)
    op (.returnCore k) (.setCurrent k owner)
    rest : Code α).Leads (base own len) (keeps own len k) (restores own k) :=
  .inr ⟨⟨trivial, trivial⟩, fun _ ho => .inl ⟨rfl, ho⟩⟩

theorem leads_checkOwner : (do
    let _ ← deref .nullOwner (← op (.returnCore k) (.owner k))
    let owner ← op (.returnCore k) (.owner k)
    op (.returnCore k) (.setCurrent k owner)
    rest : Code α).Leads (base own len) (keeps own len k) (restores own k) := by
  refine .inr ⟨⟨trivial, trivial⟩, fun o _ => ?_⟩
  cases o with
  | none => trivial
  | some _ => exact leads_restore rest

theorem leads_clearFlag (c : CellId) : (do
    op (.returnCore k) (.setFlag c k 0)
    let _ ← deref .nullOwner (← op (.returnCore k) (.owner k))
    let owner ← op (.returnCore k) (.owner k)
    op (.returnCore k) (.setCurrent k owner)
    rest : Code α).Leads (base own len) (keeps own len k) (restores own k) :=
  .inr ⟨⟨trivial, trivial⟩, fun _ _ => leads_checkOwner rest⟩

end Restore

theorem leads_returnCore (me : Option CellId) :
    (Resource.returnCore k me).Leads (base own len) (keeps own len k) (restores own k) := by
  refine .inr ⟨⟨trivial, trivial⟩, fun v _ => ?_⟩
  cases v with
  | none => trivial
  | some c => exact leads_clearFlag _ c

theorem calm_returnCore_self (me : Option CellId) :
    Calm b (onSelf own len b k) (Resource.returnCore k me) :=
  .inl (leads_returnCore me)

theorem tamed_returnCore_self (me : Option CellId) :
    Tamed b (onSelf own len b k) (Resource.returnCore k me) := by
  refine .step trivial (.inr (calm_returnCore_self me)) fun v _ => ?_
  cases v with
  | none => trivial
  | some c =>
    refine .step trivial (.inr (.inl (leads_clearFlag _ c))) fun _ _ => ?_
    refine .step trivial (.inr (.inl (leads_checkOwner _))) fun o _ => ?_
    cases o with
    | none => trivial
    | some _ =>
      refine .step trivial (.inr (.inl (leads_restore _))) fun o ho => ?_
      refine .step trivial (.inr (.inl (.inl ⟨rfl, ho⟩))) fun _ _ => Fine.tamed ?_
      refine .step ⟨trivial, trivial⟩ fun v _ => ?_
      refine (Fine.deref _ v).bind fun d => (fine_wakeCore d k).bind fun _ => ?_
      split
      · exact fine_blockWorkersOn c k
      · exact .pure ()

theorem calm_sysRelease_self (r : ReleaseOp) (c : CellId) :
    Calm b (onSelf own len b k) (sysRelease r c k) := by
  cases r with
  | ret => exact calm_returnCore_self (some c)
  | release =>
    refine .step ⟨trivial, trivial⟩ fun v hv => ?_
    obtain rfl : v = some b := hv.2 rfl
    by_cases hb : b = c
    · subst hb
      simp only [ne_eq, not_true_eq_false, if_false]
      refine .step ⟨trivial, trivial⟩ fun v hv => ?_
      obtain rfl : v = some b := hv.2 rfl
      refine .step ⟨trivial, trivial⟩ fun v hv => ?_
      obtain rfl : v = 1 := hv.2 ⟨rfl, rfl⟩
      exact calm_returnCore_self (some b)
    · have hne : some b ≠ some c := fun h => hb (Option.some.inj h)
      simp only [if_pos hne]
      refine .step ⟨trivial, fun h => hb h.1.symm⟩ fun _ _ => ?_
      exact (fine_blockWorkersOn c k).calm

theorem tamed_sysRelease_self (r : ReleaseOp) (c : CellId) :
    Tamed b (onSelf own len b k) (sysRelease r c k) := by
  cases r with
  | ret => exact tamed_returnCore_self (some c)
  | release =>
    refine .step trivial (.inl rfl) fun v _ => ?_
    split
    · refine .step trivial (.inl rfl) fun _ _ => ?_
      exact (fine_blockWorkersOn c k).tamed
    · refine .step trivial (.inl rfl) fun v _ => ?_
      cases v with
      | none => trivial
      | some d =>
        refine .step trivial (.inl rfl) fun v _ => ?_
        split
        · exact tamed_returnCore_self (some c)
        · refine .step trivial (.inl rfl) fun _ _ => .step trivial (.inl rfl) fun _ _ => ?_
          refine .step trivial (.inl rfl) fun _ _ => Fine.tamed ?_
          split
          · exact fine_blockWorkersOn d k
          · exact .pure ()

theorem fine_code_other {j : Cpu} (hj : j ≠ k) {call : Call} (hcall : call.Contends) :
    Fine b (onOther own len k) (call.code j) := by
  cases call with
  | alloc quantity c patience => exact fine_sysAlloc tamed_returnCore_other quantity c patience
  | release r c => exact fine_sysRelease hj r c
  | _ => exact hcall.elim

theorem fine_code_self {call : Call} (hcall : call.Contends) :
    Fine b (onSelf own len b k) (call.code k) := by
  cases call with
  | alloc quantity c patience => exact fine_sysAlloc tamed_returnCore_self quantity c patience
  | release r c => exact ⟨calm_sysRelease_self r c, tamed_sysRelease_self r c⟩
  | _ => exact hcall.elim

variable (own len b k) in
def watch (j : Cpu) : Watch own len k := if j = k then onSelf own len b k else onOther own len k

theorem watch_self : watch own len b k k = onSelf own len b k := if_pos rfl

theorem watch_other {j : Cpu} (hj : j ≠ k) : watch own len b k j = onOther own len k := if_neg hj

theorem fine_code (j : Cpu) {call : Call} (hcall : call.Contends) :
    Fine b (watch own len b k j) (call.code j) := by
  by_cases hj : j = k
  · subst hj
    rw [watch_self]
    exact fine_code_self hcall
  · rw [watch_other hj]
    exact fine_code_other hj hcall

end Watches

section Runs

variable {own : Cpu → Option CellId} {len : CellId → Cpu → Nat} {b : CellId} {k : Cpu}
variable {m : Machine} {e : Step}

/-- Every program is tame with regard to every request that could be filed. -/
structure Sound (own : Cpu → Option CellId) (len : CellId → Cpu → Nat) (m : Machine) : Prop where
  base : Base own len m.mem
  tamed : ∀ b k j, Tamed b (watch own len b k j) (m.thread j)

theorem sound_idle {s : State} (hs : ∀ k, (s.resources k).hazards = 0 ∨
    (s.resources k).hazards = Allocator.hzdYield) :
    Sound s.owner (fun c k => (s.workers c k).length) (.idle s) :=
  ⟨⟨fun _ => rfl, fun _ _ => rfl, hs⟩, fun _ _ _ => trivial⟩

theorem sound_step (h : Sound own len m) (he : Contends e) : Sound own len (m.step e) := by
  obtain ⟨i, call, rfl, -, hm⟩ | ⟨i, -, β, a, f, hi, hm⟩ | hm := m.step_cases e
  · rw [hm]
    refine ⟨h.base, fun b k j => ?_⟩
    by_cases hj : j = i
    · subst hj
      simpa using (fine_code j he).tamed
    · simpa [hj] using h.tamed b k j
  · have hlegal : ∀ b k, legal own len a ∧ _ ∧ _ := fun b k => by
      have := h.tamed b k i
      rwa [hi] at this
    rw [hm]
    refine ⟨legal_base h.base (hlegal 0 0).1, fun b k j => ?_⟩
    by_cases hj : j = i
    · subst hj
      simp only [Function.update_self]
      exact (hlegal b k).2.2 _ (base_run h.base a)
    · simpa [hj] using h.tamed b k j
  · rw [hm]
    exact h

/-- The request of `k` is pending with its borrower `b`. -/
structure Filed (own : Cpu → Option CellId) (len : CellId → Cpu → Nat) (b : CellId) (k : Cpu)
    (m : Machine) : Prop where
  sound : Sound own len m
  holder : m.mem.current k = some b
  borrower : own k ≠ some b
  manned : len b k ≠ 0
  others : ∀ j, j ≠ k → Calm b (onOther own len k) (m.thread j)
  self : m.mem.flag b k = 1 ∧ Calm b (onSelf own len b k) (m.thread k) ∨
    (m.thread k).Leads (base own len) (keeps own len k) (restores own k)

theorem Sound.calm (h : Sound own len m) (b : CellId) (k j : Cpu)
    (hd : ∀ (β : Type) (a : Access β) (f : β → Code Unit), m.thread j = .step a f →
      ¬(watch own len b k j).danger a) : Calm b (watch own len b k j) (m.thread j) := by
  have ht := h.tamed b k j
  cases hj : m.thread j with
  | pure u => trivial
  | fault e => trivial
  | step a f =>
    rw [hj] at ht
    obtain ⟨-, hdanger | hcalm, -⟩ := ht
    · exact (hd _ a f hj hdanger).elim
    · exact hcalm

theorem place_step {j : Cpu} {β : Type} {a : Access β} {f : β → Code Unit}
    (h : m.thread j = .step a f) : m.place j = some a.place := by
  simp [Machine.place, Machine.next, h]

theorem filing_cases (h : m.filing e = some (b, k)) :
    ∃ (i : Cpu) (pl : Place) (f : Bool → Code Unit), e = .access i ∧
      m.thread i = .step ⟨pl, .casFlag b k⟩ f ∧ m.mem.flag b k = 0 := by
  cases e with
  | start i call => simp [Machine.filing] at h
  | access i =>
    cases hi : m.thread i with
    | pure u => simp [Machine.filing, hi] at h
    | fault x => simp [Machine.filing, hi] at h
    | step a f =>
      obtain ⟨pl, instr⟩ := a
      cases instr with
      | casFlag c j =>
        by_cases hflag : m.mem.flag c j = 0
        · simp only [Machine.filing, hi, hflag, if_true, Option.some.injEq, Prod.mk.injEq] at h
          obtain ⟨rfl, rfl⟩ := h
          exact ⟨i, pl, f, rfl, hi, hflag⟩
        · simp [Machine.filing, hi, hflag] at h
      | _ => simp [Machine.filing, hi] at h

section Answered

variable {i : Cpu} {β : Type} {a : Access β} {f : β → Code Unit}

theorem Filed.answer_asked (h : Filed own len b k m) (ho : m.Orderly (.access i))
    (hi : m.thread i = .step a f) : asked own len k a (a.run m.mem).1 := by
  refine ⟨base_run h.sound.base a, ?_⟩
  obtain ⟨pl, instr⟩ := a
  cases pl with
  | cellReturnCore j =>
    cases instr with
    | workers c j' =>
      rintro rfl hv
      have hv : (m.mem.workers c j').length = 0 := hv
      have hask : m.asking (.access i) = some (c, j') := by simp [Machine.asking, hi]
      have hcur := ho.workers c j' hask (List.length_eq_zero_iff.mp hv)
      obtain rfl := Option.some.inj (h.holder.symm.trans hcur)
      exact h.manned ((h.sound.base.workers b j').symm.trans hv)
    | _ => trivial
  | _ => trivial

theorem Filed.answer_pending (h : Filed own len b k m) (ho : m.Orderly (.access i))
    (hi : m.thread i = .step a f) (hflag : m.mem.flag b k = 1) :
    pending own len b k a (a.run m.mem).1 := by
  refine ⟨h.answer_asked ho hi, ?_⟩
  obtain ⟨pl, instr⟩ := a
  cases instr with
  | current j =>
    rintro rfl
    exact h.holder
  | flag c j =>
    rintro ⟨rfl, rfl⟩
    exact hflag
  | _ => trivial

end Answered

theorem Filed.start (h : Filed own len b k m) {i : Cpu} {call : Call} (hcall : call.Contends)
    (hi : m.thread i = .pure ())
    (hs : Sound own len { m with
      call := Function.update m.call i (some call)
      thread := Function.update m.thread i (call.code i) }) :
    Filed own len b k { m with
      call := Function.update m.call i (some call)
      thread := Function.update m.thread i (call.code i) } := by
  refine ⟨hs, h.holder, h.borrower, h.manned, fun j hj => ?_, ?_⟩
  · by_cases hji : j = i
    · subst hji
      simpa using (fine_code_other hj hcall).calm
    · simpa [hji] using h.others j hj
  · by_cases hki : k = i
    · subst hki
      obtain ⟨hflag, -⟩ | hleads := h.self
      · exact .inl ⟨hflag, by simpa using (fine_code_self hcall).calm⟩
      · rw [hi] at hleads
        exact hleads.elim
    · simpa [hki] using h.self

section Access

variable {i : Cpu} {β : Type} {a : Access β} {f : β → Code Unit}

theorem Filed.access_other (h : Filed own len b k m) (hik : i ≠ k) (ho : m.Orderly (.access i))
    (hi : m.thread i = .step a f)
    (hs : Sound own len { m with
      mem := (a.run m.mem).2
      thread := Function.update m.thread i (f (a.run m.mem).1) }) :
    Filed own len b k { m with
      mem := (a.run m.mem).2
      thread := Function.update m.thread i (f (a.run m.mem).1) } := by
  have hcalm := h.others i hik
  rw [hi] at hcalm
  obtain hno | ⟨hmild, hrest⟩ := hcalm
  · exact hno.elim
  · refine ⟨hs, keeps_current h.holder (mild_keeps hmild), h.borrower, h.manned, fun j hj => ?_, ?_⟩
    · by_cases hji : j = i
      · subst hji
        simp only [Function.update_self]
        exact hrest _ (h.answer_asked ho hi)
      · simpa [hji] using h.others j hj
    · simp only [Function.update_of_ne hik.symm]
      exact h.self.imp_left fun hself => ⟨mild_flag hself.1 hmild, hself.2⟩

/-- The CPU itself keeps the request, or it is on its way to the store of the
owner. -/
theorem Filed.access_self (h : Filed own len b k m) (ho : m.Orderly (.access k))
    (hk : m.thread k = .step a f)
    (hs : Sound own len { m with
      mem := (a.run m.mem).2
      thread := Function.update m.thread k (f (a.run m.mem).1) }) :
    Filed own len b k { m with
      mem := (a.run m.mem).2
      thread := Function.update m.thread k (f (a.run m.mem).1) } ∨
    (a.run m.mem).2.current k = own k := by
  have hleads : (m.thread k).Leads (base own len) (keeps own len k) (restores own k) →
      Filed own len b k { m with
        mem := (a.run m.mem).2
        thread := Function.update m.thread k (f (a.run m.mem).1) } ∨
      (a.run m.mem).2.current k = own k := by
    intro hleads
    rw [hk] at hleads
    obtain hdone | ⟨hkeeps, hrest⟩ := hleads
    · exact .inr (restores_current hdone)
    · refine .inl ⟨hs, keeps_current h.holder hkeeps, h.borrower, h.manned, fun j hj => ?_, .inr ?_⟩
      · simpa [hj] using h.others j hj
      · simp only [Function.update_self]
        exact hrest _ (base_run h.sound.base a)
  obtain ⟨hflag, hcalm⟩ | hself := h.self
  · rw [hk] at hcalm
    obtain htail | ⟨hmild, hrest⟩ := hcalm
    · rw [← hk] at htail
      exact hleads htail
    · refine .inl ⟨hs, keeps_current h.holder (mild_keeps hmild), h.borrower, h.manned,
        fun j hj => ?_, .inl ⟨mild_flag hflag hmild, ?_⟩⟩
      · simpa [hj] using h.others j hj
      · simp only [Function.update_self]
        exact hrest _ (h.answer_pending ho hk hflag)
  · exact hleads hself

end Access

theorem Filed.step (h : Filed own len b k m) (ho : m.Orderly e) (he : Contends e) :
    Filed own len b k (m.step e) ∨ (m.step e).mem.current k = own k := by
  have hs := sound_step h.sound he
  obtain ⟨i, call, rfl, hi, hm⟩ | ⟨i, rfl, β, a, f, hi, hm⟩ | hm := m.step_cases e
  · rw [hm] at hs ⊢
    exact .inl (h.start he hi hs)
  · rw [hm] at hs ⊢
    by_cases hik : i = k
    · subst hik
      exact h.access_self ho hi hs
    · exact .inl (h.access_other hik ho hi hs)
  · rw [hm]
    exact .inl h

theorem Sound.file (h : Sound own len m) (ho : m.Orderly e) (he : Contends e)
    (hfile : m.filing e = some (b, k)) : Filed own len b k (m.step e) := by
  have hs := sound_step h he
  have hself : Calm b (onSelf own len b k) (m.thread k) := by
    rw [← watch_self]
    refine h.calm b k k fun β a f hk hd => ho.release b k hfile ?_
    rw [place_step hk, watch_self] at *
    exact congrArg some hd
  have hothers : ∀ j, j ≠ k → Calm b (onOther own len k) (m.thread j) := by
    intro j hj
    rw [← watch_other hj]
    refine h.calm b k j fun β a f hf hd => ho.returnCore b k hfile j hj ?_
    rw [place_step hf]
    rw [watch_other hj] at hd
    exact congrArg some hd
  have hholder := ho.holder b k hfile
  obtain ⟨i, pl, f, rfl, hi, hflag⟩ := filing_cases hfile
  have hlegal := h.tamed b k i
  rw [hi] at hlegal
  obtain ⟨⟨hborrower, hmanned⟩, -⟩ := hlegal
  have hanswer : ((⟨pl, .casFlag b k⟩ : Access Bool).run m.mem).1 = true := by
    simp [Access.run, Instr.run, hflag]
  have hset : ((⟨pl, .casFlag b k⟩ : Access Bool).run m.mem).2.flag b k = 1 := by
    simp [Access.run_flag, Instr.flagged, hflag]
  rw [Machine.step_access hi, hanswer] at hs ⊢
  refine ⟨hs, ?_, hborrower, hmanned, fun j hj => ?_, ?_⟩
  · rw [Access.run_current]
    exact hholder
  · by_cases hji : j = i
    · subst hji
      have hcalm := hothers j hj
      rw [hi] at hcalm
      obtain hno | ⟨-, hrest⟩ := hcalm
      · exact hno.elim
      · simp only [Function.update_self]
        exact hrest true ⟨trivial, by cases pl <;> trivial⟩
    · simpa [hji] using hothers j hj
  · by_cases hki : k = i
    · subst hki
      rw [hi] at hself
      simp only [Function.update_self]
      obtain (hdone | ⟨-, hrest⟩) | ⟨-, hrest⟩ := hself
      · exact hdone.elim
      · exact .inr (hrest true trivial)
      · exact .inl ⟨hset, hrest true ⟨⟨trivial, by cases pl <;> trivial⟩, trivial⟩⟩
    · simp only [Function.update_of_ne hki]
      exact .inl ⟨hset, hself⟩

/-- Every request that is filed in a run is kept: the first event after it that
changes the holder of the CPU makes its owner the holder. -/
def ReclaimsKept (s : State) (es : List Step) : Prop :=
  ∀ (before : List Step) (e : Step) (after : List Step) (last : Step) (rest : List Step)
    (b : CellId) (k : Cpu), es = before ++ e :: (after ++ last :: rest) →
    (Machine.after (.idle s) before).filing e = some (b, k) →
    Machine.Meets (fun m e => (m.step e).mem.current k = m.mem.current k)
      (Machine.after (.idle s) (before ++ [e])) after →
    ∀ m, m = Machine.after (.idle s) (before ++ e :: after) →
      (m.step last).mem.current k ≠ m.mem.current k →
        (m.step last).mem.current k = (m.step last).mem.owner k

theorem Filed.run {es : List Step} (h : Filed own len b k m)
    (hes : m.Meets (fun m e => m.Orderly e ∧ Contends e) es)
    (hkeep : m.Meets (fun m e => (m.step e).mem.current k = m.mem.current k) es) :
    Filed own len b k (m.after es) := by
  induction es generalizing m with
  | nil => exact h
  | cons e es ih =>
    refine ih (m := m.step e) ?_ hes.2 hkeep.2
    obtain hfiled | hown := h.step hes.1.1 hes.1.2
    · exact hfiled
    · have hcur : (m.step e).mem.current k = m.mem.current k := hkeep.1
      rw [hcur, h.holder] at hown
      exact (h.borrower hown.symm).elim

theorem orderly_reclaimsKept {s : State} {es : List Step}
    (hs : ∀ k, (s.resources k).hazards = 0 ∨ (s.resources k).hazards = Allocator.hzdYield)
    (hcalls : ∀ e ∈ es, Contends e) (hes : Machine.Meets Machine.Orderly (.idle s) es) :
    ReclaimsKept s es := by
  rintro before e after last rest b k rfl hfile hkeep m rfl hne
  have hes := Machine.meets_and_forall hes hcalls
  obtain ⟨hbefore, ⟨ho, he⟩, hes⟩ := Machine.meets_append.mp hes
  obtain ⟨hafter, ⟨holast, hlast⟩, -⟩ := Machine.meets_append.mp hes
  have hsound := Machine.after_invariant (J := Sound s.owner fun c k => (s.workers c k).length)
    (fun _ _ h he => sound_step h he.2) (sound_idle hs) hbefore
  have hfiled := (hsound.file ho he hfile).run hafter (by rwa [Machine.after_append] at hkeep)
  rw [Machine.after_append, Machine.after_cons] at hne ⊢
  obtain hstill | hown := hfiled.step holast hlast
  · exact (hne (hstill.holder.trans hfiled.holder.symm)).elim
  · rw [hown]
    exact ((sound_step hfiled.sound hlast).base.owner k).symm

/-- The first CPU is lent by cell 1 to cell 2, and every other CPU is in use. -/
def lent : State where
  resources k := if k = 0 then ⟨some 1, some 2, 0⟩ else ⟨some 3, some 3, 0⟩
  idleCpus _ := false
  cells c :=
    ⟨⟨fun t k => t = .reserved ∧ c = 1 ∧ k = 0, fun _ => 0⟩, fun _ => [⟨0, false⟩], false, true,
      false, false, false⟩

def ownerAsks : List Step := .start 1 (.alloc 1 1 fun _ => 0) :: List.replicate 28 (.access 1)

/-- The borrower releases the CPU after it has been asked for it. -/
theorem orderly_reclaimsKept_lent :
    Machine.Meets Machine.Orderly (.idle lent)
      (ownerAsks ++ .access 1 :: .start 0 (.release .release 2) :: List.replicate 8 (.access 0)) ∧
    ReclaimsKept lent
      (ownerAsks ++ .access 1 :: .start 0 (.release .release 2) :: List.replicate 8 (.access 0)) := by
  have hes : Machine.Meets Machine.Orderly (.idle lent)
      (ownerAsks ++ .access 1 :: .start 0 (.release .release 2) :: List.replicate 8 (.access 0)) := by
    decide +kernel
  refine ⟨hes, orderly_reclaimsKept (fun k => .inl ?_) ?_ hes⟩
  · simp only [lent]
    split <;> rfl
  · simp [ownerAsks, Contends, Call.Contends]

/-- The borrower has looked at its flag when the request comes, clears it and
gives the CPU up. -/
theorem lent_reclaim_lost :
    ¬∀ (s : State) (es : List Step),
      (∀ k, (s.resources k).hazards = 0 ∨ (s.resources k).hazards = Allocator.hzdYield) →
        (∀ e ∈ es, Contends e) → ReclaimsKept s es := by
  intro hall
  have hkept := hall lent
    (.start 0 (.release .release 2) :: List.replicate 3 (.access 0) ++ ownerAsks ++
      .access 1 :: (List.replicate 2 (.access 0) ++ [.access 0]))
    (fun k => .inl (by simp only [lent]; split <;> rfl))
    (by simp [ownerAsks, Contends, Call.Contends])
  have hlost := hkept _ _ _ _ _ 2 0 rfl (by decide +kernel) (by decide +kernel) _ rfl
    (by decide +kernel)
  revert hlost
  decide +kernel

end Runs

end Tukija.Core
