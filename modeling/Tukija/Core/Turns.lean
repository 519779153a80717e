import Tukija.Core.Effect
import Tukija.Core.Holder

/-! One turn of each loop of `alloc`, executed alone. -/
namespace Tukija.Core

open Tukija.Lib.Threads

section Rules

variable {α β : Type} {c : CellId} {s : State}

/-- Alone, the code ends without a fault and with `Q`, and takes back no CPU but
those of `c`. -/
def Ends (c : CellId) (p : Code α) (s : State) (Q : α → State → Prop) : Prop :=
  p.Total Access.run (fun a s => ∀ k, a.place = .reclaim k → s.owner k = some c) s Q

@[simp] theorem ends_pure {Q : α → State → Prop} (a : α) : Ends c (pure a) s Q ↔ Q a s := Iff.rfl

@[simp] theorem ends_fault {Q : α → State → Prop} (e : Fault) : Ends c (.fault e : Code α) s Q ↔ False := Iff.rfl

@[simp] theorem ends_bind {p : Code α} {f : α → Code β} {Q : β → State → Prop} :
    Ends c (p >>= f) s Q ↔ Ends c p s fun a s => Ends c (f a) s Q := Prog.total_bind _ p f Q

@[simp] theorem ends_op {Q : α → State → Prop} (pl : Place) (i : Instr α) :
    Ends c (op pl i) s Q ↔ (∀ k, pl = .reclaim k → s.owner k = some c) ∧ Q (i.run s).1 (i.run s).2 := Iff.rfl

@[simp] theorem ends_deref {Q : CellId → State → Prop} (e : Fault) (o : Option CellId) :
    Ends c (deref e o) s Q ↔ ∃ d, o = some d ∧ Q d s := by
  cases o <;> simp [deref]

@[simp] theorem ends_ite {b : Prop} [Decidable b] {p p' : Code α} {Q : α → State → Prop} :
    Ends c (if b then p else p') s Q ↔ (b → Ends c p s Q) ∧ (¬b → Ends c p' s Q) := by
  by_cases h : b <;> simp [h]

theorem Ends.mono {p : Code α} {Q R : α → State → Prop} (h : Ends c p s Q) (hQ : ∀ a s, Q a s → R a s) :
    Ends c p s R := Prog.Total.mono _ h hQ

theorem Ends.alone {p : Code α} {Q : α → State → Prop} (h : Ends c p s Q) : ∃ a s', alone p s = .ok (a, s') ∧ Q a s' := by
  unfold Ends at h
  induction p generalizing s with
  | pure a => exact ⟨a, s, rfl, h⟩
  | fault e => exact h.elim
  | step i k ih => exact ih _ h.2

theorem Ends.bind_iff {p : Code α} {R : α → State → Prop} (h : Ends c p s R) :
    ∃ a s', R a s' ∧ ∀ (f : α → Code β) (Q : β → State → Prop), Ends c (p >>= f) s Q ↔ Ends c (f a) s' Q := by
  unfold Ends at *
  induction p generalizing s with
  | pure a => exact ⟨a, s, h, fun _ _ => Iff.rfl⟩
  | fault e => exact h.elim
  | step i k ih =>
    obtain ⟨a, s', hR, hiff⟩ := ih _ h.2
    exact ⟨a, s', hR, fun f Q => (and_iff_right h.1).trans (hiff f Q)⟩

theorem ends_each {I : List α → State → Prop} {f : α → Code Unit} {l : List α}
    (hturn : ∀ x l s, I (x :: l) s → Ends c (f x) s fun _ => I l) (h : I l s) :
    Ends c (each l f) s fun _ => I [] := by
  induction l generalizing s with
  | nil => exact h
  | cons x l ih =>
    rw [each, ends_bind]
    exact (hturn x l s h).mono fun _ _ => ih

theorem ends_eachUntil {I : List Cpu → Nat → State → Prop} {quantity : Nat} {f : Cpu → Code Bool}
    {l : List Cpu} {n : Nat}
    (hturn : ∀ k l n s, n < quantity → I (k :: l) n s →
      Ends c (f k) s fun ok => I l (if ok then n + 1 else n))
    (h : I l n s) :
    Ends c (eachUntil quantity f l n) s fun n s => ∃ l, I l n s ∧ (l = [] ∨ quantity ≤ n) := by
  induction l generalizing n s with
  | nil => exact ⟨[], h, .inl rfl⟩
  | cons k l ih =>
    rw [eachUntil]
    split
    · rename_i hn
      exact ⟨k :: l, h, .inr hn⟩
    · rename_i hn
      rw [ends_bind]
      exact (hturn k l n s (Nat.lt_of_not_le hn) h).mono fun _ _ => ih

end Rules

section Changes

variable {c d : CellId} {k : Cpu} {s s' s'' : State}

structure Same (s s' : State) : Prop where
  owner : ∀ j, s'.owner j = s.owner j
  current : ∀ j, s'.current j = s.current j
  idle : ∀ j, s'.idleCpus j = s.idleCpus j
  flag : ∀ d j, s'.flag d j = s.flag d j
  workers : ∀ d j, (s'.workers d j).length = (s.workers d j).length

theorem Same.refl (s : State) : Same s s := ⟨fun _ => rfl, fun _ => rfl, fun _ => rfl, fun _ _ => rfl, fun _ _ => rfl⟩

theorem Same.trans (h : Same s s') (h' : Same s' s'') : Same s s'' where
  owner j := (h'.owner j).trans (h.owner j)
  current j := (h'.current j).trans (h.current j)
  idle j := (h'.idle j).trans (h.idle j)
  flag d j := (h'.flag d j).trans (h.flag d j)
  workers d j := (h'.workers d j).trans (h.workers d j)

/-- `c` has got the CPU; what its holder was asked for is done with. -/
structure Got (c : CellId) (k : Cpu) (s s' : State) : Prop where
  owner : ∀ j, s'.owner j = s.owner j
  current : ∀ j, s'.current j = if j = k then some c else s.current j
  idle : ∀ j, j ≠ k → s'.idleCpus j = s.idleCpus j
  flag : ∀ d j, s'.flag d j = s.flag d j ∨ j = k ∧ s'.flag d j = 0
  workers : ∀ d j, (s'.workers d j).length = (s.workers d j).length

/-- `d` is asked for the CPU. -/
structure Asked (d : CellId) (k : Cpu) (s s' : State) : Prop where
  owner : ∀ j, s'.owner j = s.owner j
  current : ∀ j, s'.current j = s.current j
  idle : ∀ j, s'.idleCpus j = s.idleCpus j
  flag : ∀ e j, s'.flag e j = if e = d ∧ j = k then 1 else s.flag e j
  workers : ∀ e j, (s'.workers e j).length = (s.workers e j).length

theorem Got.same (h : Got c k s s') (h' : Same s' s'') : Got c k s s'' where
  owner j := (h'.owner j).trans (h.owner j)
  current j := (h'.current j).trans (h.current j)
  idle j hj := (h'.idle j).trans (h.idle j hj)
  flag d j := by rw [h'.flag]; exact h.flag d j
  workers d j := (h'.workers d j).trans (h.workers d j)

theorem Same.got (h : Same s s') (h' : Got c k s' s'') : Got c k s s'' where
  owner j := (h'.owner j).trans (h.owner j)
  current j := by rw [h'.current, h.current]
  idle j hj := (h'.idle j hj).trans (h.idle j)
  flag d j := by rw [← h.flag]; exact h'.flag d j
  workers d j := (h'.workers d j).trans (h.workers d j)

theorem Same.asked (h : Same s s') (h' : Asked d k s' s'') : Asked d k s s'' where
  owner j := (h'.owner j).trans (h.owner j)
  current j := (h'.current j).trans (h.current j)
  idle j := (h'.idle j).trans (h.idle j)
  flag e j := by rw [h'.flag, h.flag]
  workers e j := (h'.workers e j).trans (h.workers e j)

theorem Got.idleClr (h : Got c k s s') (v : Bool) : Got c k s { s' with idleCpus := Function.update s'.idleCpus k v } where
  owner := h.owner
  current := h.current
  idle j hj := (Function.update_of_ne hj _ _).trans (h.idle j hj)
  flag := h.flag
  workers := h.workers

theorem got_setCurrent (c : CellId) (k : Cpu) (s : State) :
    Got c k s (s.setResource k fun r => { r with current := some c }) := by
  constructor <;> simp +contextual

theorem same_useCip (d : CellId) : Same s (s.useCip d id) := by
  constructor <;> simp

theorem same_setCores (d : CellId) (t : CoreSet) (f : (Cpu → Bool) → Cpu → Bool) : Same s (s.setCores d t f) := by
  constructor <;> simp

theorem same_up (d : CellId) (k : Cpu) (i : Nat) : Same s (s.setWorkers d k fun l => l.modify i Worker.up) where
  owner _ := rfl
  current _ := rfl
  idle _ := rfl
  flag e j := State.setWorkers_flag _ _ _ _ _ _
  workers e j := by
    rw [State.setWorkers_workers]
    split <;> simp

theorem same_setHazards (k : Cpu) (v : Nat) : Same s (s.setResource k fun r => { r with hazards := v }) := by
  constructor <;> simp +contextual

end Changes

section Turns

variable {c d : CellId} {k : Cpu} {s : State}

theorem ends_occupy (c d : CellId) (k : Cpu) (s : State) :
    Ends c (Resource.occupy k (some d)) s fun ok s' =>
      ok = decide (s.current k = none) ∧ (∀ e j, s'.flag e j = s.flag e j) ∧
        if s.current k = none then Got d k s s' else Same s s' := by
  unfold Resource.occupy
  by_cases h : s.current k = none
  · simp only [ends_bind, ends_op, Instr.run, h, if_true, ends_deref, ends_pure]
    refine ⟨by simp, by simp, d, rfl, by simp, by simp, fun e j => State.setCores_flag _ _ _ _ _ _, ?_⟩
    exact ((got_setCurrent d k s).idleClr false).same (same_setCores _ _ _)
  · simp [Instr.run, h, Same.refl]

theorem ends_borrowed (c : CellId) (k : Cpu) (s : State) :
    Ends c (Resource.borrowed k) s fun b s' =>
      (b = true ↔ s.owner k ≠ s.current k ∧ s.current k ≠ none) ∧ s' = s := by
  unfold Resource.borrowed
  by_cases h : s.owner k = s.current k
  · simp [Instr.run, h]
  · simp [Instr.run, h, Option.isSome_iff_ne_none]

theorem ends_wakeCore (c d : CellId) (k : Cpu) (s : State) :
    Ends c (Cell.wakeCore d k) s fun _ s' => Same s s' := by
  unfold Cell.wakeCore
  simp only [ends_bind, ends_op]
  refine ⟨by simp, ends_each (I := fun _ s' => Same s s') (fun i l s' h => ?_) (Same.refl s)⟩
  simp only [ends_bind, ends_op]
  exact ⟨by simp, by simp, (h.trans (same_setCores _ _ _)).trans (same_up _ _ _)⟩

theorem ends_returnCore {h : CellId} (hh : s.current k = some h) (ho : s.owner k = some c) (hne : h ≠ c) :
    Ends c (Resource.returnCore k (some c)) s fun _ s' => Got c k s s' := by
  unfold Resource.returnCore
  simp only [ends_bind, ends_op, ends_deref, Instr.run, hh, ho, State.setFlag_owner, State.setResource_current,
    if_true, Option.some.injEq, exists_eq_left', hne.symm, if_false, ends_pure]
  refine ⟨by simp, by simp, by simp, by simp, by simp, by simp, ?_⟩
  refine (ends_wakeCore c c k _).mono fun _ s' hs' => Got.same ?_ hs'
  constructor
  case flag =>
    intro d j
    rw [State.setResource_flag, State.setFlag_flag]
    by_cases hj : d = h ∧ j = k
    · exact .inr ⟨hj.2, if_pos hj⟩
    · exact .inl (if_neg hj)
  all_goals simp +contextual

theorem ends_await (c : CellId) (k : Cpu) (o : Option CellId) (n : Nat) :
    Ends c (Resource.await k o n) s fun _ s' => s' = s := by
  induction n with
  | zero => cases o <;> exact rfl
  | succ n ih =>
    cases o with
    | none => exact rfl
    | some b =>
      simp only [Resource.await, ends_bind, ends_op, ends_ite, Instr.run]
      exact ⟨by simp, fun _ => ih, fun _ => rfl⟩

theorem or_hzdYield_ne (v : Nat) : v ||| Allocator.hzdYield ≠ Allocator.hzdReclaim := by
  intro h
  have hbit := congrArg (Nat.testBit · 7) h
  have hyield : Allocator.hzdYield.testBit 7 = true := by decide
  have hreclaim : Allocator.hzdReclaim.testBit 7 = false := by decide
  simp only [Nat.testBit_or, hyield, hreclaim, Bool.or_true] at hbit
  cases hbit

theorem ends_handleHazard {patience : Nat} (hd : s.current k = some d) (ho : s.owner k = some c)
    (hz : (s.resources k).hazards ≠ Allocator.hzdReclaim) :
    Ends c (Allocator.handleHazard k patience (some c)) s fun ok s' => ok = false ∧ Same s s' := by
  unfold Allocator.handleHazard
  simp only [ends_bind, ends_op, ends_ite, ends_deref, ends_pure, Instr.run]
  refine ⟨by simp, ?_⟩
  constructor
  · intro hy
    have hs := same_setHazards (s := s) k ((s.resources k).hazards &&& (0xffffffff ^^^ Allocator.hzdYield))
    generalize (s.setResource k fun r => { r with hazards := _ }) = s₁ at hs
    refine ⟨by simp, by simp, by simp, (ends_await c k _ _).mono ?_⟩
    rintro - s₁ rfl
    have hbusy : s₁.current k ≠ none := by simp [hs.current, hd]
    refine ⟨by simp, ?_⟩
    rw [hs.owner, ho]
    refine (ends_occupy _ _ _ _).mono ?_
    rintro ok s₂ ⟨hok, -, h₂⟩
    rw [if_neg hbusy] at h₂
    simp only [hbusy, decide_false] at hok
    subst hok
    exact ⟨nofun, fun _ => ⟨c, rfl, by simp, trivial, (hs.trans h₂).trans (same_setCores _ _ _)⟩⟩
  · exact fun hy => ⟨fun h => (hz h).elim, fun _ => ⟨trivial, .refl s⟩⟩

/-- How a request for a CPU that `c` owns and `d` holds ends. -/
inductive Answered (c d : CellId) (k : Cpu) (s : State) : Bool → State → Prop where
  | gave {s'} (hw : s.workers d k = []) (h : Got c k s s') : Answered c d k s true s'
  | asked {s'} (hw : s.workers d k ≠ []) (hf : s.flag d k = 0) (h : Asked d k s s') : Answered c d k s true s'
  | pending {s'} (hw : s.workers d k ≠ []) (hf : s.flag d k ≠ 0) (h : Same s s') : Answered c d k s false s'

theorem ends_cellReturnCore {patience : Nat} (hd : s.current k = some d) (ho : s.owner k = some c) (hne : d ≠ c) :
    Ends c (Cell.returnCore d k patience (some c)) s (Answered c d k s) := by
  unfold Cell.returnCore
  simp only [ends_bind, ends_op, ends_ite, ends_pure]
  refine ⟨by simp, fun hw => ?_, fun hw => ?_⟩
  · have hw' : s.workers d k ≠ [] := by simpa [Instr.run] using hw
    by_cases hf : s.flag d k = 0
    · simp only [Instr.run, hf, if_true, not_true, false_implies, and_true, true_implies]
      refine ⟨by simp, .asked hw' hf ?_⟩
      constructor <;> simp
    · simp only [Instr.run, hf, if_false, Bool.false_eq_true, not_false_eq_true, true_implies, false_implies, true_and]
      refine ⟨by simp, by simp, by simp, ?_⟩
      have hs := (same_useCip (s := s) d).trans
        (same_setHazards k (((s.useCip d id).resources k).hazards ||| Allocator.hzdYield))
      refine (ends_handleHazard (by rw [hs.current, hd]) (by rw [hs.owner, ho]) ?_).mono ?_
      · simpa [State.setResource_resources] using or_hzdYield_ne _
      · rintro ok s' ⟨rfl, h⟩
        exact .pending hw' hf (hs.trans h)
  · have hw' : s.workers d k = [] := by simpa [Instr.run] using hw
    exact (ends_returnCore hd ho hne).mono fun _ _ => .gave hw'

theorem Same.answered {s' s'' : State} {ok : Bool} (h : Same s s') (ha : Answered c d k s' ok s'') :
    Answered c d k s ok s'' := by
  have hw : s'.workers d k = [] ↔ s.workers d k = [] := by
    rw [← List.length_eq_zero_iff, h.workers, List.length_eq_zero_iff]
  cases ha with
  | gave h1 h2 => exact .gave (hw.mp h1) (h.got h2)
  | asked h1 h2 h3 => exact .asked (mt hw.mpr h1) (by rwa [← h.flag]) (h.asked h3)
  | pending h1 h2 h3 => exact .pending (mt hw.mpr h1) (by rwa [← h.flag]) (h.trans h3)

theorem ends_reclaim {patience : Nat} (hd : s.current k = some d) (ho : s.owner k = some c) (hne : d ≠ c) :
    Ends c (Resource.reclaim k patience (some c)) s (Answered c d k s) := by
  have hs : Same s (s.setCores c .reclaimed fun f => Function.update f k true) := same_setCores _ _ _
  have hown : ∀ j, Place.reclaim k = .reclaim j → s.owner j = some c := by
    rintro j ⟨⟩
    exact ho
  unfold Resource.reclaim
  simp only [ends_bind, ends_op, ends_ite, ends_deref, ends_pure, Instr.run]
  refine ⟨hown, hown, c, ho, hown, ?_⟩
  generalize s.setCores c .reclaimed (fun f => Function.update f k true) = s₁ at hs
  have hbusy : s₁.current k ≠ none := by simp [hs.current, hd]
  refine ⟨fun j hj => (hs.owner j).trans (hown j hj), ?_⟩
  rw [hs.owner, ho]
  refine (ends_occupy _ _ _ _).mono ?_
  rintro ok s₂ ⟨hok, -, h₂⟩
  rw [if_neg hbusy] at h₂
  simp only [hbusy, decide_false] at hok
  subst hok
  have h₂ := hs.trans h₂
  refine ⟨nofun, fun _ => ⟨fun j hj => (h₂.owner j).trans (hown j hj), fun j hj => (h₂.owner j).trans (hown j hj), ?_⟩⟩
  simp only [h₂.current, hd, ends_ite, h₂.owner, ho]
  refine ⟨fun _ => ?_, fun h => (h (by simpa using hne)).elim⟩
  exact (ends_cellReturnCore (by rw [h₂.current, hd]) (by rw [h₂.owner, ho]) hne).mono fun _ _ => h₂.answered

theorem ends_reclaimLent_skip {patience : Cpu → Nat} (h : s.current k = s.owner k ∨ s.current k = none) :
    Ends c (Allocator.reclaimLent patience (some c) k) s fun ok s' => ok = false ∧ s' = s := by
  unfold Allocator.reclaimLent
  rw [ends_bind]
  refine (ends_borrowed c k s).mono ?_
  rintro b s' ⟨hb, rfl⟩
  rw [ends_ite]
  refine ⟨fun hb' => ?_, fun _ => ⟨rfl, rfl⟩⟩
  obtain ⟨h1, h2⟩ := hb.mp hb'
  exact (h.elim (fun e => h1 e.symm) h2).elim

theorem ends_reclaimLent {patience : Cpu → Nat} (hd : s.current k = some d) (ho : s.owner k = some c) (hne : d ≠ c) :
    Ends c (Allocator.reclaimLent patience (some c) k) s (Answered c d k s) := by
  unfold Allocator.reclaimLent
  rw [ends_bind]
  refine (ends_borrowed c k s).mono ?_
  rintro b s' ⟨hb, rfl⟩
  rw [ends_ite]
  refine ⟨fun _ => ends_reclaim hd ho hne, fun hb' => (hb' (hb.mpr ?_)).elim⟩
  simp [ho, hd, hne.symm]

theorem not_ends_reclaimLent {patience : Cpu → Nat} {Q : Bool → State → Prop} (ho : s.owner k ≠ some c)
    (hd : s.current k ≠ none) (hne : s.owner k ≠ s.current k) :
    ¬Ends c (Allocator.reclaimLent patience (some c) k) s Q := by
  unfold Allocator.reclaimLent Resource.borrowed Resource.reclaim
  simp only [ends_bind, ends_op, ends_ite, ends_pure, ends_deref, Instr.run]
  rintro ⟨-, -, -, h⟩
  obtain ⟨-, h⟩ := h hne
  obtain ⟨hown, -⟩ := h.1 (Option.isSome_iff_ne_none.mpr hd)
  exact ho (hown k rfl)

end Turns

end Tukija.Core
