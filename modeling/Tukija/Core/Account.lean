import Tukija.Core.Conserve

/-! Runs that keep account of every CPU: it is idle, or a cell that is there holds
it and lists it. -/
namespace Tukija.Core

open Tukija.Lib.Threads

namespace Instr

variable {β : Type} (i : Instr β) (s : State)

def gives : Option (CellId × Cpu) :=
  match i with
  | .occupy k o => if s.current k = none then o.map (·, k) else none
  | .setCurrent k v => v.map (·, k)
  | _ => none

def unsettles : Option Cpu :=
  match i with
  | .setCurrent k v => if s.current k = v then none else some k
  | .idleClr k => if s.idleCpus k then some k else none
  | _ => none

end Instr

namespace Machine

variable (m : Machine)

/-- The access is made on the terms of `Conserve.own`, unsettles no CPU that another
CPU acts on, and gives none to a cell that another CPU takes off it. -/
structure Permits (i : Cpu) {β : Type} (a : Access β) : Prop where
  own : Conserve.own a m.mem
  grip : ∀ k ∈ a.instr.unsettles m.mem, ∀ j, j ≠ i → m.next (Access.grips · false) j ≠ some k
  leave : ∀ x ∈ a.instr.gives m.mem, ∀ j, j ≠ i → m.next Conserve.leaves j ≠ some x

def Gentle (e : Step) : Prop :=
  match e with
  | .start _ _ => True
  | .access i =>
    match m.thread i with
    | .step a _ => m.Permits i a
    | _ => True

end Machine

namespace Conserve

instance : {β : Type} → (a : Access β) → (s : State) → Decidable (own a s)
  | _, ⟨_, .occupy k o⟩, s =>
    inferInstanceAs (Decidable (s.current k = none → ∀ c ∈ o, (s.cells c).freed = false))
  | _, ⟨_, .setCurrent k v⟩, s => inferInstanceAs (Decidable (∀ c ∈ v,
      (s.cells c).freed = false ∧ s.workers c k ≠ [] ∧ s.current k ≠ some c))
  | _, ⟨_, .coresZero c t w⟩, s => inferInstanceAs (Decidable (∀ k ∈ word w, ¬Slips s c t k))
  | _, ⟨p, .coresClr c t k⟩, s =>
    inferInstanceAs (Decidable (p = .user ∨ p = .handleHazard k → ¬Slips s c t k))
  | _, ⟨_, .freeCell c⟩, s | _, ⟨_, .create c⟩, s =>
    inferInstanceAs (Decidable (∀ k, s.current k ≠ some c))
  | _, ⟨_, .owner _⟩, _ | _, ⟨_, .current _⟩, _ | _, ⟨_, .confer _ _⟩, _ | _, ⟨_, .hazards _⟩, _
  | _, ⟨_, .setHazards _ _⟩, _ | _, ⟨_, .idleChk _⟩, _ | _, ⟨_, .idleSet _⟩, _ | _, ⟨_, .idleClr _⟩, _
  | _, ⟨_, .idleWord _⟩, _ | _, ⟨_, .coresSet _ _ _⟩, _ | _, ⟨_, .coresWord _ _ _⟩, _
  | _, ⟨_, .flag _ _⟩, _ | _, ⟨_, .setFlag _ _ _⟩, _ | _, ⟨_, .casFlag _ _⟩, _ | _, ⟨_, .workers _ _⟩, _
  | _, ⟨_, .up _ _ _⟩, _ | _, ⟨_, .dn _ _ _⟩, _ | _, ⟨_, .enqueue _ _⟩, _ | _, ⟨_, .dequeue _ _ _⟩, _
  | _, ⟨_, .toBeDestroyed _⟩, _ | _, ⟨_, .setToBeDestroyed _⟩, _ | _, ⟨_, .initialized _⟩, _
  | _, ⟨_, .setInitialized _⟩, _ | _, ⟨_, .freeCip _⟩, _ => .isTrue trivial

end Conserve

namespace Machine

variable (m : Machine)

theorem permits_iff (i : Cpu) {β : Type} (a : Access β) :
    m.Permits i a ↔ Conserve.own a m.mem ∧
      (∀ k ∈ a.instr.unsettles m.mem, ∀ j, j ≠ i → m.next (Access.grips · false) j ≠ some k) ∧
      ∀ x ∈ a.instr.gives m.mem, ∀ j, j ≠ i → m.next Conserve.leaves j ≠ some x :=
  ⟨fun h => ⟨h.own, h.grip, h.leave⟩, fun h => ⟨h.1, h.2.1, h.2.2⟩⟩

instance (i : Cpu) {β : Type} (a : Access β) : Decidable (m.Permits i a) :=
  -- Not by going through all CPUs, which the sets of options would allow as well.
  @decidable_of_iff _ _ (m.permits_iff i a).symm (@instDecidableAnd _ _ _ (@instDecidableAnd _ _
    (Option.decidableForallMem _) (Option.decidableForallMem _)))

instance (e : Step) : Decidable (m.Gentle e) :=
  match e with
  | .start _ _ => .isTrue trivial
  | .access i =>
    match h : m.thread i with
    | .step a _ => decidable_of_iff (m.Permits i a) (by simp [Gentle, h])
    | .pure _ => .isTrue (by simp [Gentle, h])
    | .fault _ => .isTrue (by simp [Gentle, h])

end Machine

namespace Conserve

variable {added : Set Cpu} {m : Machine} {i : Cpu} {β : Type} {a : Access β} {f : β → Code Unit}

theorem permits_of_gentle (h : m.Gentle (.access i)) (hi : m.thread i = .step a f) : m.Permits i a := by
  simpa [Machine.Gentle, hi] using h

theorem undisturbed_of_permits (h : m.Permits i a) (hok : ok a m.mem) {j : Cpu} (hj : j ≠ i) {γ : Type}
    {b : Access γ} {f' : γ → Code Unit} (hb : m.thread j = .step b f') :
    Undisturbed b m.mem (a.run m.mem).2 where
  grip k hk hc := by
    have hgrips : m.next (Access.grips · false) j = some k := by simpa [Machine.next, hb] using hk
    have hgrip := h.grip k
    obtain ⟨p, instr⟩ := a
    rw [Access.run_current]
    cases instr with
    | occupy k' o => simp [Instr.held, hc]
    | setCurrent k' v =>
      by_cases hm : k = k'
      · subst hm
        by_cases hv : m.mem.current k = v
        · simp [Instr.held, hv]
        · exact (hgrip (by simp [Instr.unsettles, hv]) j hj hgrips).elim
      · simp [Instr.held, hm]
    | _ => rfl
  idle k hk hidle := by
    have hgrips : m.next (Access.grips · false) j = some k := by simpa [Machine.next, hb] using hk
    have hgrip := h.grip k
    obtain ⟨p, instr⟩ := a
    rw [Access.run_idle]
    cases instr with
    | idleSet k' => simp [Instr.idled, hidle]
    | idleClr k' =>
      by_cases hm : k = k'
      · subst hm
        exact (hgrip (by simp [Instr.unsettles, hidle]) j hj hgrips).elim
      · simp [Instr.idled, hm, hidle]
    | _ => exact hidle
  manned _ _ hk hw := manned_run hok h.own hk hw
  leave c k hl hc := by
    have hleaves : m.next leaves j = some (c, k) := by simpa [Machine.next, hb] using hl
    have hleave := h.leave (c, k)
    obtain ⟨p, instr⟩ := a
    rw [Access.run_current]
    cases instr with
    | occupy k' o =>
      by_cases hm : k = k' ∧ m.mem.current k = none
      · obtain ⟨rfl, hnone⟩ := hm
        rintro ho
        have ho : o = some c := by simpa [Instr.held, hnone] using ho
        exact hleave (by simp [Instr.gives, hnone, ho]) j hj hleaves
      · simpa only [Instr.held, if_neg hm] using hc
    | setCurrent k' v =>
      by_cases hm : k = k'
      · subst hm
        rintro hv
        have hv : v = some c := by simpa [Instr.held] using hv
        exact hleave (by simp [Instr.gives, hv]) j hj hleaves
      · simpa only [Instr.held, if_neg hm] using hc
    | _ => exact hc
  owner _ hk := owner_run hk
  live hlive := live_run hlive h.own

structure Sound (added : Set Cpu) (m : Machine) : Prop where
  owing : m.Owing (aim added).goal fun _ _ => terms
  live : LiveHolders m.mem

theorem sound_step {e : Step} (h : Sound added m) (he : m.Gentle e) : Sound added (m.step e) := by
  obtain ⟨i, call, rfl, hi, hm⟩ | ⟨i, rfl, β, a, f, hi, hm⟩ | hm := m.step_cases e
  · rw [hm]
    exact ⟨h.owing.start hi h.live (Prog.Sat.post (code_outline i call) fun _ _ _ => trivial), h.live⟩
  · have hper := permits_of_gentle he hi
    have hok : ok a m.mem := h.owing.ok hi hper.own
    rw [hm]
    refine ⟨h.owing.access hi hper.own fun j hj γ b k hb => ?_, live_run h.live hper.own⟩
    exact undisturbed_of_permits hper hok hj hb
  · rw [hm]
    exact h

end Conserve

section Runs

open Conserve

/-- The CPU is idle, or a cell that is there holds it and lists it. -/
def Accounted (s : State) (k : Cpu) : Prop :=
  s.current k = none ∧ s.idleCpus k = true ∨
    ∃ c, s.current k = some c ∧ (s.cells c).freed = false ∧
      (s.lists c .current k = true ∨ s.lists c .new k = true)

/-- In a run from `s`, the CPUs in `added` are accounted for whenever no call is
under way. -/
def Conserves (added : Set Cpu) (s : State) (es : List Step) : Prop :=
  ∀ before after, es = before ++ after → (Machine.after (.idle s) before).Quiescent →
    ∀ k ∈ added, Accounted (Machine.after (.idle s) before).mem k

variable {added : Set Cpu} {s : State} {es : List Step}

theorem accounted_iff (hs : LiveHolders s) : (∀ k ∈ added, Accounted s k) ↔ ∀ x, ¬bad added x s := by
  constructor
  · rintro h ⟨o, k⟩ ⟨hk, hcur, hrest⟩
    obtain ⟨hnone, hidle⟩ | ⟨c, hc, -, hlist⟩ := h k hk
    · obtain rfl : o = none := hcur.symm.trans hnone
      exact absurd (hidle.symm.trans hrest) (by simp)
    · obtain rfl : o = some c := hcur.symm.trans hc
      obtain hl | hl := hlist
      · exact absurd (hl.symm.trans hrest.1) (by simp)
      · exact absurd (hl.symm.trans hrest.2) (by simp)
  · intro h k hk
    cases hc : s.current k with
    | none =>
      refine .inl ⟨hc, ?_⟩
      by_contra hidle
      exact h (none, k) ⟨hk, hc, by simpa using hidle⟩
    | some c =>
      refine .inr ⟨c, hc, hs k c hc, ?_⟩
      by_contra hlist
      exact h (some c, k) ⟨hk, hc, by simpa [not_or] using hlist⟩

/-- Cell 1 holds the first CPU and has its only worker there; the other CPUs are
idle. -/
def oneWorker : State where
  resources k := if k = 0 then ⟨some 1, some 1, 0⟩ else ⟨none, none, 0⟩
  idleCpus k := k ≠ 0
  cells c :=
    { Cell.new with
      cip := ⟨fun t k => (t = .current ∨ t = .reserved) ∧ c = 1 ∧ k = 0, fun _ => 0⟩
      workers := fun k => if c = 1 ∧ k = 0 then [⟨0, false⟩] else [] }

theorem oneWorker_accounted (k : Cpu) : Accounted oneWorker k := by
  by_cases hk : k = 0
  · subst hk
    exact .inr ⟨1, rfl, rfl, .inl rfl⟩
  · refine .inl ⟨?_, ?_⟩
    · have : (oneWorker.resources k).current = none := by simp [oneWorker, hk]
      exact this
    · simpa [oneWorker] using hk

/-- `sys_alloc` of one CPU by the cell. -/
def allocOne : List Step := .start 0 (.alloc 1 1 fun _ => 0) :: List.replicate 21 (.access 0)

end Runs

end Tukija.Core
