import Tukija.Core.Exclusive

/-! Runs in which no CPU is taken from its holder behind another CPU's back: every
CPU that the kernel lists for a cell is held by that cell. -/
namespace Tukija.Core

open Tukija.Lib.Threads

namespace Machine

variable (m : Machine)

/-- The CPU whose holder `j` acts on. -/
def grips (j : Cpu) : Option Cpu := m.next (Access.grips · ((m.call j).any Call.controls)) j

/-- The cell that `j` allocates for. -/
def allocating (j : Cpu) : Option CellId := m.next (fun _ => (m.call j).bind Call.allocates) j

def moving : Step → Option (Cpu × Cpu × Option CellId)
  | .start _ _ => none
  | .access i =>
    match m.thread i with
    | .step ⟨_, .setCurrent k v⟩ _ => some (i, k, v)
    | _ => none

def taking : Step → Option (Cpu × Cpu)
  | .start _ _ => none
  | .access i =>
    match m.thread i with
    | .step ⟨_, .occupy k _⟩ _ => if m.mem.current k = none then some (i, k) else none
    | _ => none

/-- A CPU that `transfer` finds idle. -/
def checking : Step → Option Cpu
  | .start _ _ => none
  | .access i =>
    match m.thread i with
    | .step ⟨_, .idleChk k⟩ _ => if m.mem.idleCpus k then some k else none
    | _ => none

def adding : Step → Bool
  | .start _ _ => false
  | .access i =>
    match m.thread i with
    | .step ⟨p, .coresSet _ t _⟩ _ => p = .user ∧ (t = .new ∨ t = .current)
    | _ => false

/-- The kernel enters a CPU into the set of new or current CPUs of a cell. -/
def entering : Step → Option (CellId × Cpu)
  | .start _ _ => none
  | .access i =>
    match m.thread i with
    | .step ⟨p, .coresSet c t k⟩ _ => if p ≠ .user ∧ (t = .new ∨ t = .current) then some (c, k) else none
    | _ => none

/-- A CPU changes its holder while no other CPU acts on the old one, its holder
allocates nowhere, and gives it up itself or does not list it; `transfer` takes
CPUs that are free, and undisturbed; and user space does not add CPUs. -/
structure Careful (e : Step) : Prop where
  grip : ∀ x ∈ m.moving e, m.mem.current x.2.1 ≠ x.2.2 → ∀ j, j ≠ x.1 → m.grips j ≠ some x.2.1
  alloc : ∀ x ∈ m.moving e, ∀ h ∈ m.mem.current x.2.1, x.2.2 ≠ some h → ∀ j, m.allocating j ≠ some h
  loser : ∀ x ∈ m.moving e, ∀ h ∈ m.mem.current x.2.1, x.2.2 ≠ some h →
    (m.call x.1).bind Call.cell = some h ∨ m.mem.lists h .current x.2.1 = false
  take : ∀ x ∈ m.taking e, ∀ j, j ≠ x.1 → (m.call j).any Call.controls = true → m.grips j ≠ some x.2
  check : ∀ k ∈ m.checking e, m.mem.current k = none
  user : m.adding e = false

theorem careful_iff (e : Step) :
    m.Careful e ↔
      (∀ x ∈ m.moving e, (m.mem.current x.2.1 ≠ x.2.2 → ∀ j, j ≠ x.1 → m.grips j ≠ some x.2.1) ∧
        ∀ h ∈ m.mem.current x.2.1, x.2.2 ≠ some h → (∀ j, m.allocating j ≠ some h) ∧
          ((m.call x.1).bind Call.cell = some h ∨ m.mem.lists h .current x.2.1 = false)) ∧
      (∀ x ∈ m.taking e, ∀ j, j ≠ x.1 → (m.call j).any Call.controls = true →
        m.grips j ≠ some x.2) ∧
      (∀ k ∈ m.checking e, m.mem.current k = none) ∧ m.adding e = false := by
  constructor
  · intro h
    exact ⟨fun x hx => ⟨h.grip x hx, fun c hc hv => ⟨h.alloc x hx c hc hv, h.loser x hx c hc hv⟩⟩,
      h.take, h.check, h.user⟩
  · rintro ⟨hmove, htake, hcheck, huser⟩
    exact ⟨fun x hx => (hmove x hx).1, fun x hx c hc hv => ((hmove x hx).2 c hc hv).1,
      fun x hx c hc hv => ((hmove x hx).2 c hc hv).2, htake, hcheck, huser⟩

instance (e : Step) : Decidable (m.Careful e) :=
  -- Not by going through all CPUs, which the sets of options would allow as well.
  @decidable_of_iff _ _ (m.careful_iff e).symm (@instDecidableAnd _ _
    (Option.decidableForallMem _) (@instDecidableAnd _ _ (Option.decidableForallMem _)
      (@instDecidableAnd _ _ (Option.decidableForallMem _) _)))

end Machine

namespace Exclusive

variable {m : Machine} {i : Cpu} {β : Type} {a : Access β} {f : β → Code Unit}

theorem own_of_careful (h : m.Careful (.access i)) (hi : m.thread i = .step a f) :
    own (m.call i) a m.mem := by
  obtain ⟨p, instr⟩ := a
  cases instr with
  | setCurrent k v =>
    intro c hc hv
    have hmove : (i, k, v) ∈ m.moving (.access i) := by simp [Machine.moving, hi]
    refine ⟨?_, h.loser _ hmove c hc hv⟩
    have := h.alloc _ hmove c hc hv i
    simpa [Machine.allocating, Machine.next, hi] using this
  | idleChk k =>
    intro hidle
    exact h.check k (by simp [Machine.checking, hi, hidle])
  | coresSet c t k =>
    rintro rfl
    have := h.user
    constructor
    · rintro rfl
      simp [Machine.adding, hi] at this
    · rintro rfl
      simp [Machine.adding, hi] at this
  | _ => trivial

theorem undisturbed_of_careful (h : m.Careful (.access i)) (hi : m.thread i = .step a f)
    (hok : ok a m.mem) {j : Cpu} (hj : j ≠ i) {γ : Type} {b : Access γ} {f' : γ → Code Unit}
    (hb : m.thread j = .step b f') : Undisturbed (m.call j) b m.mem (a.run m.mem).2 where
  grip k hk hc := by
    have hgrips : m.grips j = some k := by simpa [Machine.grips, Machine.next, hb] using hk
    obtain ⟨p, instr⟩ := a
    rw [Access.run_current]
    cases instr with
    | occupy k' o =>
      by_cases hm : k = k' ∧ m.mem.current k = none
      · obtain ⟨rfl, hnone⟩ := hm
        have htake : (i, k) ∈ m.taking (.access i) := by simp [Machine.taking, hi, hnone]
        obtain hctrl | hne := hc
        · exact (h.take _ htake j hj hctrl hgrips).elim
        · exact (hne hnone).elim
      · simp [Instr.held, hm]
    | setCurrent k' v =>
      by_cases hm : k = k'
      · subst hm
        by_cases hv : m.mem.current k = v
        · simp [Instr.held, hv]
        · have hmove : (i, k, v) ∈ m.moving (.access i) := by simp [Machine.moving, hi]
          exact (h.grip _ hmove hv j hj hgrips).elim
      · simp [Instr.held, hm]
    | _ => rfl
  alloc c k hcall hc := by
    have halloc : m.allocating j = some c := by simpa [Machine.allocating, Machine.next, hb] using hcall
    obtain ⟨p, instr⟩ := a
    rw [Access.run_current]
    cases instr with
    | occupy k' o => simp [Instr.held, hc]
    | setCurrent k' v =>
      by_cases hm : k = k'
      · subst hm
        by_cases hv : v = some c
        · simp [Instr.held, hv]
        · have hmove : (i, k, v) ∈ m.moving (.access i) := by simp [Machine.moving, hi]
          exact (h.alloc _ hmove c hc hv j halloc).elim
      · simp [Instr.held, hm, hc]
    | _ => exact hc
  new c k hnew := new_run hnew (own_of_careful h hi) hok
  doomed _ hc := doomed_run hok hc

structure Sound (m : Machine) : Prop where
  owing : m.Owing aim.goal fun _ call => terms call
  alive : Alive m.mem

theorem sound_step {m : Machine} {e : Step} (h : Sound m) (hc : m.Careful e) (he : Allocates e) :
    Sound (m.step e) := by
  obtain ⟨i, call, rfl, hi, hm⟩ | ⟨i, rfl, β, a, f, hi, hm⟩ | hm := m.step_cases e
  · rw [hm]
    exact ⟨h.owing.start hi h.alive (code_outline i he), h.alive⟩
  · have ho := own_of_careful hc hi
    have hok : ok a m.mem := h.owing.ok hi ho
    rw [hm]
    refine ⟨h.owing.access hi ho fun j hj γ b k hb => ?_, alive_run h.alive hok⟩
    exact undisturbed_of_careful hc hi hok hj hb
  · rw [hm]
    exact h

theorem Sound.entering {m : Machine} {e : Step} (h : Sound m) (hc : m.Careful e) {x : CellId × Cpu}
    (hx : x ∈ m.entering e) : m.mem.current x.2 = some x.1 := by
  cases e with
  | start i call => simp [Machine.entering] at hx
  | access i =>
    cases hi : m.thread i with
    | pure u => simp [Machine.entering, hi] at hx
    | fault e => simp [Machine.entering, hi] at hx
    | step a f =>
      have hok : ok a m.mem := h.owing.ok hi (own_of_careful hc hi)
      obtain ⟨p, instr⟩ := a
      cases instr with
      | coresSet c t k =>
        by_cases hp : p ≠ .user ∧ (t = .new ∨ t = .current)
        · obtain rfl : (c, k) = x := by simpa [Machine.entering, hi, hp.1, hp.2] using hx
          exact hok hp.1 hp.2
        · simp [Machine.entering, hi, hp] at hx
      | _ => simp [Machine.entering, hi] at hx

end Exclusive

section Runs

open Exclusive

/-- Nothing is to be destroyed, and what is listed is held. -/
structure Tidy (s : State) : Prop where
  alive : Alive s
  held : ∀ c k, s.lists c .current k = true → s.current k = some c

/-- In a run from `s`, the kernel enters a CPU into the set of new or current
CPUs of a cell only while that cell holds it, and whenever no call is under way,
no two cells list the same CPU. -/
structure CoresExclusive (s : State) (es : List Step) : Prop where
  entered : ∀ before e after, es = before ++ e :: after →
    ∀ x ∈ (Machine.after (.idle s) before).entering e,
      (Machine.after (.idle s) before).mem.current x.2 = some x.1
  listed : ∀ before after, es = before ++ after → (Machine.after (.idle s) before).Quiescent →
    ∀ c d k, (Machine.after (.idle s) before).mem.lists c .current k = true →
      (Machine.after (.idle s) before).mem.lists d .current k = true → c = d

variable {s : State} {es : List Step}

/-- Cell 1 has lent the first CPU to cell 2, which lists it; every cell has a
worker on every CPU. -/
def lentListed : State where
  resources k := if k = 0 then ⟨some 1, some 2, 0⟩ else ⟨none, none, 0⟩
  idleCpus k := k ≠ 0
  cells c :=
    { Cell.new with
      cip := ⟨fun t k => t = .current ∧ c = 2 ∧ k = 0, fun _ => 0⟩
      workers := fun _ => [⟨0, false⟩] }

theorem lentListed_tidy : Tidy lentListed := by
  refine ⟨fun _ => rfl, fun c k h => ?_⟩
  have h : (CoreSet.current = .current ∧ c = 2 ∧ k = 0 : Bool) = true := h
  obtain ⟨-, rfl, rfl⟩ := of_decide_eq_true h
  rfl

end Runs

end Tukija.Core
