import Tukija.Core.State

/-! What one access does to each part of the memory. -/
namespace Tukija.Core

namespace State

variable (s : State) (c d : CellId) (j k : Cpu) (t u : CoreSet)

@[simp] theorem resources_owner : (s.resources k).owner = s.owner k := rfl

@[simp] theorem resources_current : (s.resources k).current = s.current k := rfl

section Resources

variable (f : Resource → Resource)

@[simp] theorem setResource_cells : (s.setResource j f).cells = s.cells := rfl

@[simp] theorem setResource_idleCpus : (s.setResource j f).idleCpus = s.idleCpus := rfl

@[simp] theorem setResource_flag : (s.setResource j f).flag c k = s.flag c k := rfl

@[simp] theorem setResource_workers : (s.setResource j f).workers c k = s.workers c k := rfl

@[simp] theorem setResource_lists : (s.setResource j f).lists c t k = s.lists c t k := rfl

theorem setResource_resources :
    (s.setResource j f).resources k = if k = j then f (s.resources k) else s.resources k := by
  by_cases h : k = j
  · subst h
    simp [setResource]
  · simp [setResource, h]

@[simp] theorem setResource_owner :
    (s.setResource j f).owner k = if k = j then (f (s.resources k)).owner else s.owner k := by
  rw [owner, setResource_resources]
  split <;> rfl

@[simp] theorem setResource_current :
    (s.setResource j f).current k = if k = j then (f (s.resources k)).current else s.current k := by
  rw [current, setResource_resources]
  split <;> rfl

end Resources

section Idle

variable (f : Cpu → Bool)

@[simp] theorem idle_owner : ({ s with idleCpus := f } : State).owner k = s.owner k := rfl

@[simp] theorem idle_current : ({ s with idleCpus := f } : State).current k = s.current k := rfl

@[simp] theorem idle_flag : ({ s with idleCpus := f } : State).flag c k = s.flag c k := rfl

@[simp] theorem idle_workers : ({ s with idleCpus := f } : State).workers c k = s.workers c k := rfl

@[simp] theorem idle_lists : ({ s with idleCpus := f } : State).lists c t k = s.lists c t k := rfl

end Idle

section Cells

variable (f : Cell → Cell)

@[simp] theorem setCell_resources : (s.setCell c f).resources = s.resources := rfl

@[simp] theorem setCell_idleCpus : (s.setCell c f).idleCpus = s.idleCpus := rfl

@[simp] theorem setCell_owner : (s.setCell c f).owner k = s.owner k := rfl

@[simp] theorem setCell_current : (s.setCell c f).current k = s.current k := rfl

theorem setCell_cells : (s.setCell c f).cells d = if d = c then f (s.cells d) else s.cells d := by
  by_cases h : d = c
  · subst h
    simp [setCell]
  · simp [setCell, h]

theorem setCell_part {f} {X : Type} (g : Cell → X) (h : ∀ x, g (f x) = g x) :
    g ((s.setCell c f).cells d) = g (s.cells d) := by
  rw [setCell_cells]
  split
  · exact h _
  · rfl

end Cells

section Cip

variable (f : Cip → Cip) (g : (Cpu → Bool) → Cpu → Bool) (l : List Worker → List Worker) (v : Nat)

theorem useCip_part {X : Type} (g : Cell → X) (h : ∀ x y b, g { x with cip := y, strayed := b } = g x) :
    g ((s.useCip c f).cells d) = g (s.cells d) :=
  setCell_part s c d g fun x => h x _ _

@[simp] theorem useCip_resources : (s.useCip c f).resources = s.resources := rfl

@[simp] theorem useCip_idleCpus : (s.useCip c f).idleCpus = s.idleCpus := rfl

@[simp] theorem useCip_owner : (s.useCip c f).owner k = s.owner k := rfl

@[simp] theorem useCip_current : (s.useCip c f).current k = s.current k := rfl

@[simp] theorem useCip_workers : (s.useCip c f).workers d k = s.workers d k :=
  setCell_part s c d (fun x => x.workers k) fun _ => rfl

@[simp] theorem useCip_flag : (s.useCip c id).flag d k = s.flag d k :=
  setCell_part s c d (fun x => x.cip.yieldFlag k) fun _ => rfl

@[simp] theorem useCip_lists : (s.useCip c id).lists d t k = s.lists d t k :=
  setCell_part s c d (fun x => x.cip.cores t k) fun _ => rfl

@[simp] theorem setCores_resources : (s.setCores c t g).resources = s.resources := rfl

@[simp] theorem setCores_idleCpus : (s.setCores c t g).idleCpus = s.idleCpus := rfl

@[simp] theorem setCores_owner : (s.setCores c t g).owner k = s.owner k := rfl

@[simp] theorem setCores_current : (s.setCores c t g).current k = s.current k := rfl

@[simp] theorem setCores_workers : (s.setCores c t g).workers d k = s.workers d k :=
  useCip_workers _ _ _ _ _

@[simp] theorem setCores_flag : (s.setCores c t g).flag d k = s.flag d k := by
  unfold setCores useCip
  exact setCell_part s c d (fun x => x.cip.yieldFlag k) fun _ => rfl

@[simp] theorem setCores_lists : (s.setCores c t g).lists d u k =
    if d = c ∧ u = t then g (s.lists c t) k else s.lists d u k := by
  rw [lists, setCores, useCip, setCell_cells]
  by_cases hd : d = c
  · subst hd
    by_cases hu : u = t
    · subst hu
      rw [if_pos rfl, if_pos ⟨rfl, rfl⟩]
      exact congrFun (Function.update_self _ _ _) k
    · simp [hu, lists]
  · simp [hd, lists]

@[simp] theorem setFlag_resources : (s.setFlag c j v).resources = s.resources := rfl

@[simp] theorem setFlag_idleCpus : (s.setFlag c j v).idleCpus = s.idleCpus := rfl

@[simp] theorem setFlag_owner : (s.setFlag c j v).owner k = s.owner k := rfl

@[simp] theorem setFlag_current : (s.setFlag c j v).current k = s.current k := rfl

@[simp] theorem setFlag_workers : (s.setFlag c j v).workers d k = s.workers d k :=
  useCip_workers _ _ _ _ _

@[simp] theorem setFlag_lists : (s.setFlag c j v).lists d t k = s.lists d t k := by
  unfold setFlag useCip
  exact setCell_part s c d (fun x => x.cip.cores t k) fun _ => rfl

@[simp] theorem setFlag_flag : (s.setFlag c j v).flag d k =
    if d = c ∧ k = j then v else s.flag d k := by
  rw [flag, setFlag, useCip, setCell_cells]
  by_cases hd : d = c
  · subst hd
    by_cases hk : k = j
    · subst hk
      simp
    · simp [hk, flag]
  · simp [hd, flag]

@[simp] theorem setWorkers_resources : (s.setWorkers c j l).resources = s.resources := rfl

@[simp] theorem setWorkers_idleCpus : (s.setWorkers c j l).idleCpus = s.idleCpus := rfl

@[simp] theorem setWorkers_owner : (s.setWorkers c j l).owner k = s.owner k := rfl

@[simp] theorem setWorkers_current : (s.setWorkers c j l).current k = s.current k := rfl

@[simp] theorem setWorkers_flag : (s.setWorkers c j l).flag d k = s.flag d k :=
  setCell_part s c d (fun x => x.cip.yieldFlag k) fun _ => rfl

@[simp] theorem setWorkers_lists : (s.setWorkers c j l).lists d t k = s.lists d t k :=
  setCell_part s c d (fun x => x.cip.cores t k) fun _ => rfl

@[simp] theorem setWorkers_workers : (s.setWorkers c j l).workers d k =
    if d = c ∧ k = j then l (s.workers d k) else s.workers d k := by
  rw [workers, setWorkers, setCell_cells]
  by_cases hd : d = c
  · subst hd
    by_cases hk : k = j
    · subst hk
      simp [workers]
    · simp [hk, workers]
  · simp [hd, workers]

end Cip

end State

namespace Instr

attribute [local simp] run

variable {β : Type} (i : Instr β) (s : State) (c : CellId) (t : CoreSet) (k : Cpu)

/-- The owner of `k` after the access. -/
def owned : Option CellId :=
  match i with
  | .confer j c => if k = j then some c else s.owner k
  | _ => s.owner k

/-- The holder of `k` after the access. -/
def held : Option CellId :=
  match i with
  | .occupy j c => if k = j ∧ s.current k = none then c else s.current k
  | .setCurrent j c => if k = j then c else s.current k
  | _ => s.current k

/-- The hazards of `k` after the access. -/
def risked : Nat :=
  match i with
  | .setHazards j v => if k = j then v else (s.resources k).hazards
  | _ => (s.resources k).hazards

/-- Whether `k` is marked idle after the access. -/
def idled : Bool :=
  match i with
  | .idleSet j => if k = j then true else s.idleCpus k
  | .idleClr j => if k = j then false else s.idleCpus k
  | _ => s.idleCpus k

/-- The yield flag of `c` on `k` after the access. -/
def flagged : Nat :=
  match i with
  | .setFlag d j v => if c = d ∧ k = j then v else s.flag c k
  | .casFlag d j => if (c = d ∧ k = j) ∧ s.flag c k = 0 then 1 else s.flag c k
  | .create d => if c = d then 0 else s.flag c k
  | _ => s.flag c k

/-- The workers of `c` on `k` after the access. -/
def manned : List Worker :=
  match i with
  | .up d j n => if c = d ∧ k = j then (s.workers c k).modify n Worker.up else s.workers c k
  | .dn d j n => if c = d ∧ k = j then (s.workers c k).modify n Worker.dn else s.workers c k
  | .enqueue d j => if c = d ∧ k = j then s.workers c k ++ [⟨0, false⟩] else s.workers c k
  | .dequeue d j n => if c = d ∧ k = j then (s.workers c k).eraseIdx n else s.workers c k
  | .create d => if c = d then [] else s.workers c k
  | _ => s.workers c k

/-- Whether `k` is in a set of `c` after the access. -/
def listed : Bool :=
  match i with
  | .coresSet d u j => if (c = d ∧ t = u) ∧ k = j then true else s.lists c t k
  | .coresClr d u j => if (c = d ∧ t = u) ∧ k = j then false else s.lists c t k
  | .coresZero d u w => if (c = d ∧ t = u) ∧ k ∈ word w then false else s.lists c t k
  | .create d => if c = d then false else s.lists c t k
  | _ => s.lists c t k

def enters : Option (CellId × CoreSet × Cpu) :=
  match i with
  | .coresSet d u j => some (d, u, j)
  | _ => none

/-- Whether `c` is to be destroyed after the access. -/
def doomed : Bool :=
  match i with
  | .setToBeDestroyed d => if c = d then true else (s.cells c).toBeDestroyed
  | .create d => if c = d then false else (s.cells c).toBeDestroyed
  | _ => (s.cells c).toBeDestroyed

/-- Whether `c` has been freed after the access. -/
def gone : Bool :=
  match i with
  | .freeCell d => if c = d then true else (s.cells c).freed
  | .create d => if c = d then false else (s.cells c).freed
  | _ => (s.cells c).freed

theorem run_owner : (i.run s).2.owner k = i.owned s k := by
  cases i with
  | occupy j c => by_cases h : s.current j = none <;> simp [run, owned, h]
  | casFlag d j => by_cases h : s.flag d j = 0 <;> simp [run, owned, h]
  | _ => simp [run, owned]

theorem run_current : (i.run s).2.current k = i.held s k := by
  cases i with
  | occupy j c =>
    by_cases hk : k = j
    · subst hk
      by_cases h : s.current k = none <;> simp [run, held, h]
    · by_cases h : s.current j = none <;> simp [run, held, h, hk]
  | casFlag d j => by_cases h : s.flag d j = 0 <;> simp [run, held, h]
  | _ => simp [run, held]

theorem run_hazards : ((i.run s).2.resources k).hazards = i.risked s k := by
  cases i with
  | occupy j c =>
    by_cases h : s.current j = none <;> by_cases hk : k = j <;>
      simp [run, risked, h, hk, State.setResource_resources]
  | casFlag d j => by_cases h : s.flag d j = 0 <;> simp [run, risked, h]
  | confer j c | setCurrent j c | setHazards j c =>
    by_cases hk : k = j <;> simp [run, risked, hk, State.setResource_resources]
  | _ => simp [run, risked]

theorem run_idle : (i.run s).2.idleCpus k = i.idled s k := by
  cases i with
  | occupy j c => by_cases h : s.current j = none <;> simp [run, idled, h]
  | casFlag d j => by_cases h : s.flag d j = 0 <;> simp [run, idled, h]
  | idleSet j => simp [run, idled, Function.update_apply]
  | idleClr j => simp [run, idled, Function.update_apply]
  | _ => simp [run, idled]

theorem run_flag : (i.run s).2.flag c k = i.flagged s c k := by
  cases i with
  | occupy j d => by_cases h : s.current j = none <;> simp [run, flagged, h]
  | casFlag d j =>
    by_cases hc : c = d ∧ k = j
    · obtain ⟨rfl, rfl⟩ := hc
      by_cases h : s.flag c k = 0 <;> simp [run, flagged, h]
    · by_cases h : s.flag d j = 0 <;> simp [run, flagged, h, hc]
  | create d =>
    simp only [run, flagged, State.flag, State.setCell_cells]
    split <;> rfl
  | setToBeDestroyed d | setInitialized d | freeCip d | freeCell d =>
    simp only [run, flagged]
    exact State.setCell_part s d c (fun x => x.cip.yieldFlag k) fun _ => rfl
  | _ => simp [run, flagged]

theorem run_workers : (i.run s).2.workers c k = i.manned s c k := by
  cases i with
  | occupy j d => by_cases h : s.current j = none <;> simp [run, manned, h]
  | casFlag d j => by_cases h : s.flag d j = 0 <;> simp [run, manned, h]
  | create d =>
    simp only [run, manned, State.workers, State.setCell_cells]
    split <;> rfl
  | setToBeDestroyed d | setInitialized d | freeCip d | freeCell d =>
    simp only [run, manned]
    exact State.setCell_part s d c (fun x => x.workers k) fun _ => rfl
  | _ => simp [run, manned]

theorem run_lists : (i.run s).2.lists c t k = i.listed s c t k := by
  cases i with
  | occupy j d => by_cases h : s.current j = none <;> simp [run, listed, h]
  | casFlag d j => by_cases h : s.flag d j = 0 <;> simp [run, listed, h]
  | coresSet d u j | coresClr d u j | coresZero d u j =>
    by_cases hc : c = d ∧ t = u
    · obtain ⟨rfl, rfl⟩ := hc
      simp [run, listed, Function.update_apply]
    · simp [run, listed, hc]
  | create d =>
    simp only [run, listed, State.lists, State.setCell_cells]
    split <;> rfl
  | setToBeDestroyed d | setInitialized d | freeCip d | freeCell d =>
    simp only [run, listed]
    exact State.setCell_part s d c (fun x => x.cip.cores t k) fun _ => rfl
  | _ => simp [run, listed]

def Fates : Prop :=
  match i with
  | .setToBeDestroyed _ | .create _ | .freeCell _ => True
  | _ => False

/-- All other accesses leave alone what depends neither on the info page nor on
the workers. -/
theorem run_part {X : Type} (g : Cell → X) (hpage : ∀ x y b, g { x with cip := y, strayed := b } = g x)
    (hworkers : ∀ x y, g { x with workers := y } = g x)
    (hinit : ∀ x b, g { x with initialized := b } = g x)
    (hfree : ∀ x b, g { x with cipFreed := b } = g x) (hi : ¬i.Fates) :
    g ((i.run s).2.cells c) = g (s.cells c) := by
  cases i with
  | setToBeDestroyed d | create d | freeCell d => exact (hi trivial).elim
  | occupy j d => by_cases h : s.current j = none <;> simp [run, h]
  | casFlag d j =>
    by_cases h : s.flag d j = 0
    · simp only [run, h, if_true, State.setFlag]
      exact State.useCip_part _ _ _ _ g hpage
    · simp only [run, h, if_false]
      exact State.useCip_part _ _ _ _ g hpage
  | coresSet d u j | coresClr d u j | coresZero d u j =>
    simp only [run, State.setCores]
    exact State.useCip_part _ _ _ _ g hpage
  | setFlag d j v =>
    simp only [run, State.setFlag]
    exact State.useCip_part _ _ _ _ g hpage
  | coresWord d u j | flag d j =>
    simp only [run]
    exact State.useCip_part _ _ _ _ g hpage
  | up d j n | dn d j n | enqueue d j | dequeue d j n =>
    simp only [run, State.setWorkers]
    exact State.setCell_part s d c g fun x => hworkers x _
  | setInitialized d =>
    simp only [run]
    exact State.setCell_part s d c g fun x => hinit x true
  | freeCip d =>
    simp only [run]
    exact State.setCell_part s d c g fun x => hfree x true
  | _ => simp [run]

theorem run_toBeDestroyed : ((i.run s).2.cells c).toBeDestroyed = i.doomed s c := by
  cases i with
  | setToBeDestroyed d | create d | freeCell d =>
    simp only [run, doomed, State.setCell_cells]
    split <;> rfl
  | _ =>
    exact run_part _ s c (fun x => x.toBeDestroyed) (fun _ _ _ => rfl) (fun _ _ => rfl) (fun _ _ => rfl)
      (fun _ _ => rfl) id

theorem run_freed : ((i.run s).2.cells c).freed = i.gone s c := by
  cases i with
  | setToBeDestroyed d | create d | freeCell d =>
    simp only [run, gone, State.setCell_cells]
    split <;> rfl
  | _ =>
    exact run_part _ s c (fun x => x.freed) (fun _ _ _ => rfl) (fun _ _ => rfl) (fun _ _ => rfl)
      (fun _ _ => rfl) id

theorem listed_cases (h : i.listed s c t k = true) :
    s.lists c t k = true ∨ i.enters = some (c, t, k) := by
  cases i with
  | coresSet d u j =>
    by_cases hm : (c = d ∧ t = u) ∧ k = j
    · obtain ⟨⟨rfl, rfl⟩, rfl⟩ := hm
      exact .inr rfl
    · simp only [listed, if_neg hm] at h
      exact .inl h
  | coresClr d u j =>
    by_cases hm : (c = d ∧ t = u) ∧ k = j
    · simp [listed, hm] at h
    · simp only [listed, if_neg hm] at h
      exact .inl h
  | coresZero d u w =>
    by_cases hm : (c = d ∧ t = u) ∧ k ∈ word w
    · simp [listed, hm] at h
    · simp only [listed, if_neg hm] at h
      exact .inl h
  | create d =>
    by_cases hm : c = d
    · simp [listed, hm] at h
    · simp only [listed, if_neg hm] at h
      exact .inl h
  | _ => exact .inl h

end Instr

namespace Access

variable {β : Type} (a : Access β) (s : State) (c : CellId) (t : CoreSet) (k : Cpu)

theorem run_owner : (a.run s).2.owner k = a.instr.owned s k := a.instr.run_owner s k

theorem run_current : (a.run s).2.current k = a.instr.held s k := a.instr.run_current s k

theorem run_hazards : ((a.run s).2.resources k).hazards = a.instr.risked s k :=
  a.instr.run_hazards s k

theorem run_idle : (a.run s).2.idleCpus k = a.instr.idled s k := a.instr.run_idle s k

theorem run_flag : (a.run s).2.flag c k = a.instr.flagged s c k := a.instr.run_flag s c k

theorem run_workers : (a.run s).2.workers c k = a.instr.manned s c k := a.instr.run_workers s c k

theorem run_lists : (a.run s).2.lists c t k = a.instr.listed s c t k := a.instr.run_lists s c t k

theorem run_toBeDestroyed : ((a.run s).2.cells c).toBeDestroyed = a.instr.doomed s c :=
  a.instr.run_toBeDestroyed s c

theorem run_freed : ((a.run s).2.cells c).freed = a.instr.gone s c := a.instr.run_freed s c

end Access

end Tukija.Core
