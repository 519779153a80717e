import Tukija.Sm.Queue

/-! The VMCSs of the vCPUs: what the processors hold of them, the queue of those in use on each CPU,
and when their content goes back to memory. -/
namespace Tukija.Vmcs

open Tukija.Sm (Links)

/-- `current` is `Vmcs::current`, `headptr` that of the queue, and `links` has the pointers of those
made for this CPU, which no other CPU changes.  The processor works on the VMCS `loaded`, and `held`
is what it holds of those active on it. -/
structure Core (V D : Type) where
  current : Option V
  headptr : Option V
  links : Links V
  loaded : Option V
  held : V → Option D

/-- A `Vmcs_state`, and the memory of its `Vmcs`. -/
structure State (κ D : Type) where
  cpu : κ
  active : Bool
  alive : Bool
  region : D

structure Machine (κ V D : Type) where
  core : κ → Core V D
  vmcs : V → State κ D

namespace Core

variable {V D : Type} (k : Core V D) (v : V)

def queued : Bool := (k.links.next v).isSome || (k.links.prev v).isSome

variable [DecidableEq V]

def enqueue : Core V D :=
  { k with headptr := (Sm.enqueue k.headptr k.links v).1, links := (Sm.enqueue k.headptr k.links v).2 }

def dequeue : Core V D :=
  { k with
    headptr := (Sm.dequeue k.headptr k.links (some v)).2.1
    links := (Sm.dequeue k.headptr k.links (some v)).2.2 }

end Core

namespace Machine

variable {κ V D : Type} [DecidableEq κ] [DecidableEq V] (m : Machine κ V D) (c : κ) (v : V)

def setCore (f : Core V D → Core V D) : Machine κ V D :=
  { m with core := Function.update m.core c (f (m.core c)) }

def setVmcs (f : State κ D → State κ D) : Machine κ V D :=
  { m with vmcs := Function.update m.vmcs v (f (m.vmcs v)) }

/-! ## The processor -/

/-- What the processor works on when `v` is active on it, and else will. -/
def held : D := ((m.core c).held v).getD (m.vmcs v).region

def vmptrld : Machine κ V D :=
  m.setCore c fun k => { k with loaded := some v, held := Function.update k.held v (some (m.held c v)) }

def vmclear : Machine κ V D :=
  (m.setVmcs v fun x => { x with region := m.held c v }).setCore c fun k =>
    { k with loaded := if k.loaded = some v then none else k.loaded, held := Function.update k.held v none }

def vmxoff : Machine κ V D := m.setCore c fun k => { k with loaded := none, held := fun _ => none }

/-- `none` when there is no current VMCS. -/
def read : Option D := (m.core c).loaded.bind (m.core c).held

def write (f : D → D) : Machine κ V D :=
  match (m.core c).loaded with
  | none => m
  | some v => m.setCore c fun k => { k with held := Function.update k.held v ((k.held v).map f) }

/-! ## `Vmcs` -/

/-- `Vmcs::make_current`. -/
def vmcsMakeCurrent : Machine κ V D :=
  if (m.core c).current = some v then m
  else (m.setCore c fun k => { k with current := some v }).vmptrld c v

/-- `Vmcs::clear`. -/
def vmcsClear : Machine κ V D :=
  (if (m.core c).current = some v then m.setCore c fun k => { k with current := none } else m).vmclear c v

/-! ## `Vmcs_state` -/

def makeCurrent : Machine κ V D :=
  let m := if c = (m.vmcs v).cpu ∧ (m.core c).queued v = false then m.setCore c (·.enqueue v) else m
  (m.vmcsMakeCurrent c v).setVmcs v fun x => { x with active := true }

def clear : Machine κ V D :=
  let m := if c = (m.vmcs v).cpu ∧ (m.core c).queued v = true then m.setCore c (·.dequeue v) else m
  if (m.vmcs v).active then (m.vmcsClear c v).setVmcs v fun x => { x with active := false } else m

/-- The loop of `Queue::for_each` with `clear`, from the element `v` on.  The element's pointers are
read after it has been cleared. -/
def clearLoop : Nat → Machine κ V D → V → Option (Machine κ V D)
  | 0, _, _ => none
  | fuel + 1, m, v =>
    let m := m.clear c v
    match (m.core c).links.next v with
    | none => some m
    | some n => if (m.core c).headptr = some n then some m else clearLoop fuel m n

def flushAllVmcs (fuel : Nat) : Option (Machine κ V D) :=
  match (m.core c).headptr with
  | none => some m
  | some v => clearLoop c fuel m v

/-- The constructor of a vCPU for the CPU `cpu`, on the CPU `c`; what it writes is `d`. -/
def create (cpu : κ) (d : D) : Machine κ V D :=
  let m := m.setVmcs v fun x => { x with cpu, active := false, alive := true }
  let m := m.setCore cpu fun k => { k with links := (k.links.setNext v none).setPrev v none }
  let m := (m.vmcsMakeCurrent c v).write c fun _ => d
  (m.makeCurrent c v).clear c v

/-- A vCPU enters its guest, leaves it again and has its state read and written. -/
def use (f : D → D) : Machine κ V D := (m.makeCurrent c v).write c f

/-- `Ec::flush_from_cpu`. -/
def flush : Machine κ V D := if c = (m.vmcs v).cpu then m.clear c v else m

/-- `Ec::~Ec` and `Vmcs_state::destroy`. -/
def destroy : Machine κ V D :=
  (((m.clear c v).makeCurrent c v).clear c v).setVmcs v fun x => { x with alive := false }

def hltPrepare (fuel : Nat) : Option (Machine κ V D) := (m.flushAllVmcs c fuel).map (vmxoff · c)

inductive Act (κ V D : Type) where
  | create (c : κ) (v : V) (cpu : κ) (d : D)
  | use (c : κ) (v : V) (f : D → D)
  | flush (c : κ) (v : V)
  | destroy (c : κ) (v : V)
  | sleep (c : κ) (fuel : Nat)

def step : Act κ V D → Option (Machine κ V D)
  | .create c v cpu d => some (m.create c v cpu d)
  | .use c v f => some (m.use c v f)
  | .flush c v => some (m.flush c v)
  | .destroy c v => some (m.destroy c v)
  | .sleep c fuel => m.hltPrepare c fuel

/-- A vCPU is made in memory that is free, and runs on its own CPU. -/
def Ready : Act κ V D → Prop
  | .create _ v _ _ => (m.vmcs v).alive = false
  | .use c v _ => (m.vmcs v).alive ∧ c = (m.vmcs v).cpu
  | .flush _ v => (m.vmcs v).alive
  | .destroy _ v => (m.vmcs v).alive
  | .sleep _ _ => True

/-- No vCPU is destroyed on another CPU than its own before it has been flushed from its own. -/
def Tame : Act κ V D → Prop
  | .destroy c v => c = (m.vmcs v).cpu ∨ (m.core (m.vmcs v).cpu).queued v = false
  | _ => True

end Machine

end Tukija.Vmcs
