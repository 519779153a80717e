import Tukija.Lib.Threads

/-! The data of the core allocator: one resource per CPU, and for each cell its
info page and its workers.  An instruction is one access to this memory. -/
namespace Tukija.Core

open Tukija.Lib.Threads

/-- `NUM_CPU` is 256. -/
abbrev Cpu := Fin 256

instance numCpu_neZero : NeZero 256 := ⟨by decide⟩

instance cpu_lawfulBEq : LawfulBEq Cpu := inferInstance

abbrev CellId := Nat

/-- The CPUs of one machine word of a `Cpuset`. -/
def word (i : Fin 4) : List Cpu := (List.finRange 256).filter fun k => k.val / 64 = i.val

inductive CoreSet where
  | current
  | reserved
  | new
  | reclaimed
  deriving DecidableEq, Repr

/-- `struct Cip`, without what is for the user or for channels only. -/
structure Cip where
  cores : CoreSet → Cpu → Bool
  yieldFlag : Cpu → Nat

/-- The semaphore of a worker, and whether the worker waits on it. -/
structure Worker where
  counter : Nat
  blocked : Bool
  deriving DecidableEq, Repr

/-- `class Cell`.  The last three fields say whether its info page and the cell
itself have been given back, and whether the page was used after that. -/
structure Cell where
  cip : Cip
  workers : Cpu → List Worker
  toBeDestroyed : Bool
  initialized : Bool
  cipFreed : Bool
  freed : Bool
  strayed : Bool

/-- What `sys_create_cell` makes. -/
def Cell.new : Cell where
  cip := ⟨fun _ _ => false, fun _ => 0⟩
  workers _ := []
  toBeDestroyed := false
  initialized := false
  cipFreed := false
  freed := false
  strayed := false

/-- `class Cpu_resource`. -/
structure Resource where
  owner : Option CellId
  current : Option CellId
  hazards : Nat
  deriving DecidableEq, Repr

/-- `class Core_allocator`, and all cells. -/
structure State where
  resources : Cpu → Resource
  idleCpus : Cpu → Bool
  cells : CellId → Cell

namespace State

variable (s : State)

def owner (k : Cpu) : Option CellId := (s.resources k).owner

def current (k : Cpu) : Option CellId := (s.resources k).current

def flag (c : CellId) (k : Cpu) : Nat := (s.cells c).cip.yieldFlag k

def workers (c : CellId) (k : Cpu) : List Worker := (s.cells c).workers k

/-- `k` is in one of the sets of `c`. -/
def lists (c : CellId) (t : CoreSet) (k : Cpu) : Bool := (s.cells c).cip.cores t k

def setResource (k : Cpu) (f : Resource → Resource) : State :=
  { s with resources := Function.update s.resources k (f (s.resources k)) }

def setCell (c : CellId) (f : Cell → Cell) : State :=
  { s with cells := Function.update s.cells c (f (s.cells c)) }

def setWorkers (c : CellId) (k : Cpu) (f : List Worker → List Worker) : State :=
  s.setCell c fun x => { x with workers := Function.update x.workers k (f (x.workers k)) }

def useCip (c : CellId) (f : Cip → Cip) : State :=
  s.setCell c fun x => { x with cip := f x.cip, strayed := x.strayed || x.cipFreed }

def setCores (c : CellId) (t : CoreSet) (f : (Cpu → Bool) → Cpu → Bool) : State :=
  s.useCip c fun x => { x with cores := Function.update x.cores t (f (x.cores t)) }

def setFlag (c : CellId) (k : Cpu) (v : Nat) : State :=
  s.useCip c fun x => { x with yieldFlag := Function.update x.yieldFlag k v }

def boot : State where
  resources _ := ⟨none, none, 0⟩
  idleCpus _ := true
  cells _ := .new

end State

namespace Worker

def up (w : Worker) : Worker :=
  if w.blocked then { w with blocked := false } else { w with counter := w.counter + 1 }

/-- `Sm::dn (true, ..)`. -/
def dn (w : Worker) : Worker :=
  if w.counter ≠ 0 then { w with counter := 0 } else { w with blocked := true }

end Worker

inductive Instr : Type → Type where
  | owner (k : Cpu) : Instr (Option CellId)
  | current (k : Cpu) : Instr (Option CellId)
  | confer (k : Cpu) (c : CellId) : Instr Unit
  /-- The compare-and-swap of `_current` from null. -/
  | occupy (k : Cpu) (c : Option CellId) : Instr Bool
  | setCurrent (k : Cpu) (c : Option CellId) : Instr Unit
  | hazards (k : Cpu) : Instr Nat
  | setHazards (k : Cpu) (v : Nat) : Instr Unit
  | idleChk (k : Cpu) : Instr Bool
  | idleSet (k : Cpu) : Instr Unit
  | idleClr (k : Cpu) : Instr Unit
  | idleWord (i : Fin 4) : Instr (List Cpu)
  | coresSet (c : CellId) (t : CoreSet) (k : Cpu) : Instr Unit
  | coresClr (c : CellId) (t : CoreSet) (k : Cpu) : Instr Unit
  | coresWord (c : CellId) (t : CoreSet) (i : Fin 4) : Instr (List Cpu)
  | coresZero (c : CellId) (t : CoreSet) (i : Fin 4) : Instr Unit
  | flag (c : CellId) (k : Cpu) : Instr Nat
  | setFlag (c : CellId) (k : Cpu) (v : Nat) : Instr Unit
  /-- The compare-and-swap of a yield flag from 0 to 1. -/
  | casFlag (c : CellId) (k : Cpu) : Instr Bool
  | workers (c : CellId) (k : Cpu) : Instr Nat
  | up (c : CellId) (k : Cpu) (i : Nat) : Instr Unit
  /-- Says whether the worker has been put to sleep. -/
  | dn (c : CellId) (k : Cpu) (i : Nat) : Instr Bool
  | enqueue (c : CellId) (k : Cpu) : Instr Unit
  | dequeue (c : CellId) (k : Cpu) (i : Nat) : Instr Unit
  | toBeDestroyed (c : CellId) : Instr Bool
  | setToBeDestroyed (c : CellId) : Instr Unit
  | initialized (c : CellId) : Instr Bool
  | setInitialized (c : CellId) : Instr Unit
  | create (c : CellId) : Instr Unit
  | freeCip (c : CellId) : Instr Unit
  | freeCell (c : CellId) : Instr Unit

def Instr.run {β : Type} (i : Instr β) (s : State) : β × State :=
  match i with
  | .owner k => (s.owner k, s)
  | .current k => (s.current k, s)
  | .confer k c => ((), s.setResource k fun r => { r with owner := some c })
  | .occupy k c =>
    if s.current k = none then (true, s.setResource k fun r => { r with current := c }) else (false, s)
  | .setCurrent k c => ((), s.setResource k fun r => { r with current := c })
  | .hazards k => ((s.resources k).hazards, s)
  | .setHazards k v => ((), s.setResource k fun r => { r with hazards := v })
  | .idleChk k => (s.idleCpus k, s)
  | .idleSet k => ((), { s with idleCpus := Function.update s.idleCpus k true })
  | .idleClr k => ((), { s with idleCpus := Function.update s.idleCpus k false })
  | .idleWord i => ((word i).filter s.idleCpus, s)
  | .coresSet c t k => ((), s.setCores c t fun f => Function.update f k true)
  | .coresClr c t k => ((), s.setCores c t fun f => Function.update f k false)
  | .coresWord c t i => ((word i).filter (s.lists c t), s.useCip c id)
  | .coresZero c t i => ((), s.setCores c t fun f k => if k ∈ word i then false else f k)
  | .flag c k => (s.flag c k, s.useCip c id)
  | .setFlag c k v => ((), s.setFlag c k v)
  | .casFlag c k => if s.flag c k = 0 then (true, s.setFlag c k 1) else (false, s.useCip c id)
  | .workers c k => ((s.workers c k).length, s)
  | .up c k i => ((), s.setWorkers c k fun l => l.modify i Worker.up)
  | .dn c k i =>
    (decide (((s.workers c k)[i]?.map Worker.counter) = some 0),
      s.setWorkers c k fun l => l.modify i Worker.dn)
  | .enqueue c k => ((), s.setWorkers c k fun l => l ++ [⟨0, false⟩])
  | .dequeue c k i => ((), s.setWorkers c k fun l => l.eraseIdx i)
  | .toBeDestroyed c => ((s.cells c).toBeDestroyed, s)
  | .setToBeDestroyed c => ((), s.setCell c fun x => { x with toBeDestroyed := true })
  | .initialized c => ((s.cells c).initialized, s)
  | .setInitialized c => ((), s.setCell c fun x => { x with initialized := true })
  | .create c => ((), s.setCell c fun x => { Cell.new with strayed := x.strayed })
  | .freeCip c => ((), s.setCell c fun x => { x with cipFreed := true })
  | .freeCell c => ((), s.setCell c fun x => { x with freed := true })

/-- The function that an access is made in, and the CPU it is about. -/
inductive Place where
  | wakeCore (k : Cpu)
  | blockWorkersOn (k : Cpu)
  | occupy (k : Cpu)
  | borrowed (k : Cpu)
  | returnCore (k : Cpu)
  | release (k : Cpu)
  | reclaim (k : Cpu)
  | cellReturnCore (k : Cpu)
  | handleHazard (k : Cpu)
  | transfer (k : Cpu)
  | alloc
  | wakeCores
  | confer
  | create
  | destroy
  | user
  deriving DecidableEq, Repr

structure Access (β : Type) where
  place : Place
  instr : Instr β

inductive Fault where
  | nullHolder
  | nullOwner
  | assertion
  | noCpu
  deriving DecidableEq, Repr

abbrev Code := Prog Access Fault

/-- An access in the function `p`. -/
def op {β : Type} (p : Place) (i : Instr β) : Code β := .lift ⟨p, i⟩

def Access.run {β : Type} (i : Access β) (s : State) : β × State := i.instr.run s

def deref (f : Fault) : Option CellId → Code CellId
  | some c => pure c
  | none => .fault f

theorem deref_some_bind {α : Type} (f : Fault) (c : CellId) (p : CellId → Code α) :
    deref f (some c) >>= p = p c := rfl

end Tukija.Core
