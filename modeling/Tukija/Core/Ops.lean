import Tukija.Core.State

/-! The functions of the core allocator, access by access.  `me` is the cell of
the domain that executes them, `Pd::current->cell`. -/
namespace Tukija.Core

open Tukija.Lib.Threads

section Loops

variable {α : Type}

/-- `for_each`, over what has been read. -/
def each : List α → (α → Code Unit) → Code Unit
  | [], _ => pure ()
  | x :: l, f => do
    f x
    each l f

/-- `for_each_until` the count of those that succeed reaches `quantity`. -/
def eachUntil (quantity : Nat) (f : Cpu → Code Bool) : List Cpu → Nat → Code Nat
  | [], n => pure n
  | k :: l, n =>
    if quantity ≤ n then pure n
    else do
      let ok ← f k
      eachUntil quantity f l (if ok then n + 1 else n)

end Loops

/-- The words of a `Cpuset`. -/
def words : List (Fin 4) := [0, 1, 2, 3]

def readCores (p : Place) (c : CellId) (t : CoreSet) : List (Fin 4) → Code (List Cpu)
  | [] => pure []
  | i :: is => do
    let l ← op p (.coresWord c t i)
    let ls ← readCores p c t is
    pure (l ++ ls)

namespace Cell

def wakeCore (c : CellId) (k : Cpu) : Code Unit := do
  let n ← op (.wakeCore k) (.workers c k)
  each (List.range n) fun i => do
    op (.wakeCore k) (.coresSet c .current k)
    op (.wakeCore k) (.up c k i)

/-- `Cell::add_cores`, on the CPUs that are new. -/
def wakeCores (c : CellId) : Code Unit :=
  each words fun i => do
    let l ← op .wakeCores (.coresWord c .new i)
    each l (wakeCore c)

/-- The loop of `block_workers_on`; it does not return from a worker that is put
to sleep. -/
def sleepEach (c : CellId) (k : Cpu) : List Nat → Code Unit
  | [] => pure ()
  | i :: is => do
    let asleep ← op (.blockWorkersOn k) (.dn c k i)
    if asleep then pure () else sleepEach c k is

def blockWorkersOn (c : CellId) (k : Cpu) : Code Unit := do
  if ← op (.blockWorkersOn k) (.toBeDestroyed c) then pure ()
  else do
    op (.blockWorkersOn k) (.coresClr c .current k)
    let n ← op (.blockWorkersOn k) (.workers c k)
    sleepEach c k (List.range n)

end Cell

namespace Resource

def occupy (k : Cpu) (c : Option CellId) : Code Bool := do
  let ok ← op (.occupy k) (.occupy k c)
  if ok then do
    op (.occupy k) (.idleClr k)
    let c ← deref .nullOwner c
    op (.occupy k) (.coresSet c .new k)
    pure true
  else pure false

def borrowed (k : Cpu) : Code Bool := do
  let owner ← op (.borrowed k) (.owner k)
  let current ← op (.borrowed k) (.current k)
  if owner = current then pure false
  else do
    let current ← op (.borrowed k) (.current k)
    pure current.isSome

def returnCore (k : Cpu) (me : Option CellId) : Code Unit := do
  let current ← op (.returnCore k) (.current k)
  let borrower ← deref .nullHolder current
  op (.returnCore k) (.setFlag borrower k 0)
  let _ ← deref .nullOwner (← op (.returnCore k) (.owner k))
  let owner ← op (.returnCore k) (.owner k)
  op (.returnCore k) (.setCurrent k owner)
  let holder ← deref .nullHolder (← op (.returnCore k) (.current k))
  Cell.wakeCore holder k
  if me = some borrower then Cell.blockWorkersOn borrower k else pure ()

/-- What is left of `Cpu_resource::release` once no yield request has been
found. -/
def releaseUnasked (k : Cpu) (curr : CellId) (me : Option CellId) : Code Unit := do
  op (.release k) (.setFlag curr k 0)
  op (.release k) (.idleSet k)
  op (.release k) (.setCurrent k none)
  if me = some curr then Cell.blockWorkersOn curr k else pure ()

def release (k : Cpu) (me : Option CellId) : Code Unit := do
  let curr ← deref .nullHolder (← op (.release k) (.current k))
  let flag ← op (.release k) (.flag curr k)
  if flag = 1 then returnCore k me else releaseUnasked k curr me

/-- The loop of `handle_hazard` that waits for the borrower, for as many turns
as its time allows. -/
def await (k : Cpu) : Option CellId → Nat → Code Unit
  | none, _ => pure ()
  | _, 0 => pure ()
  | some borrower, n + 1 => do
    let current ← op (.handleHazard k) (.current k)
    if current = some borrower then await k (some borrower) n else pure ()

/-- The end of `handle_hazard`, if the owner has got the CPU. -/
def forget (k : Cpu) : Option CellId → Code Unit
  | some borrower => op (.handleHazard k) (.coresClr borrower .current k)
  | none => pure ()

end Resource

namespace Allocator

def hzdYield : Nat := 0x80

def hzdReclaim : Nat := 0x100

def handleHazard (k : Cpu) (patience : Nat) (me : Option CellId) : Code Bool := do
  let hazards ← op (.handleHazard k) (.hazards k)
  if hazards = hzdYield then do
    let hazards ← op (.handleHazard k) (.hazards k)
    op (.handleHazard k) (.setHazards k (hazards &&& (0xffffffff ^^^ hzdYield)))
    let borrower ← op (.handleHazard k) (.current k)
    Resource.await k borrower patience
    let owner ← op (.handleHazard k) (.owner k)
    if ← Resource.occupy k owner then do
      Resource.forget k borrower
      pure true
    else do
      let owner ← deref .nullOwner owner
      op (.handleHazard k) (.coresClr owner .reclaimed k)
      pure false
  else if hazards = hzdReclaim then do
    let hazards ← op (.handleHazard k) (.hazards k)
    op (.handleHazard k) (.setHazards k (hazards &&& (0xffffffff ^^^ hzdReclaim)))
    Resource.returnCore k me
    pure true
  else pure false

end Allocator

namespace Cell

/-- `Cell::return_core`: ask `c` for the CPU. -/
def returnCore (c : CellId) (k : Cpu) (patience : Nat) (me : Option CellId) : Code Bool := do
  let n ← op (.cellReturnCore k) (.workers c k)
  if n ≠ 0 then do
    if ← op (.cellReturnCore k) (.casFlag c k) then pure true
    else do
      let hazards ← op (.cellReturnCore k) (.hazards k)
      op (.cellReturnCore k) (.setHazards k (hazards ||| Allocator.hzdYield))
      Allocator.handleHazard k patience me
  else do
    Resource.returnCore k me
    pure true

end Cell

namespace Resource

def reclaim (k : Cpu) (patience : Nat) (me : Option CellId) : Code Bool := do
  let _ ← op (.reclaim k) (.current k)
  let owner ← deref .nullOwner (← op (.reclaim k) (.owner k))
  op (.reclaim k) (.coresSet owner .reclaimed k)
  let owner ← op (.reclaim k) (.owner k)
  if ← occupy k owner then do
    let holder ← deref .nullHolder (← op (.reclaim k) (.current k))
    Cell.wakeCore holder k
    pure true
  else do
    let borrower ← op (.reclaim k) (.current k)
    let owner ← op (.reclaim k) (.owner k)
    match borrower with
    | some b =>
      if borrower ≠ owner then Cell.returnCore b k patience me
      else do
        let owner ← deref .nullOwner (← op (.reclaim k) (.owner k))
        op (.reclaim k) (.coresClr owner .reclaimed k)
        pure false
    | none => do
      let owner ← deref .nullOwner (← op (.reclaim k) (.owner k))
      op (.reclaim k) (.coresClr owner .reclaimed k)
      pure false

end Resource

namespace Allocator

/-- The second loop of `alloc`, over the words of `_idle_cpus`. -/
def borrowIdle (quantity : Nat) (c : CellId) : List (Fin 4) → Nat → Code Nat
  | [], n => pure n
  | i :: is, n =>
    if quantity ≤ n then pure n
    else do
      let idle ← op .alloc (.idleWord i)
      let n ← eachUntil quantity (fun k => Resource.occupy k (some c)) idle n
      borrowIdle quantity c is n

/-- One turn of the third loop of `alloc`. -/
def reclaimLent (patience : Cpu → Nat) (me : Option CellId) (k : Cpu) : Code Bool := do
  if ← Resource.borrowed k then Resource.reclaim k (patience k) me else pure false

def alloc (quantity : Nat) (c : CellId) (patience : Cpu → Nat) (me : Option CellId) : Code Nat := do
  each words fun i => op .alloc (.coresZero c .new i)
  let reserved ← readCores .alloc c .reserved words
  let current ← readCores .alloc c .current words
  let reserved := reserved.filter (· ∉ current)
  let n ← eachUntil quantity (fun k => Resource.occupy k (some c)) reserved 0
  if n = quantity then pure n
  else do
    let n ← borrowIdle quantity c words n
    if n = quantity then pure n else eachUntil quantity (reclaimLent patience me) reserved n

def release (c : CellId) (k : Cpu) (me : Option CellId) : Code Unit := do
  let current ← op (.release k) (.current k)
  if current ≠ some c then do
    op (.release k) (.setFlag c k 0)
    Cell.blockWorkersOn c k
  else Resource.release k me

def confer (c : CellId) : Code Unit :=
  each words fun i => do
    let l ← op .confer (.coresWord c .reserved i)
    each l fun k => op .confer (.confer k c)

/-- The end of `Core_allocator::transfer`. -/
def transferred (c : CellId) (k : Cpu) : Code Unit := do
  op (.transfer k) (.coresClr c .new k)
  op (.transfer k) (.coresSet c .current k)

def transfer (c : CellId) (k : Cpu) (patience : Cpu → Nat) (me : Option CellId) : Code Unit := do
  if ← op (.transfer k) (.idleChk k) then
    if ← Resource.borrowed k then do
      let _ ← Resource.reclaim k (patience k) me
      transferred c k
    else if ← Resource.occupy k (some c) then transferred c k
    else if ← Resource.borrowed k then transferred c k
    else pure ()
  else pure ()

end Allocator

section Syscalls

/-- `Sys_release`. -/
inductive ReleaseOp where
  | release
  | ret
  deriving DecidableEq, Repr

/-- `Ec::sys_alloc` for CPUs, by a cell. -/
def sysAlloc (quantity : Nat) (c : CellId) (patience : Cpu → Nat) : Code Unit :=
  if quantity = 0 then pure ()
  else do
    let n ← Allocator.alloc quantity c patience (some c)
    if n = 0 then pure () else Cell.wakeCores c

/-- `Ec::sys_release` for the CPU it is executed on, by a cell. -/
def sysRelease (r : ReleaseOp) (c : CellId) (k : Cpu) : Code Unit :=
  match r with
  | .release => Allocator.release c k (some c)
  | .ret => Resource.returnCore k (some c)

/-- `Cpuset::first_cpu`: the number of a bit within the first word that has
one. -/
def firstCpu (c : CellId) : List (Fin 4) → Code Cpu
  | [] => .fault .noCpu
  | i :: is => do
    match ← op .confer (.coresWord c .reserved i) with
    | k :: _ => pure ⟨k.val % 64, by omega⟩
    | [] => firstCpu c is

/-- `Ec::sys_cell_ctrl` with `UPDATE_CORES`. -/
def sysCellCtrl (c : CellId) (patience : Cpu → Nat) (me : Option CellId) : Code Unit := do
  Allocator.confer c
  if ← op .confer (.initialized c) then pure ()
  else do
    let k ← firstCpu c words
    Allocator.transfer c k patience me
    op .confer (.setInitialized c)

/-- `Ec::sys_create_cell`, once the memory has been found. -/
def sysCreateCell (c : CellId) : Code Unit := op .create (.create c)

/-- `Ec::sys_create_ec` for a worker of `c` on `k`. -/
def sysCreateEc (c : CellId) (k : Cpu) : Code Unit := op .create (.enqueue c k)

/-- User code of `c` changes a bit of its info page, which is mapped writable. -/
def userWrite (c : CellId) (t : CoreSet) (k : Cpu) (v : Bool) : Code Unit :=
  if v then op .user (.coresSet c t k) else op .user (.coresClr c t k)

/-- `Cell::~Cell`. -/
def cellDtor (c : CellId) (me : Option CellId) : Code Unit := do
  op .destroy (.setToBeDestroyed c)
  each words fun i => do
    let l ← op .destroy (.coresWord c .current i)
    each l fun k => do
      let flag ← op .destroy (.flag c k)
      if flag = 1 then Resource.returnCore k me else Allocator.release c k me

def destroy (c : CellId) (me : Option CellId) : Code Unit := do
  op .destroy (.freeCip c)
  cellDtor c me
  op .destroy (.freeCell c)

/-- `Pd::~Pd`, as far as the cell of the domain goes. -/
def pdDtor (c : CellId) : Code Unit := op .destroy (.freeCell c)

/-- How a cell is destroyed: by `Cell::destroy` or with its domain. -/
inductive Demise where
  | destroy
  | pd
  deriving DecidableEq, Repr

def demise (d : Demise) (c : CellId) (me : Option CellId) : Code Unit :=
  match d with
  | .destroy => destroy c me
  | .pd => pdDtor c

end Syscalls

end Tukija.Core
