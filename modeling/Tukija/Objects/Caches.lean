import Mathlib.Logic.Function.Basic
import Mathlib.Tactic.Common

/-! Kernel objects and the slab caches that they are taken from and given back to.
Whether a selector is free, and when the last reference to an object goes, comes
from outside. -/
namespace Tukija.Objects

abbrev Id := Nat

inductive Kind where
  | pd
  | ec
  | sc
  | pt
  | sm
  | mdb
  | worker
  | cell
  deriving DecidableEq

/-- `Pd::cache`, or one of the caches of a PD. -/
inductive CacheRef where
  | pds
  | of (pd : Id) (k : Kind)
  deriving DecidableEq

/-- The fields that do not change: `Ec::pd`, `Sc::ec`, `Pt::ec`, and the space of an
`Sm` and of an `Mdb`. -/
inductive Body where
  | pd
  | ec (pd : Id)
  | sc (ec : Id)
  | pt (ec : Id)
  | sm (space : Id)
  | mdb (space : Id)
  | worker
  | cell
  deriving DecidableEq

def Body.kind : Body → Kind
  | pd => .pd
  | ec _ => .ec
  | sc _ => .sc
  | pt _ => .pt
  | sm _ => .sm
  | mdb _ => .mdb
  | worker => .worker
  | cell => .cell

/-- `cache` is the one that the slab of the object belongs to. -/
structure Obj where
  cache : CacheRef
  body : Body

/-- `cellOf`, `workerOf` and `smOf` are `Pd::cell`, `Ec::worker` and `Worker::sm`.
`frees` has the cache of the slab and the cache that the object is given to, for each
call of `Slab_cache::free`, the latest first. -/
structure State where
  fresh : Id
  obj : Id → Option Obj
  live : Id → Bool
  cellOf : Id → Option Id
  workerOf : Id → Option Id
  smOf : Id → Option Id
  frees : List (CacheRef × CacheRef)

namespace State

variable (s : State)

/-- `Pd::kern` and `Pd::root`, which are in no slab. -/
def boot : State where
  fresh := 2
  obj := fun x => if x < 2 then some ⟨.pds, .pd⟩ else none
  live := fun x => x < 2
  cellOf := fun _ => none
  workerOf := fun _ => none
  smOf := fun _ => none
  frees := []

/-- `new`, which never fails: the object gets the next name. -/
def alloc (c : CacheRef) (b : Body) : State :=
  { s with
    fresh := s.fresh + 1
    obj := Function.update s.obj s.fresh (some ⟨c, b⟩)
    live := Function.update s.live s.fresh true }

/-- `Slab_cache::free` of cache `c`. -/
def give (x : Id) (c : CacheRef) : State :=
  match s.obj x with
  | some o => { s with live := Function.update s.live x false, frees := (o.cache, c) :: s.frees }
  | none => s

def has (k : Kind) (x : Id) : Bool :=
  s.live x && match s.obj x with
    | some o => o.body.kind == k
    | none => false

/-- `Ec::pd`. -/
def pdOf (e : Id) : Option Id :=
  match s.obj e with
  | some ⟨_, .ec p⟩ => some p
  | _ => none

/-! ## Destruction -/

/-- The part of `Ec::~Ec` for the worker. -/
def dropWorker (e p : Id) : State :=
  match s.cellOf p, s.workerOf e with
  | some _, some w =>
    (match s.smOf w with
      | some m => s.give m (.of p .sm)
      | none => s).give w (.of p .worker)
  | _, _ => s

/-- `Ec::destroy (e, pd)`. -/
def destroyEc (e pd : Id) : State :=
  match s.pdOf e with
  | some p => (s.dropWorker e p).give e (.of pd .ec)
  | none => s

/-- `Sc::operator delete`, and `Pt::destroy`. -/
def giveBound (x e : Id) (k : Kind) : State :=
  match s.pdOf e with
  | some p => s.give x (.of p k)
  | none => s

/-- `Sm::destroy (x, pd)`. -/
def destroySm (x pd : Id) : State := s.give x (.of pd .sm)

/-- `delete` for a PD: the destructor gives its cell back. -/
def deletePd (x : Id) : State :=
  (match s.cellOf x with
    | some c => s.give c (.of x .cell)
    | none => s).give x .pds

/-- The callback after the grace period, with the last reference. -/
def freeBody (x : Id) : Body → State
  | .pd => s.deletePd x
  | .ec p => s.destroyEc x p
  | .sc e => s.giveBound x e .sc
  | .pt e => s.giveBound x e .pt
  | .sm p => s.destroySm x p
  | .mdb p => s.give x (.of p .mdb)
  | .worker | .cell => s

/-- `y` has a pointer to `x` that keeps `x` alive. -/
def holds (y x : Id) : Bool :=
  s.live y && ((match s.obj y with
      | some ⟨_, .ec p⟩ => p == x
      | some ⟨_, .sc e⟩ => e == x
      | some ⟨_, .pt e⟩ => e == x
      | _ => false)
    || s.cellOf y == some x || s.workerOf y == some x || s.smOf y == some x)

def free (x : Id) : State :=
  if 2 ≤ x ∧ s.live x = true ∧ ∀ y < s.fresh, s.holds y x = false then
    match s.obj x with
    | some o => s.freeBody x o.body
    | none => s
  else s

/-! ## Creation.  `cur` is `Pd::current`, and `inserted` tells whether `insert_root`
finds the selector free. -/

/-- `limit`: `set_limit` succeeds; `oom`: `HZD_OOM` is set afterwards. -/
def createPd (limit inserted oom : Bool) : State :=
  let s₁ := s.alloc .pds .pd
  if limit && inserted && !oom then s₁ else s₁.deletePd s.fresh

def newWorker (e pd : Id) : State :=
  let w := s.fresh
  let s₁ := s.alloc (.of pd .worker) .worker
  let m := s₁.fresh
  let s₂ := s₁.alloc (.of pd .sm) (.sm pd)
  { s₂ with smOf := Function.update s₂.smOf w (some m), workerOf := Function.update s₂.workerOf e (some w) }

/-- `cont`: the EC has a continuation. -/
def createEc (pd : Id) (cont inserted : Bool) : State :=
  let s₁ := s.alloc (.of pd .ec) (.ec pd)
  if !inserted then s₁.destroyEc s.fresh pd
  else if (s.cellOf pd).isSome && cont then s₁.newWorker s.fresh pd
  else s₁

/-- `new (*ec->pd) Sc` or `new (*ec->pd) Pt`. -/
def newBound (e p : Id) (k : Kind) : State :=
  match k with
  | .sc => s.alloc (.of p .sc) (.sc e)
  | .pt => s.alloc (.of p .pt) (.pt e)
  | _ => s

/-- `sys_create_sc` and `sys_create_pt`; the PD that they are given is not used for this. -/
def createBound (k : Kind) (e : Id) (inserted : Bool) : State :=
  match s.pdOf e with
  | some p => if inserted then s.newBound e p k else (s.newBound e p k).giveBound s.fresh e k
  | none => s

/-- `sys_create_sm`: the caller's cache, but the other PD's in the error path. -/
def createSm (cur pd : Id) (inserted : Bool) : State :=
  let s₁ := s.alloc (.of cur .sm) (.sm cur)
  if inserted then s₁ else s₁.destroySm s.fresh pd

def createCell (pd : Id) : State :=
  if (s.cellOf pd).isNone then
    let s₁ := s.alloc (.of pd .cell) .cell
    { s₁ with cellOf := Function.update s₁.cellOf pd (some s.fresh) }
  else s

/-- `Cell::destroy`. -/
def destroyCell (pd : Id) : State :=
  match s.cellOf pd with
  | some c =>
    let s₁ := s.give c (.of pd .cell)
    { s₁ with cellOf := Function.update s₁.cellOf pd none }
  | none => s

/-- `Ec::migrate`: where it fails, the new EC is given to RCU. -/
def migrate (e : Id) (inserted : Bool) : State :=
  match s.pdOf e with
  | some p =>
    (s.alloc (.of p .ec) (.ec p)).createBound .sc s.fresh inserted
  | none => s

/-- The first `sys_xcpu_call` of an EC, and `oom_xcpu`; `room`: the new EC has a
reference to the caller. -/
def xcpu (cur : Id) (room : Bool) : State :=
  let m := s.fresh
  let s₁ := s.alloc (.of cur .sm) (.sm cur)
  let e := s₁.fresh
  let s₂ := s₁.alloc (.of cur .ec) (.ec cur)
  if room then s₂.alloc (.of cur .sc) (.sc e) else (s₂.destroyEc e cur).destroySm m cur

/-- A node that `delegate` makes for `pd`; `inserted`: the tree has room for it. -/
def newMdb (pd : Id) (inserted : Bool) : State :=
  let s₁ := s.alloc (.of pd .mdb) (.mdb pd)
  if inserted then s₁ else s₁.give s.fresh (.of pd .mdb)

end State

inductive Act where
  | createPd (limit inserted oom : Bool)
  | createEc (pd : Id) (cont inserted : Bool)
  | createSc (pd ec : Id) (inserted : Bool)
  | createPt (pd ec : Id) (inserted : Bool)
  | createSm (cur pd : Id) (inserted : Bool)
  | createCell (pd : Id)
  | destroyCell (pd : Id)
  | migrate (ec : Id) (inserted : Bool)
  | xcpu (cur : Id) (room : Bool)
  | newMdb (pd : Id) (inserted : Bool)
  | free (x : Id)
  deriving DecidableEq

namespace State

variable (s : State)

def act : Act → State
  | .createPd limit inserted oom => s.createPd limit inserted oom
  | .createEc pd cont inserted => if s.has .pd pd then s.createEc pd cont inserted else s
  | .createSc pd ec inserted => if s.has .pd pd && s.has .ec ec then s.createBound .sc ec inserted else s
  | .createPt pd ec inserted => if s.has .pd pd && s.has .ec ec then s.createBound .pt ec inserted else s
  | .createSm cur pd inserted => if s.has .pd cur && s.has .pd pd then s.createSm cur pd inserted else s
  | .createCell pd => if s.has .pd pd then s.createCell pd else s
  | .destroyCell pd => if s.has .pd pd then s.destroyCell pd else s
  | .migrate ec inserted => if s.has .ec ec then s.migrate ec inserted else s
  | .xcpu cur room => if s.has .pd cur then s.xcpu cur room else s
  | .newMdb pd inserted => if s.has .pd pd then s.newMdb pd inserted else s
  | .free x => s.free x

def after (acts : List Act) : State := acts.foldl act s

end State

/-- `slab->cache == this` in every call of `Slab_cache::free`. -/
def State.Paired (s : State) : Prop := ∀ e ∈ s.frees, e.1 = e.2

/-- A semaphore that is charged to another PD than the caller's finds its selector
in use. -/
def State.Foreign (s : State) : Act → Prop
  | .createSm cur pd inserted => s.has .pd cur = true ∧ s.has .pd pd = true ∧ inserted = false ∧ cur ≠ pd
  | _ => False

def State.Homely : State → List Act → Prop
  | _, [] => True
  | s, a :: acts => ¬ s.Foreign a ∧ Homely (s.act a) acts

end Tukija.Objects
