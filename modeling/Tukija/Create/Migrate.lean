import Tukija.Create.Rollback

/-! `Ec::migrate`: an execution context goes on as a new one on another CPU, under
the selectors of the old one. -/
namespace Tukija.Create

open Tukija.Lib.Word Tukija.Mapdb Tukija.Pd

abbrev EcId := Nat
abbrev ScId := Nat
abbrev PtId := Nat

inductive Kobj where
  | pd (p : PdId)
  | ec (e : EcId)
  | sc (s : ScId)
  | pt (p : PtId)
  | sm (s : Nat)
  deriving DecidableEq, Repr

/-- `Cpu_regs`; the last three are for vCPUs. -/
structure Regs (ρ : Type) where
  gpr : ρ
  vtlb : Option Nat
  vmcsState : Option Nat
  vmcbState : Option Nat

/-- What the migration reads and writes of an `Ec`. -/
structure Ec (ρ : Type) where
  nodeBase : Mword
  cont : Option Mword
  regs : Regs ρ
  utcb : Option Nat
  pd : PdId
  fpu : Option Nat
  cpu : Nat
  glb : Bool
  evt : Mword
  userUtcb : Mword
  xcpuSm : Option Nat
  ptOom : Option PtId

structure Sc where
  nodeBase : Mword
  ec : EcId
  cpu : Nat
  prio : Nat
  disable : Bool
  budget : Nat
  time : Nat
  timeM : Nat
  left : Nat

structure Pt where
  ec : EcId
  ref : Nat

/-- `Sys_ec_ctrl`. -/
structure EcCtrl where
  ec : Mword
  cpu : Nat
  crd : Crd

/-- The caller `cur` with its slots, the kernel objects, and the places that the
slab caches have for a new EC and a new SC.  `area` is what an `Fpu` holds, and
`fpuRegs` what the FPU itself does. -/
structure Machine (σ ρ φ : Type) where
  spaces : Spaces σ
  cur : PdId
  caps : Mword → Option Kobj
  online : Nat → Bool
  quota : PdId → Kmem.Quota
  ec : EcId → Ec ρ
  sc : ScId → Sc
  pt : PtId → Pt
  area : Nat → φ
  fpuRegs : φ
  fpowner : Option EcId
  fpuLazy : Bool
  rcu : List EcId
  ready : List ScId
  newEc : EcId
  newSc : ScId

/-- `Space_obj::insert_root`. -/
def insertObj {σ : Type} (O : SpaceOps σ) (cur : PdId) (obj sel attr : Mword) (st : State σ) : State σ × Bool :=
  let (st', ok) := insertRoot (embedded O) cur obj sel 0 attr 0 st
  if ok && cur != kern then ((st'.update O st.fresh 0).1, true) else (st', ok)

namespace Machine

variable {σ ρ φ : Type} (k : Machine σ ρ φ)

/-- The tests at the start.  An error tells whether memory is short. -/
def tests (cap : Option Kobj) (ecR : EcId) (r : EcCtrl) : Except Bool (EcId × PtId × ScId) :=
  if !k.online r.cpu then .error false
  else
    match cap with
    | some (.ec e) =>
      if ((k.quota (k.ec e).pd).hitLimit 4).val then .error true
      else if r.crd.type ≠ Crd.OBJ ∨ r.crd.order ≠ 0 then .error false
      else if (k.ec e).xcpuSm.isSome || (k.ec e).utcb.isNone || e != ecR then .error false
      else
        match k.caps (r.ec + 1) with
        | some (.pt p) =>
          match k.caps (r.ec + 2) with
          | some (.sc s) =>
            if (k.ec (k.pt p).ec).cpu ≠ r.cpu ∨ (k.sc s).ec ≠ e then .error false else .ok (e, p, s)
          | _ => .error false
        | _ => .error false
    | _ => .error false

/-- `save_fpu` in the constructor: the area is still the one of the old EC. -/
def saveFpu (e : EcId) : Machine σ ρ φ :=
  match (k.ec e).fpu with
  | none => k
  | some a => if k.fpowner = some e ∧ k.fpuLazy then { k with area := Function.update k.area a k.fpuRegs } else k

/-- `Ec::Ec` with a clone and a portal: what the clone has becomes the new EC's. -/
def makeEc (init : PdId → Nat → σ → σ) (e : EcId) (p : PtId) (cpu : Nat) : Machine σ ρ φ :=
  let k := k.saveFpu e
  let clone := k.ec e
  let new : Ec ρ :=
    { clone with
      regs := { clone.regs with vtlb := none, vmcsState := none, vmcbState := none }
      cpu := cpu
      glb := clone.cont.isSome
      ptOom := if (k.pt p).ref = 0 then none else some p }
  { k with
    spaces := modify (init clone.pd cpu) k.spaces
    ec := Function.update (Function.update k.ec e { clone with fpu := none, utcb := none, userUtcb := 0 }) k.newEc new
    pt := Function.update k.pt p { k.pt p with ref := if (k.pt p).ref = 0 then 0 else (k.pt p).ref + 1 } }

/-- `Sc::Sc` with an SC to copy. -/
def makeSc (s : ScId) : Machine σ ρ φ :=
  { k with sc := Function.update k.sc k.newSc { k.sc s with ec := k.newEc, cpu := (k.ec k.newEc).cpu } }

/-- `delete new_sc; Rcu::call (new_ec)`. -/
def giveUp : Machine σ ρ φ := { k with rcu := k.newEc :: k.rcu }

variable (M P O : SpaceOps σ) (fuel : Nat)

/-- `Pd::current->revoke<Space_obj> (sel, 0, 0x1f, true, false)`. -/
def withdraw (sel : Mword) : Option (Machine σ ρ φ) :=
  (revoke O fuel k.cur sel 0 0x1f true false k.spaces.obj).map fun st => { k with spaces := k.spaces.setObj st }

/-- `Space_obj::insert_root` for the new EC or the new SC. -/
def place (obj sel attr : Mword) : Machine σ ρ φ × Bool :=
  let (st, ok) := insertObj O k.cur obj sel attr k.spaces.obj
  ({ k with spaces := k.spaces.setObj st }, ok)

def ecPtr (e : EcId) : Mword := BitVec.ofNat 64 (2 * e)
def scPtr (s : ScId) : Mword := BitVec.ofNat 64 (2 * s + 1)

/-- `Ec::migrate` behind the tests. -/
def move (init : PdId → Nat → σ → σ) (e : EcId) (p : PtId) (s : ScId) (r : EcCtrl) :
    Option (Bool × Machine σ ρ φ) := do
  let k := (k.makeEc init e p r.cpu).makeSc s
  let k ← k.withdraw O fuel r.ec
  let (k, ok) := k.place O (ecPtr k.newEc) (k.ec k.newEc).nodeBase 0xd
  if !ok then return (false, k.giveUp)
  let k ← k.withdraw O fuel (r.ec + 2)
  let (k, ok) := k.place O (scPtr k.newSc) (k.sc k.newSc).nodeBase 0x1
  if !ok then
    let k ← k.withdraw O fuel r.ec
    return (false, k.giveUp)
  let dst := Crd.make Crd.OBJ ((k.ec k.newEc).evt + r.crd.base) r.crd.order r.crd.attr
  let src := Crd.make Crd.OBJ r.ec r.crd.order r.crd.attr
  let (spaces, _) ← delCrd M P O fuel (k.ec k.newEc).pd k.cur dst src 0 0 k.spaces
  return (true, { k with spaces := spaces, ready := k.newSc :: k.ready })

def migrate (init : PdId → Nat → σ → σ) (cap : Option Kobj) (ecR : EcId) (r : EcCtrl) :
    Option (Bool × Machine σ ρ φ) :=
  match k.tests cap ecR r with
  | .error true => some (false, { k with spaces := k.spaces.setObj { k.spaces.obj with oom := true } })
  | .error false => some (false, k)
  | .ok (e, p, s) => k.move M P O fuel init e p s r

end Machine

end Tukija.Create
