import Mathlib.Logic.Function.Basic
import Mathlib.Tactic.Common

/-! Devices that are assigned to PDs: the entries that the IOMMUs read, the rids that a
PD keeps, and its references. -/
namespace Tukija.Dma

abbrev Rid := Nat
abbrev PdId := Nat
abbrev UnitId := Nat

/-- `usable`: a DMAR unit is not `invalid ()`, or there is a `dte (rid)`.  `find` is
`lookup (rid)`, and `lev` the level at which a DMAR unit begins. -/
structure Machine where
  amd : Bool
  units : List UnitId
  usable : UnitId → Rid → Bool
  lev : UnitId → Nat
  find : Rid → Option UnitId

/-- The page table that a `Dte` or a `Dmar_ctx` points to.  An entry of an alias has
the rid of a device instead, as a hint, and is clear if that is 0. -/
inductive Entry where
  | zero
  | hint (rid : Rid)
  | root (pd : PdId) (lev : Nat)
  deriving DecidableEq

abbrev Table := Rid → Entry

inductive Life where
  | unborn
  | alive
  | freed
  deriving DecidableEq

/-- The slots of `rids` are filled one after the other and emptied all together.
References belong to those who are `outside` (capabilities, ECs, CPUs), to callbacks
that are `queued`, to a slot, or to devices that have found no slot (`pins`). -/
structure Pd where
  dom : Bool
  rids : List Rid
  rids_le : rids.length ≤ 7
  ref : Nat
  outside : Nat
  queued : Nat
  pins : Nat
  life : Life

/-- `del_rcu`: the last reference stays. -/
def delRcu (ref : Nat) : Nat := if ref = 1 then 1 else ref - 1

namespace Pd

def none : Pd := ⟨false, [], Nat.zero_le 7, 0, 0, 0, 0, .unborn⟩

def new (dom : Bool) : Pd := ⟨dom, [], Nat.zero_le 7, 1, 1, 0, 0, .alive⟩

variable (p : Pd)

def addRef : Nat := if p.ref = 0 then 0 else p.ref + 1

def assignRid (r : Rid) : Pd :=
  if r ∈ p.rids then p
  else if h : p.rids.length < 7 then
    { p with rids := p.rids ++ [r], rids_le := by rw [List.length_append]; exact h, ref := p.addRef }
  else { p with ref := p.addRef, pins := p.pins + 1 }

def releaseRid : Pd :=
  { p with rids := [], rids_le := Nat.zero_le 7, ref := p.rids.foldl (fun n _ => delRcu n) p.ref }

/-- `del_ref` by a callback. -/
def delRef : Pd := { p with ref := p.ref - 1, queued := p.queued - 1 }

def Named : Prop := 0 < p.outside + p.queued

instance : Decidable p.Named := inferInstanceAs (Decidable (0 < p.outside + p.queued))

end Pd

structure State where
  table : Table
  pd : PdId → Pd

inductive Act where
  | create (p : PdId) (dom : Bool)
  | grab (p : PdId)
  | drop (p : PdId)
  | revoke (p : PdId)
  | expire (p : PdId)
  | assign (u : UnitId) (rid : Rid) (p : PdId)

namespace Machine

variable (m : Machine)

def level (u : UnitId) : Nat := if m.amd then 0 else m.lev u

/-- `Interface::release`: each unit looks whether the entry is one of this PD. -/
def release (p : PdId) (t : Table) (rid : Rid) : Table :=
  m.units.foldl (fun t u =>
    if m.usable u rid && t rid == .root p (m.level u) then Function.update t rid .zero else t) t

end Machine

namespace State

variable (m : Machine) (s : State)

/-- `Amd::alias`, of a device whose entry is clear: it stores `rid << 12`. -/
def aliasEntry (rid : Rid) : Entry := if rid = 0 then .zero else .hint rid

/-- The PDs of the kernel and of the root task, and the entries of aliases. -/
def boot (hint : Rid → Option Rid) : State where
  table := fun rid => (hint rid).elim .zero aliasEntry
  pd := fun p => if p < 2 then .new true else .none

def setPd (p : PdId) (x : Pd) : State := { s with pd := Function.update s.pd p x }

def preFree (p : PdId) : State :=
  { s.setPd p (s.pd p).releaseRid with table := (s.pd p).rids.foldl (m.release p) s.table }

/-- `Rcu::call`, with a reference from outside. -/
def call (p : PdId) : State :=
  let s₁ := s.preFree m p
  s₁.setPd p { s₁.pd p with outside := (s.pd p).outside - 1, queued := (s.pd p).queued + 1 }

/-- `Pd::free` after the grace period, and `Pd::~Pd`. -/
def free (p : PdId) : State :=
  let s₁ := s.setPd p (s.pd p).delRef
  if (s₁.pd p).ref = 0 then
    let s₂ := s₁.preFree m p
    s₂.setPd p { s₂.pd p with life := .freed }
  else s₁

/-- `Dmar::assign`. -/
def dmarAssign (u : UnitId) (rid : Rid) (p : PdId) : State :=
  if m.usable u rid then
    { s.setPd p ((s.pd p).assignRid rid) with table := Function.update s.table rid (.root p (m.level u)) }
  else s

/-- `Amd::assign`: `release_rid` gets a function that does nothing. -/
def amdAssign (u : UnitId) (rid : Rid) (p : PdId) : State :=
  if m.usable u rid && (s.pd p).dom then
    match s.table rid with
    | .hint _ => s
    | e =>
      if e = .root p (m.level u) then s
      else { s.setPd p ((s.pd p).releaseRid.assignRid rid) with
        table := Function.update s.table rid (.root p (m.level u)) }
  else s

/-- `del_rcu` for a reference from outside. -/
def drop (p : PdId) : State :=
  if (s.pd p).ref = 1 then s.call m p
  else s.setPd p { s.pd p with ref := delRcu (s.pd p).ref, outside := (s.pd p).outside - 1 }

def act : Act → State
  | .create p dom => if (s.pd p).life = .unborn then s.setPd p (.new dom) else s
  | .grab p =>
    if (s.pd p).Named then s.setPd p { s.pd p with ref := (s.pd p).addRef, outside := (s.pd p).outside + 1 } else s
  | .drop p => if 0 < (s.pd p).outside then s.drop m p else s
  | .revoke p => if 0 < (s.pd p).outside then s.call m p else s
  | .expire p => if 0 < (s.pd p).queued then s.free m p else s
  | .assign u rid p =>
    if u ∈ m.units ∧ (s.pd p).Named ∧ (s.pd p).dom = true then
      if m.amd then s.amdAssign m u rid p else s.dmarAssign m u rid p
    else s

def after (acts : List Act) : State := acts.foldl (act m) s

/-- The units that `Pd::flush_pgt` has flush the entries of the PD. -/
def flushed (p : PdId) : List UnitId := (s.pd p).rids.filterMap m.find

end State

/-- Who has an entry has recorded the device or keeps a reference, is not freed, and
its flushes reach the unit of the device. -/
structure State.Tracked (m : Machine) (s : State) : Prop where
  kept : ∀ rid p l, s.table rid = .root p l → rid ∈ (s.pd p).rids ∨ 0 < (s.pd p).pins
  alive : ∀ rid p l, s.table rid = .root p l → (s.pd p).life = .alive
  reached : ∀ rid p l, s.table rid = .root p l → ∃ u ∈ s.flushed m p, m.find rid = some u

/-- An assignment is of a device that the kernel has found itself; on AMD the PD has
no other device, and else it has room for the rid. -/
def State.Fits (m : Machine) (s : State) : Act → Prop
  | .assign u rid p =>
    u ∈ m.units → (s.pd p).Named → (s.pd p).dom = true → m.usable u rid = true →
      (m.amd = true → ∀ r, s.table rid ≠ .hint r) →
      (m.find rid).isSome = true ∧
        (if m.amd then ∀ r l, r ≠ rid → s.table r ≠ .root p l
        else rid ∈ (s.pd p).rids ∨ (s.pd p).rids.length < 7)
  | _ => True

def State.Fitting (m : Machine) : State → List Act → Prop
  | _, [] => True
  | s, a :: acts => s.Fits m a ∧ Fitting m (s.act m a) acts

end Tukija.Dma
