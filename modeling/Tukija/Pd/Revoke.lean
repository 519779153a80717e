import Tukija.Pd.State

namespace Tukija.Pd

open Tukija.Lib.Word Tukija.Mapdb

variable {σ : Type}

/-- Whether the physical range of `x` overlaps the part `(b, o)` of `mdb`. -/
def overlapsPart (mdb : Mdb) (b o : Mword) (x : Mdb) : Bool :=
  (clamp x.nodePhys (b - mdb.nodeBase + mdb.nodePhys) x.nodeOrder o).1 != ones

/-- The first inner loop of `revoke`: from `m` along the list while the nodes
are deeper than `m`, taking `attr` away where the flag `demote` says so.
Returns the last node visited. -/
def demoteRun (S : SpaceOps σ) (attr : Mword) (self : Bool) (m : NodeId) (b o : Mword) :
    Nat → NodeId → Bool → State σ → Option (NodeId × State σ)
  | 0, _, _, _ => none
  | fuel + 1, node, demote, st =>
    let st :=
      if demote && (st.mdb node).nodeAttr &&& attr != 0 then
        ({ st with iommu := st.iommu || ((st.mdb m).nodeSub &&& 1 != 0) }).demote S node attr
      else st
    let ptr := st.mdb.next node
    if (st.mdb ptr).dpth ≤ (st.mdb m).dpth then some (node, st)
    else
      let demote :=
        if !self && (st.mdb ptr).prnt == some m then overlapsPart (st.mdb m) b o (st.mdb ptr)
        else demote
      demoteRun S attr self m b o fuel ptr demote st

/-- The second inner loop: back to the first node that is no deeper than `d`,
taking out what has no rights left. -/
def removeRun (d : Nat) : Nat → NodeId → State σ → Option (State σ)
  | 0, _, _ => none
  | fuel + 1, node, st =>
    let st := st.remove node true
    if (st.mdb node).dpth ≤ d then some st
    else removeRun d fuel (st.mdb.prev node) st

/-- The branch of `revoke` that keeps the children of `m` in the database. -/
def revokeKeep (S : SpaceOps σ) (m : NodeId) (st : State σ) : State σ :=
  let st :=
    if (st.mdb m).nodeAttr &&& 0x1f != 0 then
      ({ st with iommu := st.iommu || ((st.mdb m).nodeSub &&& 1 != 0) }).demote S m 0x1f
    else st
  st.remove m false

def keeps (kim : Bool) (m : NodeId) (st : State σ) : Bool :=
  kim && decide ((st.mdb m).dpth < (st.mdb (st.mdb.next m)).dpth)

/-- One pass of the loop of `Pd::revoke`, for the node `m`. -/
def revokeNode (S : SpaceOps σ) (fuel : Nat) (attr : Mword) (self kim : Bool) (m : NodeId)
    (b o : Mword) (st : State σ) : Option (Ctl (State σ)) :=
  if keeps kim m st then some (.next (revokeKeep S m st))
  else
    let demote := self && overlapsPart (st.mdb m) b o (st.mdb m)
    match demoteRun S attr self m b o fuel m demote st with
    | none => none
    | some (node, st) =>
      match removeRun (st.mdb m).dpth fuel node st with
      | none => none
      | some st => some (.next st)

def revoke (S : SpaceOps σ) (fuel : Nat) (pd : PdId) (base ord attr : Mword) (self kim : Bool)
    (st : State σ) : Option (State σ) :=
  match walkRange id pd base ord (revokeNode S fuel attr self kim) fuel base st with
  | none => none
  | some (.ret st) => some st
  | some (.next st) =>
    if !st.preemption && st.iommu then some { st with iommu := false } else some st

end Tukija.Pd
