import Tukija.Mapdb.Tree

/-! The state that `Pd::delegate<S>` and `Pd::revoke<S>` work on, for one kind
of space `S`, and the loop over an index range that both share. -/
namespace Tukija.Pd

open Tukija.Lib.Word Tukija.Mapdb

/-- What the template argument `S` brings along, with the quota it draws on.
`update` returns whether a shootdown is due and whether memory ran out. -/
structure SpaceOps (σ : Type) where
  stickySub : Mword → Mword
  update : Mdb → Mword → σ → σ × Bool × Bool
  hitLimit : PdId → σ → Bool
  alloc : PdId → σ → σ
  destroy : PdId → σ → σ
  check : PdId → σ → Bool

/-- `oom`, `iommu` and `preemption` are the bits of `Cpu` that the operations
read.  `orig` is a history variable: the node each node was delegated from. -/
structure State (σ : Type) where
  mdb : Heap
  fresh : NodeId
  tree : PdId → Tree
  space : σ
  oom : Bool
  iommu : Bool
  preemption : Bool
  rcu : List NodeId
  orig : NodeId → Option NodeId

variable {σ : Type}

def boot (space : σ) : State σ where
  mdb := fun _ => default
  fresh := 0
  tree := fun _ => []
  space := space
  oom := false
  iommu := false
  preemption := false
  rcu := []
  orig := fun _ => none

namespace State

def setTree (st : State σ) (pd : PdId) (t : Tree) : State σ :=
  { st with tree := Function.update st.tree pd t }

def lookup (st : State σ) (pd : PdId) (base : Mword) (next : Bool) : Option NodeId :=
  Mapdb.lookup st.mdb (st.tree pd) base next

/-- A node is live while it is in the tree of its space. -/
def Live (st : State σ) (n : NodeId) : Prop := n ∈ st.tree (st.mdb n).space

instance (st : State σ) (n : NodeId) : Decidable (st.Live n) :=
  inferInstanceAs (Decidable (_ ∈ _))

/-- Storage for a new node, charged to the quota of `pd`. -/
def alloc (S : SpaceOps σ) (pd : PdId) (x : Mdb) (st : State σ) : State σ :=
  { st with
    mdb := st.mdb.set st.fresh fun _ => x
    fresh := st.fresh + 1
    space := S.alloc pd st.space }

def update (S : SpaceOps σ) (n : NodeId) (r : Mword) (st : State σ) : State σ × Bool :=
  let u := S.update (st.mdb n) r st.space
  ({ st with space := u.1, oom := st.oom || u.2.2 }, u.2.1)

/-- `S::update` with the rights `r` taken away, followed by `demote_node`. -/
def demote (S : SpaceOps σ) (n : NodeId) (r : Mword) (st : State σ) : State σ :=
  let st := (st.update S n r).1
  { st with mdb := demoteNode st.mdb n r }

/-- `node->remove_node (leaf) && tree_remove (node)`, and `Rcu::call` if both
succeed. -/
def remove (n : NodeId) (leaf : Bool) (st : State σ) : State σ :=
  match removeNode st.mdb n leaf with
  | (false, _) => st
  | (true, h) =>
    match treeRemove h (st.tree (h n).space) n with
    | none => { st with mdb := h }
    | some t => { st with mdb := h, tree := Function.update st.tree (h n).space t, rcu := n :: st.rcu }

end State

/-- `Pd::clamp` on a range and a base passed by reference: the order of the
smaller range and the new base, or all ones and the base unchanged. -/
def clamp (sndBase rcvBase sndOrd rcvOrd : Mword) : Mword × Mword :=
  if shr (sndBase ^^^ rcvBase) (wmax sndOrd rcvOrd) ≠ 0 then (ones, rcvBase)
  else (wmin sndOrd rcvOrd, rcvBase ||| sndBase)

/-- How a pass over one node ends: the loop goes on, or the function returns. -/
inductive Ctl (τ : Type) where
  | next (t : τ)
  | ret (t : τ)

/-- The loop of `delegate` and `revoke` over the nodes of `pd` in the range
`(base, ord)`.  It ends at the first node that is outside. -/
def walkRange {τ : Type} (st : τ → State σ) (pd : PdId) (base ord : Mword)
    (body : NodeId → Mword → Mword → τ → Option (Ctl τ)) : Nat → Mword → τ → Option (Ctl τ)
  | 0, _, _ => none
  | fuel + 1, addr, t =>
    match (st t).lookup pd addr true with
    | none => some (.next t)
    | some m =>
      let mdb := (st t).mdb m
      let c := clamp mdb.nodeBase base mdb.nodeOrder ord
      if c.1 = ones then some (.next t)
      else
        match body m c.2 c.1 t with
        | none => none
        | some (.ret t) => some (.ret t)
        | some (.next t) => walkRange st pd base ord body fuel mdb.last t

end Tukija.Pd
