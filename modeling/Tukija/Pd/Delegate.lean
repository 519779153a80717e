import Tukija.Pd.State

namespace Tukija.Pd

open Tukija.Lib.Word Tukija.Mapdb

variable {σ : Type}

/-- The node that `delegate` makes out of the part `(b, o)` of the sender's
node `mdb`. -/
def childOf (S : SpaceOps σ) (this : PdId) (sndBase rcvBase sub : Mword) (mdb : Mdb) (n : NodeId)
    (b o : Mword) : Mdb where
  dpth := (mdb.dpth + 1) % 2 ^ 16
  prev := n
  next := n
  prnt := none
  space := this
  nodePhys := b - mdb.nodeBase + mdb.nodePhys
  nodeBase := b - sndBase + rcvBase
  nodeOrder := o
  nodeAttr := 0
  nodeType := mdb.nodeType
  nodeSub := S.stickySub mdb.nodeSub ||| sub

/-- One pass of the loop of `Pd::delegate`, for the sender's node `m`. -/
def delegateNode (S : SpaceOps σ) (this : PdId) (sndBase rcvBase attr sub : Mword) (m : NodeId)
    (b o : Mword) (t : State σ × Bool) : Option (Ctl (State σ × Bool)) :=
  let (st, s) := t
  if S.hitLimit this st.space then some (.ret ({ st with oom := true }, s))
  else
    let n := st.fresh
    let st := st.alloc S this (childOf S this sndBase rcvBase sub (st.mdb m) n b o)
    match treeInsert st.mdb (st.tree this) n with
    | none => some (.next ({ st with space := S.destroy this st.space }, s))
    | some tree =>
      let st := st.setTree this tree
      match insertNode st.mdb n m attr with
      | (false, h) =>
        let st := { st with mdb := h }
        match treeRemove st.mdb (st.tree this) n with
        | none => some (.next (st, s))
        | some tree => some (.next ({ st.setTree this tree with rcu := n :: st.rcu }, s))
      | (true, h) =>
        let st := { st with mdb := h, orig := Function.update st.orig n (some m) }
        let (st, f) := st.update S n 0
        if st.oom then
          let g := (st.update S n attr).2
          let st := (st.demote S n attr).remove n true
          some (.ret (st, s || f || g))
        else some (.next (st, s || f))

/-- `Pd::delegate`.  The result tells whether a shootdown is due. -/
def delegate (S : SpaceOps σ) (fuel : Nat) (this snd : PdId)
    (sndBase rcvBase ord attr sub : Mword) (st : State σ) : Option (State σ × Bool) :=
  match walkRange Prod.fst snd sndBase ord (delegateNode S this sndBase rcvBase attr sub)
      fuel sndBase (st, false) with
  | none => none
  | some (.ret t) => some t
  | some (.next t) =>
    if S.check this t.1.space then some t else some ({ t.1 with oom := true }, t.2)

end Tukija.Pd
