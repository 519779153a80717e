import Tukija.Pd.State

namespace Tukija.Pd

open Tukija.Lib.Word Tukija.Mapdb

variable {σ : Type}

/-- A node that is delegated from nothing, as the constructors of kernel
objects, `Space::addreg` and `insert_utcb` make it. -/
def rootNode (pd : PdId) (n : NodeId) (phys base order attr type : Mword) : Mdb where
  dpth := 0
  prev := n
  next := n
  prnt := none
  space := pd
  nodePhys := phys
  nodeBase := base
  nodeOrder := order
  nodeAttr := attr
  nodeType := type
  nodeSub := 0

/-- Make a root node and insert it into the tree of `pd`. -/
def insertRoot (S : SpaceOps σ) (pd : PdId) (phys base order attr type : Mword) (st : State σ) :
    State σ × Bool :=
  let n := st.fresh
  let st := st.alloc S pd (rootNode pd n phys base order attr type)
  match treeInsert st.mdb (st.tree pd) n with
  | none => ({ st with space := S.destroy pd st.space }, false)
  | some tree => (st.setTree pd tree, true)

def removeUtcb (pd : PdId) (b : Mword) (st : State σ) : State σ :=
  if b = 0 then st
  else
    match st.lookup pd (shr b 12) false with
    | none => st
    | some n => { st with mdb := demoteNode st.mdb n 0x3 }.remove n true

end Tukija.Pd
