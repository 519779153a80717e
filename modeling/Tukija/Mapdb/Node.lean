import Tukija.Lib.Word
import Tukija.Lib.Ring

/-! Nodes of the mapping database.  A heap holds all of them; the pointer
fields are node names, so that a stale pointer stays distinguishable from a
live one. -/
namespace Tukija.Mapdb

open Tukija.Lib.Word Tukija.Lib.Ring

abbrev NodeId := Nat

/-- A protection domain.  The kernel's own is `kern`. -/
abbrev PdId := Nat

def kern : PdId := 0

/-- `class Mdb`, without its tree links and locks.  The regions of the kernel
carry a null `space` in the source; here they name `kern`, whose tree they are
in.  `dpth` is a `uint16`, so it is kept below `2 ^ 16`. -/
structure Mdb where
  dpth : Nat
  prev : NodeId
  next : NodeId
  prnt : Option NodeId
  space : PdId
  nodePhys : Mword
  nodeBase : Mword
  nodeOrder : Mword
  nodeAttr : Mword
  nodeType : Mword
  nodeSub : Mword
  deriving DecidableEq, Inhabited

abbrev Heap := NodeId → Mdb

namespace Heap

def set (h : Heap) (n : NodeId) (f : Mdb → Mdb) : Heap :=
  fun x => if x = n then f (h n) else h x

@[simp] theorem set_self (h : Heap) (n : NodeId) (f : Mdb → Mdb) : h.set n f n = f (h n) := by
  simp [set]

theorem set_of_ne (h : Heap) {n x : NodeId} (f : Mdb → Mdb) (hx : x ≠ n) : h.set n f x = h x := by
  simp [set, hx]

theorem set_apply (h : Heap) (n x : NodeId) (f : Mdb → Mdb) :
    h.set n f x = if x = n then f (h n) else h x := rfl

def next (h : Heap) (n : NodeId) : NodeId := (h n).next
def prev (h : Heap) (n : NodeId) : NodeId := (h n).prev

end Heap

/-- `Mdb::alive`: the neighbours still point here. -/
def alive (h : Heap) (n : NodeId) : Bool :=
  h.next (h.prev n) == n && h.prev (h.next n) == n

/-- `Mdb::insert_node`: link `n` in behind its parent `p`, with the rights of
`p` that `a` lets through. -/
def insertNode (h : Heap) (n p : NodeId) (a : Mword) : Bool × Heap :=
  let attr := (h p).nodeAttr &&& a
  let q := h.next p
  let h := h.set n fun x => { x with nodeAttr := attr }
  if attr = 0 then (false, h)
  else
    let h := h.set n fun x => { x with prev := p, prnt := some p, next := q }
    let h := h.set q fun x => { x with prev := n }
    let h := h.set p fun x => { x with next := n }
    (true, h)

def demoteNode (h : Heap) (n : NodeId) (a : Mword) : Heap :=
  h.set n fun x => { x with nodeAttr := x.nodeAttr &&& ~~~a }

/-- `Mdb::remove_node`: take `n` out of its list.  With `leaf` the node must
not be followed by a deeper one; without it the next node gets the parent of
`n` for its own. -/
def removeNode (h : Heap) (n : NodeId) (leaf : Bool) : Bool × Heap :=
  if (h n).nodeAttr ≠ 0 then (false, h)
  else if !alive h n then (false, h)
  else if leaf && decide ((h n).dpth < (h (h.next n)).dpth) then (false, h)
  else
    let q := h.next n
    let p := h.prev n
    let prnt := (h n).prnt
    let h := if leaf then h else h.set q fun x => { x with prnt := prnt }
    let h := h.set q fun x => { x with prev := p }
    let h := h.set p fun x => { x with next := q }
    (true, h)

theorem insertNode_fst (h : Heap) (n p : NodeId) (a : Mword) :
    (insertNode h n p a).1 = decide ((h p).nodeAttr &&& a ≠ 0) := by
  unfold insertNode
  dsimp only
  split <;> simp_all

theorem insertNode_apply {h : Heap} {n p : NodeId} {a : Mword}
    (ha : (h p).nodeAttr &&& a ≠ 0) (hnp : n ≠ p) (hnq : n ≠ h.next p) (x : NodeId) :
    (insertNode h n p a).2 x =
      { h x with
        next := if x = p then n else if x = n then h.next p else (h x).next
        prev := if x = h.next p then n else if x = n then p else (h x).prev
        prnt := if x = n then some p else (h x).prnt
        nodeAttr := if x = n then (h p).nodeAttr &&& a else (h x).nodeAttr } := by
  have hpn : p ≠ n := hnp.symm
  have hqn : h.next p ≠ n := hnq.symm
  simp only [insertNode, ha, ↓reduceIte, Heap.set_apply]
  by_cases hxn : x = n
  · subst hxn
    simp [hnp, hnq]
  · by_cases hxp : x = p
    · subst hxp
      by_cases hxq : x = h.next x
      · simp [← hxq, hxn]
      · simp [hxq, hxn]
    · by_cases hxq : x = h.next p
      · simp [← hxq, hxn, hxp]
      · simp [hxq, hxn, hxp]

theorem insertNode_inserted {h : Heap} {n p : NodeId} {a : Mword}
    (ha : (h p).nodeAttr &&& a ≠ 0) (hnp : n ≠ p) (hnq : n ≠ h.next p) :
    LinkedRing.Inserted h.next h.prev (insertNode h n p a).2.next (insertNode h n p a).2.prev
      p n := by
  have hpn : p ≠ n := hnp.symm
  have hqn : h.next p ≠ n := hnq.symm
  constructor <;> intros <;> simp_all [Heap.next, Heap.prev, insertNode_apply ha hnp hnq]

theorem removeNode_fst (h : Heap) (n : NodeId) (leaf : Bool) :
    (removeNode h n leaf).1 = true ↔
      (h n).nodeAttr = 0 ∧ alive h n = true ∧
        (leaf = true → (h (h.next n)).dpth ≤ (h n).dpth) := by
  unfold removeNode
  dsimp only
  split
  · simp_all
  · split
    · simp_all
    · split <;> cases leaf <;> simp_all

theorem removeNode_apply {h : Heap} {n : NodeId} {leaf : Bool}
    (hr : (removeNode h n leaf).1 = true) (x : NodeId) :
    (removeNode h n leaf).2 x =
      { h x with
        next := if x = h.prev n then h.next n else (h x).next
        prev := if x = h.next n then h.prev n else (h x).prev
        prnt := if leaf = false ∧ x = h.next n then (h n).prnt else (h x).prnt } := by
  unfold removeNode at hr ⊢
  dsimp only at hr ⊢
  split at hr
  · simp at hr
  split at hr
  · simp at hr
  split at hr
  · simp at hr
  rename_i h1 h2 h3
  simp only [h1, h2, h3, if_false, Bool.false_eq_true]
  cases leaf <;> by_cases hxp : x = h.prev n <;> by_cases hxq : x = h.next n <;>
    simp_all [Heap.set_apply]

theorem removeNode_removed {h : Heap} {n : NodeId} {leaf : Bool}
    (hr : (removeNode h n leaf).1 = true) :
    LinkedRing.Removed h.next h.prev (removeNode h n leaf).2.next (removeNode h n leaf).2.prev n := by
  constructor <;> intros <;> simp_all [Heap.next, Heap.prev, removeNode_apply hr]

end Tukija.Mapdb
