import Tukija.Lib.Chain

/-! `Slab_cache`: objects of one size, cut out of pages.  The pages of a cache
are in a list, and each one has a list of its free elements. -/
namespace Tukija.Slabs

abbrev SlabId := Nat

abbrev Obj := SlabId × Nat

/-- `class Slab`.  The free elements are linked from `head` on through a word of
their own. -/
structure Slab where
  avail : Nat
  prev : Option SlabId
  next : Option SlabId
  head : List Nat
  deriving DecidableEq, Repr, Inhabited

/-- `class Slab_cache`, with the pages it has from the buddy allocator and the
objects that its callers have. -/
structure Cache where
  elem : Nat
  slab : SlabId → Slab
  curr : Option SlabId
  head : Option SlabId
  pages : Finset SlabId
  live : Finset Obj

inductive Fault where
  | assertion
  | null
  deriving DecidableEq, Repr

def ensure (b : Bool) : Except Fault Unit := if b then .ok () else .error .assertion

def deref {α : Type} : Option α → Except Fault α
  | none => .error .null
  | some a => .ok a

namespace Cache

variable (c : Cache) (s : SlabId)

/-- `Slab_cache::Slab_cache`, for any number of elements in a page. -/
def new (elem : Nat) : Cache := ⟨elem, fun _ => default, none, none, ∅, ∅⟩

def avail : Nat := (c.slab s).avail
def prev : Option SlabId := (c.slab s).prev
def next : Option SlabId := (c.slab s).next
def freeList : List Nat := (c.slab s).head

def full : Bool := c.avail s == 0
def empty : Bool := c.avail s == c.elem

def set (f : Slab → Slab) : Cache := { c with slab := Function.update c.slab s (f (c.slab s)) }

def setPrev (p : Option SlabId) : Cache := c.set s fun x => { x with prev := p }
def setNext (n : Option SlabId) : Cache := c.set s fun x => { x with next := n }

/-- `Slab::Slab`. -/
def newSlab : Slab := ⟨c.elem, none, none, (List.range c.elem).reverse⟩

/-- `Slab_cache::grow`, with the page that the buddy allocator has. -/
def grow (page : SlabId) : Cache :=
  let h := c.head
  let c := { c.set page fun _ => c.newSlab with pages := insert page c.pages }
  let c :=
    match h with
    | none => c
    | some h => c.setPrev h (some page)
  { c.setNext page h with head := some page, curr := some page }

/-- `Slab::alloc`. -/
def slabAlloc : Except Fault (Nat × Cache) := do
  ensure (c.avail s ≠ 0 && c.avail s - 1 < c.elem)
  let (e, rest) ←
    match c.freeList s with
    | [] => .error .null
    | e :: rest => .ok (e, rest)
  return (e, c.set s fun x => { x with avail := x.avail - 1, head := rest })

/-- `Slab::free`. -/
def slabFree (o : Obj) : Cache :=
  if c.elem ≤ c.avail o.1 then c
  else c.set o.1 fun x => { x with avail := x.avail + 1, head := o.2 :: x.head }

def allocCurr : Except Fault (Obj × Cache) := do
  let s ← deref c.curr
  ensure (!c.full s)
  ensure ((c.next s).all fun n => c.full n)
  let (e, c) ← c.slabAlloc s
  let c := { c with live := insert (s, e) c.live }
  return ((s, e), if c.full s then { c with curr := c.prev s } else c)

/-- `Slab_cache::alloc`.  The last component tells whether the cache has grown. -/
def alloc (page : SlabId) : Except Fault (Obj × Cache × Bool) := do
  let grows := c.curr.isNone
  let c := if grows then c.grow page else c
  let (o, c) ← c.allocCurr
  return (o, c, grows)

/-- Take a slab out from behind `p`. -/
def dequeue (p : SlabId) : Cache :=
  let n := c.next s
  let c := c.setNext p n
  match n with
  | none => c
  | some n => c.setPrev n (some p)

def enqueueAfter (cur : SlabId) : Except Fault Cache := do
  let n := c.next cur
  let c := (c.setPrev s (some cur)).setNext s n
  let n ← deref n
  return (c.setPrev n (some s)).setNext cur (some s)

def enqueueHead : Except Fault Cache := do
  let c := (c.setPrev s none).setNext s c.head
  let h ← deref c.head
  return { c.setPrev h (some s) with head := some s }

/-- The branch of `Slab_cache::free` for a slab that was full. -/
def requeueFull : Except Fault Cache := do
  let c ←
    match c.prev s with
    | none => .ok c
    | some p =>
      if c.full p then
        let c := c.dequeue s p
        match c.curr with
        | some cur => c.enqueueAfter s cur
        | none => c.enqueueHead s
      else .ok c
  return { c with curr := some s }

/-- The branch for a slab that has become empty.  The flag tells whether it has
been given back. -/
def requeueEmpty : Except Fault (Cache × Bool) := do
  match c.prev s with
  | none => return (c, false)
  | some p =>
    let c := if c.curr = some s then { c with curr := some p } else c
    let c := c.dequeue s p
    if c.empty p || (c.head.any fun h => c.empty h) then
      ensure (c.head ≠ some s)
      return ({ c with pages := c.pages.erase s }, true)
    else
      let c ← c.enqueueHead s
      return (c, false)

def free (o : Obj) : Except Fault (Cache × Bool) := do
  let wasFull := c.full o.1
  let c := { c.slabFree o with live := c.live.erase o }
  if wasFull then
    let c ← c.requeueFull o.1
    return (c, false)
  else if c.empty o.1 then c.requeueEmpty o.1
  else return (c, false)

end Cache

/-- The caches of this geometry that come about: the buddy allocator has pages
that are not in use, and only live objects are freed. -/
inductive Reached (elem : Nat) : Cache → Prop
  | new : Reached elem (.new elem)
  | alloc {c c' : Cache} {p : SlabId} {o : Obj} {grown : Bool} (h : Reached elem c) (hp : p ∉ c.pages)
      (hc : c.alloc p = .ok (o, c', grown)) : Reached elem c'
  | free {c c' : Cache} {o : Obj} {gone : Bool} (h : Reached elem c) (ho : o ∈ c.live)
      (hc : c.free o = .ok (c', gone)) : Reached elem c'

end Tukija.Slabs
