import Tukija.Lib.Radix
import Tukija.Space.Obj

/-! `Space_mem`: the memory of a protection domain, with its host page table.
Addresses are in pages; a table entry is its frame and its attributes. -/
namespace Tukija.Space

open Tukija.Lib.Word Tukija.Lib.Radix Tukija.Mapdb Tukija.Pd

structure Pte where
  frame : Mword
  attr : Mword
  deriving DecidableEq

/-- The accounting of memory and the tables of devices, guests and single
processors, of which only the outcome matters: whether a shootdown is due and
whether memory ran out. -/
structure Tables (θ : Type) where
  quotas : Quotas θ
  ord : Nat
  ord_le : ord ≤ 26
  others : Mdb → Mword → θ → θ × Bool × Bool
  check : PdId → Nat → θ → Bool
  draw : PdId → θ → θ
  loc : Mdb → Mword → θ → θ × Bool

/-- `wild` records that the kernel took the frame of a superpage for a table and
wrote into it. -/
structure MemState (θ : Type) where
  quota : θ
  hpt : PdId → Entry Pte
  wild : Bool

/-- `USER_ADDR >> PAGE_BITS`. -/
def userPages : Mword := 0x7fffc0000

def hwAttr (a : Mword) : Mword :=
  let a := if a ≠ 0 ∧ a &&& 0x4 = 0 then a ||| 0x8000000000000000 else a
  if a ≠ 0 then a ||| 0x65 else 0

/-- `Hpt::lookup`: the level, the frame and the attributes found for a page. -/
def hptLookup (e : Entry Pte) (v : Nat) : Option (Nat × Mword × Mword) :=
  (find 512 4 e v).map fun (l, x) => (l, x.frame ||| BitVec.ofNat 64 (v % 512 ^ l), x.attr)

/-- Whether overwriting `old` with `new` leaves something to flush. -/
def flushes : Entry Pte → Entry Pte → Bool
  | .empty, _ => false
  | .leaf x, .leaf y => x != y
  | _, _ => true

namespace MemState

variable {θ : Type} (T : Tables θ)

/-- `Hpt::update`; `up` stands for `TYPE_UP`. -/
def hptUpdate (pd : PdId) (v : Mword) (o : Nat) (p a : Mword) (up : Bool) (s : MemState θ) :
    MemState θ × Bool :=
  let l := o / 9
  let n := 2 ^ (o % 9)
  let g := fun i => if a ≠ 0 then .leaf ⟨p + BitVec.ofNat 64 (i * 512 ^ l), a⟩ else .empty
  match put 512 l v.toNat n up g (3 - l) (s.hpt pd) with
  | .missing => (s, false)
  | .broken => ({ s with wild := true }, false)
  | .done e =>
    let old := peek 512 l v.toNat (3 - l) (s.hpt pd)
    ({ s with quota := T.draw pd s.quota, hpt := Function.update s.hpt pd e },
      l != 0 && (List.range n).any fun i => flushes (old (digit 512 l v.toNat + i)) (g i))

/-- The loop of `Space_mem::update` over the parts of a node that fit into one
call of `Hpt::update`, from the part `i` on.  The last component tells whether
memory ran out. -/
def mapParts (x : Mdb) (r a : Mword) (ord : Nat) :
    Nat → Nat → MemState θ × Bool → (MemState θ × Bool) × Bool
  | 0, _, t => (t, false)
  | k + 1, i, t =>
    if r = 0 ∧ T.check x.space ord t.1.quota = false then (t, true)
    else
      let off := BitVec.ofNat 64 (i * 2 ^ ord)
      let u := t.1.hptUpdate T x.space (x.nodeBase + off) ord (x.nodePhys + off) (hwAttr a)
        (decide (r = 0))
      mapParts x r a ord k (i + 1) (u.1, t.2 || u.2)

/-- The same loop for page tables of any kind, with the attributes as their format
has them. -/
def treeParts (x : Mdb) (r a : Mword) (ord : Nat) :
    Nat → Nat → MemState θ × Bool → (MemState θ × Bool) × Bool
  | 0, _, t => (t, false)
  | k + 1, i, t =>
    if r = 0 ∧ T.check x.space ord t.1.quota = false then (t, true)
    else
      let off := BitVec.ofNat 64 (i * 2 ^ ord)
      let u := t.1.hptUpdate T x.space (x.nodeBase + off) ord (x.nodePhys + off) a (decide (r = 0))
      treeParts x r a ord k (i + 1) (u.1, t.2 || u.2)

def outsideUser (x : Mdb) : Bool :=
  decide (userPages ≤ x.nodeBase) || decide (userPages < x.nodeBase + shl 1 x.nodeOrder) ||
    decide (x.nodeBase + shl 1 x.nodeOrder ≤ x.nodeBase)

/-- `HPT_PWT` for a node with the sticky bit. -/
def writeThrough (x : Mdb) (a : Mword) : Mword :=
  if x.nodeSub &&& 0x4 ≠ 0 ∧ a ≠ 0 then a ||| 0x8 else a

/-- `Space_mem::update`.  Only an update that adds rights can run out of memory. -/
def update (x : Mdb) (r : Mword) (s : MemState θ) : MemState θ × Bool × Bool :=
  let (q, f, oom) := T.others x r s.quota
  let s := { s with quota := q }
  if r = 0 ∧ oom = true then (s, false, true)
  else if outsideUser x then (s, false, false)
  else
    let o := x.nodeOrder.toNat
    let ord := min o T.ord
    let (t, oom) := mapParts T x r (writeThrough x (x.nodeAttr &&& ~~~r)) ord (2 ^ (o - ord)) 0 (s, f)
    if oom then (t.1, t.2, true)
    else if r ≠ 0 ∨ t.2 = true then
      let (q, oom) := T.loc x r t.1.quota
      ({ t.1 with quota := q }, true, decide (r = 0) && oom)
    else (t.1, false, false)

end MemState

variable {θ : Type} (T : Tables θ)

def memSpace : SpaceOps (MemState θ) where
  stickySub s := s &&& 0x4
  update := MemState.update T
  hitLimit pd s := T.quotas.hitLimit pd s.quota
  alloc pd s := { s with quota := T.quotas.alloc pd s.quota }
  destroy pd s := { s with quota := T.quotas.destroy pd s.quota }
  check pd s := T.quotas.check pd s.quota

/-- `Pd::root`. -/
def rootPd : PdId := 1

/-- What `Space_mem` knows of an execution context: its domain, the address of
its UTCB there and the frame that holds it. -/
structure Ec where
  pd : PdId
  utcb : Mword
  frame : Mword
  deriving DecidableEq

def Ec.page (e : Ec) : Nat := (shr e.utcb 12).toNat

/-- The spaces of all domains with the live execution contexts and the pages at
which cells see their information pages. -/
structure Machine (θ : Type) where
  pds : State (MemState θ)
  ecs : List Ec
  cips : List (PdId × Nat)

/-- `Space_mem::insert` of a single page. -/
def insertPage (pd : PdId) (v p a : Mword) (st : State (MemState θ)) : State (MemState θ) :=
  { st with space := (st.space.hptUpdate T pd (shr v 12) 0 p a true).1 }

/-- The tests of `sys_create_ec` on the address of a UTCB. -/
def utcbValid (u : Mword) : Bool := decide (u < 0x7fffc0000000) && u &&& 0xfff == 0

/-- `sys_create_ec` and the constructor of `Ec`, as far as memory goes.  An
execution context without a UTCB runs a virtual machine and maps nothing. -/
def createEc (e : Ec) (s : Machine θ) : Machine θ :=
  if !utcbValid e.utcb then s
  else if e.utcb = 0 then { s with ecs := e :: s.ecs }
  else
    let st := insertPage T e.pd e.utcb e.frame 0x7 s.pds
    let st :=
      if e.pd = rootPd ∧ e.frame ≠ 0 then
        (insertRoot (memSpace T) e.pd e.frame (shr e.utcb 12) 0 0x3 0 st).1
      else st
    { s with pds := st, ecs := e :: s.ecs }

/-- `Ec::pre_free`. -/
def destroyEc (e : Ec) (s : Machine θ) : Machine θ :=
  if e.utcb = 0 then { s with ecs := s.ecs.erase e }
  else
    let st := insertPage T e.pd e.utcb 0 0 (removeUtcb e.pd e.utcb s.pds)
    { s with pds := st, ecs := s.ecs.erase e }

end Tukija.Space
