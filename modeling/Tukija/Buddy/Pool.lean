import Tukija.Lib.Ring
import Tukija.Lib.Dyadic

/-! One pool of the buddy allocator.  The descriptors of its pages and the heads
of its lists lie in memory behind the pages; a pointer to one is its address, so
that a pool whose two tables overlap shows what that does. -/
namespace Tukija.Buddy

def pageSize : Nat := 4096

def pageBits : Nat := 12

/-- `sizeof (Block)`. -/
def blockSize : Nat := 24

inductive Tag where
  | used
  | free
  deriving DecidableEq, Repr

structure Block where
  prev : Int
  next : Int
  ord : Nat
  tag : Tag
  deriving DecidableEq, Repr

abbrev Mem := Int → Block

namespace Mem

def set (m : Mem) (b : Int) (f : Block → Block) : Mem := fun x => if x = b then f (m b) else m x

def next (m : Mem) (b : Int) : Int := (m b).next

def prev (m : Mem) (b : Int) : Int := (m b).prev

theorem set_apply (m : Mem) (b x : Int) (f : Block → Block) :
    m.set b f x = if x = b then f (m b) else m x := rfl

@[simp] theorem set_self (m : Mem) (b : Int) (f : Block → Block) : m.set b f b = f (m b) := by
  simp [set]

theorem set_of_ne (m : Mem) {b x : Int} (f : Block → Block) (h : x ≠ b) : m.set b f x = m x := by
  simp [set, h]

def dequeue (m : Mem) (b : Int) : Mem :=
  let m := m.set (m b).prev fun x => { x with next := (m b).next }
  m.set (m b).next fun x => { x with prev := (m b).prev }

/-- Put a block into the list of the head `h`. -/
def enqueue (m : Mem) (h b : Int) : Mem :=
  let m := m.set b fun x => { x with prev := h }
  let m := m.set b fun x => { x with next := (m h).next }
  let m := m.set h fun x => { x with next := b }
  m.set (m b).next fun x => { x with prev := b }

end Mem

/-- The fields of `class Buddy` that stay as the constructor sets them, and the
distance `OFFSET` between linear and physical addresses. -/
structure Pool where
  minIdx : Int
  maxIdx : Int
  base : Int
  order : Nat
  index : Int
  head : Int
  offset : Int
  deriving DecidableEq, Repr

namespace Pool

variable (p : Pool)

def blockToIndex (b : Int) : Int := (b - p.index) / blockSize

def indexToBlock (i : Int) : Int := p.index + i * blockSize

def pageToIndex (addr : Int) : Int := addr / pageSize - p.base / pageSize

def indexToPage (i : Int) : Int := p.base + i * pageSize

def virtToPhys (virt : Int) : Int := virt - p.offset

/-- `head + i`. -/
def headAt (i : Nat) : Int := p.head + i * blockSize

def orderAligned (virt : Int) (ord : Nat) : Bool := p.virtToPhys virt % 2 ^ (ord + pageBits) == 0

/-- `block_idx ^ (1ul << ord)`, on signed machine words. -/
def buddyIdx (i : Int) (ord : Nat) : Int := (BitVec.ofInt 64 i ^^^ BitVec.twoPow 64 ord).toInt

/-- The search of `_alloc` for a list with a block in it, `n` lists from `j`
on. -/
def firstList (m : Mem) : Nat → Nat → Option Nat
  | 0, _ => none
  | n + 1, j => if m.next (p.headAt j) = p.headAt j then firstList m n (j + 1) else some j

/-- The halves that `_alloc` splits off a block of order `j`. -/
def split (block : Int) (ord : Nat) : Nat → Mem → Mem
  | 0, m => m
  | j + 1, m =>
    if j + 1 = ord then m
    else
      let buddy := block + 2 ^ j * blockSize
      let m := m.set buddy fun x => { x with prev := p.headAt j, next := p.headAt j }
      let m := m.set buddy fun x => { x with ord := j, tag := .free }
      let m := m.set (p.headAt j) fun x => { x with next := buddy, prev := buddy }
      split block ord j m

/-- `Buddy::_alloc`; `none` when its assertion fails. -/
def _alloc (m : Mem) (ord : Nat) : Option (Option Int × Mem) :=
  match p.firstList m (p.order - ord) ord with
  | none => some (none, m)
  | some j =>
    let block := m.next (p.headAt j)
    let m := m.dequeue block
    let m := m.set block fun x => { x with ord := ord, tag := .used }
    let m := p.split block ord j m
    let virt := p.indexToPage (p.blockToIndex block)
    if p.orderAligned virt (m block).ord then some (some virt, m) else none

/-- The loop of `_free`, with at most `n` turns to go. -/
def merge : Nat → Int → Nat → Mem → Int × Nat × Mem
  | 0, block, ord, m => (block, ord, m)
  | n + 1, block, ord, m =>
    let buddyIdx := buddyIdx (p.blockToIndex block) ord
    if buddyIdx < p.minIdx ∨ p.maxIdx ≤ buddyIdx then (block, ord, m)
    else
      let buddy := p.indexToBlock buddyIdx
      if (m buddy).tag = .used ∨ (m buddy).ord ≠ ord then (block, ord, m)
      else merge n (if buddy < block then buddy else block) (ord + 1) (m.dequeue buddy)

/-- `Buddy::_free`; `none` when an assertion fails. -/
def _free (m : Mem) (virt : Int) : Option Mem :=
  let idx := p.pageToIndex virt
  let block := p.indexToBlock idx
  if p.minIdx ≤ idx ∧ idx < p.maxIdx ∧ (m block).tag = .used ∧
      p.orderAligned virt (m block).ord = true then
    let (block, ord, m) := p.merge (p.order - 1 - (m block).ord) block (m block).ord m
    let m := m.set block fun x => { x with ord := ord, tag := .free }
    some (m.enqueue (p.headAt ord) block)
  else none

end Pool

section Construct

/-- `align_up`, for a power of two. -/
def alignUp (val align : Nat) : Nat := val + (align - 1) - (val + (align - 1)) % align

/-- What the constructor gets, with the distance of the two address spaces. -/
structure Args where
  offset : Nat
  phys : Nat
  virt : Nat
  fAddr : Nat
  size : Nat
  deriving DecidableEq, Repr

namespace Args

variable (g : Args)

def bit : Nat := Nat.log2 g.size

def order : Nat := g.bit + 1 - pageBits

/-- `size` without the list heads. -/
def headless : Nat := g.size - g.order * blockSize

/-- `size` without the index storage, in whole pages. -/
def pool : Nat :=
  let size := g.headless - g.headless / (pageSize + blockSize) * blockSize
  size - size % pageSize

def fields : Pool :=
  let base : Int := (alignUp g.phys (2 ^ g.bit) : Nat) + g.offset
  let minIdx := (g.virt : Int) / pageSize - base / pageSize
  { minIdx := minIdx
    maxIdx := (g.virt + g.pool : Nat) / pageSize - base / pageSize
    base := base
    order := g.order
    index := (g.virt + g.pool : Nat) - minIdx * blockSize
    head := (g.virt + g.headless : Nat)
    offset := g.offset }

def emptyLists : Mem := fun x =>
  if ∃ i < g.order, x = g.fields.headAt i then ⟨x, x, 0, .used⟩ else ⟨0, 0, 0, .used⟩

/-- The second loop of the constructor, with at most `n` turns to go. -/
def release : Nat → Int → Mem → Option Mem
  | 0, _, m => some m
  | n + 1, i, m =>
    if i < (g.virt + g.pool : Nat) then (g.fields._free m i).bind (release n (i + pageSize)) else some m

/-- `Buddy::Buddy`: the descriptors it leaves. -/
def construct : Option Mem := g.release (g.pool / pageSize) g.fAddr g.emptyLists

end Args

end Construct

end Tukija.Buddy
