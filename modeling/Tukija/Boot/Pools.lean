import Tukija.Boot.Hip
import Tukija.Lib.Checked
import Tukija.Lib.Gaps

/-! Which memory the kernel takes for its pools.  Every subtraction tells whether
it wraps. -/
namespace Tukija.Boot.Info

open Tukija.Lib.Checked Tukija.Lib.Gaps

/-- The end of the image, where it is in physical memory (`LINK_E`) and where its
memory ends in the kernel's address space (`_mempool_e`), and how much memory the
configuration asks for. -/
structure Layout where
  linkE : Nat
  mempoolE : Nat
  dynMin : Nat
  dynPerMill : Nat
  linkE_lt : linkE < 2 ^ 64
  mempoolE_lt : mempoolE < 2 ^ 64
  dynMin_lt : dynMin < 2 ^ 64

/-- `BUDDY_V_MAX`: 4 MB below the 16 MB below the data of the CPUs. -/
@[irreducible] def buddyVMax : Nat := 0xffffffffbfe00000 - 0x1000000 - 0x400000

namespace HipMem

/-- `MEMORY_AVAIL`, and the types of a frame buffer and of the hypervisor. -/
def memoryAvail : BitVec 32 := 1
def mb2Fb : BitVec 32 := -5
def hypervisor : BitVec 32 := -1

variable (m : HipMem)

/-- How many bytes `_add_buddy` takes it for; the size of a frame buffer has its width above bit 40,
and `aux` is its pitch. -/
def bytes : Nat := if m.type = mb2Fb then m.aux.toNat * (m.size.toNat / 2 ^ 40) else m.size.toNat

/-- How many bytes are reserved: those of a frame buffer are its pitch times its height, which is above
bit 16 of the size. -/
def extent : Nat := if m.type = mb2Fb then m.aux.toNat * (m.size.toNat / 2 ^ 16 % 2 ^ 24) else m.size.toNat

def mEnd : Nat := (m.addr.toNat + m.bytes) % 2 ^ 64

end HipMem

/-- `Hip::for_each`: as many descriptors as the length says. -/
def Hip.descs (hip : Hip) : List HipMem := hip.memDesc.take ((hip.length - Info.memOffs) / Info.memSize)

def systemMemory (hip : Hip) : Nat :=
  hip.descs.foldl (fun max m => if m.type = HipMem.memoryAvail then (max + m.size.toNat) % 2 ^ 64 else max) 0

/-- What one reserved descriptor leaves of the region: the larger side. -/
def exclude (r : Region Nat) (m : HipMem) : Calc (Region Nat) :=
  if m.type = HipMem.memoryAvail then pure r
  else if r.stop ≤ m.addr.toNat then pure r
  else if m.mEnd ≤ r.start then pure r
  else if r.start ≤ m.addr.toNat then do
    let newEnd := min r.stop m.addr.toNat
    let newSize ← sub64 newEnd r.start
    if m.mEnd < r.stop then
      let behind ← sub64 r.stop m.mEnd
      if newSize < behind then return ⟨m.mEnd, r.stop⟩ else return ⟨r.start, newEnd⟩
    else return ⟨r.start, newEnd⟩
  else if r.start ≤ m.mEnd then pure ⟨m.mEnd, r.stop⟩
  else pure r

def trim : List HipMem → Region Nat → Calc (Region Nat)
  | [], r => pure r
  | m :: l, r => do
    let r ← exclude r m
    trim l r

/-- `mask_size`: pages of 2 MB. -/
def maskSize : Nat := 2 ^ 21

/-- The start goes up to the next page of 2 MB, if the size allows it. -/
def align (start size : Nat) : Calc (Nat × Nat) :=
  if start % maskSize ≠ 0 then do
    let add ← sub64 maskSize (start % maskSize)
    if add ≤ size then do
      let size ← sub64 size add
      return ((start + add) % 2 ^ 64, size)
    else return (start, 0)
  else return (start, size)

def limit (virt regionSize : Nat) : Calc Nat :=
  if buddyVMax ≤ (virt + regionSize) % 2 ^ 64 then sub64 buddyVMax virt else pure regionSize

structure Pool where
  start : Nat
  virt : Nat
  size : Nat
  deriving DecidableEq, Repr

/-- The page and `memory_allocated`. -/
structure Kmem where
  hip : Hip
  allocated : Nat

namespace Layout

variable (k : Layout)

def kernelTargetSize (max : Nat) : Nat :=
  let systemMem := max / 1000 * k.dynPerMill % 2 ^ 64
  if k.dynMin ≤ max then Nat.max k.dynMin systemMem else systemMem

def missing (max allocated : Nat) : Calc Nat :=
  if allocated < k.kernelTargetSize max then sub64 (k.kernelTargetSize max) allocated
  else pure (k.kernelTargetSize max)

/-- What `_add_buddy` makes of an aligned region. -/
def take (max : Nat) (s : Kmem) (start regionSize : Nat) : Calc (Option Pool) := do
  let off ← sub64 start k.linkE
  let virt := (k.mempoolE + off) % 2 ^ 64
  if buddyVMax ≤ virt then return none
  let regionSize ← limit virt regionSize
  let systemMem ← k.missing max s.allocated
  let size := min systemMem regionSize / maskSize * maskSize
  if size = 0 then return none
  if pageHSize < s.hip.length + Info.memSize then return none
  return some ⟨start, virt, size⟩

/-- `Hip::_add_buddy`, up to the pool that it makes. -/
def pool (max : Nat) (s : Kmem) (cmp : HipMem) : Calc (Option Pool) :=
  let regionEnd := (cmp.addr.toNat + cmp.size.toNat) % 2 ^ 64
  if regionEnd ≤ k.linkE then pure none
  else do
    let r ← trim s.hip.descs ⟨k.linkE, regionEnd⟩
    let regionSize ← sub64 r.stop r.start
    let (start, regionSize) ← align r.start regionSize
    k.take max s start regionSize

/-- `Hip::_add_buddy`: the pool gets a descriptor. -/
def addPool (max : Nat) (s : Kmem) (cmp : HipMem) : Kmem :=
  match (k.pool max s cmp).val with
  | none => s
  | some p =>
    { hip := s.hip.withMemDesc fun mem => { mem with
        addr := .ofNat 64 p.start
        size := .ofNat 64 p.size
        type := HipMem.hypervisor }
      allocated := (s.allocated + p.size) % 2 ^ 64 }

/-- Whether a block is tried: those that the end of the image is in, for `close`. -/
def tried (close : Bool) (m : HipMem) : Bool :=
  m.type = HipMem.memoryAvail &&
    (!close || m.addr.toNat ≤ k.linkE && k.linkE < (m.addr.toNat + m.size.toNat) % 2 ^ 64)

/-- The loop of `Hip::add_buddy`, until something has been taken, with the blocks
that were tried. -/
def addBuddyLoop (max : Nat) (close : Bool) : List HipMem → Kmem → Kmem × List HipMem
  | [], s => (s, [])
  | m :: l, s =>
    if k.tried close m then
      let s' := k.addPool max s m
      if s'.allocated = s.allocated then
        let (t, blocks) := addBuddyLoop max close l s'
        (t, m :: blocks)
      else (s', [m])
    else addBuddyLoop max close l s

/-- The last part of `Hip::build`: the state before and the blocks tried in it, for
both calls of `add_buddy`. -/
def addBuddies (hip : Hip) : List (Kmem × List HipMem) :=
  let max := systemMemory hip
  let (s, blocks) := k.addBuddyLoop max true hip.descs ⟨hip, 0⟩
  (⟨hip, 0⟩, blocks) ::
    if s.allocated < k.kernelTargetSize max then [(s, (k.addBuddyLoop max false s.hip.descs s).2)] else []

end Layout

end Tukija.Boot.Info
