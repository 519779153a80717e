import Mathlib

/-! The topology pages, and how they are filled from the affinity table (SRAT) of
the firmware. -/
namespace Tukija.Topo

/-- `sizeof(Tip_node)`: the id and two counts, 32 ranges of 16 bytes, 32 devices
of 24 and the set of CPUs. -/
def sizeofNode : Nat := 8 + 32 * 16 + 32 * 24 + 32

def numCpu : Nat := 256

/-- `struct Tip_node`, without the devices, which `parse` does not read. -/
structure Node where
  id : Nat
  memory : List (Nat × Nat)
  cpus : Finset Nat
  deriving DecidableEq

def Node.new (id : Nat) : Node := ⟨id, [], ∅⟩

/-- `class Tip`, with the nodes that have been written.  The page is zeroed. -/
structure Tip where
  length : Nat
  cpuToNode : Nat → Nat
  nodes : List Node

def Tip.zeroed : Tip := ⟨0, fun _ => 0, []⟩

/-- What ends a run of the parser other than its return: a write outside of an
array, a length that does not fit its 16 bits (no number of nodes is right for
it from then on), or no end of the loop in sight. -/
inductive Fault where
  | outside
  | lengthWraps
  | endless
  deriving DecidableEq, Repr

/-- The set of CPUs and `cpu_to_node` have an entry for each CPU. -/
def Node.setCpu (n : Node) (cpu : Nat) : Except Fault Node :=
  if cpu < numCpu then .ok { n with cpus := insert cpu n.cpus } else .error .outside

/-- `alloc_mem`: the index of the new range, or null. -/
def Node.allocMem (n : Node) : Option Nat := if n.memory.length > 32 then none else some n.memory.length

/-- `new (node) Tip_mem(start, end)`, with an array of 32. -/
def Node.newMem (n : Node) (m : Nat × Nat) : Except Fault Node :=
  match n.allocMem with
  | none => .error .outside
  | some i => if i < 32 then .ok { n with memory := n.memory ++ [m] } else .error .outside

namespace Tip

variable (tip : Tip) (id : Nat)

def nodeCnt : Nat := tip.length / sizeofNode

def hasNode : Bool := tip.length ≠ 0 && (tip.nodes.take tip.nodeCnt).any fun n => n.id == id

/-- `add_node`, behind the last one. -/
def addNode : Except Fault Tip :=
  if tip.length + sizeofNode < 2 ^ 16 then
    .ok { tip with length := tip.length + sizeofNode, nodes := tip.nodes ++ [.new id] }
  else .error .lengthWraps

def checkAndAdd : Except Fault Tip := if tip.hasNode id then .ok tip else tip.addNode id

/-- `fn` on the first node of this id. -/
def change (id : Nat) (fn : Node → Except Fault Node) : List Node → Except Fault (List Node)
  | [] => .ok []
  | n :: nodes =>
    if n.id = id then (fn n).map (· :: nodes) else (change id fn nodes).map (n :: ·)

/-- `on_node`.  Without any node it looks at the first one all the same, which
is zeroed. -/
def onNode (fn : Node → Except Fault Node) : Except Fault Tip :=
  match tip.nodes.take tip.nodeCnt with
  | [] => if id = 0 then .error .outside else .ok tip
  | nodes =>
    (change id fn nodes).map fun l => { tip with nodes := l ++ tip.nodes.drop tip.nodeCnt }

def addCpu (cpu : Nat) : Except Fault Tip := do
  let tip ← tip.onNode id fun n => n.setCpu cpu
  if cpu < numCpu then .ok { tip with cpuToNode := Function.update tip.cpuToNode cpu id }
  else .error .outside

def addMem (base size : Nat) : Except Fault Tip :=
  tip.onNode id fun n => n.newMem (base, (base + size + (2 ^ 64 - 1)) % 2 ^ 64)

end Tip

structure Table where
  byte : Nat → UInt8
  length : Nat

/-- `Lapic::id` and `Cpu::online`. -/
structure Lapic where
  id : Nat → Nat
  online : Nat
  online_le : online ≤ numCpu

def Lapic.lookup (lapic : Lapic) (apic : Nat) : Nat :=
  ((List.range lapic.online).find? fun c => lapic.id c = apic).getD 0xffff

namespace Table

variable (t : Table) (p : Nat)

def first : Nat := 48

def field (p : Nat) : Nat → Nat
  | 0 => 0
  | n + 1 => (t.byte p).toNat + 2 ^ 8 * field (p + 1) n

def type : Nat := t.field p 1

def size : Nat := t.field (p + 1) 1

/-- `Affinity::Type`. -/
def typeLapic : Nat := 0
def typeMas : Nat := 1
def typeX2apic : Nat := 2

namespace Lapic

def enabled : Bool := (t.field (p + 4) 4).testBit 0

def domain : Nat :=
  t.field (p + 2) 1 ||| t.field (p + 9) 1 <<< 8 ||| t.field (p + 10) 1 <<< 16 ||| t.field (p + 11) 1 <<< 24

def apicId : Nat := t.field (p + 3) 1

end Lapic

namespace Memory

def domain : Nat := t.field (p + 2) 4
def base : Nat := t.field (p + 8) 8
def size : Nat := t.field (p + 16) 8
def enabled : Bool := (t.field (p + 28) 4).testBit 0
def nvm : Bool := (t.field (p + 28) 4).testBit 2

end Memory

namespace X2apic

def domain : Nat := t.field (p + 4) 4
def apicId : Nat := t.field (p + 8) 4
def enabled : Bool := (t.field (p + 12) 4).testBit 0

end X2apic

section Parse

variable (lapic : Topo.Lapic) (tip : Tip)

def parseLapic : Except Fault Tip :=
  if Lapic.enabled t p then do
    let tip ← tip.checkAndAdd (Lapic.domain t p)
    tip.addCpu (Lapic.domain t p) (lapic.lookup (Lapic.apicId t p))
  else .ok tip

def parseMemory : Except Fault Tip :=
  if !Memory.enabled t p then .ok tip
  else if Memory.nvm t p then .ok tip
  else do
    let tip ← tip.checkAndAdd (Memory.domain t p)
    tip.addMem (Memory.domain t p) (Memory.base t p) (Memory.size t p)

def parseX2apic : Except Fault Tip :=
  if X2apic.enabled t p then do
    let tip ← tip.checkAndAdd (X2apic.domain t p)
    tip.addCpu (X2apic.domain t p) (lapic.lookup (X2apic.apicId t p))
  else .ok tip

/-- The loop over the entries, from `p` on. -/
def parseType (type : Nat) (handler : Nat → Tip → Except Fault Tip) : Nat → Nat → Tip → Except Fault Tip
  | 0, _, _ => .error .endless
  | fuel + 1, p, tip =>
    if p < t.length then do
      let tip ← if t.type p = type then handler p tip else .ok tip
      parseType type handler fuel (p + t.size p) tip
    else .ok tip

def parse (fuel : Nat) : Except Fault Tip := do
  let tip ← t.parseType typeLapic (fun p => t.parseLapic p lapic) fuel first .zeroed
  let tip ← t.parseType typeMas (fun p => t.parseMemory p) fuel first tip
  t.parseType typeX2apic (fun p => t.parseX2apic p lapic) fuel first tip

end Parse

end Table

end Tukija.Topo
