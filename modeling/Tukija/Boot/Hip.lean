import Mathlib.Data.BitVec
import Mathlib.Data.Finset.Card
import Mathlib.Tactic.Abel

/-! The hypervisor information page (HIP): what is written to it while the system
boots, and its checksum. -/
namespace Tukija.Boot.Info

def words32 (x : BitVec 32) : List (BitVec 16) := [x.extractLsb' 0 16, x.extractLsb' 16 16]

def words64 (x : BitVec 64) : List (BitVec 16) :=
  [x.extractLsb' 0 16, x.extractLsb' 16 16, x.extractLsb' 32 16, x.extractLsb' 48 16]

structure HipCpu where
  flags : BitVec 8
  thread : BitVec 8
  core : BitVec 8
  package : BitVec 8
  acpiId : BitVec 8
  family : BitVec 8
  model : BitVec 8
  stepping : BitVec 4
  platform : BitVec 3
  reserved : BitVec 1
  patch : BitVec 32

def HipCpu.zero : HipCpu := ⟨0, 0, 0, 0, 0, 0, 0, 0, 0, 0, 0⟩

def HipCpu.words (cpu : HipCpu) : List (BitVec 16) :=
  [cpu.thread ++ cpu.flags, cpu.package ++ cpu.core, cpu.family ++ cpu.acpiId,
    cpu.reserved ++ cpu.platform ++ cpu.stepping ++ cpu.model] ++ words32 cpu.patch

structure HipMem where
  addr : BitVec 64
  size : BitVec 64
  type : BitVec 32
  aux : BitVec 32

namespace HipMem

def zero : HipMem := ⟨0, 0, 0, 0⟩

def words (mem : HipMem) : List (BitVec 16) :=
  words64 mem.addr ++ words64 mem.size ++ words32 mem.type ++ words32 mem.aux

def acpiRsdt : BitVec 32 := -3
def acpiXsdt : BitVec 32 := -4
def hypLog : BitVec 32 := -6

end HipMem

def numCpu : Nat := 256

def pageHSize : Nat := 0x4000

/-- Where `cpu_desc` and `mem_desc` begin, and the sizes of their entries. -/
def cpuOffs : Nat := 72
def cpuSize : Nat := 12
def memOffs : Nat := cpuOffs + numCpu * cpuSize
def memSize : Nat := 24

/-- `class Hip`, with those of `mem_desc` that have been written. -/
structure Hip where
  signature : BitVec 32
  checksum : BitVec 16
  length : Nat
  cpuOffs : BitVec 16
  cpuSize : BitVec 16
  memOffs : BitVec 16
  memSize : BitVec 16
  apiFlg : BitVec 32
  apiVer : BitVec 32
  selNum : BitVec 32
  selExc : BitVec 32
  selVmi : BitVec 32
  selGsi : BitVec 32
  cfgPage : BitVec 32
  cfgUtcb : BitVec 32
  freqTsc : BitVec 32
  reserved : BitVec 32
  topoModel : BitVec 64
  topoPhys : BitVec 64
  cpuDesc : Nat → HipCpu
  memDesc : List HipMem

namespace Hip

def zero : Hip :=
  ⟨0, 0, 0, 0, 0, 0, 0, 0, 0, 0, 0, 0, 0, 0, 0, 0, 0, 0, 0, fun _ => .zero, []⟩

variable (hip : Hip)

def words : List (BitVec 16) :=
  words32 hip.signature ++ [hip.checksum, .ofNat 16 hip.length, hip.cpuOffs, hip.cpuSize, hip.memOffs, hip.memSize] ++
    words32 hip.apiFlg ++ words32 hip.apiVer ++ words32 hip.selNum ++ words32 hip.selExc ++ words32 hip.selVmi ++
    words32 hip.selGsi ++ words32 hip.cfgPage ++ words32 hip.cfgUtcb ++ words32 hip.freqTsc ++
    words32 hip.reserved ++ words64 hip.topoModel ++ words64 hip.topoPhys ++
    (List.range numCpu).flatMap (fun i => (hip.cpuDesc i).words) ++ hip.memDesc.flatMap HipMem.words

/-- The words that begin below `length`. -/
def covered : List (BitVec 16) := hip.words.take ((hip.length + 1) / 2)

/-! ## Writers -/

/-- `Hip_guard::Hip_guard`. -/
def guard : Hip := if hip.length = 0 then { hip with length := Info.memOffs } else hip

/-- `Hip_guard::with_mem_desc`: the next descriptor, which was 0 before. -/
def withMemDesc (fn : HipMem → HipMem) : Hip :=
  if pageHSize < hip.length + Info.memSize then hip
  else { hip with memDesc := hip.memDesc ++ [fn .zero], length := hip.length + Info.memSize }

/-- What `build` writes first: 0x41564f4e is the signature, bits 1 and 2 of the
flags are the features for virtual machines. -/
def header : Hip :=
  { hip with
    signature := 0x41564f4e
    cpuOffs := .ofNat 16 Info.cpuOffs
    cpuSize := .ofNat 16 Info.cpuSize
    memOffs := .ofNat 16 Info.memOffs
    memSize := .ofNat 16 Info.memSize
    apiFlg := 6
    apiVer := 10
    selNum := 1#32 <<< 26
    selGsi := 192
    selExc := 32
    selVmi := 256
    cfgPage := 0x1000
    cfgUtcb := 0x1000 }

def setFeature (f : BitVec 32) : Hip := { hip with apiFlg := hip.apiFlg ||| f }

def clrFeature (f : BitVec 32) : Hip := { hip with apiFlg := hip.apiFlg &&& ~~~f }

def addCpu (id : Nat) (cpu : HipCpu) : Hip := { hip.guard with cpuDesc := Function.update hip.guard.cpuDesc id cpu }

/-- A descriptor of `add_check`, if there is something to describe. -/
def describe (addr : BitVec 64) (fn : HipMem → HipMem) : Hip := if addr = 0 then hip else hip.withMemDesc fn

/-- `Hip::add_check`: the sum of all words, subtracted from 0. -/
def addCheck (rsdt xsdt pageL : BitVec 64) (freqTsc : BitVec 32) : Hip :=
  let hip := hip.guard
  let hip := hip.describe rsdt fun mem => { mem with addr := rsdt, size := 0, type := HipMem.acpiRsdt }
  let hip := hip.describe xsdt fun mem => { mem with addr := xsdt, size := 0, type := HipMem.acpiXsdt }
  let hip := hip.describe pageL fun _ => { addr := pageL, size := 0x1000, type := HipMem.hypLog, aux := 0 }
  let hip := { hip with freqTsc := freqTsc }
  { hip with checksum := hip.covered.foldl (fun c w => c - w) 0 }

/-- `USER_ADDR - PAGE_H_SIZE - PAGE_T_SIZE - PAGE_SIZE`. -/
def tipAddr : BitVec 64 := 0x00007fffc0000000 - 0x4000 - 0x20000 - 0x1000

def tipVirt (virt : BitVec 64) : Hip := { hip with topoModel := virt }

end Hip

/-! ## The boot -/

/-- What the CPUs write on their way to the barrier: the header and the address of
the topology pages, descriptors (of memory, modules, the frame buffer, the
hypervisor and its pools), features, and what is known about a CPU. -/
inductive Write where
  | header
  | topoPhys (phys : BitVec 64)
  | memDesc (fn : HipMem → HipMem)
  | setFeature (f : BitVec 32)
  | clrFeature (f : BitVec 32)
  | addCpu (id : Nat) (cpu : HipCpu)

def Write.apply : Write → Hip → Hip
  | header, hip => hip.guard.header
  | topoPhys phys, hip => { hip.guard with topoPhys := phys }
  | memDesc fn, hip => hip.guard.withMemDesc fn
  | setFeature f, hip => hip.setFeature f
  | clrFeature f, hip => hip.clrFeature f
  | addCpu id cpu, hip => hip.addCpu id cpu

inductive Phase where
  | booting
  | checked
  | started
  deriving DecidableEq

structure State where
  hip : Hip
  /-- The CPUs that have been counted at the barrier. -/
  arrived : Finset Nat
  phase : Phase

def State.init : State := ⟨.zero, ∅, .booting⟩

inductive Event where
  | write (cpu : Nat) (w : Write)
  | arrive (cpu : Nat)
  | check (rsdt xsdt pageL : BitVec 64) (freqTsc : BitVec 32)
  | rootInvoke

/-- A step of one of the `online` CPUs.  The boot CPU checks the page once all are
at the barrier, where no other one writes to it any more; then the root task is
started. -/
def step (online : Nat) (s : State) : Event → Option State
  | .write cpu w =>
    if cpu < online ∧ cpu ∉ s.arrived then some { s with hip := w.apply s.hip } else none
  | .arrive cpu =>
    if cpu < online ∧ cpu ∉ s.arrived then some { s with arrived := insert cpu s.arrived } else none
  | .check rsdt xsdt pageL freqTsc =>
    if s.arrived.card = online ∧ s.phase = .booting then
      some { s with hip := s.hip.addCheck rsdt xsdt pageL freqTsc, phase := .checked }
    else none
  | .rootInvoke =>
    if s.phase = .checked then some { s with hip := s.hip.tipVirt Hip.tipAddr, phase := .started } else none

def run (online : Nat) (s : State) : List Event → Option State
  | [] => some s
  | e :: es => (step online s e).bind fun s => run online s es

end Tukija.Boot.Info
