import Tukija.Lib.Walk
import Tukija.Topo.Srat

/-! The tables of the firmware and of the boot loader, and the loops over their
entries.  Every access to an entry is checked against the declared length. -/
namespace Tukija.Boot

open Tukija.Lib.Walk

/-- An access outside of the declared length, or no end of a loop in sight. -/
inductive Fault where
  | outside
  | endless
  deriving DecidableEq, Repr

def spcLocalRemap : Nat := 2 ^ 64 - 0x20000000 - 0x1000000

/-- Memory from where `Hpt::remap` has put the first byte of a table. -/
structure Area where
  byte : Nat → UInt8
  base : Nat
  le_base : spcLocalRemap ≤ base
  base_lt : base < spcLocalRemap + 2 ^ 21

namespace Area

variable (a : Area) {σ : Type}

def field (p n : Nat) : Nat := Topo.Table.field ⟨a.byte, 0⟩ p n

def before (p q : Nat) : Bool := (a.base + p) % 2 ^ 64 < (a.base + q) % 2 ^ 64

/-- `n` bytes at `p`, of a table of `length` bytes. -/
def read (length p n : Nat) : Except Fault Unit := if p + n ≤ length then .ok () else .error .outside

def length : Nat := a.field 4 4

def goodChecksum : Bool :=
  !a.before 0 a.length || ((List.range a.length).map fun p => (a.byte p).toNat).sum % 2 ^ 8 = 0

/-- Entries up to `stop` that begin with bytes for type and length. -/
def path (stop : Nat) : Path where
  more p := a.before p stop
  last _ := false
  size p := a.field (p + 1) 1

def entries (stop : Nat) (visit : Nat → σ → Except Fault σ) : Walker σ Fault where
  toPath := a.path stop
  head p := do
    read a.length p 1
    read a.length (p + 1) 1
  visit := visit

/-- `parse`, for the entries of one type. -/
def parseType (first type : Nat) (handler : Nat → σ → Except Fault σ) (fuel : Nat) (s : σ) : Except Fault σ :=
  (a.entries a.length fun p s => if a.field p 1 = type then handler p s else .ok s).run .endless fuel first s

end Area

/-! ## Affinity -/
namespace Area

variable (a : Area)

def srat : Topo.Table := ⟨a.byte, a.length⟩

def sratLapic (p : Nat) (_ : Unit) : Except Fault Unit := do
  read a.length (p + 4) 4
  if Topo.Table.Lapic.enabled a.srat p then
    read a.length (p + 2) 1
    read a.length (p + 9) 3
    read a.length (p + 3) 1

def sratMemory (p : Nat) (_ : Unit) : Except Fault Unit := do
  read a.length (p + 28) 4
  if Topo.Table.Memory.enabled a.srat p then
    read a.length (p + 8) 8
    read a.length (p + 16) 8
    read a.length (p + 2) 4

def sratX2apic (p : Nat) (_ : Unit) : Except Fault Unit := do
  read a.length (p + 4) 4
  read a.length (p + 12) 4
  if Topo.Table.X2apic.enabled a.srat p then
    read a.length (p + 8) 4

/-- `Acpi_table_srat::parse`. -/
def parseSrat (fuel : Nat) : Except Fault Unit := do
  a.parseType Topo.Table.first Topo.Table.typeLapic a.sratLapic fuel ()
  a.parseType Topo.Table.first Topo.Table.typeMas a.sratMemory fuel ()
  a.parseType Topo.Table.first Topo.Table.typeX2apic a.sratX2apic fuel ()

end Area

/-! ## Interrupt controllers -/

/-- `NUM_CPU`, `NUM_GSI` and `NUM_IRQ`. -/
def numCpu : Nat := 256
def numGsi : Nat := 192
def numIrq : Nat := 16

/-- `Acpi_apic::Type`. -/
def typeLapic : Nat := 0
def typeIoapic : Nat := 1
def typeIntr : Nat := 2
def typeX2apic : Nat := 9

namespace Area

variable (a : Area) (p online : Nat)

def madtFirst : Nat := 44

def lapicEnabled : Bool := (a.field (p + 4) 4).testBit 0

def x2apicEnabled : Bool := (a.field (p + 8) 4).testBit 0

/-- The handlers pass on `Cpu::online`. -/
def madtLapic : Except Fault Nat := do
  read a.length (p + 4) 4
  if a.lapicEnabled p && online < numCpu then
    read a.length (p + 3) 1
    read a.length (p + 2) 1
    return online + 1
  else return online

def madtX2apic : Except Fault Nat := do
  read a.length (p + 8) 4
  if a.x2apicEnabled p && online < numCpu then
    read a.length (p + 4) 4
    read a.length (p + 12) 4
    return online + 1
  else return online

def madtIoapic : Except Fault Nat := do
  read a.length (p + 4) 4
  read a.length (p + 2) 1
  read a.length (p + 8) 4
  return online

def intrUnknown : Bool := numGsi ≤ a.field (p + 4) 4 || numIrq ≤ a.field (p + 3) 1

def intrBus : Bool := a.field (p + 2) 1 ≠ 0

def madtIntr : Except Fault Nat := do
  read a.length (p + 3) 1
  read a.length (p + 4) 4
  if a.intrUnknown p then return online
  read a.length (p + 2) 1
  if a.intrBus p then return online
  read a.length (p + 8) 2
  return online

/-- `Acpi_table_madt::parse`, with what becomes of `Cpu::online`. -/
def parseMadt (fuel : Nat) : Except Fault Nat := do
  let online ← a.parseType madtFirst typeLapic a.madtLapic fuel 0
  let online ← a.parseType madtFirst typeX2apic a.madtX2apic fuel online
  let online ← a.parseType madtFirst typeIoapic a.madtIoapic fuel online
  a.parseType madtFirst typeIntr a.madtIntr fuel online

end Area

/-! ## Units for remapping -/

/-- The loop of a reserved region over its pages, up to `limit`. -/
def pages (limit : Nat) : Nat → Nat → Except Fault Unit
  | 0, _ => .error .endless
  | fuel + 1, hpa => if hpa < limit then pages limit fuel ((hpa + 2 ^ 12) % 2 ^ 64) else .ok ()

namespace Area

/-- `Acpi_remap::Type`. -/
def typeDmar : Nat := 0
def typeRmrr : Nat := 1

variable (a : Area) (fuel r : Nat)

def dmarFirst : Nat := 48

/-- `Acpi_remap::length`. -/
def remapLength : Nat := a.field (r + 2) 2

/-- The loop over the scopes of a unit; `reads` of them are for a device. -/
def parseScopes (reads : Nat → Except Fault Unit) (first : Nat) : Except Fault Unit :=
  (a.entries (r + a.remapLength r) fun s _ => reads s).run .endless fuel first ()

/-- `s->rid()`. -/
def readRid (s : Nat) : Except Fault Unit := read a.length (s + 5) 3

def dmarScope (s : Nat) : Except Fault Unit :=
  if a.field s 1 = 1 ∨ a.field s 1 = 2 then a.readRid s
  else if a.field s 1 = 3 ∨ a.field s 1 = 4 then do
    a.readRid s
    read a.length (s + 4) 1
  else .ok ()

def rmrrScope (s : Nat) : Except Fault Unit := if a.field s 1 = 1 then a.readRid s else .ok ()

/-- `Acpi_dmar::parse`; it is the hardware at an address that can be invalid. -/
def parseUnit (invalid : Nat → Bool) : Except Fault Unit := do
  read a.length (r + 8) 8
  if invalid (a.field (r + 8) 8) then return
  read a.length (r + 4) 1
  a.parseScopes fuel r a.dmarScope (r + 16)

/-- `Acpi_rmrr::parse`. -/
def parseReserved : Except Fault Unit := do
  read a.length (r + 8) 8
  read a.length (r + 16) 8
  pages (a.field (r + 16) 8) fuel (a.field (r + 8) 8 / 2 ^ 12 * 2 ^ 12)
  a.parseScopes fuel r a.rmrrScope (r + 24)

def parseRemap (invalid : Nat → Bool) : Except Fault Unit :=
  if a.field r 2 = typeDmar then a.parseUnit fuel r invalid
  else if a.field r 2 = typeRmrr then a.parseReserved fuel r
  else .ok ()

def remapPath : Path where
  more r := a.before r a.length
  last _ := false
  size r := a.remapLength r

def remaps (invalid : Nat → Bool) : Walker Unit Fault where
  toPath := a.remapPath
  head r := do
    read a.length r 2
    read a.length (r + 2) 2
  visit r _ := a.parseRemap fuel r invalid

/-- `Acpi_table_dmar::parse`. -/
def parseDmar (iommuIntel : Bool) (invalid : Nat → Bool) : Except Fault Unit :=
  if iommuIntel then (a.remaps fuel invalid).run .endless fuel dmarFirst () else .ok ()

end Area

/-! ## Tags of the boot loader -/
namespace Area

variable (a : Area) {σ : Type} (i : Nat)

def totalSize : Nat := a.field 0 4

def tagType : Nat := a.field i 4

def tagSize : Nat := a.field (i + 4) 4

/-- `align_up`, to the size of a tag's header. -/
def alignUp (val : Nat) : Nat := (val + 7) % 2 ^ 64 / 8 * 8

/-- `TAG_END`, of the size of a header. -/
def tagEnd : Bool := a.tagType i = 0 && a.tagSize i = 8

def tagPath : Path where
  more i := a.before i a.totalSize
  last i := a.tagEnd i
  size i := alignUp (a.tagSize i)

def forEachTag (fn : Nat → σ → Except Fault σ) : Walker σ Fault where
  toPath := a.tagPath
  head i := do
    read a.totalSize i 4
    read a.totalSize (i + 4) 4
  visit := fn

def firstTag : Nat := 8

end Area

end Tukija.Boot
