import Mathlib.Algebra.Group.Nat.Defs
import Mathlib.Logic.Function.Basic
import Mathlib.Data.List.Basic
import Tukija.Lib.Masks

/-! The device entries of a remapping unit (IVHD): the tables that they fill, and
the walk over them. -/
namespace Tukija.Iommu

open Tukija.Lib.Masks

/-- `Iommu::Dte`, with the words that are written here. -/
@[ext]
structure Dte where
  x0 : BitVec 64
  x1 : BitVec 64
  x2 : BitVec 64
  deriving DecidableEq

namespace Dte

variable (dev : Dte)

def zero : Dte := ⟨0, 0, 0⟩

/-- `p_mask`: bits 12 to 51. -/
def pMask : BitVec 64 := ~~~0xfff#64 &&& (1#64 <<< 52 - 1#64)

def hptrp : BitVec 64 := dev.x0 &&& pMask

def setHptrp (paddr : BitVec 64) : Dte := { dev with x0 := merge pMask dev.x0 paddr }

def enable : Dte := { dev with x0 := dev.x0 ||| 1 }

def iv : Dte := { dev with x2 := dev.x2 ||| 1 }

def settings (setting : BitVec 8) : Dte :=
  let bit (m : BitVec 8) (i : Nat) : BitVec 64 := if setting &&& m ≠ 0 then 1#64 <<< i else 0
  { dev with
    x1 := dev.x1 ||| bit 0x10 40 ||| bit 0x20 41
    x2 := dev.x2 ||| bit 0x1 56 ||| bit 0x2 57 ||| bit 0x4 58 ||| bit 0x40 62 ||| bit 0x80 63 }

/-- What `alloc_dtb` does for one id. -/
def setup (setting : BitVec 8) : Dte := (dev.enable.iv).settings setting

/-- `alias` keeps the other id as a hint in the place of the page table. -/
def hint (rid : Nat) : BitVec 64 := BitVec.ofNat 64 rid <<< 12

def setAlias (rid : Nat) : Dte := (dev.setHptrp (hint rid)).enable

end Dte

/-- `Pci`, `Ioapic` and `Hpet`; the units for remapping are numbered. -/
structure Pci where
  rid : Nat
  iommu : Option Nat
  deriving DecidableEq

structure Ioapic where
  id : Nat
  rid : Nat
  iommu : Option Nat
  deriving DecidableEq

structure Hpet where
  id : Nat
  rid : Nat
  deriving DecidableEq

/-- The device table, once there is one, and the lists of devices. -/
structure Tables where
  dtb : Option (Nat → Dte)
  pci : List Pci
  ioapics : List Ioapic
  hpets : List Hpet

/-- `fn` on the first one with `p`. -/
def onFirst {α : Type} (p : α → Bool) (fn : α → α) : List α → List α
  | [] => []
  | x :: l => if p x then fn x :: l else x :: onFirst p fn l

namespace Tables

variable (room : Bool) (me : Nat) (t : Tables)

/-- The device table that `alloc_dtb` works on: a new one has all entries 0, if
there is `room` for it. -/
def table : Option (Nat → Dte) := t.dtb <|> if room then some fun _ => .zero else none

/-- The loop of `alloc_dtb`.  Its order is not used, there is one table for all ids. -/
def setupRange (ridS ridE : Nat) (setting : BitVec 8) (dtb : Nat → Dte) : Nat → Dte :=
  (List.range' ridS (ridE + 1 - ridS)).foldl (fun dtb rid => Function.update dtb rid ((dtb rid).setup setting)) dtb

def allocDtb (ridS ridE : Nat) (setting : BitVec 8) : Tables :=
  { t with dtb := (t.table room).map (setupRange ridS ridE setting) }

def claimDevSingle (r : Nat) : Tables :=
  { t with pci := onFirst (·.rid = r) (fun pci => { pci with iommu := some me }) t.pci }

def claimAll : Tables :=
  { t with pci := t.pci.map fun pci => if pci.iommu.isNone then { pci with iommu := some me } else pci }

/-- `Ioapic::claim_dev`. -/
def claimIoapic (r i : Nat) : Tables :=
  { t with
    ioapics := onFirst (fun x => x.rid = 0 && x.id = i) (fun x => { x with rid := r, iommu := some me }) t.ioapics }

/-- `Hpet::claim_dev`. -/
def claimHpet (r i : Nat) : Tables :=
  { t with hpets := onFirst (fun x => x.rid = 0 && x.id = i) (fun x => { x with rid := r }) t.hpets }

/-- `Amd::alias`, if there is a device table. -/
def setAlias (r rid : Nat) : Tables :=
  { t with dtb := t.dtb.map fun dtb => Function.update dtb r ((dtb r).setAlias rid) }

end Tables

/-- `Acpi_device_entry`. -/
structure Entry where
  type : Nat
  devid : BitVec 16
  setting : BitVec 8
  handle : Nat
  pdevid : BitVec 16
  variety : Nat
  deriving DecidableEq

/-- `Acpi_device_entry::Dte`. -/
def dteAll : Nat := 0x01
def dteOne : Nat := 0x02
def dteStart : Nat := 0x03
def dteEnd : Nat := 0x04
def dteAliasOne : Nat := 0x42
def dteAliasStart : Nat := 0x43
def dteExtOne : Nat := 0x46
def dteExtStart : Nat := 0x47
def dteSpecial : Nat := 0x48

/-- The variables of `parse`, with the tables. -/
structure State where
  rid : Nat
  ridEff : Nat
  setting : BitVec 8
  tables : Tables

section Parse

variable (room : Bool) (me : Nat)

def State.init (t : Tables) : State := ⟨2 ^ 32 - 1, 2 ^ 16, 0, t⟩

/-- `DTE_ONE` and `DTE_EXT_ONE`. -/
def Tables.one (e : Entry) (t : Tables) : Tables :=
  (t.allocDtb room e.devid.toNat e.devid.toNat e.setting).claimDevSingle me e.devid.toNat

def Tables.aliasOne (e : Entry) (t : Tables) : Tables := (t.one room me e).setAlias e.devid.toNat e.pdevid.toNat

def Tables.special (e : Entry) (t : Tables) : Tables :=
  let t := if e.variety = 1 then
      (t.allocDtb room e.pdevid.toNat e.pdevid.toNat e.setting).claimIoapic me e.pdevid.toNat e.handle
    else t
  if e.variety = 2 then (t.allocDtb room e.pdevid.toNat e.pdevid.toNat e.setting).claimHpet e.pdevid.toNat e.handle
  else t

/-- The loop of `DTE_END`. -/
def State.closeRange (s : State) (devid : Nat) (t : Tables) : Tables :=
  (List.range' s.rid (devid - s.rid)).foldl (fun t r =>
    let t := t.claimDevSingle me r
    if s.ridEff < 2 ^ 16 then t.setAlias s.rid s.ridEff else t) t

def State.close (s : State) (devid : Nat) : State :=
  if devid < s.rid then s
  else if 2 ^ 16 ≤ s.rid then s
  else .init (s.closeRange me devid (s.tables.allocDtb room s.rid devid s.setting))

/-- The function that `parse` calls for each entry. -/
def State.entry (s : State) (e : Entry) : State :=
  if e.type = dteOne then { s with tables := s.tables.one room me e }
  else if e.type = dteAll then
    { s with tables := (s.tables.allocDtb room 0 (2 ^ 16 - 1) e.setting).claimAll me }
  else if e.type = dteStart then { s with rid := e.devid.toNat, ridEff := 2 ^ 16, setting := e.setting }
  else if e.type = dteEnd then s.close room me e.devid.toNat
  else if e.type = dteSpecial then { s with tables := s.tables.special room me e }
  else if e.type = dteAliasOne then { s with tables := s.tables.aliasOne room me e }
  else if e.type = dteExtOne then { s with tables := s.tables.one room me e }
  else if e.type = dteExtStart then { s with rid := e.devid.toNat, setting := e.setting }
  else if e.type = dteAliasStart then
    { s with rid := e.devid.toNat, ridEff := e.pdevid.toNat, setting := e.setting }
  else s

/-- `for_each_entry`: the length of a type from 128 on is not known, and it is the last one. -/
def State.forEachEntry (s : State) : List Entry → State
  | [] => s
  | e :: es => if 128 ≤ e.type then s.entry room me e else (s.entry room me e).forEachEntry es

end Parse

end Tukija.Iommu
