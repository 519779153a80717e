import Tukija.Lib.Word

/-! The control registers of a vCPU.  A value is kept in the register of the guest, in a
read shadow and in the software's own copy, split by masks that depend on what is on. -/
namespace Tukija.Vcpu

open Tukija.Lib.Word

def cr0Pe : Mword := 0x1
def cr0Ts : Mword := 0x8
def cr0Wp : Mword := 0x10000
def cr0Pg : Mword := 0x80000000
def cr4Pse : Mword := 0x10
def cr4Pae : Mword := 0x20
def cr4Pge : Mword := 0x80
def eferLme : Mword := 0x100
def eferLma : Mword := 0x400

/-- `~Cpu::CR0_PE` is an `unsigned`. -/
def notCr0Pe : Mword := 0xfffffffe

/-- What the guest runs on, in the VMCS or the VMCB; with VMX, CR2 is in `Cpu_regs`. -/
structure GuestCr where
  cr0 : Mword
  cr2 : Mword
  cr3 : Mword
  cr4 : Mword
  efer : Mword

/-- `Cpu_regs`, with `H` for what else there is in the VMCS or the VMCB, and the
calls of `tlb_flush` so far. -/
structure Regs (H : Type) where
  guest : GuestCr
  cr0Shadow : Mword
  cr3Shadow : Mword
  cr4Shadow : Mword
  nstOn : Bool
  fpuOn : Bool
  excBmp : BitVec 32
  vtlb : Mword
  flushes : List Bool
  hw : H

/-- The `T` of the templates. -/
structure Virt (H : Type) where
  fixCr0Set : Mword
  fixCr0Clr : Mword
  fixCr4Set : Mword
  fixCr4Clr : Mword
  hasNst : Bool
  hasUrg : Bool
  setReadShadow0 : Mword → H → H
  setReadShadow4 : Mword → H → H
  setEntry : Bool → H → H
  nstControls : Bool → Mword → Mword → H → H
  fpuControls : Bool → Mword → Mword → H → H

inductive Cr where
  | cr0
  | cr2
  | cr3
  | cr4
  deriving DecidableEq, Repr

namespace Regs

variable {H : Type} (T : Virt H) (r : Regs H)

def cr0Set : Mword :=
  T.fixCr0Set ||| ((if r.nstOn then 0 else cr0Pg ||| cr0Wp ||| cr0Pe) ||| if r.fpuOn then 0 else cr0Ts)

def cr0Msk : Mword := T.fixCr0Clr ||| r.cr0Set T

def cr4Set : Mword := T.fixCr4Set ||| if r.nstOn then 0 else cr4Pse ||| cr4Pae

def cr4Msk : Mword := T.fixCr4Clr ||| (if r.nstOn then 0 else cr4Pge) ||| r.cr4Set T

def getCr0 : Mword := (r.guest.cr0 &&& ~~~r.cr0Msk T) ||| (r.cr0Shadow &&& r.cr0Msk T)

def getCr3 : Mword := if r.nstOn then r.guest.cr3 else r.cr3Shadow

def getCr4 : Mword := (r.guest.cr4 &&& ~~~r.cr4Msk T) ||| (r.cr4Shadow &&& r.cr4Msk T)

def setCr0 (v : Mword) : Regs H :=
  { r with
    guest := { r.guest with cr0 := (v &&& (~~~r.cr0Msk T ||| cr0Pe)) ||| (r.cr0Set T &&& notCr0Pe) }
    cr0Shadow := v
    hw := T.setReadShadow0 v r.hw }

def setCr2 (v : Mword) : Regs H := { r with guest := { r.guest with cr2 := v } }

def setCr3 (v : Mword) : Regs H :=
  if r.nstOn then { r with guest := { r.guest with cr3 := v } } else { r with cr3Shadow := v }

def setCr4 (v : Mword) : Regs H :=
  { r with
    guest := { r.guest with cr4 := (v &&& ~~~r.cr4Msk T) ||| r.cr4Set T }
    cr4Shadow := v
    hw := T.setReadShadow4 v r.hw }

def setExc : Regs H :=
  { r with excBmp := 0x20000 ||| (if r.nstOn then 0 else 0x4000) ||| if r.fpuOn then 0 else 0x80 }

def nstCtrl (on : Bool) : Regs H :=
  let cr0 := r.getCr0 T
  let cr3 := r.getCr3
  let cr4 := r.getCr4 T
  let r := { r with nstOn := T.hasNst && on }
  let r := ((r.setCr0 T cr0).setCr3 cr3).setCr4 T cr4
  let r := { r with hw := T.nstControls r.nstOn (r.cr0Msk T) (r.cr4Msk T) r.hw }.setExc
  if r.nstOn then r else { r with guest := { r.guest with cr3 := r.vtlb } }

def fpuCtrl (on : Bool) : Regs H :=
  let cr0 := r.getCr0 T
  let r := { r with fpuOn := on }
  let r := (r.setCr0 T cr0).setExc
  { r with hw := T.fpuControls r.nstOn (r.cr0Msk T) (r.cr4Msk T) r.hw }

def tlbFlush (full : Bool) : Regs H := { r with flushes := full :: r.flushes }

def writeEfer (v : Mword) : Regs H :=
  { r with guest := { r.guest with efer := v }, hw := T.setEntry (v &&& eferLma != 0) r.hw }

def readCr : Cr → Mword
  | .cr0 => r.getCr0 T
  | .cr2 => r.guest.cr2
  | .cr3 => r.getCr3
  | .cr4 => r.getCr4 T

def writeCr (v : Mword) : Cr → Regs H
  | .cr2 => r.setCr2 v
  | .cr3 =>
    let r := if r.nstOn then r else r.tlbFlush false
    r.setCr3 v
  | .cr0 =>
    let toggled := r.getCr0 T ^^^ v
    let r := if !r.nstOn && toggled &&& (cr0Pg ||| cr0Wp ||| cr0Pe) != 0 then r.tlbFlush true else r
    let r := r.setCr0 T v
    if toggled &&& cr0Pg != 0 then
      let r := if T.hasUrg then r else r.nstCtrl T (v &&& cr0Pg != 0)
      let efer := r.guest.efer
      if v &&& cr0Pg != 0 && efer &&& eferLme != 0 then r.writeEfer T (efer ||| eferLma)
      else r.writeEfer T (efer &&& ~~~eferLma)
    else r
  | .cr4 =>
    let toggled := r.getCr4 T ^^^ v
    let r := if !r.nstOn && toggled &&& (cr4Pge ||| cr4Pae ||| cr4Pse) != 0 then r.tlbFlush true else r
    r.setCr4 T v

end Regs

/-- The settings of a control word that the CPU demands and those that it permits. -/
structure Ctrl where
  set : BitVec 32
  clr : BitVec 32

/-- What `Vmcs::init` finds out. -/
structure VmxCaps where
  fixCr0Set : Mword
  fixCr0Clr : Mword
  fixCr4Set : Mword
  fixCr4Clr : Mword
  ctrlCpu0 : Ctrl
  ctrlCpu1 : Ctrl

structure Vmcs where
  cr0ReadShadow : Mword
  cr4ReadShadow : Mword
  cr0Mask : Mword
  cr4Mask : Mword
  cpuExecCtrl0 : BitVec 32
  cpuExecCtrl1 : BitVec 32
  entControls : BitVec 32

namespace Vmcs

def cpuIntrWindow : BitVec 32 := 0x4
def cpuInvlpg : BitVec 32 := 0x200
def cpuCr3Load : BitVec 32 := 0x8000
def cpuCr3Store : BitVec 32 := 0x10000
def cpuNmiWindow : BitVec 32 := 0x400000
def cpuEpt : BitVec 32 := 0x2
def cpuVpid : BitVec 32 := 0x20
def cpuUrg : BitVec 32 := 0x80
def entGuest64 : BitVec 32 := 0x200

/-- `vmx_set_cpu_ctrl0`. -/
def setCpuCtrl0 (c : VmxCaps) (nstOn : Bool) (val : BitVec 32) (h : Vmcs) : Vmcs :=
  let msk := cpuInvlpg ||| cpuCr3Load ||| cpuCr3Store
  let val := if nstOn then val &&& ~~~msk else val ||| msk
  { h with cpuExecCtrl0 := (val ||| c.ctrlCpu0.set) &&& c.ctrlCpu0.clr }

/-- `vmx_set_cpu_ctrl1`. -/
def setCpuCtrl1 (c : VmxCaps) (nstOn : Bool) (val : BitVec 32) (h : Vmcs) : Vmcs :=
  let val := if nstOn then val ||| cpuEpt else val &&& ~~~cpuEpt
  { h with cpuExecCtrl1 := (val ||| c.ctrlCpu1.set) &&& c.ctrlCpu1.clr }

end Vmcs

def vmx (c : VmxCaps) : Virt Vmcs where
  fixCr0Set := c.fixCr0Set
  fixCr0Clr := c.fixCr0Clr
  fixCr4Set := c.fixCr4Set
  fixCr4Clr := c.fixCr4Clr
  hasNst := c.ctrlCpu1.clr &&& Vmcs.cpuEpt != 0
  hasUrg := c.ctrlCpu1.clr &&& Vmcs.cpuUrg != 0
  setReadShadow0 v h := { h with cr0ReadShadow := v }
  setReadShadow4 v h := { h with cr4ReadShadow := v }
  setEntry lma h :=
    { h with entControls := if lma then h.entControls ||| Vmcs.entGuest64 else h.entControls &&& ~~~Vmcs.entGuest64 }
  nstControls nstOn msk0 msk4 h :=
    let h := h.setCpuCtrl0 c nstOn h.cpuExecCtrl0
    let h := h.setCpuCtrl1 c nstOn h.cpuExecCtrl1
    { h with cr0Mask := msk0, cr4Mask := msk4 }
  fpuControls _ msk0 _ h := { h with cr0Mask := msk0 }

structure Vmcb where
  interceptCr : BitVec 32
  interceptCpu0 : BitVec 32
  interceptCpu1 : BitVec 32
  nptControl : Bool
  intControl : Mword
  injControl : Mword

namespace Vmcb

def cpuVintr : BitVec 32 := 0x10
def cpuInvlpg : BitVec 32 := 0x2000000

/-- `CPU_INTR`, `CPU_NMI`, `CPU_INIT`, `CPU_INVD`, `CPU_HLT`, `CPU_IO`, `CPU_MSR` and `CPU_SHUTDOWN`. -/
def forceCtrl0 : BitVec 32 :=
  0x1 ||| 0x2 ||| 0x8 ||| 0x400000 ||| 0x1000000 ||| 0x8000000 ||| 0x10000000 ||| 0x80000000

/-- `CPU_VMLOAD`, `CPU_VMSAVE`, `CPU_CLGI` and `CPU_SKINIT`. -/
def forceCtrl1 : BitVec 32 := 0x4 ||| 0x8 ||| 0x20 ||| 0x40

/-- `svm_set_cpu_ctrl0`. -/
def setCpuCtrl0 (nstOn : Bool) (msk0 msk4 : Mword) (val : BitVec 32) (h : Vmcb) : Vmcb :=
  let msk : BitVec 32 :=
    (if msk0 = 0 then 0 else 0x1) ||| (if nstOn then 0 else 0x8) ||| if msk4 = 0 then 0 else 0x10
  { h with
    nptControl := nstOn
    interceptCr := msk <<< 16 ||| msk
    interceptCpu0 := if nstOn then val &&& ~~~cpuInvlpg ||| forceCtrl0 else val ||| cpuInvlpg ||| forceCtrl0 }

/-- `svm_set_cpu_ctrl1`. -/
def setCpuCtrl1 (val : BitVec 32) (h : Vmcb) : Vmcb := { h with interceptCpu1 := val ||| forceCtrl1 }

end Vmcb

def svm (npt : Bool) : Virt Vmcb where
  fixCr0Set := 0
  fixCr0Clr := 0
  fixCr4Set := 0
  fixCr4Clr := 0
  hasNst := npt
  hasUrg := true
  setReadShadow0 _ h := h
  setReadShadow4 _ h := h
  setEntry _ h := h
  nstControls nstOn msk0 msk4 h :=
    let h := h.setCpuCtrl0 nstOn msk0 msk4 h.interceptCpu0
    h.setCpuCtrl1 h.interceptCpu1
  fpuControls nstOn msk0 msk4 h := h.setCpuCtrl0 nstOn msk0 msk4 h.interceptCpu0

/-- What `Ec::Ec` does for a vCPU. -/
def Regs.create {H : Type} (T : Virt H) (fpuLazy : Bool) (r : Regs H) : Regs H :=
  { r with fpuOn := !fpuLazy }.nstCtrl T T.hasUrg

end Tukija.Vcpu
