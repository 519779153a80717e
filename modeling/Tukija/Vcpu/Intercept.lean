import Tukija.Lib.Masks
import Tukija.Vcpu.Shadow

/-! The intercepts that the host needs are on whatever is written from a UTCB. -/
namespace Tukija.Vcpu

open Tukija.Lib.Word Tukija.Lib.Masks

def mtdCr : Mword := 0x1000
def mtdCtrl : Mword := 0x10000
def mtdInj : Mword := 0x20000
def mtdEfer : Mword := 0x100000

structure Utcb where
  mtd : Mword
  inj : Mword
  ctrl0 : BitVec 32
  ctrl1 : BitVec 32
  cr0 : Mword
  cr2 : Mword
  cr3 : Mword
  cr4 : Mword
  efer : Mword

def Utcb.intrInfo (u : Utcb) : BitVec 32 := u.inj.setWidth 32

/-- What `save_vmx` and `save_svm` do with the control registers. -/
def Regs.saveCr {H : Type} (T : Virt H) (u : Utcb) (r : Regs H) : Regs H :=
  if u.mtd &&& mtdCr != 0 then
    (((r.writeCr T u.cr0 .cr0).writeCr T u.cr2 .cr2).writeCr T u.cr3 .cr3).writeCr T u.cr4 .cr4
  else r

def Regs.saveEfer {H : Type} (T : Virt H) (u : Utcb) (r : Regs H) : Regs H :=
  if u.mtd &&& mtdEfer != 0 then r.writeEfer T u.efer else r

def Regs.saveVmx (c : VmxCaps) (u : Utcb) (r : Regs Vmcs) : Regs Vmcs :=
  let r := r.saveCr (vmx c) u
  let r :=
    if u.mtd &&& mtdCtrl != 0 then
      { r with hw := (r.hw.setCpuCtrl0 c r.nstOn u.ctrl0).setCpuCtrl1 c r.nstOn u.ctrl1 }
    else r
  let r :=
    if u.mtd &&& mtdInj != 0 then
      let val := r.hw.cpuExecCtrl0
      let val := if u.intrInfo &&& 0x1000 != 0 then val ||| Vmcs.cpuIntrWindow else val &&& ~~~Vmcs.cpuIntrWindow
      let val := if u.intrInfo &&& 0x2000 != 0 then val ||| Vmcs.cpuNmiWindow else val &&& ~~~Vmcs.cpuNmiWindow
      { r with hw := r.hw.setCpuCtrl0 c r.nstOn val }
    else r
  r.saveEfer (vmx c) u

def Regs.saveSvm (npt : Bool) (u : Utcb) (r : Regs Vmcb) : Regs Vmcb :=
  let r := r.saveCr (svm npt) u
  let r :=
    if u.mtd &&& mtdCtrl != 0 then
      let hw := r.hw.setCpuCtrl0 r.nstOn (r.cr0Msk (svm npt)) (r.cr4Msk (svm npt)) u.ctrl0
      { r with hw := hw.setCpuCtrl1 u.ctrl1 }
    else r
  let r :=
    if u.mtd &&& mtdInj != 0 then
      let hw :=
        if u.intrInfo &&& 0x1000 != 0 then
          { r.hw with
            intControl := r.hw.intControl ||| 0x100100
            interceptCpu0 := r.hw.interceptCpu0 ||| Vmcb.cpuVintr }
        else
          { r.hw with
            intControl := r.hw.intControl &&& ~~~0x100100
            interceptCpu0 := r.hw.interceptCpu0 &&& ~~~Vmcb.cpuVintr }
      { r with hw := { hw with injControl := u.inj &&& ~~~0x3000 } }
    else r
  r.saveEfer (svm npt) u

inductive Act where
  | op (o : Op)
  | save (u : Utcb)

def Regs.actVmx (c : VmxCaps) (r : Regs Vmcs) : Act → Regs Vmcs
  | .op o => r.step (vmx c) o
  | .save u => r.saveVmx c u

def Regs.actSvm (npt : Bool) (r : Regs Vmcb) : Act → Regs Vmcb
  | .op o => r.step (svm npt) o
  | .save u => r.saveSvm npt u

/-- A control word has the bits that are demanded and those of `need` as far as they are
permitted, no bit that is not permitted, and none of `ban` that is not demanded. -/
structure Held (k : Ctrl) (need ban x : BitVec 32) : Prop where
  set : Within (k.set &&& k.clr) x
  clr : Within x k.clr
  need : Within (need &&& k.clr) x
  ban : Within (x &&& ban) k.set

theorem held_of {k : Ctrl} {need ban val : BitVec 32} (hn : Within need val) (hb : val &&& ban = 0) :
    Held k need ban ((val ||| k.set) &&& k.clr) where
  set := within_self.or_right.and
  clr := within_and
  need := hn.or_left.and
  ban := by
    rw [within_iff]
    intro i hi
    have hbi : (val &&& ban).getLsbD i = false := by
      rw [hb]
      exact BitVec.getLsbD_zero
    simp only [BitVec.getLsbD_and, BitVec.getLsbD_or, Bool.and_eq_true, Bool.or_eq_true, Bool.and_eq_false_iff] at hi hbi
    obtain ⟨⟨hv | hs, -⟩, hban⟩ := hi
    · simp [hv, hban] at hbi
    · exact hs

namespace Vmcs

/-- `INVLPG`, and loads and stores of CR3. -/
def nstOff : BitVec 32 := cpuInvlpg ||| cpuCr3Load ||| cpuCr3Store

def Held0 (c : VmxCaps) (nstOn : Bool) (x : BitVec 32) : Prop :=
  Held c.ctrlCpu0 (if nstOn then 0 else nstOff) (if nstOn then nstOff else 0) x

def Held1 (c : VmxCaps) (nstOn : Bool) (x : BitVec 32) : Prop :=
  Held c.ctrlCpu1 (if nstOn then cpuEpt else 0) (if nstOn then 0 else cpuEpt) x

variable (c : VmxCaps) (nstOn : Bool) (val : BitVec 32) (h : Vmcs)

theorem held0_setCpuCtrl0 : Held0 c nstOn (h.setCpuCtrl0 c nstOn val).cpuExecCtrl0 := by
  cases nstOn with
  | false => exact held_of within_self.or_right BitVec.and_zero
  | true => exact held_of BitVec.zero_and (and_not_and val nstOff)

theorem held1_setCpuCtrl1 : Held1 c nstOn (h.setCpuCtrl1 c nstOn val).cpuExecCtrl1 := by
  cases nstOn with
  | false => exact held_of BitVec.zero_and (and_not_and val cpuEpt)
  | true => exact held_of within_self.or_right BitVec.and_zero

end Vmcs

/-- The execution controls are what the CPU and the mode demand. -/
structure Regs.Controlled (c : VmxCaps) (r : Regs Vmcs) : Prop where
  first : Vmcs.Held0 c r.nstOn r.hw.cpuExecCtrl0
  second : Vmcs.Held1 c r.nstOn r.hw.cpuExecCtrl1

theorem controlled_stable (c : VmxCaps) : Stable (vmx c) (Regs.Controlled c) where
  same r r' hn _ hh h := by
    obtain ⟨h0, h1⟩ := h
    rw [← hn, ← hh] at h0 h1
    exact ⟨h0, h1⟩
  shadow0 _ _ h := ⟨h.first, h.second⟩
  shadow4 _ _ h := ⟨h.first, h.second⟩
  entry _ _ h := ⟨h.first, h.second⟩
  nst r := ⟨Vmcs.held0_setCpuCtrl0 c _ _ r.hw, Vmcs.held1_setCpuCtrl1 c _ _ r.hw⟩
  fpu _ _ h := ⟨h.first, h.second⟩

/-- The intercepts that the host demands, and those of CR3 and `INVLPG` while it
keeps the page table of the guest. -/
structure Regs.Intercepted (r : Regs Vmcb) : Prop where
  first : Within Vmcb.forceCtrl0 r.hw.interceptCpu0
  second : Within Vmcb.forceCtrl1 r.hw.interceptCpu1
  off : r.nstOn = false → Within Vmcb.cpuInvlpg r.hw.interceptCpu0 ∧ Within 0x80008 r.hw.interceptCr

namespace Vmcb

variable (h : Vmcb) (nstOn : Bool) (msk0 msk4 : Mword) (val : BitVec 32)

theorem force_setCpuCtrl0 : Within forceCtrl0 (h.setCpuCtrl0 nstOn msk0 msk4 val).interceptCpu0 := by
  cases nstOn with
  | false => exact within_self.or_right
  | true => exact within_self.or_right

theorem off_setCpuCtrl0 (hoff : nstOn = false) :
    Within cpuInvlpg (h.setCpuCtrl0 nstOn msk0 msk4 val).interceptCpu0 ∧
      Within 0x80008 (h.setCpuCtrl0 nstOn msk0 msk4 val).interceptCr := by
  subst hoff
  refine ⟨within_self.or_right.or_left, ?_⟩
  unfold setCpuCtrl0
  by_cases h0 : msk0 = 0 <;> by_cases h4 : msk4 = 0 <;> simp only [h0, h4, reduceIte, Bool.false_eq_true] <;> decide

end Vmcb

theorem intercepted_setCpuCtrl0 {r : Regs Vmcb} (msk0 msk4 : Mword) (val : BitVec 32)
    (h : Within Vmcb.forceCtrl1 r.hw.interceptCpu1) :
    ({ r with hw := r.hw.setCpuCtrl0 r.nstOn msk0 msk4 val } : Regs Vmcb).Intercepted :=
  ⟨r.hw.force_setCpuCtrl0 r.nstOn msk0 msk4 val, h, r.hw.off_setCpuCtrl0 r.nstOn msk0 msk4 val⟩

theorem intercepted_setCpuCtrl (r : Regs Vmcb) (msk0 msk4 : Mword) (val0 val1 : BitVec 32) :
    ({ r with hw := (r.hw.setCpuCtrl0 r.nstOn msk0 msk4 val0).setCpuCtrl1 val1 } : Regs Vmcb).Intercepted :=
  ⟨r.hw.force_setCpuCtrl0 r.nstOn msk0 msk4 val0, within_self.or_right, r.hw.off_setCpuCtrl0 r.nstOn msk0 msk4 val0⟩

theorem intercepted_stable (npt : Bool) : Stable (svm npt) Regs.Intercepted where
  same r r' hn _ hh h := by
    obtain ⟨h0, h1, hoff⟩ := h
    rw [← hh] at h0 h1
    rw [← hn, ← hh] at hoff
    exact ⟨h0, h1, hoff⟩
  shadow0 _ _ h := ⟨h.first, h.second, h.off⟩
  shadow4 _ _ h := ⟨h.first, h.second, h.off⟩
  entry _ _ h := ⟨h.first, h.second, h.off⟩
  nst r := intercepted_setCpuCtrl r _ _ r.hw.interceptCpu0 r.hw.interceptCpu1
  fpu r on h :=
    intercepted_setCpuCtrl0 (r := { r with fpuOn := on }) _ _ r.hw.interceptCpu0 h.second

namespace Stable

variable {H : Type} {T : Virt H} {P : Regs H → Prop} {r : Regs H}

theorem saveCr (hP : Stable T P) (u : Utcb) (h : P r) : P (r.saveCr T u) := by
  unfold Regs.saveCr
  split
  · exact hP.writeCr _ _ (hP.writeCr _ _ (hP.writeCr _ _ (hP.writeCr _ _ h)))
  · exact h

theorem saveEfer (hP : Stable T P) (u : Utcb) (h : P r) : P (r.saveEfer T u) := by
  unfold Regs.saveEfer
  split
  · exact hP.writeEfer _ h
  · exact h

end Stable

theorem controlled_saveVmx {c : VmxCaps} {r : Regs Vmcs} (u : Utcb) (h : r.Controlled c) :
    (r.saveVmx c u).Controlled c := by
  have hcr := (controlled_stable c).saveCr u h
  unfold Regs.saveVmx
  dsimp only
  generalize r.saveCr (vmx c) u = r₁ at hcr
  refine (controlled_stable c).saveEfer u ?_
  have hctrl : (if u.mtd &&& mtdCtrl != 0 then
      { r₁ with hw := (r₁.hw.setCpuCtrl0 c r₁.nstOn u.ctrl0).setCpuCtrl1 c r₁.nstOn u.ctrl1 }
      else r₁).Controlled c := by
    split
    · exact ⟨Vmcs.held0_setCpuCtrl0 c _ _ r₁.hw, Vmcs.held1_setCpuCtrl1 c _ _ r₁.hw⟩
    · exact hcr
  generalize (if u.mtd &&& mtdCtrl != 0 then
      { r₁ with hw := (r₁.hw.setCpuCtrl0 c r₁.nstOn u.ctrl0).setCpuCtrl1 c r₁.nstOn u.ctrl1 } else r₁) = r₂ at hctrl
  split
  · exact ⟨Vmcs.held0_setCpuCtrl0 c _ _ r₂.hw, hctrl.second⟩
  · exact hctrl

/-- The window for virtual interrupts is the one bit that is taken out without
`svm_set_cpu_ctrl0`: the host does not demand it. -/
theorem within_and_not_vintr {x y : BitVec 32} (hx : x &&& Vmcb.cpuVintr = 0) (h : Within x y) :
    Within x (y &&& ~~~Vmcb.cpuVintr) := by
  unfold Within at h ⊢
  rw [← BitVec.and_assoc, h]
  exact within_not hx

theorem intercepted_saveSvm {npt : Bool} {r : Regs Vmcb} (u : Utcb) (h : r.Intercepted) :
    (r.saveSvm npt u).Intercepted := by
  have hcr := (intercepted_stable npt).saveCr u h
  unfold Regs.saveSvm
  dsimp only
  generalize r.saveCr (svm npt) u = r₁ at hcr
  refine (intercepted_stable npt).saveEfer u ?_
  generalize hr₂ : (if u.mtd &&& mtdCtrl != 0 then _ else r₁) = r₂
  have hctrl : r₂.Intercepted := by
    rw [← hr₂]
    split
    · exact intercepted_setCpuCtrl r₁ _ _ u.ctrl0 u.ctrl1
    · exact hcr
  split
  · split
    · exact ⟨hctrl.first.or_left, hctrl.second, fun hoff => ⟨(hctrl.off hoff).1.or_left, (hctrl.off hoff).2⟩⟩
    · exact ⟨within_and_not_vintr (by decide) hctrl.first, hctrl.second,
        fun hoff => ⟨within_and_not_vintr (by decide) (hctrl.off hoff).1, (hctrl.off hoff).2⟩⟩
  · exact hctrl

theorem controlled_run {c : VmxCaps} (acts : List Act) {r : Regs Vmcs} (h : r.Controlled c) :
    (acts.foldl (Regs.actVmx c) r).Controlled c := by
  induction acts generalizing r with
  | nil => exact h
  | cons a acts ih =>
    refine ih ?_
    cases a with
    | op o => exact (controlled_stable c).step o h
    | save u => exact controlled_saveVmx u h

theorem intercepted_run {npt : Bool} (acts : List Act) {r : Regs Vmcb} (h : r.Intercepted) :
    (acts.foldl (Regs.actSvm npt) r).Intercepted := by
  induction acts generalizing r with
  | nil => exact h
  | cons a acts ih =>
    refine ih ?_
    cases a with
    | op o => exact (intercepted_stable npt).step o h
    | save u => exact intercepted_saveSvm u h

/-- Whatever a VMM writes, the control words are as the host and the mode demand. -/
theorem forced :
    (∀ (npt fpuLazy : Bool) (r : Regs Vmcb) (acts : List Act),
      (acts.foldl (Regs.actSvm npt) (r.create (svm npt) fpuLazy)).Intercepted) ∧
    ∀ (c : VmxCaps) (fpuLazy : Bool) (r : Regs Vmcs) (acts : List Act),
      (acts.foldl (Regs.actVmx c) (r.create (vmx c) fpuLazy)).Controlled c :=
  ⟨fun npt _ _ acts => intercepted_run acts ((intercepted_stable npt).nstCtrl _ _),
    fun c _ _ acts => controlled_run acts ((controlled_stable c).nstCtrl _ _)⟩

/-- `Vmcs::init`, from what the MSRs say. -/
def VmxCaps.init (raw : VmxCaps) (vtlb novpid invept invvpid : Bool) : VmxCaps where
  fixCr0Set := if raw.ctrlCpu1.clr &&& Vmcs.cpuUrg != 0 then raw.fixCr0Set &&& 0x7ffffffe else raw.fixCr0Set
  fixCr0Clr := raw.fixCr0Clr ||| 0x60000000
  fixCr4Set := raw.fixCr4Set
  fixCr4Clr := raw.fixCr4Clr
  ctrlCpu0 :=
    -- `CPU_HLT`, `CPU_IO`, `CPU_IO_BITMAP` and `CPU_SECONDARY`, and `CPU_MSR_BITMAP` where there is one
    let set := raw.ctrlCpu0.set ||| 0x83000080
    { set := if raw.ctrlCpu0.clr &&& 0x10000000 != 0 then set ||| 0x10000000 else set
      clr := raw.ctrlCpu0.clr }
  ctrlCpu1 :=
    let clr := raw.ctrlCpu1.clr
    let clr := if vtlb || !invept then clr &&& ~~~(Vmcs.cpuEpt ||| Vmcs.cpuUrg) else clr
    { set := raw.ctrlCpu1.set ||| (Vmcs.cpuVpid ||| Vmcs.cpuUrg)
      clr := if novpid || !invvpid then clr &&& ~~~Vmcs.cpuVpid else clr }

/-- Without VPIDs a vCPU does not have all that is set. -/
theorem not_all_set :
    ¬∀ (raw : VmxCaps) (vtlb novpid invept invvpid fpuLazy : Bool) (r : Regs Vmcs) (acts : List Act),
      Within (raw.init vtlb novpid invept invvpid).ctrlCpu1.set
        (acts.foldl (Regs.actVmx (raw.init vtlb novpid invept invvpid))
          (r.create (vmx (raw.init vtlb novpid invept invvpid)) fpuLazy)).hw.cpuExecCtrl1 := by
  intro hall
  have h := hall ⟨0x80000021, 0, 0x2000, 0, ⟨0x0401e172, 0xfff9fffe⟩, ⟨0, 0xff⟩⟩ false true true true false
    ⟨⟨0, 0, 0, 0, 0⟩, 0, 0, 0, false, false, 0, 0, [], ⟨0, 0, 0, 0, 0, 0, 0⟩⟩ []
  exact absurd h (by decide +kernel)

end Tukija.Vcpu
