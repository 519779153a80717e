import Tukija.Lib.Masks
import Tukija.Vcpu.Control

/-! What the guest reads from a control register is what was last written to it. -/
namespace Tukija.Vcpu

open Tukija.Lib.Word Tukija.Lib.Masks

inductive Op where
  | writeCr (n : Cr) (v : Mword)
  | nstCtrl (on : Bool)
  | fpuCtrl (on : Bool)
  deriving DecidableEq, Repr

section Read

variable {H : Type} (T : Virt H) (r : Regs H)

def Regs.step (r : Regs H) : Op → Regs H
  | .writeCr n v => r.writeCr T v n
  | .nstCtrl on => r.nstCtrl T on
  | .fpuCtrl on => r.fpuCtrl T on

def Regs.run (ops : List Op) (r : Regs H) : Regs H := ops.foldl (Regs.step T) r

def lastWrite (n : Cr) (ops : List Op) (v : Mword) : Mword :=
  ops.foldl (fun v op => match op with
    | .writeCr m x => if m = n then x else v
    | _ => v) v

theorem getCr0_eq_merge : r.getCr0 T = merge (r.cr0Msk T) r.guest.cr0 r.cr0Shadow := rfl

theorem getCr4_eq_merge : r.getCr4 T = merge (r.cr4Msk T) r.guest.cr4 r.cr4Shadow := rfl

theorem split_cr0 (c s v : Mword) :
    ((v &&& (~~~(c ||| s) ||| cr0Pe)) ||| (s &&& notCr0Pe)) &&& ~~~(c ||| s) = v &&& ~~~(c ||| s) := by
  apply BitVec.eq_of_getLsbD_eq
  intro i hi
  simp only [BitVec.getLsbD_and, BitVec.getLsbD_or, BitVec.getLsbD_not, hi, decide_true, Bool.true_and]
  cases v.getLsbD i <;> cases c.getLsbD i <;> cases s.getLsbD i <;> simp

theorem split_cr4 (c s v : Mword) : ((v &&& ~~~(c ||| s)) ||| s) &&& ~~~(c ||| s) = v &&& ~~~(c ||| s) := by
  apply BitVec.eq_of_getLsbD_eq
  intro i hi
  simp only [BitVec.getLsbD_and, BitVec.getLsbD_or, BitVec.getLsbD_not, hi, decide_true, Bool.true_and]
  cases v.getLsbD i <;> cases c.getLsbD i <;> cases s.getLsbD i <;> simp

@[simp] theorem getCr0_setCr0 (v : Mword) : (r.setCr0 T v).getCr0 T = v := by
  rw [getCr0_eq_merge]
  exact merge_eq (split_cr0 _ _ _)

@[simp] theorem getCr4_setCr4 (v : Mword) : (r.setCr4 T v).getCr4 T = v := by
  rw [getCr4_eq_merge]
  exact merge_eq (split_cr4 _ _ _)

@[simp] theorem getCr3_setCr3 (v : Mword) : (r.setCr3 v).getCr3 = v := by
  unfold Regs.setCr3 Regs.getCr3
  cases r.nstOn <;> simp

@[simp] theorem getCr3_setCr0 (v : Mword) : (r.setCr0 T v).getCr3 = r.getCr3 := rfl
@[simp] theorem getCr4_setCr0 (v : Mword) : (r.setCr0 T v).getCr4 T = r.getCr4 T := rfl
@[simp] theorem cr2_setCr0 (v : Mword) : (r.setCr0 T v).guest.cr2 = r.guest.cr2 := rfl
@[simp] theorem getCr0_setCr4 (v : Mword) : (r.setCr4 T v).getCr0 T = r.getCr0 T := rfl
@[simp] theorem getCr3_setCr4 (v : Mword) : (r.setCr4 T v).getCr3 = r.getCr3 := rfl
@[simp] theorem cr2_setCr4 (v : Mword) : (r.setCr4 T v).guest.cr2 = r.guest.cr2 := rfl

@[simp] theorem getCr0_setCr3 (v : Mword) : (r.setCr3 v).getCr0 T = r.getCr0 T := by
  unfold Regs.setCr3
  split <;> rfl

@[simp] theorem getCr4_setCr3 (v : Mword) : (r.setCr3 v).getCr4 T = r.getCr4 T := by
  unfold Regs.setCr3
  split <;> rfl

@[simp] theorem cr2_setCr3 (v : Mword) : (r.setCr3 v).guest.cr2 = r.guest.cr2 := by
  unfold Regs.setCr3
  split <;> rfl

@[simp] theorem readCr_tlbFlush (full : Bool) (n : Cr) : (r.tlbFlush full).readCr T n = r.readCr T n := by
  cases n <;> rfl

@[simp] theorem readCr_writeEfer (v : Mword) (n : Cr) : (r.writeEfer T v).readCr T n = r.readCr T n := by
  cases n <;> rfl

theorem readCr_setExc (n : Cr) : r.setExc.readCr T n = r.readCr T n := by cases n <;> rfl

theorem readCr_hw (h : H) (n : Cr) : ({ r with hw := h } : Regs H).readCr T n = r.readCr T n := by cases n <;> rfl

theorem readCr_vtlb {r : Regs H} (h : r.nstOn = false) (n : Cr) :
    ({ r with guest := { r.guest with cr3 := r.vtlb } } : Regs H).readCr T n = r.readCr T n := by
  cases n with
  | cr3 => simp [Regs.readCr, Regs.getCr3, h]
  | cr0 => rfl
  | cr2 => rfl
  | cr4 => rfl

@[simp] theorem readCr_nstCtrl (on : Bool) (n : Cr) : (r.nstCtrl T on).readCr T n = r.readCr T n := by
  unfold Regs.nstCtrl
  dsimp only
  generalize hr : Regs.setExc _ = r'
  have hread : r'.readCr T n = r.readCr T n := by
    rw [← hr, readCr_setExc, readCr_hw]
    cases n <;> simp [Regs.readCr]
  split
  · exact hread
  · rename_i hoff
    rw [readCr_vtlb T (by simpa using hoff), hread]

theorem nstOn_setCr3 (v : Mword) : (r.setCr3 v).nstOn = r.nstOn := by
  unfold Regs.setCr3
  split <;> rfl

theorem nstOn_nstCtrl (on : Bool) : (r.nstCtrl T on).nstOn = (T.hasNst && on) := by
  unfold Regs.nstCtrl
  dsimp only
  generalize hr : Regs.setExc _ = r'
  have hmode : r'.nstOn = (T.hasNst && on) := by
    rw [← hr]
    exact nstOn_setCr3 ..
  split
  · exact hmode
  · exact hmode

theorem fpuOn_fpuCtrl (on : Bool) : (r.fpuCtrl T on).fpuOn = on := rfl

@[simp] theorem readCr_fpuCtrl (on : Bool) (n : Cr) : (r.fpuCtrl T on).readCr T n = r.readCr T n := by
  cases n with
  | cr0 => exact getCr0_setCr0 ..
  | cr2 => rfl
  | cr3 => rfl
  | cr4 => rfl

theorem readCr_setCr0 (v : Mword) (n : Cr) : (r.setCr0 T v).readCr T n = if .cr0 = n then v else r.readCr T n := by
  cases n with
  | cr0 => exact getCr0_setCr0 ..
  | cr2 => rfl
  | cr3 => rfl
  | cr4 => rfl

theorem readCr_writeCr (v : Mword) (m n : Cr) : (r.writeCr T v m).readCr T n = if m = n then v else r.readCr T n := by
  cases m with
  | cr0 =>
    have hflush : ∀ c : Bool, (if c = true then r.tlbFlush true else r).readCr T n = r.readCr T n := by
      intro c
      cases c <;> simp
    unfold Regs.writeCr
    dsimp only
    generalize hr : Regs.setCr0 T _ v = r'
    have hset : r'.readCr T n = if .cr0 = n then v else r.readCr T n := by
      rw [← hr, readCr_setCr0, hflush]
    have hmode : (if T.hasUrg = true then r' else r'.nstCtrl T (v &&& cr0Pg != 0)).readCr T n = r'.readCr T n := by
      split
      · rfl
      · exact readCr_nstCtrl ..
    rw [← hset]
    generalize (if T.hasUrg = true then r' else r'.nstCtrl T (v &&& cr0Pg != 0)) = r'' at hmode
    split
    · rw [← hmode]
      split
      · exact readCr_writeEfer ..
      · exact readCr_writeEfer ..
    · rfl
  | cr2 => cases n <;> rfl
  | cr3 =>
    unfold Regs.writeCr
    cases r.nstOn <;> cases n <;> simp [Regs.readCr, Regs.tlbFlush] <;> rfl
  | cr4 =>
    unfold Regs.writeCr
    dsimp only
    split <;> cases n <;> simp [Regs.readCr] <;> rfl

theorem readCr_step (op : Op) (n : Cr) : (r.step T op).readCr T n = lastWrite n [op] (r.readCr T n) := by
  cases op with
  | writeCr m v => exact readCr_writeCr T r v m n
  | nstCtrl on => exact readCr_nstCtrl T r on n
  | fpuCtrl on => exact readCr_fpuCtrl T r on n

/-- After any operations, every register reads as it was last written, or as before if it
was not. -/
theorem readCr_run (ops : List Op) (n : Cr) : (r.run T ops).readCr T n = lastWrite n ops (r.readCr T n) := by
  induction ops generalizing r with
  | nil => rfl
  | cons op ops ih =>
    change ((r.step T op).run T ops).readCr T n = lastWrite n ops (lastWrite n [op] (r.readCr T n))
    rw [ih, readCr_step]

end Read

/-- A property of the modes and of what `H` has that every operation keeps. -/
structure Stable {H : Type} (T : Virt H) (P : Regs H → Prop) : Prop where
  same : ∀ r r' : Regs H, r'.nstOn = r.nstOn → r'.fpuOn = r.fpuOn → r'.hw = r.hw → P r → P r'
  shadow0 : ∀ (r : Regs H) v, P r → P { r with hw := T.setReadShadow0 v r.hw }
  shadow4 : ∀ (r : Regs H) v, P r → P { r with hw := T.setReadShadow4 v r.hw }
  entry : ∀ (r : Regs H) lma, P r → P { r with hw := T.setEntry lma r.hw }
  nst : ∀ r : Regs H, P { r with hw := T.nstControls r.nstOn (r.cr0Msk T) (r.cr4Msk T) r.hw }
  fpu : ∀ (r : Regs H) on, P r →
    P { r with
      fpuOn := on
      hw := T.fpuControls r.nstOn ({ r with fpuOn := on }.cr0Msk T) ({ r with fpuOn := on }.cr4Msk T) r.hw }

namespace Stable

variable {H : Type} {T : Virt H} {P : Regs H → Prop} {r : Regs H}

theorem setCr0 (hP : Stable T P) (v : Mword) (h : P r) : P (r.setCr0 T v) :=
  hP.same { r with hw := T.setReadShadow0 v r.hw } _ rfl rfl rfl (hP.shadow0 r v h)

theorem setCr3 (hP : Stable T P) (v : Mword) (h : P r) : P (r.setCr3 v) := by
  unfold Regs.setCr3
  split
  · exact hP.same r _ rfl rfl rfl h
  · exact hP.same r _ rfl rfl rfl h

theorem setCr4 (hP : Stable T P) (v : Mword) (h : P r) : P (r.setCr4 T v) :=
  hP.same { r with hw := T.setReadShadow4 v r.hw } _ rfl rfl rfl (hP.shadow4 r v h)

theorem writeEfer (hP : Stable T P) (v : Mword) (h : P r) : P (r.writeEfer T v) :=
  hP.same { r with hw := T.setEntry (v &&& eferLma != 0) r.hw } _ rfl rfl rfl (hP.entry r _ h)

theorem tlbFlush (hP : Stable T P) {c : Bool} (full : Bool) (h : P r) : P (if c = true then r.tlbFlush full else r) := by
  split
  · exact hP.same r _ rfl rfl rfl h
  · exact h

theorem nstCtrl (hP : Stable T P) (on : Bool) (r : Regs H) : P (r.nstCtrl T on) := by
  unfold Regs.nstCtrl
  dsimp only
  generalize Regs.setCr4 T _ _ = r'
  have h := hP.nst r'
  split
  · exact hP.same { r' with hw := _ } _ rfl rfl rfl h
  · exact hP.same { r' with hw := _ } _ rfl rfl rfl h

theorem fpuCtrl (hP : Stable T P) (on : Bool) (h : P r) : P (r.fpuCtrl T on) :=
  hP.same { r with fpuOn := on, hw := _ } _ rfl rfl rfl
    (hP.fpu { r with hw := T.setReadShadow0 (r.getCr0 T) r.hw } on (hP.shadow0 r _ h))

theorem writeCr (hP : Stable T P) (v : Mword) (n : Cr) (h : P r) : P (r.writeCr T v n) := by
  cases n with
  | cr0 =>
    unfold Regs.writeCr
    dsimp only
    generalize hr : Regs.setCr0 T _ v = r'
    have h' : P r' := by
      rw [← hr]
      exact hP.setCr0 v (hP.tlbFlush true h)
    have hmode : P (if T.hasUrg = true then r' else r'.nstCtrl T (v &&& cr0Pg != 0)) := by
      split
      · exact h'
      · exact hP.nstCtrl _ r'
    generalize (if T.hasUrg = true then r' else r'.nstCtrl T (v &&& cr0Pg != 0)) = r'' at hmode
    split
    · split
      · exact hP.writeEfer _ hmode
      · exact hP.writeEfer _ hmode
    · exact h'
  | cr2 => exact hP.same r _ rfl rfl rfl h
  | cr3 =>
    unfold Regs.writeCr
    dsimp only
    split
    · exact hP.setCr3 v h
    · exact hP.setCr3 v (hP.same r _ rfl rfl rfl h)
  | cr4 => exact hP.setCr4 v (hP.tlbFlush true h)

theorem step (hP : Stable T P) (op : Op) (h : P r) : P (r.step T op) := by
  cases op with
  | writeCr n v => exact hP.writeCr v n h
  | nstCtrl on => exact hP.nstCtrl on r
  | fpuCtrl on => exact hP.fpuCtrl on h

theorem run (hP : Stable T P) (ops : List Op) (h : P r) : P (r.run T ops) := by
  induction ops generalizing r with
  | nil => exact h
  | cons op ops ih => exact ih (hP.step op h)

end Stable

/-- The masks in the VMCS are those of the modes. -/
def Regs.Masked (c : VmxCaps) (r : Regs Vmcs) : Prop :=
  r.hw.cr0Mask = r.cr0Msk (vmx c) ∧ r.hw.cr4Mask = r.cr4Msk (vmx c)

theorem masked_stable (c : VmxCaps) : Stable (vmx c) (Regs.Masked c) where
  same r r' hn hf hh h := by
    unfold Regs.Masked Regs.cr0Msk Regs.cr4Msk Regs.cr0Set Regs.cr4Set at *
    rw [hn, hf, hh]
    exact h
  shadow0 _ _ h := h
  shadow4 _ _ h := h
  entry _ _ h := h
  nst _ := ⟨rfl, rfl⟩
  fpu _ _ h := ⟨rfl, h.2⟩

/-- The virtualisation of the control registers is transparent on every kind of CPU: what is
read is what was last written, the modes are switched and not seen, and the masks of VMX fit them. -/
theorem transparent :
    (∀ {H : Type} (T : Virt H) (r : Regs H) (ops : List Op) (n : Cr),
      (r.run T ops).readCr T n = lastWrite n ops (r.readCr T n)) ∧
    (∀ {H : Type} (T : Virt H) (r : Regs H) (on : Bool),
      (r.nstCtrl T on).nstOn = (T.hasNst && on) ∧ (r.fpuCtrl T on).fpuOn = on ∧
      ∀ n, (r.nstCtrl T on).readCr T n = r.readCr T n ∧ (r.fpuCtrl T on).readCr T n = r.readCr T n) ∧
    ∀ (c : VmxCaps) (fpuLazy : Bool) (r : Regs Vmcs) (ops : List Op),
      ((r.create (vmx c) fpuLazy).run (vmx c) ops).Masked c :=
  ⟨readCr_run, fun T r on => ⟨nstOn_nstCtrl T r on, fpuOn_fpuCtrl T r on,
      fun n => ⟨readCr_nstCtrl T r on n, readCr_fpuCtrl T r on n⟩⟩,
    fun c _ _ ops => (masked_stable c).run ops ((masked_stable c).nstCtrl _ _)⟩

end Tukija.Vcpu
