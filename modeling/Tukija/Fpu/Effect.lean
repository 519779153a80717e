import Tukija.Fpu.Machine

/-! What each function of the FPU code leaves in the contexts and on the CPUs. -/
namespace Tukija.Fpu

namespace Machine

variable {κ ι ρ : Type} (X : Xsave ι ρ) (m : Machine κ ι ρ) (c : κ) (e : EcId)

@[simp] theorem setEc_lazy (f) : (m.setEc e f).lazy = m.lazy := rfl
@[simp] theorem allocFpu_lazy : (m.allocFpu X e).lazy = m.lazy := rfl
@[simp] theorem fpuCtrl_lazy (on : Bool) : (m.fpuCtrl e on).lazy = m.lazy := rfl
@[simp] theorem die_lazy : (m.die e).lazy = m.lazy := rfl
@[simp] theorem setEc_core (f) : (m.setEc e f).core = m.core := rfl

@[simp, grind =] theorem setEc_ec (f) (e' : EcId) : (m.setEc e f).ec e' = if e' = e then f (m.ec e) else m.ec e' := by
  simp [setEc, Function.update_apply]

/-- What the area of `e` stands for: without one, what the FPU starts with. -/
def stored : ρ := ((m.ec e).fpu.map X.load).getD X.start

@[simp] theorem saveFpu_core : (m.saveFpu X c e).core = m.core := by
  unfold saveFpu fpuCtrl; split <;> rfl

@[simp] theorem saveFpu_lazy : (m.saveFpu X c e).lazy = m.lazy := by
  unfold saveFpu fpuCtrl; split <;> rfl

@[simp, grind =] theorem saveFpu_ec (e' : EcId) :
    (m.saveFpu X c e).ec e' = if e' = e then
      { m.ec e with fpu := some (X.save (m.core c).live), fpuOn := (m.ec e).fpuOn && !(m.lazy && m.isVcpu e) }
    else m.ec e' := by
  by_cases h : m.lazy && m.isVcpu e <;> by_cases he : e' = e <;> simp [saveFpu, fpuCtrl, h, he]

variable [DecidableEq κ]

@[simp] theorem setCore_lazy (f) : (m.setCore c f).lazy = m.lazy := rfl
@[simp] theorem setCore_ec (f) : (m.setCore c f).ec = m.ec := rfl

@[simp] theorem setCore_isVcpu (f) : (m.setCore c f).isVcpu e = m.isVcpu e := rfl
@[simp] theorem setCore_idleEc (f) : (m.setCore c f).idleEc e = m.idleEc e := rfl
@[simp] theorem setCore_stored (f) : (m.setCore c f).stored X e = m.stored X e := rfl

@[simp, grind =] theorem setCore_core (f) (c' : κ) :
    (m.setCore c f).core c' = if c' = c then f (m.core c) else m.core c' := by
  simp [setCore, Function.update_apply]

@[simp] theorem loadFpu_lazy : (m.loadFpu X c e).lazy = m.lazy := by
  unfold loadFpu fpuCtrl
  cases hl : m.lazy <;> cases hv : m.isVcpu e <;> cases hf : (m.ec e).fpu <;> simp [hl, hv, hf]

/-- A guest that gets the registers gets them without a fault. -/
@[simp, grind =] theorem loadFpu_ec (e' : EcId) :
    (m.loadFpu X c e).ec e' = if e' = e then
      { m.ec e with fpuOn := (m.ec e).fpuOn || (m.isVcpu e && (m.lazy || (m.ec e).fpu.isNone)) }
    else m.ec e' := by
  unfold loadFpu fpuCtrl
  cases hl : m.lazy <;> cases hv : m.isVcpu e <;> cases hf : (m.ec e).fpu <;> by_cases he : e' = e <;>
    simp [hl, hv, hf, he] <;> rw [← hf]

@[simp, grind =] theorem loadFpu_core (c' : κ) :
    (m.loadFpu X c e).core c' = if c' = c then { m.core c with live := m.stored X e } else m.core c' := by
  unfold loadFpu fpuCtrl stored
  cases hl : m.lazy <;> cases hv : m.isVcpu e <;> cases hf : (m.ec e).fpu <;> simp [hl, hv, hf]

/-- `claim_fpu` saves the current context. -/
def parks : Bool := !m.lazy && !m.idleEc (m.core c).current && !(m.ec (m.core c).current).dead

/-- The first half of `claim_fpu` without `fpu_lazy`. -/
def parked : Machine κ ι ρ :=
  let m := m.setCore c fun k => { k with ts := false, hzd := false }
  if m.parks c then m.saveFpu X c (m.core c).current else m

@[simp] theorem parked_lazy : (m.parked X c).lazy = m.lazy := by
  unfold parked; dsimp only; split <;> simp

theorem parked_core (c' : κ) :
    (m.parked X c).core c' = if c' = c then { m.core c with ts := false, hzd := false } else m.core c' := by
  unfold parked; dsimp only; split <;> simp

theorem parked_ec (hl : m.lazy = false) (e' : EcId) :
    (m.parked X c).ec e' =
      if m.parks c ∧ (m.core c).current = e' then { m.ec e' with fpu := some (X.save (m.core c).live) } else m.ec e' := by
  have hp : (m.setCore c fun k => { k with ts := false, hzd := false }).parks c = m.parks c := by
    simp [parks, idleEc]
  simp only [parked, hp]
  cases h : m.parks c
  · simp
  · by_cases he : (m.core c).current = e'
    · subst he
      simp [hl]
    · simp [he, Ne.symm he]

theorem parked_stored (hl : m.lazy = false) :
    (m.parked X c).stored X e =
      if m.parks c ∧ (m.core c).current = e then (m.core c).live else m.stored X e := by
  simp only [stored, parked_ec X m c hl]
  split <;> simp

theorem claimFpu_eager (hl : m.lazy = false) :
    m.claimFpu X c e = (if !m.idleEc e then (m.parked X c).loadFpu X c e else m.parked X c).setCore c
      fun k => { k with owner := some e } := by
  have hp : (m.setCore c fun k => { k with ts := false, hzd := false }).parks c =
      (!(m.setCore c fun k => { k with ts := false, hzd := false }).idleEc (m.core c).current &&
        !(m.ec (m.core c).current).dead) := by
    simp [parks, hl]
  have hi : (m.parked X c).idleEc e = m.idleEc e := by
    simp only [idleEc, parked_ec X m c hl]
    split <;> rfl
  rw [← hi]
  simp only [claimFpu, hl, parked, hp]
  cases hx : (m.setCore c fun k => { k with ts := false, hzd := false }).idleEc (m.core c).current <;>
    cases hd : (m.ec (m.core c).current).dead <;> simp [hx, hd]

theorem makeCurrent_lazy (hl : m.lazy = true) :
    m.makeCurrent X c e = m.setCore c fun k => { k with current := e } := by
  simp [makeCurrent, claimFpu, hl]

theorem makeCurrent_core (hl : m.lazy = false) (c' : κ) :
    (m.makeCurrent X c e).core c' = if c' = c then
      { m.core c with
        live := if m.idleEc e ∨ m.parks c ∧ (m.core c).current = e then (m.core c).live else m.stored X e
        ts := false, hzd := false, owner := some e, current := e }
    else m.core c' := by
  by_cases hc : c' = c
  · subst hc
    by_cases hi : m.idleEc e = true
    · simp [makeCurrent, claimFpu_eager X m c' e hl, hi, parked_core]
    · simp [makeCurrent, claimFpu_eager X m c' e hl, hi, parked_core, parked_stored X m c' e hl]
  · by_cases hi : m.idleEc e = true <;> simp [makeCurrent, claimFpu_eager X m c e hl, hi, parked_core, hc]

theorem makeCurrent_ec (hl : m.lazy = false) (e' : EcId) : ∃ on, ((m.ec e').fpuOn = true → on = true) ∧
    (m.makeCurrent X c e).ec e' = { m.ec e' with
      fpu := if m.parks c ∧ (m.core c).current = e' then some (X.save (m.core c).live) else (m.ec e').fpu
      fpuOn := on } := by
  have hp : (m.parked X c).ec e' = { m.ec e' with
      fpu := if m.parks c ∧ (m.core c).current = e' then some (X.save (m.core c).live) else (m.ec e').fpu } := by
    rw [parked_ec X m c hl]
    split <;> rfl
  by_cases hi : m.idleEc e = true
  · exact ⟨_, id, by simp [makeCurrent, claimFpu_eager X m c e hl, hi, hp]⟩
  · by_cases he : e' = e
    · subst he
      refine ⟨_, fun h => ?_, by simp [makeCurrent, claimFpu_eager X m c e' hl, hi, hp]; rfl⟩
      simp [h]
    · exact ⟨_, id, by simp [makeCurrent, claimFpu_eager X m c e hl, hi, he, hp]⟩

theorem enter_ec : (m.enter c).ec = m.ec := by
  unfold enter disable; dsimp only; split <;> rfl

theorem enter_core (c' : κ) :
    (m.enter c).core c' = if c' = c then
      { m.core c with
        ts := m.vmx && m.isVcpu (m.core c).current || (m.core c).ts
        hzd := !(m.vmx && m.isVcpu (m.core c).current) && (m.core c).hzd
        user := false }
    else m.core c' := by
  by_cases hc : c' = c <;> cases h : m.vmx && m.isVcpu (m.core c).current <;> simp [enter, disable, h, hc]

@[simp] theorem enter_lazy : (m.enter c).lazy = m.lazy := by
  unfold enter disable; dsimp only; split <;> rfl

theorem handleExcNm_own (hl : m.lazy = true) (ho : (m.core c).owner = some (m.core c).current) :
    m.handleExcNm X c =
      if m.isVcpu (m.core c).current && !(m.ec (m.core c).current).fpuOn then
        (m.enable c).fpuCtrl (m.core c).current true
      else m.enable c := by
  simp only [handleExcNm, hl, Bool.not_true, Bool.false_eq_true, if_false]
  simp only [show ((m.enable c).core c).owner = some (m.core c).current by simp [enable, ho], if_true]
  rfl

theorem handleExcNm_take (hl : m.lazy = true) (ho : (m.core c).owner ≠ some (m.core c).current) :
    m.handleExcNm X c = (((m.core c).owner.elim (m.enable c) ((m.enable c).saveFpu X c)).loadFpu X c
      (m.core c).current).setCore c fun k => { k with owner := some (m.core c).current } := by
  simp only [handleExcNm, hl, Bool.not_true, Bool.false_eq_true, if_false]
  have he : ((m.enable c).core c).owner = (m.core c).owner := by simp [enable]
  simp only [he, ho, if_false]
  cases (m.core c).owner <;> rfl

/-- The owner's registers are saved and those of the current context loaded, unless it is the
owner. -/
theorem handleExcNm_core (hl : m.lazy = true) (c' : κ) :
    (m.handleExcNm X c).core c' = if c' = c then
      { m.core c with
        live := if (m.core c).owner = some (m.core c).current then (m.core c).live
          else m.stored X (m.core c).current
        ts := false, hzd := true, owner := some (m.core c).current }
    else m.core c' := by
  by_cases ho : (m.core c).owner = some (m.core c).current
  · rw [handleExcNm_own X m c hl ho]
    split <;> by_cases hc : c' = c <;> simp [fpuCtrl, enable, ho, hc]
  · rw [handleExcNm_take X m c hl ho]
    cases h : (m.core c).owner with
    | none => by_cases hc : c' = c <;> simp [enable, hc]
    | some o =>
      have hne : (m.core c).current ≠ o := fun he => ho (he ▸ h)
      by_cases hc : c' = c <;> simp [enable, hc, stored, hne, hne.symm]

theorem handleExcNm_ec (hl : m.lazy = true) (e' : EcId) :
    (m.handleExcNm X c).ec e' = { m.ec e' with
      fpu := if (m.core c).owner = some e' ∧ e' ≠ (m.core c).current then some (X.save (m.core c).live)
        else (m.ec e').fpu
      fpuOn := if e' = (m.core c).current then (m.ec e').fpuOn || m.isVcpu e'
        else (m.ec e').fpuOn && !((m.core c).owner == some e' && m.isVcpu e') } := by
  by_cases ho : (m.core c).owner = some (m.core c).current
  · rw [handleExcNm_own X m c hl ho]
    have hne : e' ≠ (m.core c).current → ((m.core c).owner == some e') = false := fun h => by simp [ho, Ne.symm h]
    cases hv : m.isVcpu (m.core c).current <;> cases hf : (m.ec (m.core c).current).fpuOn <;>
      simp only [Bool.not_true, Bool.not_false, Bool.and_true, Bool.and_false, if_true, if_false, Bool.false_eq_true,
        fpuCtrl, enable, setEc_ec, setCore_ec] <;> ext <;> grind
  · rw [handleExcNm_take X m c hl ho]
    cases h : (m.core c).owner with
    | none => by_cases he : e' = (m.core c).current <;> simp [enable, he, hl]
    | some o =>
      have hne : (m.core c).current ≠ o := fun he => ho (he ▸ h)
      by_cases he : e' = (m.core c).current
      · simp [enable, he, hl, hne, hne.symm, isVcpu]
      · by_cases he' : e' = o
        · simp [enable, he', hl, hne.symm, isVcpu]
        · have ho' : (some o == some e') = false := by simpa using fun h : o = e' => he' h.symm
          have hoe : o ≠ e' := fun h => he' h.symm
          simp [enable, he, he', hoe, ho']

/-- `e`'s content is in the registers of `c`, so that its area is behind. -/
def ownsHere : Bool := m.lazy && (m.core c).owner == some e

theorem importFpuData_core (data : ι) (c' : κ) :
    (m.importFpuData X c e data).core c' = if c' = c ∧ m.ownsHere c e then
      { m.core c with live := X.load data, ts := true, hzd := false }
    else m.core c' := by
  unfold importFpuData allocFpu enable disable ownsHere
  by_cases h : (m.lazy && (m.core c).owner == some e) = true <;> by_cases hc : c' = c <;>
    simp [h, hc, stored]

theorem importFpuData_ec (data : ι) (e' : EcId) :
    (m.importFpuData X c e data).ec e' = if e' = e then
      { m.ec e with fpu := some data, fpuOn := (m.ec e).fpuOn || (m.ownsHere c e && m.isVcpu e) }
    else m.ec e' := by
  unfold importFpuData allocFpu enable disable ownsHere
  by_cases h : (m.lazy && (m.core c).owner == some e) = true <;> by_cases he : e' = e <;>
    simp [h, he, isVcpu]
  simp_all

theorem exportFpuData_core (c' : κ) :
    (m.exportFpuData X c e).core c' = if c' = c ∧ m.ownsHere c e then
      { m.core c with ts := true, hzd := false }
    else m.core c' := by
  unfold exportFpuData allocFpu enable disable ownsHere
  by_cases h : (m.lazy && (m.core c).owner == some e) = true <;> by_cases hc : c' = c <;> simp [h, hc]

theorem exportFpuData_ec (e' : EcId) :
    (m.exportFpuData X c e).ec e' = if e' = e then
      { m.ec e with
        fpu := if m.ownsHere c e then some (X.save (m.core c).live) else some ((m.ec e).fpu.getD X.empty)
        fpuOn := (m.ec e).fpuOn && !(m.ownsHere c e && m.isVcpu e) }
    else m.ec e' := by
  unfold exportFpuData allocFpu enable disable ownsHere
  by_cases h : (m.lazy && (m.core c).owner == some e) = true <;> by_cases he : e' = e <;>
    simp [h, he, isVcpu]
  simp_all

theorem flushFpu_core (c' : κ) :
    (m.flushFpu X c).core c' = if c' = c then
      { m.core c with
        ts := (m.core c).owner.isSome || (m.core c).ts
        hzd := (m.core c).owner.isNone && (m.core c).hzd
        owner := none }
    else m.core c' := by
  unfold flushFpu enable disable
  cases h : (m.core c).owner <;> by_cases hc : c' = c <;> simp [h, hc]
  rw [← h]

theorem flushFpu_ec (e' : EcId) :
    (m.flushFpu X c).ec e' = if (m.core c).owner = some e' then
      { m.ec e' with
        fpu := some (X.save (m.core c).live)
        fpuOn := (m.ec e').fpuOn && !(m.lazy && m.isVcpu e') }
    else m.ec e' := by
  unfold flushFpu enable disable
  cases h : (m.core c).owner with
  | none => simp
  | some o =>
    by_cases he : e' = o
    · simp [he, isVcpu]
    · have : ¬o = e' := fun h => he h.symm
      simp [he, this]

theorem flushFromCpu_ec : (m.flushFromCpu c e).ec = m.ec := by
  unfold flushFromCpu disable
  split
  · dsimp only
    split <;> rfl
  · rfl

theorem flushFromCpu_core (c' : κ) :
    (m.flushFromCpu c e).core c' = if c' = c ∧ (m.ec e).cpu = c ∧ (m.core c).owner = some e then
      { m.core c with ts := m.lazy || (m.core c).ts, hzd := !m.lazy && (m.core c).hzd, owner := none }
    else m.core c' := by
  unfold flushFromCpu disable
  by_cases h : (m.ec e).cpu = c ∧ (m.core c).owner = some e <;> by_cases hc : c' = c <;> cases hl : m.lazy <;>
    simp [h, hc, hl]

theorem clone_core (e' : EcId) (cpu' : κ) (c' : κ) :
    (m.clone X c e e' cpu').core c' = if c' = c ∧ m.ownsHere c e ∧ (m.ec e).fpu.isSome then
      { m.core c with ts := true, hzd := false }
    else m.core c' := by
  unfold clone enable disable ownsHere
  cases hf : (m.ec e).fpu <;> by_cases h : (m.lazy && (m.core c).owner == some e) = true <;> by_cases hc : c' = c <;>
    simp [h, hc]

theorem clone_ec (e' : EcId) (cpu' : κ) (hne : e' ≠ e) (hv : m.isVcpu e = false) (x : EcId) :
    (m.clone X c e e' cpu').ec x = if x = e then { m.ec e with fpu := none }
      else if x = e' then
        { m.ec e with
          cpu := cpu'
          fpu := if m.ownsHere c e then (m.ec e).fpu.map fun _ => X.save (m.core c).live else (m.ec e).fpu }
      else m.ec x := by
  have hv' : (m.ec e).kind ≠ .vcpu := by simpa [isVcpu] using hv
  unfold clone enable disable ownsHere
  cases hf : (m.ec e).fpu <;> by_cases h : (m.lazy && (m.core c).owner == some e) = true <;>
    by_cases he : x = e <;> by_cases he' : x = e' <;> simp [h, he, he', hne, hv', hne.symm, isVcpu, hf]

theorem resume_core (h : m.lazy = true ∨ (m.core c).hzd = false) (c' : κ) :
    (m.resume c).core c' = if c' = c then
      { m.core c with
        ts := !m.isVcpu (m.core c).current && (m.core c).hzd && (m.core c).owner != some (m.core c).current ||
          (m.core c).ts
        hzd := (m.core c).hzd && (m.isVcpu (m.core c).current || (m.core c).owner == some (m.core c).current)
        user := true }
    else m.core c' := by
  unfold resume disable
  by_cases ho : (m.core c).owner = some (m.core c).current <;> by_cases hc : c' = c <;>
    cases hv : m.isVcpu (m.core c).current <;> cases hz : (m.core c).hzd <;> simp_all

theorem resume_ec (h : m.lazy = true ∨ (m.core c).hzd = false) : (m.resume c).ec = m.ec := by
  unfold resume disable
  by_cases ho : (m.core c).owner = some (m.core c).current <;>
    cases hv : m.isVcpu (m.core c).current <;> cases hz : (m.core c).hzd <;> simp_all

/-! `fpu_lazy` is a boot option. -/

@[simp] theorem enable_lazy : (m.enable c).lazy = m.lazy := rfl
@[simp] theorem disable_lazy : (m.disable c).lazy = m.lazy := rfl

@[simp] theorem makeCurrent_lazy_eq : (m.makeCurrent X c e).lazy = m.lazy := by
  cases hl : m.lazy
  · by_cases hi : m.idleEc e = true <;> simp [makeCurrent, claimFpu_eager X m c e hl, hi, hl]
  · simp [makeCurrent_lazy X m c e hl, hl]

@[simp] theorem importFpuData_lazy (data : ι) : (m.importFpuData X c e data).lazy = m.lazy := by
  unfold importFpuData; dsimp only; split <;> simp

@[simp] theorem exportFpuData_lazy : (m.exportFpuData X c e).lazy = m.lazy := by
  unfold exportFpuData; dsimp only; split <;> simp

@[simp] theorem flushFpu_lazy : (m.flushFpu X c).lazy = m.lazy := by
  unfold flushFpu; split <;> simp

@[simp] theorem flushFromCpu_lazy : (m.flushFromCpu c e).lazy = m.lazy := by
  unfold flushFromCpu; split
  · dsimp only
    split <;> simp
  · rfl

@[simp] theorem handleExcNm_lazy : (m.handleExcNm X c).lazy = m.lazy := by
  cases hl : m.lazy
  · simp [handleExcNm, hl]
  · by_cases ho : (m.core c).owner = some (m.core c).current
    · rw [handleExcNm_own X m c hl ho]
      split <;> simp [hl]
    · rw [handleExcNm_take X m c hl ho]
      cases (m.core c).owner <;> simp [hl]

@[simp] theorem resume_lazy : (m.resume c).lazy = m.lazy := by
  unfold resume
  by_cases ho : (m.core c).owner = some (m.core c).current <;>
    cases hv : m.isVcpu (m.core c).current <;> cases hz : (m.core c).hzd <;> cases hl : m.lazy <;> simp [hv, hl, ho]

@[simp] theorem clone_lazy (e' : EcId) (cpu' : κ) : (m.clone X c e e' cpu').lazy = m.lazy := by
  unfold clone; dsimp only; split <;> simp

end Machine

end Tukija.Fpu
