import Tukija.Fpu.Effect

/-! What the FPU code keeps in order on every CPU: who owns the registers, and for whom they
are open. -/
namespace Tukija.Fpu

/-- In both modes.  Only contexts of the CPU itself are current or own its registers. -/
structure Order {κ ι ρ : Type} (m : Machine κ ι ρ) : Prop where
  here : ∀ c, m.Here c (m.core c).current
  owned : ∀ c e, (m.core c).owner = some e → m.Here c e
  runs : ∀ c, ¬m.Kernel c → (m.ec (m.core c).current).kind ≠ .idle ∧ (m.ec (m.core c).current).dead = false
  fresh : ∀ e, (m.ec e).kind = .absent → (m.ec e).fpu = none

/-- With `fpu_lazy`: where TS is off the hazard tells it, threads have it off only as the owner, and
so for guests with the fault that stands for it. -/
structure Lazily {κ ι ρ : Type} (m : Machine κ ι ρ) : Prop where
  hazard : ∀ c, (m.core c).ts = false → (m.core c).hzd = true
  thread : ∀ c, ¬m.Kernel c → m.isVcpu (m.core c).current = false → (m.core c).ts = false →
    (m.core c).owner = some (m.core c).current
  guest : ∀ e, m.isVcpu e → (m.ec e).fpuOn → (m.ec e).dead = false → (m.core (m.ec e).cpu).owner = some e

/-- Without it: the registers are the current context's, and open to it. -/
structure Eagerly {κ ι ρ : Type} (m : Machine κ ι ρ) : Prop where
  calm : ∀ c, (m.core c).hzd = false
  thread : ∀ c, (m.ec (m.core c).current).kind = .thread → (m.core c).ts = false
  guest : ∀ e, m.isVcpu e → (m.ec e).fpuOn = true
  owner : ∀ c e, (m.core c).owner = some e → (m.core c).current = e

/-- With `fpu_lazy` a guest that owns the registers is flushed from its CPU only when it is dead. -/
def Machine.Tame {κ ι ρ : Type} (m : Machine κ ι ρ) : Act κ ι ρ → Prop
  | .flush c e => m.ownsHere c e → m.isVcpu e → (m.ec e).dead = true
  | _ => True

section
variable {κ ι ρ : Type} [DecidableEq κ] {X : Xsave ι ρ} {m : Machine κ ι ρ}

open Machine

theorem order_switch {c : κ} {e : EcId} (h : Order m) (r : m.Ready (.switch c e)) :
    Order (m.makeCurrent X c e) := by
  obtain ⟨here, owned, runs, fresh⟩ := h
  obtain ⟨hk, he⟩ := r
  cases hl : m.lazy
  · choose on hon hec using makeCurrent_ec X m c e hl
    constructor <;> simp only [Here, Kernel, makeCurrent_core X m c e hl, hec] at * <;> grind
  · rw [makeCurrent_lazy X m c e hl]
    constructor <;> simp only [Here, Kernel, setCore_core, setCore_ec] at * <;> grind

theorem lazily_switch {c : κ} {e : EcId} (hl : m.lazy = true) (h : Lazily m) (r : m.Ready (.switch c e)) :
    Lazily (m.makeCurrent X c e) := by
  obtain ⟨hazard, thread, guest⟩ := h
  obtain ⟨hk, he⟩ := r
  rw [makeCurrent_lazy X m c e hl]
  constructor <;> simp only [Kernel, isVcpu, setCore_core, setCore_ec] at * <;> grind

theorem eagerly_switch {c : κ} {e : EcId} (hl : m.lazy = false) (h : Eagerly m) : Eagerly (m.makeCurrent X c e) := by
  obtain ⟨calm, thread, guest, owner⟩ := h
  choose on hon hec using makeCurrent_ec X m c e hl
  constructor <;> simp only [isVcpu, makeCurrent_core X m c e hl, hec] at * <;> grind

theorem order_fault {c : κ} (h : Order m) (hl : m.lazy = true) : Order ((m.enter c).handleExcNm X c) := by
  obtain ⟨here, owned, runs, fresh⟩ := h
  have hl' : (m.enter c).lazy = true := by rw [enter_lazy, hl]
  constructor <;>
    simp only [Here, Kernel, handleExcNm_core X _ c hl', handleExcNm_ec X _ c hl', enter_ec, enter_core] at * <;> grind

theorem lazily_fault {c : κ} (h : Order m) (hz : Lazily m) (hl : m.lazy = true) :
    Lazily ((m.enter c).handleExcNm X c) := by
  obtain ⟨here, owned, runs, fresh⟩ := h
  obtain ⟨hazard, thread, guest⟩ := hz
  have hl' : (m.enter c).lazy = true := by rw [enter_lazy, hl]
  constructor <;>
    simp only [Here, Kernel, isVcpu, handleExcNm_core X _ c hl', handleExcNm_ec X _ c hl', enter_ec, enter_core] at * <;> grind

omit [DecidableEq κ] in
theorem permitted_eager {c : κ} (h : Order m) (hz : Eagerly m) (hk : ¬m.Kernel c) : m.permitted c = true := by
  have hr := (h.runs c hk).1
  have hh := (h.here c).1
  unfold permitted
  dsimp only
  by_cases hv : m.isVcpu (m.core c).current = true
  · rw [if_pos hv, hz.guest _ hv]
  · have ht : (m.ec (m.core c).current).kind = .thread := by
      cases hkd : (m.ec (m.core c).current).kind <;> simp_all [isVcpu]
    rw [if_neg hv, hz.thread c ht]
    rfl

/-- On the way through `hlt_prepare` and start-up. -/
def down (m : Machine κ ι ρ) (X : Xsave ι ρ) (c : κ) (power : ρ) : Machine κ ι ρ :=
  (m.flushFpu X c).setCore c fun k => { k with live := power, ts := true }

theorem down_lazy {c : κ} {power : ρ} : (down m X c power).lazy = m.lazy := by simp [down]

theorem order_down {c : κ} {power : ρ} (h : Order m) : Order (down m X c power) := by
  obtain ⟨here, owned, runs, fresh⟩ := h
  constructor <;> simp only [down, Here, Kernel, setCore_core, setCore_ec, flushFpu_core, flushFpu_ec] at * <;> grind

theorem lazily_down {c : κ} {power : ρ} (h : Order m) (hz : Lazily m) (hl : m.lazy = true) :
    Lazily (down m X c power) := by
  obtain ⟨hazard, thread, guest⟩ := hz
  have owned := h.owned
  constructor <;>
    simp only [down, Here, Kernel, isVcpu, setCore_core, setCore_ec, flushFpu_core, flushFpu_ec] at * <;> grind

theorem ready_down {c : κ} {e : EcId} {power : ρ} (r : m.Ready (.sleep c power e)) :
    (down m X c power).Ready (.switch c e) := by
  obtain ⟨hk, he⟩ := r
  simp only [down, Ready, Here, Kernel, setCore_core, setCore_ec, flushFpu_core, flushFpu_ec] at *
  grind

theorem eagerly_sleep {c : κ} {e : EcId} {power : ρ} (hl : m.lazy = false) (hz : Eagerly m) :
    Eagerly (m.sleep X c e power) := by
  obtain ⟨calm, thread, guest, owner⟩ := hz
  have hl' : (down m X c power).lazy = false := by rw [down_lazy, hl]
  choose on hon hec using makeCurrent_ec X (down m X c power) c e hl'
  constructor <;>
    simp only [show m.sleep X c e power = (down m X c power).makeCurrent X c e from rfl, isVcpu,
      makeCurrent_core X _ c e hl', hec] at * <;>
    simp only [down, setCore_core, setCore_ec, flushFpu_core, flushFpu_ec] at * <;> grind

theorem order_step {a : Act κ ι ρ} (h : Order m) (hz : m.lazy = false → Eagerly m) (r : m.Ready a) :
    Order (m.step X a) := by
  cases a with
  | switch c e => exact order_switch h r
  | sleep c power e => exact order_switch (order_down h) (ready_down r)
  | fault c =>
    refine order_fault h ?_
    by_contra hl
    have := permitted_eager h (hz (by simpa using hl)) r.1
    simp [r.2] at this
  | resume c =>
    obtain ⟨here, owned, runs, fresh⟩ := h
    have hh : m.lazy = true ∨ (m.core c).hzd = false := by
      cases hl : m.lazy
      · exact .inr ((hz hl).calm c)
      · exact .inl rfl
    constructor <;>
      simp only [step, Ready, Here, Kernel, resume_core m c hh, resume_ec m c hh] at * <;> grind
  | migrate c e e' cpu' =>
    obtain ⟨here, owned, runs, fresh⟩ := h
    obtain ⟨hk, ht, hc, hn, ha⟩ := r
    have hne : e' ≠ e := by rintro rfl; simp [ht] at ha
    have hv : m.isVcpu e = false := by simp [isVcpu, ht]
    constructor <;>
      simp only [step, Here, Kernel, clone_core, clone_ec X m c e e' cpu' hne hv] at * <;> grind
  | create e kind cpu =>
    obtain ⟨here, owned, runs, fresh⟩ := h
    constructor <;> simp only [step, Ready, Here, Kernel, setEc_ec, setEc_core] at * <;> grind
  | enter c =>
    obtain ⟨here, owned, runs, fresh⟩ := h
    constructor <;> simp only [step, Ready, Here, Kernel, enter_ec, enter_core] at * <;> grind
  | use c e f =>
    obtain ⟨here, owned, runs, fresh⟩ := h
    constructor <;> simp only [step, Ready, Here, Kernel, setCore_ec, setCore_core] at * <;> grind
  | exportData c e =>
    obtain ⟨here, owned, runs, fresh⟩ := h
    constructor <;> simp only [step, Ready, Here, Kernel, exportFpuData_ec, exportFpuData_core] at * <;> grind
  | importData c e data =>
    obtain ⟨here, owned, runs, fresh⟩ := h
    constructor <;> simp only [step, Ready, Here, Kernel, importFpuData_ec, importFpuData_core] at * <;> grind
  | die c e =>
    obtain ⟨here, owned, runs, fresh⟩ := h
    constructor <;> simp only [step, die, Ready, Here, Kernel, setEc_ec, setEc_core] at * <;> grind
  | flush c e =>
    obtain ⟨here, owned, runs, fresh⟩ := h
    constructor <;> simp only [step, Ready, Here, Kernel, flushFromCpu_ec, flushFromCpu_core] at * <;> grind

theorem lazily_step {a : Act κ ι ρ} (hl : m.lazy = true) (h : Order m) (hz : Lazily m) (r : m.Ready a)
    (ht : m.Tame a) : Lazily (m.step X a) := by
  cases a with
  | switch c e => exact lazily_switch hl hz r
  | sleep c power e => exact lazily_switch (m := down m X c power) (down_lazy.trans hl) (lazily_down h hz hl) (ready_down r)
  | fault c => exact lazily_fault h hz hl
  | resume c =>
    obtain ⟨here, owned, runs, fresh⟩ := h
    obtain ⟨hazard, thread, guest⟩ := hz
    constructor <;>
      simp only [step, Ready, Here, Kernel, isVcpu, resume_core m c (.inl hl), resume_ec m c (.inl hl)] at * <;> grind
  | migrate c e e' cpu' =>
    obtain ⟨here, owned, runs, fresh⟩ := h
    obtain ⟨hazard, thread, guest⟩ := hz
    obtain ⟨hk, hth, hc, hn, ha⟩ := r
    have hne : e' ≠ e := by rintro rfl; simp [hth] at ha
    have hv : m.isVcpu e = false := by simp [isVcpu, hth]
    constructor <;>
      simp only [step, Here, Kernel, isVcpu, clone_core, clone_ec X m c e e' cpu' hne hv] at * <;> grind
  | create e kind cpu =>
    obtain ⟨here, owned, runs, fresh⟩ := h
    obtain ⟨hazard, thread, guest⟩ := hz
    constructor <;> simp only [step, Ready, Here, Kernel, isVcpu, setEc_ec, setEc_core] at * <;> grind
  | enter c =>
    obtain ⟨hazard, thread, guest⟩ := hz
    constructor <;> simp only [step, Ready, Kernel, isVcpu, enter_ec, enter_core] at * <;> grind
  | use c e f =>
    obtain ⟨hazard, thread, guest⟩ := hz
    constructor <;> simp only [step, Ready, Kernel, isVcpu, setCore_ec, setCore_core] at * <;> grind
  | exportData c e =>
    obtain ⟨hazard, thread, guest⟩ := hz
    constructor <;> simp only [step, Ready, Here, Kernel, isVcpu, exportFpuData_ec, exportFpuData_core] at * <;> grind
  | importData c e data =>
    obtain ⟨hazard, thread, guest⟩ := hz
    constructor <;>
      simp only [step, Ready, Here, Kernel, isVcpu, ownsHere, importFpuData_ec, importFpuData_core] at * <;> grind
  | die c e =>
    obtain ⟨hazard, thread, guest⟩ := hz
    constructor <;> simp only [step, die, Ready, Here, Kernel, isVcpu, setEc_ec, setEc_core] at * <;> grind
  | flush c e =>
    obtain ⟨hazard, thread, guest⟩ := hz
    constructor <;>
      simp only [step, Tame, ownsHere, hl, Ready, Kernel, isVcpu, flushFromCpu_ec, flushFromCpu_core] at * <;> grind

theorem eagerly_step {a : Act κ ι ρ} (hl : m.lazy = false) (h : Order m) (hz : Eagerly m) (r : m.Ready a) :
    Eagerly (m.step X a) := by
  have here := h.here
  have hp : ∀ c, ¬m.Kernel c → m.permitted c = true := fun c => permitted_eager h hz
  obtain ⟨calm, thread, guest, owner⟩ := hz
  cases a with
  | switch c e => exact eagerly_switch hl ⟨calm, thread, guest, owner⟩
  | sleep c power e => exact eagerly_sleep hl ⟨calm, thread, guest, owner⟩
  | fault c => exact absurd (hp c r.1) (by simp [r.2])
  | resume c =>
    have hh := Or.inr (a := m.lazy = true) (calm c)
    constructor <;> simp only [step, isVcpu, resume_core m c hh, resume_ec m c hh] at * <;> grind
  | migrate c e e' cpu' =>
    obtain ⟨hk, hth, hc, hn, ha⟩ := r
    have hne : e' ≠ e := by rintro rfl; simp [hth] at ha
    have hv : m.isVcpu e = false := by simp [isVcpu, hth]
    constructor <;>
      simp only [step, Here, isVcpu, ownsHere, hl, clone_core, clone_ec X m c e e' cpu' hne hv] at * <;> grind
  | create e kind cpu =>
    constructor <;> simp only [step, Ready, Here, isVcpu, setEc_ec, setEc_core] at * <;> grind
  | enter c => constructor <;> simp only [step, isVcpu, enter_ec, enter_core] at * <;> grind
  | use c e f => constructor <;> simp only [step, isVcpu, setCore_ec, setCore_core] at * <;> grind
  | exportData c e =>
    constructor <;> simp only [step, isVcpu, ownsHere, hl, exportFpuData_ec, exportFpuData_core] at * <;> grind
  | importData c e data =>
    constructor <;> simp only [step, isVcpu, ownsHere, hl, importFpuData_ec, importFpuData_core] at * <;> grind
  | die c e => constructor <;> simp only [step, die, isVcpu, setEc_ec, setEc_core] at * <;> grind
  | flush c e => constructor <;> simp only [step, isVcpu, flushFromCpu_ec, flushFromCpu_core] at * <;> grind

end

end Tukija.Fpu
