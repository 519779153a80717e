import Tukija.Fpu.Order

/-! Over every run each context finds its own content in the FPU, and never another's. -/
namespace Tukija.Fpu

namespace Machine

variable {κ ι ρ : Type} (X : Xsave ι ρ) (m : Machine κ ι ρ)

/-- The registers of its CPU hold `e`'s content, and not its area. -/
def inRegs (e : EcId) : Bool :=
  if m.lazy then (m.core (m.ec e).cpu).owner = some e else (m.core (m.ec e).cpu).current = e

def content (e : EcId) : ρ := if m.inRegs e then (m.core (m.ec e).cpu).live else m.stored X e


variable {X m}

theorem content_stored {e : EcId} (h : m.inRegs e = false) : m.content X e = m.stored X e := by
  rw [content, if_neg (by simp [h])]

/-- Nothing has happened to `e`'s content: at most it has been copied from the registers to the area.
When `e` is dead, the registers may be given up. -/
structure Moved (X : Xsave ι ρ) (m m' : Machine κ ι ρ) (e : EcId) : Prop where
  content : m'.content X e = m.content X e ∨ (m.ec e).dead = true ∧ m'.content X e = m.stored X e
  stored : m'.stored X e = m.stored X e ∨ m'.stored X e = m.content X e

variable [DecidableEq κ]

theorem moved_switch {c : κ} {e : EcId} (h : Order m) (r : m.Ready (.switch c e)) (e' : EcId)
    (hi : m.idleEc e' = false) : Moved X m (m.makeCurrent X c e) e' := by
  have here := (h.here c).2
  obtain ⟨hk, he, hc⟩ := r
  cases hl : m.lazy
  · choose on hon hec using makeCurrent_ec X m c e hl
    have hl' : (m.makeCurrent X c e).lazy = false := by simpa using hl
    have hcpu : ((m.makeCurrent X c e).ec e').cpu = (m.ec e').cpu := by rw [hec]
    have hst : (m.makeCurrent X c e).stored X e' =
        if m.parks c ∧ (m.core c).current = e' then (m.core c).live else m.stored X e' := by
      rw [Machine.stored, hec]
      dsimp only
      split <;> simp [Machine.stored]
    have hp : (m.core c).current = e' → (m.parks c = true ↔ (m.ec e').dead = false) := by
      rintro rfl
      simp [parks, hi, hl]
    constructor <;>
      simp only [Machine.content, inRegs, hl, hl', hcpu, hst, makeCurrent_core X m c e hl] <;> grind
  · rw [makeCurrent_lazy X m c e hl]
    constructor <;> simp only [Machine.content, inRegs, setCore_core, setCore_ec, setCore_lazy, hl, setCore_stored] <;> grind

theorem moved_fault {c : κ} (h : Order m) (hl : m.lazy = true) (e : EcId) :
    Moved X m ((m.enter c).handleExcNm X c) e := by
  have here := (h.here c).2
  have owned := fun e h' => (h.owned c e h').2
  have hl' : (m.enter c).lazy = true := by rw [enter_lazy, hl]
  have hst : ((m.enter c).handleExcNm X c).stored X e =
      if (m.core c).owner = some e ∧ e ≠ (m.core c).current then (m.core c).live else m.stored X e := by
    rw [Machine.stored, handleExcNm_ec X _ c hl', enter_core, enter_ec, if_pos rfl]
    dsimp only
    split <;> simp [Machine.stored]
  have hste : ∀ e, (m.enter c).stored X e = m.stored X e := fun e => by simp only [Machine.stored, enter_ec]
  constructor <;>
    simp only [Machine.content, inRegs, handleExcNm_lazy, enter_lazy, hl, hst, hste, handleExcNm_core X _ c hl',
      handleExcNm_ec X _ c hl', enter_core, enter_ec] <;> grind

theorem moved_export {c : κ} {e : EcId} (h : Order m) (e' : EcId) : Moved X m (m.exportFpuData X c e) e' := by
  have owned := fun e h' => (h.owned c e h').2
  have hst : (m.exportFpuData X c e).stored X e' =
      if e' = e ∧ m.ownsHere c e then (m.core c).live else m.stored X e' := by
    rw [Machine.stored, exportFpuData_ec]
    by_cases he : e' = e
    · subst he
      cases ho : m.ownsHere c e' <;> cases hf : (m.ec e').fpu <;> simp [Machine.stored, hf]
    · simp [he, Machine.stored]
  constructor <;>
    simp only [Machine.content, inRegs, exportFpuData_lazy, hst, exportFpuData_core, exportFpuData_ec] <;>
    simp only [ownsHere] <;> grind

theorem moved_resume {c : κ} (hh : m.lazy = true ∨ (m.core c).hzd = false) (e : EcId) :
    Moved X m (m.resume c) e := by
  constructor <;>
    simp only [Machine.content, inRegs, Machine.stored, resume_lazy, resume_ec m c hh, resume_core m c hh] <;> grind

theorem moved_enter {c : κ} (e : EcId) : Moved X m (m.enter c) e := by
  constructor <;> simp only [Machine.content, inRegs, Machine.stored, enter_lazy, enter_ec, enter_core] <;> grind

omit [DecidableEq κ] in
theorem inRegs_use {c : κ} {e : EcId} {f : ρ → ρ} (h : Order m) (hl : m.lazy = true → Lazily m)
    (r : m.Ready (.use c e f)) : m.inRegs e = true := by
  obtain ⟨hk, rfl, hp⟩ := r
  have hc := (h.here c).2
  have hd := (h.runs c hk).2
  cases hz : m.lazy
  · simp [inRegs, hz, hc]
  · obtain ⟨hazard, thread, guest⟩ := hl hz
    simp only [permitted] at hp
    cases hv : m.isVcpu (m.core c).current
    · have := thread c hk hv (by simpa [hv] using hp)
      simp [inRegs, hz, hc, this]
    · have := guest _ hv (by simpa [hv] using hp) hd
      simp [inRegs, hz, this]

omit [DecidableEq κ] in
theorem content_use {c : κ} {e : EcId} {f : ρ → ρ} (h : Order m) (hl : m.lazy = true → Lazily m)
    (r : m.Ready (.use c e f)) : m.content X e = (m.core c).live := by
  have hi := inRegs_use h hl r
  obtain ⟨hk, rfl, hp⟩ := r
  rw [Machine.content, if_pos hi, (h.here c).2]

theorem step_use {c : κ} {e : EcId} {f : ρ → ρ} (h : Order m) (hl : m.lazy = true → Lazily m)
    (r : m.Ready (.use c e f)) (e' : EcId) :
    (m.step X (.use c e f)).stored X e' = m.stored X e' ∧
      (m.step X (.use c e f)).content X e' = if e' = e then f (m.content X e) else m.content X e' := by
  have hi := inRegs_use h hl r
  obtain ⟨hk, rfl, hp⟩ := r
  have hc := (h.here c).2
  refine ⟨rfl, ?_⟩
  simp only [step, Machine.content, inRegs, setCore_lazy, setCore_ec, setCore_core, setCore_stored] at *
  grind

theorem step_import {c : κ} {e : EcId} {data : ι} (h : Order m) (r : m.Ready (.importData c e data)) (e' : EcId) :
    (m.importFpuData X c e data).stored X e' = (if e' = e then X.load data else m.stored X e') ∧
      (m.importFpuData X c e data).content X e' = if e' = e then X.load data else m.content X e' := by
  obtain ⟨hk, ⟨ha, hc⟩, hn⟩ := r
  have owned := fun e h' => (h.owned c e h').2
  have hst : (m.importFpuData X c e data).stored X e' = if e' = e then X.load data else m.stored X e' := by
    rw [Machine.stored, importFpuData_ec]
    split <;> simp [Machine.stored]
  refine ⟨hst, ?_⟩
  simp only [Machine.content, inRegs, importFpuData_lazy, hst, importFpuData_core, importFpuData_ec]
  simp only [ownsHere]
  grind

omit [DecidableEq κ] in
theorem moved_die (e e' : EcId) : Moved X m (m.die e) e' := by
  constructor <;> simp only [Machine.content, inRegs, Machine.stored, die, setEc_lazy, setEc_ec, setEc_core] <;> grind

theorem step_flush {c : κ} {e : EcId} (e' : EcId) :
    (m.flushFromCpu c e).stored X e' = m.stored X e' ∧
      (m.flushFromCpu c e).content X e' =
        if e' = e ∧ m.ownsHere c e ∧ (m.ec e).cpu = c then m.stored X e' else m.content X e' := by
  have hst : (m.flushFromCpu c e).stored X e' = m.stored X e' := by simp only [Machine.stored, flushFromCpu_ec]
  refine ⟨hst, ?_⟩
  simp only [Machine.content, inRegs, flushFromCpu_lazy, hst, flushFromCpu_core, flushFromCpu_ec, ownsHere]
  grind

theorem step_create {e : EcId} {kind : Kind} {cpu : κ} (h : Order m) (r : m.Ready (.create e kind cpu)) (e' : EcId) :
    (m.step X (.create e kind cpu)).stored X e' = (if e' = e then X.start else m.stored X e') ∧
      (m.step X (.create e kind cpu)).content X e' = if e' = e then X.start else m.content X e' := by
  obtain ⟨ha, hk⟩ := r
  have here := fun c => (h.here c).1
  have owned := fun c e h' => (h.owned c e h').1
  have hst : (m.step X (.create e kind cpu)).stored X e' = if e' = e then X.start else m.stored X e' := by
    simp only [Machine.stored, step, setEc_ec]
    split <;> simp
  refine ⟨hst, ?_⟩
  simp only [step, Machine.content, inRegs, setEc_lazy, setEc_ec, setEc_core] at *
  grind

theorem step_migrate {c cpu' : κ} {e e' : EcId} (h : Order m) (r : m.Ready (.migrate c e e' cpu')) (x : EcId) :
    x ≠ e ∧ x ≠ e' ∧ Moved X m (m.clone X c e e' cpu') x ∨
    x = e ∧ (m.clone X c e e' cpu').stored X e = X.start ∧
      ((m.clone X c e e' cpu').content X e = m.content X e ∨ (m.clone X c e e' cpu').content X e = X.start) ∨
    x = e' ∧ (m.clone X c e e' cpu').stored X e' = (m.clone X c e e' cpu').content X e' ∧
      (m.clone X c e e' cpu').content X e' =
        if m.ownsHere c e ∧ (m.ec e).fpu = none then X.start else m.content X e := by
  obtain ⟨hk, ht, hc, hn, ha⟩ := r
  have hne : e' ≠ e := by rintro rfl; simp [ht] at ha
  have hv : m.isVcpu e = false := by simp [isVcpu, ht]
  have here := fun c => (h.here c).1
  have owned := fun c e h' => (h.owned c e h').1
  have hst : (m.clone X c e e' cpu').stored X x =
      if x = e then X.start
      else if x = e' then if m.ownsHere c e ∧ (m.ec e).fpu.isSome then (m.core c).live else m.stored X e
      else m.stored X x := by
    rw [Machine.stored, clone_ec X m c e e' cpu' hne hv]
    split
    · rfl
    · split
      · cases hf : (m.ec e).fpu <;> cases ho : m.ownsHere c e <;> simp [Machine.stored, hf]
      · rfl
  have hec := clone_ec X m c e e' cpu' hne hv
  have hco := clone_core X m c e e' cpu'
  by_cases he : x = e
  · subst he
    refine .inr (.inl ⟨rfl, by simpa using hst, ?_⟩)
    simp only [Machine.content, inRegs, clone_lazy, hst, hec, hco, if_true]
    grind
  · by_cases he' : x = e'
    · subst he'
      have hout : (m.clone X c e x cpu').inRegs x = false := by
        simp only [inRegs, clone_lazy, hco, hec]
        grind
      refine .inr (.inr ⟨rfl, (content_stored hout).symm, ?_⟩)
      rw [content_stored hout, hst, if_neg he, if_pos rfl]
      simp only [Machine.content, inRegs, ownsHere]
      cases hf : (m.ec e).fpu <;> grind [Machine.stored]
    · refine .inl ⟨he, he', ?_⟩
      constructor <;> simp only [Machine.content, inRegs, clone_lazy, hst, hec, hco, if_neg he, if_neg he'] <;> grind

theorem down_stored {c : κ} {power : ρ} (e : EcId) : (down m X c power).stored X e =
    if (m.core c).owner = some e then (m.core c).live else m.stored X e := by
  rw [down, setCore_stored, Machine.stored, flushFpu_ec]
  split <;> simp [Machine.stored]

theorem down_core {c : κ} {power : ρ} (c' : κ) : (down m X c power).core c' = if c' = c then
    { m.core c with
      live := power, ts := true, hzd := (m.core c).owner.isNone && (m.core c).hzd, owner := none }
    else m.core c' := by
  by_cases hc : c' = c <;> simp [down, flushFpu_core, hc]

theorem down_cpu {c : κ} {power : ρ} (e : EcId) : ((down m X c power).ec e).cpu = (m.ec e).cpu := by
  simp only [down, setCore_ec, flushFpu_ec]
  split <;> rfl

theorem moved_down {c : κ} {power : ρ} (h : Order m) (hz : m.lazy = false → Eagerly m) (e : EcId)
    (hn : m.lazy = true ∨ (m.core c).current ≠ e) : Moved X m (down m X c power) e := by
  have owned := fun c e h' => (h.owned c e h').2
  have ho : m.lazy = false → (m.core c).owner ≠ some e := fun hl ho => by
    rcases hn with h' | h'
    · simp [hl] at h'
    · exact h' ((hz hl).owner c e ho)
  constructor <;> simp only [Machine.content, inRegs, down_stored, down_cpu, down_core, down_lazy] <;> grind

theorem down_current {c : κ} {power : ρ} (h : Order m) (hl : m.lazy = false) :
    (down m X c power).content X (m.core c).current = power ∧
      ((down m X c power).stored X (m.core c).current = m.stored X (m.core c).current ∨
        (down m X c power).stored X (m.core c).current = m.content X (m.core c).current) := by
  have here := (h.here c).2
  simp only [Machine.content, inRegs, down_stored, down_cpu, down_core, down_lazy, hl]
  grind

end Machine

end Tukija.Fpu
