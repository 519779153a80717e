import Tukija.Gtlb.Machine

/-! A guest uses only what the nested page tables of its own domain have or had, and what they have no
longer only for as long as the change is on its way, or with the CPU in `gtlb`. -/
namespace Tukija.Gtlb

open Machine
open Tukija.Tlb (PdId Life)

section
variable {κ V β τ : Type} {m : Machine κ V β τ}

section
variable (p q : PdId) (f : Pd κ β τ → Pd κ β τ) (c : κ) (b : β)

@[simp] theorem setPd_life : ((m.setPd p f).pd q).life = if q = p then (f (m.pd p)).life else (m.pd q).life := by
  simp only [setPd, Function.update_apply, apply_ite Pd.life]

@[simp] theorem setPd_root : ((m.setPd p f).pd q).root = if q = p then (f (m.pd p)).root else (m.pd q).root := by
  simp only [setPd, Function.update_apply, apply_ite Pd.root]

@[simp] theorem setPd_table :
    ((m.setPd p f).pd q).table b = if q = p then (f (m.pd p)).table b else (m.pd q).table b := by
  simp only [setPd, Function.update_apply, apply_ite Pd.table, ite_apply]

@[simp] theorem setPd_cpus : ((m.setPd p f).pd q).cpus c = if q = p then (f (m.pd p)).cpus c else (m.pd q).cpus c := by
  simp only [setPd, Function.update_apply, apply_ite Pd.cpus, ite_apply]

@[simp] theorem setPd_gtlb : ((m.setPd p f).pd q).gtlb c = if q = p then (f (m.pd p)).gtlb c else (m.pd q).gtlb c := by
  simp only [setPd, Function.update_apply, apply_ite Pd.gtlb, ite_apply]

@[simp] theorem setPd_dirty :
    ((m.setPd p f).pd q).dirty b = if q = p then (f (m.pd p)).dirty b else (m.pd q).dirty b := by
  simp only [setPd, Function.update_apply, apply_ite Pd.dirty, ite_apply]

@[simp] theorem setPd_seen : ((m.setPd p f).pd q).seen c = if q = p then (f (m.pd p)).seen c else (m.pd q).seen c := by
  simp only [setPd, Function.update_apply, apply_ite Pd.seen, ite_apply]

@[simp] theorem setPd_core : (m.setPd p f).core = m.core := rfl
@[simp] theorem setPd_vcpu : (m.setPd p f).vcpu = m.vcpu := rfl

end

section
variable [DecidableEq V] (v w : V) (f : Vcpu κ β τ → Vcpu κ β τ) (b : β)

@[simp] theorem setVcpu_pd : ((m.setVcpu v f).vcpu w).pd = if w = v then (f (m.vcpu v)).pd else (m.vcpu w).pd := by
  simp only [setVcpu, Function.update_apply, apply_ite Vcpu.pd]

@[simp] theorem setVcpu_cpu : ((m.setVcpu v f).vcpu w).cpu = if w = v then (f (m.vcpu v)).cpu else (m.vcpu w).cpu := by
  simp only [setVcpu, Function.update_apply, apply_ite Vcpu.cpu]

@[simp] theorem setVcpu_nested :
    ((m.setVcpu v f).vcpu w).nested = if w = v then (f (m.vcpu v)).nested else (m.vcpu w).nested := by
  simp only [setVcpu, Function.update_apply, apply_ite Vcpu.nested]

@[simp] theorem setVcpu_shadow :
    ((m.setVcpu v f).vcpu w).shadow b = if w = v then (f (m.vcpu v)).shadow b else (m.vcpu w).shadow b := by
  simp only [setVcpu, Function.update_apply, apply_ite Vcpu.shadow, ite_apply]

@[simp] theorem setVcpu_core : (m.setVcpu v f).core = m.core := rfl
@[simp] theorem setVcpu_pds : (m.setVcpu v f).pd = m.pd := rfl
@[simp] theorem setVcpu_vpids : (m.setVcpu v f).vpids = m.vpids := rfl

end

section
variable [DecidableEq κ] (c c' : κ) (f : Core V β τ → Core V β τ)

@[simp] theorem setCore_core : (m.setCore c f).core c' = if c' = c then f (m.core c) else m.core c' := by
  simp [setCore, Function.update_apply]

@[simp] theorem setCore_pd : (m.setCore c f).pd = m.pd := rfl
@[simp] theorem setCore_vcpu : (m.setCore c f).vcpu = m.vcpu := rfl

end

section
variable [DecidableEq κ] [DecidableEq V] {c : κ} {v : V} {flush : Bool}

theorem resume_core (c' : κ) : (m.resume c v flush).core c' = if c' = c then
    { m.core c with
      guest := some v, busy := none
      tlb := (m.core c).tlb.filter (m.keeps (m.pd (m.core c).current).root (flush && (m.vcpu v).nested)) }
    else m.core c' := by
  simp only [resume]
  split_ifs <;> simp_all

theorem resume_pd (p : PdId) : (m.resume c v flush).pd p =
    if p = (m.core c).current ∧ (m.vcpu v).nested = true then
      { m.pd p with seen := Function.update (m.pd p).seen c true }
    else m.pd p := by
  simp only [resume]
  split_ifs <;> simp_all [setPd]

theorem resume_vcpu (w : V) : (m.resume c v flush).vcpu w =
    if w = v ∧ (m.vcpu v).nested = false ∧ flush = true then { m.vcpu w with shadow := fun _ => none }
    else m.vcpu w := by
  simp only [resume]
  split_ifs <;> simp_all [setVcpu]

theorem resume_who (w : V) : ((m.resume c v flush).vcpu w).pd = (m.vcpu w).pd ∧
    ((m.resume c v flush).vcpu w).cpu = (m.vcpu w).cpu ∧ ((m.resume c v flush).vcpu w).nested = (m.vcpu w).nested := by
  rw [resume_vcpu]
  split <;> exact ⟨rfl, rfl, rfl⟩

theorem resume_shadow (w : V) (b : β) : ((m.resume c v flush).vcpu w).shadow b =
    if w = v ∧ (m.vcpu v).nested = false ∧ flush = true then none else (m.vcpu w).shadow b := by
  rw [resume_vcpu]
  split <;> rfl

theorem resume_mem (p : PdId) : ((m.resume c v flush).pd p).life = (m.pd p).life ∧
    ((m.resume c v flush).pd p).root = (m.pd p).root ∧ ((m.resume c v flush).pd p).table = (m.pd p).table ∧
    ((m.resume c v flush).pd p).cpus = (m.pd p).cpus ∧ ((m.resume c v flush).pd p).gtlb = (m.pd p).gtlb ∧
    ((m.resume c v flush).pd p).dirty = (m.pd p).dirty := by
  rw [resume_pd]
  split <;> exact ⟨rfl, rfl, rfl, rfl, rfl, rfl⟩

theorem resume_seen (p : PdId) (c' : κ) : ((m.resume c v flush).pd p).seen c' =
    ((m.pd p).seen c' || decide (p = (m.core c).current ∧ (m.vcpu v).nested = true ∧ c' = c)) := by
  rw [resume_pd]
  split
  · next h => by_cases hc : c' = c <;> simp [hc, h]
  · next h => simp_all

theorem resume_vpids : (m.resume c v flush).vpids = m.vpids := by
  simp only [resume]
  split_ifs <;> rfl

end

end

section
variable {κ V β τ : Type}

/-- `v` is a vCPU as its domain has them on `c`. -/
structure Fits (way : PdId → κ → Option V) (m : Machine κ V β τ) (c : κ) (v : V) : Prop where
  nested : way (m.vcpu v).pd c = none → (m.vcpu v).nested = true
  shadow : ∀ w, way (m.vcpu v).pd c = some w → v = w ∧ (m.vcpu v).nested = false ∧ m.vpids = false

/-- CPUs, domains and vCPUs: who runs where, on which tables. -/
structure Order (way : PdId → κ → Option V) (m : Machine κ V β τ) : Prop where
  here : ∀ c, (m.pd (m.core c).current).life = .alive ∧ (m.pd (m.core c).current).cpus c = true
  guest : ∀ c v, (m.core c).guest = some v →
    (m.vcpu v).cpu = c ∧ (m.vcpu v).pd = (m.core c).current ∧ Fits way m c v ∧
      ((m.vcpu v).nested = true → (m.pd (m.core c).current).seen c = true)
  busy : ∀ c v b, (m.core c).busy = some (v, b) →
    (m.core c).guest = none ∧ (m.vcpu v).cpu = c ∧ (m.vcpu v).pd = (m.core c).current ∧ Fits way m c v ∧
      (b = false → (m.vcpu v).nested = true → (m.pd (m.core c).current).seen c = true)
  distinct : ∀ p q, (m.pd p).life = .alive → (m.pd q).life = .alive → (m.pd p).root = (m.pd q).root → p = q
  unseen : ∀ p c, (m.pd p).life = .alive → way p c = none → (m.pd p).seen c = false →
    (m.pd p).gtlb c = true ∨ ∃ v, (m.core c).busy = some (v, true) ∧ (m.vcpu v).pd = p

/-- What is under the root of a living domain's tables, where guests have been entered under them, is from
these tables. -/
structure Tagged (way : PdId → κ → Option V) (m : Machine κ V β τ) : Prop where
  known : ∀ c, ∀ x ∈ (m.core c).tlb, (m.pd x.src).life ≠ .fresh ∧
    ((m.pd x.src).life = .alive → (m.pd x.src).cpus c = true)
  vcpu : ∀ c, ∀ x ∈ (m.core c).tlb, ∀ v, x.tag = .vcpu v → x.src = (m.vcpu v).pd
  root : ∀ c, ∀ x ∈ (m.core c).tlb, ∀ r, x.tag = .root r → (m.pd x.src).life = .alive → r = (m.pd x.src).root
  own : ∀ c p, (m.pd p).life = .alive → way p c = none → (m.pd p).seen c = true →
    ∀ x ∈ (m.core c).tlb, x.tag = .root (m.pd p).root → x.src = p
  shadow : ∀ v b t, (m.vcpu v).shadow b = some t → (m.pd (m.vcpu v).pd).life ≠ .fresh ∧
    ((m.pd (m.vcpu v).pd).life = .alive → (m.pd (m.vcpu v).pd).cpus (m.vcpu v).cpu = true)

/-- The tables of `p` have `t` for the page, or the change to the page is still on its way. -/
def Machine.Backed (m : Machine κ V β τ) (p : PdId) (page : β) (t : τ) : Prop :=
  (m.pd p).table page = some t ∨ (m.pd p).dirty page = true

/-- What may be used without another flush is backed, or `gtlb` has the CPU. -/
structure Fresh (way : PdId → κ → Option V) (m : Machine κ V β τ) : Prop where
  nested : ∀ c, ∀ x ∈ (m.core c).tlb, (m.pd x.src).life = .alive → way x.src c = none → ∀ r, x.tag = .root r →
    m.Backed x.src x.page x.trans ∨ (m.pd x.src).gtlb c = true ∨
      ∃ v, (m.core c).busy = some (v, true) ∧ (m.vcpu v).pd = x.src
  shadow : ∀ v b t, (m.vcpu v).shadow b = some t → (m.pd (m.vcpu v).pd).life = .alive →
    way (m.vcpu v).pd (m.vcpu v).cpu = some v →
    m.Backed (m.vcpu v).pd b t ∨ (m.pd (m.vcpu v).pd).gtlb (m.vcpu v).cpu = true ∨
      (m.core (m.vcpu v).cpu).busy = some (v, true)
  linear : ∀ c v, (m.core c).guest = some v → (m.vcpu v).nested = false → ∀ x ∈ (m.core c).tlb, x.tag = .vcpu v →
    m.Backed x.src x.page x.trans ∨ (m.pd x.src).gtlb c = true

end

section
variable {κ V β τ : Type} {way : PdId → κ → Option V} {m : Machine κ V β τ} {c : κ} {v : V} {p : PdId}

/-- Changes to a domain that leave it alive where it is, and take it from no CPU. -/
structure Grows (x y : Pd κ β τ) : Prop where
  life : y.life = x.life
  root : y.root = x.root
  cpus : ∀ c, x.cpus c = true → y.cpus c = true
  gtlb : ∀ c, x.gtlb c = true → y.gtlb c = true
  seen : ∀ c, y.seen c = x.seen c

theorem Fits.way_none (h : Fits way m c v) (hn : (m.vcpu v).nested = true) : way (m.vcpu v).pd c = none := by
  cases hw : way (m.vcpu v).pd c with
  | none => rfl
  | some w => simp [(h.shadow w hw).2.1] at hn

theorem Fits.no_vpids (h : Fits way m c v) (hn : (m.vcpu v).nested = false) : m.vpids = false := by
  cases hw : way (m.vcpu v).pd c with
  | none => simp [h.nested hw] at hn
  | some w => exact (h.shadow w hw).2.2

theorem Fits.way_some (h : Fits way m c v) (hn : (m.vcpu v).nested = false) : way (m.vcpu v).pd c = some v := by
  cases hw : way (m.vcpu v).pd c with
  | none => simp [h.nested hw] at hn
  | some w => rw [(h.shadow w hw).1]

theorem Fits.setPd {f : Pd κ β τ → Pd κ β τ} (h : Fits way m c v) : Fits way (m.setPd p f) c v := ⟨h.nested, h.shadow⟩

theorem Order.grows {f : Pd κ β τ → Pd κ β τ} (h : Order way m) (g : Grows (m.pd p) (f (m.pd p))) :
    Order way (m.setPd p f) := by
  obtain ⟨here, guest, busy, distinct, unseen⟩ := h
  obtain ⟨life, root, cpus, gtlb, seen⟩ := g
  have fits : ∀ c v, Fits way m c v → Fits way (m.setPd p f) c v := fun _ _ => Fits.setPd
  constructor <;>
    simp only [setPd_life, setPd_root, setPd_cpus, setPd_gtlb, setPd_seen, setPd_core, setPd_vcpu] <;> grind

theorem Tagged.grows {f : Pd κ β τ → Pd κ β τ} (t : Tagged way m) (g : Grows (m.pd p) (f (m.pd p))) :
    Tagged way (m.setPd p f) := by
  obtain ⟨known, vcpu, root, own, shadow⟩ := t
  obtain ⟨life, hroot, cpus, gtlb, seen⟩ := g
  constructor <;> simp only [setPd_life, setPd_root, setPd_cpus, setPd_seen, setPd_core, setPd_vcpu] <;> grind

theorem Fresh.grows {f : Pd κ β τ → Pd κ β τ} (t : Tagged way m) (h : Order way m) (n : Fresh way m)
    (g : Grows (m.pd p) (f (m.pd p)))
    (hb : ∀ page t, m.Backed p page t → ((f (m.pd p)).table page = some t ∨ (f (m.pd p)).dirty page = true) ∨
      ∀ c, (m.pd p).cpus c = true → (f (m.pd p)).gtlb c = true) : Fresh way (m.setPd p f) := by
  have here := h.here
  have guest := h.guest
  have known := t.known
  have cpus := t.shadow
  have tags := t.vcpu
  obtain ⟨nested, shadow, linear⟩ := n
  obtain ⟨life, hroot, -, gtlb, seen⟩ := g
  constructor <;>
    simp only [Machine.Backed, setPd_life, setPd_table, setPd_dirty, setPd_gtlb, setPd_core, setPd_vcpu] at * <;> grind

variable [DecidableEq κ] [DecidableEq V] [DecidableEq β]

omit [DecidableEq V] [DecidableEq β] in
theorem Order.setCore {f : Core V β τ → Core V β τ} (h : Order way m)
    (hcur : (m.pd (f (m.core c)).current).life = .alive ∧ (m.pd (f (m.core c)).current).cpus c = true)
    (hsame : (f (m.core c)).current = (m.core c).current ∨ (m.core c).guest = none ∧ (m.core c).busy = none)
    (hguest : (f (m.core c)).guest = none ∨ (f (m.core c)).guest = (m.core c).guest)
    (hbusy : (f (m.core c)).busy = (m.core c).busy) : Order way (m.setCore c f) := by
  obtain ⟨here, guest, busy, distinct, unseen⟩ := h
  have fits : ∀ c' v, Fits way m c' v → Fits way (m.setCore c f) c' v := fun _ _ h => ⟨h.nested, h.shadow⟩
  constructor <;> simp only [setCore_core, setCore_pd, setCore_vcpu] <;> grind

omit [DecidableEq V] [DecidableEq β] in
theorem Tagged.setCore {f : Core V β τ → Core V β τ} (t : Tagged way m)
    (htlb : ∀ x ∈ (f (m.core c)).tlb, x ∈ (m.core c).tlb) : Tagged way (m.setCore c f) := by
  obtain ⟨known, vcpu, root, own, shadow⟩ := t
  constructor <;> simp only [setCore_core, setCore_pd, setCore_vcpu] <;> grind

omit [DecidableEq V] [DecidableEq β] in
theorem Fresh.setCore {f : Core V β τ → Core V β τ} (n : Fresh way m)
    (htlb : ∀ x ∈ (f (m.core c)).tlb, x ∈ (m.core c).tlb)
    (hguest : (f (m.core c)).guest = none ∨ (f (m.core c)).guest = (m.core c).guest)
    (hbusy : (f (m.core c)).busy = (m.core c).busy) : Fresh way (m.setCore c f) := by
  obtain ⟨nested, shadow, linear⟩ := n
  constructor <;> simp only [Machine.Backed, setCore_core, setCore_pd, setCore_vcpu] at * <;> grind

theorem order_create {root : Nat} (h : Order way m) (r : m.Ready (.create p root)) :
    Order way (m.step (.create p root)) := by
  obtain ⟨here, guest, busy, distinct, unseen⟩ := h
  obtain ⟨hp, hroot⟩ := r
  rw [step]
  constructor <;>
    simp only [setPd_life, setPd_root, setPd_cpus, setPd_gtlb, setPd_seen, setPd_core, setPd_vcpu] <;>
    grind [Fits.setPd]

theorem tagged_create {root : Nat} (t : Tagged way m) (r : m.Ready (.create p root)) :
    Tagged way (m.step (.create p root)) := by
  obtain ⟨known, vcpu, hroot, own, shadow⟩ := t
  obtain ⟨hp, -⟩ := r
  rw [step]
  constructor <;> simp only [setPd_life, setPd_root, setPd_cpus, setPd_seen, setPd_core, setPd_vcpu] <;> grind

theorem fresh_create {root : Nat} (t : Tagged way m) (n : Fresh way m) (r : m.Ready (.create p root)) :
    Fresh way (m.step (.create p root)) := by
  have known := t.known
  have from' := t.shadow
  obtain ⟨nested, shadow, linear⟩ := n
  obtain ⟨hp, -⟩ := r
  rw [step]
  constructor <;>
    simp only [Machine.Backed, setPd_life, setPd_table, setPd_dirty, setPd_gtlb, setPd_core, setPd_vcpu] at * <;> grind

theorem order_destroy (h : Order way m) (r : m.Ready (.destroy p)) : Order way (m.step (.destroy p)) := by
  obtain ⟨here, guest, busy, distinct, unseen⟩ := h
  obtain ⟨hp, hcur⟩ := r
  rw [step]
  constructor <;>
    simp only [setPd_life, setPd_root, setPd_cpus, setPd_gtlb, setPd_seen, setPd_core, setPd_vcpu] <;>
    grind [Fits.setPd]

theorem tagged_destroy (t : Tagged way m) : Tagged way (m.step (.destroy p)) := by
  obtain ⟨known, vcpu, hroot, own, shadow⟩ := t
  rw [step]
  constructor <;> simp only [setPd_life, setPd_root, setPd_cpus, setPd_seen, setPd_core, setPd_vcpu] <;> grind

theorem fresh_destroy (n : Fresh way m) : Fresh way (m.step (.destroy p)) := by
  obtain ⟨nested, shadow, linear⟩ := n
  rw [step]
  constructor <;>
    simp only [Machine.Backed, setPd_life, setPd_table, setPd_dirty, setPd_gtlb, setPd_core, setPd_vcpu] at * <;> grind

theorem order_nested {on : Bool} (h : Order way m) (r : m.Ready (.nested c v on)) :
    Order way (m.step (.nested c v on)) := by
  obtain ⟨here, guest, busy, distinct, unseen⟩ := h
  obtain ⟨hg, hb, hcpu, -⟩ := r
  have fits : ∀ c' w, w ≠ v → Fits way m c' w → Fits way (m.step (.nested c v on)) c' w := fun c' w hw h => by
    refine ⟨?_, ?_⟩ <;> simp only [step, setVcpu_pd, setVcpu_nested, setVcpu_vpids, if_neg hw]
    · exact h.nested
    · exact h.shadow
  rw [step] at fits ⊢
  constructor <;> simp only [setVcpu_pd, setVcpu_cpu, setVcpu_nested, setVcpu_core, setVcpu_pds] <;> grind

theorem order_miss {b : β} {t' : τ} (h : Order way m) : Order way (m.step (.miss c v b t')) := by
  obtain ⟨here, guest, busy, distinct, unseen⟩ := h
  have fits : ∀ c' w, Fits way m c' w → Fits way (m.step (.miss c v b t')) c' w := fun c' w h => by
    refine ⟨?_, ?_⟩ <;> simp only [step, setVcpu_pd, setVcpu_nested, setVcpu_vpids]
    · grind [h.nested]
    · grind [h.shadow]
  rw [step] at fits ⊢
  constructor <;> simp only [setVcpu_pd, setVcpu_cpu, setVcpu_nested, setVcpu_core, setVcpu_pds] <;> grind

theorem tagged_miss {b : β} {t' : τ} (h : Order way m) (t : Tagged way m) (r : m.Ready (.miss c v b t')) :
    Tagged way (m.step (.miss c v b t')) := by
  have here := h.here c
  obtain ⟨known, vcpu, hroot, own, shadow⟩ := t
  obtain ⟨⟨-, -, hcpu, hpd⟩, -⟩ := r
  rw [step]
  constructor <;>
    simp only [setVcpu_pd, setVcpu_cpu, setVcpu_shadow, setVcpu_core, setVcpu_pds, Function.update_apply] <;> grind

theorem fresh_miss {b : β} {t' : τ} (n : Fresh way m) (r : m.Ready (.miss c v b t')) :
    Fresh way (m.step (.miss c v b t')) := by
  obtain ⟨nested, shadow, linear⟩ := n
  obtain ⟨⟨hg, hb, hcpu, hpd⟩, ht⟩ := r
  rw [step]
  constructor <;>
    simp only [Machine.Backed, setVcpu_pd, setVcpu_cpu, setVcpu_nested, setVcpu_shadow, setVcpu_core, setVcpu_pds,
      Function.update_apply] at * <;> grind

theorem tagged_nested {on : Bool} (t : Tagged way m) : Tagged way (m.step (.nested c v on)) := by
  obtain ⟨known, vcpu, hroot, own, shadow⟩ := t
  rw [step]
  constructor <;> simp only [setVcpu_pd, setVcpu_cpu, setVcpu_shadow, setVcpu_core, setVcpu_pds] <;> grind

theorem fresh_nested {on : Bool} (h : Order way m) (n : Fresh way m) (r : m.Ready (.nested c v on)) :
    Fresh way (m.step (.nested c v on)) := by
  have guest := h.guest
  obtain ⟨nested, shadow, linear⟩ := n
  obtain ⟨hg, hb, hcpu, hpd⟩ := r
  rw [step]
  constructor <;>
    simp only [Machine.Backed, setVcpu_pd, setVcpu_cpu, setVcpu_nested, setVcpu_shadow, setVcpu_core, setVcpu_pds] at * <;>
    grind

omit [DecidableEq V] [DecidableEq β] in
theorem order_check (h : Order way m) (r : m.Ready (.check c v)) (u : m.Uniform way (.check c v)) :
    Order way (m.check c v) := by
  have fits : Fits way m c v := by
    simp only [Uniform] at u
    refine ⟨fun hn => ?_, fun w hw => ?_⟩
    · rwa [hn] at u
    · rwa [hw] at u
  have keep : ∀ c' w, Fits way m c' w → Fits way (m.check c v) c' w := fun _ _ h => ⟨h.nested, h.shadow⟩
  obtain ⟨here, guest, busy, distinct, unseen⟩ := h
  obtain ⟨hg, hb, hcpu, hpd⟩ := r
  -- where the bit is clear, a guest has been entered under these tables
  have seen : (m.pd (m.core c).current).gtlb c = false → (m.vcpu v).nested = true →
      (m.pd (m.core c).current).seen c = true := fun hbit hn => by
    have := unseen _ c (here c).1 (hpd ▸ fits.way_none hn)
    grind
  rw [check] at keep ⊢
  constructor <;>
    simp only [setCore_core, setCore_pd, setCore_vcpu, setPd_life, setPd_root, setPd_cpus, setPd_gtlb, setPd_seen,
      setPd_core, setPd_vcpu, Function.update_apply] <;> grind

omit [DecidableEq V] [DecidableEq β] in
theorem tagged_check (t : Tagged way m) : Tagged way (m.check c v) := by
  obtain ⟨known, vcpu, hroot, own, shadow⟩ := t
  rw [check]
  constructor <;>
    simp only [setCore_core, setCore_pd, setCore_vcpu, setPd_life, setPd_root, setPd_cpus, setPd_seen, setPd_core,
      setPd_vcpu] <;> grind

omit [DecidableEq V] [DecidableEq β] in
theorem fresh_check (h : Order way m) (n : Fresh way m) (r : m.Ready (.check c v)) (u : m.Uniform way (.check c v)) :
    Fresh way (m.check c v) := by
  have guest := h.guest
  have alone : ∀ w, way (m.vcpu v).pd c = some w → v = w := fun w hw => by
    rw [Uniform, hw] at u
    exact u.1
  obtain ⟨nested, shadow, linear⟩ := n
  obtain ⟨hg, hb, hcpu, hpd⟩ := r
  rw [check]
  constructor <;>
    simp only [Machine.Backed, setCore_core, setCore_pd, setCore_vcpu, setPd_life, setPd_table, setPd_dirty,
      setPd_gtlb, setPd_core, setPd_vcpu, Function.update_apply] at * <;> grind

omit [DecidableEq β] in
theorem order_resume {b : Bool} (h : Order way m) (r : m.Ready (.resume c v b)) : Order way (m.resume c v b) := by
  have fits : ∀ c' w, Fits way m c' w → Fits way (m.resume c v b) c' w := fun c' w h => by
    refine ⟨?_, ?_⟩ <;> rw [(resume_who w).1, (resume_who w).2.2]
    · exact h.nested
    · rw [resume_vpids]
      exact h.shadow
  obtain ⟨here, guest, busy, distinct, unseen⟩ := h
  have hr := busy c v b r
  have hnested := hr.2.2.2.1.nested
  have one : ∀ w b', (m.core c).busy = some (w, b') → w = v ∧ b' = b := fun w b' hw => by
    simpa [eq_comm] using hw.symm.trans r
  constructor <;>
    simp only [resume_core, resume_mem, resume_seen, resume_who] <;> grind

omit [DecidableEq κ] [DecidableEq V] [DecidableEq β] in
theorem keeps_root {root r : Nat} {flush : Bool} {x : Entry V β τ} (hx : x.tag = .root r) :
    m.keeps root flush x = !(flush && r == root) := by
  rw [keeps, hx]

omit [DecidableEq κ] [DecidableEq V] [DecidableEq β] in
theorem keeps_vcpu {root : Nat} {flush : Bool} {x : Entry V β τ} {w : V} (hx : x.tag = .vcpu w) :
    m.keeps root flush x = m.vpids := by
  rw [keeps, hx]

omit [DecidableEq β] in
theorem tagged_resume {b : Bool} (h : Order way m) (t : Tagged way m) (r : m.Ready (.resume c v b)) :
    Tagged way (m.resume c v b) := by
  have hr := h.busy c v b r
  have one : ∀ w b', (m.core c).busy = some (w, b') → w = v ∧ b' = b := fun w b' hw => by
    simpa [eq_comm] using hw.symm.trans r
  have flushed := @keeps_root κ V β τ m (m.pd (m.core c).current).root (m.pd (m.core c).current).root
    (b && (m.vcpu v).nested)
  obtain ⟨known, vcpu, hroot, own, shadow⟩ := t
  constructor <;>
    simp only [resume_core, resume_mem, resume_seen, resume_who, resume_shadow] <;> grind

omit [DecidableEq β] in
theorem fresh_resume {b : Bool} (h : Order way m) (t : Tagged way m) (n : Fresh way m)
    (r : m.Ready (.resume c v b)) : Fresh way (m.resume c v b) := by
  obtain ⟨hg, hcpu, hpd, fits, hseen⟩ := h.busy c v b r
  have one : ∀ w b', (m.core c).busy = some (w, b') → w = v ∧ b' = b := fun w b' hw => by
    simpa [eq_comm] using hw.symm.trans r
  have root := t.root
  obtain ⟨nested, shadow, linear⟩ := n
  refine ⟨?_, ?_, ?_⟩ <;>
    simp only [Machine.Backed, resume_core, resume_mem, resume_who, resume_shadow] at *
  · intro c' x hx ha hw r' htag
    have hkeep := @keeps_root κ V β τ m (m.pd (m.core c).current).root r' (b && (m.vcpu v).nested) x htag
    grind [fits.nested]
  · grind [fits.shadow]
  · intro c' w hw hn x hx htag
    have hkeep := @keeps_vcpu κ V β τ m (m.pd (m.core c).current).root (b && (m.vcpu v).nested) x w htag
    grind [fits.no_vpids]

omit [DecidableEq V] [DecidableEq β] in
theorem tagged_fill {b : β} {t' : τ} (h : Order way m) (t : Tagged way m) (r : m.Ready (.fill c v b t')) :
    Tagged way (m.setCore c fun k => { k with tlb := ⟨m.tag v, (m.vcpu v).pd, b, t'⟩ :: k.tlb }) := by
  have here := h.here c
  have distinct := h.distinct
  obtain ⟨hcpu, hpd, fits, hseen⟩ := h.guest c v r.1
  have htag : m.tag v = if (m.vcpu v).nested = true then .root (m.pd (m.vcpu v).pd).root else .vcpu v := rfl
  obtain ⟨known, vcpu, root, own, shadow⟩ := t
  constructor <;> simp only [setCore_core, setCore_pd, setCore_vcpu] <;> grind

omit [DecidableEq V] [DecidableEq β] in
theorem fresh_fill {b : β} {t' : τ} (h : Order way m) (n : Fresh way m) (r : m.Ready (.fill c v b t')) :
    Fresh way (m.setCore c fun k => { k with tlb := ⟨m.tag v, (m.vcpu v).pd, b, t'⟩ :: k.tlb }) := by
  have here := h.here c
  obtain ⟨hcpu, hpd, fits, hseen⟩ := h.guest c v r.1
  have hb : (m.core c).busy = none := by
    by_contra hb
    obtain ⟨⟨w, b'⟩, hw⟩ := Option.ne_none_iff_exists'.mp hb
    simpa [(h.busy c w b' hw).1] using r.1
  have htag : m.tag v = if (m.vcpu v).nested = true then .root (m.pd (m.vcpu v).pd).root else .vcpu v := rfl
  have walked := r.2
  obtain ⟨nested, shadow, linear⟩ := n
  constructor <;> simp only [Machine.Backed, setCore_core, setCore_pd, setCore_vcpu] at * <;> grind [fits.way_some]

theorem step_sound {a : Act κ V β τ} (h : Order way m) (t : Tagged way m) (n : Fresh way m) (r : m.Ready a)
    (u : m.Uniform way a) : Order way (m.step a) ∧ Tagged way (m.step a) ∧ Fresh way (m.step a) := by
  have grown : ∀ {p : PdId} {f : Pd κ β τ → Pd κ β τ}, Grows (m.pd p) (f (m.pd p)) →
      (∀ page t, m.Backed p page t → ((f (m.pd p)).table page = some t ∨ (f (m.pd p)).dirty page = true) ∨
        ∀ c, (m.pd p).cpus c = true → (f (m.pd p)).gtlb c = true) →
      Order way (m.setPd p f) ∧ Tagged way (m.setPd p f) ∧ Fresh way (m.setPd p f) :=
    fun g hb => ⟨h.grows g, t.grows g, n.grows t h g hb⟩
  cases a with
  | create p root => exact ⟨order_create h r, tagged_create t r, fresh_create t n r⟩
  | init p c =>
    rw [step]
    exact grown ⟨rfl, rfl, fun c' hc => by simp [Function.update_apply, hc], fun _ hc => hc, fun _ => rfl⟩
      fun _ _ hb => .inl hb
  | destroy p => exact ⟨order_destroy h r, tagged_destroy t, fresh_destroy n⟩
  | map p page t' =>
    rw [step]
    refine grown ⟨rfl, rfl, fun _ hc => hc, fun _ hc => hc, fun _ => rfl⟩ fun b x hb => .inl ?_
    have hn := r.2
    simp only [Backed, Function.update_apply] at hb ⊢
    grind
  | write p page t' =>
    rw [step]
    refine grown ⟨rfl, rfl, fun _ hc => hc, fun _ hc => hc, fun _ => rfl⟩ fun b x hb => .inl ?_
    simp only [Backed, Function.update_apply] at hb ⊢
    grind
  | merge p page =>
    rw [step]
    exact grown ⟨rfl, rfl, fun _ hc => hc, fun _ hc => by simp [hc], fun _ => rfl⟩
      fun _ _ _ => .inr fun c hc => by simp [hc]
  | switch c p =>
    rw [step]
    exact ⟨h.setCore r.2.2 (.inr ⟨r.1, r.2.1⟩) (.inr rfl) rfl, t.setCore fun _ hx => hx,
      n.setCore (fun _ hx => hx) (.inr rfl) rfl⟩
  | nested c v on => exact ⟨order_nested h r, tagged_nested t, fresh_nested h n r⟩
  | miss c v b t' => exact ⟨order_miss h, tagged_miss h t r, fresh_miss n r⟩
  | check c v => exact ⟨order_check h r u, tagged_check t, fresh_check h n r u⟩
  | resume c v b => exact ⟨order_resume h r, tagged_resume h t r, fresh_resume h t n r⟩
  | fill c v b t' =>
    rw [step]
    exact ⟨h.setCore (h.here c) (.inl rfl) (.inr rfl) rfl, tagged_fill h t r, fresh_fill h n r⟩
  | evict c keep =>
    rw [step]
    have hkeep := fun x (hx : x ∈ (m.core c).tlb.filter keep) => (List.mem_filter.mp hx).1
    exact ⟨h.setCore (h.here c) (.inl rfl) (.inr rfl) rfl, t.setCore hkeep, n.setCore hkeep (.inr rfl) rfl⟩
  | exit c =>
    rw [step]
    exact ⟨h.setCore (h.here c) (.inl rfl) (.inl rfl) rfl, t.setCore fun _ hx => hx,
      n.setCore (fun _ hx => hx) (.inl rfl) rfl⟩

variable {m₀ : Machine κ V β τ} {kern : PdId}

omit [DecidableEq κ] [DecidableEq V] [DecidableEq β] in
theorem boot_sound (b : Boot m₀ kern) : Order way m₀ ∧ Tagged way m₀ ∧ Fresh way m₀ := by
  obtain ⟨only, runs, cpus, shadow⟩ := b
  have hk : ∀ p, (m₀.pd p).life = .alive → p = kern := fun p h => by
    by_contra hne
    simp [only p, hne] at h
  refine ⟨⟨fun c => ?_, fun c v h => ?_, fun c v b h => ?_, fun p q hp hq _ => (hk p hp).trans (hk q hq).symm,
    fun p c hp _ _ => .inl (hk p hp ▸ (cpus c).2)⟩, ⟨fun c x hx => ?_, fun c x hx => ?_, fun c x hx => ?_,
    fun c p _ _ _ x hx => ?_, fun v b t h => ?_⟩, ⟨fun c x hx => ?_, fun v b t h => ?_, fun c v h => ?_⟩⟩
  · rw [(runs c).1, only kern, if_pos rfl]
    exact ⟨rfl, (cpus c).1⟩
  · simp [(runs c).2.1] at h
  · simp [(runs c).2.2.1] at h
  all_goals first | simp [(runs c).2.2.2] at hx | simp [shadow] at h | simp [(runs c).2.1] at h

theorem run_sound (b : Boot m₀ kern) (run : Run way m₀ m) : Order way m ∧ Tagged way m ∧ Fresh way m := by
  induction run with
  | refl => exact boot_sound b
  | step _ r u ih => exact step_sound ih.1 ih.2.1 ih.2.2 r u

/-- What the guest that runs on `c` can use. -/
def Machine.Uses (m : Machine κ V β τ) (c : κ) (x : Entry V β τ) : Prop :=
  x ∈ (m.core c).tlb ∧ ∃ v, (m.core c).guest = some v ∧ x.tag = m.tag v

/-- `Space_mem::shootdown` on behalf of `p` asks `c` to come to the kernel. -/
def Machine.Asks (m : Machine κ V β τ) (p : PdId) (c : κ) : Prop :=
  (m.pd p).cpus c = true ∧ (m.pd (m.core c).current).gtlb c = true

end

section
variable {κ V β τ : Type} [DecidableEq κ] [DecidableEq V] [DecidableEq β]

def allReady (m : Machine κ V β τ) : List (Act κ V β τ) → Prop
  | [] => True
  | a :: acts => m.Ready a ∧ allReady (m.step a) acts

end

/-- One CPU, one page, for which the only domain has 5, and two vCPUs. -/
def two (nested : Bool → Bool) (vpids : Bool) : Machine Unit Bool Unit Nat :=
  ⟨vpids, fun p => ⟨if p = 0 then .alive else .fresh, 7, fun _ => some 5, fun _ => true, fun _ => true, fun _ => false,
    fun _ => false⟩, fun v => ⟨0, (), nested v, fun _ => none⟩, fun _ => ⟨0, none, none, []⟩⟩

theorem boot_two (nested : Bool → Bool) (vpids : Bool) : Boot (two nested vpids) 0 :=
  ⟨fun _ => rfl, fun _ => ⟨rfl, rfl, rfl, rfl⟩, fun _ => ⟨rfl, rfl⟩, fun _ _ => rfl⟩

/-- `v` enters its guest with or without a flush, and touches the page. -/
def enter (v flush : Bool) : List (Act Unit Bool Unit Nat) := [.check () v, .resume () v flush, .fill () v () 5]

def entered : Machine Unit Bool Unit Nat := (enter true true).foldl step (two (fun _ => true) true)

theorem run_entered : Run (fun _ _ => none) (two (fun _ => true) true) entered :=
  .step (.step (.step .refl (a := .check () true) ⟨rfl, rfl, rfl, rfl⟩ rfl)
    (a := .resume () true true) rfl trivial) (a := .fill () true () 5) ⟨rfl, rfl⟩ trivial

theorem uses_entered : entered.Uses () ⟨.root 7, 0, (), 5⟩ := ⟨List.mem_cons_self, true, rfl, rfl⟩

/-- The guest can use what has been revoked, and nothing will make the CPU flush. -/
def Stale (m : Machine Unit Bool Unit Nat) : Prop :=
  ∃ x, m.Uses () x ∧ (m.pd 0).table x.page = none ∧ (m.pd 0).dirty x.page = false ∧ (m.pd 0).gtlb () = false

def revoke : List (Act Unit Bool Unit Nat) := [.exit (), .write 0 () none, .merge 0 ()]

/-- With two guests on shadow page tables, the entry into the first clears the bit for the second, too. -/
def shadows : List (Act Unit Bool Unit Nat) :=
  [.miss () false () 5] ++ revoke ++ [.check () true, .resume () true true, .exit ()] ++ enter false false

theorem shadows_stale : allReady (two (fun _ => false) false) shadows ∧
    Stale (shadows.foldl step (two (fun _ => false) false)) :=
  ⟨⟨⟨⟨rfl, rfl, rfl, rfl⟩, rfl⟩, trivial, rfl, rfl, ⟨rfl, rfl, rfl, rfl⟩, rfl, trivial, ⟨rfl, rfl, rfl, rfl⟩, rfl,
    ⟨rfl, rfl⟩, trivial⟩, ⟨.vcpu false, 0, (), 5⟩, ⟨List.mem_cons_self, false, rfl, rfl⟩, rfl, rfl, rfl⟩

/-- `Vtlb::flush` leaves alone what the processor has under the VPID. -/
def numbered : List (Act Unit Bool Unit Nat) :=
  [.check () true, .resume () true true, .exit (), .miss () true () 5] ++ enter true false ++ revoke ++
    [.check () true, .resume () true true]

theorem numbered_stale : allReady (two (fun _ => false) true) numbered ∧
    Stale (numbered.foldl step (two (fun _ => false) true)) :=
  ⟨⟨⟨rfl, rfl, rfl, rfl⟩, rfl, trivial, ⟨⟨rfl, rfl, rfl, rfl⟩, rfl⟩, ⟨rfl, rfl, rfl, rfl⟩, rfl, ⟨rfl, rfl⟩, trivial,
    rfl, rfl, ⟨rfl, rfl, rfl, rfl⟩, rfl, trivial⟩,
    ⟨.vcpu true, 0, (), 5⟩, ⟨List.mem_cons_self, true, rfl, rfl⟩, rfl, rfl, rfl⟩

/-- A guest on shadow page tables clears the bit for those on nested ones. -/
def mixed : List (Act Unit Bool Unit Nat) :=
  enter true true ++ revoke ++ [.check () false, .resume () false true, .exit (), .check () true, .resume () true false]

theorem mixed_stale : allReady (two id false) mixed ∧ Stale (mixed.foldl step (two id false)) :=
  ⟨⟨⟨rfl, rfl, rfl, rfl⟩, rfl, ⟨rfl, rfl⟩, trivial, rfl, rfl, ⟨rfl, rfl, rfl, rfl⟩, rfl, trivial,
    ⟨rfl, rfl, rfl, rfl⟩, rfl, trivial⟩,
    ⟨.root 7, 0, (), 5⟩, ⟨List.mem_cons_self, true, rfl, rfl⟩, rfl, rfl, rfl⟩

end Tukija.Gtlb
