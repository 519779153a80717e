import Tukija.Tlb.Machine

/-! What a CPU may find in its TLB for the domain that it runs: only translations of that domain, and,
where `htlb` is clear, only ones that are in its page tables. -/
namespace Tukija.Tlb

open Machine

section
variable {κ β τ : Type} {m : Machine κ β τ}

section
variable (p q : PdId) (f : Pd κ β τ → Pd κ β τ) (c : κ) (b : β)

@[simp, grind =] theorem setPd_life : ((m.setPd p f).pd q).life = if q = p then (f (m.pd p)).life else (m.pd q).life := by
  simp only [setPd, Function.update_apply, apply_ite Pd.life]

@[simp, grind =] theorem setPd_did : ((m.setPd p f).pd q).did = if q = p then (f (m.pd p)).did else (m.pd q).did := by
  simp only [setPd, Function.update_apply, apply_ite Pd.did]

@[simp, grind =] theorem setPd_table :
    ((m.setPd p f).pd q).table b = if q = p then (f (m.pd p)).table b else (m.pd q).table b := by
  simp only [setPd, Function.update_apply, apply_ite Pd.table, ite_apply]

@[simp, grind =] theorem setPd_cpus :
    ((m.setPd p f).pd q).cpus c = if q = p then (f (m.pd p)).cpus c else (m.pd q).cpus c := by
  simp only [setPd, Function.update_apply, apply_ite Pd.cpus, ite_apply]

@[simp, grind =] theorem setPd_htlb :
    ((m.setPd p f).pd q).htlb c = if q = p then (f (m.pd p)).htlb c else (m.pd q).htlb c := by
  simp only [setPd, Function.update_apply, apply_ite Pd.htlb, ite_apply]

@[simp, grind =] theorem setPd_dirty :
    ((m.setPd p f).pd q).dirty b = if q = p then (f (m.pd p)).dirty b else (m.pd q).dirty b := by
  simp only [setPd, Function.update_apply, apply_ite Pd.dirty, ite_apply]

@[simp, grind =] theorem setPd_loose :
    ((m.setPd p f).pd q).loose b = if q = p then (f (m.pd p)).loose b else (m.pd q).loose b := by
  simp only [setPd, Function.update_apply, apply_ite Pd.loose, ite_apply]

@[simp, grind =] theorem setPd_seen :
    ((m.setPd p f).pd q).seen c = if q = p then (f (m.pd p)).seen c else (m.pd q).seen c := by
  simp only [setPd, Function.update_apply, apply_ite Pd.seen, ite_apply]

end

@[simp] theorem setPd_core (p : PdId) (f : Pd κ β τ → Pd κ β τ) : (m.setPd p f).core = m.core := rfl
@[simp] theorem setPd_pcids (p : PdId) (f : Pd κ β τ → Pd κ β τ) : (m.setPd p f).pcids = m.pcids := rfl

variable [DecidableEq κ]

@[simp, grind =] theorem setCore_core (c c' : κ) (f : Core β τ → Core β τ) :
    (m.setCore c f).core c' = if c' = c then f (m.core c) else m.core c' := by
  simp [setCore, Function.update_apply]

@[simp] theorem setCore_pd (c : κ) (f : Core β τ → Core β τ) : (m.setCore c f).pd = m.pd := rfl
@[simp] theorem setCore_pcids (c : κ) (f : Core β τ → Core β τ) : (m.setCore c f).pcids = m.pcids := rfl

variable {c : κ} {p : PdId}

theorem start_flush (h : (m.pd p).htlb c = true) :
    m.start c p = (m.setPd p fun x => { x with htlb := Function.update x.htlb c false }).setCore c fun k =>
      { k with busy := some (p, true) } := if_pos h

theorem start_same (h : (m.pd p).htlb c = false) (hc : (m.core c).current = p) : m.start c p = m := by
  simp [start, h, hc]

theorem start_keep (h : (m.pd p).htlb c = false) (hc : (m.core c).current ≠ p) :
    m.start c p = m.setCore c fun k => { k with busy := some (p, (m.pd p).did == noPcid) } := by
  simp [start, h, hc]

end

/-- CPUs and domains: who runs where, and under which number. -/
structure Order {κ β τ : Type} (m : Machine κ β τ) : Prop where
  rest : ∀ c, (m.core c).busy = none → (m.core c).current = (m.core c).cr3
  runs : ∀ c, (m.pd (m.core c).cr3).life = .alive ∧ (m.pd (m.core c).cr3).cpus c = true
  busy : ∀ c p b, (m.core c).busy = some (p, b) → (m.pd p).life = .alive ∧ (m.pd p).cpus c = true ∧
    (b = false → (m.pd p).did ≠ noPcid ∧ (m.pd p).seen c = true)
  distinct : ∀ p q, (m.pd p).life = .alive → (m.pd q).life = .alive → (m.pd p).did = (m.pd q).did →
    p = q ∨ (m.pd p).did = noPcid
  unseen : ∀ p c, (m.pd p).life = .alive → (m.pd p).seen c = false →
    (m.pd p).htlb c = true ∨ (m.core c).busy = some (p, true)

/-- The entries of the TLBs: those of a living domain are under its number, and what is under the number
of a domain that has been loaded is its own. -/
structure Tagged {κ β τ : Type} (m : Machine κ β τ) : Prop where
  known : ∀ c, ∀ x ∈ (m.core c).tlb, (m.pd x.src).life ≠ .fresh ∧
    ((m.pd x.src).life = .alive → x.pcid = m.pcid x.src ∧ (m.pd x.src).cpus c = true)
  own : ∀ c p, m.pcids = true → (m.pd p).life = .alive → (m.pd p).did ≠ noPcid → (m.pd p).seen c = true →
    ∀ x ∈ (m.core c).tlb, x.pcid = (m.pd p).did → x.src = p
  run : ∀ c, ∀ x ∈ (m.core c).tlb, x.pcid = m.pcid (m.core c).cr3 → x.src = (m.core c).cr3

/-- `x` is what the tables of its domain have, or the change to the page is still on its way. -/
def Machine.Backed {κ β τ : Type} (m : Machine κ β τ) (x : Entry β τ) : Prop :=
  (m.pd x.src).table x.page = some x.trans ∨ (m.pd x.src).dirty x.page = true ∨ (m.pd x.src).loose x.page = true

/-- Entries that may be used again without a flush are backed, or `htlb` has the CPU. -/
def Fresh {κ β τ : Type} (m : Machine κ β τ) : Prop :=
  ∀ c, ∀ x ∈ (m.core c).tlb, (m.pd x.src).life = .alive →
    (m.pcids = true ∧ (m.pd x.src).did ≠ noPcid ∨ (m.core c).cr3 = x.src) →
    m.Backed x ∨ (m.pd x.src).htlb c = true ∨ (m.core c).busy = some (x.src, true)

section
variable {κ β τ : Type} [DecidableEq κ] [DecidableEq β] {m : Machine κ β τ}

/-- Changes to a domain that leave it alive under its number, and take it from no CPU. -/
structure Grows (x y : Pd κ β τ) : Prop where
  life : y.life = x.life
  did : y.did = x.did
  cpus : ∀ c, x.cpus c = true → y.cpus c = true
  htlb : ∀ c, x.htlb c = true → y.htlb c = true
  seen : ∀ c, y.seen c = x.seen c

omit [DecidableEq β] in
theorem Order.setCore (h : Order m) {c : κ} {f : Core β τ → Core β τ} (hcr3 : (f (m.core c)).cr3 = (m.core c).cr3)
    (hbusy : (f (m.core c)).busy = (m.core c).busy)
    (hcur : (m.core c).busy = none → (f (m.core c)).current = (m.core c).current) : Order (m.setCore c f) := by
  obtain ⟨rest, runs, busy, distinct, unseen⟩ := h
  constructor <;> simp only [setCore_pd, setCore_core] <;> grind

omit [DecidableEq κ] [DecidableEq β] in
theorem Order.grows (h : Order m) {p : PdId} {f : Pd κ β τ → Pd κ β τ} (g : Grows (m.pd p) (f (m.pd p))) :
    Order (m.setPd p f) := by
  obtain ⟨rest, runs, busy, distinct, unseen⟩ := h
  obtain ⟨life, did, cpus, htlb, seen⟩ := g
  constructor <;> simp only [setPd_life, setPd_did, setPd_cpus, setPd_htlb, setPd_seen, setPd_core] <;> grind

theorem order_create {p : PdId} {did : Nat} (h : Order m) (r : m.Ready (.create p did)) :
    Order (m.step (.create p did)) := by
  obtain ⟨rest, runs, busy, distinct, unseen⟩ := h
  obtain ⟨hp, hdid⟩ := r
  constructor <;> simp only [step, setPd_life, setPd_did, setPd_cpus, setPd_htlb, setPd_seen, setPd_core] <;> grind

theorem order_destroy {p : PdId} (h : Order m) (r : m.Ready (.destroy p)) : Order (m.step (.destroy p)) := by
  obtain ⟨rest, runs, busy, distinct, unseen⟩ := h
  obtain ⟨hp, hfree⟩ := r
  constructor <;> simp only [step, setPd_life, setPd_did, setPd_cpus, setPd_htlb, setPd_seen, setPd_core] <;> grind

omit [DecidableEq β] in
theorem order_start {c : κ} {p : PdId} (h : Order m) (r : m.Ready (.start c p)) : Order (m.start c p) := by
  have hd := h.unseen p c
  obtain ⟨hidle, hp, hcpu⟩ := r
  cases hh : (m.pd p).htlb c
  · by_cases hc : (m.core c).current = p
    · rwa [start_same hh hc]
    · rw [start_keep hh hc]
      obtain ⟨rest, runs, busy, distinct, unseen⟩ := h
      constructor <;> simp only [setCore_pd, setCore_core] <;> grind
  · rw [start_flush hh]
    obtain ⟨rest, runs, busy, distinct, unseen⟩ := h
    constructor <;> simp only [setCore_pd, setCore_core, setPd_life, setPd_did, setPd_cpus, setPd_htlb, setPd_seen,
      setPd_core, Function.update_apply] <;> grind

omit [DecidableEq β] in
theorem order_load {c : κ} {p : PdId} {b : Bool} (h : Order m) (r : m.Ready (.load c p b)) : Order (m.load c p b) := by
  obtain ⟨rest, runs, busy, distinct, unseen⟩ := h
  obtain ⟨hb, hcur⟩ := r
  constructor <;> simp only [load, setCore_pd, setCore_core, setPd_life, setPd_did, setPd_cpus, setPd_htlb, setPd_seen,
    setPd_core, Function.update_apply] <;> grind

theorem order_step {a : Act κ β τ} (h : Order m) (r : m.Ready a) : Order (m.step a) := by
  cases a with
  | create p did => exact order_create h r
  | init p c =>
    rw [step]
    exact h.grows ⟨rfl, rfl, fun c' hc => by simp [Function.update_apply, hc], fun _ hc => hc, fun _ => rfl⟩
  | destroy p => exact order_destroy h r
  | map p page t =>
    rw [step]
    exact h.grows ⟨rfl, rfl, fun _ hc => hc, fun _ hc => hc, fun _ => rfl⟩
  | write p page t =>
    rw [step]
    exact h.grows ⟨rfl, rfl, fun _ hc => hc, fun _ hc => hc, fun _ => rfl⟩
  | merge p page =>
    rw [step]
    exact h.grows ⟨rfl, rfl, fun _ hc => hc, fun _ hc => by simp [hc], fun _ => rfl⟩
  | utcb p page t =>
    rw [step]
    exact h.grows ⟨rfl, rfl, fun _ hc => hc, fun _ hc => hc, fun _ => rfl⟩
  | fill c page t =>
    rw [step]
    exact h.setCore rfl rfl fun _ => rfl
  | evict c keep =>
    rw [step]
    exact h.setCore rfl rfl fun _ => rfl
  | start c p => exact order_start h r
  | assign c p b =>
    rw [step, assign]
    refine h.setCore rfl rfl fun hn => ?_
    simp [Ready, hn] at r
  | load c p b => exact order_load h r

omit [DecidableEq κ] [DecidableEq β] in
theorem Tagged.grows (t : Tagged m) {p : PdId} {f : Pd κ β τ → Pd κ β τ} (g : Grows (m.pd p) (f (m.pd p))) :
    Tagged (m.setPd p f) := by
  obtain ⟨known, own, run⟩ := t
  obtain ⟨life, did, cpus, htlb, seen⟩ := g
  constructor <;> simp only [pcid, setPd_life, setPd_did, setPd_cpus, setPd_seen, setPd_core, setPd_pcids] at * <;> grind

omit [DecidableEq β] in
theorem Tagged.setCore (t : Tagged m) {c : κ} {f : Core β τ → Core β τ} (hcr3 : (f (m.core c)).cr3 = (m.core c).cr3)
    (runs : (m.pd (m.core c).cr3).life = .alive ∧ (m.pd (m.core c).cr3).cpus c = true)
    (distinct : ∀ p, (m.pd p).life = .alive → (m.pd p).did = (m.pd (m.core c).cr3).did →
      p = (m.core c).cr3 ∨ (m.pd p).did = noPcid)
    (htlb : ∀ x ∈ (f (m.core c)).tlb, x ∈ (m.core c).tlb ∨ x.pcid = m.pcid (m.core c).cr3 ∧ x.src = (m.core c).cr3) :
    Tagged (m.setCore c f) := by
  obtain ⟨known, own, run⟩ := t
  constructor <;> simp only [pcid, setCore_pd, setCore_core, setCore_pcids] at * <;> grind

theorem tagged_create {p : PdId} {did : Nat} (h : Order m) (t : Tagged m) (r : m.Ready (.create p did)) :
    Tagged (m.step (.create p did)) := by
  have runs := h.runs
  obtain ⟨known, own, run⟩ := t
  obtain ⟨hp, hdid⟩ := r
  constructor <;>
    simp only [step, pcid, setPd_life, setPd_did, setPd_cpus, setPd_seen, setPd_core, setPd_pcids] at * <;> grind

theorem tagged_destroy {p : PdId} (t : Tagged m) : Tagged (m.step (.destroy p)) := by
  obtain ⟨known, own, run⟩ := t
  constructor <;>
    simp only [step, pcid, setPd_life, setPd_did, setPd_cpus, setPd_seen, setPd_core, setPd_pcids] at * <;> grind

omit [DecidableEq β] in
theorem tagged_start {c : κ} {p : PdId} (t : Tagged m) : Tagged (m.start c p) := by
  cases hh : (m.pd p).htlb c
  · by_cases hc : (m.core c).current = p
    · rwa [start_same hh hc]
    · rw [start_keep hh hc]
      obtain ⟨known, own, run⟩ := t
      constructor <;> simp only [pcid, setCore_pd, setCore_core, setCore_pcids] at * <;> grind
  · rw [start_flush hh]
    obtain ⟨known, own, run⟩ := t
    constructor <;>
      simp only [pcid, setCore_pd, setCore_core, setCore_pcids, setPd_life, setPd_did, setPd_cpus, setPd_seen,
        setPd_core, setPd_pcids] at * <;> grind

omit [DecidableEq β] in
theorem tagged_load {c : κ} {p : PdId} {b : Bool} (h : Order m) (t : Tagged m) (r : m.Ready (.load c p b)) :
    Tagged (m.load c p b) := by
  obtain ⟨-, runs, busy, distinct, -⟩ := h
  obtain ⟨known, own, run⟩ := t
  obtain ⟨hb, hcur⟩ := r
  constructor <;>
    simp only [load, pcid, setCore_pd, setCore_core, setCore_pcids, setPd_life, setPd_did, setPd_cpus,
      setPd_seen, setPd_core, setPd_pcids, Function.update_apply] at * <;> grind

theorem tagged_step {a : Act κ β τ} (h : Order m) (t : Tagged m) (r : m.Ready a) : Tagged (m.step a) := by
  have core : ∀ c p, (m.pd p).life = .alive → (m.pd p).did = (m.pd (m.core c).cr3).did →
      p = (m.core c).cr3 ∨ (m.pd p).did = noPcid := fun c p hp => h.distinct p _ hp (h.runs c).1
  cases a with
  | create p did => exact tagged_create h t r
  | init p c =>
    rw [step]
    exact t.grows ⟨rfl, rfl, fun c' hc => by simp [Function.update_apply, hc], fun _ hc => hc, fun _ => rfl⟩
  | destroy p => exact tagged_destroy t
  | map p page t' =>
    rw [step]
    exact t.grows ⟨rfl, rfl, fun _ hc => hc, fun _ hc => hc, fun _ => rfl⟩
  | write p page t' =>
    rw [step]
    exact t.grows ⟨rfl, rfl, fun _ hc => hc, fun _ hc => hc, fun _ => rfl⟩
  | merge p page =>
    rw [step]
    exact t.grows ⟨rfl, rfl, fun _ hc => hc, fun _ hc => by simp [hc], fun _ => rfl⟩
  | utcb p page t' =>
    rw [step]
    exact t.grows ⟨rfl, rfl, fun _ hc => hc, fun _ hc => hc, fun _ => rfl⟩
  | fill c page t' =>
    rw [step]
    refine t.setCore rfl (h.runs c) (core c) fun x hx => ?_
    rcases List.mem_cons.mp hx with rfl | hx
    · exact .inr ⟨rfl, rfl⟩
    · exact .inl hx
  | evict c keep =>
    rw [step]
    refine t.setCore rfl (h.runs c) (core c) fun x hx => ?_
    exact .inl (List.mem_filter.mp hx).1
  | start c p => exact tagged_start t
  | assign c p b =>
    rw [step, assign]
    refine t.setCore rfl (h.runs c) (core c) fun x hx => ?_
    exact .inl hx
  | load c p b => exact tagged_load h t r

theorem fresh_step {a : Act κ β τ} (h : Order m) (t : Tagged m) (f : Fresh m) (r : m.Ready a) :
    Fresh (m.step a) := by
  have busy := h.busy
  have known := t.known
  unfold Fresh Backed at f ⊢
  cases a with
  | create p did =>
    simp only [step, Ready, setPd_life, setPd_did, setPd_table, setPd_htlb, setPd_dirty, setPd_loose, setPd_core,
      setPd_pcids] at *
    grind
  | init p c =>
    simp only [step, Ready, setPd_life, setPd_did, setPd_table, setPd_htlb, setPd_dirty, setPd_loose, setPd_core,
      setPd_pcids] at *
    grind
  | destroy p =>
    simp only [step, Ready, setPd_life, setPd_did, setPd_table, setPd_htlb, setPd_dirty, setPd_loose, setPd_core,
      setPd_pcids] at *
    grind
  | map p page t =>
    simp only [step, Ready, setPd_life, setPd_did, setPd_table, setPd_htlb, setPd_dirty, setPd_loose, setPd_core,
      setPd_pcids, Function.update_apply] at *
    grind
  | write p page t =>
    simp only [step, Ready, setPd_life, setPd_did, setPd_table, setPd_htlb, setPd_dirty, setPd_loose, setPd_core,
      setPd_pcids, Function.update_apply] at *
    grind
  | merge p page =>
    simp only [step, Ready, setPd_life, setPd_did, setPd_table, setPd_htlb, setPd_dirty, setPd_loose, setPd_core,
      setPd_pcids, Function.update_apply] at *
    grind
  | utcb p page t =>
    simp only [step, Ready, setPd_life, setPd_did, setPd_table, setPd_htlb, setPd_dirty, setPd_loose, setPd_core,
      setPd_pcids, Function.update_apply] at *
    grind
  | fill c page t =>
    simp only [step, Ready, setCore_pd, setCore_core, setCore_pcids] at *
    grind
  | evict c keep =>
    simp only [step, Ready, setCore_pd, setCore_core, setCore_pcids] at *
    grind
  | start c p =>
    cases hh : (m.pd p).htlb c
    · by_cases hc : (m.core c).current = p
      · rw [step, start_same hh hc]
        exact f
      · rw [step, start_keep hh hc]
        simp only [Ready, setCore_pd, setCore_core, setCore_pcids] at *
        grind
    · rw [step, start_flush hh]
      simp only [Ready, setCore_pd, setCore_core, setCore_pcids, setPd_life, setPd_did, setPd_table, setPd_htlb,
        setPd_dirty, setPd_loose, setPd_core, setPd_pcids, Function.update_apply] at *
      grind
  | assign c p b =>
    simp only [step, assign, Ready, setCore_pd, setCore_core, setCore_pcids] at *
    grind
  | load c p b =>
    simp only [step, load, Ready, pcid, setCore_pd, setCore_core, setCore_pcids, setPd_life, setPd_did, setPd_table,
      setPd_htlb, setPd_dirty, setPd_loose, setPd_core, setPd_pcids] at *
    grind

variable {m₀ m₁ : Machine κ β τ} {kern : PdId}

omit [DecidableEq κ] [DecidableEq β] in
theorem order_boot (b : Boot m₀ kern) : Order m₀ := by
  obtain ⟨only, runs, cpus, seen⟩ := b
  have hk : ∀ p, (m₀.pd p).life = .alive → p = kern := fun p h => by
    by_contra hne
    simp [only p, hne] at h
  refine ⟨fun c _ => ?_, fun c => ?_, fun c p b h => ?_, fun p q hp hq _ => ?_, fun p c hp h => ?_⟩
  · rw [(runs c).1, (runs c).2.1]
  · rw [(runs c).2.1, only kern, if_pos rfl]
    exact ⟨rfl, cpus c⟩
  · simp [(runs c).2.2.1] at h
  · exact .inl ((hk p hp).trans (hk q hq).symm)
  · rw [hk p hp, seen c] at h
    cases h

omit [DecidableEq κ] [DecidableEq β] in
theorem tlb_boot (b : Boot m₀ kern) (c : κ) (x : Entry β τ) : x ∉ (m₀.core c).tlb := by
  simp [(b.runs c).2.2.2]

theorem run_sound (b : Boot m₀ kern) (run : Run m₀ m) : Order m ∧ Tagged m ∧ Fresh m := by
  induction run with
  | refl =>
    have hn := tlb_boot b
    exact ⟨order_boot b, ⟨fun c x h => absurd h (hn c x), fun c p _ _ _ _ x h => absurd h (hn c x),
      fun c x h => absurd h (hn c x)⟩, fun c x h => absurd h (hn c x)⟩
  | step _ r ih =>
    obtain ⟨ho, ht, hf⟩ := ih
    exact ⟨order_step ho r, tagged_step ho ht r, fresh_step ho ht hf r⟩

/-- What the CPU can use now: it is under the PCID in CR3. -/
def Machine.Uses {κ β τ : Type} (m : Machine κ β τ) (c : κ) (x : Entry β τ) : Prop :=
  x ∈ (m.core c).tlb ∧ x.pcid = m.pcid (m.core c).cr3

/-- Numbers are used again and shared, but no CPU ever uses a translation of another domain than the one
that it runs. -/
theorem uses_own (b : Boot m₀ kern) (run : Run m₀ m) (c : κ) (x : Entry β τ) (h : m.Uses c x) :
    x.src = (m.core c).cr3 :=
  (run_sound b run).2.1.run c x h.1 h.2

/-- `Space_mem::shootdown` on behalf of `p` asks `c` to come to the kernel. -/
def Machine.Asks {κ β τ : Type} (m : Machine κ β τ) (p : PdId) (c : κ) : Prop :=
  (m.pd p).cpus c = true ∧ (m.pd (m.core c).current).htlb c = true

/-- Steps that leave the tables of `p` as they are, but for UTCBs, and in which `c` does not start
another switch. -/
def Spares (c : κ) (p : PdId) : Act κ β τ → Prop
  | .write q _ _ => q ≠ p
  | .start c' _ => c' ≠ c
  | _ => True

inductive Within (c : κ) (p : PdId) (m : Machine κ β τ) : Machine κ β τ → Prop where
  | refl : Within c p m m
  | step {m' : Machine κ β τ} {a : Act κ β τ} :
    Within c p m m' → m'.Ready a → Spares c p a → Within c p m (m'.step a)

/-- `c` runs `p`, or is about to. -/
def Engaged (c : κ) (p : PdId) (m : Machine κ β τ) : Prop :=
  (m.core c).busy = none ∧ (m.core c).cr3 = p ∨ ∃ b, (m.core c).busy = some (p, b)

/-- What `c` has of `p` is in the tables, or about to be flushed. -/
def Settling (c : κ) (p : PdId) (m : Machine κ β τ) : Prop :=
  ∀ x ∈ (m.core c).tlb, x.src = p → (m.pcids = true ∧ (m.pd p).did ≠ noPcid ∨ (m.core c).cr3 = p) →
    (m.pd p).table x.page = some x.trans ∨ (m.pd p).loose x.page = true ∨ (m.core c).busy = some (p, true)

omit [DecidableEq κ] [DecidableEq β] in
theorem Engaged.alive {c : κ} {p : PdId} (h : Order m) (e : Engaged c p m) : (m.pd p).life = .alive := by
  rcases e with ⟨-, he⟩ | ⟨b, hb⟩
  · exact he ▸ (h.runs c).1
  · exact (h.busy c p b hb).1

theorem engaged_step {a : Act κ β τ} {c : κ} {p : PdId} (e : Engaged c p m) (r : m.Ready a) (hs : Spares c p a) :
    Engaged c p (m.step a) := by
  unfold Engaged at *
  cases a with
  | start c' q =>
    cases hh : (m.pd q).htlb c'
    · by_cases hc : (m.core c').current = q
      · rwa [step, start_same hh hc]
      · rw [step, start_keep hh hc]
        simp only [Spares, setCore_core] at *
        grind
    · rw [step, start_flush hh]
      simp only [Spares, setCore_core, setPd_core] at *
      grind
  | _ =>
    simp only [step, assign, load, Ready, setPd_core, setCore_core] at *
    grind

theorem settling_step {a : Act κ β τ} {c : κ} {p : PdId} (h : Order m) (t : Tagged m) (s : Settling c p m)
    (ha : (m.pd p).life = .alive) (r : m.Ready a) (hs : Spares c p a) : Settling c p (m.step a) := by
  have busy := h.busy
  have known := t.known
  unfold Settling at *
  cases a with
  | start c' q =>
    cases hh : (m.pd q).htlb c'
    · by_cases hc : (m.core c').current = q
      · rwa [step, start_same hh hc]
      · rw [step, start_keep hh hc]
        simp only [Spares, Ready, setCore_pd, setCore_core, setCore_pcids] at *
        grind
    · rw [step, start_flush hh]
      simp only [Spares, Ready, setCore_pd, setCore_core, setCore_pcids, setPd_did, setPd_table, setPd_loose,
        setPd_core, setPd_pcids] at *
      grind
  | load c' q b =>
    simp only [step, load, Ready, pcid, setCore_pd, setCore_core, setCore_pcids, setPd_did, setPd_table,
      setPd_loose, setPd_core, setPd_pcids] at *
    grind
  | assign c' q b =>
    simp only [step, assign, Ready, setCore_pd, setCore_core, setCore_pcids] at *
    grind
  | fill c' page t =>
    simp only [step, Ready, setCore_pd, setCore_core, setCore_pcids] at *
    grind
  | evict c' keep =>
    simp only [step, Ready, setCore_pd, setCore_core, setCore_pcids] at *
    grind
  | _ =>
    simp only [step, Spares, Ready, setPd_did, setPd_table, setPd_loose, setPd_core, setPd_pcids,
      Function.update_apply] at *
    grind

omit [DecidableEq β] in
theorem engaged_start (ho : Order m₁) {c : κ} {p : PdId} (r : m₁.Ready (.start c p)) :
    Engaged c p (m₁.start c p) := by
  unfold Engaged
  cases hh : (m₁.pd p).htlb c
  · by_cases hc : (m₁.core c).current = p
    · rw [start_same hh hc]
      exact .inl ⟨r.1, ho.rest c r.1 ▸ hc⟩
    · rw [start_keep hh hc]
      simp
  · rw [start_flush hh]
    simp

omit [DecidableEq β] in
theorem settling_start (hf : Fresh m₁) {c : κ} {p : PdId} (r : m₁.Ready (.start c p))
    (clean : ∀ page, (m₁.pd p).dirty page = false) : Settling c p (m₁.start c p) := by
  have back : (m₁.pd p).htlb c = false → Settling c p m₁ := by
    rintro hh x hx rfl ht
    rcases hf c x hx r.2.1 ht with (hb | hb | hb) | hb | hb
    · exact .inl hb
    · simp [clean] at hb
    · exact .inr (.inl hb)
    · simp [hh] at hb
    · simp [r.1] at hb
  cases hh : (m₁.pd p).htlb c
  · by_cases hc : (m₁.core c).current = p
    · rw [start_same hh hc]
      exact back hh
    · rw [start_keep hh hc]
      intro x hx hs ht
      simp only [setCore_core, setCore_pd, setCore_pcids, if_true] at hx ht ⊢
      rcases back hh x hx hs ht with hb | hb | hb
      · exact .inl hb
      · exact .inr (.inl hb)
      · simp [r.1] at hb
  · rw [start_flush hh]
    intro x _ _ _
    simp

end

def two : Machine Bool Unit Nat :=
  ⟨true, fun p => ⟨if p = 0 then .alive else .fresh, 0, fun _ => some 5, fun _ => true, fun _ => false, fun _ => false,
    fun _ => false, fun _ => true⟩, fun _ => ⟨0, 0, [], none⟩⟩

theorem boot_two : Boot two 0 := ⟨fun _ => rfl, fun _ => ⟨rfl, rfl, rfl, rfl⟩, fun _ => rfl, fun _ => rfl⟩

def made : List (Act Bool Unit Nat) := [.create 1 1, .init 1 true, .map 1 () 7]

def goes : List (Act Bool Unit Nat) := [.assign true 1 true, .load true 1 true, .fill true () 7]

def back : List (Act Bool Unit Nat) := [.start true 0, .assign true 0 false, .load true 0 false]

/-- A third domain gets the number of the second, has 9 at the page, and is run as well. -/
def again : List (Act Bool Unit Nat) :=
  [.destroy 1, .create 2 1, .init 2 true, .map 2 () 9, .start true 2, .assign true 2 true, .load true 2 true,
    .fill true () 9]

def visit : List (Act Bool Unit Nat) := made ++ .start true 1 :: goes ++ back

theorem run_made : Run two (made.foldl Machine.step two) :=
  run_foldl made .refl ⟨⟨rfl, .inr fun q _ => by simp [two]⟩, rfl, ⟨rfl, rfl⟩, trivial⟩

theorem run_visit : Run two (visit.foldl Machine.step two) :=
  run_foldl visit .refl ⟨⟨rfl, .inr fun q _ => by simp [two]⟩, rfl, ⟨rfl, rfl⟩, ⟨rfl, rfl, rfl⟩, rfl, ⟨rfl, rfl⟩, rfl,
    ⟨rfl, rfl, rfl⟩, rfl, ⟨rfl, rfl⟩, trivial⟩

theorem visit_did {q : PdId} (h : (((visit.foldl Machine.step two).step (.destroy 1)).pd q).life = .alive) :
    (((visit.foldl Machine.step two).step (.destroy 1)).pd q).did ≠ 1 := by
  by_cases hq : q = 1
  · subst hq
    exact absurd h (by decide)
  · have hdid : (((visit.foldl Machine.step two).step (.destroy 1)).pd q).did = 0 := by
      simp [visit, made, goes, back, step, start, assign, load, hq, two]
    rw [hdid]
    decide

def reused : Machine Bool Unit Nat := again.foldl Machine.step (visit.foldl Machine.step two)

theorem run_reused : Run two reused :=
  run_foldl again run_visit ⟨⟨rfl, fun c => by cases c <;> exact ⟨by decide, by decide, by decide⟩⟩,
    ⟨rfl, .inr fun q h => visit_did h⟩, rfl, ⟨rfl, rfl⟩, ⟨rfl, rfl, rfl⟩, rfl, ⟨rfl, rfl⟩, rfl, trivial⟩

theorem uses_reused : reused.Uses true ⟨1, (), 9, 2⟩ := ⟨List.mem_cons_self, rfl⟩

theorem uses_own_two : (⟨1, (), 9, 2⟩ : Entry Unit Nat).src = (reused.core true).cr3 :=
  uses_own boot_two run_reused true ⟨1, (), 9, 2⟩ uses_reused

/-- The page of a UTCB stays in the TLBs when the EC is gone: nothing tells the CPUs. -/
theorem utcb_lingers : ∃ m, Run two m ∧ m.Uses true ⟨0, (), 5, 0⟩ ∧ (m.pd 0).table () = none ∧
    (m.pd 0).dirty () = false ∧ ∀ c, (m.pd 0).htlb c = false :=
  ⟨(two.step (.fill true () 5)).step (.utcb 0 () none), .step (.step .refl rfl) rfl, ⟨List.mem_cons_self, rfl⟩,
    rfl, rfl, fun _ => rfl⟩

/-- Its page is taken while the CPU is between the test and the assignment of `current`. -/
def revoke : List (Act Bool Unit Nat) := [.start true 1, .write 1 () none, .merge 1 ()]

/-- `make_current` looks at `htlb` before it becomes `current`: a shootdown in between does not ask the
CPU, which then runs the domain with what has been revoked. -/
theorem switch_missed : ∃ m m', Run two m ∧ Run m m' ∧ (m.pd 1).dirty () = false ∧ ¬m.Asks 1 true ∧
    (m'.core true).busy = none ∧ m'.Uses true ⟨1, (), 7, 1⟩ ∧ (m'.pd 1).table () = none := by
  let m := revoke.foldl Machine.step (visit.foldl Machine.step two)
  refine ⟨m, ([.assign true 1 false, .load true 1 false] : List (Act Bool Unit Nat)).foldl Machine.step m,
    run_foldl revoke run_visit ⟨⟨rfl, rfl, rfl⟩, rfl, rfl, trivial⟩,
    run_foldl _ .refl ⟨rfl, ⟨rfl, rfl⟩, trivial⟩, rfl, ?_, rfl, ⟨List.mem_cons_self, rfl⟩, rfl⟩
  rintro ⟨-, h⟩
  exact absurd h (by decide)

end Tukija.Tlb
