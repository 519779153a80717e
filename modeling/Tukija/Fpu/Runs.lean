import Mathlib.Data.Nat.Init
import Tukija.Fpu.Content

/-! Over every run, however the CPUs take turns, each context finds its own content in the FPU and
never another's. -/
namespace Tukija.Fpu

open Machine

/-- What the programs themselves have made of the FPU, and whether it is `lost`. -/
structure Ledger (ρ : Type) where
  own : EcId → ρ
  lost : EcId → Bool

section
variable {κ ι ρ : Type} {X : Xsave ι ρ} {m m' : Machine κ ι ρ} {L : Ledger ρ}

/-- What is kept in order, in the mode of the machine. -/
structure Sound (m : Machine κ ι ρ) : Prop where
  order : Order m
  lazily : m.lazy = true → Lazily m
  eagerly : m.lazy = false → Eagerly m

theorem sound_boot (b : Boot m) : Sound m := by
  obtain ⟨idle, kinds, areas, alive, kernel⟩ := b
  have hv : ∀ e, m.isVcpu e = false := fun e => by rcases kinds e with h | h <;> simp [isVcpu, h]
  refine ⟨?_, fun _ => ?_, fun _ => ?_⟩
  · refine ⟨fun c => ⟨by simp [(idle c).1], (idle c).2⟩, fun c e h => ?_, fun c hk => absurd (kernel c).1 hk,
      fun e _ => areas e⟩
    simp [(kernel c).2.1] at h
  · refine ⟨fun c h => ?_, fun c hk => absurd (kernel c).1 hk, fun e h => ?_⟩
    · simp [(kernel c).2.2.1] at h
    · simp [hv e] at h
  · refine ⟨fun c => (kernel c).2.2.2, fun c h => ?_, fun e h => ?_, fun c e h => ?_⟩
    · simp [(idle c).1] at h
    · simp [hv e] at h
    · simp [(kernel c).2.1] at h

theorem Sound.calm (h : Sound m) (c : κ) : m.lazy = true ∨ (m.core c).hzd = false := by
  cases hl : m.lazy
  · exact .inr ((h.eagerly hl).calm c)
  · exact .inl rfl

theorem Sound.fault_lazy (h : Sound m) {c : κ} (r : m.Ready (.fault c)) : m.lazy = true := by
  by_contra hl
  have := permitted_eager h.order (h.eagerly (by simpa using hl)) r.1
  simp [r.2] at this

structure Kept (X : Xsave ι ρ) (m : Machine κ ι ρ) (L : Ledger ρ) : Prop where
  dead : ∀ e, (m.ec e).dead → L.lost e
  idle : ∀ e, m.idleEc e → L.lost e
  kept : ∀ e, L.lost e = false → m.content X e = L.own e

theorem Kept.content_moved (k : Kept X m L) {e : EcId} (h : L.lost e = false) (hm : Moved X m m' e) :
    m'.content X e = L.own e := by
  rw [← k.kept e h]
  refine hm.content.resolve_right fun hd => ?_
  simp [k.dead e hd.1] at h

theorem Kept.idle_false (k : Kept X m L) {e : EcId} (h : L.lost e = false) : m.idleEc e = false := by
  cases hi : m.idleEc e
  · rfl
  · simp [k.idle e hi] at h

theorem Kept.moved (k : Kept X m L) (hw : ∀ e, (m'.ec e).dead = (m.ec e).dead ∧ (m'.ec e).kind = (m.ec e).kind)
    (hm : ∀ e, m.idleEc e = false → Moved X m m' e) : Kept X m' L where
  dead e h := k.dead e ((hw e).1 ▸ h)
  idle e h := k.idle e (by rwa [idleEc, (hw e).2] at h)
  kept e h := k.content_moved h (hm e (k.idle_false h))

end

section
variable {κ ι ρ : Type} [DecidableEq κ] (X : Xsave ι ρ)

/-- The FPU of its own that each context seems to have.  It loses the content with the death of the
context, when it is flushed from the CPU or migrated while only the registers have it, or when the
CPU sleeps and the context is current without `fpu_lazy`; an import makes up for it. -/
def Ledger.track (m : Machine κ ι ρ) (L : Ledger ρ) : Act κ ι ρ → Ledger ρ
  | .create e _ _ => ⟨Function.update L.own e X.start, Function.update L.lost e false⟩
  | .use _ e f => { L with own := Function.update L.own e (f (L.own e)) }
  | .importData _ e data =>
    ⟨Function.update L.own e (X.load data), Function.update L.lost e ((m.ec e).dead || m.idleEc e)⟩
  | .die _ e => { L with lost := Function.update L.lost e true }
  | .flush c e =>
    { L with lost := Function.update L.lost e (L.lost e || m.ownsHere c e && decide ((m.ec e).cpu = c)) }
  | .migrate c e e' _ =>
    ⟨Function.update L.own e' (L.own e),
      Function.update (Function.update L.lost e' (L.lost e || m.ownsHere c e && (m.ec e).fpu.isNone)) e true⟩
  | .sleep c _ _ =>
    { L with lost := Function.update L.lost (m.core c).current (L.lost (m.core c).current || !m.lazy) }
  | _ => L

/-- A run from `m`, in which every step is one that `ok` allows. -/
inductive Run (ok : Machine κ ι ρ → Act κ ι ρ → Prop) (m : Machine κ ι ρ) : Machine κ ι ρ → Ledger ρ → Prop where
  | boot : Run ok m m ⟨fun _ => X.start, fun e => m.idleEc e⟩
  | step {m' : Machine κ ι ρ} {L : Ledger ρ} {a : Act κ ι ρ} :
    Run ok m m' L → m'.Ready a → ok m' a → Run ok m (m'.step X a) (L.track X m' a)

variable {X} {m m' : Machine κ ι ρ} {L : Ledger ρ} {a : Act κ ι ρ}

theorem step_lazy : (m.step X a).lazy = m.lazy := by
  cases a <;> simp [step, Machine.sleep]

theorem Sound.step (h : Sound m) (r : m.Ready a) (ht : m.Tame a) : Sound (m.step X a) := by
  refine ⟨order_step h.order h.eagerly r, fun hl => ?_, fun hl => ?_⟩ <;> rw [step_lazy] at hl
  · exact lazily_step hl h.order (h.lazily hl) r ht
  · exact eagerly_step hl h.order (h.eagerly hl) r

theorem makeCurrent_who {c : κ} {e : EcId} (e' : EcId) :
    ((m.makeCurrent X c e).ec e').dead = (m.ec e').dead ∧ ((m.makeCurrent X c e).ec e').kind = (m.ec e').kind := by
  cases hl : m.lazy
  · obtain ⟨on, hon, hec⟩ := makeCurrent_ec X m c e hl e'
    rw [hec]
    exact ⟨rfl, rfl⟩
  · rw [makeCurrent_lazy X m c e hl]
    exact ⟨rfl, rfl⟩

theorem down_who {c : κ} {power : ρ} (e : EcId) :
    ((down m X c power).ec e).dead = (m.ec e).dead ∧ ((down m X c power).ec e).kind = (m.ec e).kind := by
  simp only [down, setCore_ec, flushFpu_ec]
  split <;> exact ⟨rfl, rfl⟩

theorem Kept.down (h : Sound m) (k : Kept X m L) (c : κ) (power : ρ) (e : EcId) :
    Kept X (down m X c power) (L.track X m (.sleep c power e)) := by
  refine ⟨fun e' he => ?_, fun e' he => ?_, fun e' he => ?_⟩
  · rw [(down_who e').1] at he
    have := k.dead e' he
    simp only [Ledger.track, Function.update_apply]
    grind
  · rw [idleEc, (down_who e').2] at he
    have := k.idle e' he
    simp only [Ledger.track, Function.update_apply]
    grind
  · simp only [Ledger.track, Function.update_apply] at he
    exact k.content_moved (by grind) (moved_down h.order h.eagerly e' (by grind))

theorem Kept.step (h : Sound m) (k : Kept X m L) (r : m.Ready a) : Kept X (m.step X a) (L.track X m a) := by
  cases a with
  | switch c e => exact k.moved makeCurrent_who (moved_switch h.order r)
  | resume c => exact k.moved (fun e => by rw [step, resume_ec m c (h.calm c)]; simp) fun e _ => moved_resume (h.calm c) e
  | enter c => exact k.moved (fun e => by rw [step, enter_ec]; simp) fun e _ => moved_enter e
  | fault c =>
    refine k.moved (fun e => ?_) fun e _ => moved_fault h.order (h.fault_lazy r) e
    rw [step, handleExcNm_ec X _ c (by rw [enter_lazy, h.fault_lazy r]), enter_ec]
    simp
  | exportData c e =>
    refine k.moved (fun e' => ?_) fun e' _ => moved_export h.order e'
    rw [step, exportFpuData_ec]
    split <;> simp_all
  | use c e f =>
    refine ⟨k.dead, k.idle, fun e' he => ?_⟩
    rw [(step_use h.order h.lazily r e').2]
    simp only [Ledger.track, Function.update_apply] at he ⊢
    split
    · subst_vars
      rw [k.kept _ he]
    · exact k.kept e' he
  | importData c e data =>
    obtain ⟨dead, idle, kept⟩ := k
    constructor <;>
      simp only [step, Ledger.track, Function.update_apply, importFpuData_ec, idleEc, (step_import h.order r _).2] at * <;>
      grind
  | create e kind cpu =>
    obtain ⟨dead, idle, kept⟩ := k
    refine ⟨fun e' => ?_, fun e' => ?_, fun e' => ?_⟩
    · have := dead e'
      simp only [step, setEc_ec, Ledger.track, Function.update_apply]
      grind
    · have := idle e'
      have := r.2
      simp only [idleEc, step, setEc_ec, Ledger.track, Function.update_apply] at *
      grind
    · have := kept e'
      rw [(step_create h.order r e').2]
      simp only [Ledger.track, Function.update_apply]
      grind
  | die c e =>
    refine ⟨fun e' => ?_, fun e' => ?_, fun e' he => ?_⟩
    · have := k.dead e'
      simp only [step, die, setEc_ec, Ledger.track, Function.update_apply]
      grind
    · have := k.idle e'
      simp only [idleEc, step, die, setEc_ec, Ledger.track, Function.update_apply] at *
      grind
    · simp only [Ledger.track, Function.update_apply] at he
      exact k.content_moved (by grind) (moved_die e e')
  | flush c e =>
    refine ⟨fun e' => ?_, fun e' => ?_, fun e' => ?_⟩
    · have := k.dead e'
      simp only [step, flushFromCpu_ec, Ledger.track, Function.update_apply]
      grind
    · have := k.idle e'
      simp only [idleEc, step, flushFromCpu_ec, Ledger.track, Function.update_apply] at *
      grind
    · have := k.kept e'
      rw [step, (step_flush e').2]
      simp only [Ledger.track, Function.update_apply]
      grind
  | migrate c e e' cpu' =>
    obtain ⟨hk, ht, hc, hn, ha⟩ := id r
    have hne : e' ≠ e := by rintro rfl; simp [ht] at ha
    have hec := clone_ec X m c e e' cpu' hne (by simp [isVcpu, ht])
    refine ⟨fun x => ?_, fun x => ?_, fun x he => ?_⟩
    · have := k.dead e
      have := k.dead x
      simp only [Machine.step, hec, Ledger.track, Function.update_apply]
      grind
    · have := k.idle x
      simp only [idleEc, Machine.step, hec, Ledger.track, Function.update_apply] at *
      grind
    · simp only [Ledger.track, Function.update_apply] at he ⊢
      rcases step_migrate h.order r x with ⟨h1, h2, hm⟩ | ⟨rfl, -⟩ | ⟨rfl, -, hm⟩
      · rw [if_neg h2]
        exact k.content_moved (by simpa [h1, h2] using he) hm
      · simp at he
      · have := k.kept e
        rw [Machine.step, hm]
        grind
  | sleep c power e =>
    have hd := k.down h c power e
    exact hd.moved makeCurrent_who (moved_switch (order_down h.order) (ready_down r))

/-- The contents that `P` allows each context are closed under what its own program does, and what
is loaded into it. -/
def Respects (X : Xsave ι ρ) (P : EcId → ρ → Prop) : Act κ ι ρ → Prop
  | .use _ e f => ∀ r, P e r → P e (f r)
  | .importData _ e data => P e (X.load data)
  | .migrate _ e e' _ => ∀ r, P e r → P e' r
  | .sleep _ power _ => ∀ e, P e power
  | _ => True

/-- Nothing that `P` does not allow is kept for a context. -/
def Private (X : Xsave ι ρ) (P : EcId → ρ → Prop) (m : Machine κ ι ρ) : Prop :=
  ∀ e, m.idleEc e = false → P e (m.content X e) ∧ P e (m.stored X e)

omit [DecidableEq κ] in
theorem Private.moved {P : EcId → ρ → Prop} {e : EcId} (p : P e (m.content X e) ∧ P e (m.stored X e))
    (hm : Moved X m m' e) : P e (m'.content X e) ∧ P e (m'.stored X e) := by
  obtain ⟨hc, hs⟩ := hm
  constructor
  · rcases hc with hc | ⟨-, hc⟩ <;> rw [hc] <;> tauto
  · rcases hs with hs | hs <;> rw [hs] <;> tauto

theorem Private.step {P : EcId → ρ → Prop} (start : ∀ e, P e X.start) (h : Sound m) (p : Private X P m)
    (r : m.Ready a) (hp : Respects X P a) : Private X P (m.step X a) := by
  intro e₀ hi
  cases a with
  | switch c e =>
    have hi' : m.idleEc e₀ = false := by rwa [idleEc, step, (makeCurrent_who e₀).2] at hi
    exact Private.moved (p e₀ hi') (moved_switch h.order r e₀ hi')
  | resume c =>
    rw [idleEc, Machine.step, resume_ec m c (h.calm c)] at hi
    exact Private.moved (p e₀ hi) (moved_resume (h.calm c) e₀)
  | enter c =>
    rw [idleEc, Machine.step, enter_ec] at hi
    exact Private.moved (p e₀ hi) (moved_enter e₀)
  | fault c =>
    have hl := h.fault_lazy r
    rw [idleEc, Machine.step, handleExcNm_ec X _ c (by rw [enter_lazy, hl]), enter_ec] at hi
    exact Private.moved (p e₀ hi) (moved_fault h.order hl e₀)
  | exportData c e =>
    have hi' : m.idleEc e₀ = false := by
      simp only [idleEc, Machine.step, exportFpuData_ec] at hi ⊢
      grind
    exact Private.moved (p e₀ hi') (moved_export h.order e₀)
  | die c e =>
    have hi' : m.idleEc e₀ = false := by
      simp only [idleEc, Machine.step, die, setEc_ec] at hi ⊢
      grind
    exact Private.moved (p e₀ hi') (moved_die e e₀)
  | use c e f =>
    have hi' : m.idleEc e₀ = false := hi
    have := p e₀ hi'
    rw [(step_use h.order h.lazily r e₀).1, (step_use h.order h.lazily r e₀).2]
    simp only [Respects] at hp
    grind
  | importData c e data =>
    have hi' : m.idleEc e₀ = false := by
      simp only [idleEc, Machine.step, importFpuData_ec] at hi ⊢
      grind
    have := p e₀ hi'
    rw [Machine.step, (step_import h.order r e₀).1, (step_import h.order r e₀).2]
    simp only [Respects] at hp
    grind
  | create e kind cpu =>
    rw [(step_create h.order r e₀).1, (step_create h.order r e₀).2]
    by_cases he : e₀ = e
    · simp [he, start]
    · have := p e₀ (by simpa [idleEc, Machine.step, he] using hi)
      simpa [he] using this
  | flush c e =>
    have hi' : m.idleEc e₀ = false := by rwa [idleEc, Machine.step, flushFromCpu_ec] at hi
    have := p e₀ hi'
    rw [Machine.step, (step_flush e₀).1, (step_flush e₀).2]
    grind
  | migrate c e e' cpu' =>
    obtain ⟨hk, ht, hc, hn, ha⟩ := id r
    have hne : e' ≠ e := by rintro rfl; simp [ht] at ha
    have hie : m.idleEc e = false := by simp [idleEc, ht]
    rcases step_migrate h.order r e₀ with ⟨h1, h2, hm⟩ | ⟨rfl, hs, hm⟩ | ⟨rfl, hs, hm⟩
    · rw [idleEc, Machine.step, clone_ec X m c e e' cpu' hne (by simp [isVcpu, ht]), if_neg h1, if_neg h2] at hi
      exact Private.moved (p e₀ hi) hm
    · rw [Machine.step, hs]
      have := (p e₀ hie).1
      have := start e₀
      rcases hm with hm | hm <;> rw [hm] <;> tauto
    · rw [Machine.step, hs, hm]
      have := hp _ (p e hie).1
      have := start e₀
      split <;> tauto
  | sleep c power e =>
    have hi' : m.idleEc e₀ = false := by
      rwa [idleEc, show m.step X (.sleep c power e) = (down m X c power).makeCurrent X c e from rfl,
        (makeCurrent_who e₀).2, (down_who e₀).2] at hi
    refine Private.moved (m := down m X c power) ?_
      (moved_switch (order_down h.order) (ready_down r) e₀ (by rwa [idleEc, (down_who e₀).2]))
    by_cases hn : m.lazy = true ∨ (m.core c).current ≠ e₀
    · exact Private.moved (p e₀ hi') (moved_down h.order h.eagerly e₀ hn)
    · obtain ⟨hl, rfl⟩ : m.lazy = false ∧ (m.core c).current = e₀ := by simpa using hn
      obtain ⟨hc, hs⟩ : (down m X c power).content X (m.core c).current = power ∧ _ := down_current h.order hl
      have := p _ hi'
      have := hp (m.core c).current
      rw [hc]
      rcases hs with hs | hs <;> rw [hs] <;> tauto

def exec (X : Xsave ι ρ) (s : Machine κ ι ρ × Ledger ρ) (acts : List (Act κ ι ρ)) : Machine κ ι ρ × Ledger ρ :=
  acts.foldl (fun s a => (s.1.step X a, s.2.track X s.1 a)) s

def allReady (X : Xsave ι ρ) (m : Machine κ ι ρ) : List (Act κ ι ρ) → Prop
  | [] => True
  | a :: acts => m.Ready a ∧ allReady X (m.step X a) acts

instance decidableAllReady (X : Xsave ι ρ) :
    ∀ (acts : List (Act κ ι ρ)) (m : Machine κ ι ρ), Decidable (allReady X m acts)
  | [], _ => isTrue trivial
  | a :: acts, m =>
    have := decidableAllReady X acts (m.step X a)
    inferInstanceAs (Decidable (m.Ready a ∧ allReady X (m.step X a) acts))

theorem run_exec {ok : Machine κ ι ρ → Act κ ι ρ → Prop} {m₀ : Machine κ ι ρ} (acts : List (Act κ ι ρ))
    (s : Machine κ ι ρ × Ledger ρ) (run : Run X ok m₀ s.1 s.2) (ready : allReady X s.1 acts)
    (hok : ∀ a ∈ acts, ∀ m, ok m a) : Run X ok m₀ (exec X s acts).1 (exec X s acts).2 := by
  induction acts generalizing s with
  | nil => exact run
  | cons a acts ih =>
    exact ih (s.1.step X a, s.2.track X s.1 a) (.step run ready.1 (hok a (by simp) s.1)) ready.2
      fun b hb => hok b (by simp [hb])

variable {m₀ : Machine κ ι ρ}

theorem run_sound {ok : Machine κ ι ρ → Act κ ι ρ → Prop} (hok : ∀ m a, ok m a → m.Tame a) (b : Boot m₀)
    (run : Run X ok m₀ m L) : Sound m := by
  induction run with
  | boot => exact sound_boot b
  | step _ r ht ih => exact ih.step r (hok _ _ ht)

omit [DecidableEq κ] in
theorem content_boot (b : Boot m₀) (e : EcId) (hi : m₀.idleEc e = false) :
    m₀.content X e = X.start ∧ m₀.stored X e = X.start := by
  have hs : m₀.stored X e = X.start := by simp [Machine.stored, b.areas e]
  have hr : m₀.inRegs e = false := by
    have hne : (m₀.core (m₀.ec e).cpu).current ≠ e := by
      rintro he
      have := (b.idle (m₀.ec e).cpu).1
      simp [he, idleEc] at this hi
      exact hi this
    simp [inRegs, (b.kernel _).2.1, hne]
  exact ⟨(content_stored hr).trans hs, hs⟩

theorem run_kept (b : Boot m₀) (run : Run X Tame m₀ m L) : Kept X m L := by
  induction run with
  | boot =>
    refine ⟨fun e h => ?_, fun e h => h, fun e h => (content_boot b e h).1⟩
    simp [b.alive e] at h
  | step run r _ ih => exact ih.step (run_sound (fun _ _ => id) b run) r

theorem export_content {c : κ} {e : EcId} (r : m.Ready (.exportData c e)) :
    ∃ i, ((m.step X (.exportData c e)).ec e).fpu = some i ∧ X.load i = m.content X e := by
  obtain ⟨hk, ⟨ha, hc⟩, hn⟩ := r
  have hr : m.inRegs e = m.ownsHere c e := by
    unfold inRegs ownsHere
    cases m.lazy <;> simp [hc, hn, beq_eq_decide]
  rw [Machine.step, exportFpuData_ec, if_pos rfl]
  cases ho : m.ownsHere c e
  · rw [content_stored (hr.trans ho)]
    cases hf : (m.ec e).fpu <;> simp [stored, hf]
  · rw [content, if_pos (hr.trans ho), hc]
    exact ⟨_, rfl, X.load_save _⟩

def plain : Xsave Nat Nat := ⟨id, some, 0, 0, fun _ => rfl, rfl⟩

def oneCpu (lazy : Bool) : Machine Unit Nat Nat :=
  ⟨lazy, true, fun e => ⟨if e = 0 then .idle else .absent, (), none, false, false⟩,
    fun _ => ⟨0, true, false, none, 0, false⟩⟩

theorem boot_oneCpu (lazy : Bool) : Boot (oneCpu lazy) := by
  constructor <;> simp [oneCpu]
  exact fun e => Classical.em _

def turns : List (Act Unit Nat Nat) :=
  [.create 1 .thread (), .create 2 .vcpu (), .switch () 1, .resume (), .fault (), .resume (), .use () 1 (· + 7),
    .enter (), .switch () 2, .resume (), .fault (), .resume (), .use () 2 (· + 9), .enter (), .switch () 1, .resume (),
    .fault (), .resume ()]

def booted (lazy : Bool) : Machine Unit Nat Nat × Ledger Nat :=
  (oneCpu lazy, ⟨fun _ => plain.start, fun e => (oneCpu lazy).idleEc e⟩)

/-- Whatever sets of contents are closed under what is done for each context: nobody finds anything else
in the registers or in what is exported. -/
theorem reads_own {P : EcId → ρ → Prop} (start : ∀ e, P e X.start) (b : Boot m₀)
    (run : Run X (fun m a => m.Tame a ∧ Respects X P a) m₀ m L) (c : κ) (e : EcId) :
    (∀ f, m.Ready (.use c e f) → P e (m.core c).live) ∧
      (m.Ready (.exportData c e) → m.idleEc e = false →
        ∃ i, ((m.step X (.exportData c e)).ec e).fpu = some i ∧ P e (X.load i)) := by
  have h := run_sound (fun _ _ h => h.1) b run
  have p : Private X P m := by
    induction run with
    | boot => exact fun e hi => by simp [content_boot b e hi, start]
    | step run r ok ih =>
      have h := run_sound (fun _ _ h => h.1) b run
      exact Private.step start h (ih h) r ok.2
  refine ⟨fun f r => ?_, fun r hi => ?_⟩
  · have hi : m.idleEc e = false := by
      obtain ⟨hk, rfl, -⟩ := r
      have := (h.order.runs c hk).1
      simpa [idleEc] using this
    rw [← content_use (X := X) h.order h.lazily r]
    exact (p e hi).1
  · obtain ⟨i, hf, hl⟩ := export_content (X := X) r
    exact ⟨i, hf, hl ▸ (p e hi).1⟩

theorem reads_own_turns : 7 ∣ ((exec plain (booted true) turns).1.core ()).live :=
  (reads_own (P := fun e r => e = 1 → 7 ∣ r) (fun _ _ => Nat.dvd_zero 7) (boot_oneCpu true)
    (run_exec turns (booted true) .boot (by decide +kernel) (by simp [turns, Tame, Respects]))
    () 1).1 id (by decide +kernel) rfl

/-- A guest owns the registers, its scheduling context goes, a thread leaves 7 in them, and the guest
runs on with another scheduling context. -/
def strays : List (Act Unit Nat Nat) :=
  [.create 1 .thread (), .create 2 .vcpu (), .switch () 2, .resume (), .fault (), .flush () 2, .switch () 1,
    .resume (), .fault (), .resume (), .use () 1 (· + 7), .enter (), .switch () 2, .resume ()]

/-- So a guest that does not stay tame reads what a thread has left. -/
theorem strays_read : ∃ m L, Run plain (fun _ _ => True) (oneCpu true) m L ∧
    m.Ready (.use () 2 id) ∧ (m.core ()).live = 7 :=
  ⟨_, _, run_exec strays (booted true) .boot (by decide +kernel) (fun _ _ _ => trivial),
    by decide +kernel, by decide +kernel⟩

/-- Without `fpu_lazy` nothing that asks for a context's death over the FPU is ever met: neither a fault
nor a hazard. -/
theorem eager_spares {ok : Machine κ ι ρ → Act κ ι ρ → Prop} (b : Boot m₀) (hl : m₀.lazy = false)
    (run : Run X ok m₀ m L) (c : κ) : ¬m.Ready (.fault c) ∧ (m.core c).hzd = false := by
  have h : m.lazy = false ∧ Order m ∧ Eagerly m := by
    induction run with
    | boot => exact ⟨hl, (sound_boot b).order, (sound_boot b).eagerly hl⟩
    | step _ r _ ih =>
      obtain ⟨hl, ho, he⟩ := ih
      exact ⟨step_lazy.trans hl, order_step ho (fun _ => he) r, eagerly_step hl ho he r⟩
  refine ⟨fun r => ?_, h.2.2.calm c⟩
  have := permitted_eager h.2.1 h.2.2 r.1
  simp [r.2] at this

/-- The thread and the guest of the turns, which need no fault now. -/
def spared : List (Act Unit Nat Nat) :=
  [.create 1 .thread (), .create 2 .vcpu (), .switch () 1, .resume (), .use () 1 (· + 7), .enter (), .switch () 2,
    .resume ()]

theorem eager_spares_turns : ¬(exec plain (booted false) spared).1.Ready (.fault ()) ∧
    ((exec plain (booted false) spared).1.core ()).hzd = false :=
  have run : Run plain (fun _ _ => True) (oneCpu false) _ _ :=
    run_exec spared (booted false) .boot (by decide +kernel) fun _ _ _ => trivial
  eager_spares (boot_oneCpu false) rfl run ()

end

end Tukija.Fpu
