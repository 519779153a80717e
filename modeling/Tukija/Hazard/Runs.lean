import Mathlib.Tactic.Ring
import Tukija.Hazard.Machine

/-! What is pending for an EC has been done when the EC runs, over whole runs. -/
namespace Tukija.Hazard

open Machine

section
variable {κ E : Type} {m m' : Machine κ E}

section
variable [DecidableEq E] (e x : E) (f : Ec κ → Ec κ)

@[simp] theorem setEc_ec : (m.setEc e f).ec x = if x = e then f (m.ec e) else m.ec x := by
  simp [setEc, Function.update_apply]

@[simp] theorem setEc_core : (m.setEc e f).core = m.core := rfl
@[simp] theorem setEc_id : (m.setEc e f).id = m.id := rfl

end

section
variable [DecidableEq κ] (c d : κ) (f : Core E → Core E)

@[simp] theorem setCore_core : (m.setCore c f).core d = if d = c then f (m.core c) else m.core d := by
  simp [setCore, Function.update_apply]

@[simp] theorem setCore_ec : (m.setCore c f).ec = m.ec := rfl
@[simp] theorem setCore_id : (m.setCore c f).id = m.id := rfl

end

/-- The CPU is on its way out of the kernel, or has left it. -/
def Running (m : Machine κ E) (c : κ) : Prop := (m.core c).stage = .checked ∨ (m.core c).stage = .user

theorem not_running (c : κ) (h : (m.core c).stage = .kernel ∨ (m.core c).stage = .portal) : ¬ Running m c := by
  rcases h with h | h <;> simp [Running, h]

/-! ### Where each EC is -/

/-- A CPU runs its own ECs, and one in the midst of a recall is still in the kernel.  The recall of an EC
that runs is on its way. -/
structure Placed (m : Machine κ E) : Prop where
  home : ∀ c, (m.ec (m.core c).current).cpu = c
  busy : ∀ c, m.Free c ∨ (m.core c).stage = .kernel
  once : ∀ c, (m.core c).looks = none ∨ (m.core c).asks = none
  rings : ∀ c, Running m c → (m.ec (m.core c).current).recalled = true →
    (m.core c).ipi = true ∨ ∃ d, (m.core d).asks = some (m.core c).current
  tsc : ∀ c, Running m c → (m.ec (m.core c).current).vcpu = true → (m.ec (m.core c).current).tsc = false

theorem Placed.ecs (h : Placed m) (hcore : m'.core = m.core) (hcpu : ∀ e, (m'.ec e).cpu = (m.ec e).cpu)
    (hvcpu : ∀ e, (m'.ec e).vcpu = (m.ec e).vcpu)
    (hsame : ∀ c, Running m c → (m'.ec (m.core c).current).tsc = (m.ec (m.core c).current).tsc ∧
      ((m'.ec (m.core c).current).recalled = true → (m.ec (m.core c).current).recalled = true)) :
    Placed m' := by
  refine ⟨fun c => ?_, fun c => ?_, fun c => ?_, fun c hc hr => ?_, fun c hc hv => ?_⟩
  · rw [hcore, hcpu]
    exact h.home c
  · simpa only [Free, hcore] using h.busy c
  · simpa only [hcore] using h.once c
  · simp only [Running, hcore] at hc hr ⊢
    exact h.rings c hc ((hsame c hc).2 hr)
  · simp only [Running, hcore, hvcpu] at hc hv ⊢
    rw [(hsame c hc).1]
    exact h.tsc c hc hv

theorem Placed.aside [DecidableEq E] {e : E} (h : Placed m) (f : Ec κ → Ec κ)
    (hf : ∀ x, (f x).cpu = x.cpu ∧ (f x).vcpu = x.vcpu) (he : ∀ c, Running m c → (m.core c).current ≠ e) :
    Placed (m.setEc e f) := by
  refine h.ecs rfl (fun x => ?_) (fun x => ?_) fun c hc => ?_
  · rw [setEc_ec]
    split_ifs with hx
    · rw [hx, (hf _).1]
    · rfl
  · rw [setEc_ec]
    split_ifs with hx
    · rw [hx, (hf _).2]
    · rfl
  · rw [setEc_ec, if_neg (he c hc)]
    exact ⟨rfl, id⟩

theorem Aside.not_current {e : E} (hp : Placed m) (h : m.Aside e) (c : κ) : (m.core c).current ≠ e := by
  rintro rfl
  have hc := hp.home c
  exact h.2 (by rw [hc])

theorem kernel_not_current {e : E} (hp : Placed m) (h : (m.core (m.ec e).cpu).stage = .kernel) (c : κ)
    (hc : Running m c) : (m.core c).current ≠ e := by
  rintro rfl
  rw [hp.home c] at h
  exact not_running c (.inl h) hc

theorem Placed.alone {c : κ} (h : Placed m) (hcore : ∀ d, d ≠ c → m'.core d = m.core d)
    (hec : ∀ e, (m.ec e).cpu ≠ c → m'.ec e = m.ec e) (hfree : m.Free c) (hfree' : m'.Free c)
    (hhome : (m'.ec (m'.core c).current).cpu = c)
    (hrun : Running m' c → (m'.ec (m'.core c).current).recalled = false ∧
      ((m'.ec (m'.core c).current).vcpu = true → (m'.ec (m'.core c).current).tsc = false)) : Placed m' := by
  have hother : ∀ d, d ≠ c → m'.ec (m.core d).current = m.ec (m.core d).current := fun d hd =>
    hec _ (by rw [h.home d]; exact hd)
  refine ⟨fun d => ?_, fun d => ?_, fun d => ?_, fun d hd hr => ?_, fun d hd hv => ?_⟩ <;> by_cases hdc : d = c
  · rw [hdc, hhome]
  · rw [hcore d hdc, hother d hdc]
    exact h.home d
  · exact .inl (hdc ▸ hfree')
  · simpa only [Free, hcore d hdc] using h.busy d
  · exact .inl (hdc ▸ hfree'.1)
  · simpa only [hcore d hdc] using h.once d
  · subst hdc
    rw [(hrun hd).1] at hr
    cases hr
  · have hd' : Running m d := by simpa only [Running, hcore d hdc] using hd
    rw [hcore d hdc] at hr ⊢
    rw [hother d hdc] at hr
    rcases h.rings d hd' hr with hipi | ⟨a, ha⟩
    · exact .inl hipi
    · have hac : a ≠ c := by
        rintro rfl
        rw [hfree.2] at ha
        cases ha
      exact .inr ⟨a, by rw [hcore a hac]; exact ha⟩
  · subst hdc
    exact (hrun hd).2 hv
  · have hd' : Running m d := by simpa only [Running, hcore d hdc] using hd
    rw [hcore d hdc, hother d hdc] at hv ⊢
    exact h.tsc d hd' hv

theorem Placed.own [DecidableEq κ] {c : κ} (h : Placed m) (f : Core E → Core E)
    (hcurrent : (f (m.core c)).current = (m.core c).current) (hasks : (f (m.core c)).asks = (m.core c).asks)
    (hlooks : (f (m.core c)).looks = (m.core c).looks ∨ (f (m.core c)).asks = none)
    (hstage : (f (m.core c)).stage = .kernel ∨
      Running m c ∧ (f (m.core c)).looks = (m.core c).looks ∧ (f (m.core c)).ipi = (m.core c).ipi) :
    Placed (m.setCore c f) := by
  obtain ⟨hhome, hbusy, honce, hrings, htsc⟩ := h
  refine ⟨fun d => ?_, fun d => ?_, fun d => ?_, fun d => ?_, fun d => ?_⟩ <;>
    simp only [Free, Running, setCore_core, setCore_ec] at * <;> grind

section
variable [DecidableEq κ] [DecidableEq E] {a : Act κ E}

/-! ### An EC never moves -/

theorem step_ec (a : Act κ E) (e : E) :
    ((m.step a).ec e).cpu = (m.ec e).cpu ∧ ((m.step a).ec e).vcpu = (m.ec e).vcpu ∧
      ((∀ v, a ≠ .setAux e v) → ((m.step a).ec e).aux = (m.ec e).aux) := by
  cases a with
  | check c =>
    simp only [Machine.step, Machine.check, portal, Machine.load]
    split_ifs <;> simp only [setCore_ec, setEc_ec] <;> split_ifs with h <;> simp_all
  | switch c x =>
    simp only [Machine.step, Machine.switch, setCore_ec, setEc_ec]
    split_ifs with h <;> simp_all
  | look c x =>
    simp only [Machine.step]
    split_ifs <;> exact ⟨rfl, rfl, fun _ => rfl⟩
  | ask c x =>
    simp only [Machine.step, setCore_ec, setEc_ec]
    split_ifs with h <;> simp_all
  | test c x =>
    simp only [Machine.step]
    split_ifs <;> simp
  | tick t => exact ⟨rfl, rfl, fun _ => rfl⟩
  | enter c => exact ⟨rfl, rfl, fun _ => rfl⟩
  | exit c => exact ⟨rfl, rfl, fun _ => rfl⟩
  | interrupt c => exact ⟨rfl, rfl, fun _ => rfl⟩
  | wake c => exact ⟨rfl, rfl, fun _ => rfl⟩
  | _ =>
    simp only [Machine.step, setEc_ec]
    split_ifs with h <;> simp_all

theorem step_id (a : Act κ E) : (m.step a).id = m.id := by
  cases a with
  | check c =>
    simp only [Machine.step, Machine.check, portal, load]
    split_ifs <;> rfl
  | look c x =>
    simp only [Machine.step]
    split_ifs <;> rfl
  | test c x =>
    simp only [Machine.step]
    split_ifs <;> rfl
  | _ => rfl

/-! ### What holds of each EC -/

/-- Every recall that was asked for has come to its portal, was taken back, or is pending; what the
hardware has is the offset, unless it is still to be written; the offset is made up of what the VMM has
added and the time that was stolen; and the SC knows since when it is ready. -/
structure Fine (x : Ec κ) : Prop where
  count : x.asked = x.served + x.waived + x.recalled.toNat
  loaded : x.vcpu = true → x.tsc = false → x.loaded = x.offset
  offset : x.offset = x.added - x.stolen
  since : ∀ t, x.ready = some t → x.since = t

omit [DecidableEq κ] in
theorem Fine.go {x : Ec κ} (h : Fine x) (hr : x.ready ≠ none) (t : BitVec 64) :
    Fine { x with
      offset := x.offset + (x.since - t), tsc := true, since := t, ready := none
      stolen := x.stolen + (t - x.ready.getD t) } := by
  obtain ⟨s, hs⟩ := Option.ne_none_iff_exists'.mp hr
  refine ⟨h.count, by simp, ?_, by simp⟩
  have hoffset := h.offset
  dsimp only
  rw [hs, Option.getD_some, h.since s hs, hoffset]
  ring

omit [DecidableEq κ] in
theorem Fine.addOffset {x : Ec κ} (h : Fine x) (v : BitVec 64) :
    Fine { x with offset := x.offset + v, tsc := true, added := x.added + v } := by
  refine ⟨h.count, by simp, ?_, h.since⟩
  have hoffset := h.offset
  dsimp only
  rw [hoffset]
  ring

omit [DecidableEq κ] in
theorem Fine.load {x : Ec κ} (h : Fine x) :
    Fine { x with
      loaded := if x.tsc && x.vcpu then x.offset else x.loaded, tsc := x.tsc && !x.vcpu, tscAux := false } := by
  refine ⟨h.count, fun hv ht => ?_, h.offset, h.since⟩
  have hv' : x.vcpu = true := hv
  cases hx : x.tsc with
  | true => simp [hv']
  | false => simpa using h.loaded hv hx

theorem Fine.step (h : ∀ e, Fine (m.ec e)) (hr : m.Ready a) (e : E) : Fine ((m.step a).ec e) := by
  cases a with
  | check c =>
    simp only [Machine.step, Machine.check]
    split_ifs with hc
    · simp only [portal, setCore_ec, setEc_ec]
      split_ifs with he
      · have hx := h (m.core c).current
        have hcount := hx.count
        rw [hc] at hcount
        refine ⟨?_, hx.loaded, hx.offset, hx.since⟩
        simp at hcount ⊢
        omega
      · exact h e
    · simp only [Machine.load, setCore_ec, setEc_ec]
      by_cases he : e = (m.core c).current
      · rw [if_pos he]
        exact (h (m.core c).current).load
      · rw [if_neg he]
        exact h e
  | switch c x =>
    simp only [Machine.step, Machine.switch, setCore_ec, setEc_ec]
    split_ifs with he
    · exact ⟨(h x).count, (h x).loaded, (h x).offset, (h x).since⟩
    · exact h e
  | look c x =>
    simp only [Machine.step]
    split_ifs <;> exact h e
  | ask c x =>
    simp only [Machine.step, setCore_ec, setEc_ec]
    split_ifs with he
    · have hcount := (h x).count
      refine ⟨?_, (h x).loaded, (h x).offset, (h x).since⟩
      cases hc : (m.ec x).recalled <;> simp [hc] at hcount ⊢ <;> omega
    · exact h e
  | test c x =>
    simp only [Machine.step]
    split_ifs <;> exact h e
  | hold x =>
    simp only [Machine.step, setEc_ec]
    split_ifs with he
    · have hcount := (h x).count
      refine ⟨?_, (h x).loaded, (h x).offset, (h x).since⟩
      cases hc : (m.ec x).recalled <;> simp [hc] at hcount ⊢ <;> omega
    · exact h e
  | waive x =>
    simp only [Machine.step, setEc_ec]
    split_ifs with he
    · have hcount := (h x).count
      refine ⟨?_, (h x).loaded, (h x).offset, (h x).since⟩
      cases hc : (m.ec x).recalled <;> simp [hc] at hcount ⊢ <;> omega
    · exact h e
  | go x =>
    simp only [Machine.step, setEc_ec]
    split_ifs with he
    · exact (h x).go hr.2 m.now
    · exact h e
  | addOffset x v =>
    simp only [Machine.step, setEc_ec]
    split_ifs with he
    · exact (h x).addOffset v
    · exact h e
  | wait x =>
    simp only [Machine.step, setEc_ec]
    split_ifs with he
    · exact ⟨(h x).count, (h x).loaded, (h x).offset, fun _ => Option.some.inj⟩
    · exact h e
  | setAux x v =>
    simp only [Machine.step, setEc_ec]
    split_ifs with he
    · exact ⟨(h x).count, (h x).loaded, (h x).offset, (h x).since⟩
    · exact h e
  | tick t => exact h e
  | enter c => exact h e
  | exit c => exact h e
  | interrupt c => exact h e
  | wake c => exact h e

theorem Placed.switch {c : κ} {x : E} (h : Placed m) (hfree : m.Free c) (hcpu : (m.ec x).cpu = c) :
    Placed (m.switch c x) := by
  refine h.alone (c := c) (fun d hd => ?_) (fun e he => ?_) hfree ?_ ?_ fun hrun =>
    absurd hrun (not_running c (.inl ?_))
  · simp [Machine.switch, hd]
  · have hne : e ≠ x := by rintro rfl; exact he hcpu
    simp [Machine.switch, hne]
  · simpa [Free, Machine.switch] using hfree
  · simpa [Machine.switch] using hcpu
  · simp [Machine.switch]

theorem Placed.portal {c : κ} (h : Placed m) (hfree : m.Free c) : Placed (m.portal c) := by
  refine h.alone (c := c) (fun d hd => ?_) (fun e he => ?_) hfree ?_ ?_ fun hrun =>
    absurd hrun (not_running c (.inr ?_))
  · simp [Machine.portal, hd]
  · have hne : e ≠ (m.core c).current := by rintro rfl; exact he (h.home c)
    simp [Machine.portal, hne]
  · simpa [Free, Machine.portal] using hfree
  · simpa [Machine.portal] using h.home c
  · simp [Machine.portal]

theorem Placed.load {c : κ} (h : Placed m) (hfree : m.Free c) (hc : (m.ec (m.core c).current).recalled = false) :
    Placed (m.load c) := by
  refine h.alone (c := c) (fun d hd => ?_) (fun e he => ?_) hfree ?_ ?_ fun _ => ⟨?_, fun hv => ?_⟩
  · simp [Machine.load, hd]
  · have hne : e ≠ (m.core c).current := by rintro rfl; exact he (h.home c)
    simp [Machine.load, hne]
  · simpa [Free, Machine.load] using hfree
  · simpa [Machine.load] using h.home c
  · simpa [Machine.load] using hc
  · have hv' : (m.ec (m.core c).current).vcpu = true := by simpa [Machine.load] using hv
    simp [Machine.load, hv']

theorem Placed.ask {c : κ} {x : E} (h : Placed m) (hlooks : (m.core c).looks = some x) :
    Placed (m.step (.ask c x)) := by
  obtain ⟨hhome, hbusy, honce, hrings, htsc⟩ := h
  refine ⟨fun d => ?_, fun d => ?_, fun d => ?_, fun d => ?_, fun d => ?_⟩ <;>
    simp only [Machine.step, Free, Running, setCore_core, setCore_ec, setEc_ec, setEc_core] at * <;> grind

theorem Placed.test {c : κ} {x : E} (h : Placed m) (hasks : (m.core c).asks = some x) :
    Placed (m.step (.test c x)) := by
  obtain ⟨hhome, hbusy, honce, hrings, htsc⟩ := h
  simp only [Machine.step]
  split_ifs with hd <;> refine ⟨fun d => ?_, fun d => ?_, fun d => ?_, fun d => ?_, fun d => ?_⟩ <;>
    simp only [Free, Running, setCore_core, setCore_ec] at * <;> grind

theorem Placed.step (h : Placed m) (hr : m.Ready a) : Placed (m.step a) := by
  cases a with
  | tick t => exact h.ecs rfl (fun _ => rfl) (fun _ => rfl) fun _ _ => ⟨rfl, id⟩
  | switch c x => exact h.switch hr.2.1 hr.2.2
  | check c =>
    simp only [Machine.step, Machine.check]
    split_ifs with hc
    · exact h.portal hr.2
    · exact h.load hr.2 (Bool.eq_false_of_not_eq_true hc)
  | enter c =>
    simp only [Machine.step]
    exact h.own _ (by rfl) (by rfl) (.inl (by rfl)) (.inr ⟨.inl hr, by rfl, by rfl⟩)
  | exit c =>
    simp only [Machine.step]
    exact h.own _ (by rfl) (by rfl) (.inl (by rfl)) (.inl (by rfl))
  | interrupt c =>
    simp only [Machine.step]
    exact h.own _ (by rfl) (by rfl) (.inl (by rfl)) (.inl (by rfl))
  | wake c =>
    simp only [Machine.step]
    exact h.own _ (by rfl) (by rfl) (.inl (by rfl)) (.inl hr)
  | look c x =>
    simp only [Machine.step]
    split_ifs with hx
    · exact h
    · exact h.own _ (by rfl) (by rfl) (.inr hr.2.2) (.inl hr.1)
  | ask c x => exact h.ask hr
  | test c x => exact h.test hr
  | hold x =>
    simp only [Machine.step]
    exact h.aside _ (fun _ => ⟨by rfl, by rfl⟩) fun c _ => Aside.not_current h hr c
  | waive x =>
    simp only [Machine.step]
    exact h.aside _ (fun _ => ⟨by rfl, by rfl⟩) fun c _ => Aside.not_current h hr c
  | wait x =>
    simp only [Machine.step]
    exact h.aside _ (fun _ => ⟨by rfl, by rfl⟩) (kernel_not_current h hr.1)
  | go x =>
    simp only [Machine.step]
    exact h.aside _ (fun _ => ⟨by rfl, by rfl⟩) (kernel_not_current h hr.1)
  | setAux x v =>
    simp only [Machine.step]
    exact h.aside _ (fun _ => ⟨by rfl, by rfl⟩) fun c _ => Aside.not_current h hr c
  | addOffset x v =>
    simp only [Machine.step]
    exact h.aside _ (fun _ => ⟨by rfl, by rfl⟩) fun c _ => Aside.not_current h hr c

/-! ### What `TSC_AUX` is -/

/-- Where `TSC_AUX` is not what the EC wants, it is still to be written, and on the way out of the kernel
nothing is. -/
structure Fresh (m : Machine κ E) : Prop where
  pending : ∀ c, (m.core c).aux = m.wants c (m.core c).current ∨ (m.ec (m.core c).current).tscAux = true
  running : ∀ c, Running m c → (m.core c).aux = m.wants c (m.core c).current

omit [DecidableEq κ] [DecidableEq E] in
theorem checkHazardTscAux_iff (c : κ) (e x : E) :
    m.checkHazardTscAux c (m.ec e) (m.ec x) = true ↔ m.wants c e ≠ m.wants c x := by
  unfold checkHazardTscAux wants
  cases (m.ec e).vcpu <;> cases (m.ec x).vcpu <;> simp

theorem step_aux (hp : Placed m) (hr : m.Ready a) (c : κ) :
    ((m.step a).ec (m.core c).current).aux = (m.ec (m.core c).current).aux := by
  refine (step_ec a (m.core c).current).2.2 fun v hv => ?_
  rw [hv] at hr
  exact Aside.not_current hp hr c rfl

theorem step_wants (hp : Placed m) (hr : m.Ready a) (c d : κ) :
    (m.step a).wants d (m.core c).current = m.wants d (m.core c).current := by
  have hvcpu := (step_ec (m := m) a (m.core c).current).2.1
  simp only [wants, hvcpu, step_aux hp hr c, step_id]

/-- Nothing happens to `TSC_AUX`, and the CPU does not start to run. -/
structure Kept (m m' : Machine κ E) (c : κ) : Prop where
  aux : (m'.core c).aux = (m.core c).aux
  current : (m'.core c).current = (m.core c).current
  tscAux : (m.ec (m.core c).current).tscAux = true → (m'.ec (m.core c).current).tscAux = true
  running : Running m' c → Running m c

theorem step_kept (hp : Placed m) (hr : m.Ready a) (c : κ) (hswitch : ∀ x, a ≠ .switch c x)
    (hwake : a ≠ .wake c) (hcheck : a = .check c → (m.ec (m.core c).current).recalled = true) : Kept m (m.step a) c := by
  have hhome := hp.home
  cases a with
  | switch d x =>
    have hcd : c ≠ d := by rintro rfl; exact hswitch x rfl
    simp only [Machine.step, Machine.switch]
    constructor <;> simp only [Running, setCore_core, setCore_ec, setEc_ec, setEc_core] <;> grind
  | check d =>
    simp only [Machine.step, Machine.check, Machine.portal, Machine.load]
    split_ifs <;> constructor <;> simp only [Running, setCore_core, setCore_ec, setEc_ec, setEc_core] <;> grind
  | look d x =>
    simp only [Machine.step]
    split_ifs with hx
    · exact ⟨rfl, rfl, id, id⟩
    · constructor <;> simp only [Running, setCore_core, setCore_ec] <;> grind
  | test d x =>
    simp only [Machine.step]
    split_ifs <;> constructor <;> simp only [Running, setCore_core, setCore_ec] <;> grind
  | enter d =>
    have hstage : (m.core d).stage = .checked := hr
    constructor <;> simp only [Machine.step, Running, setCore_core, setCore_ec] <;> grind
  | tick t => exact ⟨rfl, rfl, id, id⟩
  | wake d =>
    have hcd : c ≠ d := by rintro rfl; exact hwake rfl
    constructor <;> simp only [Machine.step, Running, setCore_core, setCore_ec] <;> grind
  | _ => constructor <;> simp only [Machine.step, Running, setCore_core, setCore_ec, setEc_ec, setEc_core] <;> grind

theorem Fresh.switch {c : κ} {x : E} (h : Fresh m) (hcalm : m.Calm (.switch c x)) :
    ((m.switch c x).core c).aux = (m.switch c x).wants c x ∨ ((m.switch c x).ec x).tscAux = true := by
  have hiff := checkHazardTscAux_iff (m := m) c (m.core c).current x
  have hwants : (m.switch c x).wants c x = m.wants c x := by
    simp only [wants, Machine.switch, setCore_ec, setEc_ec, setCore_id, setEc_id, if_true]
  rw [hwants]
  simp only [Machine.switch, setCore_core, setCore_ec, setEc_ec, setEc_core, if_true, Bool.or_eq_true, hiff]
  rcases h.pending c with haux | hflag
  · rw [haux]
    by_cases heq : m.wants c (m.core c).current = m.wants c x
    · exact .inl heq
    · exact .inr (.inr heq)
  · exact .inr (.inr fun heq => hcalm hflag heq.symm)

theorem Fresh.load {c : κ} (h : Fresh m) : ((m.load c).core c).aux = (m.load c).wants c (m.core c).current := by
  have hwants : (m.load c).wants c (m.core c).current = m.wants c (m.core c).current := by
    simp only [wants, Machine.load, setCore_ec, setEc_ec, setCore_id, setEc_id, if_true]
  rw [hwants]
  simp only [Machine.load, setCore_core, if_true, setEc_core]
  split_ifs with hflag
  · rfl
  · exact (h.pending c).resolve_right hflag

theorem Fresh.step (h : Fresh m) (hp : Placed m) (hr : m.Ready a) (hcalm : m.Calm a) : Fresh (m.step a) := by
  suffices hc : ∀ c, ((((m.step a).core c).aux = (m.step a).wants c ((m.step a).core c).current ∨
      ((m.step a).ec ((m.step a).core c).current).tscAux = true) ∧
      (Running (m.step a) c → ((m.step a).core c).aux = (m.step a).wants c ((m.step a).core c).current)) from
    ⟨fun c => (hc c).1, fun c => (hc c).2⟩
  intro c
  by_cases hswitch : ∃ x, a = .switch c x
  · obtain ⟨x, rfl⟩ := hswitch
    have hcurrent : ((m.switch c x).core c).current = x := by simp [Machine.switch]
    have hstage : ((m.switch c x).core c).stage = .kernel := by simp [Machine.switch]
    simp only [Machine.step, hcurrent]
    exact ⟨h.switch hcalm, fun hrun => absurd hrun (not_running c (.inl hstage))⟩
  by_cases hwake : a = .wake c
  · subst hwake
    have hstage : (m.core c).stage = .kernel := hr
    have hwants : (m.step (.wake c)).wants c (m.core c).current = m.wants c (m.core c).current := rfl
    simp only [Machine.step, setCore_core, setCore_ec, if_true] at hwants ⊢
    rw [hwants]
    exact ⟨hcalm.imp Eq.symm id, fun hrun => absurd hrun (not_running c (.inl (by simpa using hstage)))⟩
  by_cases hcheck : a = .check c ∧ (m.ec (m.core c).current).recalled = false
  · obtain ⟨rfl, hrecall⟩ := hcheck
    have hcurrent : ((m.load c).core c).current = (m.core c).current := by simp [Machine.load]
    simp only [Machine.step, Machine.check, hrecall, Bool.false_eq_true, if_false, hcurrent]
    exact ⟨.inl h.load, fun _ => h.load⟩
  have hkept : Kept m (m.step a) c :=
    step_kept hp hr c (fun x hx => hswitch ⟨x, hx⟩) hwake fun hx =>
      Bool.eq_true_of_not_eq_false fun hf => hcheck ⟨hx, hf⟩
  rw [hkept.aux, hkept.current, step_wants hp hr]
  exact ⟨(h.pending c).imp id hkept.tscAux, fun hrun => h.running c (hkept.running hrun)⟩

/-! ### Whole runs -/

omit [DecidableEq κ] [DecidableEq E] in
theorem Boot.fine (hb : Boot m) (e : E) : Fine (m.ec e) := by
  obtain ⟨hrecall, htsc, -⟩ := hb.ec e
  obtain ⟨hloaded, hoffset, hstolen, hadded, hready⟩ := hb.offset e
  obtain ⟨hasked, hserved, hwaived⟩ := hb.marks e
  exact ⟨by simp [hasked, hserved, hwaived, hrecall], fun _ _ => hloaded,
    by simp [hoffset, hstolen, hadded], by simp [hready]⟩

omit [DecidableEq κ] [DecidableEq E] in
theorem Boot.placed (hb : Boot m) : Placed m :=
  ⟨fun c => (hb.core c).1, fun c => .inl (hb.core c).2.2.2.2.2, fun c => .inl (hb.core c).2.2.2.2.2.1,
    fun c hc => absurd hc (not_running c (.inl (hb.core c).2.2.1)),
    fun c hc => absurd hc (not_running c (.inl (hb.core c).2.2.1))⟩

omit [DecidableEq κ] [DecidableEq E] in
theorem Boot.fresh (hb : Boot m) : Fresh m := by
  refine ⟨fun c => .inl ?_, fun c hc => absurd hc (not_running c (.inl (hb.core c).2.2.1))⟩
  rw [(hb.core c).2.2.2.1, wants, (hb.core c).2.1]
  rfl

theorem Run.fine (hrun : Run m m') (hb : Boot m) : (∀ e, Fine (m'.ec e)) ∧ Placed m' := by
  induction hrun with
  | refl => exact ⟨hb.fine, hb.placed⟩
  | step _ hr ih => exact ⟨Fine.step ih.1 hr, ih.2.step hr⟩

theorem CalmRun.run (hrun : CalmRun m m') : Run m m' := by
  induction hrun with
  | refl => exact .refl
  | step _ hr _ ih => exact .step ih hr

theorem CalmRun.fresh (hrun : CalmRun m m') (hb : Boot m) : Fresh m' := by
  induction hrun with
  | refl => exact hb.fresh
  | step hrun hr hcalm ih => exact ih.step (hrun.run.fine hb).2 hr hcalm

/-- No recall is lost: in every run each one that was asked for has come to its portal, was taken back, or
is pending, and if the EC runs meanwhile then its CPU is about to be interrupted. -/
theorem recall_served (hb : Boot m) (hrun : Run m m') (e : E) :
    (m'.ec e).asked = (m'.ec e).served + (m'.ec e).waived + (m'.ec e).recalled.toNat ∧
      ∀ c, Running m' c → (m'.core c).current = e → (m'.ec e).recalled = true →
        (m'.core c).ipi = true ∨ ∃ d, (m'.core d).asks = some e := by
  obtain ⟨hfine, hplaced⟩ := hrun.fine hb
  refine ⟨(hfine e).count, ?_⟩
  rintro c hc rfl
  exact hplaced.rings c hc

/-- A guest never sees an offset that is out of date: while it runs, the TSC it reads is that of the CPU,
less the time for which its SC was ready and did not run, and with what its VMM has added. -/
theorem tsc_virtual (hb : Boot m) (hrun : Run m m') {c : κ} (hc : Running m' c)
    (hv : (m'.ec (m'.core c).current).vcpu = true) :
    m'.guestTsc c = m'.now - (m'.ec (m'.core c).current).stolen + (m'.ec (m'.core c).current).added := by
  obtain ⟨hfine, hplaced⟩ := hrun.fine hb
  have hx := hfine (m'.core c).current
  rw [guestTsc, hx.loaded hv (hplaced.tsc c hc hv), hx.offset]
  ring

/-- In a calm run a guest finds its own `TSC_AUX`, and a thread the number of its CPU. -/
theorem aux_own (hb : Boot m) (hrun : CalmRun m m') {c : κ} (hc : Running m' c) :
    (m'.core c).aux = if (m'.ec (m'.core c).current).vcpu then (m'.ec (m'.core c).current).aux else m.id c := by
  have hid : m'.id = m.id := by
    have hr := hrun.run
    clear hrun hc
    induction hr with
    | refl => rfl
    | step _ _ ih => rw [step_id, ih]
  rw [(hrun.fresh hb).running c hc, wants, hid]

/-- A guest gives way to the idle EC, which has nothing written, and that to a thread, which takes the EC
before it for one with the value it wants: the thread finds the `TSC_AUX` of the guest. -/
theorem idle_passes {c : κ} {v i t : E} (hcurrent : (m.core c).current = v) (haux : (m.core c).aux = (m.ec v).aux)
    (hid : (m.ec v).aux ≠ m.id c) (hi : (m.ec i).vcpu = false) (ht : (m.ec t).vcpu = false)
    (hflag : (m.ec t).tscAux = false) (hrecall : (m.ec t).recalled = false) (hti : t ≠ i) :
    let m' := ((m.step (.switch c i)).step (.switch c t)).step (.check c)
    (m'.core c).stage = .checked ∧ (m'.core c).current = t ∧ (m'.core c).aux ≠ m'.wants c t := by
  simp [Machine.step, Machine.switch, Machine.check, Machine.load, wants, checkHazardTscAux, hi, ht, hflag, hrecall,
    hti, haux, hid, hcurrent]

end

end

/-- Two CPUs, each with its idle EC and another: a thread and a guest. -/
def two : Machine Bool (Bool × Bool) :=
  ⟨fun c => c.toNat, 0, fun e => ⟨e.1, e.1 && e.2, 0, 0, 0, false, false, false, 0, none, 0, 0, 0, 0, 0⟩,
    fun c => ⟨(c, false), .kernel, c.toNat, false, none, none⟩⟩

theorem two_boot : Boot two :=
  ⟨by decide, fun _ => ⟨rfl, rfl, rfl⟩, fun _ => ⟨rfl, rfl, rfl, rfl, rfl⟩, fun _ => ⟨rfl, rfl, rfl⟩⟩

/-- The guest waits from 2 to 5 and is given an offset of 100 and a `TSC_AUX` of 7, then it runs. -/
def entered : Machine Bool (Bool × Bool) :=
  let guest := (true, true)
  (((((((((two.step (.tick 2)).step (.wait guest)).step (.tick 5)).step (.go guest)).step
    (.addOffset guest 100)).step (.setAux guest 7)).step (.switch true guest)).step (.check true)).step
    (.enter true)).step (.tick 9)

theorem run_entered : CalmRun two entered := by
  unfold entered
  repeat' apply CalmRun.step
  · exact .refl
  all_goals decide

theorem tsc_virtual_entered : entered.guestTsc true = 106 :=
  (tsc_virtual two_boot run_entered.run (.inr (by decide)) (by decide)).trans (by decide)

theorem aux_own_entered : (entered.core true).aux = 7 :=
  (aux_own two_boot run_entered (.inr (by decide))).trans (by decide)

def called : Machine Bool (Bool × Bool) :=
  (((entered.step (.switch false (false, true))).step (.look false (true, true))).step
    (.ask false (true, true))).step (.test false (true, true))

theorem run_called : Run two called := by
  refine .step (.step (.step (.step run_entered.run ?_) ?_) ?_) ?_ <;> decide

theorem recall_served_called : (called.core true).ipi = true ∨ ∃ d, (called.core d).asks = some (true, true) :=
  (recall_served two_boot run_called (true, true)).2 true (.inr (by decide)) (by decide) (by decide)

end Tukija.Hazard
