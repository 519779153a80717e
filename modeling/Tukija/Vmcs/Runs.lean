import Tukija.Vmcs.Order

/-! Over every run each vCPU finds in its VMCS what was last left there, and no processor has anything
of a VMCS that is gone. -/
namespace Tukija.Vmcs

open Machine

section

variable {κ V D : Type}

/-- A processor holds only VMCSs of its own vCPUs, and these are in its queue. -/
structure Order (m : Machine κ V D) : Prop where
  ring : ∀ c, (m.core c).Ringed
  queued : ∀ c v, (m.core c).queued v = true ↔ (m.vmcs v).cpu = c ∧ (m.vmcs v).active = true
  alive : ∀ v, (m.vmcs v).active = true → (m.vmcs v).alive = true
  held : ∀ c v d, (m.core c).held v = some d → (m.vmcs v).cpu = c ∧ (m.vmcs v).active = true
  current : ∀ c v, (m.core c).current = some v → (m.vmcs v).cpu = c ∧ (m.vmcs v).active = true
  loaded : ∀ c v, (m.core c).loaded = some v → (m.core c).current = some v ∧ (m.core c).held v ≠ none

/-- The VMCS of its own that each vCPU seems to have.  Its content is lost when the CPU sleeps while it
is in the queue and not at the head. -/
structure Ledger (V D : Type) where
  kept : V → D
  lost : V → Bool

/-- What is not lost is in memory or with the processor of the vCPU, which then works on what is current. -/
structure Kept (m : Machine κ V D) (L : Ledger V D) : Prop where
  kept : ∀ v, (m.vmcs v).alive = true → L.lost v = false → m.held (m.vmcs v).cpu v = L.kept v
  active : ∀ v, L.lost v = false → (m.vmcs v).active = true → (m.core (m.vmcs v).cpu).held v ≠ none
  loaded : ∀ c v, L.lost v = false → (m.core c).current = some v → (m.core c).loaded = some v

variable [DecidableEq κ] [DecidableEq V] {m : Machine κ V D} {c : κ} {v : V}

theorem order_makeCurrent (h : Order m) (hc : c = (m.vmcs v).cpu) (ha : (m.vmcs v).alive = true) :
    Order (m.makeCurrent c v) := by
  obtain ⟨ring, queued, alive, held, current, loaded⟩ := h
  refine ⟨fun c' => (makeCurrent_ring ring c c' v).1, fun c' x => ?_, fun x hx => ?_, fun c' x d hx => ?_,
    fun c' x hx => ?_, fun c' x hx => ?_⟩
  · rw [(makeCurrent_ring ring c c' v).2, makeCurrent_vmcs]
    grind
  · rw [makeCurrent_vmcs] at hx ⊢
    grind
  · rw [makeCurrent_held] at hx
    rw [makeCurrent_vmcs]
    grind
  · rw [makeCurrent_current] at hx
    rw [makeCurrent_vmcs]
    grind
  · rw [makeCurrent_loaded] at hx
    rw [makeCurrent_current, makeCurrent_held]
    grind

theorem order_write (h : Order m) (w : D → D) : Order (m.write c w) := by
  obtain ⟨ring, queued, alive, held, current, loaded⟩ := h
  refine ⟨fun c' => (ringed_congr (write_queue c c' w) (ring c')).1, fun c' x => ?_, fun x hx => ?_,
    fun c' x d hx => ?_, fun c' x hx => ?_, fun c' x hx => ?_⟩
  · rw [(ringed_congr (write_queue c c' w) (ring c')).2, write_vmcs, queued]
  · rw [write_vmcs] at hx ⊢
    exact alive x hx
  · rw [write_held] at hx
    rw [write_vmcs]
    grind
  · rw [write_current] at hx
    rw [write_vmcs]
    exact current c' x hx
  · rw [write_loaded] at hx
    rw [write_current, write_held]
    grind [Option.map_eq_none_iff]

theorem order_clear (h : Order m) (hc : c = (m.vmcs v).cpu ∨ (m.vmcs v).active = false) : Order (m.clear c v) := by
  obtain ⟨ring, queued, alive, held, current, loaded⟩ := h
  refine ⟨fun c' => (clear_ring ring c c' v).1, fun c' x => ?_, fun x hx => ?_, fun c' x d hx => ?_,
    fun c' x hx => ?_, fun c' x hx => ?_⟩
  · rw [(clear_ring ring c c' v).2, clear_vmcs]
    grind
  · rw [clear_vmcs] at hx ⊢
    grind
  · rw [clear_held] at hx
    rw [clear_vmcs]
    grind
  · rw [clear_current] at hx
    rw [clear_vmcs]
    grind
  · rw [clear_loaded] at hx
    rw [clear_current, clear_held]
    grind

theorem order_visit (h : Order m) (hi : (m.vmcs v).active = false) (ha : (m.vmcs v).alive = true) :
    Order ((m.makeCurrent c v).clear c v) := by
  by_cases hc : c = (m.vmcs v).cpu
  · refine order_clear (order_makeCurrent h hc ha) (.inl ?_)
    rw [makeCurrent_vmcs, if_pos rfl, hc]
  · obtain ⟨ring, queued, alive, held, current, loaded⟩ := h
    have ring' := fun c' => (makeCurrent_ring ring c c' v).1
    have vmcs : ∀ x, ((m.makeCurrent c v).clear c v).vmcs x =
        if x = v then { m.vmcs v with region := (m.makeCurrent c v).held c v } else m.vmcs x := by
      intro x
      rw [clear_vmcs, makeCurrent_vmcs, makeCurrent_vmcs]
      grind
    refine ⟨fun c' => (clear_ring ring' c c' v).1, fun c' x => ?_, fun x hx => ?_, fun c' x d hx => ?_,
      fun c' x hx => ?_, fun c' x hx => ?_⟩
    · rw [(clear_ring ring' c c' v).2, (makeCurrent_ring ring c c' v).2, vmcs, makeCurrent_vmcs]
      grind
    · rw [vmcs] at hx ⊢
      grind
    · rw [clear_held, makeCurrent_held, makeCurrent_vmcs] at hx
      rw [vmcs]
      grind
    · rw [clear_current, makeCurrent_current, makeCurrent_current, makeCurrent_vmcs] at hx
      rw [vmcs]
      grind
    · rw [clear_loaded, makeCurrent_loaded, makeCurrent_loaded, makeCurrent_vmcs] at hx
      rw [clear_current, makeCurrent_current, makeCurrent_current, clear_held, makeCurrent_held, makeCurrent_vmcs]
      grind

omit [DecidableEq κ] in
theorem order_setVmcs {g : State κ D → State κ D} (h : Order m) (hi : (m.vmcs v).active = false)
    (hg : (g (m.vmcs v)).active = false) : Order (m.setVmcs v g) := by
  obtain ⟨ring, queued, alive, held, current, loaded⟩ := h
  refine ⟨ring, fun c' x => ?_, fun x hx => ?_, fun c' x d hx => ?_, fun c' x hx => ?_, fun c' x hx => loaded c' x hx⟩
  · rw [setVmcs_core, setVmcs_vmcs, queued]
    grind
  · rw [setVmcs_vmcs] at hx ⊢
    grind
  · rw [setVmcs_vmcs]
    grind [held c' x d hx]
  · rw [setVmcs_vmcs]
    grind [current c' x hx]

theorem clear_active : ((m.clear c v).vmcs v).active = false := by
  rw [clear_vmcs]
  grind

theorem clear_who (x : V) :
    ((m.clear c v).vmcs x).alive = (m.vmcs x).alive ∧ ((m.clear c v).vmcs x).cpu = (m.vmcs x).cpu := by
  rw [clear_vmcs]
  grind

theorem makeCurrent_who (x : V) :
    ((m.makeCurrent c v).vmcs x).alive = (m.vmcs x).alive ∧ ((m.makeCurrent c v).vmcs x).cpu = (m.vmcs x).cpu := by
  rw [makeCurrent_vmcs]
  grind

theorem order_destroy (h : Order m) (r : m.Ready (.destroy c v)) (ht : m.Tame (.destroy c v)) :
    Order (m.destroy c v) := by
  have hc : c = (m.vmcs v).cpu ∨ (m.vmcs v).active = false := by
    refine ht.imp_right fun hq => ?_
    rw [← Bool.not_eq_true, h.queued] at hq
    simpa using hq
  refine order_setVmcs (order_visit (order_clear h hc) clear_active ?_) clear_active clear_active
  rw [(clear_who v).1]
  exact r

/-- What the constructor of `Vmcs` leaves to that of `Vmcs_state`. -/
def Machine.made (m : Machine κ V D) (c : κ) (v : V) (cpu : κ) (d : D) : Machine κ V D :=
  ((m.setVmcs v fun x => { x with cpu, active := false, alive := true }).vmcsMakeCurrent c v).write c fun _ => d

theorem create_eq {cpu : κ} {d : D} (hq : (m.core cpu).queued v = false) :
    m.create c v cpu d = ((m.made c v cpu d).makeCurrent c v).clear c v := by
  obtain ⟨hn, hp⟩ := links_null hq
  have hlinks : ((m.core cpu).links.setNext v none).setPrev v none = (m.core cpu).links := by
    simp only [Sm.Links.setNext, Sm.Links.setPrev, ← hn, Function.update_eq_self]
    simp only [hn, ← hp, Function.update_eq_self]
  have hcore : (m.setVmcs v fun x => { x with cpu, active := false, alive := true }).setCore cpu
      (fun k => { k with links := (k.links.setNext v none).setPrev v none }) =
      m.setVmcs v fun x => { x with cpu, active := false, alive := true } := by
    simp only [setCore, setVmcs_core, hlinks, Function.update_eq_self]
    rfl
  rw [create, made, hcore]

section
variable {cpu : κ} {d : D} (hcur : (m.core c).current ≠ some v)
include hcur

theorem made_vmcs (x : V) : (m.made c v cpu d).vmcs x =
    if x = v then { m.vmcs v with cpu, active := false, alive := true } else m.vmcs x := by
  simp [made, write_vmcs, vmcsMakeCurrent, vmptrld, hcur]

theorem made_current (c' : κ) :
    ((m.made c v cpu d).core c').current = if c' = c then some v else (m.core c').current := by
  by_cases hc : c' = c <;> simp [made, write_current, vmcsMakeCurrent, vmptrld, hcur, hc]

theorem made_loaded (c' : κ) :
    ((m.made c v cpu d).core c').loaded = if c' = c then some v else (m.core c').loaded := by
  by_cases hc : c' = c <;> simp [made, write_loaded, vmcsMakeCurrent, vmptrld, hcur, hc]

theorem made_held (c' : κ) (x : V) :
    ((m.made c v cpu d).core c').held x = if c' = c ∧ x = v then some d else (m.core c').held x := by
  have hv : ((m.setVmcs v fun x => { x with cpu, active := false, alive := true }).vmcsMakeCurrent c v).core c' =
      if c' = c then { m.core c with
        current := some v, loaded := some v
        held := Function.update (m.core c).held v (some (m.held c v)) } else m.core c' := by
    by_cases hc : c' = c <;> simp [vmcsMakeCurrent, vmptrld, hcur, hc, Machine.held]
  rw [made, write_held, hv]
  by_cases hc : c' = c
  · subst hc
    by_cases hx : x = v
    · simp [hv, hx]
    · simp [hv, hx, Ne.symm hx]
  · simp [hc]

end

theorem made_queue (c : κ) (v : V) (cpu : κ) (d : D) (c' : κ) : ((m.made c v cpu d).core c').headptr = (m.core c').headptr ∧
    ((m.made c v cpu d).core c').links = (m.core c').links := by
  rw [made, (write_queue ..).1, (write_queue ..).2, (vmcsMakeCurrent_queue ..).1, (vmcsMakeCurrent_queue ..).2]
  exact ⟨rfl, rfl⟩

theorem create_vmcs {cpu : κ} {d : D} (h : Order m) (r : m.Ready (.create c v cpu d)) (x : V) :
    (m.create c v cpu d).vmcs x = if x = v then ⟨cpu, false, true, d⟩ else m.vmcs x := by
  have hi : (m.vmcs v).active ≠ true := fun ha => by simp [Ready, h.alive v ha] at r
  have hcur : (m.core c).current ≠ some v := fun hc => hi (h.current c v hc).2
  have hq : (m.core cpu).queued v = false := by
    rw [← Bool.not_eq_true, h.queued]
    exact fun hq => hi hq.2
  rw [create_eq hq, clear_vmcs, makeCurrent_vmcs, makeCurrent_vmcs, made_vmcs hcur, made_vmcs hcur, Machine.held,
    makeCurrent_held, made_current hcur, made_held hcur]
  grind

theorem order_create {cpu : κ} {d : D} (h : Order m) (r : m.Ready (.create c v cpu d)) :
    Order (m.create c v cpu d) := by
  have hvmcs := create_vmcs h r
  have hi : (m.vmcs v).active ≠ true := fun ha => by simp [Ready, h.alive v ha] at r
  obtain ⟨ring, queued, alive, held, current, loaded⟩ := h
  have hcur : (m.core c).current ≠ some v := fun hc => hi (current c v hc).2
  have hq : (m.core cpu).queued v = false := by
    rw [← Bool.not_eq_true, queued]
    exact fun hq => hi hq.2
  have ring₁ := fun c' => (ringed_congr (made_queue c v cpu d c') (ring c')).1
  have queued₁ := fun c' => (ringed_congr (made_queue c v cpu d c') (ring c')).2
  have ring₂ := fun c' => (makeCurrent_ring ring₁ c c' v).1
  have hact : (((m.made c v cpu d).makeCurrent c v).vmcs v).active = true := by rw [makeCurrent_vmcs, if_pos rfl]
  rw [create_eq hq] at hvmcs ⊢
  refine ⟨fun c' => (clear_ring ring₂ c c' v).1, fun c' x => ?_, fun x hx => ?_, fun c' x e hx => ?_,
    fun c' x hx => ?_, fun c' x hx => ?_⟩
  · rw [(clear_ring ring₂ c c' v).2, (makeCurrent_ring ring₁ c c' v).2, queued₁, hvmcs, (makeCurrent_who v).2,
      made_vmcs hcur]
    grind
  · rw [hvmcs] at hx ⊢
    grind
  · rw [clear_held, hact, makeCurrent_held, made_held hcur, made_current hcur] at hx
    rw [hvmcs]
    grind
  · rw [clear_current, hact, makeCurrent_current, makeCurrent_current, made_current hcur, made_current hcur] at hx
    rw [hvmcs]
    grind
  · rw [clear_loaded, hact, makeCurrent_loaded, makeCurrent_loaded, made_loaded hcur, made_loaded hcur,
      made_current hcur] at hx
    rw [clear_current, hact, makeCurrent_current, makeCurrent_current, clear_held, hact, makeCurrent_held,
      made_held hcur, made_current hcur, made_current hcur]
    grind

omit [DecidableEq V] in
theorem order_vmxoff (h : Order m) : Order (m.vmxoff c) := by
  obtain ⟨ring, queued, alive, held, current, loaded⟩ := h
  refine ⟨fun c' => ?_, fun c' x => ?_, alive, fun c' x d hx => ?_, fun c' x hx => ?_, fun c' x hx => ?_⟩ <;>
    by_cases hc : c' = c <;> simp only [vmxoff, setCore_core, hc, if_true, if_false] at * <;>
    first | exact ring _ | exact queued _ _ | cases hx | exact current _ _ hx | exact held _ _ _ hx | exact loaded _ _ hx

theorem flushAllVmcs_eq (h : Order m) {a : V} (ha : (m.core c).headptr = some a) (fuel : Nat) :
    m.flushAllVmcs c (fuel + 1) = some (m.clear c a) := by
  have hq := (h.ring c).head ha
  have hc := ((h.queued c a).mp hq).1
  have hout : ((m.clear c a).core c).queued a = false := by
    rw [(clear_ring h.ring c c a).2]
    simp [hc]
  rw [flushAllVmcs, ha]
  dsimp only
  rw [clearLoop, (links_null hout).1]

theorem hltPrepare_eq (h : Order m) {fuel : Nat} {m' : Machine κ V D} (hs : m.hltPrepare c fuel = some m') :
    (m.core c).headptr = none ∧ m' = m.vmxoff c ∨
      ∃ a, (m.core c).headptr = some a ∧ m' = (m.clear c a).vmxoff c := by
  cases ha : (m.core c).headptr with
  | none =>
    rw [hltPrepare, flushAllVmcs, ha] at hs
    exact .inl ⟨rfl, by simpa using hs.symm⟩
  | some a =>
    cases fuel with
    | zero => simp [hltPrepare, flushAllVmcs, ha, clearLoop] at hs
    | succ fuel =>
      rw [hltPrepare, flushAllVmcs_eq h ha] at hs
      exact .inr ⟨a, rfl, by simpa using hs.symm⟩

theorem order_step {a : Act κ V D} {m' : Machine κ V D} (h : Order m) (r : m.Ready a) (ht : m.Tame a)
    (hs : m.step a = some m') : Order m' := by
  cases a with
  | create c v cpu d => exact Option.some.inj hs ▸ order_create h r
  | use c v f => exact Option.some.inj hs ▸ order_write (order_makeCurrent h r.2 r.1) f
  | flush c v =>
    rw [step, Machine.flush] at hs
    split at hs
    · next hc => exact Option.some.inj hs ▸ order_clear h (.inl hc)
    · exact Option.some.inj hs ▸ h
  | destroy c v => exact Option.some.inj hs ▸ order_destroy h r ht
  | sleep c fuel =>
    rcases hltPrepare_eq h hs with ⟨-, rfl⟩ | ⟨a, ha, rfl⟩
    · exact order_vmxoff h
    · exact order_vmxoff (order_clear h (.inl ((h.queued c a).mp ((h.ring c).head ha)).1.symm))

/-! ## Contents -/

variable {L : Ledger V D}

theorem Kept.makeCurrent (h : Order m) (k : Kept m L) (hc : c = (m.vmcs v).cpu) : Kept (m.makeCurrent c v) L := by
  obtain ⟨kept, active, loaded⟩ := k
  have stays := h.loaded
  refine ⟨fun x ha hl => ?_, fun x hl ha => ?_, fun c' x hl hx => ?_⟩
  · rw [(makeCurrent_who x).1] at ha
    rw [← kept x ha hl, (makeCurrent_who x).2, Machine.held, Machine.held, makeCurrent_held, makeCurrent_vmcs]
    grind [Machine.held]
  · rw [(makeCurrent_who x).2, makeCurrent_held]
    rw [makeCurrent_vmcs] at ha
    grind
  · rw [makeCurrent_current] at hx
    rw [makeCurrent_loaded]
    grind

theorem Kept.read (h : Order m) (k : Kept m L) (hc : c = (m.vmcs v).cpu) (ha : (m.vmcs v).alive = true)
    (hl : L.lost v = false) : (m.makeCurrent c v).read c = some (L.kept v) := by
  have k' := k.makeCurrent h hc
  have hload := k'.loaded c v hl (by rw [makeCurrent_current, if_pos rfl])
  have hheld := k'.active v hl (by rw [makeCurrent_vmcs, if_pos rfl])
  have hkept := k'.kept v (by rwa [(makeCurrent_who v).1]) hl
  rw [(makeCurrent_who v).2, ← hc] at hheld hkept
  obtain ⟨d, hd⟩ := Option.ne_none_iff_exists'.mp hheld
  rw [Machine.held, hd] at hkept
  rw [Machine.read, hload, Option.bind_some, hd]
  exact congrArg some hkept

theorem Kept.write (h : Order m) (k : Kept m L) (hcur : (m.core c).current = some v) (f : D → D) :
    Kept (m.write c f) { L with kept := Function.update L.kept v (f (L.kept v)) } := by
  obtain ⟨kept, active, loaded⟩ := k
  have hload := h.loaded c
  have hc := (h.current c v hcur).1
  refine ⟨fun x ha hl => ?_, fun x hl ha => ?_, fun c' x hl hx => ?_⟩
  · rw [write_vmcs] at ha ⊢
    rw [Machine.held, write_held, write_vmcs]
    dsimp only
    rw [Function.update_apply]
    have := kept x ha hl
    by_cases hx : x = v
    · subst hx
      obtain ⟨d, hd⟩ := Option.ne_none_iff_exists'.mp (hload x (loaded c x hl hcur)).2
      rw [hc, Machine.held, hd] at this
      simp only [hc, loaded c x hl hcur, and_self, if_true, hd, Option.map_some, Option.getD_some]
      exact congrArg f this
    · rw [if_neg hx, ← this, if_neg fun hl' => hx ?_, Machine.held]
      exact Option.some.inj ((hload x hl'.2).1.symm.trans hcur)
  · rw [write_vmcs] at ha ⊢
    rw [write_held]
    grind [Option.map_eq_none_iff]
  · rw [write_current] at hx
    rw [write_loaded]
    exact loaded c' x hl hx

theorem Kept.clear (k : Kept m L) (hc : c = (m.vmcs v).cpu ∨ (m.vmcs v).active = false) :
    Kept (m.clear c v) L := by
  obtain ⟨kept, active, loaded⟩ := k
  refine ⟨fun x ha hl => ?_, fun x hl ha => ?_, fun c' x hl hx => ?_⟩
  · rw [(clear_who x).1] at ha
    rw [← kept x ha hl, (clear_who x).2, Machine.held, Machine.held, clear_held, clear_vmcs]
    grind [Machine.held]
  · rw [(clear_who x).2, clear_held]
    rw [clear_vmcs] at ha
    grind
  · rw [clear_current] at hx
    rw [clear_loaded]
    grind

omit [DecidableEq κ] in
theorem Kept.replaced {m' : Machine κ V D} {L' : Ledger V D} (k : Kept m L) (h' : Order m')
    (hother : ∀ x, x ≠ v → m'.vmcs x = m.vmcs x ∧ ∀ c', (m'.core c').held x = (m.core c').held x)
    (hcore : ∀ c', (m'.core c').current = none ∨
      (m'.core c').current = (m.core c').current ∧ (m'.core c').loaded = (m.core c').loaded)
    (hledger : ∀ x, x ≠ v → L'.kept x = L.kept x ∧ L'.lost x = L.lost x) (hi : (m'.vmcs v).active = false)
    (hv : (m'.vmcs v).alive = true → (m'.vmcs v).region = L'.kept v) : Kept m' L' := by
  obtain ⟨kept, active, loaded⟩ := k
  have held := h'.held
  have current := h'.current
  refine ⟨fun x ha hl => ?_, fun x hl ha => ?_, fun c' x hl hx => ?_⟩
  · by_cases hx : x = v
    · subst hx
      have hn : (m'.core (m'.vmcs x).cpu).held x = none := by
        by_contra hn
        obtain ⟨d, hd⟩ := Option.ne_none_iff_exists'.mp hn
        simp [(held _ x d hd).2] at hi
      rw [Machine.held, hn]
      exact hv ha
    · rw [(hother x hx).1] at ha ⊢
      rw [(hledger x hx).1, ← kept x ha ((hledger x hx).2 ▸ hl), Machine.held, Machine.held, (hother x hx).1,
        (hother x hx).2]
  · have hx : x ≠ v := by
      rintro rfl
      simp [hi] at ha
    rw [(hother x hx).1, (hother x hx).2]
    exact active x ((hledger x hx).2 ▸ hl) ((hother x hx).1 ▸ ha)
  · have hxv : x ≠ v := by
      rintro rfl
      simp [(current c' x hx).2] at hi
    rcases hcore c' with hn | ⟨hcur, hload⟩
    · simp [hn] at hx
    · rw [hload]
      exact loaded c' x ((hledger x hxv).2 ▸ hl) (hcur ▸ hx)

omit [DecidableEq V] in
theorem Kept.vmxoff {L' : Ledger V D} (h : Order m) (k : Kept m L)
    (hledger : ∀ x, L'.kept x = L.kept x ∧ L'.lost x = (L.lost x || (m.core c).queued x)) :
    Kept (m.vmxoff c) L' := by
  obtain ⟨kept, active, loaded⟩ := k
  obtain ⟨ring, queued, alive, held, current, -⟩ := h
  have hlost : ∀ x, L'.lost x = false → L.lost x = false ∧ (m.core c).queued x = false := fun x hx => by
    simpa [(hledger x).2] using hx
  have hcore : ∀ c', (m.vmxoff c).core c' =
      if c' = c then { m.core c with loaded := none, held := fun _ => none } else m.core c' := fun c' => by
    rw [Machine.vmxoff, setCore_core]
  refine ⟨fun x ha hl => ?_, fun x hl ha => ?_, fun c' x hl hx => ?_⟩
  · obtain ⟨hl, hq⟩ := hlost x hl
    rw [(hledger x).1, ← kept x ha hl, Machine.held, Machine.held, hcore]
    have hq := queued c x
    have hd := held c x
    cases hh : (m.core c).held x <;> grind [Machine.vmxoff, setCore_vmcs]
  · obtain ⟨hl, hq⟩ := hlost x hl
    have hx := active x hl ha
    have hq := queued c x
    have hcpu : ((m.vmxoff c).vmcs x) = m.vmcs x := rfl
    rw [hcore, hcpu]
    rw [hcpu] at ha
    grind
  · obtain ⟨hl, hq⟩ := hlost x hl
    have hq := queued c x
    have hcur := current c' x
    rw [hcore] at hx ⊢
    grind

theorem destroy_fields (x : V) (c' : κ) : (x ≠ v → (m.destroy c v).vmcs x = m.vmcs x) ∧
    ((m.destroy c v).vmcs v).active = false ∧ ((m.destroy c v).vmcs v).alive = false ∧
    (x ≠ v → ((m.destroy c v).core c').held x = (m.core c').held x) ∧
    (((m.destroy c v).core c').current = none ∨ ((m.destroy c v).core c').current = (m.core c').current ∧
      ((m.destroy c v).core c').loaded = (m.core c').loaded) := by
  have hact : (((m.clear c v).makeCurrent c v).vmcs v).active = true := by rw [makeCurrent_vmcs, if_pos rfl]
  refine ⟨fun hx => ?_, ?_, ?_, fun hx => ?_, ?_⟩
  · simp only [destroy, setVmcs_vmcs, clear_vmcs, hx, false_and, if_false, makeCurrent_vmcs]
  · rw [destroy, setVmcs_vmcs, if_pos rfl]
    exact clear_active
  · rw [destroy, setVmcs_vmcs, if_pos rfl]
  · simp only [destroy, setVmcs_core, clear_held, makeCurrent_held, hx, and_false, if_false]
  · by_cases hc : c' = c
    · simp [destroy, clear_current, makeCurrent_current, hact, hc]
    · simp [destroy, clear_current, makeCurrent_current, clear_loaded, makeCurrent_loaded, hc]

theorem create_fields {cpu : κ} {d : D} (h : Order m) (r : m.Ready (.create c v cpu d)) (x : V) (c' : κ) :
    (x ≠ v → ((m.create c v cpu d).core c').held x = (m.core c').held x) ∧
    (((m.create c v cpu d).core c').current = none ∨ ((m.create c v cpu d).core c').current = (m.core c').current ∧
      ((m.create c v cpu d).core c').loaded = (m.core c').loaded) := by
  have hi : (m.vmcs v).active ≠ true := fun ha => by simp [Ready, h.alive v ha] at r
  have hcur : (m.core c).current ≠ some v := fun hc => hi (h.current c v hc).2
  have hq : (m.core cpu).queued v = false := by
    rw [← Bool.not_eq_true, h.queued]
    exact fun hq => hi hq.2
  have hact : (((m.made c v cpu d).makeCurrent c v).vmcs v).active = true := by rw [makeCurrent_vmcs, if_pos rfl]
  rw [create_eq hq]
  refine ⟨fun hx => ?_, ?_⟩
  · simp only [clear_held, makeCurrent_held, made_held hcur, hx, and_false, if_false]
  · by_cases hc : c' = c
    · simp [clear_current, makeCurrent_current, hact, hc]
    · simp [clear_current, makeCurrent_current, clear_loaded, makeCurrent_loaded, made_current hcur,
        made_loaded hcur, hc]

/-- How the private VMCSs go on with a step from `m`. -/
def Ledger.track (m : Machine κ V D) (L : Ledger V D) : Act κ V D → Ledger V D
  | .create _ v _ d => ⟨Function.update L.kept v d, Function.update L.lost v false⟩
  | .use _ v f => { L with kept := Function.update L.kept v (f (L.kept v)) }
  | .sleep c _ => { L with lost := fun v => L.lost v || (m.core c).queued v && decide ((m.core c).headptr ≠ some v) }
  | _ => L

theorem Kept.step {a : Act κ V D} {m' : Machine κ V D} (h : Order m) (k : Kept m L) (r : m.Ready a) (ht : m.Tame a)
    (hs : m.step a = some m') : Kept m' (L.track m a) := by
  have h' := order_step h r ht hs
  cases a with
  | create c v cpu d =>
    obtain rfl := Option.some.inj hs
    refine k.replaced (v := v) h' (fun x hx => ⟨?_, fun c' => (create_fields h r x c').1 hx⟩)
      (fun c' => (create_fields h r v c').2) (fun x hx => ?_) ?_ fun _ => ?_
    · rw [create_vmcs h r, if_neg hx]
    · simp [Ledger.track, hx]
    · rw [create_vmcs h r, if_pos rfl]
    · rw [create_vmcs h r, if_pos rfl]
      simp [Ledger.track]
  | use c v f =>
    obtain rfl := Option.some.inj hs
    exact (k.makeCurrent h r.2).write (order_makeCurrent h r.2 r.1) (by rw [makeCurrent_current, if_pos rfl]) f
  | flush c v =>
    rw [Machine.step, Machine.flush] at hs
    split at hs
    · next hc => exact Option.some.inj hs ▸ k.clear (.inl hc)
    · exact Option.some.inj hs ▸ k
  | destroy c v =>
    obtain rfl := Option.some.inj hs
    refine k.replaced (v := v) h' (fun x hx => ⟨(destroy_fields x c).1 hx, fun c' => (destroy_fields x c').2.2.2.1 hx⟩)
      (fun c' => (destroy_fields v c').2.2.2.2) (fun x _ => ⟨rfl, rfl⟩) (destroy_fields v c).2.1 fun ha => ?_
    rw [(destroy_fields v c).2.2.1] at ha
    cases ha
  | sleep c fuel =>
    rcases hltPrepare_eq h hs with ⟨hn, rfl⟩ | ⟨a, ha, rfl⟩
    · refine k.vmxoff h fun x => ⟨rfl, ?_⟩
      simp [Ledger.track, (h.ring c).headptr_none hn x]
    · have hc := ((h.queued c a).mp ((h.ring c).head ha)).1.symm
      refine (k.clear (.inl hc)).vmxoff (order_clear h (.inl hc)) fun x => ⟨rfl, ?_⟩
      rw [(clear_ring h.ring c c a).2]
      simp only [Ledger.track, ha]
      grind

/-! ## Runs -/

structure Boot (m : Machine κ V D) : Prop where
  gone : ∀ v, (m.vmcs v).alive = false ∧ (m.vmcs v).active = false
  idle : ∀ c, m.core c = ⟨none, none, .null, none, fun _ => none⟩

inductive Run (m : Machine κ V D) (L : Ledger V D) : Machine κ V D → Ledger V D → Prop where
  | refl : Run m L m L
  | step {m₁ m₂ : Machine κ V D} {L₁ : Ledger V D} {a : Act κ V D} :
    Run m L m₁ L₁ → m₁.Ready a → m₁.Tame a → m₁.step a = some m₂ → Run m L m₂ (L₁.track m₁ a)

omit [DecidableEq κ] [DecidableEq V] in
theorem order_boot (b : Boot m) : Order m := by
  obtain ⟨gone, idle⟩ := b
  refine ⟨fun c => ⟨[], idle c ▸ Sm.queued_null⟩, fun c v => ?_, fun v hv => ?_, fun c v d hd => ?_, fun c v hv => ?_,
    fun c v hv => ?_⟩
  · simp [idle c, Core.queued, Sm.Links.null, (gone v).2]
  · simp [(gone v).2] at hv
  · simp [idle c] at hd
  · simp [idle c] at hv
  · simp [idle c] at hv

omit [DecidableEq κ] [DecidableEq V] in
theorem kept_boot (b : Boot m) : Kept m L := by
  obtain ⟨gone, idle⟩ := b
  refine ⟨fun v ha => ?_, fun v _ ha => ?_, fun c v _ hv => ?_⟩
  · simp [(gone v).1] at ha
  · simp [(gone v).2] at ha
  · simp [idle c] at hv

variable {m₀ : Machine κ V D} {L₀ : Ledger V D}

theorem run_sound (b : Boot m₀) (run : Run m₀ L₀ m L) : Order m ∧ Kept m L := by
  induction run with
  | refl => exact ⟨order_boot b, kept_boot b⟩
  | step _ r t s ih => exact ⟨order_step ih.1 r t s, ih.2.step ih.1 r t s⟩

/-- A vCPU that runs on its CPU finds its VMCS as it was left last, wherever its content has been. -/
theorem reads_written (b : Boot m₀) (run : Run m₀ L₀ m L) (ha : (m.vmcs v).alive = true) (hc : c = (m.vmcs v).cpu)
    (hl : L.lost v = false) : (m.makeCurrent c v).read c = some (L.kept v) :=
  (run_sound b run).2.read (run_sound b run).1 hc ha hl

/-- What a CPU has in its queue, as its current VMCS or in its processor belongs to a vCPU of its own that
is still there: the memory of a VMCS that is gone can be used again, and no two processors hold one
VMCS. -/
theorem owned (b : Boot m₀) (run : Run m₀ L₀ m L)
    (h : (m.core c).queued v = true ∨ (m.core c).headptr = some v ∨ (m.core c).current = some v ∨
      (m.core c).loaded = some v ∨ (m.core c).held v ≠ none) :
    (m.vmcs v).alive = true ∧ (m.vmcs v).cpu = c := by
  obtain ⟨ring, queued, alive, held, current, loaded⟩ := (run_sound b run).1
  have key : (m.vmcs v).cpu = c ∧ (m.vmcs v).active = true := by
    rcases h with h | h | h | h | h
    · exact (queued c v).mp h
    · exact (queued c v).mp ((ring c).head h)
    · exact current c v h
    · exact current c v (loaded c v h).1
    · obtain ⟨d, hd⟩ := Option.ne_none_iff_exists'.mp h
      exact held c v d hd
  exact ⟨alive v key.2, key.1⟩

end

def bare : Machine Bool Bool Nat :=
  ⟨fun _ => ⟨none, none, .null, none, fun _ => none⟩, fun _ => ⟨false, false, false, 0⟩⟩

theorem boot_bare : Boot bare := ⟨fun _ => ⟨rfl, rfl⟩, fun _ => rfl⟩

def used : Machine Bool Bool Nat := (bare.create false true true 3).use true true (· + 4)

theorem run_used : ∃ L, Run bare ⟨fun _ => 0, fun _ => false⟩ used L ∧ L.lost true = false ∧ L.kept true = 7 :=
  ⟨_, .step (.step (a := .create false true true 3) .refl rfl trivial rfl)
    (a := .use true true (· + 4)) ⟨rfl, rfl⟩ trivial rfl, rfl, rfl⟩

theorem reads_written_used : (used.makeCurrent true true).read true = some 7 := by
  obtain ⟨L, run, hl, hk⟩ := run_used
  exact hk ▸ reads_written boot_bare run rfl rfl hl

theorem owned_used : (used.vmcs true).alive = true ∧ (used.vmcs true).cpu = true := by
  obtain ⟨L, run, -⟩ := run_used
  exact owned boot_bare run (.inr (.inr (.inl rfl)))

/-- Two vCPUs of one CPU, of which the second has run last, when the CPU sleeps. -/
def slept : Machine Bool Bool Nat :=
  (((used.create true false true 5).use true false (· + 1)).clear true true).vmxoff true

/-- Only the head of the queue has been cleared: the second vCPU finds no VMCS at all. -/
theorem sleep_skips : ∃ L, Run bare ⟨fun _ => 0, fun _ => false⟩ slept L ∧ (slept.vmcs false).alive = true ∧
    L.kept false = 6 ∧ (slept.makeCurrent true false).read true = none := by
  obtain ⟨L, run, -⟩ := run_used
  exact ⟨_, .step (.step (.step run (a := .create true false true 5) rfl trivial rfl)
    (a := .use true false (· + 1)) ⟨rfl, rfl⟩ trivial rfl) (a := .sleep true 1) trivial trivial rfl, rfl, rfl, rfl⟩

/-- Destroyed by another CPU before it is flushed from its own, a vCPU stays in the queue. -/
theorem destroy_dangles : (∃ L, Run bare ⟨fun _ => 0, fun _ => false⟩ used L) ∧ used.Ready (.destroy false true) ∧
    ((used.destroy false true).core true).headptr = some true ∧ ((used.destroy false true).vmcs true).alive = false :=
  ⟨run_used.imp fun _ h => h.1, rfl, rfl, rfl⟩

end Tukija.Vmcs
