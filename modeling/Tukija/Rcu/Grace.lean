import Tukija.Rcu.Batch
import Tukija.Rcu.Layout

/-! Grace periods: what a callback has waited for when it runs. -/
namespace Tukija.Rcu

open Tukija.Lib.Word

variable {ι : Type}

section Log

variable [DecidableEq ι]

/-- What has happened since the last call of `e`. -/
def since (log : List (Event ι)) (e : ElemId) : List (Event ι) :=
  log.takeWhile fun x => decide (x ≠ .call e)

/-- `quiet` was executed on `j` since `e` was called. -/
def Seen (log : List (Event ι)) (e : ElemId) (j : ι) : Prop := .quiet j ∈ since log e

/-- Each callback runs after a call of its own, and after `quiet` on every CPU since
that call. -/
def Graceful (log : List (Event ι)) : Prop :=
  ∀ newer e older, log = newer ++ .invoke e :: older →
    .call e ∈ older ∧ .invoke e ∉ since older e ∧ ∀ j, Seen older e j

variable {log : List (Event ι)} {e : ElemId} {i j : ι} {x : Event ι}

theorem since_cons (h : x ≠ .call e) : since (x :: log) e = x :: since log e := by
  unfold since
  rw [List.takeWhile_cons, if_pos (by simpa using h)]

theorem Seen.cons (h : Seen log e j) (hx : x ≠ .call e) : Seen (x :: log) e j := by
  unfold Seen
  rw [since_cons hx]
  exact List.mem_cons_of_mem _ h

theorem seen_quiet (log : List (Event ι)) (e : ElemId) (i : ι) : Seen (.quiet i :: log) e i := by
  unfold Seen
  rw [since_cons (by simp)]
  exact List.mem_cons_self

theorem since_call (log : List (Event ι)) (e : ElemId) : since (.call e :: log) e = [] := by
  unfold since
  simp

theorem Graceful.cons (h : Graceful log)
    (hx : ∀ e, x = .invoke e → .call e ∈ log ∧ .invoke e ∉ since log e ∧ ∀ j, Seen log e j) :
    Graceful (x :: log) := by
  intro newer e older heq
  cases newer with
  | nil =>
    obtain ⟨rfl, rfl⟩ := List.cons.inj heq
    exact hx e rfl
  | cons y newer => exact h newer e older (List.cons.inj heq).2

end Log

/-- The batches by their true numbers: the current one and how far it is, the one
that each CPU knows of, and the one that its callbacks wait for. -/
structure Epoch (ι : Type) where
  batch : Nat
  cmp : Bool
  pnd : Bool
  did : Finset ι
  last : ι → Nat
  due : ι → Nat

def Pc.ends : Pc → Bool
  | .read .cmp _ => true
  | .cas .cmp _ _ => true
  | _ => false

def Pc.starts : Pc → Bool
  | .count _ => true
  | .load _ => true
  | .store _ _ => true
  | _ => false

def Pc.loaded : Pc → Bool
  | .load _ => true
  | .store _ _ => true
  | _ => false

/-- `update` has read the batch, and not yet moved the new calls. -/
def Pc.fresh : Pc → Bool
  | .complete => true
  | .advance => true
  | _ => false

structure Clock [Fintype ι] [DecidableEq ι] (v n : Mword) (cpu : ι → Cpu) (g : Epoch ι) :
    Prop where
  state : v = stateWord g.batch g.cmp g.pnd
  full : g.cmp = true → g.did = Finset.univ
  count : (∀ i, (cpu i).pc.loaded = false) → n = BitVec.ofNat 64 g.didᶜ.card
  loaded : ∀ i, (cpu i).pc.loaded = true → n = Machine.online ι
  ends : ∀ i, (cpu i).pc.ends = true → g.cmp = false ∧ g.did = Finset.univ
  ends_one : ∀ i j, (cpu i).pc.ends = true → (cpu j).pc.ends = true → i = j
  starts : ∀ i, (cpu i).pc.starts = true → g.cmp = true ∧ g.pnd = true
  starts_one : ∀ i j, (cpu i).pc.starts = true → (cpu j).pc.starts = true → i = j
  store : ∀ i b w, (cpu i).pc = .store b w → w = v

structure Timely (g : Epoch ι) (i : ι) (c : Cpu) : Prop where
  last : g.last i = g.batch ∨ g.last i + 1 = g.batch
  lBatch : c.lBatch = epoch (g.last i) >>> 2
  did : i ∈ g.did → g.last i = g.batch
  hazard : c.hazard = true ↔ g.last i = g.batch ∧ i ∉ g.did
  again : c.pc = .again → g.last i ≠ g.batch
  cas : ∀ f b v, c.pc = .cas f b v → v >>> 2 = c.lBatch ∧ v &&& f.bit = 0
  calls : c.call ≠ none → c.pc.calls = true

/-- What the callbacks of a CPU have waited for. -/
structure Waits [DecidableEq ι] (g : Epoch ι) (log : List (Event ι)) (i : ι) (c : Cpu) (M : Elems) : Prop where
  next : c.pc.fresh = true → ∀ e ∈ M .next, g.batch = g.last i + 1 → ∀ j ∈ g.did, Seen log e j
  due : M .curr ≠ [] → c.cBatch <<< 2 = epoch (g.due i) ∧ g.due i ≤ g.batch + 1 ∧
    (g.last i ≤ g.due i ∨
      c.pc = .complete ∧ g.last i = g.batch ∧ g.batch = g.due i + 1 ∧ i ∉ g.did)
  curr : ∀ e ∈ M .curr, (g.batch = g.due i → ∀ j ∈ g.did, Seen log e j) ∧
    (g.due i < g.batch → ∀ j, Seen log e j)
  done : ∀ e ∈ M .done, ∀ j, Seen log e j
  called : ∀ k, k ≠ .transit → ∀ e ∈ M k, .call e ∈ log ∧ .invoke e ∉ since log e

theorem online_eq [Fintype ι] (hcard : Fintype.card ι < 2 ^ 32) :
    Machine.online ι = BitVec.ofNat 64 (Fintype.card ι) := by
  apply BitVec.eq_of_toNat_eq
  rw [Machine.online, BitVec.toNat_setWidth, BitVec.toNat_ofNat, BitVec.toNat_ofNat,
    Nat.mod_eq_of_lt hcard]

section Parts

variable {g : Epoch ι} {i : ι} {c d : Cpu} {M : Elems} {log : List (Event ι)}

theorem Timely.pc (h : Timely g i c) (hl : d.lBatch = c.lBatch) (hh : d.hazard = c.hazard)
    (ha : d.pc ≠ .again) (hc : ∀ f b v, d.pc ≠ .cas f b v)
    (hk : d.call ≠ none → d.pc.calls = true) : Timely g i d := by
  refine ⟨h.last, hl.trans h.lBatch, h.did, ?_, fun h => absurd h ha, ?_, hk⟩
  · rw [hh]
    exact h.hazard
  · exact fun f b v h => absurd h (hc f b v)

theorem Timely.goto {p : Pc} (h : Timely g i c) (ha : p ≠ .again) (hc : ∀ f b v, p ≠ .cas f b v)
    (hk : c.call = none) : Timely g i { c with pc := p } :=
  h.pc rfl rfl ha hc fun h => absurd hk h

theorem Timely.last_eq (h : Timely g i c) (heq : c.lBatch = epoch g.batch >>> 2) :
    g.last i = g.batch := by
  rcases h.last with hl | hl
  · exact hl
  · rw [h.lBatch, ← hl] at heq
    exact absurd heq.symm (epoch_shr_ne _)

def Epoch.succ (g : Epoch ι) : Epoch ι := ⟨g.batch + 1, false, false, ∅, g.last, g.due⟩

theorem Timely.succ (h : Timely g i c) (hl : g.last i = g.batch) (hd : i ∈ g.did) :
    Timely g.succ i c := by
  have hne : g.last i ≠ g.batch + 1 := by omega
  refine ⟨.inr ?_, h.lBatch, ?_, ?_, fun _ => hne, h.cas, h.calls⟩
  · exact congrArg (· + 1) hl
  · simp [Epoch.succ]
  · rw [h.hazard]
    simp [hd, Epoch.succ, hne]

variable [DecidableEq ι]

theorem Waits.pc (h : Waits g log i c M) (hc : d.cBatch = c.cBatch) (hf : d.pc.fresh = false)
    (hp : c.pc ≠ .complete) : Waits g log i d M := by
  refine ⟨?_, ?_, h.curr, h.done, h.called⟩
  · intro hfresh
    rw [hf] at hfresh
    simp at hfresh
  · intro hne
    obtain ⟨h1, h2, h3⟩ := h.due hne
    refine ⟨by rw [hc]; exact h1, h2, ?_⟩
    rcases h3 with h3 | h3
    · exact .inl h3
    · exact absurd h3.1 hp

theorem Waits.goto {p : Pc} (h : Waits g log i c M) (hf : p.fresh = false) (hp : c.pc ≠ .complete) :
    Waits g log i { c with pc := p } M :=
  h.pc rfl hf hp

theorem Waits.later (h : Waits g log i c M) {x : Event ι}
    (hx : ∀ k, k ≠ .transit → ∀ e ∈ M k, x ≠ .call e ∧ x ≠ .invoke e) :
    Waits g (x :: log) i c M := by
  refine ⟨?_, h.due, ?_, ?_, ?_⟩
  · intro hf e he hb j hj
    exact (h.next hf e he hb j hj).cons (hx .next (by simp) e he).1
  · intro e he
    have hne := (hx .curr (by simp) e he).1
    exact ⟨fun hb j hj => ((h.curr e he).1 hb j hj).cons hne,
      fun hb j => ((h.curr e he).2 hb j).cons hne⟩
  · intro e he j
    exact (h.done e he j).cons (hx .done (by simp) e he).1
  · intro k hk e he
    obtain ⟨h1, h2⟩ := h.called k hk e he
    obtain ⟨hc, hi⟩ := hx k hk e he
    refine ⟨List.mem_cons_of_mem _ h1, ?_⟩
    rw [since_cons hc, List.mem_cons, not_or]
    exact ⟨hi.symm, h2⟩

theorem Waits.succ (h : Waits g log i c M) (hd : ∀ j, j ∈ g.did) : Waits g.succ log i c M := by
  refine ⟨fun _ e _ _ => by simp [Epoch.succ], fun hne => ?_, fun e he => ⟨?_, fun hlt => ?_⟩, h.done,
    h.called⟩
  · obtain ⟨h1, h2, h3⟩ := h.due hne
    refine ⟨h1, Nat.le_succ_of_le h2, .inl ?_⟩
    rcases h3 with h3 | h3
    · exact h3
    · exact absurd (hd i) h3.2.2.2
  · simp [Epoch.succ]
  · obtain ⟨heq, hold⟩ := h.curr e he
    rcases Nat.lt_succ_iff_lt_or_eq.mp hlt with hlt | hlt
    · exact hold hlt
    · exact fun j => heq hlt.symm j (hd j)

variable [Fintype ι] {v n : Mword} {cpu : ι → Cpu}

theorem Clock.put (h : Clock v n cpu g) (he : c.pc.ends = true → (cpu i).pc.ends = true)
    (hs : c.pc.starts = true → (cpu i).pc.starts = true) (hl : c.pc.loaded = (cpu i).pc.loaded)
    (hw : ∀ b w, c.pc = .store b w → w = v) :
    Clock v n (Function.update cpu i c) g := by
  have hends : ∀ j, (Function.update cpu i c j).pc.ends = true → (cpu j).pc.ends = true := by
    intro j hj
    by_cases hji : j = i
    · subst hji
      rw [Function.update_self] at hj
      exact he hj
    · rwa [Function.update_of_ne hji] at hj
  have hstarts : ∀ j, (Function.update cpu i c j).pc.starts = true → (cpu j).pc.starts = true := by
    intro j hj
    by_cases hji : j = i
    · subst hji
      rw [Function.update_self] at hj
      exact hs hj
    · rwa [Function.update_of_ne hji] at hj
  have hloaded : ∀ j, (Function.update cpu i c j).pc.loaded = (cpu j).pc.loaded := by
    intro j
    by_cases hji : j = i
    · subst hji
      rw [Function.update_self]
      exact hl
    · rw [Function.update_of_ne hji]
  refine ⟨h.state, h.full, fun hall => h.count fun j => (hloaded j).symm.trans (hall j),
    fun j hj => h.loaded j ((hloaded j).symm.trans hj), fun j hj => h.ends j (hends j hj),
    fun j k hj hk => h.ends_one j k (hends j hj) (hends k hk), fun j hj => h.starts j (hstarts j hj),
    fun j k hj hk => h.starts_one j k (hstarts j hj) (hstarts k hk), ?_⟩
  intro j b w hj
  by_cases hji : j = i
  · subst hji
    rw [Function.update_self] at hj
    exact hw b w hj
  · rw [Function.update_of_ne hji] at hj
    exact h.store j b w hj

theorem Clock.relabel (h : Clock v n cpu g) (last due : ι → Nat) :
    Clock v n cpu { g with last := last, due := due } :=
  ⟨h.state, h.full, h.count, h.loaded, h.ends, h.ends_one, h.starts, h.starts_one, h.store⟩

theorem Clock.no_start (h : Clock v n cpu g)
    (hb : ¬(g.cmp = true ∧ g.pnd = true)) (j : ι) : (cpu j).pc.starts = false := by
  by_contra hs
  exact hb (h.starts j (by simpa using hs))

theorem loaded_of_not_starts {p : Pc} (h : p.starts = false) : p.loaded = false := by
  cases p <;> simp_all [Pc.starts, Pc.loaded]

theorem Clock.setCmp {p : Pc} {b : Caller} {w : Mword}
    (h : Clock v n cpu g) (hp : (cpu i).pc = .cas .cmp b w) (hc : c.pc = p)
    (hpc : p = if g.pnd = true then .count b else b.pc) :
    Clock (stateWord g.batch true g.pnd) n (Function.update cpu i c) { g with cmp := true } := by
  obtain ⟨hcmp, hdid⟩ := h.ends i (by rw [hp]; rfl)
  have hnone := h.no_start (by simp [hcmp])
  have hload : ∀ j, (Function.update cpu i c j).pc.loaded = false := by
    intro j
    by_cases hj : j = i
    · subst hj
      rw [Function.update_self, hc, hpc]
      cases g.pnd <;> cases b <;> rfl
    · rw [Function.update_of_ne hj]
      exact loaded_of_not_starts (hnone j)
  have hends : ∀ j, (Function.update cpu i c j).pc.ends = false := by
    intro j
    by_cases hj : j = i
    · subst hj
      rw [Function.update_self, hc, hpc]
      cases g.pnd <;> cases b <;> rfl
    · rw [Function.update_of_ne hj]
      by_contra he
      exact hj (h.ends_one j i (by simpa using he) (by rw [hp]; rfl))
  have hstarts : ∀ j, (Function.update cpu i c j).pc.starts = true → j = i ∧ g.pnd = true := by
    intro j hs
    by_cases hj : j = i
    · subst hj
      rw [Function.update_self, hc, hpc] at hs
      cases hpnd : g.pnd with
      | true => exact ⟨rfl, rfl⟩
      | false =>
        rw [hpnd] at hs
        cases b <;> simp [Caller.pc, Pc.starts] at hs
    · rw [Function.update_of_ne hj, hnone j] at hs
      simp at hs
  refine ⟨rfl, fun _ => hdid, fun _ => h.count fun j => loaded_of_not_starts (hnone j), ?_, ?_, ?_,
    fun j hj => ⟨rfl, (hstarts j hj).2⟩, fun j k hj hk => (hstarts j hj).1.trans (hstarts k hk).1.symm,
    ?_⟩
  · intro j hj
    rw [hload j] at hj
    simp at hj
  · intro j hj
    rw [hends j] at hj
    simp at hj
  · intro j k hj
    rw [hends j] at hj
    simp at hj
  · intro j b' w' hj
    have := hload j
    rw [hj] at this
    simp [Pc.loaded] at this

theorem Clock.setPnd {p : Pc} {b : Caller} {w : Mword}
    (h : Clock v n cpu g) (hp : (cpu i).pc = .cas .pnd b w) (hpnd : g.pnd = false) (hc : c.pc = p)
    (hpc : p = if g.cmp = true then .count b else b.pc) :
    Clock (stateWord g.batch g.cmp true) n (Function.update cpu i c) { g with pnd := true } := by
  have hnone := h.no_start (by simp [hpnd])
  have hload : ∀ j, (Function.update cpu i c j).pc.loaded = false := by
    intro j
    by_cases hj : j = i
    · subst hj
      rw [Function.update_self, hc, hpc]
      cases g.cmp <;> cases b <;> rfl
    · rw [Function.update_of_ne hj]
      exact loaded_of_not_starts (hnone j)
  have hends : ∀ j, (Function.update cpu i c j).pc.ends = true → (cpu j).pc.ends = true := by
    intro j he
    by_cases hj : j = i
    · subst hj
      rw [Function.update_self, hc, hpc] at he
      cases hcmp : g.cmp <;> rw [hcmp] at he <;> cases b <;> simp [Caller.pc, Pc.ends] at he
    · rwa [Function.update_of_ne hj] at he
  have hstarts : ∀ j, (Function.update cpu i c j).pc.starts = true → j = i ∧ g.cmp = true := by
    intro j hs
    by_cases hj : j = i
    · subst hj
      rw [Function.update_self, hc, hpc] at hs
      cases hcmp : g.cmp with
      | true => exact ⟨rfl, rfl⟩
      | false =>
        rw [hcmp] at hs
        cases b <;> simp [Caller.pc, Pc.starts] at hs
    · rw [Function.update_of_ne hj, hnone j] at hs
      simp at hs
  refine ⟨rfl, h.full, fun _ => h.count fun j => loaded_of_not_starts (hnone j), ?_,
    fun j hj => h.ends j (hends j hj), fun j k hj hk => h.ends_one j k (hends j hj) (hends k hk),
    fun j hj => ⟨(hstarts j hj).2, rfl⟩, fun j k hj hk => (hstarts j hj).1.trans (hstarts k hk).1.symm,
    ?_⟩
  · intro j hj
    rw [hload j] at hj
    simp at hj
  · intro j b' w' hj
    have := hload j
    rw [hj] at this
    simp [Pc.loaded] at this

theorem Clock.setCount {b : Caller} (h : Clock v n cpu g)
    (hp : (cpu i).pc = .count b) (hc : c.pc = .load b) :
    Clock v (Machine.online ι) (Function.update cpu i c) g := by
  have hi : (Function.update cpu i c i).pc.loaded = true := by
    rw [Function.update_self, hc]
    rfl
  have hpc : ∀ j, (Function.update cpu i c j).pc.starts = (cpu j).pc.starts ∧
      (Function.update cpu i c j).pc.ends = (cpu j).pc.ends ∧
      ∀ b w, (Function.update cpu i c j).pc = .store b w → (cpu j).pc = .store b w := by
    intro j
    by_cases hj : j = i
    · subst hj
      rw [Function.update_self, hc, hp]
      simp [Pc.starts, Pc.ends]
    · rw [Function.update_of_ne hj]
      exact ⟨rfl, rfl, fun _ _ h => h⟩
  refine ⟨h.state, h.full, fun hall => ?_, fun _ _ => rfl, fun j hj => h.ends j ?_,
    fun j k hj hk => h.ends_one j k ?_ ?_, fun j hj => h.starts j ?_,
    fun j k hj hk => h.starts_one j k ?_ ?_, fun j b w hj => h.store j b w ((hpc j).2.2 b w hj)⟩
  · rw [hall i] at hi
    simp at hi
  · rwa [(hpc j).2.1] at hj
  · rwa [(hpc j).2.1] at hj
  · rwa [(hpc k).2.1] at hk
  · rwa [(hpc j).1] at hj
  · rwa [(hpc j).1] at hj
  · rwa [(hpc k).1] at hk

theorem Clock.succ {w : Mword} {b : Caller} (h : Clock v n cpu g) (hcard : Fintype.card ι < 2 ^ 32)
    (hp : (cpu i).pc = .store b w) (hc : c.pc = b.pc) :
    Clock (w + 1) n (Function.update cpu i c) g.succ := by
  obtain ⟨hcmp, hpnd⟩ := h.starts i (by rw [hp]; rfl)
  -- nobody else is inside `start_batch` for this batch any more
  have hpc : ∀ j, (Function.update cpu i c j).pc.starts = false ∧
      (Function.update cpu i c j).pc.ends = false := by
    rw [Function.forall_update_iff cpu fun _ d => d.pc.starts = false ∧ d.pc.ends = false]
    refine ⟨?_, fun j hj => ⟨?_, ?_⟩⟩
    · rw [hc]
      cases b <;> exact ⟨rfl, rfl⟩
    · by_contra hs
      exact hj (h.starts_one j i (by simpa using hs) (by rw [hp]; rfl))
    · by_contra he
      have := (h.ends j (by simpa using he)).1
      rw [hcmp] at this
      simp at this
  refine ⟨?_, by simp [Epoch.succ], fun _ => ?_, ?_, ?_, ?_, ?_, ?_, ?_⟩
  · rw [h.store i b w hp, h.state, hcmp, hpnd, stateWord_succ]
    rfl
  · rw [h.loaded i (by rw [hp]; rfl), online_eq hcard]
    simp [Epoch.succ]
  · intro j hj
    rw [loaded_of_not_starts (hpc j).1] at hj
    simp at hj
  · intro j hj
    rw [(hpc j).2] at hj
    simp at hj
  · intro j k hj
    rw [(hpc j).2] at hj
    simp at hj
  · intro j hj
    rw [(hpc j).1] at hj
    simp at hj
  · intro j k hj
    rw [(hpc j).1] at hj
    simp at hj
  · intro j b' w' hj
    have := (hpc j).1
    rw [hj] at this
    simp [Pc.starts] at this

end Parts

end Tukija.Rcu
