import Tukija.Core.Holder

/-! The two ways a cell goes away.  `Cell::destroy` gives the info page back
before the destructor walks the set in it, and neither way takes the cell out of
the owner fields. -/
namespace Tukija.Core

open Tukija.Lib.Threads

/-- No resource names the cell afterwards, and its info page was not used after
it had been given back. -/
def LeavesNothing (d : Demise) (c : CellId) (me : Option CellId) (s : State) : Prop :=
  ∃ s', alone (demise d c me) s = .ok ((), s') ∧
    (∀ k, s'.owner k ≠ some c ∧ s'.current k ≠ some c) ∧ (s'.cells c).strayed = false

structure Live (c : CellId) (s : State) : Prop where
  cipFreed : (s.cells c).cipFreed = false
  freed : (s.cells c).freed = false
  strayed : (s.cells c).strayed = false

section Strayed

variable {c : CellId}

theorem setCell_strayed {d : CellId} {f : Cell → Cell} {s : State}
    (hf : ∀ x, x.strayed = true → (f x).strayed = true) (h : (s.cells c).strayed = true) :
    ((s.setCell d f).cells c).strayed = true := by
  by_cases hd : c = d
  · subst hd
    simpa [State.setCell] using hf _ h
  · simpa [State.setCell, hd] using h

theorem useCip_strayed {d : CellId} {f : Cip → Cip} {s : State} (h : (s.cells c).strayed = true) :
    ((s.useCip d f).cells c).strayed = true :=
  setCell_strayed (by simp_all) h

theorem setCores_strayed {d : CellId} {t : CoreSet} {f : (Cpu → Bool) → Cpu → Bool} {s : State}
    (h : (s.cells c).strayed = true) : ((s.setCores d t f).cells c).strayed = true :=
  useCip_strayed h

theorem setFlag_strayed {d : CellId} {k : Cpu} {v : Nat} {s : State}
    (h : (s.cells c).strayed = true) : ((s.setFlag d k v).cells c).strayed = true :=
  useCip_strayed h

theorem setWorkers_strayed {d : CellId} {k : Cpu} {f : List Worker → List Worker} {s : State}
    (h : (s.cells c).strayed = true) : ((s.setWorkers d k f).cells c).strayed = true :=
  setCell_strayed (fun _ hx => hx) h

theorem run_strayed {β : Type} (i : Instr β) {s : State} (h : (s.cells c).strayed = true) :
    ((i.run s).2.cells c).strayed = true := by
  cases i with
  | owner | current | hazards | idleChk | idleSet | idleClr | idleWord | workers => exact h
  | toBeDestroyed | initialized | confer | setCurrent | setHazards => exact h
  | occupy k o =>
    by_cases hk : s.current k = none
    · simpa [Instr.run, hk, State.setResource] using h
    · simpa [Instr.run, hk] using h
  | coresSet | coresClr | coresZero =>
    simp only [Instr.run]
    exact setCores_strayed h
  | setFlag => exact setFlag_strayed h
  | coresWord | flag => exact useCip_strayed h
  | casFlag d k =>
    by_cases hk : s.flag d k = 0
    · simpa [Instr.run, hk] using setFlag_strayed h
    · simpa [Instr.run, hk] using useCip_strayed h
  | up | dn | enqueue | dequeue =>
    simp only [Instr.run]
    exact setWorkers_strayed h
  | setToBeDestroyed | setInitialized | create | freeCip | freeCell =>
    simp only [Instr.run]
    exact setCell_strayed (fun _ hx => hx) h

theorem alone_strayed {α : Type} (p : Code α) {s s' : State} {a : α}
    (h : (s.cells c).strayed = true) (hp : alone p s = .ok (a, s')) :
    (s'.cells c).strayed = true := by
  induction p generalizing s with
  | pure b =>
    obtain ⟨-, rfl⟩ := by simpa [alone, Prog.exec] using hp
    exact h
  | fault e => simp [alone, Prog.exec] at hp
  | step i k ih => exact ih _ (run_strayed i.instr h) hp

end Strayed

theorem destroy_strays (c : CellId) (me : Option CellId) {s s' : State}
    (h : alone (destroy c me) s = .ok ((), s')) : (s'.cells c).strayed = true := by
  let s1 := ((Instr.setToBeDestroyed c).run ((Instr.freeCip c).run s).2).2
  have hfirst : (((Instr.coresWord c .current 0).run s1).2.cells c).strayed = true := by
    simp [s1, Instr.run, State.useCip, State.setCell]
  exact alone_strayed _ hfirst h

theorem leavesNothing_iff (d : Demise) (c : CellId) (me : Option CellId) {s : State} (hc : Live c s) :
    LeavesNothing d c me s ↔ d = .pd ∧ ∀ k, s.owner k ≠ some c ∧ s.current k ≠ some c := by
  cases d with
  | destroy =>
    simp only [reduceCtorEq, false_and, iff_false]
    rintro ⟨s', hs', -, hstray⟩
    rw [destroy_strays c me hs'] at hstray
    cases hstray
  | pd =>
    simp only [true_and]
    constructor
    · rintro ⟨s', hs', hres, -⟩
      obtain rfl : ((Instr.freeCell c).run s).2 = s' := by
        have : Except.ok ((Instr.freeCell c).run s) = Except.ok (ε := Fault) ((), s') := hs'
        have := Except.ok.inj this
        rw [this]
      exact hres
    · intro hres
      refine ⟨((Instr.freeCell c).run s).2, rfl, hres, ?_⟩
      simpa [Instr.run, State.setCell] using hc.strayed

/-- The cell of a CPU's owner stays in it, with the domain too; a third cell is in none. -/
theorem leavesNothing_iff_lentOut :
    LeavesNothing .pd 3 none lentOut ∧ ¬LeavesNothing .pd 1 none lentOut ∧ ¬LeavesNothing .destroy 3 none lentOut := by
  refine ⟨(leavesNothing_iff .pd 3 none ⟨rfl, rfl, rfl⟩).mpr ⟨rfl, fun k => ?_⟩, ?_, ?_⟩
  · unfold State.owner State.current lentOut
    dsimp only
    split_ifs <;> exact ⟨by decide, by decide⟩
  · rw [leavesNothing_iff .pd 1 none ⟨rfl, rfl, rfl⟩]
    exact fun h => (h.2 0).1 rfl
  · rw [leavesNothing_iff .destroy 3 none ⟨rfl, rfl, rfl⟩]
    rintro ⟨h, -⟩
    cases h

/-- A cell that is destroyed right after its creation. -/
theorem newCell_strays :
    ¬∀ (d : Demise) (c : CellId) (me : Option CellId) (s : State), Live c s →
      LeavesNothing d c me s := by
  intro hall
  obtain ⟨s', hs', -, hstray⟩ := hall .destroy 1 none .boot ⟨rfl, rfl, rfl⟩
  rw [destroy_strays 1 none hs'] at hstray
  cases hstray

end Tukija.Core
