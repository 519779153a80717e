import Tukija.Core.Ops

/-! The release system call, executed on a CPU that the caller does not hold. -/
namespace Tukija.Core

open Tukija.Lib.Threads

abbrev alone {α : Type} (p : Code α) (s : State) : Except Fault (α × State) := p.exec Access.run s

@[simp] theorem alone_op_bind {α β : Type} (pl : Place) (i : Instr α) (f : α → Code β) (s : State) :
    alone (op pl i >>= f) s = alone (f (i.run s).1) (i.run s).2 := rfl

@[simp] theorem alone_op {α : Type} (pl : Place) (i : Instr α) (s : State) :
    alone (op pl i) s = .ok (i.run s) := rfl

section Frame

structure OnlyCell (c : CellId) (s s' : State) : Prop where
  resources : s'.resources = s.resources
  idle : s'.idleCpus = s.idleCpus
  cells : ∀ d, d ≠ c → s'.cells d = s.cells d

variable {c : CellId} {s s' s'' : State}

theorem OnlyCell.refl (c : CellId) (s : State) : OnlyCell c s s := ⟨rfl, rfl, fun _ _ => rfl⟩

theorem OnlyCell.trans (h : OnlyCell c s s') (h' : OnlyCell c s' s'') : OnlyCell c s s'' :=
  ⟨h'.resources.trans h.resources, h'.idle.trans h.idle,
    fun d hd => (h'.cells d hd).trans (h.cells d hd)⟩

theorem OnlyCell.current (h : OnlyCell c s s') (k : Cpu) : s'.current k = s.current k := by
  rw [State.current, State.current, h.resources]

theorem setCell_onlyCell (c : CellId) (f : Cell → Cell) (s : State) : OnlyCell c s (s.setCell c f) :=
  ⟨rfl, rfl, fun _ hd => Function.update_of_ne hd _ _⟩

theorem setCores_onlyCell (c : CellId) (t : CoreSet) (f : (Cpu → Bool) → Cpu → Bool) (s : State) :
    OnlyCell c s (s.setCores c t f) := by
  unfold State.setCores State.useCip
  exact setCell_onlyCell _ _ _

theorem setFlag_onlyCell (c : CellId) (k : Cpu) (v : Nat) (s : State) :
    OnlyCell c s (s.setFlag c k v) := by
  unfold State.setFlag State.useCip
  exact setCell_onlyCell _ _ _

theorem setWorkers_onlyCell (c : CellId) (k : Cpu) (f : List Worker → List Worker) (s : State) :
    OnlyCell c s (s.setWorkers c k f) := by
  unfold State.setWorkers
  exact setCell_onlyCell _ _ _

end Frame

section Workers

variable {c : CellId} {k : Cpu}

theorem sleepEach_onlyCell (l : List Nat) (s : State) :
    ∃ s', alone (Cell.sleepEach c k l) s = .ok ((), s') ∧ OnlyCell c s s' := by
  induction l generalizing s with
  | nil => exact ⟨s, rfl, .refl c s⟩
  | cons i l ih =>
    have hdn : OnlyCell c s ((Instr.dn c k i).run s).2 := setWorkers_onlyCell _ _ _ _
    unfold Cell.sleepEach
    rw [alone_op_bind]
    split
    · exact ⟨_, rfl, hdn⟩
    · obtain ⟨s', hs', ho⟩ := ih ((Instr.dn c k i).run s).2
      exact ⟨s', hs', hdn.trans ho⟩

theorem blockWorkersOn_onlyCell (c : CellId) (k : Cpu) (s : State) :
    ∃ s', alone (Cell.blockWorkersOn c k) s = .ok ((), s') ∧ OnlyCell c s s' := by
  unfold Cell.blockWorkersOn
  rw [alone_op_bind]
  split
  · exact ⟨s, rfl, .refl c s⟩
  · simp only [alone_op_bind]
    obtain ⟨s', hs', ho⟩ := sleepEach_onlyCell (c := c) (k := k) _
      ((Instr.coresClr c .current k).run s).2
    have hclr : OnlyCell c s (s.setCores c .current fun f => Function.update f k false) :=
      setCores_onlyCell _ _ _ _
    exact ⟨s', hs', hclr.trans ho⟩

/-- One turn of `wake_core`. -/
def wakeTurn (c : CellId) (k : Cpu) (s : State) (i : Nat) : State :=
  (s.setCores c .current fun f => Function.update f k true).setWorkers c k fun l => l.modify i Worker.up

theorem wakeTurn_workers (s : State) (i : Nat) (j : Cpu) :
    (wakeTurn c k s i).workers c j =
      if j = k then (s.workers c j).modify i Worker.up else s.workers c j := by
  by_cases hj : j = k
  · subst hj
    simp [wakeTurn, State.workers, State.setWorkers, State.setCores, State.useCip, State.setCell]
  · simp [wakeTurn, State.workers, State.setWorkers, State.setCores, State.useCip, State.setCell, hj]

theorem wakeTurn_flag (s : State) (i : Nat) (d : CellId) (j : Cpu) :
    (wakeTurn c k s i).flag d j = s.flag d j := by
  by_cases hd : d = c
  · subst hd
    simp [wakeTurn, State.flag, State.setWorkers, State.setCores, State.useCip, State.setCell]
  · simp [wakeTurn, State.flag, State.setWorkers, State.setCores, State.useCip, State.setCell, hd]

theorem wakeTurn_onlyCell (s : State) (i : Nat) : OnlyCell c s (wakeTurn c k s i) :=
  (setCores_onlyCell c _ _ s).trans (setWorkers_onlyCell c _ _ _)

theorem alone_wakeEach (l : List Nat) (s : State) :
    alone (each l fun i => do
      op (.wakeCore k) (.coresSet c .current k)
      op (.wakeCore k) (.up c k i)) s = .ok ((), l.foldl (wakeTurn c k) s) := by
  induction l generalizing s with
  | nil => rfl
  | cons i l ih => exact ih (wakeTurn c k s i)

/-- Waking each of the first `n` entries once. -/
theorem foldl_modify_getElem? (l : List Worker) (n i : Nat) :
    ((List.range n).foldl (fun l i => l.modify i Worker.up) l)[i]? =
      if i < n then l[i]?.map Worker.up else l[i]? := by
  induction n with
  | zero => simp
  | succ n ih =>
    rw [List.range_succ, List.foldl_append, List.foldl_cons, List.foldl_nil, List.getElem?_modify, ih]
    by_cases hin : n = i
    · subst hin
      simp
    · by_cases hlt : i < n
      · simp [hin, hlt, Nat.lt_succ_of_lt hlt]
      · have : ¬i < n + 1 := by omega
        simp [hin, hlt, this]

/-- `wake_core` wakes every worker of the cell on the CPU once. -/
structure Woken (c : CellId) (k : Cpu) (s s' : State) : Prop where
  onlyCell : OnlyCell c s s'
  flag : ∀ d j, s'.flag d j = s.flag d j
  workers : ∀ j, s'.workers c j = if j = k then (s.workers c j).map Worker.up else s.workers c j

theorem alone_wakeCore (c : CellId) (k : Cpu) (s : State) :
    ∃ s', alone (Cell.wakeCore c k) s = .ok ((), s') ∧ Woken c k s s' := by
  refine ⟨_, (alone_op_bind _ _ _ _).trans (alone_wakeEach _ _), ?_, ?_, ?_⟩
  · generalize List.range _ = l
    induction l generalizing s with
    | nil => exact .refl c s
    | cons i l ih => exact (wakeTurn_onlyCell s i).trans (ih _)
  · intro d j
    generalize List.range _ = l
    induction l generalizing s with
    | nil => rfl
    | cons i l ih => exact (ih _).trans (wakeTurn_flag s i d j)
  · intro j
    have hfold : ∀ (l : List Nat) (s : State), (l.foldl (wakeTurn c k) s).workers c j =
        if j = k then l.foldl (fun w i => w.modify i Worker.up) (s.workers c j)
        else s.workers c j := by
      intro l
      induction l with
      | nil => simp
      | cons i l ih =>
        intro s
        rw [List.foldl_cons, ih, wakeTurn_workers]
        split <;> rfl
    have hrun : (Instr.workers c k).run s = ((s.workers c k).length, s) := rfl
    rw [hrun, hfold]
    by_cases hj : j = k
    · subst hj
      simp only [if_true]
      apply List.ext_getElem?
      intro i
      rw [foldl_modify_getElem?, List.getElem?_map]
      split
      · rfl
      · rename_i hlt
        rw [List.getElem?_eq_none (by omega)]
        rfl
    · simp [hj]

end Workers

section Release

/-- The call leaves the CPU with its holder, the holder's yield flag and its
workers alone, and follows no null pointer. -/
def LeavesHolder (r : ReleaseOp) (c : CellId) (k : Cpu) (s : State) : Prop :=
  ∃ s', alone (sysRelease r c k) s = .ok ((), s') ∧ s'.current k = s.current k ∧
    ∀ h, s.current k = some h → s'.flag h k = s.flag h k ∧
      ∀ j, (s'.workers h j).map Worker.blocked = (s.workers h j).map Worker.blocked

variable {c : CellId} {k : Cpu} {s : State}

theorem release_leavesHolder (hc : s.current k ≠ some c) : LeavesHolder .release c k s := by
  have hflag : OnlyCell c s ((Instr.setFlag c k 0).run s).2 := setFlag_onlyCell _ _ _ _
  obtain ⟨s', hs', ho⟩ := blockWorkersOn_onlyCell c k ((Instr.setFlag c k 0).run s).2
  have ho := hflag.trans ho
  refine ⟨s', ?_, ho.current k, ?_⟩
  · have hrun : ((Instr.current k).run s).1 ≠ some c := hc
    rw [sysRelease, Allocator.release, alone_op_bind, if_pos hrun]
    exact hs'
  · intro h hh
    have hne : h ≠ c := by
      rintro rfl
      exact hc hh
    have hcell := ho.cells h hne
    exact ⟨by rw [State.flag, State.flag, hcell], fun j => by rw [State.workers, State.workers, hcell]⟩

theorem worker_up_blocked (w : Worker) : w.up.blocked = false := by
  unfold Worker.up
  split
  · rfl
  · simp_all

/-- The state in which `return_core` wakes the owner. -/
def handedOver (h o : CellId) (k : Cpu) (s : State) : State :=
  (s.setFlag h k 0).setResource k fun r => { r with current := some o }

theorem handedOver_current (h o : CellId) (k : Cpu) (s : State) :
    (handedOver h o k s).current k = some o := by
  simp [handedOver, State.current, State.setResource]

/-- `return_core` by another cell: the owner gets the CPU and its workers are
woken. -/
theorem alone_returnCore {h o : CellId} (hh : s.current k = some h) (ho : s.owner k = some o)
    (hc : h ≠ c) :
    ∃ s', alone (Resource.returnCore k (some c)) s = .ok ((), s') ∧
      Woken o k (handedOver h o k s) s' := by
  obtain ⟨s', hwake, hw⟩ := alone_wakeCore o k (handedOver h o k s)
  refine ⟨s', ?_, hw⟩
  have h1 : ((Instr.current k).run s).1 = some h := hh
  have h2 : ((Instr.owner k).run (s.setFlag h k 0)).1 = some o := ho
  have h3 : ((Instr.current k).run (handedOver h o k s)).1 = some o := handedOver_current h o k s
  have hme : ¬some c = some h := fun e => hc (Option.some.inj e).symm
  have hstep : alone (Resource.returnCore k (some c)) s =
      (alone (Cell.wakeCore o k) (handedOver h o k s)).bind fun (_, s) =>
        alone (if some c = some h then Cell.blockWorkersOn h k else pure ()) s := by
    unfold Resource.returnCore
    rw [alone_op_bind, h1]
    simp only [deref, Prog.pure_bind, alone_op_bind]
    have hrun : ((Instr.setFlag h k 0).run ((Instr.current k).run s).2).2 = s.setFlag h k 0 := rfl
    rw [hrun, h2]
    simp only [Prog.pure_bind, alone_op_bind]
    have hset : ((Instr.setCurrent k ((Instr.owner k).run ((Instr.owner k).run
        (s.setFlag h k 0)).2).1).run ((Instr.owner k).run ((Instr.owner k).run
        (s.setFlag h k 0)).2).2).2 = handedOver h o k s := by
      have : ((Instr.owner k).run ((Instr.owner k).run (s.setFlag h k 0)).2).1 = some o := ho
      rw [this]
      rfl
    rw [hset, h3]
    simp only [Prog.pure_bind]
    exact Prog.exec_bind _ _ _ _
  rw [hstep, hwake, if_neg hme]
  rfl

/-- The only `return_core` that leaves another cell's CPU as it is gives it to
the cell that holds it, without a request pending and with no worker asleep. -/
theorem return_leavesHolder_iff (hc : s.current k ≠ some c) :
    LeavesHolder .ret c k s ↔
      ∃ h, s.current k = some h ∧ s.owner k = some h ∧ s.flag h k = 0 ∧
        ∀ w ∈ s.workers h k, w.blocked = false := by
  cases hh : s.current k with
  | none =>
    simp only [reduceCtorEq, false_and, exists_false, iff_false]
    rintro ⟨s', hs', -⟩
    have h1 : ((Instr.current k).run s).1 = none := hh
    rw [sysRelease, Resource.returnCore, alone_op_bind, h1] at hs'
    simp [deref] at hs'
  | some h =>
    have hne : h ≠ c := by
      rintro rfl
      exact hc hh
    cases ho : s.owner k with
    | none =>
      simp only [reduceCtorEq, false_and, and_false, exists_false, iff_false]
      rintro ⟨s', hs', -⟩
      have h1 : ((Instr.current k).run s).1 = some h := hh
      have h2 : ((Instr.owner k).run (s.setFlag h k 0)).1 = none := ho
      rw [sysRelease, Resource.returnCore, alone_op_bind, h1] at hs'
      simp only [deref, Prog.pure_bind, alone_op_bind] at hs'
      have hrun : ((Instr.setFlag h k 0).run ((Instr.current k).run s).2).2 = s.setFlag h k 0 := rfl
      rw [hrun, h2] at hs'
      simp at hs'
    | some o =>
      obtain ⟨s', hs', hw⟩ := alone_returnCore hh ho hne
      have hcur : s'.current k = some o := by rw [hw.onlyCell.current, handedOver_current]
      have hflag : s'.flag h k = 0 := by
        rw [hw.flag]
        simp [handedOver, State.flag, State.setResource, State.setFlag, State.useCip, State.setCell]
      have hworkers : ∀ j, (handedOver h o k s).workers h j = s.workers h j := by
        intro j
        simp [handedOver, State.workers, State.setResource, State.setFlag, State.useCip, State.setCell]
      constructor
      · rintro ⟨s'', hs'', hcur', hrest⟩
        obtain rfl : s' = s'' := by
          have := hs'.symm.trans hs''
          simpa using this
        rw [hcur, hh] at hcur'
        obtain rfl : o = h := Option.some.inj hcur'
        obtain ⟨hf, hb⟩ := hrest o hh
        refine ⟨o, rfl, rfl, by rw [← hf, hflag], ?_⟩
        have hbk := hb k
        rw [hw.workers, if_pos rfl, hworkers, List.map_map] at hbk
        intro w hwk
        have := List.map_inj_left.mp hbk w hwk
        rw [← this]
        exact worker_up_blocked w
      · rintro ⟨h', hh', ho', hf, hb⟩
        obtain rfl := Option.some.inj hh'
        obtain rfl := Option.some.inj ho'
        refine ⟨s', hs', by rw [hcur, hh], ?_⟩
        intro h' hh''
        obtain rfl := Option.some.inj (hh.symm.trans hh'')
        refine ⟨by rw [hflag, hf], ?_⟩
        intro j
        rw [hw.workers, hworkers]
        split
        · rename_i hj
          subst hj
          rw [List.map_map]
          apply List.map_congr_left
          intro w hwk
          rw [hb w hwk]
          exact worker_up_blocked w
        · rfl

theorem sysRelease_leavesHolder_iff (r : ReleaseOp) (hc : s.current k ≠ some c) :
    LeavesHolder r c k s ↔
      r = .release ∨ ∃ h, s.current k = some h ∧ s.owner k = some h ∧ s.flag h k = 0 ∧
        ∀ w ∈ s.workers h k, w.blocked = false := by
  cases r with
  | release => simp [release_leavesHolder hc]
  | ret => simp [return_leavesHolder_iff hc]

/-- Cell 1 has lent the first CPU to cell 2, which has the second as its own; every cell has a
worker on every CPU. -/
def lentOut : State where
  resources k := if k = 0 then ⟨some 1, some 2, 0⟩ else if k = 1 then ⟨some 2, some 2, 0⟩ else ⟨none, none, 0⟩
  idleCpus k := k ≠ 0 ∧ k ≠ 1
  cells _ := { Cell.new with workers := fun _ => [⟨0, false⟩] }

/-- A worker of cell 3 on the CPU of the owner, and on that of the borrower. -/
theorem sysRelease_leavesHolder_iff_lentOut :
    LeavesHolder .release 3 0 lentOut ∧ ¬LeavesHolder .ret 3 0 lentOut ∧ LeavesHolder .ret 3 1 lentOut := by
  have h0 : lentOut.current 0 ≠ some 3 := by decide
  have h1 : lentOut.current 1 ≠ some 3 := by decide
  refine ⟨(sysRelease_leavesHolder_iff .release h0).mpr (.inl rfl), ?_,
    (sysRelease_leavesHolder_iff .ret h1).mpr (.inr ⟨2, rfl, rfl, rfl, by decide⟩)⟩
  rw [sysRelease_leavesHolder_iff .ret h0]
  rintro (h | ⟨h, hh, ho, -⟩)
  · cases h
  · obtain rfl := Option.some.inj hh
    exact absurd ho (by decide)

theorem bootReturn_follows_null :
    ¬∀ (r : ReleaseOp) (c : CellId) (k : Cpu), State.boot.current k ≠ some c →
      LeavesHolder r c k .boot := by
  intro hall
  obtain ⟨s', hs', -⟩ := hall .ret 1 0 (by decide)
  have hfault : alone (sysRelease .ret 1 0) State.boot = .error .nullHolder := rfl
  rw [hfault] at hs'
  cases hs'

end Release

end Tukija.Core
