import Tukija.Core.Outline

/-! Who may list a CPU.  The kernel enters a CPU into a set of the cell that holds
it, as long as no CPU loses its holder while another CPU still acts on that. -/
namespace Tukija.Core

open Tukija.Lib.Threads

namespace Exclusive

/-- The kernel enters a CPU only for its holder, and destroys no cell. -/
def ok {β : Type} (a : Access β) (s : State) : Prop :=
  match a.instr with
  | .coresSet c t k => a.place ≠ .user → t = .new ∨ t = .current → s.current k = some c
  | .setToBeDestroyed _ => False
  | _ => True

/-- A cell lists a CPU that it does not hold. -/
def bad (x : CellId × Cpu) (s : State) : Prop :=
  s.lists x.1 .current x.2 = true ∧ s.current x.2 ≠ some x.1

def aim : Aim (CellId × Cpu) := ⟨ok, bad⟩

section Terms

variable (call : Option Call)

/-- A holder loses its CPU by its own call or without listing it, and not by an
`alloc` of its own; `transfer` finds an idle CPU free; and user space adds no
CPU to the sets that the kernel keeps. -/
def own {β : Type} (a : Access β) (s : State) : Prop :=
  match a.instr with
  | .setCurrent k v => ∀ h, s.current k = some h → v ≠ some h →
    call.bind Call.allocates ≠ some h ∧
      (call.bind Call.cell = some h ∨ s.lists h .current k = false)
  | .idleChk k => s.idleCpus k = true → s.current k = none
  | .coresSet _ t _ => a.place = .user → t ≠ .new ∧ t ≠ .current
  | _ => True

structure Undisturbed {β : Type} (a : Access β) (s s' : State) : Prop where
  grip : ∀ k, a.grips (call.any Call.controls) = some k →
    call.any Call.controls = true ∨ s.current k ≠ none → s'.current k = s.current k
  alloc : ∀ c k, call.bind Call.allocates = some c → s.current k = some c → s'.current k = some c
  new : ∀ c k, s'.lists c .new k = true → s.lists c .new k = true ∨ s'.current k = some c
  doomed : ∀ c, (s.cells c).toBeDestroyed = false → (s'.cells c).toBeDestroyed = false

def terms : Terms Access State := ⟨own call, Undisturbed call⟩

end Terms

section Effects

variable {call : Option Call} {β : Type} {a : Access β} {s : State}

theorem plain_ok (ha : Plain a.instr) : ok a s := by
  obtain ⟨p, i⟩ := a
  cases i with
  | coresSet c t k =>
    cases t with
    | new | current => exact ha.elim
    | reserved | reclaimed => exact fun _ h => by simp at h
  | setToBeDestroyed c => exact ha.elim
  | _ => trivial

theorem entered_held (ho : own call a s) (hok : ok a s) {c : CellId} {t : CoreSet} {k : Cpu}
    (ht : t = .new ∨ t = .current) (h : a.instr.enters = some (c, t, k)) : s.current k = some c := by
  obtain ⟨p, i⟩ := a
  cases i with
  | coresSet d u j =>
    obtain ⟨rfl, rfl, rfl⟩ : d = c ∧ u = t ∧ j = k := by simpa [Instr.enters] using h
    by_cases hp : p = .user
    · obtain ⟨hnew, hcur⟩ := ho hp
      exact (ht.elim hnew hcur).elim
    · exact hok hp ht
  | _ => cases h

theorem bad_of_bad (ho : own call a s) (hok : ok a s) (ha : ¬a.instr.moves) {x : CellId × Cpu}
    (hx : bad x (a.run s).2) : bad x s := by
  obtain ⟨c, k⟩ := x
  obtain ⟨hl, hc⟩ := hx
  rw [Access.run_lists] at hl
  rw [Access.run_current] at hc
  have hnot : s.current k ≠ some c := fun h => hc (Instr.held_of_current ha h)
  obtain hl | hl := Instr.listed_cases _ s c .current k hl
  · exact ⟨hl, hnot⟩
  · exact (hnot (entered_held ho hok (.inr rfl) hl)).elim

end Effects

structure Steady (call : Option Call) (F : State → Prop) : Prop where
  stable : ∀ {β : Type} (a : Access β) (s s' : State), F s → Undisturbed call a s s' → F s'
  kept : ∀ {β : Type} (a : Access β) (s : State), F s → own call a s → ok a s → F (a.run s).2
  alive : ∀ s c, F s → (s.cells c).toBeDestroyed = false

section Steady

variable {call : Option Call} {F : State → Prop} {α β : Type} {D D' : Set (CellId × Cpu)}
variable (hF : Steady call F)

include hF

theorem Steady.frame : Frame aim (terms call) F where
  stable := hF.stable
  plain a ha s hs ho := by
    have hok : ok a s := plain_ok ha
    refine ⟨hok, hF.kept a s hs ho hok, fun x hx => bad_of_bad ho hok ?_ hx⟩
    obtain ⟨p, i⟩ := a
    cases i with
    | setCurrent j v => exact ha.elim
    | _ => exact id

theorem Steady.step {pl : Place} {i : Instr α} {f : α → Code β} {Q : β → State → Prop}
    (hi : ¬i.moves) (hok : ∀ s, F s → ok ⟨pl, i⟩ s)
    (hf : ∀ v, Outline aim (terms call) F D (f v) Q D') :
    Outline aim (terms call) F D (op pl i >>= f) Q D' := by
  refine Prog.Sat.next (B := fun _ => F) (R := fun _ => D) (hF.stable _) ?_ ?_ ?_ hf
  · exact fun s hs _ => hok s hs
  · exact fun s hs ho => hF.kept ⟨pl, i⟩ s hs ho (hok s hs)
  · intro s hs ho x hx
    by_cases hx' : x ∈ D
    · exact .inl hx'
    · exact .inr ⟨bad_of_bad ho (hok s hs) hi hx, hx'⟩

theorem Steady.grip {pl : Place} {i : Instr α} {f : α → Code β} {Q : β → State → Prop} {k : Cpu}
    {d : CellId} (hk : (⟨pl, i⟩ : Access α).grips (call.any Call.controls) = some k) (hi : ¬i.moves)
    (hok : ∀ s, s.current k = some d → ok ⟨pl, i⟩ s)
    (hf : ∀ v, Outline aim (terms call) (fun s => F s ∧ s.current k = some d) D (f v) Q D') :
    Outline aim (terms call) (fun s => F s ∧ s.current k = some d) D (op pl i >>= f) Q D' := by
  refine Prog.Sat.next (B := fun _ s => F s ∧ s.current k = some d) (R := fun _ => D) ?_ ?_ ?_ ?_ hf
  · rintro s s' ⟨hs, hc⟩ hr
    refine ⟨hF.stable _ s s' hs hr, ?_⟩
    rw [hr.grip k hk (.inr (by simp [hc])), hc]
  · exact fun s hs _ => hok s hs.2
  · rintro s ⟨hs, hc⟩ ho
    refine ⟨hF.kept ⟨pl, i⟩ s hs ho (hok s hc), ?_⟩
    have hcur : ((⟨pl, i⟩ : Access α).run s).2.current k = i.held s k := Access.run_current _ s k
    exact hcur.trans (Instr.held_of_current hi hc)
  · rintro s ⟨hs, hc⟩ ho x hx
    by_cases hx' : x ∈ D
    · exact .inl hx'
    · exact .inr ⟨bad_of_bad ho (hok s hc) hi hx, hx'⟩

theorem wakeCore_outline (k : Cpu) (d : CellId) :
    Outline aim (terms call) (fun s => F s ∧ s.current k = some d) D (Cell.wakeCore d k)
      (fun _ => F) D := by
  refine hF.grip rfl id (fun _ _ => trivial) fun n => ?_
  generalize List.range n = l
  induction l with
  | nil => exact ⟨fun s hs => hs.1, subset_rfl⟩
  | cons i l ih =>
    have hturn : Outline aim (terms call) (fun s => F s ∧ s.current k = some d) D (do
        op (.wakeCore k) (.coresSet d .current k)
        op (.wakeCore k) (.up d k i)) (fun _ s => F s ∧ s.current k = some d) D :=
      hF.grip rfl id (fun s hs _ _ => hs) fun _ =>
        hF.grip (f := pure) rfl id (fun _ _ => trivial) fun _ => ⟨fun _ h => h, subset_rfl⟩
    exact Prog.Sat.bind hturn fun _ => ih

theorem occupy_keeps (k : Cpu) (o : Option CellId) :
    Keeps aim (terms call) F (Resource.occupy k o) := by
  refine Prog.Sat.next (B := fun ok s => F s ∧ (ok = true → s.current k = o)) (R := fun _ => ∅)
    (hF.stable _) (fun _ _ _ => trivial) ?_ ?_ ?_
  · intro s hs ho
    refine ⟨hF.kept ⟨_, .occupy k o⟩ s hs ho trivial, ?_⟩
    by_cases hc : s.current k = none <;> simp [Access.run, Instr.run, hc]
  · intro s _ ho x hx
    have ho : own call ⟨.occupy k, .occupy k o⟩ s := ho
    exact .inr ⟨bad_of_bad ho trivial id hx, Set.notMem_empty x⟩
  · intro ok
    cases ok with
    | false => exact ⟨fun s hs => hs.1, subset_rfl⟩
    | true =>
      cases o with
      | none =>
        have hfault : Outline aim (terms call) F ∅ (do
            op (.occupy k) (.idleClr k)
            (.fault .nullOwner : Code Bool)) (fun _ => F) ∅ :=
          hF.step id (fun _ _ => trivial) fun _ => trivial
        exact hfault.mono (fun s hs => hs.1) subset_rfl
      | some c =>
        have henter : Outline aim (terms call) (fun s => F s ∧ s.current k = some c) ∅ (do
            op (.occupy k) (.idleClr k)
            op (.occupy k) (.coresSet c .new k)
            (pure true : Code Bool)) (fun _ => F) ∅ :=
          hF.grip rfl id (fun _ _ => trivial) fun _ => hF.grip rfl id (fun s hs _ _ => hs) fun _ =>
            ⟨fun s hs => hs.1, subset_rfl⟩
        exact henter.mono (fun s hs => ⟨hs.1, hs.2 rfl⟩) subset_rfl

theorem blockWorkersOn_keeps (c : CellId) (k : Cpu) :
    Keeps aim (terms call) F (Cell.blockWorkersOn c k) := by
  refine hF.frame.next trivial fun dead => ?_
  split
  · exact .pure ()
  · refine hF.step id (fun _ _ => trivial) fun _ => hF.frame.next trivial fun n => ?_
    exact keeps_sleepEach hF.frame c k _

theorem forget_keeps (k : Cpu) (borrower : Option CellId) :
    Keeps aim (terms call) F (Resource.forget k borrower) := by
  cases borrower with
  | none => exact .pure ()
  | some c => exact hF.step (f := pure) id (fun _ _ => trivial) fun _ => ⟨fun _ h => h, subset_rfl⟩

theorem blockWorkersOn_outline (c : CellId) (k : Cpu) :
    Outline aim (terms call) F {(c, k)} (Cell.blockWorkersOn c k) (fun _ => F) ∅ := by
  have hclear : Outline aim (terms call) F {(c, k)} (do
      op (.blockWorkersOn k) (.coresClr c .current k)
      let n ← op (.blockWorkersOn k) (.workers c k)
      Cell.sleepEach c k (List.range n)) (fun _ => F) ∅ := by
    refine Prog.Sat.next (B := fun _ => F) (R := fun _ => ∅) (hF.stable _) (fun _ _ _ => trivial)
      (fun s hs ho => hF.kept ⟨_, .coresClr c .current k⟩ s hs ho trivial) ?_ fun _ => ?_
    · intro s _ ho x hx
      have ho : own call ⟨.blockWorkersOn k, .coresClr c .current k⟩ s := ho
      refine .inr ⟨bad_of_bad ho trivial id hx, ?_⟩
      rintro rfl
      have hl : (Instr.coresClr c .current k).listed s c .current k = true := by
        rw [← Instr.run_lists]
        exact hx.1
      simp [Instr.listed] at hl
    · exact hF.frame.next trivial fun n => keeps_sleepEach hF.frame c k _
  refine Prog.Sat.next (B := fun dead s => F s ∧ dead = false)
    (R := fun dead => if dead then ∅ else {(c, k)}) (hF.stable _) (fun _ _ _ => trivial)
    (fun s hs _ => ⟨hs, hF.alive s c hs⟩) ?_ fun dead => ?_
  · intro s hs _ x hx
    have hdead : (s.cells c).toBeDestroyed = false := hF.alive s c hs
    by_cases hx' : x ∈ ({(c, k)} : Set (CellId × Cpu))
    · exact .inl (by simpa [aim, Access.run, Instr.run, hdead] using hx')
    · exact .inr ⟨hx, hx'⟩
  · cases dead with
    | true => exact (Prog.Sat.unreached _ subset_rfl).mono (fun s hs => by simp at hs) subset_rfl
    | false => exact hclear.mono (fun s hs => hs.1) subset_rfl

/-- The store of a holder: the one before it owes its bit, if it executes this
itself. -/
theorem setCurrent_outline {pl : Place} {k : Cpu} {b : CellId} {o : Option CellId} {f : Unit → Code β}
    {Q : β → State → Prop}
    (hk : (⟨pl, .setCurrent k o⟩ : Access Unit).grips (call.any Call.controls) = some k)
    (hf : Outline aim (terms call) F (if call.bind Call.cell = some b then {(b, k)} else ∅) (f ()) Q D') :
    Outline aim (terms call) (fun s => F s ∧ s.current k = some b) ∅ (op pl (.setCurrent k o) >>= f)
      Q D' := by
  refine Prog.Sat.next (B := fun _ => F)
    (R := fun _ => if call.bind Call.cell = some b then {(b, k)} else ∅) ?_ (fun _ _ _ => trivial)
    (fun s hs ho => hF.kept ⟨pl, .setCurrent k o⟩ s hs.1 ho trivial) ?_ fun _ => hf
  · rintro s s' ⟨hs, hc⟩ hr
    refine ⟨hF.stable _ s s' hs hr, ?_⟩
    rw [hr.grip k hk (.inr (by simp [hc])), hc]
  · rintro s ⟨hs, hc⟩ ho ⟨c, j⟩ ⟨hl, hcur⟩
    have hl' : s.lists c .current j = true := hl
    have hheld : ((Instr.setCurrent k o).run s).2.current j = (Instr.setCurrent k o).held s j :=
      Instr.run_current _ s j
    have hcur : (Instr.setCurrent k o).held s j ≠ some c := by
      rw [← hheld]
      exact hcur
    by_cases hj : j = k
    · subst hj
      by_cases hcb : c = b
      · subst hcb
        have ho' : o ≠ some c := by simpa [Instr.held] using hcur
        obtain ⟨-, hcell | hlist⟩ := ho c hc ho'
        · exact .inl (by simp [hcell])
        · exact absurd (hl'.symm.trans hlist) (by simp)
      · exact .inr ⟨⟨hl', fun h => hcb (Option.some.inj (h.symm.trans hc))⟩, Set.notMem_empty _⟩
    · exact .inr ⟨⟨hl', by simpa [Instr.held, hj] using hcur⟩, Set.notMem_empty _⟩

theorem payDebt (b : CellId) (k : Cpu) :
    Outline aim (terms call) F (if call.bind Call.cell = some b then {(b, k)} else ∅)
      (if call.bind Call.cell = some b then Cell.blockWorkersOn b k else pure ()) (fun _ => F) ∅ := by
  by_cases hb : call.bind Call.cell = some b
  · simp only [if_pos hb]
    exact blockWorkersOn_outline hF b k
  · simp only [if_neg hb]
    exact ⟨fun _ h => h, subset_rfl⟩

theorem returnCore_keeps (k : Cpu) :
    Keeps aim (terms call) F (Resource.returnCore k (call.bind Call.cell)) := by
  refine hF.frame.readCurrent fun v => ?_
  cases v with
  | none => trivial
  | some b =>
    refine hF.grip rfl id (fun _ _ => trivial) fun _ => ?_
    refine hF.grip rfl id (fun _ _ => trivial) fun o => ?_
    cases o with
    | none => trivial
    | some _ =>
      refine hF.grip rfl id (fun _ _ => trivial) fun o => ?_
      refine setCurrent_outline hF rfl (hF.frame.readCurrent fun v => ?_)
      cases v with
      | none => trivial
      | some d =>
        rw [deref_some_bind]
        exact Prog.Sat.bind (wakeCore_outline hF k d) fun _ => payDebt hF b k

theorem Steady.readAgain {pl : Place} {k : Cpu} {d : CellId} {f : Option CellId → Code β}
    {Q : β → State → Prop}
    (hk : (⟨pl, .current k⟩ : Access (Option CellId)).grips (call.any Call.controls) = some k)
    (hf : Outline aim (terms call) (fun s => F s ∧ s.current k = some d) ∅ (f (some d)) Q D') :
    Outline aim (terms call) (fun s => F s ∧ s.current k = some d) ∅ (op pl (.current k) >>= f) Q D' := by
  refine Prog.Sat.next (B := fun v s => (F s ∧ s.current k = some d) ∧ v = some d)
    (R := fun _ => ∅) ?_ (fun _ _ _ => trivial) (fun s hs _ => ⟨hs, hs.2⟩)
    (fun s _ _ x hx => .inr ⟨hx, Set.notMem_empty x⟩) fun v => ?_
  · rintro s s' ⟨hs, hc⟩ hr
    refine ⟨hF.stable _ s s' hs hr, ?_⟩
    rw [hr.grip k hk (.inr (by simp [hc])), hc]
  · by_cases hv : v = some d
    · subst hv
      exact hf.mono (fun s hs => hs.1) subset_rfl
    · exact (Prog.Sat.unreached _ (Set.empty_subset _)).mono (fun s hs => hv hs.2) subset_rfl

theorem sysRelease_keeps (r : ReleaseOp) {c : CellId} (k : Cpu) (hc : call.bind Call.cell = some c) :
    Keeps aim (terms call) F (sysRelease r c k) := by
  have hret : Keeps aim (terms call) F (Resource.returnCore k (some c)) := by
    rw [← hc]
    exact returnCore_keeps hF k
  cases r with
  | ret => exact hret
  | release =>
    refine hF.frame.readCurrent fun v => ?_
    by_cases hv : v = some c
    · subst hv
      simp only [ne_eq, not_true_eq_false, if_false]
      refine hF.readAgain rfl ?_
      rw [deref_some_bind]
      refine hF.grip rfl id (fun _ _ => trivial) fun flag => ?_
      split
      · exact Prog.Sat.mono hret (fun s hs => hs.1) subset_rfl
      · refine hF.grip rfl id (fun _ _ => trivial) fun _ => ?_
        refine hF.grip rfl id (fun _ _ => trivial) fun _ => setCurrent_outline hF rfl ?_
        have hpay := payDebt hF c k
        rw [hc] at hpay ⊢
        exact hpay
    · simp only [if_pos hv]
      have hother : Keeps aim (terms call) F (do
          op (.release k) (.setFlag c k 0)
          Cell.blockWorkersOn c k) :=
        hF.frame.next trivial fun _ => blockWorkersOn_keeps hF c k
      exact Prog.Sat.mono hother (fun s hs => hs.1) subset_rfl

end Steady

section Frames

variable {call : Option Call}

def Alive (s : State) : Prop := ∀ c, (s.cells c).toBeDestroyed = false

/-- In the words `W` of its set of new CPUs, and in the list `l`, the cell has
CPUs that it holds. -/
def Fresh (c : CellId) (W : List (Fin 4)) (l : List Cpu) (s : State) : Prop :=
  Alive s ∧ (∀ i ∈ W, ∀ k ∈ word i, s.lists c .new k = true → s.current k = some c) ∧
    ∀ k ∈ l, s.current k = some c

theorem doomed_run {β : Type} {a : Access β} {s : State} {c : CellId} (hok : ok a s)
    (h : (s.cells c).toBeDestroyed = false) : ((a.run s).2.cells c).toBeDestroyed = false := by
  obtain ⟨p, i⟩ := a
  rw [Access.run_toBeDestroyed]
  cases i with
  | setToBeDestroyed d => exact hok.elim
  | create d =>
    simp only [Instr.doomed]
    split
    · rfl
    · exact h
  | _ => exact h

theorem alive_run {β : Type} {a : Access β} {s : State} (h : Alive s) (hok : ok a s) :
    Alive (a.run s).2 :=
  fun c => doomed_run hok (h c)

theorem alive_steady : Steady call Alive where
  stable _ _ _ h hr c := hr.doomed c (h c)
  kept _ _ h _ hok := alive_run h hok
  alive _ c h := h c

theorem holds_run {c : CellId} (hcall : call.bind Call.allocates = some c) {β : Type} {a : Access β}
    {s : State} {k : Cpu} (h : s.current k = some c) (ho : own call a s) :
    (a.run s).2.current k = some c := by
  obtain ⟨p, i⟩ := a
  rw [Access.run_current]
  cases i with
  | occupy j o => simp [Instr.held, h]
  | setCurrent j v =>
    by_cases hj : k = j
    · subst hj
      by_cases hv : v = some c
      · simp [Instr.held, hv]
      · exact ((ho c h hv).1 hcall).elim
    · simp [Instr.held, hj, h]
  | _ => exact h

theorem new_run {call : Option Call} {β : Type} {a : Access β} {s : State} {c : CellId} {k : Cpu}
    (h : (a.run s).2.lists c .new k = true) (ho : own call a s) (hok : ok a s) :
    s.lists c .new k = true ∨ (a.run s).2.current k = some c := by
  rw [Access.run_lists] at h
  obtain h | h := Instr.listed_cases _ s c .new k h
  · exact .inl h
  · rw [Access.run_current]
    exact .inr (Instr.held_of_current (Instr.not_moves_of_enters h) (entered_held ho hok (.inl rfl) h))

theorem fresh_steady {c : CellId} (hcall : call.bind Call.allocates = some c) (W : List (Fin 4))
    (l : List Cpu) : Steady call (Fresh c W l) where
  stable a s s' h hr := by
    obtain ⟨halive, hW, hl⟩ := h
    refine ⟨alive_steady.stable a s s' halive hr, fun i hi k hk hnew => ?_, fun k hk => ?_⟩
    · obtain hnew | hcur := hr.new c k hnew
      · exact hr.alloc c k hcall (hW i hi k hk hnew)
      · exact hcur
    · exact hr.alloc c k hcall (hl k hk)
  kept a s h ho hok := by
    obtain ⟨halive, hW, hl⟩ := h
    refine ⟨alive_run halive hok, fun i hi k hk hnew => ?_, fun k hk => holds_run hcall (hl k hk) ho⟩
    obtain hnew | hcur := new_run hnew ho hok
    · exact holds_run hcall (hW i hi k hk hnew) ho
    · exact hcur
  alive _ d h := h.1 d

end Frames

section Alloc

variable {call : Option Call} {c : CellId} (hcall : call.bind Call.allocates = some c)

include hcall

theorem clear_outline (W l : List (Fin 4)) :
    Outline aim (terms call) (Fresh c W []) ∅ (each l fun i => op .alloc (.coresZero c .new i))
      (fun _ => Fresh c (W ++ l) []) ∅ := by
  induction l generalizing W with
  | nil => exact ⟨fun s hs => by simpa using hs, subset_rfl⟩
  | cons i l ih =>
    have hF := fresh_steady hcall W []
    refine Prog.Sat.next (B := fun _ => Fresh c (W ++ [i]) []) (R := fun _ => ∅) (hF.stable _)
      (fun _ _ _ => trivial) ?_ ?_ fun _ => ?_
    · intro s hs ho
      obtain ⟨halive, hW, -⟩ := hF.kept ⟨.alloc, .coresZero c .new i⟩ s hs ho trivial
      refine ⟨halive, fun j hj k hk hnew => ?_, fun k hk => by simp at hk⟩
      by_cases hji : j = i
      · subst hji
        have hnew : (Instr.coresZero c .new j).listed s c .new k = true := by
          rw [← Instr.run_lists]
          exact hnew
        simp [Instr.listed, hk] at hnew
      · exact hW j (by simpa [hji] using hj) k hk hnew
    · intro s _ ho x hx
      have ho : own call ⟨.alloc, .coresZero c .new i⟩ s := ho
      exact .inr ⟨bad_of_bad ho trivial id hx, Set.notMem_empty x⟩
    · have := ih (W ++ [i])
      rwa [List.append_assoc] at this

theorem wakeCores_keeps : Keeps aim (terms call) (Fresh c words []) (Cell.wakeCores c) := by
  refine .each fun i hi => ?_
  have hF := fresh_steady hcall words []
  refine Prog.Sat.next (B := fun l => Fresh c words l) (R := fun _ => ∅) (hF.stable _)
    (fun _ _ _ => trivial) ?_ (fun s _ _ x hx => .inr ⟨?_, Set.notMem_empty x⟩) fun l => ?_
  · intro s hs ho
    obtain ⟨halive, hW, -⟩ := hF.kept ⟨.wakeCores, .coresWord c .new i⟩ s hs ho trivial
    refine ⟨halive, hW, fun k hk => ?_⟩
    obtain ⟨hword, hnew⟩ := List.mem_filter.mp hk
    exact hs.2.1 i hi k hword hnew
  · have ho : own call ⟨.wakeCores, .coresWord c .new i⟩ s := trivial
    exact bad_of_bad ho trivial id hx
  · induction l with
    | nil => exact ⟨fun s hs => hs, subset_rfl⟩
    | cons k l ih =>
      refine Prog.Sat.mono (A := fun s => Fresh c words l s ∧ s.current k = some c) (D := ∅) ?_ ?_
        subset_rfl
      · exact Prog.Sat.bind (wakeCore_outline (fresh_steady hcall words l) k c) fun _ => ih
      · rintro s ⟨halive, hW, hl⟩
        exact ⟨⟨halive, hW, fun j hj => hl j (by simp [hj])⟩, hl k (by simp)⟩

theorem sysAlloc_keeps (quantity : Nat) (patience : Cpu → Nat) (hme : call.bind Call.cell = some c) :
    Outline aim (terms call) Alive ∅ (sysAlloc quantity c patience) (fun _ _ => True) ∅ := by
  have hF := fresh_steady hcall words []
  have hret : ∀ k, Keeps aim (terms call) (Fresh c words []) (Resource.returnCore k (some c)) := by
    intro k
    rw [← hme]
    exact returnCore_keeps hF k
  have hcleared := keeps_allocCleared hF.frame (occupy_keeps hF) (forget_keeps hF) hret
    (wakeCore_outline hF) quantity c patience
  unfold sysAlloc
  split
  · exact ⟨fun _ _ => trivial, subset_rfl⟩
  · have halloc : Outline aim (terms call) (Fresh c [] []) ∅
        (Allocator.alloc quantity c patience (some c)) (fun _ => Fresh c words []) ∅ :=
      Prog.Sat.bind (clear_outline hcall [] words) fun _ => hcleared
    refine Prog.Sat.mono (Prog.Sat.bind halloc fun n => ?_) ?_ subset_rfl
    · split
      · exact ⟨fun _ _ => trivial, subset_rfl⟩
      · exact Prog.Sat.post (wakeCores_keeps hcall) fun _ _ _ => trivial
    · exact fun s hs => ⟨hs, by simp, by simp⟩

end Alloc

section Ctrl

variable {c : CellId} {patience : Cpu → Nat} {me : Option CellId}

theorem confer_keeps {call : Option Call} : Keeps aim (terms call) Alive (Allocator.confer c) :=
  .each fun _ _ => alive_steady.frame.next trivial fun _ => .each fun _ _ =>
    alive_steady.frame.op trivial

theorem firstCpu_keeps {call : Option Call} (l : List (Fin 4)) :
    Keeps aim (terms call) Alive (firstCpu c l) := by
  induction l with
  | nil => exact .fault _
  | cons i l ih =>
    refine alive_steady.frame.next trivial fun ks => ?_
    cases ks with
    | nil => exact ih
    | cons k _ => exact .pure _

/-- A CPU that nobody holds, as long as `sys_cell_ctrl` is about to take it. -/
def Free (k : Cpu) (s : State) : Prop := Alive s ∧ s.current k = none

theorem free_step {α β : Type} {pl : Place} {i : Instr α} {f : α → Code β} {Q : β → State → Prop}
    {k : Cpu} {B : α → State → Prop} (hk : (⟨pl, i⟩ : Access α).grips true = some k)
    (hi : Plain i) (hrun : ∀ s, Free k s → B (i.run s).1 (i.run s).2)
    (hf : ∀ v, Outline aim (terms (some (.ctrl c patience me))) (B v) ∅ (f v) Q ∅) :
    Outline aim (terms (some (.ctrl c patience me))) (Free k) ∅ (op pl i >>= f) Q ∅ := by
  refine Prog.Sat.next (B := B) (R := fun _ => ∅) ?_ (fun s _ _ => plain_ok hi)
    (fun s hs _ => hrun s hs) ?_ hf
  · rintro s s' ⟨hs, hc⟩ hr
    exact ⟨alive_steady.stable _ s s' hs hr, (hr.grip k hk (.inl rfl)).trans hc⟩
  · intro s _ ho x hx
    have ho : own (some (.ctrl c patience me)) ⟨pl, i⟩ s := ho
    refine .inr ⟨bad_of_bad ho (plain_ok hi) ?_ hx, Set.notMem_empty x⟩
    cases i with
    | setCurrent j v => exact hi.elim
    | _ => exact id

theorem borrowed_free (k : Cpu) :
    Outline aim (terms (some (.ctrl c patience me))) (Free k) ∅ (Resource.borrowed k)
      (fun lent s => lent = false ∧ Free k s) ∅ := by
  refine free_step (B := fun _ => Free k) rfl trivial (fun s hs => hs) fun o => ?_
  refine free_step (B := fun v s => v = none ∧ Free k s) rfl trivial (fun s hs => ⟨hs.2, hs⟩) fun v => ?_
  split
  · exact ⟨fun s hs => ⟨rfl, hs.2⟩, subset_rfl⟩
  · refine Prog.Sat.mono (A := Free k) (D := ∅) ?_ (fun s hs => hs.2) subset_rfl
    refine free_step (B := fun v s => v = none ∧ Free k s) rfl trivial (fun s hs => ⟨hs.2, hs⟩)
      fun v => ⟨?_, subset_rfl⟩
    rintro s ⟨rfl, hs⟩
    exact ⟨rfl, hs⟩

theorem occupy_free (k : Cpu) :
    Outline aim (terms (some (.ctrl c patience me))) (Free k) ∅ (Resource.occupy k (some c))
      (fun ok s => ok = true ∧ Alive s ∧ s.current k = some c) ∅ := by
  have hF : Steady (some (.ctrl c patience me)) Alive := alive_steady
  refine Prog.Sat.next (B := fun ok s => ok = true ∧ Alive s ∧ s.current k = some c)
    (R := fun _ => ∅) ?_ (fun _ _ _ => trivial) ?_ ?_ fun ok => ?_
  · rintro s s' ⟨hs, hc⟩ hr
    exact ⟨hF.stable _ s s' hs hr, (hr.grip k rfl (.inl rfl)).trans hc⟩
  · rintro s ⟨hs, hc⟩ ho
    have halive := hF.kept ⟨.occupy k, .occupy k (some c)⟩ s hs ho trivial
    have hrun : (Instr.occupy k (some c)).run s =
        (true, s.setResource k fun r => { r with current := some c }) := by
      simp [Instr.run, hc]
    refine ⟨congrArg Prod.fst hrun, halive, ?_⟩
    have : ((Instr.occupy k (some c)).run s).2.current k = some c := by simp [hrun]
    exact this
  · intro s _ ho x hx
    have ho : own (some (.ctrl c patience me)) ⟨.occupy k, .occupy k (some c)⟩ s := ho
    exact .inr ⟨bad_of_bad ho trivial id hx, Set.notMem_empty x⟩
  · cases ok with
    | false =>
      exact (Prog.Sat.unreached _ subset_rfl).mono (fun s hs => by simp at hs) subset_rfl
    | true =>
      have henter : Outline aim (terms (some (.ctrl c patience me)))
          (fun s => Alive s ∧ s.current k = some c) ∅ (do
          op (.occupy k) (.idleClr k)
          op (.occupy k) (.coresSet c .new k)
          (pure true : Code Bool)) (fun ok s => ok = true ∧ Alive s ∧ s.current k = some c) ∅ :=
        hF.grip rfl id (fun _ _ => trivial) fun _ => hF.grip rfl id (fun s hs _ _ => hs) fun _ =>
          ⟨fun s hs => ⟨rfl, hs⟩, subset_rfl⟩
      exact henter.mono (fun s hs => hs.2) subset_rfl

theorem transfer_keeps (k : Cpu) :
    Keeps aim (terms (some (.ctrl c patience me))) Alive (Allocator.transfer c k patience me) := by
  have hF : Steady (some (.ctrl c patience me)) Alive := alive_steady
  refine Prog.Sat.next (B := fun idle s => Alive s ∧ (idle = true → s.current k = none))
    (R := fun _ => ∅) (hF.stable _) (fun _ _ _ => trivial) (fun s hs ho => ⟨hs, ho⟩)
    (fun s _ _ x hx => .inr ⟨hx, Set.notMem_empty x⟩) fun idle => ?_
  cases idle with
  | false => exact ⟨fun s hs => hs.1, subset_rfl⟩
  | true =>
    have hbody : Outline aim (terms (some (.ctrl c patience me))) (Free k) ∅ (do
        if ← Resource.borrowed k then do
          let _ ← Resource.reclaim k (patience k) me
          Allocator.transferred c k
        else if ← Resource.occupy k (some c) then Allocator.transferred c k
        else if ← Resource.borrowed k then Allocator.transferred c k
        else pure ()) (fun _ => Alive) ∅ := by
      refine Prog.Sat.bind (borrowed_free k) fun lent => ?_
      cases lent with
      | true =>
        exact (Prog.Sat.unreached _ subset_rfl).mono (fun s hs => by simp at hs) subset_rfl
      | false =>
        refine Prog.Sat.mono (A := Free k) (D := ∅) ?_ (fun s hs => hs.2) subset_rfl
        refine Prog.Sat.bind (occupy_free k) fun ok => ?_
        cases ok with
        | false =>
          exact (Prog.Sat.unreached _ subset_rfl).mono (fun s hs => by simp at hs) subset_rfl
        | true =>
          have hlast : Outline aim (terms (some (.ctrl c patience me)))
              (fun s => Alive s ∧ s.current k = some c) ∅ (Allocator.transferred c k)
              (fun _ => Alive) ∅ :=
            hF.grip rfl id (fun _ _ => trivial) fun _ =>
              hF.grip (f := pure) rfl id (fun s hs _ _ => hs) fun _ => ⟨fun s hs => hs.1, subset_rfl⟩
          exact hlast.mono (fun s hs => hs.2) subset_rfl
    exact hbody.mono (fun s hs => ⟨hs.1, hs.2 rfl⟩) subset_rfl

theorem sysCellCtrl_keeps :
    Keeps aim (terms (some (.ctrl c patience me))) Alive (sysCellCtrl c patience me) := by
  refine confer_keeps.bind fun _ => alive_steady.frame.next trivial fun ready => ?_
  split
  · exact .pure ()
  · refine (firstCpu_keeps words).bind fun k => (transfer_keeps k).bind fun _ => ?_
    exact alive_steady.frame.op trivial

end Ctrl

theorem code_outline (i : Cpu) {call : Call} (hcall : call.Allocates) :
    Outline aim (terms (some call)) Alive ∅ (call.code i) (fun _ _ => True) ∅ := by
  have hF : Steady (some call) Alive := alive_steady
  cases call with
  | alloc quantity c patience => exact sysAlloc_keeps rfl quantity patience rfl
  | release r c => exact Prog.Sat.post (sysRelease_keeps hF r i rfl) fun _ _ _ => trivial
  | ctrl c patience me => exact Prog.Sat.post sysCellCtrl_keeps fun _ _ _ => trivial
  | createCell c =>
    exact hF.step (f := pure) id (fun _ _ => trivial) fun _ => ⟨fun _ _ => trivial, subset_rfl⟩
  | createEc c k =>
    exact hF.step (f := pure) id (fun _ _ => trivial) fun _ => ⟨fun _ _ => trivial, subset_rfl⟩
  | destroy d c me => exact hcall.elim
  | write c t k v =>
    cases v with
    | false =>
      exact hF.step (f := pure) id (fun _ _ => trivial) fun _ => ⟨fun _ _ => trivial, subset_rfl⟩
    | true =>
      exact hF.step (f := pure) id (fun _ _ h => (h rfl).elim) fun _ =>
        ⟨fun _ _ => trivial, subset_rfl⟩

end Exclusive

end Tukija.Core
