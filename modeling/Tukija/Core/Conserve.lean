import Tukija.Core.Outline

/-! No CPU is lost.  A CPU that is taken, given back or handed over is out of all
sets for a moment; whoever does this puts it into the right one, as long as
nobody else comes in between. -/
namespace Tukija.Core

open Tukija.Lib.Threads

namespace Conserve

/-- Nobody holds the CPU and it is not idle, or its holder does not list it.
`added` are the CPUs of the machine. -/
def bad (added : Set Cpu) (x : Option CellId × Cpu) (s : State) : Prop :=
  x.2 ∈ added ∧ s.current x.2 = x.1 ∧
    match x.1 with
    | none => s.idleCpus x.2 = false
    | some c => s.lists c .current x.2 = false ∧ s.lists c .new x.2 = false

def ok {β : Type} (a : Access β) (_ : State) : Prop :=
  match a.instr with
  | .dequeue _ _ _ => False
  | _ => True

def aim (added : Set Cpu) : Aim (Option CellId × Cpu) := ⟨ok, bad added⟩

def LiveHolders (s : State) : Prop := ∀ k c, s.current k = some c → (s.cells c).freed = false

/-- The cell holds the CPU, and has it in this one of the two sets only. -/
def Slips (s : State) (c : CellId) (t : CoreSet) (k : Cpu) : Prop :=
  s.current k = some c ∧ s.lists c t k = true ∧
    (t = .current ∧ s.lists c .new k = false ∨ t = .new ∧ s.lists c .current k = false)

instance (s : State) (c : CellId) (t : CoreSet) (k : Cpu) : Decidable (Slips s c t k) :=
  inferInstanceAs (Decidable (_ ∧ _ ∧ (_ ∨ _)))

/-- A CPU is given to a cell that is there, and handed over to one that has
workers on it and does not hold it yet; a set is cleared, or left by the hand of
the user or of the owner, only if no CPU slips through; and a cell comes and goes
without CPUs. -/
def own {β : Type} (a : Access β) (s : State) : Prop :=
  match a.instr with
  | .occupy k o => s.current k = none → ∀ c ∈ o, (s.cells c).freed = false
  | .setCurrent k v => ∀ c ∈ v, (s.cells c).freed = false ∧ s.workers c k ≠ [] ∧ s.current k ≠ some c
  | .coresZero c t w => ∀ k ∈ word w, ¬Slips s c t k
  | .coresClr c t k => a.place = .user ∨ a.place = .handleHazard k → ¬Slips s c t k
  | .freeCell c => ∀ k, s.current k ≠ some c
  | .create c => ∀ k, s.current k ≠ some c
  | _ => True

/-- The cell that is on its way off the CPU, when the access is the next one. -/
def leaves {β : Type} (a : Access β) : Option (CellId × Cpu) :=
  match a.place, a.instr with
  | .release k, .setFlag c _ _ => some (c, k)
  | .blockWorkersOn k, .toBeDestroyed c => some (c, k)
  | .blockWorkersOn k, .coresClr c _ _ => some (c, k)
  | _, _ => none

structure Undisturbed {β : Type} (a : Access β) (s s' : State) : Prop where
  grip : ∀ k, a.grips false = some k → s.current k ≠ none → s'.current k = s.current k
  idle : ∀ k, a.grips false = some k → s.idleCpus k = true → s'.idleCpus k = true
  manned : ∀ c k, s.current k = some c → s.workers c k ≠ [] → s'.workers c k ≠ []
  leave : ∀ c k, leaves a = some (c, k) → s.current k ≠ some c → s'.current k ≠ some c
  owner : ∀ k, s.owner k ≠ none → s'.owner k ≠ none
  live : LiveHolders s → LiveHolders s'

def terms : Terms Access State := ⟨own, Undisturbed⟩

def Stirs {β : Type} : Instr β → Prop
  | .occupy _ _ => True
  | .setCurrent _ _ => True
  | .idleClr _ => True
  | .coresClr _ .new _ => True
  | .coresClr _ .current _ => True
  | .dequeue _ _ _ => True
  | _ => False

section Effects

variable {added : Set Cpu} {β : Type} {a : Access β} {s : State}

theorem live_run (h : LiveHolders s) (ho : own a s) : LiveHolders (a.run s).2 := by
  intro k c hc
  obtain ⟨p, i⟩ := a
  rw [Access.run_current] at hc
  rw [Access.run_freed]
  cases i with
  | occupy j o =>
    by_cases hm : k = j ∧ s.current k = none
    · obtain ⟨rfl, hnone⟩ := hm
      simp only [Instr.held, hnone, and_self, if_true] at hc
      exact ho hnone c hc
    · simp only [Instr.held, if_neg hm] at hc
      exact h k c hc
  | setCurrent j v =>
    by_cases hm : k = j
    · simp only [Instr.held, if_pos hm] at hc
      exact (ho c hc).1
    · simp only [Instr.held, if_neg hm] at hc
      exact h k c hc
  | freeCell d =>
    by_cases hm : c = d
    · subst hm
      exact (ho k hc).elim
    · simp only [Instr.gone, if_neg hm]
      exact h k c hc
  | create d =>
    by_cases hm : c = d
    · simp [Instr.gone, hm]
    · simp only [Instr.gone, if_neg hm]
      exact h k c hc
  | _ => exact h k c hc

theorem unlisted_of_kept {c : CellId} {t : CoreSet} {k : Cpu} (hk : s.current k = some c)
    (hslip : ¬Slips s c t k) (hcur : CoreSet.current ≠ t → s.lists c .current k = false)
    (hnew : CoreSet.new ≠ t → s.lists c .new k = false) :
    s.lists c .current k = false ∧ s.lists c .new k = false := by
  cases t with
  | current =>
    have hnew := hnew (by simp)
    refine ⟨?_, hnew⟩
    by_contra h
    exact hslip ⟨hk, by simpa using h, .inl ⟨rfl, hnew⟩⟩
  | new =>
    have hcur := hcur (by simp)
    refine ⟨hcur, ?_⟩
    by_contra h
    exact hslip ⟨hk, by simpa using h, .inr ⟨rfl, hcur⟩⟩
  | reserved | reclaimed => exact ⟨hcur (by simp), hnew (by simp)⟩

theorem unlisted_of_unlisted {c : CellId} {k : Cpu} (ho : own a s) (ha : ¬Stirs a.instr)
    (hk : s.current k = some c) (hcur : (a.run s).2.lists c .current k = false)
    (hnew : (a.run s).2.lists c .new k = false) :
    s.lists c .current k = false ∧ s.lists c .new k = false := by
  obtain ⟨p, i⟩ := a
  rw [Access.run_lists] at hcur hnew
  cases i with
  | coresSet d u j =>
    simp only [Instr.listed] at hcur hnew
    constructor
    · split at hcur
      · cases hcur
      · exact hcur
    · split at hnew
      · cases hnew
      · exact hnew
  | coresClr d u j =>
    cases u with
    | new | current => exact (ha trivial).elim
    | reserved | reclaimed => exact ⟨by simpa [Instr.listed] using hcur, by simpa [Instr.listed] using hnew⟩
  | coresZero d u w =>
    by_cases hm : c = d ∧ k ∈ word w
    · obtain ⟨rfl, hword⟩ := hm
      have hslip : ¬Slips s c u k := ho k hword
      exact unlisted_of_kept hk hslip (by simpa [Instr.listed, hword] using hcur)
        (by simpa [Instr.listed, hword] using hnew)
    · have hother : ∀ v, ¬((c = d ∧ v = u) ∧ k ∈ word w) := fun v h => hm ⟨h.1.1, h.2⟩
      simp only [Instr.listed, if_neg (hother _)] at hcur hnew
      exact ⟨hcur, hnew⟩
  | create d =>
    by_cases hm : c = d
    · subst hm
      exact (ho k hk).elim
    · simp only [Instr.listed, if_neg hm] at hcur hnew
      exact ⟨hcur, hnew⟩
  | _ => exact ⟨hcur, hnew⟩

theorem bad_of_bad (ho : own a s) (ha : ¬Stirs a.instr) {x : Option CellId × Cpu}
    (hx : bad added x (a.run s).2) : bad added x s := by
  obtain ⟨o, k⟩ := x
  obtain ⟨hadded, hcur, hrest⟩ := hx
  have hcur : s.current k = o := by
    rw [Access.run_current] at hcur
    obtain ⟨p, i⟩ := a
    cases i with
    | occupy j o => exact (ha trivial).elim
    | setCurrent j v => exact (ha trivial).elim
    | _ => exact hcur
  refine ⟨hadded, hcur, ?_⟩
  cases o with
  | none =>
    have hrest : (a.run s).2.idleCpus k = false := hrest
    rw [Access.run_idle] at hrest
    obtain ⟨p, i⟩ := a
    cases i with
    | idleClr j => exact (ha trivial).elim
    | idleSet j =>
      by_cases hm : k = j
      · simp [Instr.idled, hm] at hrest
      · simpa only [Instr.idled, if_neg hm] using hrest
    | _ => exact hrest
  | some c => exact unlisted_of_unlisted ho ha hcur hrest.1 hrest.2

theorem bad_setResource {k : Cpu} {f : Resource → Resource} {x : Option CellId × Cpu}
    (hx : bad added x (s.setResource k f)) (hk : x.2 ≠ k) : bad added x s := by
  obtain ⟨o, j⟩ := x
  obtain ⟨hadded, hcur, hrest⟩ := hx
  refine ⟨hadded, by simpa [hk] using hcur, ?_⟩
  cases o with
  | none => exact hrest
  | some c => exact hrest

theorem bad_idleClr {pl : Place} {k : Cpu} {x : Option CellId × Cpu} (hk : s.current k ≠ none)
    (hx : bad added x ((⟨pl, .idleClr k⟩ : Access Unit).run s).2) : bad added x s := by
  obtain ⟨o, j⟩ := x
  obtain ⟨hadded, hcur, hrest⟩ := hx
  rw [Access.run_current] at hcur
  have hcur : s.current j = o := hcur
  refine ⟨hadded, hcur, ?_⟩
  cases o with
  | none =>
    have hrest : ((⟨pl, .idleClr k⟩ : Access Unit).run s).2.idleCpus j = false := hrest
    rw [Access.run_idle] at hrest
    have hj : j ≠ k := by
      rintro rfl
      exact hk hcur
    simpa [Instr.idled, hj] using hrest
  | some c => exact hrest

theorem bad_coresClr {pl : Place} {c : CellId} {t : CoreSet} {k : Cpu} {x : Option CellId × Cpu}
    (hslip : x = (some c, k) → ¬Slips s c t k)
    (hx : bad added x ((⟨pl, .coresClr c t k⟩ : Access Unit).run s).2) :
    bad added x s := by
  obtain ⟨o, j⟩ := x
  obtain ⟨hadded, hcur, hrest⟩ := hx
  rw [Access.run_current] at hcur
  have hcur : s.current j = o := hcur
  refine ⟨hadded, hcur, ?_⟩
  cases o with
  | none => exact hrest
  | some d =>
    have hrest : ((⟨pl, .coresClr c t k⟩ : Access Unit).run s).2.lists d .current j = false ∧
      ((⟨pl, .coresClr c t k⟩ : Access Unit).run s).2.lists d .new j = false := hrest
    simp only [Access.run_lists, Instr.listed] at hrest
    by_cases hm : d = c ∧ j = k
    · obtain ⟨rfl, rfl⟩ := hm
      exact unlisted_of_kept hcur (hslip rfl) (by simpa using hrest.1) (by simpa using hrest.2)
    · have hother : ∀ v, ¬((d = c ∧ v = t) ∧ j = k) := fun v h => hm ⟨h.1.1, h.2⟩
      simp only [if_neg (hother _)] at hrest
      exact hrest

theorem manned_run {c : CellId} {k : Cpu} (hok : ok a s) (ho : own a s) (hk : s.current k = some c)
    (h : s.workers c k ≠ []) : (a.run s).2.workers c k ≠ [] := by
  obtain ⟨p, i⟩ := a
  rw [Access.run_workers]
  cases i with
  | dequeue d j n => exact hok.elim
  | create d =>
    by_cases hm : c = d
    · subst hm
      exact (ho k hk).elim
    · simpa only [Instr.manned, if_neg hm] using h
  | up d j n | dn d j n =>
    simp only [Instr.manned]
    split
    · simpa using h
    · exact h
  | enqueue d j =>
    simp only [Instr.manned]
    split
    · simp
    · exact h
  | _ => exact h

theorem owner_run {k : Cpu} (h : s.owner k ≠ none) : (a.run s).2.owner k ≠ none := by
  obtain ⟨p, i⟩ := a
  rw [Access.run_owner]
  cases i with
  | confer j c =>
    simp only [Instr.owned]
    split
    · simp
    · exact h
  | _ => exact h

theorem current_run {k : Cpu} (ha : ¬Stirs a.instr) : (a.run s).2.current k = s.current k := by
  obtain ⟨p, i⟩ := a
  rw [Access.run_current]
  cases i with
  | occupy j o | setCurrent j v => exact (ha trivial).elim
  | _ => rfl

end Effects

section Outlines

variable {added : Set Cpu} {α β : Type} {D D' : Set (Option CellId × Cpu)}

theorem ok_of_calm {a : Access α} (s : State) (ha : ¬Stirs a.instr) : ok a s := by
  obtain ⟨p, i⟩ := a
  cases i with
  | dequeue c k n => exact (ha trivial).elim
  | _ => trivial

theorem calmNext {pl : Place} {i : Instr α} {f : α → Code β} {A : State → Prop} {B : α → State → Prop}
    {Q : β → State → Prop} (hi : ¬Stirs i)
    (hstable : ∀ s s', A s → Undisturbed (⟨pl, i⟩ : Access α) s s' → A s')
    (hrun : ∀ s, A s → own (⟨pl, i⟩ : Access α) s → B (i.run s).1 (i.run s).2)
    (hf : ∀ v, Outline (aim added) terms (B v) D (f v) Q D') :
    Outline (aim added) terms A D (op pl i >>= f) Q D' := by
  refine Prog.Sat.next (B := B) (R := fun _ => D) hstable ?_ hrun ?_ hf
  · exact fun s _ _ => ok_of_calm (a := ⟨pl, i⟩) s hi
  · intro s _ ho x hx
    have ho : own (⟨pl, i⟩ : Access α) s := ho
    by_cases hx' : x ∈ D
    · exact .inl hx'
    · exact .inr ⟨bad_of_bad ho hi hx, hx'⟩

theorem live_frame : Frame (aim added) terms LiveHolders where
  stable _ _ _ h hr := hr.live h
  plain a ha s hs ho := by
    have hcalm : ¬Stirs a.instr := by
      obtain ⟨p, i⟩ := a
      cases i with
      | occupy j o | setCurrent j v | idleClr j | dequeue c k n => exact ha.elim
      | coresClr c t k =>
        cases t with
        | new | current => exact ha.elim
        | reserved | reclaimed => exact id
      | _ => exact id
    exact ⟨ok_of_calm s hcalm, live_run hs ho, fun x hx => bad_of_bad ho hcalm hx⟩

theorem calmStep {pl : Place} {i : Instr α} {f : α → Code β} {Q : β → State → Prop} (hi : ¬Stirs i)
    (hf : ∀ v, Outline (aim added) terms LiveHolders D (f v) Q D') :
    Outline (aim added) terms LiveHolders D (op pl i >>= f) Q D' :=
  calmNext (B := fun _ => LiveHolders) hi (fun _ _ h hr => hr.live h)
    (fun _ hs ho => live_run (a := ⟨pl, i⟩) hs ho) hf

theorem calmOp {pl : Place} {i : Instr α} (hi : ¬Stirs i) :
    Keeps (aim added) terms LiveHolders (op pl i) :=
  calmStep (f := pure) hi fun _ => ⟨fun _ h => h, subset_rfl⟩

/-- What holds while the CPU is gripped, as long as no CPU can be lost. -/
structure Gripped (k : Cpu) (A : State → Prop) : Prop where
  stable : ∀ {β : Type} (a : Access β) (s s' : State), a.grips false = some k → A s →
    Undisturbed a s s' → A s'
  kept : ∀ {β : Type} (a : Access β) (s : State), ¬Stirs a.instr → A s → own a s → A (a.run s).2

/-- `d` holds the CPU. -/
def Held (k : Cpu) (d : CellId) (s : State) : Prop := LiveHolders s ∧ s.current k = some d

theorem live_gripped (k : Cpu) : Gripped k LiveHolders where
  stable _ _ _ _ h hr := hr.live h
  kept _ _ _ h ho := live_run h ho

theorem held_gripped (k : Cpu) (d : CellId) : Gripped k (Held k d) where
  stable a s s' hk h hr := ⟨hr.live h.1, (hr.grip k hk (by simp [h.2])).trans h.2⟩
  kept a s ha h ho := ⟨live_run h.1 ho, (current_run ha).trans h.2⟩

theorem manned_gripped (k : Cpu) (d : CellId) :
    Gripped k fun s => Held k d s ∧ s.workers d k ≠ [] where
  stable a s s' hk h hr := ⟨(held_gripped k d).stable a s s' hk h.1 hr, hr.manned d k h.1.2 h.2⟩
  kept a s ha h ho :=
    ⟨(held_gripped k d).kept a s ha h.1 ho, manned_run (ok_of_calm s ha) ho h.1.2 h.2⟩

section Gripped

variable {k : Cpu} {A : State → Prop} (hA : Gripped k A)

include hA

theorem Gripped.step {pl : Place} {i : Instr α} {f : α → Code β} {Q : β → State → Prop}
    (hk : (⟨pl, i⟩ : Access α).grips false = some k) (hi : ¬Stirs i)
    (hf : ∀ v, Outline (aim added) terms A D (f v) Q D') :
    Outline (aim added) terms A D (op pl i >>= f) Q D' :=
  calmNext (B := fun _ => A) hi (fun s s' h hr => hA.stable _ s s' hk h hr)
    (fun s h ho => hA.kept ⟨pl, i⟩ s hi h ho) hf

theorem Gripped.readCurrent {pl : Place} {d : CellId} {f : Option CellId → Code β}
    {Q : β → State → Prop} (hk : (⟨pl, .current k⟩ : Access (Option CellId)).grips false = some k)
    (hd : ∀ s, A s → s.current k = some d) (hf : Outline (aim added) terms A D (f (some d)) Q D') :
    Outline (aim added) terms A D (op pl (.current k) >>= f) Q D' := by
  refine Prog.Sat.next (B := fun v s => A s ∧ v = some d) (R := fun v => if v = some d then D else ∅)
    (fun s s' h hr => hA.stable _ s s' hk h hr) (fun _ _ _ => trivial) (fun s h _ => ⟨h, hd s h⟩) ?_
    fun v => ?_
  · intro s h _ x hx
    have hread : ((⟨pl, .current k⟩ : Access (Option CellId)).run s).1 = some d := hd s h
    by_cases hx' : x ∈ D
    · exact .inl (by simpa [hread] using hx')
    · exact .inr ⟨hx, hx'⟩
  · by_cases hv : v = some d
    · subst hv
      simp only [if_true]
      exact hf.mono (fun s h => h.1) subset_rfl
    · simp only [if_neg hv]
      exact (Prog.Sat.unreached _ (Set.empty_subset _)).mono (fun s h => hv h.2) subset_rfl

theorem Gripped.enter {pl : Place} {d : CellId} {t : CoreSet} {f : Unit → Code β} {Q : β → State → Prop}
    (hk : (⟨pl, .coresSet d t k⟩ : Access Unit).grips false = some k) (ht : t = .new ∨ t = .current)
    (hf : Outline (aim added) terms A ∅ (f ()) Q D') :
    Outline (aim added) terms A {(some d, k)} (op pl (.coresSet d t k) >>= f) Q D' := by
  refine Prog.Sat.next (B := fun _ => A) (R := fun _ => ∅)
    (fun s s' h hr => hA.stable _ s s' hk h hr) (fun _ _ _ => trivial)
    (fun s h ho => hA.kept ⟨pl, .coresSet d t k⟩ s id h ho) ?_ fun _ => hf
  intro s _ ho x hx
  have ho : own (⟨pl, .coresSet d t k⟩ : Access Unit) s := ho
  refine .inr ⟨bad_of_bad ho id hx, ?_⟩
  rintro rfl
  obtain ⟨-, -, hcur, hnew⟩ := hx
  have hlist : ∀ u, ((Instr.coresSet d t k).run s).2.lists d u k = (Instr.coresSet d t k).listed s d u k :=
    fun u => Instr.run_lists _ s d u k
  have hcur : (Instr.coresSet d t k).listed s d .current k = false := (hlist _).symm.trans hcur
  have hnew : (Instr.coresSet d t k).listed s d .new k = false := (hlist _).symm.trans hnew
  obtain rfl | rfl := ht
  · simp [Instr.listed] at hnew
  · simp [Instr.listed] at hcur

theorem Gripped.wakeEach (d : CellId) (l : List Nat) :
    Outline (aim added) terms A D (each l fun i => do
      op (.wakeCore k) (.coresSet d .current k)
      op (.wakeCore k) (.up d k i)) (fun _ => A) D := by
  induction l with
  | nil => exact ⟨fun s hs => hs, subset_rfl⟩
  | cons i l ih =>
    have hturn : Outline (aim added) terms A D (do
        op (.wakeCore k) (.coresSet d .current k)
        op (.wakeCore k) (.up d k i)) (fun _ => A) D :=
      hA.step rfl id fun _ => hA.step (f := pure) rfl id fun _ => ⟨fun _ h => h, subset_rfl⟩
    exact Prog.Sat.bind hturn fun _ => ih

theorem Gripped.wakeCore (d : CellId) :
    Outline (aim added) terms A D (Cell.wakeCore d k) (fun _ => A) D :=
  hA.step rfl id fun n => hA.wakeEach d (List.range n)

end Gripped

theorem wakeCore_pays (k : Cpu) (d : CellId) :
    Outline (aim added) terms (fun s => Held k d s ∧ s.workers d k ≠ []) {(some d, k)}
      (Cell.wakeCore d k) (fun _ => Held k d) ∅ := by
  have hA := held_gripped k d
  have hturn : ∀ i, Outline (aim added) terms (Held k d) {(some d, k)} (do
      op (.wakeCore k) (.coresSet d .current k)
      op (.wakeCore k) (.up d k i)) (fun _ => Held k d) ∅ := fun i =>
    hA.enter rfl (.inr rfl) (hA.step (f := pure) rfl id fun _ => ⟨fun _ h => h, subset_rfl⟩)
  refine Prog.Sat.next (B := fun n s => Held k d s ∧ n ≠ 0)
    (R := fun n => if n = 0 then ∅ else {(some d, k)})
    (fun s s' h hr => (manned_gripped k d).stable _ s s' rfl h hr) (fun _ _ _ => trivial) ?_ ?_ fun n => ?_
  · rintro s ⟨hs, hw⟩ -
    exact ⟨hs, fun h => hw (List.length_eq_zero_iff.mp h)⟩
  · rintro s ⟨-, hw⟩ - x hx
    by_cases hx' : x ∈ ({(some d, k)} : Set (Option CellId × Cpu))
    · exact .inl (by simpa [Access.run, Instr.run, hw] using hx')
    · exact .inr ⟨hx, hx'⟩
  · cases n with
    | zero => exact (Prog.Sat.unreached _ subset_rfl).mono (fun s hs => hs.2 rfl) subset_rfl
    | succ n =>
      refine Prog.Sat.mono (A := Held k d) (D := {(some d, k)}) ?_ (fun s hs => hs.1) subset_rfl
      rw [List.range_succ_eq_map]
      exact Prog.Sat.bind (hturn 0) fun _ => hA.wakeEach d _

theorem occupy_keeps (k : Cpu) (o : Option CellId) :
    Keeps (aim added) terms LiveHolders (Resource.occupy k o) := by
  refine Prog.Sat.next (B := fun ok s => LiveHolders s ∧ (ok = true → s.current k = o))
    (R := fun ok => if ok then {(o, k)} else ∅) (fun _ _ h hr => hr.live h) (fun _ _ _ => trivial)
    ?_ ?_ fun ok => ?_
  · intro s hs ho
    refine ⟨live_run (a := ⟨.occupy k, .occupy k o⟩) hs ho, ?_⟩
    by_cases hc : s.current k = none <;> simp [Access.run, Instr.run, hc]
  · intro s _ _ x hx
    by_cases hc : s.current k = none
    · have hrun : (Instr.occupy k o).run s =
          (true, s.setResource k fun r => { r with current := o }) := by simp [Instr.run, hc]
      have hx : bad added x ((Instr.occupy k o).run s).2 := hx
      rw [hrun] at hx
      by_cases hk : x.2 = k
      · refine .inl ?_
        have hcur := hx.2.1
        rw [hk] at hcur
        have hxo : x = (o, k) := Prod.ext (by simpa using hcur.symm) hk
        simp [Access.run, hrun, hxo]
      · exact .inr ⟨bad_setResource (f := fun r => { r with current := o }) hx hk, Set.notMem_empty x⟩
    · have hrun : (Instr.occupy k o).run s = (false, s) := by simp [Instr.run, hc]
      have hx : bad added x ((Instr.occupy k o).run s).2 := hx
      rw [hrun] at hx
      exact .inr ⟨hx, Set.notMem_empty x⟩
  · cases ok with
    | false => exact ⟨fun s hs => hs.1, subset_rfl⟩
    | true =>
      cases o with
      | none =>
        -- The kernel follows a null pointer next, and never gets out of this call.
        have hfault : Outline (aim added) terms LiveHolders {(none, k)} (do
            op (.occupy k) (.idleClr k)
            (.fault .nullOwner : Code Bool)) (fun _ => LiveHolders) ∅ :=
          Prog.Sat.next (B := fun _ _ => True) (R := fun _ => Set.univ) (fun _ _ h hr => hr.live h)
            (fun _ _ _ => trivial) (fun _ _ _ => trivial) (fun _ _ _ _ _ => .inl trivial) fun _ => trivial
        exact hfault.mono (fun s hs => hs.1) subset_rfl
      | some c =>
        have hclr : Outline (aim added) terms (Held k c) {(some c, k)} (do
            op (.occupy k) (.idleClr k)
            op (.occupy k) (.coresSet c .new k)
            (pure true : Code Bool)) (fun _ => LiveHolders) ∅ := by
          refine Prog.Sat.next (B := fun _ => LiveHolders) (R := fun _ => {(some c, k)})
            (fun s s' h hr => (held_gripped k c).stable _ s s' rfl h hr) (fun _ _ _ => trivial)
            (fun s hs ho => live_run (a := ⟨.occupy k, .idleClr k⟩) hs.1 ho) ?_ fun _ => ?_
          · rintro s ⟨-, hc⟩ _ x hx
            by_cases hx' : x ∈ ({(some c, k)} : Set (Option CellId × Cpu))
            · exact .inl hx'
            · exact .inr ⟨bad_idleClr (by simp [hc]) hx, hx'⟩
          · exact (live_gripped k).enter rfl (.inl rfl) ⟨fun _ h => h, subset_rfl⟩
        exact hclr.mono (fun s hs => ⟨hs.1, hs.2 rfl⟩) subset_rfl

theorem leaveStep {pl : Place} {c : CellId} {t : CoreSet} {k : Cpu} {A : State → Prop} {f : Unit → Code β}
    {Q : β → State → Prop} (hlive : ∀ s, A s → LiveHolders s)
    (hstable : ∀ s s', A s → Undisturbed (⟨pl, .coresClr c t k⟩ : Access Unit) s s' → A s')
    (hslip : ∀ s, A s → own (⟨pl, .coresClr c t k⟩ : Access Unit) s → ¬Slips s c t k)
    (hf : Outline (aim added) terms LiveHolders ∅ (f ()) Q D') :
    Outline (aim added) terms A ∅ (op pl (.coresClr c t k) >>= f) Q D' := by
  refine Prog.Sat.next (B := fun _ => LiveHolders) (R := fun _ => ∅) hstable (fun _ _ _ => trivial)
    (fun s hs ho => live_run (a := ⟨pl, .coresClr c t k⟩) (hlive s hs) ho) ?_ fun _ => hf
  intro s hs ho x hx
  exact .inr ⟨bad_coresClr (fun _ => hslip s hs ho) hx, Set.notMem_empty x⟩

theorem blockWorkersOn_outline (c : CellId) (k : Cpu) :
    Outline (aim added) terms (fun s => LiveHolders s ∧ s.current k ≠ some c) ∅
      (Cell.blockWorkersOn c k) (fun _ => LiveHolders) ∅ := by
  have hstable : ∀ {γ : Type} (a : Access γ) (s s' : State), leaves a = some (c, k) →
      LiveHolders s ∧ s.current k ≠ some c → Undisturbed a s s' → LiveHolders s' ∧ s'.current k ≠ some c :=
    fun a s s' ha hs hr => ⟨hr.live hs.1, hr.leave c k ha hs.2⟩
  refine calmNext (B := fun _ s => LiveHolders s ∧ s.current k ≠ some c) id
    (fun s s' => hstable _ s s' rfl) (fun s hs _ => hs) fun dead => ?_
  cases dead with
  | true => exact ⟨fun s hs => hs.1, subset_rfl⟩
  | false =>
    refine leaveStep (fun s hs => hs.1) (fun s s' => hstable _ s s' rfl) (fun s hs _ h => hs.2 h.1) ?_
    exact live_frame.next trivial fun n => keeps_sleepEach live_frame c k _

theorem forget_keeps (k : Cpu) (borrower : Option CellId) :
    Keeps (aim added) terms LiveHolders (Resource.forget k borrower) := by
  cases borrower with
  | none => exact .pure ()
  | some c =>
    exact leaveStep (f := pure) (fun _ h => h) (fun _ _ h hr => hr.live h) (fun s _ ho => ho (.inr rfl))
      ⟨fun _ h => h, subset_rfl⟩

theorem handOver {k : Cpu} {b o : CellId} {f : Unit → Code β} {Q : β → State → Prop}
    (hf : o ≠ b → Outline (aim added) terms (fun s => Held k o s ∧ s.workers o k ≠ []) {(some o, k)}
      (f ()) Q D') :
    Outline (aim added) terms (Held k b) ∅ (op (.returnCore k) (.setCurrent k (some o)) >>= f) Q D' := by
  by_cases hob : o = b
  · subst hob
    have hno : ∀ s, Held k o s → ¬own (⟨.returnCore k, .setCurrent k (some o)⟩ : Access Unit) s :=
      fun s hs ho => (ho o rfl).2.2 hs.2
    refine Prog.Sat.next (B := fun _ _ => False) (R := fun _ => ∅)
      (fun s s' h hr => (held_gripped k o).stable _ s s' rfl h hr) (fun _ _ _ => trivial)
      (fun s hs ho => hno s hs ho) (fun s hs ho => (hno s hs ho).elim) fun _ =>
        Prog.Sat.unreached _ (Set.empty_subset _)
  · refine Prog.Sat.next (B := fun _ s => Held k o s ∧ s.workers o k ≠ []) (R := fun _ => {(some o, k)})
      (fun s s' h hr => (held_gripped k b).stable _ s s' rfl h hr) (fun _ _ _ => trivial) ?_ ?_
      fun _ => hf hob
    · intro s hs ho
      have ho : own (⟨.returnCore k, .setCurrent k (some o)⟩ : Access Unit) s := ho
      refine ⟨⟨live_run hs.1 ho, ?_⟩, (ho o rfl).2.1⟩
      have hcur : ((Instr.setCurrent k (some o)).run s).2.current k = some o := by simp [Instr.run]
      exact hcur
    · intro s _ _ x hx
      have hx : bad added x (s.setResource k fun r => { r with current := some o }) := hx
      by_cases hk : x.2 = k
      · refine .inl ?_
        have hcur := hx.2.1
        rw [hk] at hcur
        exact Prod.ext (by simpa using hcur.symm) hk
      · exact .inr ⟨bad_setResource hx hk, Set.notMem_empty x⟩

theorem returnCore_keeps (k : Cpu) (me : Option CellId) :
    Keeps (aim added) terms LiveHolders (Resource.returnCore k me) := by
  refine live_frame.readCurrent fun v => ?_
  cases v with
  | none => trivial
  | some b =>
    have hA := held_gripped k b
    refine hA.step rfl id fun _ => ?_
    refine calmNext (B := fun v s => Held k b s ∧ s.owner k = v) id
      (fun s s' h hr => hA.stable _ s s' rfl h hr) (fun s hs _ => ⟨hs, rfl⟩) fun v => ?_
    cases v with
    | none => trivial
    | some _ =>
      -- The owner may be another one when it is read again, but there is one.
      refine Prog.Sat.mono (A := fun s => Held k b s ∧ s.owner k ≠ none) (D := ∅) ?_
        (fun s hs => ⟨hs.1, by simp [hs.2]⟩) subset_rfl
      refine calmNext (B := fun v s => Held k b s ∧ v ≠ none) id
        (fun s s' h hr => ⟨hA.stable _ s s' rfl h.1 hr, hr.owner k h.2⟩) (fun s hs _ => hs) fun v => ?_
      cases v with
      | none => exact (Prog.Sat.unreached _ subset_rfl).mono (fun s hs => hs.2 rfl) subset_rfl
      | some o =>
        refine Prog.Sat.mono (A := Held k b) (D := ∅) ?_ (fun s hs => hs.1) subset_rfl
        refine handOver fun hob => (manned_gripped k o).readCurrent rfl (fun s hs => hs.1.2) ?_
        rw [deref_some_bind]
        refine Prog.Sat.bind (wakeCore_pays k o) fun _ => ?_
        split
        · refine (blockWorkersOn_outline b k).mono (fun s hs => ⟨hs.1, ?_⟩) subset_rfl
          simpa [hs.2] using hob
        · exact ⟨fun s hs => hs.1, subset_rfl⟩

theorem releaseUnasked_outline (k : Cpu) (curr : CellId) (me : Option CellId) :
    Outline (aim added) terms (Held k curr) ∅ (Resource.releaseUnasked k curr me)
      (fun _ => LiveHolders) ∅ := by
  have hA := held_gripped k curr
  refine hA.step rfl id fun _ => ?_
  refine calmNext (B := fun _ s => Held k curr s ∧ s.idleCpus k = true) id
    (fun s s' h hr => hA.stable _ s s' rfl h hr)
    (fun s hs ho => ⟨hA.kept ⟨.release k, .idleSet k⟩ s id hs ho, by simp [Instr.run]⟩) fun _ => ?_
  refine Prog.Sat.next (B := fun _ s => LiveHolders s ∧ s.current k = none) (R := fun _ => ∅)
    (fun s s' h hr => ⟨hA.stable _ s s' rfl h.1 hr, hr.idle k rfl h.2⟩) (fun _ _ _ => trivial) ?_ ?_
    fun _ => ?_
  · intro s hs ho
    refine ⟨live_run (a := ⟨.release k, .setCurrent k none⟩) hs.1.1 ho, ?_⟩
    have hcur : ((Instr.setCurrent k none).run s).2.current k = none := by simp [Instr.run]
    exact hcur
  · rintro s ⟨-, hidle⟩ - ⟨o, j⟩ hx
    have hx : bad added (o, j) (s.setResource k fun r => { r with current := none }) := hx
    by_cases hj : j = k
    · obtain ⟨-, hcur, hrest⟩ := hx
      obtain rfl : none = o := by simpa [hj] using hcur
      have hrest : s.idleCpus j = false := hrest
      rw [hj, hidle] at hrest
      cases hrest
    · exact .inr ⟨bad_setResource hx hj, Set.notMem_empty _⟩
  · split
    · refine (blockWorkersOn_outline curr k).mono (fun s hs => ⟨hs.1, ?_⟩) subset_rfl
      simp [hs.2]
    · exact ⟨fun s hs => hs.1, subset_rfl⟩

theorem release_keeps (c : CellId) (k : Cpu) (me : Option CellId) :
    Keeps (aim added) terms LiveHolders (Allocator.release c k me) := by
  refine live_frame.readCurrent fun v => ?_
  by_cases hv : v = some c
  · subst hv
    have hA := held_gripped k c
    simp only [ne_eq, not_true_eq_false, if_false]
    refine hA.readCurrent rfl (fun s hs => hs.2) ?_
    rw [deref_some_bind]
    refine hA.step rfl id fun flag => ?_
    split
    · exact Prog.Sat.mono (returnCore_keeps k me) (fun s hs => hs.1) subset_rfl
    · exact releaseUnasked_outline k c me
  · simp only [if_pos hv]
    refine Prog.Sat.mono (A := fun s => LiveHolders s ∧ s.current k ≠ some c) (D := ∅) ?_
      (fun s hs => ⟨hs.1, by simpa [hs.2] using hv⟩) subset_rfl
    refine calmNext (B := fun _ s => LiveHolders s ∧ s.current k ≠ some c) id
      (fun s s' hs hr => ⟨hr.live hs.1, hr.leave c k rfl hs.2⟩)
      (fun s hs ho => ⟨live_run (a := ⟨.release k, .setFlag c k 0⟩) hs.1 ho, ?_⟩)
      fun _ => blockWorkersOn_outline c k
    have hcur : ((Instr.setFlag c k 0).run s).2.current k = s.current k := Instr.run_current _ s k
    rw [hcur]
    exact hs.2

theorem transferred_keeps (c : CellId) (k : Cpu) :
    Keeps (aim added) terms LiveHolders (Allocator.transferred c k) := by
  refine Prog.Sat.next (B := fun _ => LiveHolders) (R := fun _ => {(some c, k)})
    (fun _ _ h hr => hr.live h) (fun _ _ _ => trivial)
    (fun s hs ho => live_run (a := ⟨.transfer k, .coresClr c .new k⟩) hs ho) ?_ fun _ =>
      (live_gripped k).enter (f := pure) rfl (.inr rfl) ⟨fun _ h => h, subset_rfl⟩
  intro s _ _ x hx
  by_cases hx' : x ∈ ({(some c, k)} : Set (Option CellId × Cpu))
  · exact .inl hx'
  · exact .inr ⟨bad_coresClr (fun h => (hx' h).elim) hx, Set.notMem_empty x⟩

section Callers

variable (me : Option CellId) (patience : Cpu → Nat)

theorem reclaim_keeps (k : Cpu) :
    Keeps (aim added) terms LiveHolders (Resource.reclaim k (patience k) me) :=
  keeps_reclaim live_frame occupy_keeps forget_keeps (returnCore_keeps · me)
    (fun k d => Prog.Sat.mono ((live_gripped k).wakeCore d) (fun _ hs => hs.1) subset_rfl) k (patience k)

theorem sysAlloc_keeps (quantity : Nat) (c : CellId) :
    Keeps (aim added) terms LiveHolders (sysAlloc quantity c patience) := by
  have hclear : Keeps (aim added) terms LiveHolders (each words fun i => op .alloc (.coresZero c .new i)) :=
    .each fun _ _ => calmOp id
  have hcleared := keeps_allocCleared (g := aim added) live_frame occupy_keeps forget_keeps
    (returnCore_keeps · (some c))
    (fun k d => Prog.Sat.mono ((live_gripped k).wakeCore d) (fun _ hs => hs.1) subset_rfl) quantity c patience
  unfold sysAlloc
  split
  · exact .pure ()
  · refine Keeps.bind (hclear.bind fun _ => hcleared) fun n => ?_
    split
    · exact .pure ()
    · exact .each fun i _ => calmStep id fun l => Keeps.each fun k _ => (live_gripped k).wakeCore c

theorem transfer_keeps (c : CellId) (k : Cpu) :
    Keeps (aim added) terms LiveHolders (Allocator.transfer c k patience me) := by
  have hend : Keeps (aim added) terms LiveHolders (Allocator.transferred c k) := transferred_keeps c k
  refine live_frame.next trivial fun idle => ?_
  split
  · refine (keeps_borrowed live_frame k).bind fun lent => ?_
    split
    · exact (reclaim_keeps me patience k).bind fun _ => hend
    · refine (occupy_keeps k (some c)).bind fun ok => ?_
      split
      · exact hend
      · refine (keeps_borrowed live_frame k).bind fun lent => ?_
        split
        · exact hend
        · exact .pure ()
  · exact .pure ()

theorem firstCpu_keeps (c : CellId) (l : List (Fin 4)) :
    Keeps (aim added) terms LiveHolders (firstCpu c l) := by
  induction l with
  | nil => exact .fault _
  | cons i l ih =>
    refine live_frame.next trivial fun ks => ?_
    cases ks with
    | nil => exact ih
    | cons k _ => exact .pure _

theorem sysCellCtrl_keeps (c : CellId) :
    Keeps (aim added) terms LiveHolders (sysCellCtrl c patience me) := by
  have hconfer : Keeps (aim added) terms LiveHolders (Allocator.confer c) :=
    .each fun _ _ => live_frame.next trivial fun _ => .each fun _ _ => live_frame.op trivial
  refine hconfer.bind fun _ => live_frame.next trivial fun ready => ?_
  split
  · exact .pure ()
  · refine (firstCpu_keeps c words).bind fun k => (transfer_keeps me patience c k).bind fun _ => ?_
    exact live_frame.op trivial

theorem demise_keeps (d : Demise) (c : CellId) :
    Keeps (aim added) terms LiveHolders (demise d c me) := by
  cases d with
  | pd => exact calmOp id
  | destroy =>
    have hrelease : ∀ k, Keeps (aim added) terms LiveHolders (do
        let flag ← op .destroy (.flag c k)
        if flag = 1 then Resource.returnCore k me else Allocator.release c k me) := by
      intro k
      refine live_frame.next trivial fun flag => ?_
      split
      · exact returnCore_keeps k me
      · exact release_keeps c k me
    have hdtor : Keeps (aim added) terms LiveHolders (cellDtor c me) := by
      refine Keeps.bind (calmOp id) fun _ => Keeps.each fun i _ => ?_
      exact live_frame.next trivial fun l => .each fun k _ => hrelease k
    exact Keeps.bind (calmOp id) fun _ => hdtor.bind fun _ => calmOp id

theorem userWrite_keeps (c : CellId) (t : CoreSet) (k : Cpu) (v : Bool) :
    Keeps (aim added) terms LiveHolders (userWrite c t k v) := by
  cases v with
  | true => exact calmOp id
  | false =>
    exact leaveStep (f := pure) (fun _ h => h) (fun _ _ h hr => hr.live h) (fun s _ ho => ho (.inl rfl))
      ⟨fun _ h => h, subset_rfl⟩

end Callers

theorem code_outline (i : Cpu) (call : Call) :
    Keeps (aim added) terms LiveHolders (call.code i) := by
  cases call with
  | alloc quantity c patience => exact sysAlloc_keeps patience quantity c
  | release r c =>
    cases r with
    | release => exact release_keeps c i (some c)
    | ret => exact returnCore_keeps i (some c)
  | ctrl c patience me => exact sysCellCtrl_keeps me patience c
  | createCell c => exact calmOp id
  | createEc c k => exact calmOp id
  | destroy d c me => exact demise_keeps me d c
  | write c t k v => exact userWrite_keeps c t k v

end Outlines

end Conserve

end Tukija.Core
