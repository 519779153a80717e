import Tukija.Sm.Count

/-! The references that the queue of a semaphore has to its ECs.  `dn` takes one, and
the `up` that wakes the EC drops it; a timeout does not. -/
namespace Tukija.Sm

open Tukija.Lib.Word

variable {ι E S : Type} [DecidableEq E]

/-- The CPU has taken the EC out of the queue and is about to drop the reference. -/
def Pc.leaves (e : E) : Pc E S → Bool
  | .reset _ _ _ e' => e' == e
  | .release _ _ _ e' _ => e' == e
  | _ => false

namespace Machine

def waits (s : Machine ι E S) (e : E) : Nat := (s.ecLinks.next e).isSome.toNat

/-- On how many CPUs an `up` is about to drop a reference to it. -/
def leaving [Fintype ι] (s : Machine ι E S) (e : E) : Nat := ∑ i, ((s.pc i).leaves e).toNat

/-- The change of a reference count that is not due to the queue: others take and drop
references, and `up` leaves the one of the queue to RCU if it is the last one. -/
def others (s : Machine ι E S) (i : ι) (a : Act E S) (e : E) : BitVec 32 :=
  match a, s.pc i with
  | .refs e' r, _ => if e' = e then r - s.ref e else 0
  | .step, .release _ _ _ e' _ => if e' = e ∧ s.ref e = 1 then 1 else 0
  | _, _ => 0

def unexpired (s : Machine ι E S) (i : ι) (a : Act E S) : Bool :=
  match a, s.pc i with
  | .step, .timeout e => s.lock.isSome || (s.ecLinks.next e).isNone
  | _, _ => true

variable [DecidableEq ι] [DecidableEq S]

def othersOver : Machine ι E S → List (ι × Act E S) → E → BitVec 32
  | _, [], _ => 0
  | s, x :: acts, e => s.others x.1 x.2 e + othersOver (s.act x.1 x.2) acts e

end Machine

section Steps

variable {s t : Machine ι E S} {Q Q' : List E} {P P' : List S} {i : ι} {e : E} {b : BitVec 32} {p : Pc E S}

theorem ofNat_succ (n : Nat) : BitVec.ofNat 32 (n + 1) = BitVec.ofNat 32 n + 1 := BitVec.ofNat_add n 1

theorem Queued.waits_eq (h : Queued s.ecHead s.ecLinks Q) (e : E) : s.waits e = if e ∈ Q then 1 else 0 := by
  unfold Machine.waits
  split
  · rw [Option.isSome_iff_ne_none.mpr (h.linked e ‹_›).1]
    rfl
  · rw [(h.free e ‹_›).1]
    rfl

variable [Fintype ι]

/-- The count of the EC is `b` and the references of the queue. -/
def Backed (s : Machine ι E S) (e : E) (b : BitVec 32) : Prop :=
  s.ref e = b + BitVec.ofNat 32 (s.waits e + s.leaving e)

theorem leaving_create (cnt : Mword) (value : S → Mword) (regs : E → Mword × Mword)
    (e : E) : (Machine.create cnt value regs : Machine ι E S).leaving e = 0 := by
  unfold Machine.leaving
  simp [Machine.create, Pc.leaves]

variable [DecidableEq ι]

theorem leaving_update (hpc : t.pc = Function.update s.pc i p) :
    t.leaving e + ((s.pc i).leaves e).toNat = s.leaving e + (p.leaves e).toNat := by
  have hcomp : (fun j => ((t.pc j).leaves e).toNat) =
      Function.update (fun j => ((s.pc j).leaves e).toNat) i (p.leaves e).toNat := by
    rw [hpc]
    exact Function.comp_update (fun q : Pc E S => (q.leaves e).toNat) s.pc i p
  unfold Machine.leaving
  rw [hcomp, Finset.sum_update_of_mem (Finset.mem_univ i), ← Finset.sum_sdiff (Finset.subset_univ {i}),
    Finset.sum_singleton]
  omega

/-- A CPU goes on.  What the count changes by is what others have done to it and what
the queue has got or lost. -/
theorem Backed.goto {d : BitVec 32} (hb : Backed s e b) (hpc : t.pc = Function.update s.pc i p)
    (hsame : t.ref e + BitVec.ofNat 32 (s.waits e + ((s.pc i).leaves e).toNat) =
      s.ref e + d + BitVec.ofNat 32 (t.waits e + (p.leaves e).toNat)) : Backed t e (b + d) := by
  have hl := congrArg (BitVec.ofNat 32) (leaving_update (e := e) hpc)
  unfold Backed at *
  simp only [BitVec.ofNat_add] at *
  linear_combination hsame + hb - hl

theorem Backed.goto_same (hb : Backed s e b) (hpc : t.pc = Function.update s.pc i p) (href : t.ref = s.ref)
    (hec : t.ecLinks = s.ecLinks) (hp : p.leaves e = (s.pc i).leaves e) : Backed t e b := by
  have h := hb.goto (d := 0) hpc (by unfold Machine.waits; rw [href, hec, hp, add_zero])
  rwa [add_zero] at h

variable [DecidableEq S]

theorem Kept.backed_dn {zero : Bool} {x : E} (hk : Kept s Q P) (hb : Backed s e b) (hp : s.pc i = .dn zero x)
    (hfresh : s.fresh i .step = true) : Backed (s.stepDn i zero x) e b := by
  have hno : (s.pc i).leaves e = false := by rw [hp]; rfl
  rcases hk.stepDn_cases (i := i) zero (Machine.fresh_dn hfresh hp) with ⟨-, h⟩ | ⟨-, -, -, h⟩ |
    ⟨-, -, y, P', l, k, -, -, h⟩ | ⟨-, -, h⟩ | ⟨hl, hc, l, k, hq, h⟩
  · rw [h]
    exact hb
  · rw [h]
    exact hb.goto_same rfl rfl rfl hno.symm
  · rw [h]
    exact hb.goto_same rfl rfl rfl hno.symm
  · rw [h]
    exact hb.goto_same rfl rfl rfl hno.symm
  · rw [h]
    have hnot : x ∉ Q := fun hx => (List.nodup_append.mp hq.nodup).2.2 x hx x (by simp) rfl
    refine add_zero b ▸ hb.goto (d := 0) (t := { s with
      ref := Function.update s.ref x (s.ref x + 1), ecHead := l, ecLinks := k }.goto i .out) rfl ?_
    rw [Queued.waits_eq hk.ec, Queued.waits_eq (Q := Q ++ [x]) hq, hno]
    change Function.update s.ref x (s.ref x + 1) e + _ = _
    by_cases he : e = x
    · subst he
      simp [hnot, Pc.leaves]
    · simp [he, Pc.leaves]

theorem Kept.backed_up {y : Caller} {si : Option S} {woke : List E} (hk : Kept s Q P) (hb : Backed s e b)
    (hp : s.pc i = .up y si woke) : Backed (s.stepUp i y si woke) e b := by
  have hno : (s.pc i).leaves e = false := by rw [hp]; rfl
  have hret : (Caller.pc y : Pc E S).leaves e = false := by cases y <;> rfl
  rcases hk.stepUp_cases (i := i) y si woke with ⟨-, h⟩ | ⟨-, x, Q', l, k, rfl, hq, h⟩ |
    ⟨-, -, x, -, -, h⟩ | ⟨-, rfl, x, l, k, -, -, -, hq, h⟩ | ⟨-, rfl, -, h⟩
  · rw [h]
    exact hb
  · obtain ⟨q, hx, h⟩ : ∃ q : Pc E S, q.leaves e = (x == e) ∧
        s.stepUp i y si woke = { s with ecHead := l, ecLinks := k }.goto i q := by
      cases si <;> exact ⟨_, rfl, h⟩
    rw [h]
    have hnot : x ∉ Q' := (List.nodup_cons.mp hk.ec.nodup).1
    refine add_zero b ▸ hb.goto (d := 0) rfl ?_
    rw [Queued.waits_eq hk.ec, Queued.waits_eq (Q := Q') hq, hno, hx]
    change s.ref e + _ = s.ref e + _ + _
    by_cases he : e = x
    · subst he
      simp [hnot]
    · simp [he, beq_false_of_ne (Ne.symm he)]
  · rw [h]
    exact hb.goto_same (t := s.leave i y ⟨si, woke, 0⟩) rfl rfl rfl (hret.trans hno.symm)
  · rw [h]
    exact hb.goto_same (t := { s.counted with siHead := l, siLinks := k }.leave i y ⟨si, woke, 1⟩) rfl rfl rfl
      (hret.trans hno.symm)
  · rw [h]
    exact hb.goto_same (t := s.counted.leave i y ⟨si, woke, 1⟩) rfl rfl rfl (hret.trans hno.symm)

theorem Backed.release {y : Caller} {si : Option S} {woke : List E} {x : E} {c : Mword} (hb : Backed s e b)
    (hp : s.pc i = .release y si woke x c) :
    Backed (s.stepRelease i y si woke x c) e (b + s.others i .step e) := by
  have hret : (Caller.pc y : Pc E S).leaves e = false := by cases y <;> rfl
  have hgoes : (s.pc i).leaves e = (x == e) := by rw [hp]; rfl
  have hothers : s.others i .step e = if x = e ∧ s.ref e = 1 then 1 else 0 := by
    unfold Machine.others
    rw [hp]
  rw [hothers]
  unfold Machine.stepRelease
  by_cases href : s.ref x = 1
  · rw [if_pos href]
    have hdies : ∀ t : Machine ι E S, t.ref = s.ref → t.ecLinks = s.ecLinks →
        t.pc = Function.update s.pc i (.up y si woke) → Backed t e (b + if x = e ∧ s.ref e = 1 then 1 else 0) := by
      intro t hr hec hpc
      refine hb.goto hpc ?_
      unfold Machine.waits
      rw [hr, hec, hgoes]
      by_cases he : x = e
      · subst he
        rw [beq_self_eq_true, if_pos ⟨rfl, href⟩]
        change _ + BitVec.ofNat 32 (_ + 1) = _ + 1 + BitVec.ofNat 32 (_ + 0)
        rw [ofNat_succ, add_zero]
        ring
      · rw [beq_false_of_ne he, if_neg fun h => he h.1, add_zero]
        rfl
    cases si with
    | none => exact hdies _ rfl rfl rfl
    | some z => exact hdies _ rfl rfl rfl
  · rw [if_neg href]
    refine hb.goto rfl ?_
    rw [hret, hgoes]
    change Function.update s.ref x (s.ref x - 1) e + _ = _ + _ + BitVec.ofNat 32 (s.waits e + _)
    by_cases he : x = e
    · subst he
      rw [Function.update_self, beq_self_eq_true, if_neg fun h => href h.2]
      change _ - 1 + BitVec.ofNat 32 (_ + 1) = _ + 0 + BitVec.ofNat 32 (_ + 0)
      rw [ofNat_succ, add_zero, add_zero]
      ring
    · rw [Function.update_of_ne (Ne.symm he), if_neg fun h => he h.1, beq_false_of_ne he, add_zero]

theorem Kept.backed_step (hk : Kept s Q P) (hb : Backed s e b) (hfresh : s.fresh i .step = true)
    (hexp : s.unexpired i .step = true) : Backed (s.step i) e (b + s.others i .step e) := by
  have hsame : ∀ {q}, s.pc i = q → (∀ y si woke x c, q ≠ .release y si woke x c) →
      Backed (s.step i) e b → Backed (s.step i) e (b + s.others i .step e) := by
    intro q hq hne h
    have hothers : s.others i .step e = 0 := by
      unfold Machine.others
      rw [hq]
      cases q with
      | release y si woke x c => exact absurd rfl (hne y si woke x c)
      | _ => rfl
    rw [hothers, add_zero]
    exact h
  cases hp : s.pc i with
  | out =>
    refine hsame hp (by simp) ?_
    unfold Machine.step
    rw [hp]
    exact hb
  | dn zero x =>
    refine hsame hp (by simp) ?_
    unfold Machine.step
    rw [hp]
    exact hk.backed_dn hb hp hfresh
  | read x y =>
    refine hsame hp (by simp) ?_
    unfold Machine.step
    rw [hp]
    exact hb.goto_same rfl rfl rfl (by rw [hp]; rfl)
  | write x y c =>
    refine hsame hp (by simp) ?_
    unfold Machine.step
    rw [hp]
    exact hb.goto_same rfl rfl rfl (by rw [hp]; rfl)
  | submit x =>
    refine hsame hp (by simp) ?_
    unfold Machine.step
    rw [hp]
    exact hb.goto_same rfl rfl rfl (by rw [hp]; rfl)
  | up y si woke =>
    refine hsame hp (by simp) ?_
    unfold Machine.step
    rw [hp]
    exact hk.backed_up hb hp
  | reset y x woke z =>
    refine hsame hp (by simp) ?_
    unfold Machine.step
    rw [hp]
    exact hb.goto_same rfl rfl rfl (by rw [hp]; rfl)
  | release y si woke x c =>
    have h := hb.release hp
    unfold Machine.step
    rw [hp]
    exact h
  | dtor =>
    refine hsame hp (by simp) ?_
    unfold Machine.step
    rw [hp]
    refine hb.goto_same rfl rfl rfl ?_
    rw [hp]
    split <;> rfl
  | timeout x =>
    refine hsame hp (by simp) ?_
    unfold Machine.step
    rw [hp]
    dsimp only
    split
    · exact hb
    · rename_i hl
      have hx : x ∉ Q := by
        refine hk.ec.notMem ?_
        unfold Machine.unexpired at hexp
        simp only [hp] at hexp
        simpa [not_not.mp hl] using hexp
      rw [hk.ec.dequeue_none hx]
      exact hb.goto_same rfl rfl rfl (by rw [hp]; rfl)

theorem Kept.backed_act {a : Act E S} (hk : Kept s Q P) (hb : Backed s e b) (hfresh : s.fresh i a = true)
    (hexp : s.unexpired i a = true) : Backed (s.act i a) e (b + s.others i a e) := by
  have hbegin : ∀ q : Pc E S, q.leaves e = false → s.others i a e = 0 →
      s.act i a = s.goto i q ∧ s.pc i = .out ∨ s.act i a = s → Backed (s.act i a) e (b + s.others i a e) := by
    rintro q hq hzero (⟨h, hp⟩ | h)
    · rw [h, hzero, add_zero]
      exact hb.goto_same (t := s.goto i q) rfl rfl rfl (by rw [hp, hq]; rfl)
    · rw [h, hzero, add_zero]
      exact hb
  cases a with
  | step =>
    rw [act_step]
    exact hk.backed_step hb hfresh hexp
  | refs x r =>
    have hact : s.act i (.refs x r) = { s with ref := Function.update s.ref x r } := by
      unfold Machine.act
      cases s.pc i <;> rfl
    have hothers : s.others i (.refs x r) e = if x = e then r - s.ref e else 0 := rfl
    rw [hact, hothers]
    change Function.update s.ref x r e = _ + BitVec.ofNat 32 (s.waits e + s.leaving e)
    unfold Backed at hb
    by_cases he : x = e
    · subst he
      rw [Function.update_self, if_pos rfl]
      linear_combination hb
    · rw [Function.update_of_ne (Ne.symm he), if_neg he, add_zero]
      exact hb
  | dn zero x =>
    refine hbegin (.dn zero x) rfl rfl ?_
    unfold Machine.act
    cases hp : s.pc i <;> simp
  | up =>
    refine hbegin (.up .sys none []) rfl rfl ?_
    unfold Machine.act
    cases hp : s.pc i <;> simp
  | submit x =>
    refine hbegin (.submit x) rfl rfl ?_
    unfold Machine.act
    cases hp : s.pc i <;> simp
  | timeout x =>
    refine hbegin (.timeout x) rfl rfl ?_
    unfold Machine.act
    cases hp : s.pc i <;> simp
  | destroy =>
    refine hbegin .dtor rfl rfl ?_
    unfold Machine.act
    cases hp : s.pc i <;> simp

theorem Kept.backed_after {acts : List (ι × Act E S)} (hk : Kept s Q P) (hb : Backed s e b)
    (h : Machine.Meets (fun s i a => s.fresh i a && s.unexpired i a) s acts) :
    Backed (s.after acts) e (b + s.othersOver acts e) := by
  induction acts generalizing s Q P b with
  | nil =>
    rw [Machine.othersOver, add_zero]
    exact hb
  | cons x acts ih =>
    obtain ⟨hfresh, hexp⟩ := Bool.and_eq_true_iff.mp h.1
    obtain ⟨Q', P', hk'⟩ := hk.act hfresh
    rw [Machine.othersOver, ← add_assoc]
    exact ih hk' (hk.backed_act hb hfresh hexp) h.2

end Steps

section Runs

variable [Fintype ι] [DecidableEq ι] [DecidableEq S]

/-- The reference counts after a run are those that the ECs have had at first and what
others have done to them, with one reference for each EC in the queue or on its way
out. -/
def Balanced (s : Machine ι E S) (acts : List (ι × Act E S)) : Prop :=
  ∀ e, (s.after acts).ref e = s.ref e + s.othersOver acts e +
    BitVec.ofNat 32 ((s.after acts).waits e + (s.after acts).leaving e)

/-- In every run in which nobody waits twice and no timeout finds its EC in the queue,
an EC that has left the queue has the references that it had before. -/
theorem meets_balanced (cnt : Mword) (value : S → Mword) (regs : E → Mword × Mword)
    (acts : List (ι × Act E S))
    (h : Machine.Meets (fun s i a => s.fresh i a && s.unexpired i a) (.create cnt value regs) acts) :
    Balanced (.create cnt value regs) acts := by
  intro e
  have hb : Backed (Machine.create cnt value regs : Machine ι E S) e 1 := by
    unfold Backed
    rw [leaving_create]
    rfl
  exact (kept_create cnt value regs).backed_after hb h

/-- EC 0 waits on CPU 0 and EC 1 on CPU 1; one `up` wakes EC 0, and the destructor
wakes EC 1. -/
def bothWake : List (Fin 2 × Act (Fin 2) (Fin 1)) :=
  [(0, .dn false 0), (1, .dn false 1), (0, .step), (1, .step), (0, .up), (0, .step), (0, .step),
    (1, .destroy), (1, .step), (1, .step), (1, .step), (1, .step)]

theorem bothWake_balanced : Balanced (.create 0 (fun _ => 0) (fun _ => (0, 0))) bothWake ∧
    ((Machine.create 0 (fun _ => 0) (fun _ => (0, 0))).after bothWake).ref 0 = 1 :=
  ⟨meets_balanced 0 _ _ bothWake (by decide +kernel), by decide +kernel⟩

/-- An EC waits, and its timeout takes it out of the queue. -/
theorem timeout_not_balanced :
    ¬Balanced (.create 0 (fun _ : Fin 1 => 0) (fun _ : Fin 1 => (0, 0)) : Machine (Fin 1) (Fin 1) (Fin 1))
      [(0, .dn false 0), (0, .step), (0, .timeout 0), (0, .step)] := by
  intro h
  have := h 0
  revert this
  decide +kernel

end Runs

end Tukija.Sm
