import Tukija.Timeouts.Plan

/-! The lists over whole runs, with any number of CPUs. -/
namespace Tukija.Timeouts

variable {Cpu : Type} [DecidableEq Cpu] {m : Machine Cpu} {P : Plan Cpu} {k : Cpu}

namespace Lists

omit [DecidableEq Cpu] in
theorem create {t : Id} (h : Lists m P) (hg : m.gone t = true) : Lists (m.create t) (P.create t) := by
  apply h.set_idle (f := fun _ => ⟨none, none, 0, false⟩) (fun c hc => ?_) rfl rfl
  simp [h.gone, h.owned c t hc] at hg

theorem clear {t : Id} (h : Lists m P) (hat : ∀ c, c ≠ k → m.list c ≠ some t) :
    Lists (m.clear k t) (P.dequeue t) := by
  have hd := h.dequeue hat
  unfold Machine.clear
  split
  · exact hd
  · rename_i ha
    have hin := (h.active_iff hat).not.mp ha
    rw [not_exists] at hin
    rwa [dequeue_idle (by simpa using ha) (h.idle t hin).1 (h.idle t hin).2] at hd

omit [DecidableEq Cpu] in
theorem not_mem_dequeue {t : Id} (h : Lists m P) (c : Cpu) : t ∉ (P.dequeue t).due c :=
  (h.nodup c).not_mem_erase

theorem destroy {t : Id} (h : Lists m P) (hat : ∀ c, c ≠ k → m.list c ≠ some t) :
    Lists (m.destroy k t) (P.destroy t) := by
  have hc := h.clear hat
  have hs := hc.set_idle (f := fun x => { x with gone := true }) h.not_mem_dequeue
    (hc.idle t h.not_mem_dequeue).1 (hc.idle t h.not_mem_dequeue).2
  have hsame : Function.update (P.dequeue t).time t ((m.clear k t).timeout t).time = (P.dequeue t).time := by
    rw [Machine.timeout_time, hc.time, Function.update_eq_self]
  rw [hsame] at hs
  exact hs

omit [DecidableEq Cpu] in
theorem first_ne {c : Cpu} {t : Id} (h : Lists m P) (hk : m.list k = some t) (hc : c ≠ k) : m.list c ≠ some t := by
  intro hct
  rw [h.head] at hk hct
  exact hc (h.disjoint c k t (List.mem_of_mem_head? hct) (List.mem_of_mem_head? hk))

theorem check (now : List Nat) (h : Lists m P) : Lists (m.check k now) (P.check k now) := by
  induction now generalizing m P with
  | nil => exact h
  | cons n now ih =>
    have hk := h.head k
    unfold Machine.check Plan.check
    cases hP : P.due k with
    | nil =>
      simp only [hk, hP, List.head?_nil]
      exact h
    | cons t l =>
      rw [hP, List.head?_cons] at hk
      simp only [hk, h.time]
      split
      · exact ih (h.dequeue fun c => h.first_ne hk)
      · exact h

end Lists

omit [DecidableEq Cpu] in
theorem length_due_check (now : List Nat) (c : Cpu) : ((P.check k now).due c).length ≤ (P.due c).length := by
  induction now generalizing P with
  | nil => exact le_rfl
  | cons n now ih =>
    unfold Plan.check
    split
    · exact le_rfl
    · split
      · exact ih.trans List.length_erase_le
      · exact le_rfl

theorem length_due_act (a : Act) (c : Cpu) : ((P.act k a).due c).length ≤ (P.due c).length + 1 := by
  cases a with
  | create t => exact Nat.le_succ _
  | enqueue t time =>
    by_cases hc : c = k
    · subst hc
      have hsplit := congrArg List.length (List.takeWhile_append_dropWhile (p := (P.time · < time)) (l := P.due c))
      rw [List.length_append] at hsplit
      simp only [Plan.act, Plan.enqueue, Function.update_self, List.length_append, List.length_cons]
      omega
    · simp [Plan.act, Plan.enqueue, hc]
  | dequeue t | clear t | destroy t => exact List.length_erase_le.trans (Nat.le_succ _)
  | check now => exact (length_due_check now c).trans (Nat.le_succ _)

theorem act_lists {fuel : Nat} {a : Act} (h : Lists m P) (hl : Legal m a) (hat : AtHome m k a)
    (hf : (P.due k).length < fuel) : ∃ m', act fuel k a m = some m' ∧ Lists m' (P.act k a) := by
  cases a with
  | create t => exact ⟨_, rfl, h.create hl⟩
  | enqueue t time => exact h.enqueue hl.2.1 hl.2.2.1 hl.2.2.2 hl.1 hf
  | dequeue t => exact ⟨_, rfl, h.dequeue (hat t rfl)⟩
  | clear t => exact ⟨_, rfl, h.clear (hat t rfl)⟩
  | destroy t => exact ⟨_, rfl, h.destroy (hat t rfl)⟩
  | check now => exact ⟨_, rfl, h.check now⟩

theorem not_mem_act {a : Act} {t : Id} (h : Lists m P) (ht : t ∈ a.takesOut) (c : Cpu) :
    t ∉ (P.act k a).due c := by
  cases a with
  | create t | enqueue t time | check now => simp [Act.takesOut] at ht
  | dequeue t | clear t | destroy t =>
    obtain rfl := Option.some.inj ht
    exact h.not_mem_dequeue c

theorem Lists.after {fuel : Nat} {run : List (Cpu × Act)} (h : Lists m P)
    (hf : ∀ c, (P.due c).length + run.length < fuel + 1)
    (hr : Along (fun m k a => Legal m a ∧ AtHome m k a) fuel run m) :
    ∃ m', after fuel run m = some m' ∧ Lists m' (Plan.after run P) ∧
      ∀ s ∈ run.getLast?, ∀ t ∈ s.2.takesOut, ∀ c, t ∉ (Plan.after run P).due c := by
  induction run generalizing m P with
  | nil => exact ⟨m, rfl, h, by simp⟩
  | cons s run ih =>
    obtain ⟨k, a⟩ := s
    obtain ⟨⟨hl, hat⟩, hrest⟩ := hr
    have hfk : (P.due k).length < fuel := by
      have hk := hf k
      rw [List.length_cons] at hk
      omega
    obtain ⟨m₁, hm, h₁⟩ := act_lists h hl hat hfk
    rw [hm] at hrest
    have hf₁ : ∀ c, ((P.act k a).due c).length + run.length < fuel + 1 := by
      intro c
      have hc := hf c
      have hgrow := length_due_act (P := P) (k := k) a c
      rw [List.length_cons] at hc
      omega
    obtain ⟨m₂, hm₂, h₂, hlast⟩ := ih h₁ hf₁ hrest
    refine ⟨m₂, by simp [Timeouts.after, hm, hm₂], h₂, fun s hs t ht c => ?_⟩
    cases run with
    | nil =>
      obtain rfl := Option.some.inj hs
      exact not_mem_act h ht c
    | cons s' run => exact hlast s (by simpa [List.getLast?_cons_cons] using hs) t ht c

/-- Two timeouts of one CPU; another one destroys the second, the CPU itself
dequeues the first. -/
def behindFirst : List (Bool × Act) :=
  [(false, .create 0), (false, .create 1), (false, .enqueue 0 5), (false, .enqueue 1 7), (true, .destroy 1),
    (false, .dequeue 0)]

/-- The owner of the first timeout of a CPU is destroyed on another one. -/
def firstOfOther : List (Bool × Act) := [(false, .create 0), (false, .enqueue 0 5), (true, .destroy 0)]

end Tukija.Timeouts
