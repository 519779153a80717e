import Mathlib.Logic.Relation
import Tukija.Ipc.State

/-! The ECs that have called one another form chains that end, and a dead EC stays so,
as long as nothing out of memory is handed to a dead EC. -/
namespace Tukija.Ipc

variable {fuel : Nat} {glb queued : Id → Bool} {cont : Id → Option Cont} {partner rcap : Id → Option Id}
  {s s₀ s' : State} {e p x : Id} {c : Option Cont}

/-! ## Links -/

/-- The way along the partners comes to an end. -/
inductive Ends (partner : Id → Option Id) : Id → Prop where
  | last {e : Id} : partner e = none → Ends partner e
  | next {e p : Id} : partner e = some p → Ends partner p → Ends partner e

structure Links (glb : Id → Bool) (partner rcap : Id → Option Id) : Prop where
  link : ∀ e p, partner e = some p ↔ rcap p = some e
  ends : ∀ e, Ends partner e
  loc : ∀ p e, rcap p = some e → glb p = false

theorem Ends.update (h : Ends partner x) {q : Option Id} (he : Ends (Function.update partner e q) e) :
    Ends (Function.update partner e q) x := by
  induction h with
  | @last y hy =>
    by_cases heq : y = e
    · exact heq ▸ he
    · exact .last ((Function.update_of_ne heq _ _).trans hy)
  | @next y z hy _ ih =>
    by_cases heq : y = e
    · exact heq ▸ he
    · exact .next ((Function.update_of_ne heq _ _).trans hy) ih

theorem Ends.set (h : Ends partner x) (hp : partner p = none) (hne : e ≠ p) :
    Ends (Function.update partner e (some p)) x :=
  h.update (.next (Function.update_self _ _ _) (.last ((Function.update_of_ne (Ne.symm hne) _ _).trans hp)))

theorem Ends.clr (h : Ends partner x) (e : Id) : Ends (Function.update partner e none) x :=
  h.update (.last (Function.update_self _ _ _))

namespace Links

theorem set (h : Links glb partner rcap) (he : partner e = none) (hp : partner p = none) (hr : rcap p = none)
    (hne : e ≠ p) (hloc : glb p = false) :
    Links glb (Function.update partner e (some p)) (Function.update rcap p (some e)) := by
  refine ⟨fun y q => ?_, fun y => (h.ends y).set hp hne, fun q y hq => ?_⟩
  · have hlink := h.link y q
    simp only [Function.update_apply]
    by_cases hy : y = e
    · by_cases hq : q = p
      · simp [hy, hq]
      · subst hy
        rw [if_pos rfl, if_neg hq, ← hlink, he]
        exact iff_of_false (fun heq => hq (Option.some.inj heq).symm) nofun
    · by_cases hq : q = p
      · subst hq
        rw [if_neg hy, if_pos rfl, hlink, hr]
        exact iff_of_false nofun fun heq => hy (Option.some.inj heq).symm
      · rw [if_neg hy, if_neg hq, hlink]
  · by_cases heq : q = p
    · exact heq ▸ hloc
    · rw [Function.update_of_ne heq] at hq
      exact h.loc q y hq

theorem clr (h : Links glb partner rcap) (he : partner e = some p) :
    Links glb (Function.update partner e none) (Function.update rcap p none) := by
  have hr := (h.link e p).mp he
  refine ⟨fun y q => ?_, fun y => (h.ends y).clr e, fun q y hq => ?_⟩
  · have hlink := h.link y q
    simp only [Function.update_apply]
    by_cases hy : y = e
    · by_cases hq : q = p
      · simp [hy, hq]
      · subst hy
        rw [if_pos rfl, if_neg hq, ← hlink, he]
        exact iff_of_false nofun fun heq => hq (Option.some.inj heq).symm
    · by_cases hq : q = p
      · subst hq
        rw [if_neg hy, if_pos rfl, hlink, hr]
        exact iff_of_false (fun heq => hy (Option.some.inj heq).symm) nofun
      · rw [if_neg hy, if_neg hq, hlink]
  · by_cases heq : q = p
    · rw [heq, Function.update_self] at hq
      cases hq
    · rw [Function.update_of_ne heq] at hq
      exact h.loc q y hq

end Links

/-! ## Continuations -/

def Live (c : Option Cont) : Prop := c ≠ none ∧ c ≠ some .dead

theorem live_some {c : Cont} (h : c ≠ .dead) : Live (some c) := ⟨nofun, fun heq => h (Option.some.inj heq)⟩

/-- Callers and those who wait for a semaphore are not dead, and a called EC does not
wait for a call. -/
structure Conts (cont : Id → Option Cont) (partner rcap : Id → Option Id) (queued : Id → Bool) : Prop where
  caller : ∀ e p, partner e = some p → Live (cont e)
  callee : ∀ p e, rcap p = some e → cont p ≠ none
  queue : ∀ e, queued e = true → Live (cont e) ∧ partner e = none

namespace Conts

theorem setCont (h : Conts cont partner rcap queued) (hlive : partner e ≠ none ∨ queued e = true → Live c)
    (hc : rcap e ≠ none → c ≠ none) : Conts (Function.update cont e c) partner rcap queued := by
  refine ⟨fun y q hy => ?_, fun q y hq => ?_, fun y hy => ?_⟩
  · by_cases heq : y = e
    · subst heq
      rw [Function.update_self]
      exact hlive (.inl (by rw [hy]; nofun))
    · rw [Function.update_of_ne heq]
      exact h.caller y q hy
  · by_cases heq : q = e
    · subst heq
      rw [Function.update_self]
      exact hc (by rw [hq]; nofun)
    · rw [Function.update_of_ne heq]
      exact h.callee q y hq
  · refine ⟨?_, (h.queue y hy).2⟩
    by_cases heq : y = e
    · subst heq
      rw [Function.update_self]
      exact hlive (.inr hy)
    · rw [Function.update_of_ne heq]
      exact (h.queue y hy).1

theorem set (h : Conts cont partner rcap queued) (he : Live (cont e)) (hp : cont p ≠ none)
    (hq : queued e = false) :
    Conts cont (Function.update partner e (some p)) (Function.update rcap p (some e)) queued := by
  refine ⟨fun y q hy => ?_, fun q y hq => ?_, fun y hy => ?_⟩
  · by_cases heq : y = e
    · exact heq ▸ he
    · rw [Function.update_of_ne heq] at hy
      exact h.caller y q hy
  · by_cases heq : q = p
    · exact heq ▸ hp
    · rw [Function.update_of_ne heq] at hq
      exact h.callee q y hq
  · have hne : y ≠ e := fun heq => Bool.false_ne_true (hq.symm.trans (heq ▸ hy))
    rw [Function.update_of_ne hne]
    exact h.queue y hy

theorem clr (h : Conts cont partner rcap queued) (e p : Id) :
    Conts cont (Function.update partner e none) (Function.update rcap p none) queued := by
  refine ⟨fun y q hy => ?_, fun q y hq => ?_, fun y hy => ⟨(h.queue y hy).1, ?_⟩⟩
  · by_cases heq : y = e
    · rw [heq, Function.update_self] at hy
      cases hy
    · rw [Function.update_of_ne heq] at hy
      exact h.caller y q hy
  · by_cases heq : q = p
    · rw [heq, Function.update_self] at hq
      cases hq
    · rw [Function.update_of_ne heq] at hq
      exact h.callee q y hq
  · by_cases heq : y = e
    · rw [heq, Function.update_self]
    · rw [Function.update_of_ne heq]
      exact (h.queue y hy).2

theorem setQueued (h : Conts cont partner rcap queued) {q : Bool}
    (hq : q = true → Live (cont e) ∧ partner e = none) : Conts cont partner rcap (Function.update queued e q) := by
  refine ⟨h.caller, h.callee, fun y hy => ?_⟩
  by_cases heq : y = e
  · rw [heq, Function.update_self] at hy
    exact heq ▸ hq hy
  · rw [Function.update_of_ne heq] at hy
    exact h.queue y hy

end Conts

structure Sound (s : State) : Prop where
  links : Links s.glb s.partner s.rcap
  conts : Conts s.cont s.partner s.rcap s.queued

/-- The current EC has called nobody, waits for nobody, and if it is dead it has been
entered so. -/
structure Inv (s : State) : Prop extends Sound s where
  last : s.partner s.current = none
  run : s.cont s.current ≠ none
  awake : s.queued s.current = false
  dead : s.cont s.current = some .dead → s.pc = .dead

theorem clrPartner_of (hp : s.partner e = some p) :
    s.clrPartner e = { s with
      partner := Function.update s.partner e none
      rcap := Function.update s.rcap p none
      ctr := s.ctr - 1 } := by
  rw [State.clrPartner, hp]

namespace Sound

theorem setCont (h : Sound s) (hlive : s.partner e ≠ none ∨ s.queued e = true → Live c)
    (hc : s.rcap e ≠ none → c ≠ none) : Sound (s.setCont e c) := ⟨h.links, h.conts.setCont hlive hc⟩

theorem setQueued (h : Sound s) {q : Bool} (hq : q = true → Live (s.cont e) ∧ s.partner e = none) :
    Sound (s.setQueued e q) := ⟨h.links, h.conts.setQueued hq⟩

theorem setPartner (h : Sound s) (he : s.partner e = none) (hp : s.partner p = none) (hr : s.rcap p = none)
    (hne : e ≠ p) (hloc : s.glb p = false) (hlive : Live (s.cont e)) (hbusy : s.cont p ≠ none)
    (hq : s.queued e = false) : Sound (s.setPartner e p) :=
  ⟨h.links.set he hp hr hne hloc, h.conts.set hlive hbusy hq⟩

theorem clrPartner (h : Sound s) (hp : s.partner e = some p) : Sound (s.clrPartner e) := by
  rw [clrPartner_of hp]
  exact ⟨h.links.clr hp, h.conts.clr e p⟩

theorem of_none (h : Sound s) (hc : s.cont e = none) :
    s.partner e = none ∧ s.rcap e = none ∧ s.queued e = false := by
  refine ⟨?_, ?_, ?_⟩
  · cases hp : s.partner e with
    | none => rfl
    | some p => exact absurd hc (h.conts.caller e p hp).1
  · cases hr : s.rcap e with
    | none => rfl
    | some q => exact absurd hc (h.conts.callee e q hr)
  · rw [Bool.eq_false_iff]
    intro hq
    exact (h.conts.queue e hq).1.1 hc

end Sound

end Tukija.Ipc
