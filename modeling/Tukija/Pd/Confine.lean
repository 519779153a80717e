import Tukija.Pd.Shrink

/-! What `revoke` does not touch. -/
namespace Tukija.Pd

open Tukija.Lib.Word Tukija.Lib.Ring Tukija.Mapdb

variable {σ : Type} {S : SpaceOps σ} {E : σ → σ → Prop} {st st' : State σ}
  {G L U : State σ → NodeId → Prop}

/-- A node of `pd` that the range `(base, ord)` touches. -/
def Touched (st : State σ) (pd : PdId) (base ord : Mword) (m : NodeId) : Prop :=
  m ∈ st.tree pd ∧ Meeting (st.mdb m) base ord

/-- Neither touched by the range nor derived from a node that is. -/
def Outside (st : State σ) (pd : PdId) (base ord : Mword) (x : NodeId) : Prop :=
  ¬Touched st pd base ord x ∧ ∀ m, Touched st pd base ord m → ¬Derived st x m

/-- Rights, tree and list of `x` are as before: of its list only other nodes
are missing, and in between there is nothing new. -/
structure Unmoved (st st' : State σ) (x : NodeId) : Prop where
  attr : (st'.mdb x).nodeAttr = (st.mdb x).nodeAttr
  live : st'.Live x
  ring : ∀ l, st.RingAt x l → st'.RingAt x (l.filter fun y => decide (st'.Live y))

theorem Steps.invariant {I : State σ → Prop}
    (hstep : ∀ st st', Wf st → I st → Effect S E G L U st st' → I st')
    (h : Steps S E G L U st st') (hw : Wf st) (hi : I st) : Wf st' ∧ I st' := by
  induction h with
  | refl => exact ⟨hw, hi⟩
  | tail _ he ih => exact ⟨he.wf ih.1, hstep _ _ ih.1 ih.2 he⟩

theorem Shrunk.touched (h : Shrunk st st') (hw' : Wf st') {pd : PdId}
    {base ord : Mword} {m : NodeId} (hm : Touched st' pd base ord m) :
    Touched st pd base ord m := by
  have hlive : st.Live m := h.live m (hw'.live_of_mem hm.1)
  have hpd : (st.mdb m).space = pd := by
    rw [← (h.same m).space]
    exact (hw'.mem pd m hm.1).1
  refine ⟨?_, ?_⟩
  · rw [← hpd]
    exact hlive
  · have := hm.2
    unfold Meeting Mdb.top at this ⊢
    rw [(h.same m).base, (h.same m).order] at this
    exact this

theorem Visits.touched {τ : Type} {get : τ → State σ} {pd : PdId} {base ord addr b o : Mword}
    {t : τ} {m : NodeId} (hv : Visits get pd base ord addr t m b o) (hw : Wf (get t))
    (ho : ord.toNat < 64) (hb : Aligned ord.toNat base) : Touched (get t) pd base ord m := by
  refine ⟨lookup_mem hv.lookup, ?_⟩
  apply (clamp_ne_ones_iff (hw.natural m (hv.live hw)) ho hb).mp
  rw [hv.clamp]
  exact hv.order

/-- In histories whose delegations and lifts keep the lists in order, `revoke`
leaves what is outside of its range alone. -/
theorem revoke_unmoved {fuel : Nat} {pd : PdId} {base ord attr : Mword} {self kim : Bool}
    (hE : S.Frame E) (h : Reach S E GrantsInOrder Level (fun _ _ => True) st)
    (ho : ord.toNat < 64) (hb : Aligned ord.toNat base)
    (hm : Meets S GrantsInOrder Level (fun _ _ => True) fuel (.revoke pd base ord attr self kim) st)
    (hr : revoke S fuel pd base ord attr self kim st = some st') :
    ∀ x, st.Live x → Outside st pd base ord x → Unmoved st st' x := by
  have hL := stable_level (σ := σ)
  obtain ⟨hw, hf, -⟩ := h.derivation hE hL
  have hri := h.rising hE hL (fun _ _ h => h.1)
  have hne := h.nested hE hL (fun _ _ h => h) (fun _ _ h => h)
  -- what holds at every loop head
  let Inv : State σ → Prop := fun t =>
    Steps S E GrantsInOrder Level (fun _ _ => True) st t ∧ Shrunk st t ∧
      ∀ x, st.Live x → Outside st pd base ord x →
        (t.mdb x).nodeAttr = (st.mdb x).nodeAttr ∧ t.Live x
  have hpass : ∀ addr t m b o t', Inv t → Visits id pd base ord addr t m b o →
      (keeps kim m t = true → Level t m) →
      revokeNode S fuel attr self kim m b o t = some (.next t') → Inv t' := by
    rintro addr t m b o t' ⟨hst, hsh, hout⟩ hv hLm hbody
    obtain ⟨hwt, hft, hrt, hnt⟩ := hst.invariant
      (I := fun st => Forest st ∧ Rising st ∧ Nested st)
      (fun st st' hw hi he => ⟨he.forest hi.1 hw, he.rising (fun _ _ h => h.1) hi.2.1 hi.1 hw,
        he.nested (fun _ _ h => h) (fun _ _ h => h) hi.2.2 hi.2.1 hi.1 hw⟩) hw ⟨hf, hri, hne⟩
    have hlm : t.Live m := hv.live hwt
    have htm : Touched st pd base ord m := hsh.touched hwt (hv.touched hwt ho hb)
    obtain ⟨A, B, hrun, hA⟩ := hnt.run hrt hlm
    obtain ⟨hsh', hframe⟩ := revokeNode_shrunk hwt hlm hrun hbody
    refine ⟨hst.trans (revokeNode_steps hL hwt hlm hLm hbody), hsh.trans hsh', ?_⟩
    intro x hx hox
    obtain ⟨hattr, hlive⟩ := hout x hx hox
    have hxA : x ∉ scope t kim m A := by
      intro hxs
      have hxm : x ∈ m :: A := by
        unfold scope at hxs
        split at hxs
        · rw [List.mem_singleton.mp hxs]
          exact List.mem_cons_self
        · exact hxs
      rcases List.mem_cons.mp hxm with rfl | hxA
      · exact hox.1 htm
      · exact hox.2 m htm ((derived_congr hsh.orig x m).mp ((hA x).mp hxA).2)
    obtain ⟨hattr', hlive'⟩ := hframe x hxA
    exact ⟨hattr'.trans hattr, hlive' hlive⟩
  have hwalk : ∀ c, walkRange id pd base ord (revokeNode S fuel attr self kim) fuel base st =
      some c → Inv c.val := by
    intro c hc
    apply walkRange_rule (fun _ t => Inv t) (fun c => Inv c.val) _ _ _
      ⟨.refl, Shrunk.refl hw, fun x hx _ => ⟨rfl, hx⟩⟩ hm hc
    · exact fun _ _ hinv _ => hinv
    · intro addr t m b o t' hinv hv hLm hbody
      exact absurd hbody (revokeNode_ne_ret (hv.live (hinv.1.wf hw)) (hinv.1.wf hw))
    · exact fun addr t m b o t' hinv hv hLm hbody => hpass addr t m b o t' hinv hv hLm hbody
  have hfinal : Shrunk st st' ∧ ∀ x, st.Live x → Outside st pd base ord x →
      (st'.mdb x).nodeAttr = (st.mdb x).nodeAttr ∧ st'.Live x := by
    unfold revoke at hr
    split at hr
    · simp at hr
    · rename_i t hc
      obtain rfl := Option.some.inj hr
      exact (hwalk _ hc).2
    · rename_i t hc
      have := (hwalk _ hc).2
      split at hr
      · obtain rfl := Option.some.inj hr
        exact ⟨⟨this.1.same, this.1.attr, this.1.live, this.1.ring, this.1.fresh, this.1.orig⟩, this.2⟩
      · obtain rfl := Option.some.inj hr
        exact this
  intro x hx hox
  obtain ⟨hattr, hlive⟩ := hfinal.2 x hx hox
  exact ⟨hattr, hlive, fun l hl => hfinal.1.ring x l hlive hl⟩

def chainOfThree : List Op :=
  [.insertRoot 1 0 0 4 0x1f 0, .delegate 2 1 0 0 4 7 0, .delegate 3 2 0 0 3 7 0]

theorem revoke_unmoved_chainOfThree :
    ∃ st st', execAll bareSpace 10 chainOfThree (boot ()) = some st ∧
      revoke bareSpace 10 2 0 4 0x1f true false st = some st' ∧ ¬st'.Live 1 ∧ ¬st'.Live 2 ∧
        Unmoved st st' 0 := by
  have hrun : ((execAll bareSpace 10 chainOfThree (boot ())).bind fun st =>
      (revoke bareSpace 10 2 0 4 0x1f true false st).map fun st' =>
        (decide (st.Live 0), st.tree 2, decide (st'.Live 1), decide (st'.Live 2))) =
      some (true, [1], false, false) := by decide +kernel
  obtain ⟨st, hst, hrest⟩ := Option.bind_eq_some_iff.mp hrun
  obtain ⟨st', hst', hval⟩ := Option.map_eq_some_iff.mp hrest
  simp only [Prod.mk.injEq, decide_eq_true_eq, decide_eq_false_iff_not] at hval
  obtain ⟨h0, htree, h1, h2⟩ := hval
  have hreach : Reach bareSpace (fun _ _ => True) GrantsInOrder Level (fun _ _ => True) st :=
    Reach.execAll (.boot ()) (by decide +kernel) hst
  have hmeets : ∀ st ∈ execAll bareSpace 10 chainOfThree (boot ()),
      Meets bareSpace GrantsInOrder Level (fun _ _ => True) 10 (.revoke 2 0 4 0x1f true false) st := by
    decide +kernel
  have hout : Outside st 2 0 4 0 := by
    constructor
    · rintro ⟨hmem, -⟩
      simp [htree] at hmem
    · rintro m ⟨hmem, -⟩ hd
      exact absurd ((hreach.derivation bareSpace_frame stable_level).2.1.lt hd) (Nat.not_lt_zero m)
  exact ⟨st, st', hst, hst', h1, h2, revoke_unmoved bareSpace_frame hreach (by decide) (by decide)
    (hmeets st hst) hst' 0 h0 hout⟩

/-- The middle node of a chain is lifted out of the list, and then its former
parent gets a new child. -/
def childBeforeOrphan : List Op :=
  [.insertRoot 1 0 0 4 0x1f 0, .delegate 2 1 0 0 4 7 0, .delegate 3 2 0 0 3 7 0,
    .revoke 2 0 4 0x1f true true, .delegate 4 1 0 0 4 7 0]

/-- Revoking the new child takes the rights of a node that was never derived
from it. -/
theorem childBeforeOrphan_revoked :
    ¬∀ st st', AnyReach bareSpace (fun _ _ => True) st →
      revoke bareSpace 10 4 0 4 0x1f true false st = some st' →
        ∀ x, st.Live x → Outside st 4 0 4 x → Unmoved st st' x := by
  intro hall
  have hrun : ((execAll bareSpace 10 childBeforeOrphan (boot ())).bind fun st =>
      (revoke bareSpace 10 4 0 4 0x1f true false st).map fun st' =>
        (decide (st.Live 2), st.tree 4, decide (st'.Live 2))) =
      some (true, [3], false) := by decide +kernel
  obtain ⟨st, hst, hrest⟩ := Option.bind_eq_some_iff.mp hrun
  obtain ⟨st', hst', hval⟩ := Option.map_eq_some_iff.mp hrest
  simp only [Prod.mk.injEq, decide_eq_true_eq, decide_eq_false_iff_not] at hval
  obtain ⟨h2, htree, h2'⟩ := hval
  have hreach : AnyReach bareSpace (fun _ _ => True) st :=
    AnyReach.execAll (.boot ()) (by decide) hst
  have hout : Outside st 4 0 4 2 := by
    constructor
    · rintro ⟨hmem, -⟩
      simp [htree] at hmem
    · rintro m ⟨hmem, -⟩ hd
      have hm : m = 3 := by simpa [htree] using hmem
      have := (hreach.derivation bareSpace_frame (fun _ _ _ _ _ _ h => h)).2.1.lt hd
      rw [hm] at this
      exact absurd this (by decide)
  exact h2' (hall st st' hreach hst' 2 h2 hout).live

end Tukija.Pd
