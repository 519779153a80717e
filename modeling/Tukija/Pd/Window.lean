import Tukija.Pd.Confine

/-! Invariants of `delegate` that depend on where the new nodes are. -/
namespace Tukija.Pd

open Tukija.Lib.Word Tukija.Mapdb

variable {σ : Type} {S : SpaceOps σ} {E : σ → σ → Prop} {st st' : State σ}
  {this snd : PdId} {sndBase rcvBase ord attr sub : Mword}

/-- A node in the receive window of a delegation. -/
structure Received (S : SpaceOps σ) (this : PdId) (rcvBase ord sub : Mword) (old : Mword) (x : Mdb) :
    Prop where
  space : x.space = this
  low : rcvBase.toNat ≤ x.nodeBase.toNat
  high : x.top ≤ rcvBase.toNat + 2 ^ ord.toNat
  sub : x.nodeSub = S.stickySub old ||| sub

theorem childOf_received {mdb : Mdb} {n : NodeId} {b o : Mword} (ho : ord.toNat < 64)
    (hm : mdb.Natural) (hs : Aligned ord.toNat sndBase) (hr : Aligned ord.toNat rcvBase)
    (hp : Part mdb sndBase ord b o) :
    Received S this rcvBase ord sub mdb.nodeSub (childOf S this sndBase rcvBase sub mdb n b o) := by
  have hnat : (childOf S this sndBase rcvBase sub mdb n b o).Natural := childOf_natural hm hs hr hp
  have hle : o.toNat ≤ ord.toNat := by
    rw [hp.order]
    exact min_le_right _ _
  have hblock := sameBlock_rebase ho.le hs hr hp.range
  have hin := (sameBlock_iff_of_aligned hr).mp hblock
  refine ⟨rfl, hin.1, ?_, rfl⟩
  -- the node is aligned, and so is the end of the window
  have hdvd : 2 ^ o.toNat ∣ rcvBase.toNat + 2 ^ ord.toNat :=
    Nat.dvd_add (hr.mono hle) (Nat.pow_dvd_pow 2 hle)
  exact add_le_of_dvd_of_lt hnat.base hdvd hin.2

/-- What the elementary changes of a call preserve, and a new node in the receive
window too, holds after `delegate`. -/
theorem delegate_invariant {I : State σ → Prop} {fuel : Nat} (hE : S.Frame E)
    (hstep : ∀ st st', Wf st → I st →
      Effect S E (fun _ _ => False) (fun _ _ => False) (fun _ _ => False) st st' → I st')
    (hgrant : ∀ st st' m, Wf st → I st → Granted S E st st' m st.fresh →
      Received S this rcvBase ord sub (st.mdb m).nodeSub (st'.mdb st.fresh) → I st')
    (ho : ord.toNat < 64) (hs : Aligned ord.toNat sndBase) (hr : Aligned ord.toNat rcvBase)
    (hw : Wf st) (hi : I st) {r : State σ × Bool}
    (hd : delegate S fuel this snd sndBase rcvBase ord attr sub st = some r) : Wf r.1 ∧ I r.1 := by
  have hpass : ∀ addr (t : State σ × Bool) m b o c, Wf t.1 ∧ I t.1 →
      Visits Prod.fst snd sndBase ord addr t m b o →
      delegateNode S this sndBase rcvBase attr sub m b o t = some c → Wf c.val.1 ∧ I c.val.1 := by
    rintro addr ⟨t, s⟩ m b o c ⟨hwt, hit⟩ hv hb
    dsimp only at hwt hit
    have hm : t.Live m := hv.live hwt
    have hp : Part (t.mdb m) sndBase ord b o := hv.part hwt ho hs
    have hx : (childOf S this sndBase rcvBase sub (t.mdb m) t.fresh b o).Natural :=
      childOf_natural (hwt.natural m hm) hs hr hp
    cases hg : grants S this sndBase rcvBase attr sub m b o t with
    | false =>
      have hquiet : ∀ t', Quiet E t t' → Wf t' ∧ I t' :=
        fun t' hq => ⟨hq.wf hwt, hstep _ _ hwt hit (.quiet hq)⟩
      obtain ⟨t', hq, ⟨-, h'⟩ | ⟨-, h'⟩⟩ :=
        delegateNode_of_not_grants (s := s) hE hwt hx (hwt.lt hm) hg
      · rw [h'] at hb
        obtain rfl := Option.some.inj hb
        exact hquiet t' hq
      · rw [h'] at hb
        obtain rfl := Option.some.inj hb
        exact hquiet t' hq
    | true =>
      obtain ⟨tree, htree, ha, f, g, h'⟩ := delegateNode_of_grants (s := s) hg (hwt.lt hm)
      have hgr : Granted S E t (t.grant S this _ tree m attr) m t.fresh :=
        grant_granted hE hwt hm hx (childOf_within (hwt.natural m hm) hp) rfl rfl htree ha
      have hsame : SameNode ((t.grant S this
          (childOf S this sndBase rcvBase sub (t.mdb m) t.fresh b o) tree m attr).mdb t.fresh)
          (childOf S this sndBase rcvBase sub (t.mdb m) t.fresh b o) := (grant_new hwt hm ha).1
      rw [h'] at hb
      generalize State.grant S this _ tree m attr t = t1 at hgr hsame hb
      have hwin : Received S this rcvBase ord sub (t.mdb m).nodeSub (t1.mdb t.fresh) := by
        have h : Received S this rcvBase ord sub (t.mdb m).nodeSub
            (childOf S this sndBase rcvBase sub (t.mdb m) t.fresh b o) :=
          childOf_received ho (hwt.natural m hm) hs hr hp
        refine ⟨hsame.space.trans h.space, ?_, ?_, hsame.sub.trans h.sub⟩
        · rw [hsame.base]
          exact h.low
        · unfold Mdb.top
          rw [hsame.base, hsame.order]
          exact h.high
      have hw1 := hgr.wf hwt
      have hi1 := hgrant _ _ m hwt hit hgr hwin
      split at hb
      · -- out of memory: the new node is stripped of its rights and taken out again
        obtain rfl := Option.some.inj hb
        have hlive : t1.Live t.fresh := (hgr.live hwt _).mpr (Or.inl rfl)
        have hdem : Demoted t1 (t1.demote S t.fresh attr) t.fresh attr := demote_demoted hlive
        have hi2 := hstep _ _ hw1 hi1 (.demoted t.fresh attr hdem rfl)
        exact (remove_steps (hdem.wf hw1) ((hdem.live_iff _).mpr hlive)).invariant hstep
          (hdem.wf hw1) hi2
      · obtain rfl := Option.some.inj hb
        exact ⟨hw1, hi1⟩
  have hwalk : ∀ c, walkRange Prod.fst snd sndBase ord
      (delegateNode S this sndBase rcvBase attr sub) fuel sndBase (st, false) = some c →
        Wf c.val.1 ∧ I c.val.1 := by
    intro c hc
    apply walkRange_rule (fun _ t => Wf t.1 ∧ I t.1) (fun c => Wf c.val.1 ∧ I c.val.1) _ _ _
      ⟨hw, hi⟩ (walkAll_of_forall (fun _ _ _ _ => trivial) _ _ _) hc
    · intro addr t hinv _
      exact hinv
    · intro addr t m b o t' hinv hv _ hb
      exact hpass addr t m b o _ hinv hv hb
    · intro addr t m b o t' hinv hv _ hb
      exact hpass addr t m b o _ hinv hv hb
  unfold delegate at hd
  split at hd
  · simp at hd
  · rename_i t hc
    obtain rfl := Option.some.inj hd
    exact hwalk _ hc
  · rename_i t hc
    obtain ⟨hwt, ht⟩ := hwalk _ hc
    split at hd
    · obtain rfl := Option.some.inj hd
      exact ⟨hwt, ht⟩
    · obtain rfl := Option.some.inj hd
      have hq : Quiet E t.1 { t.1 with oom := true } :=
        ⟨hE.refl _, fun _ _ => rfl, le_rfl, rfl, rfl⟩
      exact ⟨hq.wf hwt, hstep _ _ hwt ht (.quiet hq)⟩

end Tukija.Pd
