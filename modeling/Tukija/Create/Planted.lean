import Tukija.Create.Pd

/-! A root in the space of the caller stays there, whatever is delegated to another
domain and revoked from it. -/
namespace Tukija.Create

open Tukija.Lib.Word Tukija.Mapdb Tukija.Pd

variable {σ : Type} {S M P O : SpaceOps σ} {st st' t : State σ} {s s' : Spaces σ} {n : NodeId} {cur pd snd : PdId}
  {fuel : Nat} {sndBase rcvBase ord attr sub : Mword}

/-- `n` is a root in the space of `cur`. -/
structure Planted (cur : PdId) (n : NodeId) (st : State σ) : Prop where
  wf : Wf st
  live : st.Live n
  space : (st.mdb n).space = cur
  dpth : (st.mdb n).dpth = 0

theorem Planted.mem (h : Planted cur n st) : n ∈ st.tree cur := by
  have := h.live
  unfold State.Live at this
  rwa [h.space] at this

theorem Planted.same (h : Planted cur n st) (hw : Wf st') (hl : st'.Live n)
    (hs : SameNode (st'.mdb n) (st.mdb n)) : Planted cur n st' :=
  ⟨hw, hl, hs.space.trans h.space, hs.dpth.trans h.dpth⟩

theorem Planted.follow (h : Planted cur n st) : Planted cur n (st.follow t) :=
  ⟨h.wf.follow t, h.live, h.space, h.dpth⟩

theorem trivial_frame (S : SpaceOps σ) : S.Frame fun _ _ => True :=
  ⟨fun _ => trivial, fun _ _ _ _ _ => trivial, fun _ _ => trivial, fun _ _ => trivial⟩

theorem delegateNode_planted {b o : Mword} {m : NodeId} {f : Bool} {c : Ctl (State σ × Bool)}
    (h : Planted cur n st) (hm : st.Live m) (hs : Aligned ord.toNat sndBase) (hr : Aligned ord.toNat rcvBase)
    (hp : Part (st.mdb m) sndBase ord b o)
    (hb : delegateNode S pd sndBase rcvBase attr sub m b o (st, f) = some c) : Planted cur n c.val.1 := by
  have hw := h.wf
  have hlt := hw.lt h.live
  have hnat := hw.natural m hm
  have hx : (childOf S pd sndBase rcvBase sub (st.mdb m) st.fresh b o).Natural := childOf_natural hnat hs hr hp
  have hE := trivial_frame S
  cases hg : grants S pd sndBase rcvBase attr sub m b o st with
  | false =>
    have hquiet : ∀ st', Quiet (fun _ _ => True) st st' → Planted cur n st' := by
      intro st' hq
      refine h.same (hq.wf hw) ((hq.live hw n).mpr h.live) ?_
      rw [hq.mdb n hlt]
      exact SameNode.refl _
    obtain ⟨st', hq, ⟨-, h'⟩ | ⟨-, h'⟩⟩ := delegateNode_of_not_grants (s := f) hE hw hx (hw.lt hm) hg
    · rw [h'] at hb
      obtain rfl := Option.some.inj hb
      exact hquiet st' hq
    · rw [h'] at hb
      obtain rfl := Option.some.inj hb
      exact hquiet st' hq
  | true =>
    obtain ⟨tree, ht, ha, f', g', h'⟩ := delegateNode_of_grants (s := f) hg (hw.lt hm)
    have hgr : Granted S (fun _ _ => True) st (st.grant S pd _ tree m attr) m st.fresh :=
      grant_granted hE hw hm hx (childOf_within hnat hp) rfl rfl ht ha
    have hfirst : Planted cur n (st.grant S pd _ tree m attr) :=
      h.same (hgr.wf hw) ((hgr.live hw n).mpr (.inr h.live)) (hgr.old n hlt).1
    rw [h'] at hb
    split at hb
    · obtain rfl := Option.some.inj hb
      -- out of memory: the new node is taken out again
      generalize State.grant S pd _ tree m attr st = st1 at hgr hfirst
      have hnew : st1.Live st.fresh := (hgr.live hw _).mpr (.inl rfl)
      have hdem : Demoted st1 (st1.demote S st.fresh attr) st.fresh attr := demote_demoted hnew
      have hsecond : Planted cur n (st1.demote S st.fresh attr) :=
        hfirst.same (hdem.wf hfirst.wf) ((hdem.live_iff n).mpr hfirst.live) (hdem.node n).1
      have hnew' := (hdem.live_iff st.fresh).mpr hnew
      by_cases hr : ((st1.demote S st.fresh attr).mdb st.fresh).nodeAttr = 0 ∧
          (true = true → ((st1.demote S st.fresh attr).mdb ((st1.demote S st.fresh attr).mdb.next st.fresh)).dpth ≤
            ((st1.demote S st.fresh attr).mdb st.fresh).dpth)
      · have hd : Dropped true _ _ st.fresh := remove_dropped hsecond.wf hnew' hr.1 hr.2
        exact hsecond.same (remove_wf hsecond.wf hnew') ((hd.live_iff hsecond.wf n).mpr ⟨hlt.ne, hsecond.live⟩)
          (hd.node n).1
      · change Planted cur n ((st1.demote S st.fresh attr).remove st.fresh true)
        rw [remove_eq_self hr]
        exact hsecond
    · obtain rfl := Option.some.inj hb
      exact hfirst

theorem delegate_planted {r : State σ × Bool} (h : Planted cur n st) (ho : ord.toNat < 64)
    (hs : Aligned ord.toNat sndBase) (hr : Aligned ord.toNat rcvBase)
    (hd : delegate S fuel pd snd sndBase rcvBase ord attr sub st = some r) : Planted cur n r.1 := by
  have hinner : ∀ c, walkRange Prod.fst snd sndBase ord (delegateNode S pd sndBase rcvBase attr sub) fuel sndBase
      (st, false) = some c → Planted cur n c.val.1 := by
    intro c hc
    apply walkRange_rule (P := fun _ _ _ _ => True) (fun _ t => Planted cur n t.1) (fun c => Planted cur n c.val.1)
      _ _ _ h (walkAll_of_forall (fun _ _ _ _ => trivial) _ _ _) hc
    · intro addr t hinv _
      exact hinv
    · intro addr t m b o t' hinv hv _ hb
      exact delegateNode_planted hinv (hv.live hinv.wf) hs hr (hv.part hinv.wf ho hs) hb
    · intro addr t m b o t' hinv hv _ hb
      exact delegateNode_planted hinv (hv.live hinv.wf) hs hr (hv.part hinv.wf ho hs) hb
  unfold delegate at hd
  split at hd
  · simp at hd
  · rename_i t hc
    obtain rfl := Option.some.inj hd
    exact hinner _ hc
  · rename_i t hc
    split at hd
    · obtain rfl := Option.some.inj hd
      exact hinner _ hc
    · obtain rfl := Option.some.inj hd
      have := hinner _ hc
      exact ⟨⟨this.wf.mem, this.wf.ordered, this.wf.natural, this.wf.ring⟩, this.live, this.space, this.dpth⟩

/-- A root of another domain is neither in the space that is revoked nor derived
from a node there. -/
theorem revoke_planted (hne : cur ≠ pd) (h : Planted cur n st)
    (hr : revoke S fuel pd sndBase ord attr true false st = some st') : Planted cur n st' := by
  have hinner : ∀ c, walkRange id pd sndBase ord (revokeNode S fuel attr true false) fuel sndBase st = some c →
      Planted cur n c.val := by
    intro c hc
    apply walkRange_rule (P := fun _ _ _ _ => True) (fun _ t => Planted cur n t) (fun c => Planted cur n c.val)
      _ _ _ h (walkAll_of_forall (fun _ _ _ _ => trivial) _ _ _) hc
    · intro addr t hinv _
      exact hinv
    · intro addr t m b o t' hinv hv _ hb
      exact absurd hb (revokeNode_ne_ret (hv.live hinv.wf) hinv.wf)
    · intro addr t m b o t' hinv hv _ hb
      have hm := hv.live hinv.wf
      obtain ⟨A, B, hrun⟩ := hinv.wf.run hm
      obtain ⟨hsh, hout⟩ := revokeNode_shrunk hinv.wf hm hrun hb
      have hscope : n ∉ scope t false m A := by
        have hnm : n ≠ m := by
          rintro rfl
          have hmem := lookup_mem hv.lookup
          exact hne (hinv.space.symm.trans (hinv.wf.mem pd n hmem).1)
        have hnA : n ∉ A := by
          intro hA
          have := hrun.deeper n hA
          rw [hinv.dpth] at this
          omega
        simpa [scope, keeps] using ⟨hnm, hnA⟩
      have hsteps : Steps S (fun _ _ => True) (fun _ _ => True) (fun _ _ => True) (fun _ _ => True) t t' :=
        revokeNode_steps (c := .next t') (fun _ _ _ _ _ _ _ => trivial) hinv.wf hm (fun _ => trivial) hb
      exact hinv.same (hsteps.wf hinv.wf) ((hout n hscope).2 hinv.live) (hsh.same n)
  unfold revoke at hr
  split at hr
  · simp at hr
  · rename_i t hc
    obtain rfl := Option.some.inj hr
    exact hinner _ hc
  · rename_i t hc
    have := hinner _ hc
    split at hr
    · obtain rfl := Option.some.inj hr
      exact ⟨⟨this.wf.mem, this.wf.ordered, this.wf.natural, this.wf.ring⟩, this.live, this.space, this.dpth⟩
    · obtain rfl := Option.some.inj hr
      exact this

theorem preFree_planted (hne : cur ≠ pd) (h : Planted cur n s.obj) (hr : preFree M P O fuel pd s = some s') :
    Planted cur n s'.obj := by
  unfold preFree at hr
  dsimp only at hr
  split at hr
  · simp at hr
  · split at hr
    · simp at hr
    · split at hr
      · simp at hr
      · rename_i t ht
        obtain rfl := Option.some.inj hr
        exact revoke_planted hne h.follow.follow ht

theorem aligned_clear {k : Nat} {m : Mword} (hm : m.toNat = 2 ^ k - 1) (x : Mword) : Aligned k (x &&& ~~~m) := by
  refine Nat.dvd_of_mod_eq_zero (Nat.eq_of_testBit_eq fun i => ?_)
  rw [Nat.testBit_mod_two_pow, Nat.zero_testBit, BitVec.testBit_toNat, BitVec.getLsbD_and, BitVec.getLsbD_not,
    ← BitVec.testBit_toNat m, hm, Nat.testBit_two_pow_sub_one]
  by_cases hi : i < k <;> simp [hi]

theorem clampHot_zero {z : Mword} (hz : z.toNat < 32) (x : Mword) :
    ∃ b, clampHot x 0 z 0x1f 0 = (z, b, 0) ∧ Aligned z.toNat b := by
  have hshl : (shl 1 z).toNat = 2 ^ z.toNat := toNat_shl_one (by omega)
  have hs : (shl 1 z - 1).toNat = 2 ^ z.toNat - 1 := by
    rw [BitVec.toNat_sub_of_le (by rw [BitVec.le_def, hshl]; exact Nat.one_le_two_pow), hshl]
    rfl
  refine ⟨x &&& ~~~(shl 1 z - 1), ?_, aligned_clear hs x⟩
  unfold clampHot
  dsimp only
  by_cases hlt : z.toNat < 31
  · rw [if_pos]
    · simp
    · rw [BitVec.lt_def, hs]
      have := Nat.pow_lt_pow_right (a := 2) (by decide) hlt
      have h31 : (shl 1 0x1f - 1 : Mword).toNat = 2 ^ 31 - 1 := by decide
      omega
  · obtain rfl : z = 0x1f := BitVec.eq_of_toNat_eq (by
      have : (0x1f : Mword).toNat = 31 := by decide
      omega)
    simp

theorem delCrd_planted {crd r : Crd} (h : Planted cur n s.obj)
    (hd : delCrd M P O fuel pd snd (Crd.ofType Crd.OBJ) crd 0 0 s = some (s', r)) : Planted cur n s'.obj := by
  obtain ⟨hbase, hord, -⟩ := Crd.ofType_eq (t := Crd.OBJ) (by simp)
  have htype : (Crd.ofType Crd.OBJ).type = Crd.OBJ := by decide
  have hm : Crd.OBJ ≠ Crd.MEM := by decide
  have hp : Crd.OBJ ≠ Crd.PIO := by decide
  obtain ⟨b, hc, hb⟩ := clampHot_zero crd.order_lt crd.base
  unfold delCrd at hd
  simp only [hbase, hord, htype, hm, hp, hc, if_false, if_true] at hd
  split at hd
  · obtain ⟨rfl, -⟩ := Prod.mk.inj (Option.some.inj hd)
    exact h
  · split at hd
    · simp at hd
    · rename_i t f ht
      obtain ⟨rfl, -⟩ := Prod.mk.inj (Option.some.inj hd)
      have hord := crd.order_lt
      exact delegate_planted h (by omega) hb (by simp [Aligned]) ht

end Tukija.Create
