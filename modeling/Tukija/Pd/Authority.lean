import Tukija.Pd.Complete

/-! No node holds more than its parent. -/
namespace Tukija.Pd

open Tukija.Lib.Word Tukija.Lib.Ring Tukija.Mapdb

variable {σ : Type} {S : SpaceOps σ} {E : σ → σ → Prop} {st st' : State σ}
  {G L U : State σ → NodeId → Prop} {m : NodeId} {A B : List NodeId}

/-- The rights of a node are rights of its parent. -/
def Bounded (st : State σ) : Prop :=
  ∀ n p, st.Live n → (st.mdb n).prnt = some p →
    (st.mdb n).nodeAttr &&& ~~~(st.mdb p).nodeAttr = 0

/-- No child of `n` has a right that `remove_utcb` takes from `n`. -/
def ChildrenWithout (st : State σ) (n : NodeId) : Prop :=
  ∀ x < st.fresh, st.Live x → (st.mdb x).prnt = some n → (st.mdb x).nodeAttr &&& 0x3 = 0

instance (st : State σ) (n : NodeId) : Decidable (ChildrenWithout st n) :=
  inferInstanceAs (Decidable (∀ x < st.fresh, _))

def FiveBits (st : State σ) : Prop := ∀ n, st.Live n → (st.mdb n).nodeAttr &&& ~~~0x1f = 0

section Bits

variable {x y z r : Mword}

theorem getElem_of_and_not (h : x &&& ~~~y = 0) {i : Nat} (hi : i < 64) (hx : x[i] = true) :
    y[i] = true := by
  have := congrArg (fun v : Mword => v[i]) h
  simpa [hx] using this

theorem and_not_eq_zero (h : ∀ i (hi : i < 64), x[i] = true → y[i] = true) : x &&& ~~~y = 0 := by
  ext i hi
  cases hx : x[i] with
  | false => simp [hx]
  | true => simp [hx, h i hi hx]

theorem and_not_trans (h : x &&& ~~~y = 0) (h' : y &&& ~~~z = 0) : x &&& ~~~z = 0 :=
  and_not_eq_zero fun _ hi hx => getElem_of_and_not h' hi (getElem_of_and_not h hi hx)

theorem and_left_bounded (x y : Mword) : (x &&& y) &&& ~~~x = 0 := by
  apply and_not_eq_zero
  intro i hi hx
  simp at hx
  exact hx.1

theorem and_not_mono (h : x &&& ~~~y = 0) : (x &&& ~~~r) &&& ~~~(y &&& ~~~r) = 0 := by
  apply and_not_eq_zero
  intro i hi hx
  simp only [BitVec.getElem_and, BitVec.getElem_not, Bool.and_eq_true] at hx ⊢
  exact ⟨getElem_of_and_not h hi hx.1, hx.2⟩

theorem and_not_of_disjoint (h : x &&& ~~~y = 0) (hr : x &&& r = 0) : x &&& ~~~(y &&& ~~~r) = 0 := by
  have := and_not_mono (r := r) h
  rwa [and_not_of_and_eq_zero hr] at this

theorem and_eq_self_of_and_not (h : x &&& ~~~y = 0) : x &&& y = x := by
  have := and_not_of_and_eq_zero h
  rwa [BitVec.not_not] at this

end Bits

theorem Effect.fiveBits (h : Effect S E G L U st st') (hb : FiveBits st) (hw : Wf st) :
    FiveBits st' := by
  have hzero : ∀ x y : Mword, x &&& ~~~0x1f = 0 → (x &&& y) &&& ~~~0x1f = 0 := fun x y hx =>
    and_not_trans (and_left_bounded x y) hx
  have hdem : ∀ {n r}, Demoted st st' n r → FiveBits st' := by
    intro n r h x hx
    rw [h.attr x]
    split
    · exact hzero _ _ (hb n h.live)
    · exact hb x ((h.live_iff x).mp hx)
  have hdrop : ∀ {leaf n}, Dropped leaf st st' n → FiveBits st' := by
    intro leaf n h x hx
    rw [(h.node x).2]
    exact hb x ((h.live_iff hw x).mp hx).2
  cases h with
  | quiet h =>
    intro x hx
    rw [h.live hw] at hx
    rw [h.mdb x (hw.lt hx)]
    exact hb x hx
  | granted m n _ h =>
    intro x hx
    rcases (h.live hw x).mp hx with rfl | hx
    · obtain ⟨a, ha⟩ := h.attr
      rw [ha]
      exact hzero _ _ (hb m h.live_m)
    · rw [(h.old x (hw.lt hx)).2.1]
      exact hb x hx
  | rooted n h =>
    intro x hx
    rcases (h.live hw x).mp hx with rfl | hx
    · exact h.attr
    · rw [(h.old x (hw.lt hx)).2.1]
      exact hb x hx
  | demoted n r h _ => exact hdem h
  | stripped n _ h _ => exact hdem h
  | unlinked n h => exact hdrop h
  | lifted n _ _ h => exact hdrop h

theorem Quiet.bounded (h : Quiet E st st') (hb : Bounded st) (hp : Parent st) (hw : Wf st) :
    Bounded st' := by
  intro n p hn hnp
  rw [h.live hw] at hn
  rw [h.mdb n (hw.lt hn)] at hnp ⊢
  rw [h.mdb p (hw.lt (hp.live n p hn hnp))]
  exact hb n p hn hnp

theorem Granted.bounded {n : NodeId} (h : Granted S E st st' m n) (hb : Bounded st) (hp : Parent st)
    (hw : Wf st) : Bounded st' := by
  intro x p hx hxp
  rcases (h.live hw x).mp hx with rfl | hx
  · rw [h.prnt] at hxp
    obtain rfl := Option.some.inj hxp
    obtain ⟨a, ha⟩ := h.attr
    rw [ha, (h.old m (hw.lt h.live_m)).2.1]
    exact and_left_bounded _ _
  · rw [(h.old x (hw.lt hx)).2.2] at hxp
    rw [(h.old x (hw.lt hx)).2.1, (h.old p (hw.lt (hp.live x p hx hxp))).2.1]
    exact hb x p hx hxp

theorem Rooted.bounded {n : NodeId} (h : Rooted E st st' n) (hb : Bounded st) (hp : Parent st)
    (hw : Wf st) : Bounded st' := by
  intro x p hx hxp
  rcases (h.live hw x).mp hx with rfl | hx
  · rw [h.prnt] at hxp
    simp at hxp
  · rw [(h.old x (hw.lt hx)).2.2] at hxp
    rw [(h.old x (hw.lt hx)).2.1, (h.old p (hw.lt (hp.live x p hx hxp))).2.1]
    exact hb x p hx hxp

theorem Demoted.bounded {n : NodeId} {r : Mword} (h : Demoted st st' n r) (hb : Bounded st)
    (hchild : ∀ x, st.Live x → (st.mdb x).prnt = some n → (st.mdb x).nodeAttr &&& r = 0) :
    Bounded st' := by
  intro x p hx hxp
  rw [h.live_iff] at hx
  rw [(h.node x).2.2.2] at hxp
  have hxp' := hb x p hx hxp
  rw [h.attr x, h.attr p]
  by_cases hpn : p = n
  · subst hpn
    have hdis := and_not_of_disjoint hxp' (hchild x hx hxp)
    rw [if_pos rfl]
    split
    · rename_i hxn
      subst hxn
      exact and_not_trans (and_left_bounded _ _) hdis
    · exact hdis
  · rw [if_neg hpn]
    split
    · rename_i hxn
      subst hxn
      exact and_not_trans (and_left_bounded _ _) hxp'
    · exact hxp'

theorem Pruned.bounded {X : List NodeId} (h : Pruned st st' X) (hb : Bounded st) : Bounded st' := by
  intro x p hx hxp
  rw [(h.node x).2.2] at hxp
  rw [(h.node x).2.1, (h.node p).2.1]
  exact hb x p (h.live x hx) hxp

theorem Stripped.bounded {D : List NodeId} {r : Mword} (h : Stripped st st' D r) (hb : Bounded st)
    (hD : ∀ x p, st.Live x → (st.mdb x).prnt = some p → p ∈ D → x ∈ D) : Bounded st' := by
  intro x p hx hxp
  rw [h.live_iff] at hx
  have hprnt : (st'.mdb x).prnt = (st.mdb x).prnt := by rw [h.shape x]
  rw [hprnt] at hxp
  have hxp' := hb x p hx hxp
  rw [h.attr x, h.attr p]
  by_cases hp : p ∈ D
  · rw [if_pos hp, if_pos (hD x p hx hxp hp)]
    exact and_not_mono hxp'
  · rw [if_neg hp]
    split
    · exact and_not_trans (and_left_bounded _ _) hxp'
    · exact hxp'

section Pass

variable {b o attr : Mword} {self kim : Bool} {fuel : Nat}

theorem mem_flagged_of_parent {h : Heap} {f : Bool} {p n : NodeId} (u v w : List NodeId)
    (hnd : (u ++ p :: (v ++ n :: w)).Nodup) (hv : ∀ y ∈ v ++ [n], self = true ∨ (h y).prnt ≠ some m)
    (hp : p ∈ flagged h self m b o f (u ++ p :: (v ++ n :: w))) :
    n ∈ flagged h self m b o f (u ++ p :: (v ++ n :: w)) := by
  induction u generalizing f with
  | nil =>
    simp only [List.nil_append, flagged] at hp ⊢
    generalize (if (!self && (h p).prnt == some m) = true then _ else f) = g at hp ⊢
    cases g
    · exact absurd (flagged_subset (by simpa using hp)) (List.nodup_cons.mp hnd).1
    · exact List.mem_cons_of_mem _ (mem_flagged_of_no_child v w hv)
  | cons y u ih =>
    have hpy : p ≠ y := by
      rintro rfl
      exact (List.nodup_cons.mp hnd).1 (by simp)
    simp only [List.cons_append, flagged] at hp ⊢
    generalize (if (!self && (h y).prnt == some m) = true then _ else f) = g at hp ⊢
    cases g
    · exact ih (List.nodup_cons.mp hnd).2 (by simpa using hp)
    · apply List.mem_cons_of_mem
      apply ih (List.nodup_cons.mp hnd).2
      simpa [hpy] using hp

theorem mem_targets_of_prnt (hrun : Run st m A B) (ht : Tidy st) (hm : st.Live m) {x p : NodeId}
    (hx : st.Live x) (hxp : (st.mdb x).prnt = some p) (hp : p ∈ targets st.mdb self m b o A) : x ∈ targets st.mdb self m b o A := by
  have hpl := ht.parent.live x p hx hxp
  have hd := ht.parent.derived x p hx hxp
  unfold targets flaggedFrom at hp ⊢
  cases hf : (self && overlapsPart (st.mdb m) b o (st.mdb m)) with
  | true =>
    have hself : self = true := (Bool.and_eq_true_iff.mp hf).1
    simp only [hf, if_true] at hp ⊢
    have hxA : x ∈ A := by
      rcases List.mem_cons.mp hp with rfl | hp
      · exact hrun.mem_of_derived ht.stretch ht.rising hm hx hd
      · obtain ⟨u, v, w, rfl, -⟩ := hrun.split ht.stretch ht.rising (flagged_subset hp) hpl hx hd
        simp
    obtain ⟨v, w, rfl⟩ := List.append_of_mem hxA
    exact List.mem_cons_of_mem _ (mem_flagged_of_no_child v w fun _ _ => Or.inl hself)
  | false =>
    simp only [hf, Bool.false_eq_true, if_false] at hp ⊢
    have hpA := flagged_subset hp
    obtain ⟨u, v, w, rfl, hv⟩ := hrun.split ht.stretch ht.rising hpA hpl hx hd
    have hnd := hrun.ring.tail_nodup
    rw [List.nodup_append] at hnd
    apply mem_flagged_of_parent u v w hnd.1 _ hp
    intro y hy
    refine Or.inr fun hym => ?_
    have hdeep := hrun.deeper p hpA
    rcases ht.parent.nearest y m p (hv y hy).1 hym hpl (hv y hy).2 with rfl | hmp
    · omega
    · have := ht.rising.lt hmp
      omega

theorem Dropped.bounded_lift {st1 : State σ} (hst : Stripped st st1 [m] 0x1f)
    (h : Dropped false st1 st' m) (hb : Bounded st) (hp : Parent st) (hf : Forest st)
    (hw1 : Wf st1) (hone : OneChild st m) : Bounded st' := by
  have hattr : ∀ x, x ≠ m → (st'.mdb x).nodeAttr = (st.mdb x).nodeAttr := by
    intro x hx
    rw [(h.node x).2, hst.attr x]
    simp [hx]
  have hprnt : ∀ x, (st'.mdb x).prnt =
      if x = st.mdb.next m then (st.mdb m).prnt else (st.mdb x).prnt := by
    intro x
    rw [h.prnt x, (hst.natural_order m).2, hst.shape x, hst.shape m]
    simp
  intro x p hx hxp
  obtain ⟨hxm, hx1⟩ := (h.live_iff hw1 x).mp hx
  have hx' := (hst.live_iff x).mp hx1
  have hlt : x < st.fresh := by
    rw [← hst.fresh]
    exact hw1.lt hx1
  rw [hprnt] at hxp
  split at hxp
  · -- the child of `m`
    rename_i hxc
    have hm : (st.mdb x).prnt = some m := by
      rw [hxc]
      exact hone.1
    have hml := (hst.live_iff m).mp h.live
    have hpm : p ≠ m := by
      rintro rfl
      exact hf.irrefl p (hp.derived p p hml hxp)
    rw [hattr x hxm, hattr p hpm]
    exact and_not_trans (hb x m hx' hm) (hb m p hml hxp)
  · rename_i hxc
    have hpm : p ≠ m := by
      rintro rfl
      exact hxc (hone.2 x hlt hx' hxp)
    rw [hattr x hxm, hattr p hpm]
    exact hb x p hx' hxp

theorem revokeNode_bounded (hw : Wf st) (ht : Tidy st) (hb : Bounded st) (h5 : FiveBits st)
    (hm : st.Live m) (hone : keeps kim m st = true → OneChild st m)
    (h : revokeNode S fuel attr self kim m b o st = some (.next st')) : Bounded st' := by
  cases hk : keeps kim m st with
  | true =>
    have hst' : revokeKeep S m st = st' := by
      simpa [revokeNode, hk] using h
    have hst : Stripped st (demoteOne S 0x1f m st m) [m] 0x1f := demoteOne_stripped 0x1f m m
    have hzero : ((demoteOne S 0x1f m st m).mdb m).nodeAttr = 0 := by
      rw [hst.attr m]
      simpa using h5 m hm
    have hw1 := hst.wf hw
    have hd : Dropped false _ _ m :=
      remove_dropped hw1 ((hst.live_iff m).mpr hm) hzero (by simp)
    rw [← hst']
    exact hd.bounded_lift hst hb ht.parent ht.forest hw1 (hone hk)
  | false =>
    obtain ⟨A, B, hrun⟩ := hw.run hm
    obtain ⟨st'', heq, -, ⟨st1, hst, hpr⟩⟩ := revokeNode_revoked (E := fun _ _ => True) (G := Never)
      (L := Never) (U := Never) hw hm hrun hk h
    obtain rfl : st' = st'' := Ctl.next.inj heq
    exact hpr.bounded (hst.bounded hb fun x p hx hxp hp => mem_targets_of_prnt hrun ht hm hx hxp hp)

variable {this : PdId} {sndBase rcvBase sub ord : Mword} {s : Bool} {c : Ctl (State σ × Bool)}

theorem delegateNode_bounded (hE : S.Frame E) (hw : Wf st) (ht : Tidy st) (hb : Bounded st)
    (hm : st.Live m) (hs : Aligned ord.toNat sndBase) (hr : Aligned ord.toNat rcvBase)
    (hp : Part (st.mdb m) sndBase ord b o)
    (h : delegateNode S this sndBase rcvBase attr sub m b o (st, s) = some c) :
    Bounded c.val.1 := by
  have hnat := hw.natural m hm
  have hx : (childOf S this sndBase rcvBase sub (st.mdb m) st.fresh b o).Natural :=
    childOf_natural hnat hs hr hp
  cases hg : grants S this sndBase rcvBase attr sub m b o st with
  | false =>
    obtain ⟨st', hq, ⟨-, h'⟩ | ⟨-, h'⟩⟩ := delegateNode_of_not_grants (s := s) hE hw hx (hw.lt hm) hg
    · rw [h'] at h
      obtain rfl := Option.some.inj h
      exact hq.bounded hb ht.parent hw
    · rw [h'] at h
      obtain rfl := Option.some.inj h
      exact hq.bounded hb ht.parent hw
  | true =>
    obtain ⟨tree, htree, ha, f, g, h'⟩ := delegateNode_of_grants (s := s) hg (hw.lt hm)
    have hgr : Granted S E st (st.grant S this _ tree m attr) m st.fresh :=
      grant_granted hE hw hm hx (childOf_within hnat hp) rfl rfl htree ha
    have hb1 := hgr.bounded hb ht.parent hw
    rw [h'] at h
    split at h
    · obtain rfl := Option.some.inj h
      generalize State.grant S this _ tree m attr st = st1 at hgr hb1
      have hw1 := hgr.wf hw
      have hp1 := hgr.parent ht.parent ht.forest hw
      have hlive : st1.Live st.fresh := (hgr.live hw _).mpr (Or.inl rfl)
      have hdem : Demoted st1 (st1.demote S st.fresh attr) st.fresh attr := demote_demoted hlive
      have hb2 : Bounded (st1.demote S st.fresh attr) := by
        apply hdem.bounded hb1
        intro x hx hxp
        exact absurd (hp1.derived x _ hx hxp) (hgr.not_derived ht.forest hw hx)
      exact (remove_pruned (hdem.wf hw1) ((hdem.live_iff _).mpr hlive)).bounded hb2
    · obtain rfl := Option.some.inj h
      exact hb1

end Pass

structure Lawful (st : State σ) : Prop where
  wf : Wf st
  tidy : Tidy st
  fiveBits : FiveBits st
  bounded : Bounded st

theorem Steps.lawful (h : Steps S E G L U st st') (hG : ∀ st m, G st m → NoWrap st m)
    (hL : ∀ st m, L st m → OneChild st m) (hl : Lawful st) (hb : Bounded st') : Lawful st' := by
  obtain ⟨hw, ht, h5⟩ := h.invariant (I := fun st => Tidy st ∧ FiveBits st)
    (fun _ _ hw hi he => ⟨he.tidy hG hL hi.1 hw, he.fiveBits hi.2 hw⟩) hl.wf ⟨hl.tidy, hl.fiveBits⟩
  exact ⟨hw, ht, h5, hb⟩

theorem exec_lawful {fuel : Nat} {op : Op} (hE : S.Frame E) (hl : Lawful st)
    (hm : Meets S NoWrap OneChild ChildrenWithout fuel op st) (h : exec S fuel op st = some st') :
    Lawful st' := by
  have hL := stable_oneChild (σ := σ)
  have hsteps : Steps S E NoWrap OneChild ChildrenWithout st st' := exec_steps hE hL hl.wf hm h
  apply hsteps.lawful (fun _ _ h => h) (fun _ _ h => h) hl
  cases op with
  | delegate this snd sndBase rcvBase ord attr sub =>
    obtain ⟨r, hr, rfl⟩ := Option.map_eq_some_iff.mp h
    obtain ⟨ho, hs, hrb, hall⟩ := hm
    have hwalk : ∀ c, walkRange Prod.fst snd sndBase ord
        (delegateNode S this sndBase rcvBase attr sub) fuel sndBase (st, false) = some c →
        Bounded c.val.1 := by
      intro c hc
      apply walkRange_rule (fun _ t => Lawful t.1) (fun c => Bounded c.val.1) _ _ _ hl hall hc
      · exact fun addr t hinv _ => hinv.bounded
      · intro addr t m b o t' hinv hv hG hb
        exact delegateNode_bounded hE hinv.wf hinv.tidy hinv.bounded (hv.live hinv.wf) hs hrb
          (hv.part hinv.wf ho hs) hb
      · intro addr t m b o t' hinv hv hG hb
        have hbt := delegateNode_bounded hE hinv.wf hinv.tidy hinv.bounded (hv.live hinv.wf) hs hrb
          (hv.part hinv.wf ho hs) hb
        have hst : Steps S E NoWrap OneChild ChildrenWithout t.1 t'.1 :=
          delegateNode_steps hE hinv.wf (hv.live hinv.wf) hs hrb (hv.part hinv.wf ho hs) hG hb
        exact hst.lawful (fun _ _ h => h) (fun _ _ h => h) hinv hbt
    unfold delegate at hr
    split at hr
    · simp at hr
    · rename_i t hc
      obtain rfl := Option.some.inj hr
      exact hwalk _ hc
    · rename_i t hc
      split at hr
      · obtain rfl := Option.some.inj hr
        exact hwalk _ hc
      · obtain rfl := Option.some.inj hr
        exact hwalk _ hc
  | revoke pd base ord attr self kim =>
    have hwalk : ∀ c, walkRange id pd base ord (revokeNode S fuel attr self kim) fuel base st =
        some c → Bounded c.val := by
      intro c hc
      apply walkRange_rule (fun _ t => Lawful t) (fun c => Bounded c.val) _ _ _ hl hm hc
      · exact fun addr t hinv _ => hinv.bounded
      · intro addr t m b o t' hinv hv hone hb
        exact absurd hb (revokeNode_ne_ret (hv.live hinv.wf) hinv.wf)
      · intro addr t m b o t' hinv hv hone hb
        have hbt := revokeNode_bounded hinv.wf hinv.tidy hinv.bounded hinv.fiveBits
          (hv.live hinv.wf) hone hb
        have hst : Steps S E NoWrap OneChild ChildrenWithout t t' :=
          revokeNode_steps hL hinv.wf (hv.live hinv.wf) hone hb
        exact hst.lawful (fun _ _ h => h) (fun _ _ h => h) hinv hbt
    simp only [exec, revoke] at h
    split at h
    · simp at h
    · rename_i t hc
      obtain rfl := Option.some.inj h
      exact hwalk _ hc
    · rename_i t hc
      split at h
      · obtain rfl := Option.some.inj h
        exact hwalk _ hc
      · obtain rfl := Option.some.inj h
        exact hwalk _ hc
  | insertRoot pd phys base order attr type =>
    obtain rfl := Option.some.inj h
    rcases insertRoot_cases hE hl.wf hm with ⟨-, h⟩ | ⟨-, h, -⟩
    · exact h.bounded hl.bounded hl.tidy.parent hl.wf
    · exact h.bounded hl.bounded hl.tidy.parent hl.wf
  | removeUtcb pd b =>
    obtain rfl := Option.some.inj h
    unfold removeUtcb
    split
    · exact hl.bounded
    · rename_i hb0
      split
      · exact hl.bounded
      · rename_i n hn
        have hlive := hl.wf.live_of_mem (lookup_mem hn)
        have hd := strip_demoted (r := 0x3) hlive
        have hb1 := hd.bounded hl.bounded fun x hx hxp => hm hb0 n hn x (hl.wf.lt hx) hx hxp
        exact (remove_pruned (hd.wf hl.wf) ((hd.live_iff n).mpr hlive)).bounded hb1

theorem Lawful.boot (space : σ) : Lawful (Pd.boot space) where
  wf := Wf.boot space
  tidy := Tidy.boot space
  fiveBits n hn := by simp [Pd.boot, State.Live] at hn
  bounded n p hn := by simp [Pd.boot, State.Live] at hn

theorem Reach.lawful (hE : S.Frame E) (h : Reach S E NoWrap OneChild ChildrenWithout st) :
    Lawful st := by
  induction h with
  | boot space => exact Lawful.boot space
  | @env st space oom iommu preemption _ he ih =>
    have hq : Quiet E st
        { st with space := space, oom := oom, iommu := iommu, preemption := preemption } :=
      ⟨he, fun _ _ => rfl, le_rfl, rfl, rfl⟩
    have hs : Steps S E NoWrap OneChild ChildrenWithout _ _ := .single (.quiet hq)
    exact hs.lawful (fun _ _ h => h) (fun _ _ h => h) ih (hq.bounded ih.bounded ih.tidy.parent ih.wf)
  | call op fuel _ hm he ih => exact exec_lawful hE ih hm he

/-- `x` has no right and no physical index that `y` does not have. -/
structure Contained (x y : Mdb) : Prop where
  attr : x.nodeAttr &&& y.nodeAttr = x.nodeAttr
  first : y.nodePhys.toNat ≤ x.nodePhys.toNat
  last : x.nodePhys.toNat + 2 ^ x.nodeOrder.toNat ≤ y.nodePhys.toNat + 2 ^ y.nodeOrder.toNat

/-- Over any number of parents, nobody holds more than was granted. -/
theorem reach_contained (hE : S.Frame E) (h : Reach S E NoWrap OneChild ChildrenWithout st) :
    ∀ n p, st.Live n → PrntChain st n p → Contained (st.mdb n) (st.mdb p) := by
  obtain ⟨hw, ht, -, hb⟩ := h.lawful hE
  have hone : ∀ n p, st.Live n → (st.mdb n).prnt = some p →
      st.Live p ∧ Contained (st.mdb n) (st.mdb p) := by
    intro n p hn hnp
    have hp := ht.parent.live n p hn hnp
    have hin := (ht.forest.within_of_derived (ht.parent.derived n p hn hnp)).le
      (hw.natural n hn) (hw.natural p hp)
    exact ⟨hp, and_eq_self_of_and_not (hb n p hn hnp), hin.1, hin.2⟩
  intro n p hn hchain
  induction hchain using Relation.TransGen.head_induction_on with
  | single hnp => exact (hone _ _ hn hnp).2
  | head hnq _ ih =>
    obtain ⟨hq, h1⟩ := hone _ _ hn hnq
    have h2 := ih hq
    refine ⟨?_, h2.first.trans h1.first, h1.last.trans h2.last⟩
    rw [← h1.attr, BitVec.and_assoc, h2.attr]

theorem reach_contained_liftOneChild :
    ∃ st, execAll bareSpace 10 liftOneChild (boot ()) = some st ∧
      Contained (st.mdb 2) (st.mdb 0) := by
  have hrun : ((execAll bareSpace 10 liftOneChild (boot ())).map fun st =>
      (decide (st.Live 2), (st.mdb 2).prnt)) = some (true, some 0) := by decide +kernel
  obtain ⟨st, hst, hval⟩ := Option.map_eq_some_iff.mp hrun
  simp only [Prod.mk.injEq, decide_eq_true_eq] at hval
  have hreach : Reach bareSpace (fun _ _ => True) NoWrap OneChild ChildrenWithout st :=
    Reach.execAll (.boot ()) (by decide +kernel) hst
  exact ⟨st, hst, reach_contained bareSpace_frame hreach 2 0 hval.1 (.single hval.2)⟩

/-- A page that a domain has passed on is used for a UTCB, which is then
removed: the receiver keeps the rights that the domain has lost. -/
def utcbOverGrant : List Op :=
  [.insertRoot 1 16 16 0 0x1f 0, .delegate 2 1 16 16 0 7 0, .removeUtcb 1 0x10000]

theorem utcbOverGrant_exceeds :
    ¬∀ st, AnyReach bareSpace (fun _ _ => True) st →
      ∀ n p, st.Live n → PrntChain st n p → Contained (st.mdb n) (st.mdb p) := by
  intro hall
  have hrun : ((execAll bareSpace 10 utcbOverGrant (boot ())).map fun st =>
      (decide (st.Live 1), (st.mdb 1).prnt, (st.mdb 1).nodeAttr, (st.mdb 0).nodeAttr)) =
        some (true, some 0, 7, 0x1c) := by decide +kernel
  obtain ⟨st, hst, hval⟩ := Option.map_eq_some_iff.mp hrun
  simp only [Prod.mk.injEq, decide_eq_true_eq] at hval
  obtain ⟨hlive, hprnt, h1, h0⟩ := hval
  have hreach : AnyReach bareSpace (fun _ _ => True) st :=
    AnyReach.execAll (.boot ()) (by decide) hst
  have := (hall st hreach 1 0 hlive (.single hprnt)).attr
  rw [h1, h0] at this
  exact absurd this (by decide)

end Tukija.Pd
