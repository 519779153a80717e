import Tukija.Pd.Exact

/-! What the hardware sees of a space against the nodes of its tree, for any kind of space whose
`update` writes down what a node grants. -/
namespace Tukija.Pd

open Tukija.Lib.Word Tukija.Mapdb

/-- What the hardware sees of a domain at an index, what a node with some rights grants at an index
that it covers, and which indices there are. -/
structure View (σ V : Type) where
  see : σ → PdId → Mword → V
  nothing : V
  grant : Mdb → Mword → Mword → V
  index : Mword → Prop

variable {σ V : Type} {S : SpaceOps σ} {E : σ → σ → Prop} {W : View σ V} {st st' : State σ} {n m : NodeId}

/-- `update` writes what the node grants, wherever the hardware saw that already or saw nothing. -/
structure View.Lawful (W : View σ V) (S : SpaceOps σ) (E : σ → σ → Prop) : Prop where
  frame : ∀ s s', E s s' → W.see s' = W.see s
  zero : ∀ x i, W.grant x 0 i = W.nothing
  same : ∀ x y a i, SameNode x y → W.grant x a i = W.grant y a i
  update : ∀ (x : Mdb) (r : Mword) (s : σ), x.Natural → (∀ j, x.covers j = true → W.index j) →
    (x.space ≠ kern → ∀ j, x.covers j = true →
      W.see s x.space j = W.nothing ∨ W.see s x.space j = W.grant x x.nodeAttr j) →
    ∀ pd i, pd ≠ kern → W.index i → W.see (S.update x r s).1 pd i =
      if pd = x.space ∧ x.covers i = true then W.grant x (x.nodeAttr &&& ~~~r) i else W.see s pd i

theorem SameNode.covers {x y : Mdb} (h : SameNode x y) (i : Mword) : x.covers i = y.covers i := by
  rw [Mdb.covers, Mdb.covers, h.base, h.order]

/-- The hardware sees what the nodes grant, and nothing where there is no node. -/
structure Shown (W : View σ V) (st : State σ) : Prop where
  index : ∀ n, st.Live n → ∀ i, (st.mdb n).covers i = true → W.index i
  full : ∀ n, st.Live n → (st.mdb n).space ≠ kern → ∀ i, (st.mdb n).covers i = true →
    W.see st.space (st.mdb n).space i = W.grant (st.mdb n) (st.mdb n).nodeAttr i
  empty : ∀ pd i, pd ≠ kern → W.index i → (∀ n ∈ st.tree pd, (st.mdb n).covers i = false) →
    W.see st.space pd i = W.nothing

theorem Wf.lookup_covers (hw : Wf st) {pd : PdId} {i : Mword} :
    st.lookup pd i false = some m ↔ m ∈ st.tree pd ∧ (st.mdb m).covers i = true := by
  rw [hw.lookup_iff]
  constructor
  · rintro ⟨hm, hi⟩
    exact ⟨hm, ((hw.natural_of_mem m hm).covers_iff i).mpr hi⟩
  · rintro ⟨hm, hi⟩
    exact ⟨hm, ((hw.natural_of_mem m hm).covers_iff i).mp hi⟩

theorem Wf.eq_of_covers (hw : Wf st) (hn : st.Live n) (hm : st.Live m)
    (hs : (st.mdb n).space = (st.mdb m).space) {i : Mword} (hni : (st.mdb n).covers i = true)
    (hmi : (st.mdb m).covers i = true) : n = m := by
  have h1 : st.lookup (st.mdb n).space i false = some n := hw.lookup_covers.mpr ⟨hn, hni⟩
  have h2 : st.lookup (st.mdb m).space i false = some m := hw.lookup_covers.mpr ⟨hm, hmi⟩
  rw [hs, h2] at h1
  exact (Option.some.inj h1).symm

theorem Shown.see (h : Shown W st) (hw : Wf st) {pd : PdId} {i : Mword} (hpd : pd ≠ kern) (hi : W.index i) :
    W.see st.space pd i = match st.lookup pd i false with
      | some n => W.grant (st.mdb n) (st.mdb n).nodeAttr i
      | none => W.nothing := by
  cases hl : st.lookup pd i false with
  | some n =>
    obtain ⟨hn, hc⟩ := hw.lookup_covers.mp hl
    have hs := (hw.mem pd n hn).1
    have hfull := h.full n (hw.live_of_mem hn) (by rwa [hs]) i hc
    rwa [hs] at hfull
  | none =>
    apply h.empty pd i hpd hi
    intro n hn
    by_contra hc
    rw [hw.lookup_covers.mpr ⟨hn, by simpa using hc⟩] at hl
    exact absurd hl (by simp)

theorem Shown.boot (W : View σ V) (space : σ) (h : ∀ pd i, W.see space pd i = W.nothing) :
    Shown W (Pd.boot space) where
  index n hn := by simp [Pd.boot, State.Live] at hn
  full n hn := by simp [Pd.boot, State.Live] at hn
  empty pd i _ _ _ := h pd i

section Changes

variable (hW : W.Lawful S E)
include hW

theorem Shown.quiet (h : Shown W st) (hw : Wf st) (hq : Quiet E st st') : Shown W st' := by
  have hsee := hW.frame _ _ hq.space
  have hold : ∀ n, st'.Live n → st.Live n ∧ st'.mdb n = st.mdb n := by
    intro n hn
    have hn' := (hq.live hw n).mp hn
    exact ⟨hn', hq.mdb n (hw.lt hn')⟩
  constructor
  · intro n hn
    rw [(hold n hn).2]
    exact h.index n (hold n hn).1
  · intro n hn
    rw [(hold n hn).2, hsee]
    exact h.full n (hold n hn).1
  · intro pd i hpd hi hfree
    rw [hsee]
    apply h.empty pd i hpd hi
    intro n hn
    rw [← hq.mdb n (hw.mem pd n hn).2]
    exact hfree n (by rw [hq.tree]; exact hn)

theorem Shown.added (h : Shown W st) (hw : Wf st) (hw' : Wf st') (ha : Added st st' n)
    (hindex : ∀ i, (st'.mdb n).covers i = true → W.index i)
    (hs : (∃ s, E st.space s ∧ st'.space = (S.update (st'.mdb n) 0 s).1) ∨
      (st'.mdb n).space = kern ∧ E st.space st'.space) : Shown W st' := by
  have hlive := ha.live hw
  have hnew : st'.Live n := (hlive n).mpr (Or.inl rfl)
  have hold : ∀ x, st.Live x → SameNode (st'.mdb x) (st.mdb x) ∧
      (st'.mdb x).nodeAttr = (st.mdb x).nodeAttr :=
    fun x hx => ⟨(ha.old x (hw.lt hx)).1, (ha.old x (hw.lt hx)).2.1⟩
  have hback : ∀ pd x, x ∈ st.tree pd → x ∈ st'.tree pd := by
    intro pd x hx
    have hx' := (hlive x).mpr (Or.inr (hw.live_of_mem hx))
    unfold State.Live at hx'
    rwa [(hold x (hw.live_of_mem hx)).1.space, (hw.mem pd x hx).1] at hx'
  -- the place of the new node was free
  have hfree : ∀ i, (st'.mdb n).covers i = true → ∀ x ∈ st.tree (st'.mdb n).space, (st.mdb x).covers i = false := by
    intro i hi x hx
    by_contra hc
    have hxs := hw.live_of_mem hx
    have hxc : (st'.mdb x).covers i = true := by
      rw [(hold x hxs).1.covers]
      simpa using hc
    have hsp : (st'.mdb x).space = (st'.mdb n).space := (hold x hxs).1.space.trans (hw.mem _ x hx).1
    have hxn := hw'.eq_of_covers ((hlive x).mpr (Or.inr hxs)) hnew hsp hxc hi
    exact absurd (hxn ▸ hw.lt hxs) (by rw [ha.fresh]; exact lt_irrefl _)
  have hsee : ∀ pd i, pd ≠ kern → W.index i → W.see st'.space pd i =
      if pd = (st'.mdb n).space ∧ (st'.mdb n).covers i = true then W.grant (st'.mdb n) (st'.mdb n).nodeAttr i
      else W.see st.space pd i := by
    intro pd i hpd hi
    rcases hs with ⟨s, hE, hs⟩ | ⟨hk, hE⟩
    · rw [hs, hW.update _ _ _ (hw'.natural n hnew) hindex ?_ pd i hpd hi, and_not_zero, hW.frame _ _ hE]
      intro hk j hj
      rw [hW.frame _ _ hE]
      exact .inl (h.empty _ j hk (hindex j hj) (hfree j hj))
    · rw [hW.frame _ _ hE, if_neg]
      rintro ⟨rfl, -⟩
      exact hpd hk
  have hidx : ∀ x, st'.Live x → ∀ i, (st'.mdb x).covers i = true → W.index i := by
    intro x hx i hi
    rcases (hlive x).mp hx with rfl | hxs
    · exact hindex i hi
    · rw [(hold x hxs).1.covers] at hi
      exact h.index x hxs i hi
  refine ⟨hidx, fun x hx hk i hi => ?_, fun pd i hpd hi hno => ?_⟩
  · rw [hsee _ i hk (hidx x hx i hi)]
    split
    · rename_i heq
      obtain rfl := hw'.eq_of_covers hx hnew heq.1 hi heq.2
      rfl
    · rename_i hne
      rcases (hlive x).mp hx with rfl | hxs
      · exact absurd ⟨rfl, hi⟩ hne
      · obtain ⟨hsame, hattr⟩ := hold x hxs
        rw [hsame.space] at hk ⊢
        rw [hsame.covers] at hi
        rw [hattr, hW.same _ _ _ _ hsame]
        exact h.full x hxs hk i hi
  · rw [hsee pd i hpd hi, if_neg]
    · apply h.empty pd i hpd hi
      intro x hx
      rw [← (hold x (hw.live_of_mem hx)).1.covers]
      exact hno x (hback pd x hx)
    · rintro ⟨rfl, hc⟩
      rw [hno n hnew] at hc
      exact absurd hc (by decide)

theorem Shown.demoted {r : Mword} (h : Shown W st) (hw : Wf st) (hd : Demoted st st' n r)
    (hs : st'.space = (S.update (st.mdb n) r st.space).1) : Shown W st' := by
  have hsame : ∀ x, SameNode (st'.mdb x) (st.mdb x) := fun x => (hd.node x).1
  have hsee := fun pd i hpd hi => hW.update (st.mdb n) r st.space (hw.natural n hd.live) (h.index n hd.live)
    (fun hk j hj => .inr (h.full n hd.live hk j hj)) pd i hpd hi
  rw [← hs] at hsee
  refine ⟨fun x hx i hi => ?_, fun x hx hk i hi => ?_, fun pd i hpd hi hno => ?_⟩
  · rw [(hsame x).covers] at hi
    exact h.index x ((hd.live_iff x).mp hx) i hi
  · have hxs := (hd.live_iff x).mp hx
    rw [(hsame x).covers] at hi
    rw [(hsame x).space] at hk ⊢
    rw [hW.same _ _ _ _ (hsame x), hd.attr x, hsee _ i hk (h.index x hxs i hi)]
    by_cases hxn : x = n
    · subst hxn
      rw [if_pos ⟨rfl, hi⟩, if_pos rfl]
    · have hne : ¬((st.mdb x).space = (st.mdb n).space ∧ (st.mdb n).covers i = true) :=
        fun heq => hxn (hw.eq_of_covers hxs hd.live heq.1 hi heq.2)
      rw [if_neg hne, if_neg hxn]
      exact h.full x hxs hk i hi
  · have hno' : ∀ x ∈ st.tree pd, (st.mdb x).covers i = false := by
      intro x hx
      rw [← (hsame x).covers]
      apply hno
      rwa [hd.tree]
    rw [hsee pd i hpd hi, if_neg]
    · exact h.empty pd i hpd hi hno'
    · rintro ⟨rfl, hc⟩
      rw [hno' n hd.live] at hc
      exact absurd hc (by decide)

theorem Shown.dropped {leaf : Bool} (h : Shown W st) (hw : Wf st) (hd : Dropped leaf st st' n) :
    Shown W st' := by
  have hsame : ∀ x, SameNode (st'.mdb x) (st.mdb x) := fun x => (hd.node x).1
  refine ⟨fun x hx i hi => ?_, fun x hx hk i hi => ?_, fun pd i hpd hi hno => ?_⟩
  · rw [(hsame x).covers] at hi
    exact h.index x ((hd.live_iff hw x).mp hx).2 i hi
  · rw [(hsame x).covers] at hi
    rw [(hsame x).space] at hk ⊢
    rw [hW.same _ _ _ _ (hsame x), (hd.node x).2, hd.space]
    exact h.full x ((hd.live_iff hw x).mp hx).2 hk i hi
  · rw [hd.space]
    by_cases hn : pd = (st.mdb n).space ∧ (st.mdb n).covers i = true
    · -- a node without rights granted nothing
      obtain ⟨rfl, hc⟩ := hn
      rw [h.full n hd.live hpd i hc, hd.attr, hW.zero]
    · apply h.empty pd i hpd hi
      intro x hx
      have hxs := hw.live_of_mem hx
      have hpx := (hw.mem pd x hx).1
      by_cases hxn : x = n
      · subst hxn
        by_contra hc
        exact hn ⟨hpx.symm, by simpa using hc⟩
      · rw [← (hsame x).covers]
        apply hno x
        have hlive := (hd.live_iff hw x).mpr ⟨hxn, hxs⟩
        unfold State.Live at hlive
        rwa [(hsame x).space, hpx] at hlive

end Changes

section Calls

variable {attr b o : Mword} {self kim : Bool} {fuel : Nat} {pd : PdId} {base ord : Mword} (hW : W.Lawful S E)
include hW

theorem Shown.demoteOne (h : Shown W st) (hw : Wf st) (hn : st.Live n) :
    Shown W (Pd.demoteOne S attr m st n) := by
  unfold Pd.demoteOne
  split
  · generalize (st.iommu || ((st.mdb m).nodeSub &&& 1 != 0)) = iommu
    have hd : Demoted { st with iommu := iommu } (State.demote S n attr { st with iommu := iommu }) n attr :=
      demote_demoted hn
    have hd' : Demoted st (State.demote S n attr { st with iommu := iommu }) n attr :=
      ⟨hd.live, hd.fresh, hd.node, hd.attr, hd.tree, hd.orig⟩
    exact h.demoted hW hw hd' rfl
  · exact h

theorem Shown.demoteAll (D : List NodeId) (st : State σ) (h : Shown W st) (hw : Wf st)
    (hD : ∀ x ∈ D, st.Live x) : Shown W (D.foldl (Pd.demoteOne S attr m) st) := by
  induction D generalizing st with
  | nil => exact h
  | cons n D ih =>
    have hst : Stripped st (Pd.demoteOne S attr m st n) [n] attr := demoteOne_stripped attr m n
    apply ih _ (h.demoteOne hW hw (hD n (by simp))) (hst.wf hw)
    intro x hx
    exact (hst.live_iff x).mpr (hD x (by simp [hx]))

theorem Shown.remove {leaf : Bool} (h : Shown W st) (hw : Wf st) (hn : st.Live n) :
    Shown W (st.remove n leaf) := by
  by_cases hc : (st.mdb n).nodeAttr = 0 ∧
      (leaf = true → (st.mdb (st.mdb.next n)).dpth ≤ (st.mdb n).dpth)
  · exact h.dropped hW hw (remove_dropped hw hn hc.1 hc.2)
  · rw [remove_eq_self hc]
    exact h

theorem Shown.revokeNode (h : Shown W st) (hw : Wf st) (hm : st.Live m)
    (hb : Pd.revokeNode S fuel attr self kim m b o st = some (.next st')) : Shown W st' := by
  cases hk : keeps kim m st with
  | true =>
    have hst' : revokeKeep S m st = st' := by
      simpa [Pd.revokeNode, hk] using hb
    have hst : Stripped st (Pd.demoteOne S 0x1f m st m) [m] 0x1f := demoteOne_stripped 0x1f m m
    rw [← hst']
    exact (h.demoteOne hW hw hm).remove hW (hst.wf hw) ((hst.live_iff m).mpr hm)
  | false =>
    obtain ⟨A, B, hrun⟩ := hw.run hm
    obtain ⟨st1, hst1, hst, hlive, hc⟩ := revokeNode_halves hw hm hrun hk hb
    have h1 : Shown W st1 := by
      rw [← hst1]
      exact h.demoteAll hW _ st hw fun x hx => hrun.live hw hm x (flaggedFrom_subset hx)
    rw [Ctl.next.inj hc]
    exact removeAll_rel (R := fun st st' => Shown W st → Shown W st') (fun _ _ h => h)
      (fun _ _ _ h h' hs => h' (h hs)) (fun _ _ hw hn hs => hs.remove hW hw hn)
      _ _ (hst.wf hw) hlive hrun.nodup h1

theorem Shown.revoke (h : Shown W st) (hw : Wf st)
    (hr : Pd.revoke S fuel pd base ord attr self kim st = some st') : Wf st' ∧ Shown W st' := by
  have hwalk : ∀ c, walkRange id pd base ord (Pd.revokeNode S fuel attr self kim) fuel base st = some c →
      Wf c.val ∧ Shown W c.val := by
    intro c hc
    apply walkRange_rule (fun _ t => Wf t ∧ Shown W t) (fun c => Wf c.val ∧ Shown W c.val) _ _ _
      ⟨hw, h⟩ (walkAll_of_forall (fun _ _ _ _ => trivial) _ _ _) hc
    · intro addr t hinv _
      exact hinv
    · intro addr t m b o t' hinv hv _ hb
      exact absurd hb (revokeNode_ne_ret (hv.live hinv.1) hinv.1)
    · intro addr t m b o t' hinv hv _ hb
      have hm := hv.live hinv.1
      have hsteps : Steps S E (fun _ _ => True) (fun _ _ => True) (fun _ _ => True) t t' :=
        revokeNode_steps (fun _ _ _ _ _ _ h => h) hinv.1 hm (fun _ => trivial) hb
      exact ⟨hsteps.wf hinv.1, hinv.2.revokeNode hW hinv.1 hm hb⟩
  unfold Pd.revoke at hr
  split at hr
  · simp at hr
  · rename_i t hc
    obtain rfl := Option.some.inj hr
    exact hwalk _ hc
  · rename_i t hc
    obtain ⟨hwt, ht⟩ := hwalk _ hc
    split at hr
    · obtain rfl := Option.some.inj hr
      exact ⟨⟨hwt.mem, hwt.ordered, hwt.natural, hwt.ring⟩, ⟨ht.index, ht.full, ht.empty⟩⟩
    · obtain rfl := Option.some.inj hr
      exact ⟨hwt, ht⟩

variable {this snd : PdId} {sndBase rcvBase sub : Mword} {s : Bool}

theorem Shown.delegateNode {c : Ctl (State σ × Bool)} (hE : S.Frame E) (h : Shown W st) (hw : Wf st)
    (hm : st.Live m) (hs : Aligned ord.toNat sndBase) (hr : Aligned ord.toNat rcvBase)
    (hp : Part (st.mdb m) sndBase ord b o)
    (hindex : ∀ i, (childOf S this sndBase rcvBase sub (st.mdb m) st.fresh b o).covers i = true → W.index i)
    (hb : Pd.delegateNode S this sndBase rcvBase attr sub m b o (st, s) = some c) : Shown W c.val.1 := by
  have hnat := hw.natural m hm
  have hx : (childOf S this sndBase rcvBase sub (st.mdb m) st.fresh b o).Natural := childOf_natural hnat hs hr hp
  cases hg : grants S this sndBase rcvBase attr sub m b o st with
  | false =>
    obtain ⟨st', hq, ⟨-, h'⟩ | ⟨-, h'⟩⟩ := delegateNode_of_not_grants (s := s) hE hw hx (hw.lt hm) hg
    · rw [h'] at hb
      obtain rfl := Option.some.inj hb
      exact h.quiet hW hw hq
    · rw [h'] at hb
      obtain rfl := Option.some.inj hb
      exact h.quiet hW hw hq
  | true =>
    obtain ⟨tree, htree, ha, f, g, h'⟩ := delegateNode_of_grants (s := s) hg (hw.lt hm)
    have hgr : Granted S E st (st.grant S this _ tree m attr) m st.fresh :=
      grant_granted hE hw hm hx (childOf_within hnat hp) rfl rfl htree ha
    have hnew : SameNode ((st.grant S this
        (childOf S this sndBase rcvBase sub (st.mdb m) st.fresh b o) tree m attr).mdb st.fresh)
          (childOf S this sndBase rcvBase sub (st.mdb m) st.fresh b o) := (grant_new hw hm ha).1
    rw [h'] at hb
    generalize State.grant S this _ tree m attr st = st1 at hgr hnew hb
    have hw1 := hgr.wf hw
    have h1 : Shown W st1 := by
      refine h.added hW hw hw1 hgr.toAdded (fun i hi => ?_) (.inl hgr.space)
      rw [hnew.covers] at hi
      exact hindex i hi
    split at hb
    · obtain rfl := Option.some.inj hb
      have hlive : st1.Live st.fresh := (hgr.live hw _).mpr (Or.inl rfl)
      have hdem : Demoted st1 (st1.demote S st.fresh attr) st.fresh attr := demote_demoted hlive
      exact (h1.demoted hW hw1 hdem rfl).remove hW (hdem.wf hw1) ((hdem.live_iff _).mpr hlive)
    · obtain rfl := Option.some.inj hb
      exact h1

omit hW in
theorem childOf_covers {x : Mdb} (hx : x.Natural) (hp : Part x base ord b o)
    {i : Mword} (hi : (childOf S this base base sub x n b o).covers i = true) : x.covers i = true := by
  have hlt : o.toNat < 64 := by
    rw [hp.order]
    exact (min_le_left _ _).trans_lt hx.order_lt
  have hbase : (childOf S this base base sub x n b o).nodeBase = b := BitVec.sub_add_cancel b base
  have hbi : SameBlock o.toNat b i := by
    rw [Mdb.covers, beq_iff_eq, shr_xor_eq_zero, hbase] at hi
    rwa [← mod_64_eq hlt]
  rw [Mdb.covers, beq_iff_eq, shr_xor_eq_zero, mod_64_eq hx.order_lt]
  refine hp.node.trans (hbi.mono ?_)
  rw [hp.order]
  exact min_le_left _ _

theorem Shown.delegate {r : State σ × Bool} (hE : S.Frame E) (h : Shown W st) (hw : Wf st)
    (ho : ord.toNat < 64) (hs : Aligned ord.toNat base)
    (hd : Pd.delegate S fuel this snd base base ord attr sub st = some r) : Wf r.1 ∧ Shown W r.1 := by
  have hpass : ∀ addr (t : State σ × Bool) m b o c, Wf t.1 ∧ Shown W t.1 →
      Visits Prod.fst snd base ord addr t m b o →
      Pd.delegateNode S this base base attr sub m b o t = some c → Wf c.val.1 ∧ Shown W c.val.1 := by
    intro addr t m b o c hinv hv hb
    have hm := hv.live hinv.1
    have hp := hv.part hinv.1 ho hs
    have hsteps : Steps S E (fun _ _ => True) (fun _ _ => True) (fun _ _ => True) t.1 c.val.1 :=
      delegateNode_steps hE hinv.1 hm hs hs hp (fun _ => trivial) hb
    refine ⟨hsteps.wf hinv.1, hinv.2.delegateNode hW hE hinv.1 hm hs hs hp (fun i hi => ?_) hb⟩
    exact hinv.2.index m hm i (childOf_covers (hinv.1.natural m hm) hp hi)
  have hwalk : ∀ c, walkRange Prod.fst snd base ord (Pd.delegateNode S this base base attr sub) fuel base
      (st, false) = some c → Wf c.val.1 ∧ Shown W c.val.1 := by
    intro c hc
    apply walkRange_rule (fun _ t => Wf t.1 ∧ Shown W t.1) (fun c => Wf c.val.1 ∧ Shown W c.val.1)
      _ _ _ ⟨hw, h⟩ (walkAll_of_forall (fun _ _ _ _ => trivial) _ _ _) hc
    · intro addr t hinv _
      exact hinv
    · intro addr t m b o t' hinv hv _ hb
      exact hpass addr t m b o _ hinv hv hb
    · intro addr t m b o t' hinv hv _ hb
      exact hpass addr t m b o _ hinv hv hb
  unfold Pd.delegate at hd
  split at hd
  · simp at hd
  · rename_i t hc
    obtain rfl := Option.some.inj hd
    exact hwalk _ hc
  · rename_i t hc
    obtain ⟨hwt, ht⟩ := hwalk _ hc
    split at hd
    · obtain rfl := Option.some.inj hd
      exact ⟨hwt, ht⟩
    · obtain rfl := Option.some.inj hd
      exact ⟨⟨hwt.mem, hwt.ordered, hwt.natural, hwt.ring⟩, ⟨ht.index, ht.full, ht.empty⟩⟩

theorem Shown.region {phys order attr type : Mword} (hE : S.Frame E) (h : Shown W st) (hw : Wf st)
    (ho : order.toNat < 64) (hb : Aligned order.toNat base) (hp : Aligned order.toNat phys)
    (ha : attr &&& ~~~0x1f = 0)
    (hindex : ∀ i, (rootNode kern st.fresh phys base order attr type).covers i = true → W.index i) :
    Wf (insertRoot S kern phys base order attr type st).1 ∧
      Shown W (insertRoot S kern phys base order attr type st).1 := by
  have hmeets : Meets S (fun _ _ => True) (fun _ _ => True) (fun _ _ => True) 0
      (.insertRoot kern phys base order attr type) st := ⟨ho, hb, hp, ha⟩
  rcases insertRoot_cases hE hw hmeets with ⟨-, hq⟩ | ⟨-, hr, hnode⟩
  · exact ⟨hq.wf hw, h.quiet hW hw hq⟩
  · refine ⟨hr.wf hw, h.added hW hw (hr.wf hw) hr.toAdded ?_ (.inr ⟨?_, hr.space⟩)⟩
    · rwa [hnode]
    · rw [hnode]
      rfl

end Calls

end Tukija.Pd
