import Tukija.Pd.Exact
import Tukija.Space.Obj

/-! The slots of a protection domain against the nodes of its object space. -/
namespace Tukija.Space

open Tukija.Lib.Word Tukija.Mapdb Tukija.Pd

variable {θ : Type} {Q : Quotas θ} {st st' : State (ObjState θ)} {n m : NodeId}
  {G L : State (ObjState θ) → NodeId → Prop}

def SameSlots (s s' : ObjState θ) : Prop := ∀ pd i, s'.slot pd i = s.slot pd i

theorem objSpace_frame : (objSpace Q).Frame SameSlots where
  refl _ _ _ := rfl
  trans _ _ _ h h' pd i := (h' pd i).trans (h pd i)
  alloc _ _ _ _ := rfl
  destroy _ _ _ _ := rfl

/-- Every node is a single capability below the end of the window and stands in
its slot; all other slots are empty. -/
structure Slotted (st : State (ObjState θ)) : Prop where
  order : ∀ n, st.Live n → (st.mdb n).nodeOrder = 0
  low : ∀ n, st.Live n → (st.mdb n).space ≠ kern → (st.mdb n).nodeBase.toNat < 2 ^ 26
  full : ∀ n, st.Live n → (st.mdb n).space ≠ kern →
    st.space.slot (st.mdb n).space (st.mdb n).nodeBase =
      capability (st.mdb n).nodePhys (st.mdb n).nodeAttr
  empty : ∀ pd i, pd ≠ kern → i.toNat < 2 ^ 26 → (∀ n ∈ st.tree pd, (st.mdb n).nodeBase ≠ i) →
    st.space.slot pd i = 0

/-- The slot of `x`, and no other one below the end of the window, holds `x` with
the rights `a`. -/
def Wrote (s s' : ObjState θ) (x : Mdb) (a : Mword) : Prop :=
  ∀ pd i, pd ≠ kern → i.toNat < 2 ^ 26 → s'.slot pd i =
    if pd = x.space ∧ i = x.nodeBase then capability x.nodePhys a else s.slot pd i

theorem wrote_update {x : Mdb} {r : Mword} {s : ObjState θ}
    (hx : x.space ≠ kern → x.nodeBase.toNat < 2 ^ 26) :
    Wrote s ((objSpace Q).update x r s).1 x (x.nodeAttr &&& ~~~r) := by
  intro pd i hpd hi
  have h : ((objSpace Q).update x r s).1.slot pd i = _ :=
    slot_write (Q := Q) x.space pd x.nodeBase i (capability x.nodePhys (x.nodeAttr &&& ~~~r))
  rw [h]
  by_cases hp : pd = x.space
  · have hlow : x.nodeBase.toNat < 2 ^ 26 := hx (hp ▸ hpd)
    have hiff : idxToVirt i = idxToVirt x.nodeBase ↔ i = x.nodeBase := by
      rw [idxToVirt_inj_iff, Nat.mod_eq_of_lt hi, Nat.mod_eq_of_lt hlow, BitVec.toNat_inj]
    simp only [hiff]
  · rw [if_neg fun h => hp h.1, if_neg fun h => hp h.1]

theorem Wrote.of_sameSlots {s s' s'' : ObjState θ} {x : Mdb} {a : Mword} (h : SameSlots s s')
    (hw : Wrote s' s'' x a) : Wrote s s'' x a := by
  intro pd i hpd hi
  rw [hw pd i hpd hi, h]

theorem eq_of_base (hw : Wf st) (hn : st.Live n) (hm : st.Live m)
    (hs : (st.mdb n).space = (st.mdb m).space) (hb : (st.mdb n).nodeBase = (st.mdb m).nodeBase) :
    n = m := by
  unfold State.Live at hn
  rw [hs] at hn
  exact (hw.ordered _).base_inj hn hm hb

theorem slotted_boot (space : ObjState θ) (h : ∀ pd i, space.slot pd i = 0) :
    Slotted (boot space) where
  order n hn := by simp [boot, State.Live] at hn
  low n hn := by simp [boot, State.Live] at hn
  full n hn := by simp [boot, State.Live] at hn
  empty pd i _ _ _ := h pd i

theorem Slotted.quiet (h : Slotted st) (hw : Wf st) (hq : Quiet SameSlots st st') :
    Slotted st' := by
  have hold : ∀ n, st'.Live n → st.Live n ∧ st'.mdb n = st.mdb n := by
    intro n hn
    have hn' := (hq.live hw n).mp hn
    exact ⟨hn', hq.mdb n (hw.lt hn')⟩
  constructor
  · intro n hn
    rw [(hold n hn).2]
    exact h.order n (hold n hn).1
  · intro n hn
    rw [(hold n hn).2]
    exact h.low n (hold n hn).1
  · intro n hn
    rw [(hold n hn).2, hq.space]
    exact h.full n (hold n hn).1
  · intro pd i hpd hi hfree
    rw [hq.space]
    apply h.empty pd i hpd hi
    intro n hn
    rw [← hq.mdb n (hw.mem pd n hn).2]
    exact hfree n (by rw [hq.tree]; exact hn)

theorem Slotted.added (h : Slotted st) (hw : Wf st) (hw' : Wf st') (ha : Added st st' n)
    (hslot : Wrote st.space st'.space (st'.mdb n) (st'.mdb n).nodeAttr)
    (ho : (st'.mdb n).nodeOrder = 0)
    (hlow : (st'.mdb n).space ≠ kern → (st'.mdb n).nodeBase.toNat < 2 ^ 26) : Slotted st' := by
  have hlive := ha.live hw
  have hnew : st'.Live n := (hlive n).mpr (Or.inl rfl)
  have hold : ∀ x, st.Live x → SameNode (st'.mdb x) (st.mdb x) ∧
      (st'.mdb x).nodeAttr = (st.mdb x).nodeAttr ∧ (st'.mdb x).prnt = (st.mdb x).prnt :=
    fun x hx => ha.old x (hw.lt hx)
  have hlow' : ∀ x, st'.Live x → (st'.mdb x).space ≠ kern →
      (st'.mdb x).nodeBase.toNat < 2 ^ 26 := by
    intro x hx hk
    rcases (hlive x).mp hx with rfl | hx
    · exact hlow hk
    · rw [(hold x hx).1.space] at hk
      rw [(hold x hx).1.base]
      exact h.low x hx hk
  constructor
  · intro x hx
    rcases (hlive x).mp hx with rfl | hx
    · exact ho
    · rw [(hold x hx).1.order]
      exact h.order x hx
  · exact hlow'
  · intro x hx hk
    rw [hslot _ _ hk (hlow' x hx hk)]
    split
    · rename_i heq
      obtain rfl : x = n := eq_of_base hw' hx hnew heq.1 heq.2
      rfl
    · rename_i hne
      rcases (hlive x).mp hx with rfl | hxs
      · exact absurd ⟨rfl, rfl⟩ hne
      · rw [(hold x hxs).1.space] at hk
        rw [(hold x hxs).1.space, (hold x hxs).1.base, (hold x hxs).1.phys, (hold x hxs).2.1]
        exact h.full x hxs hk
  · intro pd i hpd hi hfree
    have hne : ¬(pd = (st'.mdb n).space ∧ i = (st'.mdb n).nodeBase) := by
      rintro ⟨rfl, rfl⟩
      exact hfree n hnew rfl
    rw [hslot pd i hpd hi, if_neg hne]
    apply h.empty pd i hpd hi
    intro x hx
    have hxs := hw.live_of_mem hx
    rw [← (hold x hxs).1.base]
    apply hfree x
    have := (hlive x).mpr (Or.inr hxs)
    unfold State.Live at this
    rwa [(hold x hxs).1.space, (hw.mem pd x hx).1] at this

theorem Slotted.demoted {r : Mword} (h : Slotted st) (hw : Wf st) (hd : Demoted st st' n r)
    (hslot : Wrote st.space st'.space (st.mdb n) ((st.mdb n).nodeAttr &&& ~~~r)) : Slotted st' := by
  have hsame : ∀ x, SameNode (st'.mdb x) (st.mdb x) := fun x => (hd.node x).1
  constructor
  · intro x hx
    rw [(hsame x).order]
    exact h.order x ((hd.live_iff x).mp hx)
  · intro x hx hk
    rw [(hsame x).space] at hk
    rw [(hsame x).base]
    exact h.low x ((hd.live_iff x).mp hx) hk
  · intro x hx hk
    have hxs := (hd.live_iff x).mp hx
    rw [(hsame x).space] at hk
    rw [(hsame x).space, (hsame x).base, (hsame x).phys, hd.attr x,
      hslot _ _ hk (h.low x hxs hk)]
    by_cases hxn : x = n
    · subst hxn
      rw [if_pos ⟨rfl, rfl⟩, if_pos rfl]
    · have hne : ¬((st.mdb x).space = (st.mdb n).space ∧
          (st.mdb x).nodeBase = (st.mdb n).nodeBase) :=
        fun heq => hxn (eq_of_base hw hxs hd.live heq.1 heq.2)
      rw [if_neg hne, if_neg hxn]
      exact h.full x hxs hk
  · intro pd i hpd hi hfree
    have hfree' : ∀ x ∈ st.tree pd, (st.mdb x).nodeBase ≠ i := by
      intro x hx
      rw [← (hsame x).base]
      apply hfree
      rw [hd.tree]
      exact hx
    have hne : ¬(pd = (st.mdb n).space ∧ i = (st.mdb n).nodeBase) := by
      rintro ⟨rfl, rfl⟩
      exact hfree' n hd.live rfl
    rw [hslot pd i hpd hi, if_neg hne]
    exact h.empty pd i hpd hi hfree'

theorem Slotted.dropped {leaf : Bool} (h : Slotted st) (hw : Wf st) (hd : Dropped leaf st st' n) :
    Slotted st' := by
  have hsame : ∀ x, SameNode (st'.mdb x) (st.mdb x) := fun x => (hd.node x).1
  constructor
  · intro x hx
    rw [(hsame x).order]
    exact h.order x ((hd.live_iff hw x).mp hx).2
  · intro x hx hk
    rw [(hsame x).space] at hk
    rw [(hsame x).base]
    exact h.low x ((hd.live_iff hw x).mp hx).2 hk
  · intro x hx hk
    rw [(hsame x).space] at hk
    rw [(hsame x).space, (hsame x).base, (hsame x).phys, (hd.node x).2, hd.space]
    exact h.full x ((hd.live_iff hw x).mp hx).2 hk
  · intro pd i hpd hi hfree
    rw [hd.space]
    by_cases hn : pd = (st.mdb n).space ∧ i = (st.mdb n).nodeBase
    · -- the slot of a node without rights is empty already
      obtain ⟨rfl, rfl⟩ := hn
      rw [h.full n hd.live hpd, hd.attr]
      rfl
    · apply h.empty pd i hpd hi
      intro x hx heq
      have hxs := hw.live_of_mem hx
      have hpx := (hw.mem pd x hx).1
      have hxn : x ≠ n := by
        rintro rfl
        exact hn ⟨hpx.symm, heq.symm⟩
      apply hfree x _ ((hsame x).base.trans heq)
      have := (hd.live_iff hw x).mpr ⟨hxn, hxs⟩
      unfold State.Live at this
      rwa [(hsame x).space, hpx] at this

section Calls

variable {attr b o : Mword} {self kim : Bool} {fuel : Nat} {pd : PdId} {base ord : Mword}

theorem demoteOne_slotted (h : Slotted st) (hw : Wf st) (hn : st.Live n) :
    Slotted (demoteOne (objSpace Q) attr m st n) := by
  unfold demoteOne
  split
  · generalize (st.iommu || ((st.mdb m).nodeSub &&& 1 != 0)) = iommu
    have hd : Demoted { st with iommu := iommu }
        (State.demote (objSpace Q) n attr { st with iommu := iommu }) n attr := demote_demoted hn
    have hd' : Demoted st (State.demote (objSpace Q) n attr { st with iommu := iommu }) n attr :=
      ⟨hd.live, hd.fresh, hd.node, hd.attr, hd.tree, hd.orig⟩
    exact h.demoted hw hd' (wrote_update fun hk => h.low n hn hk)
  · exact h

theorem demoteAll_slotted (D : List NodeId) (st : State (ObjState θ)) (h : Slotted st) (hw : Wf st)
    (hD : ∀ x ∈ D, st.Live x) : Slotted (D.foldl (demoteOne (objSpace Q) attr m) st) := by
  induction D generalizing st with
  | nil => exact h
  | cons n D ih =>
    have hst : Stripped st (demoteOne (objSpace Q) attr m st n) [n] attr :=
      demoteOne_stripped attr m n
    apply ih _ (demoteOne_slotted h hw (hD n (by simp))) (hst.wf hw)
    intro x hx
    exact (hst.live_iff x).mpr (hD x (by simp [hx]))

theorem remove_slotted {leaf : Bool} (h : Slotted st) (hw : Wf st) (hn : st.Live n) :
    Slotted (st.remove n leaf) := by
  by_cases hc : (st.mdb n).nodeAttr = 0 ∧
      (leaf = true → (st.mdb (st.mdb.next n)).dpth ≤ (st.mdb n).dpth)
  · exact h.dropped hw (remove_dropped hw hn hc.1 hc.2)
  · rw [remove_eq_self hc]
    exact h

theorem revokeNode_slotted (h : Slotted st) (hw : Wf st) (hm : st.Live m)
    (hb : revokeNode (objSpace Q) fuel attr self kim m b o st = some (.next st')) :
    Slotted st' := by
  cases hk : keeps kim m st with
  | true =>
    have hst' : revokeKeep (objSpace Q) m st = st' := by
      simpa [revokeNode, hk] using hb
    have hst : Stripped st (demoteOne (objSpace Q) 0x1f m st m) [m] 0x1f :=
      demoteOne_stripped 0x1f m m
    rw [← hst']
    exact remove_slotted (demoteOne_slotted h hw hm) (hst.wf hw) ((hst.live_iff m).mpr hm)
  | false =>
    obtain ⟨A, B, hrun⟩ := hw.run hm
    obtain ⟨st1, hst1, hst, hlive, hc⟩ := revokeNode_halves hw hm hrun hk hb
    have hsl : Slotted st1 := by
      rw [← hst1]
      exact demoteAll_slotted _ st h hw fun x hx => hrun.live hw hm x (flaggedFrom_subset hx)
    rw [Ctl.next.inj hc]
    exact removeAll_rel (R := fun st st' => Slotted st → Slotted st') (fun _ _ h => h)
      (fun _ _ _ h h' hs => h' (h hs)) (fun _ _ hw hn hs => remove_slotted hs hw hn)
      _ _ (hst.wf hw) hlive hrun.nodup hsl

theorem revoke_slotted (h : Slotted st) (hw : Wf st)
    (hr : revoke (objSpace Q) fuel pd base ord attr self kim st = some st') :
    Wf st' ∧ Slotted st' := by
  have hwalk : ∀ c, walkRange id pd base ord (revokeNode (objSpace Q) fuel attr self kim) fuel base
      st = some c → Wf c.val ∧ Slotted c.val := by
    intro c hc
    apply walkRange_rule (fun _ t => Wf t ∧ Slotted t) (fun c => Wf c.val ∧ Slotted c.val) _ _ _
      ⟨hw, h⟩ (walkAll_of_forall (fun _ _ _ _ => trivial) _ _ _) hc
    · intro addr t hinv _
      exact hinv
    · intro addr t m b o t' hinv hv _ hb
      exact absurd hb (revokeNode_ne_ret (hv.live hinv.1) hinv.1)
    · intro addr t m b o t' hinv hv _ hb
      have hm := hv.live hinv.1
      have hsteps : Steps (objSpace Q) SameSlots (fun _ _ => True) (fun _ _ => True)
          (fun _ _ => True) t t' :=
        revokeNode_steps (fun _ _ _ _ _ _ h => h) hinv.1 hm (fun _ => trivial) hb
      exact ⟨hsteps.wf hinv.1, revokeNode_slotted hinv.2 hinv.1 hm hb⟩
  unfold revoke at hr
  split at hr
  · simp at hr
  · rename_i t hc
    obtain rfl := Option.some.inj hr
    exact hwalk _ hc
  · rename_i t hc
    obtain ⟨hwt, ht⟩ := hwalk _ hc
    split at hr
    · obtain rfl := Option.some.inj hr
      exact ⟨⟨hwt.mem, hwt.ordered, hwt.natural, hwt.ring⟩, ⟨ht.order, ht.low, ht.full, ht.empty⟩⟩
    · obtain rfl := Option.some.inj hr
      exact ⟨hwt, ht⟩

variable {this snd : PdId} {sndBase rcvBase sub : Mword} {s : Bool}

theorem delegateNode_slotted {c : Ctl (State (ObjState θ) × Bool)} (h : Slotted st) (hw : Wf st)
    (hm : st.Live m) (hs : Aligned ord.toNat sndBase) (hr : Aligned ord.toNat rcvBase)
    (hp : Part (st.mdb m) sndBase ord b o)
    (hsel : grants (objSpace Q) this sndBase rcvBase attr sub m b o st = true →
      this ≠ kern → (b - sndBase + rcvBase).toNat < 2 ^ 26)
    (hb : delegateNode (objSpace Q) this sndBase rcvBase attr sub m b o (st, s) = some c) :
    Slotted c.val.1 := by
  have hnat := hw.natural m hm
  have hx : (childOf (objSpace Q) this sndBase rcvBase sub (st.mdb m) st.fresh b o).Natural :=
    childOf_natural hnat hs hr hp
  cases hg : grants (objSpace Q) this sndBase rcvBase attr sub m b o st with
  | false =>
    obtain ⟨st', hq, ⟨-, h'⟩ | ⟨-, h'⟩⟩ :=
      delegateNode_of_not_grants (s := s) objSpace_frame hw hx (hw.lt hm) hg
    · rw [h'] at hb
      obtain rfl := Option.some.inj hb
      exact h.quiet hw hq
    · rw [h'] at hb
      obtain rfl := Option.some.inj hb
      exact h.quiet hw hq
  | true =>
    obtain ⟨tree, htree, ha, f, g, h'⟩ := delegateNode_of_grants (s := s) hg (hw.lt hm)
    have hgr : Granted (objSpace Q) SameSlots st (st.grant (objSpace Q) this _ tree m attr) m
        st.fresh := grant_granted objSpace_frame hw hm hx (childOf_within hnat hp) rfl rfl htree ha
    have hnew : SameNode ((st.grant (objSpace Q) this
        (childOf (objSpace Q) this sndBase rcvBase sub (st.mdb m) st.fresh b o) tree m attr).mdb
          st.fresh) (childOf (objSpace Q) this sndBase rcvBase sub (st.mdb m) st.fresh b o) :=
      (grant_new hw hm ha).1
    rw [h'] at hb
    generalize State.grant (objSpace Q) this _ tree m attr st = st1 at hgr hnew hb
    have hw1 := hgr.wf hw
    have hord : (st1.mdb st.fresh).nodeOrder = 0 := by
      apply BitVec.eq_of_toNat_eq
      have hle := hgr.within.1
      rw [h.order m hm] at hle
      exact Nat.le_zero.mp hle
    have hlow : (st1.mdb st.fresh).space ≠ kern → (st1.mdb st.fresh).nodeBase.toNat < 2 ^ 26 := by
      rw [hnew.space, hnew.base]
      exact hsel hg
    have hslot : Wrote st.space st1.space (st1.mdb st.fresh) (st1.mdb st.fresh).nodeAttr := by
      obtain ⟨s', hs', heq⟩ := hgr.space
      rw [heq, ← and_not_zero (st1.mdb st.fresh).nodeAttr]
      exact Wrote.of_sameSlots hs' (wrote_update hlow)
    have h1 := h.added hw hw1 hgr.toAdded hslot hord hlow
    split at hb
    · obtain rfl := Option.some.inj hb
      have hlive : st1.Live st.fresh := (hgr.live hw _).mpr (Or.inl rfl)
      have hdem : Demoted st1 (st1.demote (objSpace Q) st.fresh attr) st.fresh attr :=
        demote_demoted hlive
      have h2 := h1.demoted hw1 hdem (wrote_update hlow)
      exact remove_slotted h2 (hdem.wf hw1) ((hdem.live_iff _).mpr hlive)
    · obtain rfl := Option.some.inj hb
      exact h1

/-- Every selector that a call of `delegate` makes use of in `this` is accepted
by `A`. -/
def Accepts (Q : Quotas θ) (A : PdId → Mword → Prop) (fuel : Nat) (this snd : PdId)
    (sndBase rcvBase ord attr sub : Mword) (st : State (ObjState θ)) : Prop :=
  walkAll Prod.fst snd sndBase ord (delegateNode (objSpace Q) this sndBase rcvBase attr sub)
    (fun m b o t => grants (objSpace Q) this sndBase rcvBase attr sub m b o t.1 = true →
      A this (b - sndBase + rcvBase)) fuel sndBase (st, false)

/-- The selectors that have a slot of their own. -/
def InWindow (pd : PdId) (sel : Mword) : Prop := pd ≠ kern → sel.toNat < 2 ^ 26

instance (pd : PdId) (sel : Mword) : Decidable (InWindow pd sel) :=
  inferInstanceAs (Decidable (_ → _))

theorem delegate_slotted {r : State (ObjState θ) × Bool} (h : Slotted st) (hw : Wf st)
    (ho : ord.toNat < 64) (hs : Aligned ord.toNat sndBase) (hr : Aligned ord.toNat rcvBase)
    (hsel : Accepts Q InWindow fuel this snd sndBase rcvBase ord attr sub st)
    (hd : delegate (objSpace Q) fuel this snd sndBase rcvBase ord attr sub st = some r) :
    Wf r.1 ∧ Slotted r.1 := by
  have hpass : ∀ addr (t : State (ObjState θ) × Bool) m b o c, Wf t.1 ∧ Slotted t.1 →
      Visits Prod.fst snd sndBase ord addr t m b o →
      (grants (objSpace Q) this sndBase rcvBase attr sub m b o t.1 = true →
        InWindow this (b - sndBase + rcvBase)) →
      delegateNode (objSpace Q) this sndBase rcvBase attr sub m b o t = some c →
        Wf c.val.1 ∧ Slotted c.val.1 := by
    intro addr t m b o c hinv hv hA hb
    have hm := hv.live hinv.1
    have hp := hv.part hinv.1 ho hs
    have hsteps : Steps (objSpace Q) SameSlots (fun _ _ => True) (fun _ _ => True)
        (fun _ _ => True) t.1 c.val.1 :=
      delegateNode_steps objSpace_frame hinv.1 hm hs hr hp (fun _ => trivial) hb
    exact ⟨hsteps.wf hinv.1, delegateNode_slotted hinv.2 hinv.1 hm hs hr hp hA hb⟩
  have hwalk : ∀ c, walkRange Prod.fst snd sndBase ord
      (delegateNode (objSpace Q) this sndBase rcvBase attr sub) fuel sndBase (st, false) = some c →
        Wf c.val.1 ∧ Slotted c.val.1 := by
    intro c hc
    apply walkRange_rule (fun _ t => Wf t.1 ∧ Slotted t.1) (fun c => Wf c.val.1 ∧ Slotted c.val.1)
      _ _ _ ⟨hw, h⟩ hsel hc
    · intro addr t hinv _
      exact hinv
    · intro addr t m b o t' hinv hv hA hb
      exact hpass addr t m b o _ hinv hv hA hb
    · intro addr t m b o t' hinv hv hA hb
      exact hpass addr t m b o _ hinv hv hA hb
  unfold delegate at hd
  split at hd
  · simp at hd
  · rename_i t hc
    obtain rfl := Option.some.inj hd
    exact hwalk _ hc
  · rename_i t hc
    obtain ⟨hwt, ht⟩ := hwalk _ hc
    split at hd
    · obtain rfl := Option.some.inj hd
      exact ⟨hwt, ht⟩
    · obtain rfl := Option.some.inj hd
      exact ⟨⟨hwt.mem, hwt.ordered, hwt.natural, hwt.ring⟩, ⟨ht.order, ht.low, ht.full, ht.empty⟩⟩

theorem createObj_slotted {obj sel : Mword} (h : Slotted st) (hw : Wf st)
    (ha : attr &&& ~~~0x1f = 0) (hsel : InWindow pd sel) :
    Wf (createObj Q pd obj sel attr st).1 ∧ Slotted (createObj Q pd obj sel attr st).1 := by
  have hmeets : Meets (objSpace Q) (fun _ _ => True) (fun _ _ => True) (fun _ _ => True) 0
      (.insertRoot pd obj sel 0 attr 0) st := ⟨by decide, aligned_zero _, aligned_zero _, ha⟩
  have hcases := insertRoot_cases (E := SameSlots) objSpace_frame hw hmeets
  unfold createObj
  generalize insertRoot (objSpace Q) pd obj sel 0 attr 0 st = res at hcases
  obtain ⟨st1, ok⟩ := res
  dsimp only at hcases ⊢
  rcases hcases with ⟨rfl, hq⟩ | ⟨rfl, hr, hnode⟩
  · -- the selector is taken
    exact ⟨hq.wf hw, h.quiet hw hq⟩
  · have hw1 := hr.wf hw
    have ho : (st1.mdb st.fresh).nodeOrder = 0 := by
      rw [hnode]
      rfl
    have hpd : (st1.mdb st.fresh).space = pd := by
      rw [hnode]
      rfl
    have hlow : (st1.mdb st.fresh).space ≠ kern → (st1.mdb st.fresh).nodeBase.toNat < 2 ^ 26 := by
      rw [hnode]
      exact hsel
    by_cases hk : pd = kern
    · -- the kernel has no slots
      have hslot : Wrote st.space st1.space (st1.mdb st.fresh) (st1.mdb st.fresh).nodeAttr := by
        intro q i hq hi
        rw [if_neg fun heq => hq (heq.1.trans (hpd.trans hk))]
        exact hr.space q i
      simp only [hk, bne_self_eq_false, Bool.and_false, Bool.false_eq_true, if_false]
      exact ⟨hw1, h.added hw hw1 hr.toAdded hslot ho hlow⟩
    · have hslot : Wrote st.space ((st1.update (objSpace Q) st.fresh 0).1).space (st1.mdb st.fresh)
          (st1.mdb st.fresh).nodeAttr := by
        have := wrote_update (Q := Q) (r := 0) (s := st1.space) hlow
        rw [and_not_zero] at this
        exact Wrote.of_sameSlots hr.space this
      have hw2 : Wf (st1.update (objSpace Q) st.fresh 0).1 :=
        ⟨hw1.mem, hw1.ordered, hw1.natural, hw1.ring⟩
      have ha2 : Added st (st1.update (objSpace Q) st.fresh 0).1 st.fresh :=
        ⟨hr.fresh, hr.fresh', hr.old, hr.tree, hr.tree_ne, hr.ordered, hr.natural⟩
      simp only [bne_iff_ne.mpr hk, Bool.and_true, if_true]
      exact ⟨hw2, h.added hw hw2 ha2 hslot ho hlow⟩

end Calls

/-- The states that creations of objects, delegations and revocations lead to,
with every selector they make use of accepted by `A`.  In between, memory may
change as long as no slot does. -/
inductive ObjReach (Q : Quotas θ) (A : PdId → Mword → Prop) : State (ObjState θ) → Prop where
  | boot (space : ObjState θ) (h : ∀ pd i, space.slot pd i = 0) : ObjReach Q A (boot space)
  | env {st : State (ObjState θ)} {space : ObjState θ} (oom iommu preemption : Bool)
      (h : ObjReach Q A st) (he : SameSlots st.space space) :
      ObjReach Q A { st with space := space, oom := oom, iommu := iommu, preemption := preemption }
  | create {st : State (ObjState θ)} (pd : PdId) (obj sel attr : Mword) (h : ObjReach Q A st)
      (ha : attr &&& ~~~0x1f = 0) (hsel : A pd sel) : ObjReach Q A (createObj Q pd obj sel attr st).1
  | delegate {st : State (ObjState θ)} {r : State (ObjState θ) × Bool} (fuel : Nat)
      (this snd : PdId) (sndBase rcvBase ord attr sub : Mword) (h : ObjReach Q A st)
      (ho : ord.toNat < 64) (hs : Aligned ord.toNat sndBase) (hr : Aligned ord.toNat rcvBase)
      (hsel : Accepts Q A fuel this snd sndBase rcvBase ord attr sub st)
      (hd : delegate (objSpace Q) fuel this snd sndBase rcvBase ord attr sub st = some r) :
      ObjReach Q A r.1
  | revoke {st st' : State (ObjState θ)} (fuel : Nat) (pd : PdId) (base ord attr : Mword)
      (self kim : Bool) (h : ObjReach Q A st)
      (hr : revoke (objSpace Q) fuel pd base ord attr self kim st = some st') : ObjReach Q A st'

theorem ObjReach.slotted (h : ObjReach Q InWindow st) : Wf st ∧ Slotted st := by
  induction h with
  | boot space h => exact ⟨Wf.boot space, slotted_boot space h⟩
  | @env st space oom iommu preemption _ he ih =>
    have hq : Quiet SameSlots st { st with
        space := space, oom := oom, iommu := iommu, preemption := preemption } :=
      ⟨he, fun _ _ => rfl, le_rfl, rfl, rfl⟩
    exact ⟨hq.wf ih.1, ih.2.quiet ih.1 hq⟩
  | create pd obj sel attr _ ha hsel ih => exact createObj_slotted ih.2 ih.1 ha hsel
  | delegate fuel this snd sndBase rcvBase ord attr sub _ ho hs hr hsel hd ih =>
    exact delegate_slotted ih.2 ih.1 ho hs hr hsel hd
  | revoke fuel pd base ord attr self kim _ hr ih => exact revoke_slotted ih.2 ih.1 hr

/-- The slot of every selector in `A` holds the capability of the node that
covers it, and none if there is no such node; no two selectors share one. -/
structure Coherent (A : PdId → Mword → Prop) (st : State (ObjState θ)) : Prop where
  slot : ∀ pd i, pd ≠ kern → A pd i → st.space.slot pd i =
    match st.lookup pd i false with
    | some n => capability (st.mdb n).nodePhys (st.mdb n).nodeAttr
    | none => 0
  own : ∀ pd i j, pd ≠ kern → A pd i → A pd j → idxToVirt i = idxToVirt j → i = j

/-- Slots and nodes agree after every history whose selectors are all below
the end of the window. -/
theorem reach_coherent (h : ObjReach Q InWindow st) : Coherent InWindow st := by
  obtain ⟨hw, hs⟩ := h.slotted
  constructor
  · intro pd i hpd hA
    have hi := hA hpd
    have htop : ∀ n ∈ st.tree pd, (st.mdb n).top = (st.mdb n).nodeBase.toNat + 1 := by
      intro n hn
      unfold Mdb.top
      rw [hs.order n (hw.live_of_mem hn)]
      rfl
    cases hl : st.lookup pd i false with
    | some n =>
      obtain ⟨hn, hle, hlt⟩ := hw.lookup_iff.mp hl
      rw [htop n hn] at hlt
      have hb : (st.mdb n).nodeBase = i := BitVec.eq_of_toNat_eq (by omega)
      have hpdn := (hw.mem pd n hn).1
      have := hs.full n (hw.live_of_mem hn) (by rw [hpdn]; exact hpd)
      rwa [hb, hpdn] at this
    | none =>
      apply hs.empty pd i hpd hi
      intro n hn hb
      have hfound : st.lookup pd i false = some n := by
        apply hw.lookup_iff.mpr
        rw [htop n hn, hb]
        exact ⟨hn, le_rfl, Nat.lt_succ_self _⟩
      simp [hl] at hfound
  · intro pd i j hpd hi hj hij
    rw [idxToVirt_inj_iff, Nat.mod_eq_of_lt (hi hpd), Nat.mod_eq_of_lt (hj hpd)] at hij
    exact BitVec.eq_of_toNat_eq hij

section Examples

def noQuotas : Quotas Unit where
  hitLimit _ _ := false
  alloc _ s := s
  destroy _ s := s
  check _ _ := true
  allocPage _ s := s
  junk _ := false

def emptyWindow : ObjState Unit := ⟨(), fun _ _ => .absent, fun _ _ => 0⟩

def oneObject : State (ObjState Unit) := (createObj noQuotas 1 0x1000 5 0x1f (boot emptyWindow)).1

def shared : State (ObjState Unit) × Bool :=
  (delegate (objSpace noQuotas) 10 2 1 5 7 0 0x1f 0 oneObject).get (by decide +kernel)

def cutDown : State (ObjState Unit) :=
  (revoke (objSpace noQuotas) 10 1 5 0 0x3 false false shared.1).get (by decide +kernel)

theorem reach_coherent_cutDown :
    cutDown.space.slot 1 5 = 0x101f ∧ cutDown.space.slot 2 7 = 0x101c ∧ Coherent InWindow cutDown := by
  have hone : ObjReach noQuotas InWindow oneObject :=
    .create 1 0x1000 5 0x1f (.boot emptyWindow fun _ _ => rfl) (by decide) (by decide)
  have hall : Accepts noQuotas InWindow 10 2 1 5 7 0 0x1f 0 oneObject := by
    unfold Accepts
    decide +kernel
  have hshared : ObjReach noQuotas InWindow shared.1 :=
    .delegate 10 2 1 5 7 0 0x1f 0 hone (by decide) (by decide) (by decide) hall (Option.some_get _).symm
  have hcut : ObjReach noQuotas InWindow cutDown :=
    .revoke 10 1 5 0 0x3 false false hshared (Option.some_get _).symm
  exact ⟨by decide +kernel, by decide +kernel, reach_coherent hcut⟩

/-- The selectors that fit into the argument of `sys_create_sm`. -/
def SysCreate (_ : PdId) (sel : Mword) : Prop := sel.toNat < 2 ^ 55

/-- A second object `caps` selectors further on takes over the slot of the
first. -/
theorem aliasedObject_incoherent :
    ¬∀ st, ObjReach noQuotas SysCreate st → Coherent SysCreate st := by
  intro hall
  have hreach : ObjReach noQuotas SysCreate
      (createObj noQuotas 1 0x2000 (5 + caps) 0x1f oneObject).1 := by
    refine .create 1 0x2000 (5 + caps) 0x1f (.create 1 0x1000 5 0x1f
      (.boot emptyWindow fun _ _ => rfl) ?_ ?_) ?_ ?_
    · decide
    · exact show (5 : Mword).toNat < 2 ^ 55 by decide
    · decide
    · exact show (5 + caps).toNat < 2 ^ 55 by decide
  have hslot := (hall _ hreach).slot 1 5 (by decide) (show (5 : Mword).toNat < 2 ^ 55 by decide)
  exact absurd hslot (by decide +kernel)

end Examples

end Tukija.Space
