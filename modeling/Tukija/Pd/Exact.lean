import Mathlib.Data.BitVec
import Tukija.Pd.Confine

/-! What a delegation gives to the receiver. -/
namespace Tukija.Pd

open Tukija.Lib.Word Tukija.Lib.Ring Tukija.Mapdb

variable {σ : Type} {S : SpaceOps σ} {E : σ → σ → Prop} {st t t' : State σ}
  {this snd : PdId} {sndBase rcvBase ord attr sub : Mword} {m : NodeId}

/-- The physical index that `x` denotes at the index `i`. -/
def physOf (x : Mdb) (i : Mword) : Mword := i - x.nodeBase + x.nodePhys

/-- `x` is the part of `mdb` in the range `(sndBase, ord)`, moved to `rcvBase`. -/
def Copy (sndBase rcvBase ord : Mword) (mdb x : Mdb) : Prop :=
  ∃ b o, Part mdb sndBase ord b o ∧ x.nodeBase = b - sndBase + rcvBase ∧ x.nodeOrder = o ∧
    x.nodePhys = b - mdb.nodeBase + mdb.nodePhys

theorem Copy.congr {mdb x x' : Mdb} (h : Copy sndBase rcvBase ord mdb x) (hs : SameNode x' x) :
    Copy sndBase rcvBase ord mdb x' := by
  obtain ⟨b, o, hp, hb, ho, hph⟩ := h
  exact ⟨b, o, hp, hs.base.trans hb, hs.order.trans ho, hs.phys.trans hph⟩

section Copy

variable {mdb x : Mdb}

theorem Copy.covers_iff (h : Copy sndBase rcvBase ord mdb x) (hm : mdb.Natural)
    (ho : ord.toNat < 64) (hs : Aligned ord.toNat sndBase) (hr : Aligned ord.toNat rcvBase)
    (i : Nat) :
    (x.nodeBase.toNat ≤ i ∧ i < x.top) ↔
      (rcvBase.toNat ≤ i ∧ i < rcvBase.toNat + 2 ^ ord.toNat) ∧
        mdb.nodeBase.toNat ≤ i - rcvBase.toNat + sndBase.toNat ∧
          i - rcvBase.toNat + sndBase.toNat < mdb.top := by
  obtain ⟨b, o, hp, hxb, hxo, -⟩ := h
  have hbase : x.nodeBase.toNat = b.toNat - sndBase.toNat + rcvBase.toNat := by
    rw [hxb]
    exact toNat_rebase ho.le hs hr hp.range
  have hrange := (sameBlock_iff_of_aligned hs).mp hp.range
  have hnode := (sameBlock_iff_of_aligned hm.base).mp hp.node
  have htop : x.top = x.nodeBase.toNat + 2 ^ o.toNat := by
    unfold Mdb.top
    rw [hxo]
  -- the part ends with the shorter of node and range
  have hend : b.toNat + 2 ^ o.toNat ≤ mdb.top ∧
      b.toNat + 2 ^ o.toNat ≤ sndBase.toNat + 2 ^ ord.toNat := by
    have hle := hp.order_le
    constructor
    · apply add_le_of_dvd_of_lt hp.aligned _ hnode.2
      have hpow := Nat.pow_dvd_pow 2 hle.1
      exact Nat.dvd_add (hpow.trans hm.base) hpow
    · apply add_le_of_dvd_of_lt hp.aligned _ hrange.2
      have hpow := Nat.pow_dvd_pow 2 hle.2
      exact Nat.dvd_add (hpow.trans hs) hpow
  rw [htop, hbase]
  constructor
  · intro h
    omega
  · intro h
    have := hp.mem hm hs (i := i - rcvBase.toNat + sndBase.toNat) h.2 (by omega)
    omega

theorem Copy.natural (h : Copy sndBase rcvBase ord mdb x) (hm : mdb.Natural)
    (hs : Aligned ord.toNat sndBase) (hr : Aligned ord.toNat rcvBase) : x.Natural := by
  obtain ⟨b, o, hp, hxb, hxo, hxp⟩ := h
  have hle := hp.order_le
  have hlt := hm.order_lt
  constructor
  · rw [hxo]
    omega
  · rw [hxb, hxo]
    exact Aligned.add (by omega) (Aligned.sub (by omega) hp.aligned (hs.mono hle.2))
      (hr.mono hle.2)
  · rw [hxp, hxo]
    exact hp.phys_aligned hm

theorem Copy.physOf_eq (h : Copy sndBase rcvBase ord mdb x) (i : Mword) :
    physOf x (rcvBase + i) = physOf mdb (sndBase + i) := by
  obtain ⟨b, o, -, hxb, -, hxp⟩ := h
  unfold physOf
  rw [hxb, hxp]
  ring

end Copy

/-- How far the loop of `delegate` has got: the receiver has what it had, and
copies of nodes of the sender. -/
structure Copied (st : State σ) (this snd : PdId) (sndBase rcvBase ord attr : Mword)
    (t : State σ) : Prop where
  wf : Wf t
  fresh : st.fresh ≤ t.fresh
  old : ∀ x < st.fresh, SameNode (t.mdb x) (st.mdb x) ∧ (t.mdb x).nodeAttr = (st.mdb x).nodeAttr
  tree_ne : ∀ pd, pd ≠ this → t.tree pd = st.tree pd
  tree_old : ∀ x ∈ st.tree this, x ∈ t.tree this
  tree_new : ∀ c ∈ t.tree this, c ∈ st.tree this ∨
    ∃ m, Touched st snd sndBase ord m ∧ (st.mdb m).nodeAttr &&& attr ≠ 0 ∧
      Copy sndBase rcvBase ord (st.mdb m) (t.mdb c) ∧
        (t.mdb c).nodeAttr = (st.mdb m).nodeAttr &&& attr

/-- The receiver has nothing in the range yet. -/
def Free (st : State σ) (pd : PdId) (base ord : Mword) : Prop :=
  ∀ y ∈ st.tree pd, ¬Meeting (st.mdb y) base ord

/-- If a node in the range ends with the index space, the range does not reach
down to the first node. -/
def NoWrapAround (st : State σ) (pd : PdId) (base ord : Mword) : Prop :=
  ∀ m y, Touched st pd base ord m → (st.mdb m).top = 2 ^ 64 → Touched st pd base ord y →
    ∃ z ∈ st.tree pd, (st.mdb z).nodeBase < (st.mdb y).nodeBase

theorem Part.congr {x y : Mdb} {base ord b o : Mword} (h : Part x base ord b o)
    (hb : y.nodeBase = x.nodeBase) (ho : y.nodeOrder = x.nodeOrder) : Part y base ord b o := by
  obtain ⟨h1, h2, h3, h4⟩ := h
  exact ⟨by rw [ho]; exact h1, h2, by rw [ho, hb]; exact h3, h4⟩

theorem remove_oom {n : NodeId} {leaf : Bool} : (t.remove n leaf).oom = t.oom := by
  unfold State.remove
  split
  · rfl
  · split
    · rfl
    · rfl

/-- The nodes of the receiver stay what they are. -/
def Kept (this : PdId) (t t' : State σ) : Prop :=
  ∀ c ∈ t.tree this, c ∈ t'.tree this ∧ SameNode (t'.mdb c) (t.mdb c) ∧
    (t'.mdb c).nodeAttr = (t.mdb c).nodeAttr

/-- The receiver has what the sender delegates from `m`. -/
def Given (st : State σ) (this : PdId) (sndBase rcvBase ord attr : Mword) (m : NodeId)
    (t : State σ) : Prop :=
  (st.mdb m).nodeAttr &&& attr ≠ 0 → ∃ c ∈ t.tree this, Copy sndBase rcvBase ord (st.mdb m) (t.mdb c) ∧
    (t.mdb c).nodeAttr = (st.mdb m).nodeAttr &&& attr

theorem Given.kept (h : Given st this sndBase rcvBase ord attr m t) (hk : Kept this t t') :
    Given st this sndBase rcvBase ord attr m t' := by
  intro ha
  obtain ⟨c, hc, hcopy, hattr⟩ := h ha
  obtain ⟨hc', hsame, hattr'⟩ := hk c hc
  exact ⟨c, hc', hcopy.congr hsame, hattr'.trans hattr⟩

theorem Quiet.kept (h : Quiet E t t') (hw : Wf t) : Kept this t t' := by
  intro c hc
  rw [h.tree, h.mdb c (hw.mem _ c hc).2]
  exact ⟨hc, SameNode.refl _, rfl⟩

theorem Quiet.copied (h : Quiet E t t') (hc : Copied st this snd sndBase rcvBase ord attr t) :
    Copied st this snd sndBase rcvBase ord attr t' where
  wf := h.wf hc.wf
  fresh := hc.fresh.trans h.fresh
  old x hx := by
    rw [h.mdb x (hx.trans_le hc.fresh)]
    exact hc.old x hx
  tree_ne pd hpd := by
    rw [h.tree]
    exact hc.tree_ne pd hpd
  tree_old x hx := by
    rw [h.tree]
    exact hc.tree_old x hx
  tree_new c hcm := by
    rw [h.tree] at hcm
    rw [h.mdb c (hc.wf.mem _ c hcm).2]
    exact hc.tree_new c hcm

theorem Granted.kept {n : NodeId} (h : Granted S E t t' m n) (hw : Wf t)
    (hn : (t'.mdb n).space = this) : Kept this t t' := by
  intro c hc
  have hlt := (hw.mem _ c hc).2
  refine ⟨?_, (h.old c hlt).1, (h.old c hlt).2.1⟩
  have := (h.tree c).mpr (Or.inr (by rw [hn]; exact hc))
  rwa [hn] at this

theorem Granted.copied {n : NodeId} (h : Granted S E t t' m n)
    (hc : Copied st this snd sndBase rcvBase ord attr t) (hn : (t'.mdb n).space = this)
    (hm : Touched st snd sndBase ord m) (ha : (st.mdb m).nodeAttr &&& attr ≠ 0)
    (hcopy : Copy sndBase rcvBase ord (st.mdb m) (t'.mdb n))
    (hattr : (t'.mdb n).nodeAttr = (st.mdb m).nodeAttr &&& attr) :
    Copied st this snd sndBase rcvBase ord attr t' where
  wf := h.wf hc.wf
  fresh := by
    rw [h.fresh']
    exact hc.fresh.trans (Nat.le_succ _)
  old x hx := by
    have hold := h.old x (hx.trans_le hc.fresh)
    exact ⟨hold.1.trans (hc.old x hx).1, hold.2.1.trans (hc.old x hx).2⟩
  tree_ne pd hpd := by
    rw [h.tree_ne pd (by rw [hn]; exact hpd)]
    exact hc.tree_ne pd hpd
  tree_old x hx := (h.kept hc.wf hn x (hc.tree_old x hx)).1
  tree_new c hcm := by
    have hmem := h.tree c
    rw [hn] at hmem
    rcases hmem.mp hcm with rfl | hcm
    · exact Or.inr ⟨m, hm, ha, hcopy, hattr⟩
    · obtain ⟨-, hsame, hat⟩ := h.kept hc.wf hn c hcm
      rcases hc.tree_new c hcm with hold | ⟨m', hm', ha', hcopy', hattr'⟩
      · exact Or.inl hold
      · exact Or.inr ⟨m', hm', ha', hcopy'.congr hsame, hat.trans hattr'⟩

section Loop

variable (hw : Wf st) (ho : ord.toNat < 64) (hs : Aligned ord.toNat sndBase)
  (hr : Aligned ord.toNat rcvBase) (hfree : Free st this rcvBase ord)

include hw ho hs hr hfree

/-- The nodes of the sender in the range are the ones it had at first, also if
it delegates to itself. -/
theorem Copied.touched (hc : Copied st this snd sndBase rcvBase ord attr t)
    (hm : Touched t snd sndBase ord m) : Touched st snd sndBase ord m := by
  have hold : m ∈ st.tree snd → Touched st snd sndBase ord m := by
    intro hmem
    refine ⟨hmem, ?_⟩
    have hsame := (hc.old m (hw.mem _ m hmem).2).1
    have := hm.2
    unfold Meeting Mdb.top at this ⊢
    rwa [hsame.base, hsame.order] at this
  by_cases hpd : snd = this
  · subst hpd
    rcases hc.tree_new m hm.1 with hmem | ⟨m', hm', -, hcopy, -⟩
    · exact hold hmem
    · -- a copy in the range of its originals: then that range was not free
      exfalso
      obtain ⟨i, hi, hri⟩ := hm.2
      have hnat := hw.natural_of_mem m' hm'.1
      have hci := ((hcopy.covers_iff hnat ho hs hr i).mp hi).1
      have hblock : SameBlock (max ord.toNat ord.toNat) sndBase rcvBase :=
        (sameBlock_max_iff hs hr).mpr ⟨i, hri, hci⟩
      rw [max_self] at hblock
      have h1 := (sameBlock_iff_of_aligned hs).mp hblock
      have h2 := (sameBlock_iff_of_aligned hr).mp hblock.symm
      have heq : sndBase = rcvBase := BitVec.eq_of_toNat_eq (by omega)
      subst heq
      exact hfree m' hm'.1 hm'.2
  · rw [Touched, hc.tree_ne snd hpd] at hm
    exact hold hm.1

theorem Copied.exists_copy (hc : Copied st this snd sndBase rcvBase ord attr t) {x : Mdb}
    {c : NodeId} (hm : Touched st snd sndBase ord m) (hx : Copy sndBase rcvBase ord (st.mdb m) x)
    (hcmem : c ∈ t.tree this) (heq : x.equal (t.mdb c) = true) :
    Copy sndBase rcvBase ord (st.mdb m) (t.mdb c) ∧
      (t.mdb c).nodeAttr = (st.mdb m).nodeAttr &&& attr := by
  have hnat := hw.natural_of_mem m hm.1
  have hxn : x.Natural := hx.natural hnat hs hr
  have hcn := hc.wf.natural_of_mem c hcmem
  rw [Mdb.equal_iff hxn.order_lt hcn.order_lt, sameBlock_max_iff hxn.base hcn.base] at heq
  obtain ⟨i, hxi, hci⟩ := heq
  have hi := (hx.covers_iff hnat ho hs hr i).mp hxi
  rcases hc.tree_new c hcmem with hold | ⟨m', hm', -, hcopy, hattr⟩
  · exfalso
    have hsame := (hc.old c (hw.mem _ c hold).2).1
    apply hfree c hold
    unfold Meeting Mdb.top
    rw [← hsame.base, ← hsame.order]
    exact ⟨i, hci, hi.1⟩
  · -- both originals cover the index that `i` comes from
    have hi' := (hcopy.covers_iff (hw.natural_of_mem m' hm'.1) ho hs hr i).mp hci
    have hmm : m = m' := by
      by_contra hne
      have hord := hw.ordered snd
      have hall : ∀ n ∈ st.tree snd, (st.mdb n).Natural := hw.natural_of_mem
      rcases Nat.lt_trichotomy (st.mdb m).nodeBase.toNat (st.mdb m').nodeBase.toNat with h | h | h
      · have := hord.top_le hall hm.1 hm'.1 h
        omega
      · exact hne (hord.base_inj hm.1 hm'.1 (BitVec.eq_of_toNat_eq h))
      · have := hord.top_le hall hm'.1 hm.1 h
        omega
    rw [hmm]
    exact ⟨hcopy, hattr⟩

/-- A pass of the loop makes the copy of the node it works on, unless memory
runs out. -/
theorem delegateNode_copied {addr b o : Mword} {s : Bool} (hE : S.Frame E)
    (hc : Copied st this snd sndBase rcvBase ord attr t)
    (hv : Visits Prod.fst snd sndBase ord addr (t, s) m b o) :
    (∃ t' s', delegateNode S this sndBase rcvBase attr sub m b o (t, s) = some (.next (t', s')) ∧
      Copied st this snd sndBase rcvBase ord attr t' ∧ Kept this t t' ∧
        Given st this sndBase rcvBase ord attr m t') ∨
    ∃ t' s', delegateNode S this sndBase rcvBase attr sub m b o (t, s) = some (.ret (t', s')) ∧
      t'.oom = true := by
  have hwt := hc.wf
  have hlive : t.Live m := hv.live hwt
  have hm := hc.touched hw ho hs hr hfree (hv.touched hwt ho hs)
  have hsame := hc.old m (hw.mem _ m hm.1).2
  have hnat := hwt.natural m hlive
  have hp : Part (t.mdb m) sndBase ord b o := hv.part hwt ho hs
  have hxn : (childOf S this sndBase rcvBase sub (t.mdb m) t.fresh b o).Natural :=
    childOf_natural hnat hs hr hp
  have hcopy : Copy sndBase rcvBase ord (st.mdb m)
      (childOf S this sndBase rcvBase sub (t.mdb m) t.fresh b o) := by
    refine ⟨b, o, hp.congr hsame.1.base.symm hsame.1.order.symm, rfl, rfl, ?_⟩
    rw [← hsame.1.base, ← hsame.1.phys]
    rfl
  cases hg : grants S this sndBase rcvBase attr sub m b o t with
  | false =>
    obtain ⟨t', hq, ⟨hlim, h⟩ | ⟨hoom, h⟩⟩ :=
      delegateNode_of_not_grants (s := s) hE hwt hxn (hwt.lt hlive) hg
    · refine Or.inl ⟨t', s, h, hq.copied hc, hq.kept hwt, ?_⟩
      have hgiven : Given st this sndBase rcvBase ord attr m t := by
        intro ha
        -- quota and rights suffice, so something is in the way
        have hins : treeInsert (t.alloc S this
            (childOf S this sndBase rcvBase sub (t.mdb m) t.fresh b o)).mdb (t.tree this)
            t.fresh = none := by
          by_contra hne
          have hsome := Option.isSome_iff_ne_none.mpr hne
          have hgt : grants S this sndBase rcvBase attr sub m b o t = true := by
            rw [← hsame.2] at ha
            simp only [grants, hlim, Bool.not_false, Bool.true_and, Bool.and_eq_true, bne_iff_ne]
            exact ⟨hsome, ha⟩
          rw [hg] at hgt
          exact Bool.false_ne_true hgt
        obtain ⟨c, hcm, heq⟩ := treeInsert_eq_none.mp hins
        rw [alloc_new, alloc_old (hwt.mem _ c hcm).2] at heq
        exact ⟨c, hcm, hc.exists_copy hw ho hs hr hfree hm hcopy hcm heq⟩
      exact hgiven.kept (hq.kept hwt)
    · exact Or.inr ⟨t', s, h, hoom⟩
  | true =>
    obtain ⟨tree, htree, ha, f, g, h⟩ := delegateNode_of_grants (s := s) hg (hwt.lt hlive)
    have hgr : Granted S E t (t.grant S this _ tree m attr) m t.fresh :=
      grant_granted hE hwt hlive hxn (childOf_within hnat hp) rfl rfl htree ha
    have hnew : SameNode ((t.grant S this _ tree m attr).mdb t.fresh)
        (childOf S this sndBase rcvBase sub (t.mdb m) t.fresh b o) ∧
        ((t.grant S this _ tree m attr).mdb t.fresh).nodeAttr = (t.mdb m).nodeAttr &&& attr :=
      grant_new hwt hlive ha
    obtain ⟨hns, hna⟩ := hnew
    generalize State.grant S this _ tree m attr t = t1 at hgr hns hna h
    cases hoom : t1.oom with
    | true =>
      rw [hoom, if_pos rfl] at h
      refine Or.inr ⟨_, _, h, ?_⟩
      rw [remove_oom]
      simp [State.demote, State.update, hoom]
    | false =>
      rw [hoom] at h
      have hsp : (t1.mdb t.fresh).space = this := by
        rw [hns.space]
        rfl
      rw [hsame.2] at ha hna
      have hcopy' := hcopy.congr hns
      refine Or.inl ⟨t1, _, h, hgr.copied hc hsp hm ha hcopy' hna, hgr.kept hwt hsp, fun _ => ?_⟩
      have hmem := (hgr.tree t.fresh).mpr (Or.inl rfl)
      rw [hsp] at hmem
      exact ⟨t.fresh, hmem, hcopy', hna⟩

theorem Copied.stops {s : Bool} (hc : Copied st this snd sndBase rcvBase ord attr t)
    (hwrap : NoWrapAround st snd sndBase ord) (hm : Touched st snd sndBase ord m)
    (htop : (st.mdb m).top = 2 ^ 64) : Stops Prod.fst snd sndBase ord 0 (t, s) := by
  intro y hl
  by_contra hne
  have hnat : ∀ n ∈ t.tree snd, (t.mdb n).Natural := hc.wf.natural_of_mem
  obtain ⟨hy, -, hfirst⟩ := lookup_next_some (hc.wf.ordered snd) hnat hl
  have hyt : Touched st snd sndBase ord y :=
    hc.touched hw ho hs hr hfree ⟨hy, (clamp_ne_ones_iff (hnat y hy) ho hs).mp hne⟩
  obtain ⟨z, hz, hlt⟩ := hwrap m y hm htop hyt
  have hz' : z ∈ t.tree snd := by
    by_cases hpd : snd = this
    · subst hpd
      exact hc.tree_old z hz
    · rw [hc.tree_ne snd hpd]
      exact hz
  have hle := hfirst z hz' (lt_of_le_of_lt (Nat.zero_le _) (t.mdb z).base_lt_top)
  rw [(hc.old y (hw.mem _ y hyt.1).2).1.base, (hc.old z (hw.mem _ z hz).2).1.base] at hle
  exact absurd (BitVec.lt_def.mp hlt) (Nat.not_lt.mpr hle)

end Loop

theorem Wf.lookup_iff (hw : Wf st) {pd : PdId} {i : Mword} :
    st.lookup pd i false = some m ↔
      m ∈ st.tree pd ∧ (st.mdb m).nodeBase.toNat ≤ i.toNat ∧ i.toNat < (st.mdb m).top :=
  lookup_some_iff (hw.ordered pd) hw.natural_of_mem

/-- The receiver finds in the range what the sender has there, with the rights
that `attr` lets through, and everywhere else what it found before. -/
structure Exact (st t : State σ) (this snd : PdId) (sndBase rcvBase ord attr : Mword) : Prop where
  given : ∀ (i : Mword) m, i.toNat < 2 ^ ord.toNat → st.lookup snd (sndBase + i) false = some m →
    (st.mdb m).nodeAttr &&& attr ≠ 0 → ∃ c, t.lookup this (rcvBase + i) false = some c ∧
      physOf (t.mdb c) (rcvBase + i) = physOf (st.mdb m) (sndBase + i) ∧
        (t.mdb c).nodeAttr = (st.mdb m).nodeAttr &&& attr
  nothing : ∀ i : Mword, i.toNat < 2 ^ ord.toNat →
    (∀ m, st.lookup snd (sndBase + i) false = some m → (st.mdb m).nodeAttr &&& attr = 0) →
      t.lookup this (rcvBase + i) false = none
  other : ∀ i : Mword, ¬(rcvBase.toNat ≤ i.toNat ∧ i.toNat < rcvBase.toNat + 2 ^ ord.toNat) →
    t.lookup this i false = st.lookup this i false
  kept : Kept this st t

theorem Copied.exact (hw : Wf st) (ho : ord.toNat < 64) (hs : Aligned ord.toNat sndBase)
    (hr : Aligned ord.toNat rcvBase) (hfree : Free st this rcvBase ord)
    (hc : Copied st this snd sndBase rcvBase ord attr t)
    (hgiven : ∀ m, Touched st snd sndBase ord m → Given st this sndBase rcvBase ord attr m t) :
    Exact st t this snd sndBase rcvBase ord attr := by
  have hsend := hs.add_le ho.le
  have hrend := hr.add_le ho.le
  have hsi : ∀ i : Mword, i.toNat < 2 ^ ord.toNat → (sndBase + i).toNat = sndBase.toNat + i.toNat := by
    intro i hi
    rw [BitVec.toNat_add]
    exact Nat.mod_eq_of_lt (by omega)
  have hri : ∀ i : Mword, i.toNat < 2 ^ ord.toNat → (rcvBase + i).toNat = rcvBase.toNat + i.toNat := by
    intro i hi
    rw [BitVec.toNat_add]
    exact Nat.mod_eq_of_lt (by omega)
  -- a node of the receiver that covers an index is an old one or a copy that fits
  have hcover : ∀ {c} {i : Mword}, t.lookup this i false = some c →
      c ∈ st.tree this ∧ (st.mdb c).nodeBase.toNat ≤ i.toNat ∧ i.toNat < (st.mdb c).top ∨
      (rcvBase.toNat ≤ i.toNat ∧ i.toNat < rcvBase.toNat + 2 ^ ord.toNat) ∧
        ∃ m, m ∈ st.tree snd ∧ (st.mdb m).nodeAttr &&& attr ≠ 0 ∧
          (st.mdb m).nodeBase.toNat ≤ i.toNat - rcvBase.toNat + sndBase.toNat ∧
            i.toNat - rcvBase.toNat + sndBase.toNat < (st.mdb m).top := by
    intro c i hl
    obtain ⟨hcm, hci⟩ := hc.wf.lookup_iff.mp hl
    rcases hc.tree_new c hcm with hold | ⟨m, hm, ha, hcopy, -⟩
    · left
      have hsame := (hc.old c (hw.mem _ c hold).2).1
      unfold Mdb.top at hci ⊢
      rw [hsame.base, hsame.order] at hci
      exact ⟨hold, hci⟩
    · have hi := (hcopy.covers_iff (hw.natural_of_mem m hm.1) ho hs hr i.toNat).mp hci
      exact Or.inr ⟨hi.1, m, hm.1, ha, hi.2⟩
  constructor
  · intro i m hi hl ha
    obtain ⟨hmem, hmi⟩ := hw.lookup_iff.mp hl
    rw [hsi i hi] at hmi
    have hm : Touched st snd sndBase ord m := ⟨hmem, sndBase.toNat + i.toNat, hmi, by omega⟩
    obtain ⟨c, hcm, hcopy, hattr⟩ := hgiven m hm ha
    refine ⟨c, hc.wf.lookup_iff.mpr ⟨hcm, ?_⟩, hcopy.physOf_eq i, hattr⟩
    rw [hri i hi, hcopy.covers_iff (hw.natural_of_mem m hmem) ho hs hr]
    omega
  · intro i hi hnone
    cases hl : t.lookup this (rcvBase + i) false with
    | none => rfl
    | some c =>
      exfalso
      rcases hcover hl with ⟨hold, hci⟩ | ⟨-, m, hmem, ha, hmi⟩
      · rw [hri i hi] at hci
        exact hfree c hold ⟨_, hci, by omega⟩
      · rw [hri i hi] at hmi
        apply ha
        apply hnone m
        rw [hw.lookup_iff, hsi i hi]
        exact ⟨hmem, by omega⟩
  · intro i hi
    cases hl : t.lookup this i false with
    | some c =>
      rcases hcover hl with hold | ⟨hin, -⟩
      · exact (hw.lookup_iff.mpr hold).symm
      · exact absurd hin hi
    | none =>
      cases hl' : st.lookup this i false with
      | none => rfl
      | some c =>
        obtain ⟨hcm, hci⟩ := hw.lookup_iff.mp hl'
        have hsame := (hc.old c (hw.mem _ c hcm).2).1
        have : t.lookup this i false = some c := by
          apply hc.wf.lookup_iff.mpr
          refine ⟨hc.tree_old c hcm, ?_⟩
          unfold Mdb.top at hci ⊢
          rw [hsame.base, hsame.order]
          exact hci
        rw [hl] at this
        exact absurd this (by simp)
  · intro c hcm
    exact ⟨hc.tree_old c hcm, hc.old c (hw.mem _ c hcm).2⟩

/-- `delegate` returns, and unless it has run out of memory or quota the
receiver then has exactly what was delegated. -/
theorem delegate_exact {fuel : Nat} (hw : Wf st) (ho : ord.toNat < 64)
    (hs : Aligned ord.toNat sndBase) (hr : Aligned ord.toNat rcvBase)
    (hfree : Free st this rcvBase ord) (hwrap : NoWrapAround st snd sndBase ord)
    (hfuel : (st.tree snd).length + 1 < fuel) :
    ∃ t s, delegate S fuel this snd sndBase rcvBase ord attr sub st = some (t, s) ∧
      (t.oom = false → Exact st t this snd sndBase rcvBase ord attr) := by
  have hE : S.Frame fun _ _ => True :=
    ⟨fun _ => trivial, fun _ _ _ _ _ => trivial, fun _ _ => trivial, fun _ _ => trivial⟩
  let J : State σ × Bool → Prop := fun t => Copied st this snd sndBase rcvBase ord attr t.1
  have hinit : J (st, false) := ⟨hw, le_rfl, fun x _ => ⟨SameNode.refl _, rfl⟩, fun _ _ => rfl,
    fun _ h => h, fun _ h => Or.inl h⟩
  have hnext : ∀ addr t m b o t', J t → Visits Prod.fst snd sndBase ord addr t m b o →
      delegateNode S this sndBase rcvBase attr sub m b o t = some (.next t') →
        J t' ∧ Kept this t.1 t'.1 ∧ Given st this sndBase rcvBase ord attr m t'.1 := by
    rintro addr ⟨t, s⟩ m b o t' hc hv hbody
    rcases delegateNode_copied hw ho hs hr hfree hE hc hv with
      ⟨t1, s1, h1, hres⟩ | ⟨t1, s1, h1, -⟩
    · rw [h1] at hbody
      obtain rfl := Ctl.next.inj (Option.some.inj hbody)
      exact hres
    · rw [h1] at hbody
      simp at hbody
  have hsome : (walkRange Prod.fst snd sndBase ord (delegateNode S this sndBase rcvBase attr sub)
      fuel sndBase (st, false)).isSome := by
    have hlen := List.length_filter_le
      (fun y => decide (sndBase.toNat < (st.mdb y).top)) (st.tree snd)
    apply walkRange_isSome (J := J) (st.tree snd) st.mdb _ _ _ _ hinit (by omega)
    · exact fun t hc => hc.wf
    · rintro addr t m b o hc hv
      have hm := hc.touched hw ho hs hr hfree (hv.touched hc.wf ho hs)
      have hsame := (hc.old m (hw.mem _ m hm.1).2).1
      unfold Mdb.top
      rw [hsame.base, hsame.order]
      exact ⟨hm.1, rfl⟩
    · rintro addr ⟨t, s⟩ m b o hc hv
      rcases delegateNode_copied hw ho hs hr hfree hE hc hv with
        ⟨t1, s1, h1, -⟩ | ⟨t1, s1, h1, -⟩
      · exact ⟨_, h1⟩
      · exact ⟨_, h1⟩
    · intro addr t m b o t' hc hv hbody
      have hc' := (hnext addr t m b o t' hc hv hbody).1
      exact ⟨hc', hc'.stops hw ho hs hr hfree hwrap
        (hc.touched hw ho hs hr hfree (hv.touched hc.wf ho hs))⟩
  obtain ⟨r, hwalk⟩ := Option.isSome_iff_exists.mp hsome
  let Q : Ctl (State σ × Bool) → Prop
    | .next t => Exact st t.1 this snd sndBase rcvBase ord attr
    | .ret t => t.1.oom = true
  have hres : Q r := by
    apply walkRange_covers (J := J) (Q := Q) (T := Touched st snd sndBase ord)
      (D := fun m t => Given st this sndBase rcvBase ord attr m t.1) ho hs _ _ _ _ hinit (fun y hy => hy.1) (walkAll_of_forall (fun _ _ _ _ => trivial) _ _ _) hwalk
    · exact st.mdb
    · intro t hc
      exact ⟨hc.wf, fun x hx => (hc.old x (hw.mem _ x hx.1).2).1.base,
        fun x hx => (hc.old x (hw.mem _ x hx.1).2).1.order, fun y hy _ => hy.2⟩
    · intro t hc hdone
      exact hc.exact hw ho hs hr hfree hdone
    · rintro addr ⟨t, s⟩ m b o t' hc hv - hbody
      rcases delegateNode_copied hw ho hs hr hfree hE hc hv with
        ⟨t1, s1, h1, -⟩ | ⟨t1, s1, h1, hoom⟩
      · rw [h1] at hbody
        simp at hbody
      · rw [h1] at hbody
        obtain rfl := Ctl.ret.inj (Option.some.inj hbody)
        exact hoom
    · intro addr t m b o t' hc hv _ hbody
      obtain ⟨hc', hkept, hgiven⟩ := hnext addr t m b o t' hc hv hbody
      refine ⟨hc', hgiven, fun y _ hy => hy.kept hkept, fun y hy hmem => Or.inl ?_⟩
      by_cases hpd : snd = this
      · subst hpd
        exact (hkept y hmem).1
      · rw [hc'.tree_ne snd hpd]
        exact hy.1
  unfold delegate
  rw [hwalk]
  cases r with
  | ret t =>
    refine ⟨t.1, t.2, rfl, fun hoom => ?_⟩
    rw [show t.1.oom = true from hres] at hoom
    simp at hoom
  | next t =>
    dsimp only
    split
    · exact ⟨t.1, t.2, rfl, fun _ => hres⟩
    · refine ⟨_, _, rfl, fun hoom => ?_⟩
      simp at hoom

/-- Half of a root node, moved up. -/
theorem delegate_exact_half :
    ∃ st t s, execAll bareSpace 10 [.insertRoot 1 0 0 4 0x1f 0] (boot ()) = some st ∧
      delegate bareSpace 10 2 1 8 16 3 7 0 st = some (t, s) ∧ Exact st t 2 1 8 16 3 7 := by
  have hrun : (execAll bareSpace 10 [.insertRoot 1 0 0 4 0x1f 0] (boot ())).map
      (fun st => (st.tree 1, st.tree 2, (st.mdb 0).nodeBase, (st.mdb 0).nodeOrder)) =
        some ([0], [], 0, 4) := by decide +kernel
  have hmem : ∀ st ∈ execAll bareSpace 10 [.insertRoot 1 0 0 4 0x1f 0] (boot ()),
      ∀ r ∈ delegate bareSpace 10 2 1 8 16 3 7 0 st, r.1.oom = false := by decide +kernel
  obtain ⟨st, hst, hval⟩ := Option.map_eq_some_iff.mp hrun
  simp only [Prod.mk.injEq] at hval
  obtain ⟨h1, h2, hbase, hord⟩ := hval
  have hreach : AnyReach bareSpace (fun _ _ => True) st :=
    AnyReach.execAll (.boot ()) (by decide) hst
  have hw := (hreach.derivation bareSpace_frame (fun _ _ _ _ _ _ h => h)).1
  have hfree : Free st 2 16 3 := by
    intro y hy
    simp [h2] at hy
  have hwrap : NoWrapAround st 1 8 3 := by
    intro m y hm htop
    have hm0 : m = 0 := by simpa [h1] using hm.1
    rw [hm0, Mdb.top, hbase, hord] at htop
    exact absurd htop (by decide)
  have hlen : (st.tree 1).length + 1 < 10 := by
    rw [h1]
    decide
  obtain ⟨t, s, hdel, hexact⟩ := delegate_exact (S := bareSpace) hw (by decide) (by decide)
    (by decide) hfree hwrap hlen
  exact ⟨st, t, s, hst, hdel, hexact (hmem st hst _ hdel)⟩

def topNode : State Unit := (insertRoot bareSpace 1 0 ones 0 0x1f 0 (boot ())).1

/-- The loop over that node, once the receiver has got its copy. -/
structure AtTop (t : State Unit) : Prop where
  tree : t.tree 1 = [0] ∧ t.tree 2 = [1]
  node : (t.mdb 0).nodeBase = ones ∧ (t.mdb 0).nodeOrder = 0
  copy : (t.mdb 1).nodeBase = 0 ∧ (t.mdb 1).nodeOrder = 0
  fresh : 1 < t.fresh

theorem AtTop.visits {t : State Unit} (h : AtTop t) (s : Bool) :
    Visits Prod.fst 1 ones 0 0 (t, s) 0 ones 0 := by
  constructor
  · simp only [State.lookup, lookup, h.tree.1, Mdb.covers, h.node.1, h.node.2,
      List.find?_cons, List.find?_nil]
    decide
  · simp only [h.node.1, h.node.2]
    decide
  · decide

theorem AtTop.next {t : State Unit} (h : AtTop t) (s : Bool) :
    ∃ t', delegateNode bareSpace 2 ones 0 7 0 0 ones 0 (t, s) = some (.next (t', s)) ∧
      (t.mdb 0).last = 0 ∧ AtTop t' := by
  have hins : ∀ x : Mdb, x.nodeBase = 0 → x.nodeOrder = 0 →
      treeInsert (t.alloc bareSpace 2 x).mdb (t.tree 2) t.fresh = none := by
    intro x hb ho
    apply treeInsert_eq_none.mpr
    refine ⟨1, by simp [h.tree.2], ?_⟩
    rw [alloc_new, alloc_old h.fresh, Mdb.equal, hb, ho, h.copy.1, h.copy.2]
    decide
  have hnone := hins (childOf bareSpace 2 ones 0 0 (t.mdb 0) t.fresh ones 0)
    (show ones - ones + 0 = (0 : Mword) by decide) rfl
  refine ⟨_, by
    simp only [delegateNode]
    rw [show bareSpace.hitLimit 2 t.space = false from rfl]
    simp only [Bool.false_eq_true, if_false]
    rw [show (t.alloc bareSpace 2 (childOf bareSpace 2 ones 0 0 (t.mdb 0) t.fresh ones 0)).tree 2 =
      t.tree 2 from rfl, hnone], ?_, ?_⟩
  · rw [Mdb.last, h.node.1, h.node.2]
    decide
  · have h0 : 0 < t.fresh := Nat.zero_lt_of_lt h.fresh
    refine ⟨h.tree, ?_, ?_, h.fresh.trans (Nat.lt_succ_self _)⟩
    · dsimp only
      rw [alloc_old h0]
      exact h.node
    · dsimp only
      rw [alloc_old h.fresh]
      exact h.copy

/-- Delegating the last index of the index space never returns, as the loop
starts over at index 0. -/
theorem delegate_topNode_diverges :
    ¬∀ (st : State Unit) (this snd : PdId) (sndBase rcvBase ord attr sub : Mword), Wf st →
      ord.toNat < 64 → Aligned ord.toNat sndBase → Aligned ord.toNat rcvBase →
        Free st this rcvBase ord → ∃ fuel t s,
          delegate bareSpace fuel this snd sndBase rcvBase ord attr sub st = some (t, s) ∧
            (t.oom = false → Exact st t this snd sndBase rcvBase ord attr) := by
  intro hall
  have hreach : AnyReach bareSpace (fun _ _ => True) topNode :=
    .call (.insertRoot 1 0 ones 0 0x1f 0) 0 (.boot ()) (meets_of_natural (by decide)) rfl
  have hw := (hreach.derivation bareSpace_frame (fun _ _ _ _ _ _ h => h)).1
  have hfree : Free topNode 2 0 0 := fun y hy => absurd hy (by
    rw [show topNode.tree 2 = [] by decide +kernel]
    simp)
  obtain ⟨fuel, t, s, hdel, -⟩ := hall topNode 2 1 ones 0 0 7 0 hw (by decide) (by decide) (by decide)
    hfree
  -- the first pass makes the copy
  have hfirst : Visits Prod.fst 1 ones 0 ones (topNode, false) 0 ones 0 :=
    ⟨by decide +kernel, by decide +kernel, by decide⟩
  have hbody : ∃ t1 s1, delegateNode bareSpace 2 ones 0 7 0 0 ones 0 (topNode, false) =
      some (.next (t1, s1)) ∧ AtTop t1 := by
    refine ⟨_, _, rfl, ⟨?_, ?_, ?_, ?_⟩⟩
    all_goals decide +kernel
  obtain ⟨t1, s1, hb, ht1⟩ := hbody
  have hloop : walkRange Prod.fst 1 ones 0 (delegateNode bareSpace 2 ones 0 7 0) fuel ones
      (topNode, false) = none := by
    cases fuel with
    | zero => rfl
    | succ fuel =>
      rw [walkRange_of_visits hfirst, hb]
      simp only [show (topNode.mdb 0).last = 0 by decide +kernel]
      apply walkRange_eq_none (J := fun t => AtTop t.1) _ fuel _ ht1
      rintro ⟨t, s⟩ ht
      obtain ⟨t', hn, hl, ht'⟩ := ht.next s
      exact ⟨0, ones, 0, (t', s), ht.visits s, hn, hl, ht'⟩
  rw [delegate, hloop] at hdel
  simp at hdel

end Tukija.Pd
