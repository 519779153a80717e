import Tukija.Pd.Window
import Tukija.Space.Mapped

/-! `Pte::walk` in all page tables of a domain: whether it takes the frame of a
larger page for a table. -/
namespace Tukija.Space

open Tukija.Lib.Word Tukija.Lib.Radix Tukija.Mapdb Tukija.Pd

variable {θ : Type}

/-- The accounting of memory beside the page tables of devices and guests. -/
structure Backed (θ : Type) where
  quota : θ
  device : PdId → Entry Pte
  guest : PdId → Entry Pte
  wild : Bool

/-- Which page tables devices have: none, `Dpt` or `Ipt`. -/
inductive Iommu where
  | none
  | intel
  | amd
  deriving DecidableEq

/-- `Ipt::hw_attr`. -/
def iptAttr (a : Mword) : Mword :=
  let r := (if a &&& 0x1 ≠ 0 then 0x2000000000000000 else 0) |||
    (if a &&& 0x2 ≠ 0 then 0x4000000000000000 else 0)
  r ||| if r ≠ 0 then 0x1 else 0

/-- `Ept::hw_attr`. -/
def eptAttr (a t : Mword) : Mword := if a ≠ 0 then shl t 3 ||| a ||| 0x40 ||| 0x1 else 0

/-- The page tables of a machine: how large the pages of each kind may be and the
formats of their attributes. -/
structure Gear (θ : Type) where
  host : Tables θ
  iommu : Iommu
  forceFlush : Bool
  deviceOrd : Nat
  device_le : deviceOrd ≤ 26
  npt : Bool
  eptOrd : Nat
  ept_le : eptOrd ≤ 26

namespace Gear

variable (G : Gear θ)

def deviceAttr (a : Mword) : Mword := if G.iommu = .amd then iptAttr a else a

def guestOrd : Nat := if G.npt then G.host.ord else G.eptOrd

def guestAttr (x : Mdb) (a : Mword) : Mword := if G.npt then hwAttr a else eptAttr a x.nodeType

/-- The part of `Space_mem::update` for devices. -/
def updateDevice (x : Mdb) (r : Mword) (q : Backed θ) : Backed θ × Bool × Bool :=
  if x.nodeSub &&& 0x1 = 0 ∨ G.iommu = .none then (q, false, false)
  else
    let o := x.nodeOrder.toNat
    let ord := min o G.deviceOrd
    let (t, oom) := MemState.treeParts G.host x r (G.deviceAttr (x.nodeAttr &&& ~~~r)) ord
      (2 ^ (o - ord)) 0 (⟨q.quota, q.device, q.wild⟩, false)
    ({ q with quota := t.1.quota, device := t.1.hpt, wild := t.1.wild },
      t.2 || (G.forceFlush && G.iommu == .intel), oom)

/-- The part of `Space_mem::update` for guests. -/
def updateGuest (x : Mdb) (r : Mword) (q : Backed θ) : Backed θ × Bool :=
  if x.nodeSub &&& 0x2 = 0 then (q, false)
  else
    let o := x.nodeOrder.toNat
    let ord := min o G.guestOrd
    let (t, oom) := MemState.treeParts G.host x r (G.guestAttr x (x.nodeAttr &&& ~~~r)) ord
      (2 ^ (o - ord)) 0 (⟨q.quota, q.guest, q.wild⟩, false)
    ({ q with quota := t.1.quota, guest := t.1.hpt, wild := t.1.wild }, oom)

/-- What `Space_mem::update` does before it comes to the host page table. -/
def others (x : Mdb) (r : Mword) (q : Backed θ) : Backed θ × Bool × Bool :=
  let (q, f, oom) := G.updateDevice x r q
  if oom then (q, f, true)
  else
    let (q, oom) := G.updateGuest x r q
    (q, f, oom)

def tables : Tables (Backed θ) where
  quotas :=
    { hitLimit := fun pd q => G.host.quotas.hitLimit pd q.quota
      alloc := fun pd q => { q with quota := G.host.quotas.alloc pd q.quota }
      destroy := fun pd q => { q with quota := G.host.quotas.destroy pd q.quota }
      check := fun pd q => G.host.quotas.check pd q.quota
      allocPage := fun pd q => { q with quota := G.host.quotas.allocPage pd q.quota }
      junk := fun q => G.host.quotas.junk q.quota }
  ord := G.host.ord
  ord_le := G.host.ord_le
  others := G.others
  check pd o q := G.host.check pd o q.quota
  draw pd q := { q with quota := G.host.draw pd q.quota }
  loc x r q :=
    let (quota, oom) := G.host.loc x r q.quota
    ({ q with quota := quota }, oom)

end Gear

/-- Page tables of one kind: the largest order of an entry, the pages they are
about, and the nodes that are mapped in them. -/
structure Kind where
  ord : Nat
  limit : Nat
  uses : Mdb → Prop
  limit_le : limit ≤ 512 ^ 4
  top_le : ∀ x, uses x → x.top ≤ limit
  same : ∀ x x', SameNode x' x → uses x → uses x'

/-- The page `q` is mapped on level `l` for the node `x`. -/
structure BacksAt (K : Kind) (x : Mdb) (q l : Nat) : Prop where
  low : x.nodeBase.toNat ≤ q
  high : q < x.top
  uses : K.uses x
  attr : x.nodeAttr ≠ 0
  level : l = min x.nodeOrder.toNat K.ord / 9

def Backs {σ : Type} (K : Kind) (tree : PdId → Entry Pte) (st : State σ) : Prop :=
  ∀ pd q, q < K.limit → ∀ l y, find 512 4 (tree pd) q = some (l, y) →
    l = 0 ∨ ∃ n ∈ st.tree pd, BacksAt K (st.mdb n) q l

/-- The pages of `x` were updated: they are mapped with what is left of its rights,
or not mapped, or as they were. -/
structure Refilled (K : Kind) (x : Mdb) (r : Mword) (tree tree' : PdId → Entry Pte) : Prop where
  other : ∀ pd, pd ≠ x.space → tree' pd = tree pd
  out : ∀ q, q < K.limit → ¬(x.nodeBase.toNat ≤ q ∧ q < x.top) →
    find 512 4 (tree' x.space) q = find 512 4 (tree x.space) q
  inn : ∀ q, q < K.limit → x.nodeBase.toNat ≤ q → q < x.top → ∀ l y,
    find 512 4 (tree' x.space) q = some (l, y) →
      (K.uses x ∧ x.nodeAttr &&& ~~~r ≠ 0 ∧ l = min x.nodeOrder.toNat K.ord / 9) ∨
        ((r = 0 ∨ ¬K.uses x) ∧ find 512 4 (tree x.space) q = some (l, y))

theorem Refilled.refl (K : Kind) {x : Mdb} {r : Mword} (hx : r = 0 ∨ ¬K.uses x)
    (tree : PdId → Entry Pte) : Refilled K x r tree tree :=
  ⟨fun _ _ => rfl, fun _ _ _ => rfl, fun _ _ _ _ _ _ hf => .inr ⟨hx, hf⟩⟩

section Backs

variable {σ : Type} {S : SpaceOps σ} {E : σ → σ → Prop} {K : Kind} {tree tree' : PdId → Entry Pte}
  {st st' : State σ} {m n : NodeId} {pd : PdId} {q l : Nat} {x x' : Mdb}

theorem BacksAt.of_same (h : BacksAt K x q l) (hs : SameNode x' x) (ha : x'.nodeAttr ≠ 0) :
    BacksAt K x' q l := by
  refine ⟨?_, ?_, K.same x x' hs h.uses, ha, ?_⟩
  · rw [hs.base]
    exact h.low
  · unfold Mdb.top
    rw [hs.base, hs.order]
    exact h.high
  · rw [hs.order]
    exact h.level

theorem BacksAt.unique (hw : Wf st) (hn : n ∈ st.tree pd) (hm : m ∈ st.tree pd) {l' : Nat}
    (h : BacksAt K (st.mdb m) q l') (hlow : (st.mdb n).nodeBase.toNat ≤ q) (hhigh : q < (st.mdb n).top) :
    m = n := by
  have htop := K.top_le _ h.uses
  have hle := K.limit_le
  have hq : (BitVec.ofNat 64 q).toNat = q := by
    have := h.high
    rw [BitVec.toNat_ofNat]
    exact Nat.mod_eq_of_lt (by omega)
  have h1 : st.lookup pd (BitVec.ofNat 64 q) false = some m :=
    hw.lookup_iff.mpr ⟨hm, by rw [hq]; exact h.low, by rw [hq]; exact h.high⟩
  have h2 : st.lookup pd (BitVec.ofNat 64 q) false = some n :=
    hw.lookup_iff.mpr ⟨hn, by rw [hq]; exact hlow, by rw [hq]; exact hhigh⟩
  exact Option.some.inj (h1.symm.trans h2)

theorem Backs.quiet (h : Backs K tree st) (hw : Wf st) (hq : Quiet E st st') : Backs K tree st' := by
  intro pd q hlt l y hf
  rcases h pd q hlt l y hf with h0 | ⟨n, hn, hat⟩
  · exact .inl h0
  · refine .inr ⟨n, by rw [hq.tree]; exact hn, ?_⟩
    rwa [hq.mdb n (hw.mem pd n hn).2]

theorem Backs.added (h : Backs K tree st) (hw : Wf st) (ha : Added st st' n) : Backs K tree st' := by
  intro pd q hlt l y hf
  rcases h pd q hlt l y hf with h0 | ⟨m, hm, hat⟩
  · exact .inl h0
  · have hold := ha.old m (hw.mem pd m hm).2
    refine .inr ⟨m, ?_, hat.of_same hold.1 (by rw [hold.2.1]; exact hat.attr)⟩
    by_cases hpd : pd = (st'.mdb n).space
    · subst hpd
      exact (ha.tree m).mpr (Or.inr hm)
    · rw [ha.tree_ne pd hpd]
      exact hm

theorem Backs.refilled {r : Mword} (h : Backs K tree st) (hn : n ∈ st'.tree (st'.mdb n).space)
    (hs : SameNode (st'.mdb n) x) (ha : (st'.mdb n).nodeAttr = x.nodeAttr &&& ~~~r)
    (hr : Refilled K x r tree tree')
    (hold : ∀ q l y, q < K.limit → x.nodeBase.toNat ≤ q → q < x.top → r = 0 ∨ ¬K.uses x →
      find 512 4 (tree x.space) q = some (l, y) → l = 0 ∨ BacksAt K (st'.mdb n) q l)
    (hkeep : ∀ pd q m l, m ∈ st.tree pd → BacksAt K (st.mdb m) q l →
      ¬(pd = x.space ∧ x.nodeBase.toNat ≤ q ∧ q < x.top) →
        ∃ m ∈ st'.tree pd, BacksAt K (st'.mdb m) q l) : Backs K tree' st' := by
  intro pd q hlt l y hf
  by_cases hin : pd = x.space ∧ x.nodeBase.toNat ≤ q ∧ q < x.top
  · obtain ⟨rfl, h1, h2⟩ := hin
    have hn' : n ∈ st'.tree x.space := by rwa [← hs.space]
    rcases hr.inn q hlt h1 h2 l y hf with ⟨hu, hne, hl⟩ | ⟨hc, hsame⟩
    · refine .inr ⟨n, hn', ?_, ?_, K.same _ _ hs hu, by rwa [ha], ?_⟩
      · rw [hs.base]
        exact h1
      · unfold Mdb.top
        rw [hs.base, hs.order]
        exact h2
      · rw [hs.order]
        exact hl
    · exact (hold q l y hlt h1 h2 hc hsame).imp_right fun hat => ⟨n, hn', hat⟩
  · have hsame : find 512 4 (tree pd) q = some (l, y) := by
      by_cases hpd : pd = x.space
      · subst hpd
        rw [← hr.out q hlt fun hq => hin ⟨rfl, hq⟩]
        exact hf
      · rw [← hr.other pd hpd]
        exact hf
    rcases h pd q hlt l y hsame with h0 | ⟨m, hm, hat⟩
    · exact .inl h0
    · exact .inr (hkeep pd q m l hm hat hin)

theorem Backs.granted (h : Backs K tree st) (hw : Wf st) (hg : Granted S E st st' m n)
    (hr : Refilled K (st'.mdb n) 0 tree tree') : Backs K tree' st' := by
  have hw' := hg.wf hw
  have hnew : n ∈ st'.tree (st'.mdb n).space := (hg.tree n).mpr (Or.inl rfl)
  have hmore := h.added hw hg.toAdded
  refine h.refilled hnew (SameNode.refl _) (by rw [and_not_zero]) hr ?_ ?_
  · -- no other node covers a page of the new one
    intro q l y hlt h1 h2 _ hf
    rcases hmore _ q hlt l y hf with h0 | ⟨m', hm', hat⟩
    · exact .inl h0
    · obtain rfl := hat.unique hw' hnew hm' h1 h2
      exact .inr hat
  · intro pd q m' l hm' hat _
    have hold := hg.old m' (hw.mem pd m' hm').2
    refine ⟨m', ?_, hat.of_same hold.1 (by rw [hold.2.1]; exact hat.attr)⟩
    by_cases hpd : pd = (st'.mdb n).space
    · subst hpd
      exact (hg.tree m').mpr (Or.inr hm')
    · rw [hg.tree_ne pd hpd]
      exact hm'

theorem Backs.demoted {r : Mword} (h : Backs K tree st) (hw : Wf st) (hd : Demoted st st' n r)
    (hr : Refilled K (st.mdb n) r tree tree') : Backs K tree' st' := by
  have hsame := (hd.node n).1
  have hattr : (st'.mdb n).nodeAttr = (st.mdb n).nodeAttr &&& ~~~r := by
    rw [hd.attr, if_pos rfl]
  have hlive : n ∈ st.tree (st.mdb n).space := hd.live
  have hn : n ∈ st'.tree (st'.mdb n).space := by
    rw [hd.tree, hsame.space]
    exact hlive
  refine h.refilled hn hsame hattr hr ?_ ?_
  · intro q l y hlt h1 h2 hc hf
    rcases h _ q hlt l y hf with h0 | ⟨m, hm, hat⟩
    · exact .inl h0
    · obtain rfl := hat.unique hw hlive hm h1 h2
      rcases hc with rfl | hu
      · refine .inr (hat.of_same hsame ?_)
        rw [hattr, and_not_zero]
        exact hat.attr
      · exact absurd hat.uses hu
  · intro pd q m l hm hat hout
    have hmn : m ≠ n := by
      rintro rfl
      exact hout ⟨(hw.mem pd m hm).1.symm, hat.low, hat.high⟩
    refine ⟨m, by rw [hd.tree]; exact hm, hat.of_same (hd.node m).1 ?_⟩
    rw [hd.attr, if_neg hmn]
    exact hat.attr

theorem Backs.dropped {leaf : Bool} (h : Backs K tree st) (hw : Wf st) (hd : Dropped leaf st st' n) :
    Backs K tree st' := by
  intro pd q hlt l y hf
  rcases h pd q hlt l y hf with h0 | ⟨m, hm, hat⟩
  · exact .inl h0
  · have hmn : m ≠ n := by
      rintro rfl
      exact hat.attr hd.attr
    have hlive := (hd.live_iff hw m).mpr ⟨hmn, hw.live_of_mem hm⟩
    unfold State.Live at hlive
    rw [(hd.node m).1.space, (hw.mem pd m hm).1] at hlive
    exact .inr ⟨m, hlive, hat.of_same (hd.node m).1 (by rw [(hd.node m).2]; exact hat.attr)⟩

end Backs

section Fits

variable {σ : Type} {K : Kind} {tree : PdId → Entry Pte} {st : State σ} {n : NodeId} {x : Mdb}
  {r a : Mword} {T : Tables θ}

/-- No page of `x` is part of a larger page than `x` is mapped with. -/
def Fits (K : Kind) (x : Mdb) (tree : PdId → Entry Pte) : Prop :=
  K.uses x → ∀ q l y, x.nodeBase.toNat ≤ q → q < x.top →
    find 512 4 (tree x.space) q = some (l, y) → l ≤ min x.nodeOrder.toNat K.ord / 9

theorem Backs.fits (h : Backs K tree st) (hw : Wf st) (hn : st.Live n) : Fits K (st.mdb n) tree := by
  intro hu q l y h1 h2 hf
  have hlt := K.top_le _ hu
  rcases h _ q (by omega) l y hf with rfl | ⟨m, hm, hat⟩
  · exact Nat.zero_le _
  · obtain rfl := hat.unique hw hn hm h1 h2
    exact hat.level.le

theorem treeParts_oom {ord : Nat} (k i : Nat) (t : MemState θ × Bool)
    (h : (MemState.treeParts T x r a ord k i t).2 = true) : r = 0 := by
  induction k generalizing i t with
  | zero => simp [MemState.treeParts] at h
  | succ k ih =>
    unfold MemState.treeParts at h
    split at h
    · rename_i hr
      exact hr.1
    · exact ih _ _ h

theorem parts_refilled {s : MemState θ} (hx : x.Natural) (hu : K.uses x) (h26 : K.ord ≤ 26)
    (hf : Fits K x s.hpt) (ha : a ≠ 0 → x.nodeAttr &&& ~~~r ≠ 0) {t : MemState θ × Bool}
    (ht : t = (MemState.treeParts T x r a (min x.nodeOrder.toNat K.ord)
      (2 ^ (x.nodeOrder.toNat - min x.nodeOrder.toNat K.ord)) 0 (s, false)).1) :
    Refilled K x r s.hpt t.1.hpt ∧ t.1.wild = s.wild := by
  have htop := K.top_le _ hu
  have hlim := K.limit_le
  have h := treeParts_rewrote (T := T) (r := r) (a := a)
    (show min x.nodeOrder.toNat K.ord ≤ 26 by omega) (Nat.min_le_left _ _) hx (by omega)
    (2 ^ (x.nodeOrder.toNat - min x.nodeOrder.toNat K.ord)) 0 (s, false) (by omega)
    (fun q l y h1 h2 _ hq => hf hu q l y h1 h2 hq)
  rw [Nat.zero_add, ← Nat.pow_add, Nat.sub_add_cancel (Nat.min_le_left _ _), Nat.zero_mul,
    Nat.add_zero, ← ht] at h
  refine ⟨⟨h.other, fun q hq hout => h.out q (by omega) hout, ?_⟩, h.wild⟩
  intro q _ h1 h2 l y hq
  rcases h.inn q h1 h2 with (hnone | ⟨ha0, hsome⟩) | ⟨hr, hsame⟩
  · rw [hq] at hnone
    simp at hnone
  · rw [hq] at hsome
    exact .inl ⟨hu, ha ha0, (Prod.mk.inj (Option.some.inj hsome)).1⟩
  · rw [hq] at hsame
    exact .inr ⟨.inl hr, hsame.symm⟩

end Fits

/-- Changes that show in no page table of a device or a guest. -/
structure SameTrees (q q' : Backed θ) : Prop where
  device : q'.device = q.device
  guest : q'.guest = q.guest
  wild : q'.wild = q.wild

theorem SameTrees.refl (q : Backed θ) : SameTrees q q := ⟨rfl, rfl, rfl⟩

theorem SameTrees.trans {q q' q'' : Backed θ} (h : SameTrees q q') (h' : SameTrees q' q'') :
    SameTrees q q'' :=
  ⟨h'.device.trans h.device, h'.guest.trans h.guest, h'.wild.trans h.wild⟩

/-- Changes that show in no page table at all. -/
structure SameWalks (s s' : MemState (Backed θ)) : Prop where
  host : SameTables s s'
  trees : SameTrees s.quota s'.quota

namespace Gear

variable (G : Gear θ)

def hostKind : Kind where
  ord := G.host.ord
  limit := userPages.toNat
  uses x := x.top ≤ userPages.toNat
  limit_le := userPages_lt.le
  top_le _ h := h
  same x x' hs h := by
    unfold Mdb.top
    rw [hs.base, hs.order]
    exact h

def deviceKind : Kind where
  ord := G.deviceOrd
  limit := 512 ^ 4
  uses x := ¬(x.nodeSub &&& 0x1 = 0 ∨ G.iommu = .none) ∧ x.top ≤ 512 ^ 4
  limit_le := le_rfl
  top_le _ h := h.2
  same x x' hs h := by
    unfold Mdb.top
    rw [hs.base, hs.order, hs.sub]
    exact h

def guestKind : Kind where
  ord := G.guestOrd
  limit := 512 ^ 4
  uses x := x.nodeSub &&& 0x2 ≠ 0 ∧ x.top ≤ 512 ^ 4
  limit_le := le_rfl
  top_le _ h := h.2
  same x x' hs h := by
    unfold Mdb.top
    rw [hs.base, hs.order, hs.sub]
    exact h

/-- A node that is mapped for devices or guests lies where their page tables reach. -/
def InReach (x : Mdb) : Prop :=
  ¬(x.nodeSub &&& 0x1 = 0 ∨ G.iommu = .none) ∨ x.nodeSub &&& 0x2 ≠ 0 → x.top ≤ 512 ^ 4

theorem InReach.of_same {G : Gear θ} {x x' : Mdb} (h : G.InReach x) (hs : SameNode x' x) :
    G.InReach x' := by
  unfold InReach Mdb.top
  rw [hs.sub, hs.base, hs.order]
  exact h

theorem guestOrd_le : G.guestOrd ≤ 26 := by
  unfold guestOrd
  split
  · exact G.host.ord_le
  · exact G.ept_le

variable {G} {x : Mdb} {r : Mword} {q : Backed θ} {s : MemState (Backed θ)}

theorem deviceAttr_ne {a : Mword} (h : G.deviceAttr a ≠ 0) : a ≠ 0 := by
  rintro rfl
  apply h
  unfold deviceAttr
  split
  · rfl
  · rfl

theorem guestAttr_ne {a : Mword} (h : G.guestAttr x a ≠ 0) : a ≠ 0 := by
  rintro rfl
  apply h
  unfold guestAttr
  split
  · exact (hwAttr_eq_zero_iff 0).mpr rfl
  · simp [eptAttr]

theorem updateDevice_refilled (hx : x.Natural) (hlow : G.InReach x)
    (hf : Fits G.deviceKind x q.device) :
    Refilled G.deviceKind x r q.device (G.updateDevice x r q).1.device ∧
      (G.updateDevice x r q).1.guest = q.guest ∧ (G.updateDevice x r q).1.wild = q.wild := by
  unfold updateDevice
  split
  · rename_i hno
    exact ⟨.refl G.deviceKind (.inr fun hu => hu.1 hno) _, rfl, rfl⟩
  · rename_i hyes
    have hu : G.deviceKind.uses x := ⟨hyes, hlow (.inl hyes)⟩
    have h := parts_refilled (T := G.host) (r := r) (s := ⟨q.quota, q.device, q.wild⟩) hx hu
      G.device_le hf (a := G.deviceAttr (x.nodeAttr &&& ~~~r)) deviceAttr_ne rfl
    exact ⟨h.1, rfl, h.2⟩

theorem updateDevice_oom (h : (G.updateDevice x r q).2.2 = true) : r = 0 := by
  unfold updateDevice at h
  split at h
  · simp at h
  · exact treeParts_oom _ _ _ h

theorem updateGuest_refilled (hx : x.Natural) (hlow : G.InReach x)
    (hf : Fits G.guestKind x q.guest) :
    Refilled G.guestKind x r q.guest (G.updateGuest x r q).1.guest ∧
      (G.updateGuest x r q).1.device = q.device ∧ (G.updateGuest x r q).1.wild = q.wild := by
  unfold updateGuest
  split
  · rename_i hno
    exact ⟨.refl G.guestKind (.inr fun hu => hu.1 hno) _, rfl, rfl⟩
  · rename_i hyes
    have hu : G.guestKind.uses x := ⟨hyes, hlow (.inr hyes)⟩
    have h := parts_refilled (T := G.host) (r := r) (s := ⟨q.quota, q.guest, q.wild⟩) hx hu
      G.guestOrd_le hf (a := G.guestAttr x (x.nodeAttr &&& ~~~r)) guestAttr_ne rfl
    exact ⟨h.1, rfl, h.2⟩

theorem others_refilled (hx : x.Natural) (hlow : G.InReach x) (hd : Fits G.deviceKind x q.device)
    (hg : Fits G.guestKind x q.guest) :
    Refilled G.deviceKind x r q.device (G.others x r q).1.device ∧
      Refilled G.guestKind x r q.guest (G.others x r q).1.guest ∧
        (G.others x r q).1.wild = q.wild := by
  obtain ⟨h1, h2, h3⟩ := updateDevice_refilled (r := r) hx hlow hd
  unfold others
  cases hoom : (G.updateDevice x r q).2.2 with
  | true =>
    -- memory ran out before it came to the guests
    obtain rfl := updateDevice_oom hoom
    simp only [hoom, if_true]
    refine ⟨h1, ?_, h3⟩
    rw [h2]
    exact .refl _ (.inl rfl) _
  | false =>
    simp only [hoom, Bool.false_eq_true, if_false]
    rw [← h2] at hg
    obtain ⟨h4, h5, h6⟩ := updateGuest_refilled (r := r) hx hlow hg
    rw [h2] at h4
    refine ⟨?_, h4, h6.trans h3⟩
    rw [h5]
    exact h1

theorem hptUpdate_trees (pd : PdId) (v : Mword) (o : Nat) (p a : Mword) (up : Bool) :
    SameTrees s.quota (s.hptUpdate G.tables pd v o p a up).1.quota := by
  unfold MemState.hptUpdate
  dsimp only
  split
  · exact .refl _
  · exact .refl _
  · exact ⟨rfl, rfl, rfl⟩

theorem mapParts_trees (a : Mword) (ord k i : Nat) (t : MemState (Backed θ) × Bool) :
    SameTrees t.1.quota (MemState.mapParts G.tables x r a ord k i t).1.1.quota := by
  induction k generalizing i t with
  | zero => exact .refl _
  | succ k ih =>
    unfold MemState.mapParts
    split
    · exact .refl _
    · have h := hptUpdate_trees (G := G) (s := t.1) x.space
        (x.nodeBase + BitVec.ofNat 64 (i * 2 ^ ord)) ord
        (x.nodePhys + BitVec.ofNat 64 (i * 2 ^ ord)) (hwAttr a) (decide (r = 0))
      dsimp only
      generalize MemState.hptUpdate G.tables x.space _ ord _ (hwAttr a) _ t.1 = u at h ⊢
      exact h.trans (ih (i + 1) (u.1, t.2 || u.2))

theorem update_trees :
    SameTrees (G.others x r s.quota).1 (MemState.update G.tables x r s).1.quota := by
  unfold MemState.update
  dsimp only
  split
  · exact .refl _
  · split
    · exact .refl _
    · have h := mapParts_trees (G := G) (x := x) (r := r)
        (MemState.writeThrough x (x.nodeAttr &&& ~~~r)) (min x.nodeOrder.toNat G.tables.ord)
        (2 ^ (x.nodeOrder.toNat - min x.nodeOrder.toNat G.tables.ord)) 0
        ({ s with quota := (G.tables.others x r s.quota).1 }, (G.tables.others x r s.quota).2.1)
      split
      · exact h
      · split
        · exact h.trans ⟨rfl, rfl, rfl⟩
        · exact h

theorem host_refilled (hx : x.Natural) (hf : Fits G.hostKind x s.hpt) :
    Refilled G.hostKind x r s.hpt (MemState.update G.tables x r s).1.hpt ∧
      (MemState.update G.tables x r s).1.wild = s.wild := by
  have hlim := G.hostKind.limit_le
  have h := update_rewrote (T := G.tables) (s := s) (r := r) hx hf
  refine ⟨⟨h.other, fun q hq hout => h.out q (lt_of_lt_of_le hq hlim) hout, ?_⟩, h.wild⟩
  intro q _ h1 h2 l y hq
  rcases h.inn q h1 h2 with ⟨hu, hnone | ⟨ha, hsome⟩⟩ | ⟨hr, hsame⟩
  · rw [hq] at hnone
    simp at hnone
  · rw [hq] at hsome
    refine .inl ⟨hu, ?_, (Prod.mk.inj (Option.some.inj hsome)).1⟩
    intro h0
    exact ha ((writeThrough_eq_zero_iff _ _).mpr h0)
  · rw [hq] at hsame
    exact .inr ⟨hr.imp_right fun h hu => absurd hu (not_le.mpr h), hsame.symm⟩

/-- All page tables after the pages of `x` were updated. -/
structure Updated (G : Gear θ) (x : Mdb) (r : Mword) (s s' : MemState (Backed θ)) : Prop where
  host : Refilled G.hostKind x r s.hpt s'.hpt
  device : Refilled G.deviceKind x r s.quota.device s'.quota.device
  guest : Refilled G.guestKind x r s.quota.guest s'.quota.guest
  wild : s'.wild = s.wild
  trees_wild : s'.quota.wild = s.quota.wild

theorem update_updated (hx : x.Natural) (hlow : G.InReach x) (hh : Fits G.hostKind x s.hpt)
    (hd : Fits G.deviceKind x s.quota.device) (hg : Fits G.guestKind x s.quota.guest) :
    Updated G x r s (MemState.update G.tables x r s).1 := by
  obtain ⟨h1, h2⟩ := host_refilled (r := r) hx hh
  obtain ⟨h3, h4, h5⟩ := others_refilled (r := r) hx hlow hd hg
  have hsame := update_trees (G := G) (x := x) (r := r) (s := s)
  refine ⟨h1, ?_, ?_, h2, hsame.wild.trans h5⟩
  · rw [hsame.device]
    exact h3
  · rw [hsame.guest]
    exact h4

theorem walks_frame : (memSpace G.tables).Frame SameWalks where
  refl _ := ⟨⟨rfl, rfl⟩, .refl _⟩
  trans _ _ _ h h' := ⟨⟨h'.host.1.trans h.host.1, h'.host.2.trans h.host.2⟩, h.trees.trans h'.trees⟩
  alloc _ _ := ⟨⟨rfl, rfl⟩, ⟨rfl, rfl, rfl⟩⟩
  destroy _ _ := ⟨⟨rfl, rfl⟩, ⟨rfl, rfl, rfl⟩⟩

end Gear

end Tukija.Space
