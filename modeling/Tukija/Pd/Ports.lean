import Tukija.Pd.Clamp
import Tukija.Pd.Crd
import Tukija.Pd.Runs

/-! Delegations of I/O ports.  `del_crd` does not align what it is given here,
so the nodes it makes need not be natural and nothing but ranges is tracked. -/
namespace Tukija.Pd

open Tukija.Lib.Word Tukija.Mapdb

variable {σ : Type} {S : SpaceOps σ} {st t t' : State σ}

section Ranges

variable {n : NodeId} {h h' h'' : Heap}

def SameRange (x y : Mdb) : Prop := x.nodeBase = y.nodeBase ∧ x.nodeOrder = y.nodeOrder

/-- No range changes, and no rights but those of `n`. -/
def Steady (n : NodeId) (h h' : Heap) : Prop :=
  ∀ x, SameRange (h' x) (h x) ∧ (x ≠ n → (h' x).nodeAttr = (h x).nodeAttr)

theorem Steady.refl (n : NodeId) (h : Heap) : Steady n h h := fun _ => ⟨⟨rfl, rfl⟩, fun _ => rfl⟩

theorem Steady.trans (hs : Steady n h h') (hs' : Steady n h' h'') : Steady n h h'' := fun x =>
  ⟨⟨(hs' x).1.1.trans (hs x).1.1, (hs' x).1.2.trans (hs x).1.2⟩,
    fun hx => ((hs' x).2 hx).trans ((hs x).2 hx)⟩

theorem Steady.set (m : NodeId) {f : Mdb → Mdb} (hf : ∀ x, SameRange (f x) x)
    (ha : m ≠ n → ∀ x, (f x).nodeAttr = x.nodeAttr) : Steady n h (h.set m f) := by
  intro x
  rw [Heap.set_apply]
  split
  · rename_i hx
    rw [hx]
    exact ⟨hf (h m), fun hm => ha hm (h m)⟩
  · exact ⟨⟨rfl, rfl⟩, fun _ => rfl⟩

theorem Steady.insertNode (h : Heap) (n p : NodeId) (a : Mword) :
    Steady n h (insertNode h n p a).2 := by
  have h1 : Steady n h (h.set n fun x => { x with nodeAttr := (h p).nodeAttr &&& a }) :=
    Steady.set n (fun _ => ⟨rfl, rfl⟩) fun hn => absurd rfl hn
  unfold Mapdb.insertNode
  dsimp only
  split
  · exact h1
  · refine h1.trans ((Steady.set n (f := fun y => { y with prev := p, prnt := some p, next := _ }) ?_ ?_).trans
      ((Steady.set _ (f := fun y => { y with prev := n }) ?_ ?_).trans
        (Steady.set p (f := fun y => { y with next := n }) ?_ ?_)))
    all_goals first | exact fun _ => ⟨rfl, rfl⟩ | exact fun _ _ => rfl

theorem Steady.removeNode (n : NodeId) (h : Heap) (m : NodeId) (leaf : Bool) :
    Steady n h (removeNode h m leaf).2 := by
  intro x
  cases hr : (Mapdb.removeNode h m leaf).1 with
  | true =>
    rw [removeNode_apply hr x]
    exact ⟨⟨rfl, rfl⟩, fun _ => rfl⟩
  | false =>
    have hsame : (Mapdb.removeNode h m leaf).2 = h := by
      unfold Mapdb.removeNode at hr ⊢
      dsimp only at hr ⊢
      split at hr
      · rw [if_pos ‹_›]
      split at hr
      · rw [if_neg ‹_›, if_pos ‹_›]
      split at hr
      · rw [if_neg ‹_›, if_neg ‹_›, if_pos ‹_›]
      simp at hr
    rw [hsame]
    exact ⟨⟨rfl, rfl⟩, fun _ => rfl⟩

theorem Steady.demote (st : State σ) (S : SpaceOps σ) (n : NodeId) (r : Mword) :
    Steady n st.mdb (st.demote S n r).mdb :=
  Steady.set n (f := fun y => { y with nodeAttr := y.nodeAttr &&& ~~~r }) (fun _ => ⟨rfl, rfl⟩)
    fun hn => absurd rfl hn

end Ranges

theorem treeRemove_subset {h : Heap} {tr tr' : Tree} {n x : NodeId} (hr : treeRemove h tr n = some tr')
    (hx : x ∈ tr') : x ∈ tr := by
  unfold treeRemove at hr
  split at hr
  · simp at hr
  · obtain rfl := Option.some.inj hr
    exact List.mem_of_mem_erase hx

theorem remove_ranges (st : State σ) (n : NodeId) (leaf : Bool) :
    Steady n st.mdb (st.remove n leaf).mdb ∧
      (∀ q x, x ∈ (st.remove n leaf).tree q → x ∈ st.tree q) ∧
        (st.remove n leaf).fresh = st.fresh := by
  have hsame := Steady.removeNode n st.mdb n leaf
  unfold State.remove
  split
  · exact ⟨Steady.refl n _, fun _ _ h => h, rfl⟩
  · rename_i h hr
    rw [hr] at hsame
    split
    · exact ⟨hsame, fun _ _ h => h, rfl⟩
    · rename_i tr ht
      refine ⟨hsame, fun q x hx => ?_, rfl⟩
      dsimp only at hx
      by_cases hq : q = (h n).space
      · subst hq
        rw [Function.update_self] at hx
        exact treeRemove_subset ht hx
      · rwa [Function.update_of_ne hq] at hx

structure Extent where
  base : Mword
  order : Mword
  attr : Mword
  deriving DecidableEq

namespace Extent

def equal (x y : Extent) : Bool := shr (x.base ^^^ y.base) (wmax x.order y.order) == 0

def last (x : Extent) : Mword := x.base + shl 1 x.order

/-- `Mdb::lookup` with `next`. -/
def find (xs : List Extent) (addr : Mword) : Option Extent :=
  match xs.find? fun x => shr (x.base ^^^ addr) x.order == 0 with
  | some x => some x
  | none => xs.find? fun x => decide (addr < x.base)

/-- The part of the node that `delegate` hands on. -/
def clip (start ord : Mword) (x : Extent) : Option Extent :=
  let c := clamp x.base start x.order ord
  if c.1 = ones then none else some ⟨c.2, c.1, x.attr⟩

/-- Bases are those of descriptors, and so are orders. -/
def Small (x : Extent) : Prop := x.base.toNat < 2 ^ 52 ∧ x.order.toNat < 32

instance (x : Extent) : Decidable x.Small := inferInstanceAs (Decidable (_ ∧ _))

end Extent

def extent (x : Mdb) : Extent := ⟨x.nodeBase, x.nodeOrder, x.nodeAttr⟩

def State.extents (st : State σ) (q : PdId) : List Extent := (st.tree q).map fun n => extent (st.mdb n)

theorem lookup_extents (st : State σ) (q : PdId) (addr : Mword) :
    (st.lookup q addr true).map (fun n => extent (st.mdb n)) = Extent.find (st.extents q) addr := by
  unfold State.lookup lookup Extent.find State.extents
  rw [List.find?_map, List.find?_map]
  simp only [Function.comp_def, extent, Mdb.covers, if_true]
  cases (st.tree q).find? fun n => shr ((st.mdb n).nodeBase ^^^ addr) (st.mdb n).nodeOrder == 0 with
  | none => rfl
  | some n => rfl

/-- At most one node was made, of the given range and for a free place in the
tree of `this`. -/
structure Made (t t' : State σ) (this : PdId) (base order : Mword) : Prop where
  fresh : t.fresh ≤ t'.fresh
  old : ∀ x < t.fresh, extent (t'.mdb x) = extent (t.mdb x)
  tree : ∀ q n, n ∈ t'.tree q → n ∈ t.tree q ∨
    q = this ∧ n = t.fresh ∧ t.fresh < t'.fresh ∧ (t'.mdb n).nodeBase = base ∧
      (t'.mdb n).nodeOrder = order ∧
        ∀ x ∈ t.tree this, x < t.fresh → (Extent.equal ⟨base, order, 0⟩ (extent (t.mdb x))) = false

theorem Made.later {this : PdId} {base order : Mword} (h : Made t t' this base order)
    {t'' : State σ} (hs : Steady t.fresh t'.mdb t''.mdb)
    (ht : ∀ q x, x ∈ t''.tree q → x ∈ t'.tree q) (hf : t''.fresh = t'.fresh) :
    Made t t'' this base order where
  fresh := by
    rw [hf]
    exact h.fresh
  old x hx := by
    rw [← h.old x hx]
    obtain ⟨⟨hb, ho⟩, ha⟩ := hs x
    simp only [extent, hb, ho, ha hx.ne]
  tree q n hn := by
    rcases h.tree q n (ht q n hn) with hn | ⟨hq, hn, hlt, hb, ho, hfree⟩
    · exact Or.inl hn
    · refine Or.inr ⟨hq, hn, ?_, (hs n).1.1.trans hb, (hs n).1.2.trans ho, hfree⟩
      rw [hf]
      exact hlt

theorem delegateNode_made {this : PdId} {sndBase rcvBase attr sub b o : Mword} {m : NodeId} {s : Bool}
    {c : Ctl (State σ × Bool)}
    (h : delegateNode S this sndBase rcvBase attr sub m b o (t, s) = some c) :
    Made t c.val.1 this (b - sndBase + rcvBase) o := by
  have hnone : Made t t this (b - sndBase + rcvBase) o :=
    ⟨le_rfl, fun _ _ => rfl, fun _ _ hn => Or.inl hn⟩
  unfold delegateNode at h
  dsimp only at h
  split at h
  · obtain rfl := Option.some.inj h
    exact hnone.later (Steady.refl _ _) (fun _ _ h => h) rfl
  generalize hx : childOf S this sndBase rcvBase sub (t.mdb m) t.fresh b o = x at h
  have hold : ∀ y < t.fresh, (t.alloc S this x).mdb y = t.mdb y := fun y hy => alloc_old hy
  have hnew : (t.alloc S this x).mdb t.fresh = x := alloc_new
  have halloc : Made t (t.alloc S this x) this (b - sndBase + rcvBase) o :=
    ⟨Nat.le_succ _, fun y hy => by rw [hold y hy], fun _ _ hn => Or.inl hn⟩
  split at h
  · obtain rfl := Option.some.inj h
    exact halloc.later (Steady.refl _ _) (fun _ _ h => h) rfl
  rename_i tree ht
  obtain ⟨hfree, rfl⟩ := treeInsert_some ht
  -- the new node is in the tree
  have htree : Made t ((t.alloc S this x).setTree this
      (insertOrdered (t.alloc S this x).mdb t.fresh ((t.alloc S this x).tree this)))
      this (b - sndBase + rcvBase) o := by
    refine ⟨Nat.le_succ _, halloc.old, fun q n hn => ?_⟩
    by_cases hq : q = this
    · subst hq
      simp only [State.setTree, Function.update_self] at hn
      rcases mem_insertOrdered.mp hn with rfl | hn
      · refine Or.inr ⟨rfl, rfl, Nat.lt_succ_self _, ?_, ?_, fun y hy hlt => ?_⟩
        · simp only [State.setTree, hnew]
          rw [← hx]
          rfl
        · simp only [State.setTree, hnew]
          rw [← hx]
          rfl
        · have := hfree y hy
          rwa [hnew, hold y hlt, ← hx] at this
      · exact Or.inl hn
    · simp only [State.setTree, Function.update_of_ne hq] at hn
      exact Or.inl hn
  have hlink := Steady.insertNode ((t.alloc S this x).setTree this
      (insertOrdered (t.alloc S this x).mdb t.fresh ((t.alloc S this x).tree this))).mdb t.fresh m attr
  generalize (t.alloc S this x).setTree this _ = t1 at h htree hlink
  split at h
  · rename_i g hg
    rw [hg] at hlink
    split at h
    · obtain rfl := Option.some.inj h
      exact htree.later hlink (fun _ _ h => h) rfl
    · rename_i tr htr
      obtain rfl := Option.some.inj h
      refine htree.later hlink (fun q y hy => ?_) rfl
      by_cases hq : q = this
      · subst hq
        simp only [Ctl.val, State.setTree, Function.update_self] at hy
        exact treeRemove_subset htr hy
      · simpa only [Ctl.val, State.setTree, Function.update_of_ne hq] using hy
  · rename_i g hg
    rw [hg] at hlink
    split at h
    · obtain rfl := Option.some.inj h
      -- out of memory: the new node is taken out again
      generalize ht2 : (State.update S t.fresh 0
        { t1 with mdb := g, orig := Function.update t1.orig t.fresh (some m) }).1 = t2
      have hlinked : Made t t2 this (b - sndBase + rcvBase) o := by
        rw [← ht2]
        exact htree.later hlink (fun _ _ h => h) rfl
      obtain ⟨hsame, hsub, hfresh⟩ := remove_ranges (t2.demote S t.fresh attr) t.fresh true
      exact hlinked.later ((Steady.demote t2 S t.fresh attr).trans hsame) hsub hfresh
    · obtain rfl := Option.some.inj h
      exact htree.later hlink (fun _ _ h => h) rfl

theorem equal_self (x : Mdb) : x.equal x = true := by simp [Mdb.equal, shr]

theorem treeRemove_insertOrdered {h h' : Heap} {tr : Tree} {n : NodeId}
    (hfree : ∀ y ∈ tr, (h' n).equal (h' y) = false) (hn : n ∉ tr) :
    treeRemove h' (insertOrdered h n tr) n = some tr := by
  have hself : n ∈ insertOrdered h n tr := mem_insertOrdered.mpr (Or.inl rfl)
  obtain ⟨y, hy⟩ : ∃ y, (insertOrdered h n tr).find? (fun x => (h' n).equal (h' x)) = some y := by
    apply Option.isSome_iff_exists.mp
    rw [List.find?_isSome]
    exact ⟨n, hself, equal_self _⟩
  have heq : (h' n).equal (h' y) = true := by simpa using List.find?_some hy
  have hyn : y = n := by
    refine (mem_insertOrdered.mp (List.mem_of_find?_eq_some hy)).resolve_right fun hmem => ?_
    rw [hfree y hmem] at heq
    exact absurd heq (by decide)
  unfold treeRemove
  rw [hy, hyn]
  dsimp only
  rw [erase_insertOrdered hn]

/-- What a pass leaves that does not end the loop: every node stays in its tree, and
a node of the range is in that of `this`, unless the rights do not go through. -/
theorem delegateNode_next {this : PdId} {sndBase rcvBase attr sub b o : Mword} {m : NodeId}
    {s s' : Bool} (hlt : ∀ q n, n ∈ t.tree q → n < t.fresh) (hm : m < t.fresh)
    (h : delegateNode S this sndBase rcvBase attr sub m b o (t, s) = some (.next (t', s'))) :
    (∀ q n, n ∈ t.tree q → n ∈ t'.tree q) ∧ (∀ q, q ≠ this → t'.tree q = t.tree q) ∧
      ((t.mdb m).nodeAttr &&& attr ≠ 0 →
        ∃ n ∈ t'.tree this, Extent.equal ⟨b - sndBase + rcvBase, o, 0⟩ (extent (t'.mdb n)) = true) ∧
      ((t.mdb m).nodeAttr &&& attr = 0 → ∀ q, t'.tree q = t.tree q) := by
  unfold delegateNode at h
  dsimp only at h
  split at h
  · simp at h
  generalize hx : childOf S this sndBase rcvBase sub (t.mdb m) t.fresh b o = x at h
  have hold : ∀ y < t.fresh, (t.alloc S this x).mdb y = t.mdb y := fun y hy => alloc_old hy
  have hnew : (t.alloc S this x).mdb t.fresh = x := alloc_new
  have hext : ∀ y, Extent.equal ⟨b - sndBase + rcvBase, o, 0⟩ (extent y) = x.equal y := by
    rw [← hx]
    exact fun _ => rfl
  split at h
  · -- there is no room
    rename_i hnone
    obtain ⟨y, hy, heq⟩ := treeInsert_eq_none.mp hnone
    obtain ⟨rfl, -⟩ := Prod.mk.inj (Ctl.next.inj (Option.some.inj h))
    refine ⟨fun _ _ hn => hn, fun _ _ => rfl, fun _ => ⟨y, hy, ?_⟩, fun _ _ => rfl⟩
    rw [hnew] at heq
    rw [hext]
    exact heq
  rename_i tree ht
  obtain ⟨hfree, rfl⟩ := treeInsert_some ht
  have hfree' : ∀ y ∈ t.tree this, x.equal (t.mdb y) = false := by
    intro y hy
    have := hfree y hy
    rwa [hnew, hold y (hlt _ _ hy)] at this
  have hother : ∀ q, q ≠ this → ((t.alloc S this x).setTree this
      (insertOrdered (t.alloc S this x).mdb t.fresh ((t.alloc S this x).tree this))).tree q = t.tree q :=
    fun q hq => Function.update_of_ne hq _ _
  have hmem : ∀ q n, n ∈ t.tree q → n ∈ ((t.alloc S this x).setTree this
      (insertOrdered (t.alloc S this x).mdb t.fresh ((t.alloc S this x).tree this))).tree q := by
    intro q n hn
    by_cases hq : q = this
    · subst hq
      simp only [State.setTree, Function.update_self]
      exact mem_insertOrdered.mpr (Or.inr hn)
    · rw [hother q hq]
      exact hn
  have hsteady := Steady.insertNode (t.alloc S this x).mdb t.fresh m attr
  have hfst := insertNode_fst (t.alloc S this x).mdb t.fresh m attr
  rw [hold m hm] at hfst
  rw [show ((t.alloc S this x).setTree this _).mdb = (t.alloc S this x).mdb from rfl] at h
  split at h
  · -- no rights go through
    rename_i g hg
    rw [hg] at hfst hsteady
    have hzero : (t.mdb m).nodeAttr &&& attr = 0 := by simpa using hfst.symm
    have hkeep : ∀ y ∈ t.tree this, (g t.fresh).equal (g y) = false := by
      intro y hy
      have h1 := (hsteady t.fresh).1
      have h2 := (hsteady y).1
      rw [hnew] at h1
      rw [hold y (hlt _ _ hy)] at h2
      rw [← hfree' y hy]
      unfold Mdb.equal
      dsimp only at h1 h2
      rw [h1.1, h1.2, h2.1, h2.2]
    have hback := treeRemove_insertOrdered (h := (t.alloc S this x).mdb) hkeep
      fun hmem => lt_irrefl _ (hlt _ _ hmem)
    split at h
    · rename_i hnone
      simp only [State.setTree, Function.update_self] at hnone
      exact absurd (hback.symm.trans hnone) (by simp)
    · rename_i tr htr
      simp only [State.setTree, Function.update_self] at htr
      obtain rfl := Option.some.inj (hback.symm.trans htr)
      obtain ⟨rfl, -⟩ := Prod.mk.inj (Ctl.next.inj (Option.some.inj h))
      have htree : ∀ q, (((t.alloc S this x).setTree this (insertOrdered (t.alloc S this x).mdb t.fresh
          ((t.alloc S this x).tree this))).setTree this (t.tree this)).tree q = t.tree q := by
        intro q
        by_cases hq : q = this
        · subst hq
          exact Function.update_self ..
        · simp only [State.setTree, Function.update_of_ne hq]
          rfl
      refine ⟨fun q n hn => ?_, fun q hq => htree q, fun ha => absurd hzero ha, fun _ => htree⟩
      exact (htree q).symm ▸ hn
  · rename_i g hg
    rw [hg] at hfst hsteady
    have hpass : (t.mdb m).nodeAttr &&& attr ≠ 0 := by simpa using hfst
    split at h
    · simp at h
    · obtain ⟨rfl, -⟩ := Prod.mk.inj (Ctl.next.inj (Option.some.inj h))
      refine ⟨hmem, hother, fun _ => ⟨t.fresh, ?_, ?_⟩, fun hz => absurd hz hpass⟩
      · simp only [State.update, State.setTree, Function.update_self]
        exact mem_insertOrdered.mpr (Or.inl rfl)
      · have h1 := (hsteady t.fresh).1
        rw [hnew] at h1
        rw [hext, ← equal_self x]
        unfold Mdb.equal
        dsimp only [State.update] at h1 ⊢
        rw [h1.1, h1.2]

theorem delegateNode_ret {this : PdId} {sndBase rcvBase attr sub b o : Mword} {m : NodeId}
    {s : Bool} {r : State σ × Bool} (hm : m < t.fresh) (ha : (t.mdb m).nodeAttr &&& attr = 0)
    (h : delegateNode S this sndBase rcvBase attr sub m b o (t, s) = some (.ret r)) :
    r.1.tree = t.tree := by
  unfold delegateNode at h
  dsimp only at h
  split at h
  · obtain rfl := Ctl.ret.inj (Option.some.inj h)
    rfl
  generalize hx : childOf S this sndBase rcvBase sub (t.mdb m) t.fresh b o = x at h
  split at h
  · simp at h
  have hfst : (insertNode (t.alloc S this x).mdb t.fresh m attr).1 = false := by
    rw [insertNode_fst, alloc_old hm, ha]
    rfl
  rw [show ((t.alloc S this x).setTree this _).mdb = (t.alloc S this x).mdb from rfl] at h
  split at h
  · split at h <;> simp at h
  · rename_i g hg
    rw [hg] at hfst
    simp at hfst

theorem delegateNode_passes {this q : PdId} {sndBase rcvBase attr sub b o : Mword} {m n : NodeId}
    {s : Bool} {c : Ctl (State σ × Bool)} (hlt : ∀ q n, n ∈ t.tree q → n < t.fresh) (hm : m < t.fresh)
    (h : delegateNode S this sndBase rcvBase attr sub m b o (t, s) = some c)
    (hn : n ∈ c.val.1.tree q) (hn' : n ∉ t.tree q) : (t.mdb m).nodeAttr &&& attr ≠ 0 := by
  intro ha
  cases c with
  | next r =>
    rw [show (Ctl.next r).val.1.tree q = _ from (delegateNode_next hlt hm h).2.2.2 ha q] at hn
    exact hn' hn
  | ret r =>
    rw [show (Ctl.ret r).val.1.tree = _ from delegateNode_ret hm ha h] at hn
    exact hn' hn

/-- `i` is in the range of the descriptor. -/
def Crd.Has (c : Crd) (i : Nat) : Prop := c.base.toNat ≤ i ∧ i < c.base.toNat + 2 ^ c.order.toNat

/-- All ports of the node are in the range of both descriptors. -/
def Extent.Within (crd del : Crd) (x : Extent) : Prop :=
  ∀ i, x.base.toNat ≤ i → i < x.base.toNat + 2 ^ x.order.toNat → crd.Has i ∧ del.Has i

/-- The trees of ports.  Bases and orders come from descriptors. -/
structure PortTrees (st : State σ) : Prop where
  lt : ∀ q n, n ∈ st.tree q → n < st.fresh
  small : ∀ q n, n ∈ st.tree q → (extent (st.mdb n)).Small

/-- What `this` has got holds ports of both ranges only, and nothing if these
are disjoint. -/
structure Confined (crd del : Crd) (this : PdId) (st st' : State σ) : Prop where
  inside : ∀ n ∈ st'.tree this, n ∉ st.tree this → (extent (st'.mdb n)).Within crd del
  disjoint : (∀ i, ¬(crd.Has i ∧ del.Has i)) → ∀ n ∈ st'.tree this, n ∈ st.tree this

theorem confined_of_inside {crd del : Crd} {this : PdId} {st st' : State σ}
    (h : ∀ n ∈ st'.tree this, n ∉ st.tree this → (extent (st'.mdb n)).Within crd del) :
    Confined crd del this st st' := by
  refine ⟨h, fun hdis n hn => ?_⟩
  by_contra hn'
  have hpos := Nat.two_pow_pos (st'.mdb n).nodeOrder.toNat
  exact hdis _ (h n hn hn' (st'.mdb n).nodeBase.toNat le_rfl (by simp only [extent]; omega))

/-- The loop of `delegate` over the nodes `xs` comes to `addr`; `seen` are the parts that
it has handed on. -/
inductive Comes (start ord : Mword) (xs : List Extent) : List Extent → Mword → Prop
  | start : Comes start ord xs [] start
  | next {seen : List Extent} {addr : Mword} {x y : Extent} : Comes start ord xs seen addr →
      Extent.find xs addr = some x → x.clip start ord = some y → Comes start ord xs (y :: seen) x.last

/-- Every part of the sender's nodes that the loop comes to lies in both descriptors, but
for those of which no rights go through, and those that have no place because an
earlier part lies in their block. -/
def Fits (crd del : Crd) (xs : List Extent) : Prop :=
  let a := crd.attr &&& del.attr
  let c := clamp crd.base del.base crd.order del.order
  ∀ seen addr x y, Comes c.2 c.1 xs seen addr → Extent.find xs addr = some x →
    x.clip c.2 c.1 = some y → y.attr &&& a ≠ 0 → y.Within crd del ∨
      ∃ z ∈ seen, z.attr &&& a ≠ 0 ∧ z.order.toNat ≤ y.order.toNat ∧
        SameBlock y.order.toNat y.base z.base

section Clip

variable {start ord b o : Mword} {x y z : Extent} {m : NodeId}

theorem clip_of_clamp (hc : clamp x.base start x.order ord = (o, b)) (ho : o ≠ ones) :
    x.clip start ord = some ⟨b, o, x.attr⟩ := by
  unfold Extent.clip
  rw [hc]
  exact if_neg ho

theorem clip_some (h : x.clip start ord = some y) :
    y.base = start ||| x.base ∧ y.order = wmin x.order ord ∧ y.attr = x.attr := by
  unfold Extent.clip at h
  dsimp only at h
  split at h
  · simp at h
  · rename_i hne
    obtain rfl := Option.some.inj h
    unfold clamp at hne ⊢
    split at hne
    · exact absurd rfl hne
    · rw [if_neg ‹_›]
      exact ⟨rfl, rfl, rfl⟩

theorem Extent.Small.clip (hx : x.Small) (hs : start.toNat < 2 ^ 52) (h : x.clip start ord = some y) :
    y.Small := by
  obtain ⟨hb, ho, -⟩ := clip_some h
  constructor
  · rw [hb, BitVec.toNat_or]
    exact Nat.or_lt_two_pow hs hx.1
  · rw [ho, toNat_wmin]
    exact (min_le_left _ _).trans_lt hx.2

theorem Extent.equal_iff (hx : x.order.toNat < 64) (hy : y.order.toNat < 64) :
    x.equal y = true ↔ SameBlock (max x.order.toNat y.order.toNat) x.base y.base := by
  have hlt : (wmax x.order y.order).toNat < 64 := by
    rw [toNat_wmax]
    omega
  rw [Extent.equal, beq_iff_eq, shr_xor_eq_zero, mod_64_eq hlt, toNat_wmax]

theorem equal_of_inside {w : Extent} (hz : z.order.toNat < 64) (hy : y.order.toNat < 64)
    (hw : w.order.toNat < 64) (hle : z.order.toNat ≤ y.order.toNat)
    (hsame : SameBlock y.order.toNat y.base z.base) (h : z.equal w = true) : y.equal w = true := by
  rw [Extent.equal_iff hz hw] at h
  rw [Extent.equal_iff hy hw]
  exact (hsame.mono (le_max_left _ _)).trans (h.mono (max_le_max_right _ hle))

end Clip

section Delegate

variable {pd this : PdId} {start o a : Mword} {crd del : Crd} {xs seen : List Extent}

theorem extents_congr (ht : t'.tree pd = t.tree pd)
    (hold : ∀ n ∈ t.tree pd, extent (t'.mdb n) = extent (t.mdb n)) : t'.extents pd = t.extents pd := by
  unfold State.extents
  rw [ht]
  exact List.map_congr_left hold

theorem Visits.clip {addr b o' : Mword} {m : NodeId} {s : Bool}
    (hv : Visits Prod.fst pd start o addr (t, s) m b o') :
    Extent.find (t.extents pd) addr = some (extent (t.mdb m)) ∧
      (extent (t.mdb m)).clip start o = some ⟨b, o', (t.mdb m).nodeAttr⟩ := by
  constructor
  · rw [← lookup_extents, hv.lookup]
    rfl
  · exact clip_of_clamp (x := extent (t.mdb m)) hv.clamp hv.order

/-- While another domain is at it, its parts are where they belong, and every part that was
handed on has its place taken. -/
structure Handing (st : State σ) (this pd : PdId) (crd del : Crd) (xs seen : List Extent)
    (t : State σ) : Prop where
  trees : PortTrees t
  sender : t.extents pd = xs
  node : ∀ n ∈ t.tree this, n ∈ st.tree this ∨ (extent (t.mdb n)).Within crd del
  taken : ∀ z ∈ seen, z.attr &&& (crd.attr &&& del.attr) ≠ 0 →
    ∃ n ∈ t.tree this, z.equal (extent (t.mdb n)) = true

theorem PortTrees.pass {sub addr b o' : Mword} {m : NodeId} {s : Bool} {c : Ctl (State σ × Bool)}
    (h : PortTrees t) (hs : start.toNat < 2 ^ 52) (hv : Visits Prod.fst pd start o addr (t, s) m b o')
    (hbody : delegateNode S this start start a sub m b o' (t, s) = some c) : PortTrees c.val.1 := by
  have hmade := delegateNode_made hbody
  rw [BitVec.sub_add_cancel] at hmade
  have hm : m ∈ t.tree pd := lookup_mem hv.lookup
  have hsmall := (h.small pd m hm).clip hs hv.clip.2
  constructor
  · intro q n hn
    rcases hmade.tree q n hn with hn | ⟨-, rfl, hlt, -⟩
    · exact (h.lt q n hn).trans_le hmade.fresh
    · exact hlt
  · intro q n hn
    rcases hmade.tree q n hn with hn | ⟨-, rfl, -, hb, ho, -⟩
    · rw [hmade.old n (h.lt q n hn)]
      exact h.small q n hn
    · unfold Extent.Small extent
      rw [hb, ho]
      exact hsmall

theorem Handing.pass {sub addr b o' : Mword} {m : NodeId} {s : Bool} {c : Ctl (State σ × Bool)}
    (h : Handing st this pd crd del xs seen t) (hne : this ≠ pd)
    (hf : Fits crd del xs) (hstart : start = (clamp crd.base del.base crd.order del.order).2)
    (hord : o = (clamp crd.base del.base crd.order del.order).1) (hs : start.toNat < 2 ^ 52)
    (hcomes : Comes start o xs seen addr) (hsmall : ∀ z ∈ seen, z.Small)
    (hv : Visits Prod.fst pd start o addr (t, s) m b o')
    (hbody : delegateNode S this start start (crd.attr &&& del.attr) sub m b o' (t, s) = some c) :
    (∀ n ∈ c.val.1.tree this, n ∈ st.tree this ∨ (extent (c.val.1.mdb n)).Within crd del) ∧
      ∀ r, c = .next r → Handing st this pd crd del xs (⟨b, o', (t.mdb m).nodeAttr⟩ :: seen) r.1 := by
  have hmade := delegateNode_made hbody
  rw [BitVec.sub_add_cancel] at hmade
  have hm : m ∈ t.tree pd := lookup_mem hv.lookup
  have hmlt := h.trees.lt pd m hm
  obtain ⟨hfind, hclip⟩ := hv.clip
  rw [h.sender] at hfind
  have hy := (h.trees.small pd m hm).clip hs hclip
  have hnode : ∀ n ∈ c.val.1.tree this, n ∈ st.tree this ∨ (extent (c.val.1.mdb n)).Within crd del := by
    intro n hn
    by_cases hn' : n ∈ t.tree this
    · rw [hmade.old n (h.trees.lt this n hn')]
      exact h.node n hn'
    · right
      obtain ⟨-, -, -, hnb, hno, hfree⟩ := (hmade.tree this n hn).resolve_left hn'
      have hpass := delegateNode_passes h.trees.lt hmlt hbody hn hn'
      subst hstart hord
      rcases hf seen addr _ _ hcomes hfind hclip hpass with hw | ⟨z, hz, hza, hzo, hzb⟩
      · intro i
        have := hw i
        simp only [extent, hnb, hno]
        exact this
      · -- the place is taken
        obtain ⟨w, hw, heq⟩ := h.taken z hz hza
        have hws := h.trees.small this w hw
        have hin := equal_of_inside (y := ⟨b, o', (t.mdb m).nodeAttr⟩) (by have := (hsmall z hz).2; omega)
          (by have := hy.2; omega) (by have := hws.2; omega) hzo hzb heq
        have hfalse := hfree w hw (h.trees.lt this w hw)
        exact absurd hin (by rw [show Extent.equal ⟨b, o', (t.mdb m).nodeAttr⟩ (extent (t.mdb w)) =
          Extent.equal ⟨b, o', 0⟩ (extent (t.mdb w)) from rfl, hfalse]; decide)
  refine ⟨hnode, ?_⟩
  rintro ⟨t', s'⟩ rfl
  obtain ⟨hmem, hother, htaken, -⟩ := delegateNode_next h.trees.lt hmlt hbody
  refine ⟨h.trees.pass hs hv hbody, ?_, hnode, fun z hz hza => ?_⟩
  · rw [← h.sender]
    exact extents_congr (hother pd hne.symm) fun n hn => hmade.old n (h.trees.lt pd n hn)
  · rcases List.mem_cons.mp hz with rfl | hz
    · have := htaken hza
      rwa [BitVec.sub_add_cancel] at this
    · obtain ⟨w, hw, heq⟩ := h.taken z hz hza
      have hold := hmade.old w (h.trees.lt this w hw)
      exact ⟨w, hmem this w hw, by rw [show extent (t'.mdb w) = extent (t.mdb w) from hold, heq]⟩

theorem mem_of_find {addr : Mword} {x : Extent} (h : Extent.find xs addr = some x) : x ∈ xs := by
  unfold Extent.find at h
  split at h
  · rename_i hx
    obtain rfl := Option.some.inj h
    exact List.mem_of_find?_eq_some hx
  · exact List.mem_of_find?_eq_some h

theorem Comes.small {addr : Mword} (h : Comes start o xs seen addr) (hxs : ∀ x ∈ xs, x.Small)
    (hs : start.toNat < 2 ^ 52) : ∀ z ∈ seen, z.Small := by
  induction h with
  | start => simp
  | next _ hfind hclip ih =>
    intro z hz
    rcases List.mem_cons.mp hz with rfl | hz
    · exact (hxs _ (mem_of_find hfind)).clip hs hclip
    · exact ih z hz

theorem clamp_base_lt (crd del : Crd) :
    (clamp crd.base del.base crd.order del.order).2.toNat < 2 ^ 52 := by
  unfold clamp
  split
  · exact del.base_lt
  · rw [BitVec.toNat_or]
    exact Nat.or_lt_two_pow del.base_lt crd.base_lt

theorem delegate_of_walk {fuel : Nat} {sub : Mword} {r : State σ × Bool} {Q : State σ → Prop}
    (h : delegate S fuel this pd start start o a sub st = some r)
    (hwalk : ∀ c, walkRange Prod.fst pd start o (delegateNode S this start start a sub) fuel start
      (st, false) = some c → Q c.val.1) (hoom : ∀ t, Q t → Q { t with oom := true }) : Q r.1 := by
  unfold delegate at h
  split at h
  · simp at h
  · rename_i t hc
    obtain rfl := Option.some.inj h
    exact hwalk _ hc
  · rename_i t hc
    split at h
    · obtain rfl := Option.some.inj h
      exact hwalk _ hc
    · obtain rfl := Option.some.inj h
      exact hoom _ (hwalk _ hc)

theorem delegate_inside {fuel : Nat} {sub : Mword} {r : State σ × Bool} (hp : PortTrees st)
    (hxs : st.extents pd = xs) (hne : this ≠ pd) (hf : Fits crd del xs)
    (h : delegate S fuel this pd (clamp crd.base del.base crd.order del.order).2
      (clamp crd.base del.base crd.order del.order).2 (clamp crd.base del.base crd.order del.order).1
      (crd.attr &&& del.attr) sub st = some r) :
    ∀ n ∈ r.1.tree this, n ∈ st.tree this ∨ (extent (r.1.mdb n)).Within crd del := by
  have hs := clamp_base_lt crd del
  have hsmall : ∀ x ∈ xs, x.Small := by
    rw [← hxs]
    intro x hx
    obtain ⟨n, hn, rfl⟩ := List.mem_map.mp hx
    exact hp.small pd n hn
  refine delegate_of_walk (Q := fun t => ∀ n ∈ t.tree this, n ∈ st.tree this ∨
    (extent (t.mdb n)).Within crd del) h (fun c hc => ?_) fun _ h => h
  refine walkRange_rule (P := fun _ _ _ _ => True)
    (fun addr t => ∃ seen, Comes (clamp crd.base del.base crd.order del.order).2
      (clamp crd.base del.base crd.order del.order).1 xs seen addr ∧
        Handing st this pd crd del xs seen t.1)
    (fun c => ∀ n ∈ c.val.1.tree this, n ∈ st.tree this ∨ (extent (c.val.1.mdb n)).Within crd del)
    ?_ ?_ ?_ ?_ (walkAll_of_forall (fun _ _ _ _ => trivial) _ _ _) hc
  · rintro addr t ⟨seen, -, hh⟩ -
    exact hh.node
  · rintro addr t m b o' t' ⟨seen, hcomes, hh⟩ hv - hb
    exact (hh.pass hne hf rfl rfl hs hcomes (hcomes.small hsmall hs) hv hb).1
  · rintro addr t m b o' t' ⟨seen, hcomes, hh⟩ hv - hb
    have hclip := hv.clip
    rw [hh.sender] at hclip
    exact ⟨_, hcomes.next hclip.1 hclip.2,
      (hh.pass hne hf rfl rfl hs hcomes (hcomes.small hsmall hs) hv hb).2 _ rfl⟩
  · exact ⟨[], Comes.start, hp, hxs, fun n hn => Or.inl hn, by simp⟩

structure Copying (st : State σ) (pd : PdId) (start : Mword) (crd del : Crd) (t : State σ) : Prop where
  trees : PortTrees t
  node : ∀ n ∈ t.tree pd, n ∈ st.tree pd ∧ extent (t.mdb n) = extent (st.mdb n) ∨
    (extent (t.mdb n)).Within crd del ∧ start ||| (t.mdb n).nodeBase = (t.mdb n).nodeBase

theorem Copying.pass {sub addr b o' : Mword} {m : NodeId} {s : Bool} {c : Ctl (State σ × Bool)}
    (h : Copying st pd start crd del t)
    (hf : ∀ x ∈ st.extents pd, ∀ y, x.clip start o = some y → y.attr &&& (crd.attr &&& del.attr) ≠ 0 →
      y.Within crd del) (hs : start.toNat < 2 ^ 52)
    (hv : Visits Prod.fst pd start o addr (t, s) m b o')
    (hbody : delegateNode S pd start start (crd.attr &&& del.attr) sub m b o' (t, s) = some c) :
    Copying st pd start crd del c.val.1 := by
  refine ⟨h.trees.pass hs hv hbody, fun n hn => ?_⟩
  have hmade := delegateNode_made hbody
  rw [BitVec.sub_add_cancel] at hmade
  have hm : m ∈ t.tree pd := lookup_mem hv.lookup
  have hmlt := h.trees.lt pd m hm
  obtain ⟨-, hclip⟩ := hv.clip
  obtain ⟨hb, ho, -⟩ := clip_some hclip
  by_cases hn' : n ∈ t.tree pd
  · have hold := hmade.old n (h.trees.lt pd n hn')
    have hbase : (c.val.1.mdb n).nodeBase = (t.mdb n).nodeBase := congrArg Extent.base hold
    rw [hold, hbase]
    exact h.node n hn'
  · obtain ⟨-, -, -, hnb, hno, hfree⟩ := (hmade.tree pd n hn).resolve_left hn'
    have hpass := delegateNode_passes h.trees.lt hmlt hbody hn hn'
    rcases h.node m hm with ⟨hst, heq⟩ | ⟨-, hself⟩
    · rw [heq] at hclip
      have hw := hf _ (List.mem_map.mpr ⟨m, hst, rfl⟩) _ hclip hpass
      refine Or.inr ⟨fun i => ?_, ?_⟩
      · have := hw i
        simp only [extent, hnb, hno]
        exact this
      · have hb' : b = start ||| (t.mdb m).nodeBase := hb
        rw [hnb, hb', ← BitVec.or_assoc, BitVec.or_self]
    · -- a node that the loop has made gives a copy of its range, for which there is no room
      have hb' : b = (t.mdb m).nodeBase := hb.trans hself
      have := hfree m hm hmlt
      simp [Extent.equal, extent, hb', shr] at this

theorem delegate_inside_self {fuel : Nat} {sub : Mword} {r : State σ × Bool} (hp : PortTrees st)
    (hs : start.toNat < 2 ^ 52)
    (hf : ∀ x ∈ st.extents pd, ∀ y, x.clip start o = some y → y.attr &&& (crd.attr &&& del.attr) ≠ 0 →
      y.Within crd del)
    (h : delegate S fuel pd pd start start o (crd.attr &&& del.attr) sub st = some r) :
    ∀ n ∈ r.1.tree pd, n ∈ st.tree pd ∨ (extent (r.1.mdb n)).Within crd del := by
  refine delegate_of_walk (Q := fun t => ∀ n ∈ t.tree pd, n ∈ st.tree pd ∨
    (extent (t.mdb n)).Within crd del) h (fun c hc n hn => ?_) fun _ h => h
  have hcopy : Copying st pd start crd del c.val.1 := by
    refine walkRange_rule (P := fun _ _ _ _ => True) (fun _ t => Copying st pd start crd del t.1)
      (fun c => Copying st pd start crd del c.val.1) ?_ ?_ ?_ ?_
      (walkAll_of_forall (fun _ _ _ _ => trivial) _ _ _) hc
    · exact fun _ _ hh _ => hh
    · exact fun addr t m b o' t' hh hv _ hb => hh.pass hf hs hv hb
    · exact fun addr t m b o' t' hh hv _ hb => hh.pass hf hs hv hb
    · exact ⟨hp, fun n hn => Or.inl ⟨hn, rfl⟩⟩
  exact (hcopy.node n hn).imp And.left And.left

theorem delegateNode_bare {t : State Unit} {sub b o' : Mword} {m : NodeId} {s : Bool}
    (ho : t.oom = false) : ∃ t' s', delegateNode bareSpace this start start a sub m b o' (t, s) =
      some (.next (t', s')) ∧ t'.oom = false := by
  unfold delegateNode
  dsimp only
  rw [if_neg (by simp [bareSpace])]
  split
  · exact ⟨_, _, rfl, ho⟩
  · split
    · split
      · exact ⟨_, _, rfl, ho⟩
      · exact ⟨_, _, rfl, ho⟩
    · rw [if_neg (by simp [State.update, bareSpace, State.setTree, State.alloc, ho])]
      exact ⟨_, _, rfl, by simp [State.update, bareSpace, State.setTree, State.alloc, ho]⟩

theorem lt_last_of_find {addr : Mword} {x : Extent} (hx : x.Small) (h : Extent.find xs addr = some x) :
    addr.toNat < x.last.toNat := by
  have hlast : x.last.toNat = x.base.toNat + 2 ^ x.order.toNat := by
    unfold Extent.last
    have hpow : 2 ^ x.order.toNat ≤ 2 ^ 31 := Nat.pow_le_pow_right (by decide) (by have := hx.2; omega)
    have := hx.1
    rw [BitVec.toNat_add, toNat_shl_one (by have := hx.2; omega)]
    exact Nat.mod_eq_of_lt (by omega)
  have hpos := Nat.two_pow_pos x.order.toNat
  rw [hlast]
  unfold Extent.find at h
  split at h
  · rename_i y hy
    obtain rfl := Option.some.inj h
    have hcov : shr (y.base ^^^ addr) y.order = 0 := by simpa using List.find?_some hy
    rw [shr_xor_eq_zero, mod_64_eq (by have := hx.2; omega)] at hcov
    unfold SameBlock at hcov
    have h1 := Nat.div_add_mod addr.toNat (2 ^ y.order.toNat)
    have h2 := Nat.div_add_mod y.base.toNat (2 ^ y.order.toNat)
    have h3 := Nat.mod_lt addr.toNat hpos
    rw [hcov] at h2
    omega
  · have hlt : addr < x.base := by simpa using List.find?_some h
    have := BitVec.lt_def.mp hlt
    omega

/-- What the loop keeps where memory is enough, and no node is ever taken out. -/
structure Running (xs : List Extent) (this pd : PdId) (t : State Unit) : Prop where
  lt : ∀ q n, n ∈ t.tree q → n < t.fresh
  sender : t.extents pd = xs
  oom : t.oom = false

theorem Running.pass {t : State Unit} (sub : Mword) {addr b o' : Mword} {m : NodeId} {s : Bool}
    (h : Running xs this pd t) (hne : this ≠ pd) (hv : Visits Prod.fst pd start o addr (t, s) m b o') :
    ∃ t' s', delegateNode bareSpace this start start a sub m b o' (t, s) = some (.next (t', s')) ∧
      Running xs this pd t' ∧ Made t t' this b o' ∧ (∀ n ∈ t.tree this, n ∈ t'.tree this) ∧
      ((t.mdb m).nodeAttr &&& a ≠ 0 → (∀ n ∈ t.tree this,
        Extent.equal ⟨b, o', 0⟩ (extent (t.mdb n)) = false) → t.fresh ∈ t'.tree this) ∧
      ∀ n ∈ t'.tree this, n ∉ t.tree this → (t.mdb m).nodeAttr &&& a ≠ 0 := by
  obtain ⟨t', s', hbody, hoom⟩ : ∃ t' s', delegateNode bareSpace this start start a sub m b o' (t, s) =
      some (.next (t', s')) ∧ t'.oom = false := delegateNode_bare h.oom
  have hmade := delegateNode_made hbody
  rw [BitVec.sub_add_cancel] at hmade
  have hm : m ∈ t.tree pd := lookup_mem hv.lookup
  obtain ⟨hmem, hother, htaken, -⟩ := delegateNode_next h.lt (h.lt pd m hm) hbody
  refine ⟨t', s', hbody, ⟨fun q n hn => ?_, ?_, hoom⟩, hmade, hmem this, fun ha hfree => ?_,
    fun n hn hn' => delegateNode_passes h.lt (h.lt pd m hm) hbody hn hn'⟩
  · rcases hmade.tree q n hn with hn | ⟨-, rfl, hlt, -⟩
    · exact (h.lt q n hn).trans_le hmade.fresh
    · exact hlt
  · rw [← h.sender]
    exact extents_congr (hother pd hne.symm) fun n hn => hmade.old n (h.lt pd n hn)
  · obtain ⟨n, hn, heq⟩ := htaken ha
    rw [BitVec.sub_add_cancel] at heq
    rcases hmade.tree this n hn with hn' | ⟨-, rfl, -⟩
    · rw [show extent (t'.mdb n) = extent (t.mdb n) from hmade.old n (h.lt this n hn'),
        hfree n hn'] at heq
      exact absurd heq (by decide)
    · exact hn

theorem walkRange_ends (start sub : Mword) (hxs : ∀ x ∈ xs, x.Small) (hne : this ≠ pd) (addr : Mword)
    (t : State Unit) (s : Bool) (h : Running xs this pd t) :
    ∃ fuel t' s', walkRange Prod.fst pd start o (delegateNode bareSpace this start start a sub) fuel
        addr (t, s) = some (.next (t', s')) ∧
      ∀ n ∈ t.tree this, n ∈ t'.tree this ∧ extent (t'.mdb n) = extent (t.mdb n) := by
  induction hk : 2 ^ 64 - addr.toNat using Nat.strong_induction_on generalizing addr t s with
  | _ k ih =>
    have hcase : Stops Prod.fst pd start o addr (t, s) ∨
        ∃ m b o', Visits Prod.fst pd start o addr (t, s) m b o' := stops_or_visits addr (t, s)
    rcases hcase with hs | ⟨m, b, o', hv⟩
    · exact ⟨1, t, s, walkRange_of_stops hs, fun n hn => ⟨hn, rfl⟩⟩
    · obtain ⟨t1, s1, hbody, hrun, hmade, hmem, -⟩ := h.pass (a := a) sub hne hv
      have hfind := hv.clip.1
      rw [h.sender] at hfind
      have hlt := lt_last_of_find (hxs _ (mem_of_find hfind)) hfind
      have hlast : (t.mdb m).last = (extent (t.mdb m)).last := rfl
      obtain ⟨fuel, t', s', hwalk, hkeep⟩ := ih (2 ^ 64 - (t.mdb m).last.toNat)
        (by rw [hlast]; have := (extent (t.mdb m)).last.isLt; omega) (t.mdb m).last t1 s1 hrun rfl
      refine ⟨fuel + 1, t', s', ?_, fun n hn => ?_⟩
      · rw [walkRange_of_visits hv, hbody]
        exact hwalk
      · obtain ⟨hin, heq⟩ := hkeep n (hmem n hn)
        exact ⟨hin, heq.trans (hmade.old n (h.lt this n hn))⟩

theorem visits_of_clip {addr : Mword} {x y : Extent} {s : Bool} (hfind : Extent.find (t.extents pd) addr = some x)
    (hclip : x.clip start o = some y) : ∃ m, Visits Prod.fst pd start o addr (t, s) m y.base y.order ∧
      extent (t.mdb m) = x ∧ (t.mdb m).nodeAttr = y.attr := by
  rw [← lookup_extents] at hfind
  obtain ⟨m, hm, rfl⟩ := Option.map_eq_some_iff.mp hfind
  unfold Extent.clip at hclip
  dsimp only at hclip
  split at hclip
  · simp at hclip
  · rename_i hne
    obtain rfl := Option.some.inj hclip
    exact ⟨m, ⟨hm, rfl, hne⟩, rfl, rfl⟩

/-- The receiver had the node `w` before, and has got parts for which that was not in the way. -/
structure Reaching (w : Extent) (fresh : NodeId) (this : PdId) (a : Mword) (seen : List Extent)
    (t : State Unit) : Prop where
  fresh : fresh ≤ t.fresh
  first : ∃ n ∈ t.tree this, n < t.fresh ∧ extent (t.mdb n) = w
  node : ∀ n ∈ t.tree this, (t.mdb n).nodeBase = w.base ∧ (t.mdb n).nodeOrder = w.order ∨
    ∃ z ∈ seen, z.attr &&& a ≠ 0 ∧ (t.mdb n).nodeBase = z.base ∧ (t.mdb n).nodeOrder = z.order ∧
      z.equal w = false

theorem walkRange_comes (sub : Mword) {t0 : State Unit} {w : Extent} {fresh : NodeId} {addr : Mword}
    (hne : this ≠ pd) (h0 : Running xs this pd t0) (hr0 : Reaching w fresh this a [] t0)
    (h : Comes start o xs seen addr) :
    ∃ k t s, Running xs this pd t ∧ Reaching w fresh this a seen t ∧ ∀ f,
      walkRange Prod.fst pd start o (delegateNode bareSpace this start start a sub) (f + k) start
        (t0, false) =
      walkRange Prod.fst pd start o (delegateNode bareSpace this start start a sub) f addr (t, s) := by
  induction h with
  | start => exact ⟨0, t0, false, h0, hr0, fun _ => rfl⟩
  | @next seen addr x y _ hfind hclip ih =>
    obtain ⟨k, t, s, hrun, hreach, hwalk⟩ := ih
    rw [← hrun.sender] at hfind
    obtain ⟨m, hv, hx, hattr⟩ := visits_of_clip (s := s) hfind hclip
    obtain ⟨t', s', hbody, hrun', hmade, hmem, -, hpass⟩ := hrun.pass (a := a) sub hne hv
    refine ⟨k + 1, t', s', hrun', ⟨hreach.fresh.trans hmade.fresh, ?_, fun n hn => ?_⟩, fun f => ?_⟩
    · obtain ⟨n, hn, hlt, hw⟩ := hreach.first
      exact ⟨n, hmem n hn, hlt.trans_le hmade.fresh, (hmade.old n hlt).trans hw⟩
    · by_cases hn' : n ∈ t.tree this
      · have hold := hmade.old n (hrun.lt this n hn')
        have hb : (t'.mdb n).nodeBase = (t.mdb n).nodeBase := congrArg Extent.base hold
        have ho : (t'.mdb n).nodeOrder = (t.mdb n).nodeOrder := congrArg Extent.order hold
        rw [hb, ho]
        refine (hreach.node n hn').imp_right ?_
        rintro ⟨z, hz, hrest⟩
        exact ⟨z, List.mem_cons_of_mem _ hz, hrest⟩
      · obtain ⟨-, -, -, hb, ho, hfree⟩ := (hmade.tree this n hn).resolve_left hn'
        obtain ⟨n0, hn0, hlt, rfl⟩ := hreach.first
        refine Or.inr ⟨y, List.mem_cons_self, ?_, hb, ho, hfree n0 hn0 hlt⟩
        rw [← hattr]
        exact hpass n hn hn'
    · rw [show f + (k + 1) = (f + 1) + k by omega, hwalk, walkRange_of_visits hv, hbody, ← hx]
      rfl

/-- The nodes `xs` in the tree of `pd`, and one more in that of `this`. -/
def spread (xs : List Extent) (w : Extent) (pd this : PdId) : State Unit :=
  { boot () with
    mdb := fun n =>
      let x := xs.getD n w
      { (default : Mdb) with
        space := if n < xs.length then pd else this
        nodeBase := x.base
        nodeOrder := x.order
        nodeAttr := x.attr }
    fresh := xs.length + 1
    tree := fun q => if q = pd then List.range xs.length else if q = this then [xs.length] else [] }

theorem spread_extents {w : Extent} : (spread xs w pd this).extents pd = xs := by
  unfold State.extents
  simp only [spread, if_true]
  apply List.ext_getElem
  · simp
  · intro n h1 h2
    simp [extent, List.getElem?_eq_getElem h2]

theorem spread_tree_this {w : Extent} (hne : this ≠ pd) : (spread xs w pd this).tree this = [xs.length] := by
  simp [spread, hne]

theorem spread_last {w : Extent} : extent ((spread xs w pd this).mdb xs.length) = w := by
  simp [spread, extent]

theorem spread_lt {w : Extent} : ∀ q n, n ∈ (spread xs w pd this).tree q → n < xs.length + 1 := by
  intro q n hn
  simp only [spread] at hn
  split at hn
  · exact Nat.lt_succ_of_lt (List.mem_range.mp hn)
  · split at hn
    · rw [List.mem_singleton.mp hn]
      exact Nat.lt_succ_self _
    · simp at hn

theorem spread_trees {w : Extent} (hxs : ∀ x ∈ xs, x.Small) (hw : w.Small) :
    PortTrees (spread xs w pd this) := by
  refine ⟨spread_lt, fun q n hn => ?_⟩
  have hext : extent ((spread xs w pd this).mdb n) = xs.getD n w := by
    simp [spread, extent]
  rw [hext]
  by_cases hlt : n < xs.length
  · rw [List.getD_eq_getElem _ _ hlt]
    exact hxs _ (List.getElem_mem hlt)
  · rw [List.getD_eq_default _ _ (Nat.le_of_not_lt hlt)]
    exact hw

/-- The sibling of a block: it is in the way of what is larger only. -/
def sibling (y : Extent) : Extent := ⟨y.base ^^^ shl 1 y.order, y.order, 0⟩

theorem sibling_small {y : Extent} (hy : y.Small) : (sibling y).Small := by
  refine ⟨?_, hy.2⟩
  have hpow : (shl 1 y.order).toNat < 2 ^ 52 := by
    rw [toNat_shl_one (by have := hy.2; omega)]
    exact Nat.pow_lt_pow_right (by decide) (by have := hy.2; omega)
  rw [show (sibling y).base = y.base ^^^ shl 1 y.order from rfl, BitVec.toNat_xor]
  exact Nat.xor_lt_two_pow hy.1 hpow

theorem sameBlock_sibling {y : Extent} (hy : y.Small) {k : Nat} :
    SameBlock k y.base (sibling y).base ↔ y.order.toNat < k := by
  have hy64 : y.order.toNat < 64 := by
    have := hy.2
    omega
  rw [← xor_shiftRight_eq_zero, show y.base ^^^ (sibling y).base = shl 1 y.order by
    rw [sibling, ← BitVec.xor_assoc, BitVec.xor_self, BitVec.zero_xor], ← BitVec.toNat_inj,
    BitVec.toNat_ushiftRight, toNat_shl_one hy64, Nat.shiftRight_eq_div_pow]
  rw [show (0 : Mword).toNat = 0 from rfl, Nat.div_eq_zero_iff]
  have hpos := Nat.two_pow_pos k
  rw [Nat.pow_lt_pow_iff_right (by decide)]
  omega

theorem delegate_outside (sub : Mword) {addr : Mword} {x y : Extent} (hne : this ≠ pd)
    (hxs : ∀ x ∈ xs, x.Small) (hs : start.toNat < 2 ^ 52) (hcomes : Comes start o xs seen addr)
    (hfind : Extent.find xs addr = some x) (hclip : x.clip start o = some y) (ha : y.attr &&& a ≠ 0)
    (hfree : ∀ z ∈ seen, z.attr &&& a ≠ 0 → z.order.toNat ≤ y.order.toNat →
      ¬SameBlock y.order.toNat y.base z.base) :
    ∃ fuel r n, delegate bareSpace fuel this pd start start o a sub (spread xs (sibling y) pd this) = some r ∧
      n ∈ r.1.tree this ∧ n ∉ (spread xs (sibling y) pd this).tree this ∧
      (r.1.mdb n).nodeBase = y.base ∧ (r.1.mdb n).nodeOrder = y.order := by
  have hy : y.Small := (hxs _ (mem_of_find hfind)).clip hs hclip
  have hsib : y.equal (sibling y) = false := by
    rw [← Bool.not_eq_true, Extent.equal_iff (by have := hy.2; omega) (by have := (sibling_small hy).2; omega)]
    rw [show (sibling y).order = y.order from rfl, max_self, sameBlock_sibling hy]
    exact lt_irrefl _
  have hrun0 : Running xs this pd (spread xs (sibling y) pd this) := ⟨spread_lt, spread_extents, rfl⟩
  have hreach0 : Reaching (sibling y) (xs.length + 1) this a [] (spread xs (sibling y) pd this) := by
    refine ⟨le_rfl, ⟨xs.length, ?_, Nat.lt_succ_self _, spread_last⟩, fun n hn => Or.inl ?_⟩
    · rw [spread_tree_this hne]
      exact List.mem_singleton_self _
    · rw [spread_tree_this hne, List.mem_singleton] at hn
      have hext : extent ((spread xs (sibling y) pd this).mdb n) = sibling y := by
        rw [hn]
        exact spread_last
      exact ⟨congrArg Extent.base hext, congrArg Extent.order hext⟩
  obtain ⟨k, t, s, hrun, hreach, hwalk⟩ := walkRange_comes sub hne hrun0 hreach0 hcomes
  have hfind' := hfind
  rw [← hrun.sender] at hfind'
  obtain ⟨m, hv, -, hattr⟩ := visits_of_clip (s := s) hfind' hclip
  obtain ⟨t1, s1, hbody, hrun1, hmade, -, htake, -⟩ := hrun.pass (a := a) sub hne hv
  have hroom : ∀ n ∈ t.tree this, Extent.equal ⟨y.base, y.order, 0⟩ (extent (t.mdb n)) = false := by
    intro n hn
    have hsame : ∀ z : Extent, (t.mdb n).nodeBase = z.base → (t.mdb n).nodeOrder = z.order →
        Extent.equal ⟨y.base, y.order, 0⟩ (extent (t.mdb n)) = y.equal z := by
      intro z hb ho
      simp only [Extent.equal, extent, hb, ho]
    rcases hreach.node n hn with ⟨hb, ho⟩ | ⟨z, hz, hza, hb, ho, hzw⟩
    · rw [hsame _ hb ho, hsib]
    · have hzs := hcomes.small hxs hs z hz
      have hz64 : z.order.toNat < 64 := by
        have := hzs.2
        omega
      have hy64 : y.order.toNat < 64 := by
        have := hy.2
        omega
      rw [hsame z hb ho, ← Bool.not_eq_true, Extent.equal_iff hy64 hz64]
      intro hblock
      rcases Nat.lt_or_ge y.order.toNat z.order.toNat with hlt | hge
      · -- a larger part would have met the sibling
        rw [max_eq_right hlt.le] at hblock
        rw [← Bool.not_eq_true, Extent.equal_iff hz64 (show (sibling y).order.toNat < 64 from hy64)] at hzw
        apply hzw
        rw [show (sibling y).order = y.order from rfl, max_eq_left hlt.le]
        exact hblock.symm.trans ((sameBlock_sibling hy).mpr hlt)
      · rw [max_eq_left hge] at hblock
        exact hfree z hz hza hge hblock
  have hnew := htake (by rw [hattr]; exact ha) hroom
  obtain ⟨fuel, t', s', hend, hkeep⟩ := walkRange_ends (o := o) (a := a) start sub hxs
    hne (t.mdb m).last t1 s1 hrun1
  obtain ⟨hin, hext⟩ := hkeep _ hnew
  have hfull : walkRange Prod.fst pd start o (delegateNode bareSpace this start start a sub)
      (fuel + 1 + k) start (spread xs (sibling y) pd this, false) = some (.next (t', s')) := by
    rw [hwalk, walkRange_of_visits hv, hbody]
    exact hend
  obtain ⟨-, -, -, hb, ho, -⟩ := (hmade.tree this _ hnew).resolve_left fun h =>
    lt_irrefl _ (hrun.lt this _ h)
  refine ⟨fuel + 1 + k, (t', s'), t.fresh, ?_, hin, fun hmem => ?_, ?_, ?_⟩
  · unfold delegate
    rw [hfull]
    rfl
  · exact absurd (spread_lt _ _ hmem) (Nat.not_lt.mpr hreach.fresh)
  · exact (congrArg Extent.base hext).trans hb
  · exact (congrArg Extent.order hext).trans ho

end Delegate

section DelCrd

variable {M P O : SpaceOps σ} {fuel : Nat} {this pd : PdId} {crd del : Crd} {sub hot : Mword}
  {s s' : Spaces σ} {r : Crd} {xs : List Extent}

theorem delCrd_pio (hc : crd.type = Crd.PIO) (hd : del.type = Crd.PIO)
    (ha : crd.attr &&& del.attr ≠ 0) (h : delCrd M P O fuel this pd del crd sub hot s = some (s', r)) :
    ∃ f, delegate P fuel this pd (clamp crd.base del.base crd.order del.order).2
      (clamp crd.base del.base crd.order del.order).2 (clamp crd.base del.base crd.order del.order).1
      (crd.attr &&& del.attr) sub s.pio = some (s'.pio, f) := by
  have hne : Crd.PIO ≠ Crd.MEM := by decide
  simp only [delCrd, hc, hd, ha, hne, ne_eq, not_true_eq_false, or_self, if_false, if_true] at h
  split at h
  · simp at h
  · rename_i t f ht
    obtain ⟨rfl, -⟩ := Prod.mk.inj (Option.some.inj h)
    exact ⟨f, ht⟩

theorem delCrd_denied (ha : crd.attr &&& del.attr = 0)
    (h : delCrd M P O fuel this pd del crd sub hot s = some (s', r)) : s' = s := by
  simp only [delCrd, ha, or_true, if_true] at h
  exact (Prod.mk.inj (Option.some.inj h)).1.symm

/-- The trees of ports stay what they are. -/
theorem delCrd_portTrees (hp : PortTrees s.pio) (hc : crd.type = Crd.PIO) (hd : del.type = Crd.PIO)
    (h : delCrd M P O fuel this pd del crd sub hot s = some (s', r)) : PortTrees s'.pio := by
  by_cases ha : crd.attr &&& del.attr = 0
  · rw [delCrd_denied ha h]
    exact hp
  obtain ⟨f, hdel⟩ := delCrd_pio hc hd ha h
  refine delegate_of_walk (Q := PortTrees) hdel (fun c hc' => ?_) fun _ h => ⟨h.lt, h.small⟩
  refine walkRange_rule (P := fun _ _ _ _ => True) (fun _ t => PortTrees t.1)
    (fun c => PortTrees c.val.1) ?_ ?_ ?_ ?_ (walkAll_of_forall (fun _ _ _ _ => trivial) _ _ _) hc'
  · exact fun _ _ hh _ => hh
  · exact fun addr t m b o' t' hh hv _ hb => hh.pass (clamp_base_lt crd del) hv hb
  · exact fun addr t m b o' t' hh hv _ hb => hh.pass (clamp_base_lt crd del) hv hb
  · exact hp

theorem delCrd_confined (hp : PortTrees s.pio) (hc : crd.type = Crd.PIO) (hd : del.type = Crd.PIO)
    (hne : this ≠ pd) (hf : Fits crd del (s.pio.extents pd))
    (h : delCrd M P O fuel this pd del crd sub hot s = some (s', r)) :
    Confined crd del this s.pio s'.pio := by
  by_cases ha : crd.attr &&& del.attr = 0
  · rw [delCrd_denied ha h]
    exact confined_of_inside fun n hn hn' => absurd hn hn'
  obtain ⟨f, hdel⟩ := delCrd_pio hc hd ha h
  exact confined_of_inside fun n hn hn' =>
    (delegate_inside hp rfl hne hf hdel n hn).resolve_left hn'

/-- All parts of the sender's nodes lie in both descriptors, or no rights of them go through. -/
def FitsAll (crd del : Crd) (xs : List Extent) : Prop :=
  let c := clamp crd.base del.base crd.order del.order
  ∀ x ∈ xs, ∀ y, x.clip c.2 c.1 = some y → y.attr &&& (crd.attr &&& del.attr) ≠ 0 → y.Within crd del

theorem delCrd_confined_self (hp : PortTrees s.pio) (hc : crd.type = Crd.PIO) (hd : del.type = Crd.PIO)
    (hf : FitsAll crd del (s.pio.extents pd))
    (h : delCrd M P O fuel pd pd del crd sub hot s = some (s', r)) : Confined crd del pd s.pio s'.pio := by
  by_cases ha : crd.attr &&& del.attr = 0
  · rw [delCrd_denied ha h]
    exact confined_of_inside fun n hn hn' => absurd hn hn'
  obtain ⟨f, hdel⟩ := delCrd_pio hc hd ha h
  exact confined_of_inside fun n hn hn' =>
    (delegate_inside_self hp (clamp_base_lt crd del) hf hdel n hn).resolve_left hn'

theorem fits_of_confined (this : PdId) (hc : crd.type = Crd.PIO) (hd : del.type = Crd.PIO) (hne : this ≠ pd)
    (hxs : ∀ x ∈ xs, x.Small)
    (h : ∀ fuel (s s' : Spaces Unit) r, PortTrees s.pio → s.pio.extents pd = xs →
      delCrd bareSpace bareSpace bareSpace fuel this pd del crd 0 0 s = some (s', r) →
      Confined crd del this s.pio s'.pio) : Fits crd del xs := by
  intro seen addr x y hcomes hfind hclip ha
  by_contra hcon
  simp only [not_or, not_exists, not_and] at hcon
  obtain ⟨hnot, hfree⟩ := hcon
  have hs := clamp_base_lt crd del
  have hy : y.Small := (hxs _ (mem_of_find hfind)).clip hs hclip
  obtain ⟨fuel, ⟨t, f⟩, n, hrun, hin, hnew, hb, ho⟩ :=
    delegate_outside 0 hne hxs hs hcomes hfind hclip ha hfree
  have ha0 : crd.attr &&& del.attr ≠ 0 := by
    intro e
    apply ha
    rw [e]
    exact BitVec.and_zero
  have hPM : Crd.PIO ≠ Crd.MEM := by decide
  have hdel : ∀ s : Spaces Unit, s.pio = spread xs (sibling y) pd this →
      delCrd bareSpace bareSpace bareSpace fuel this pd del crd 0 0 s =
        some (s.setPio t, Crd.make Crd.PIO (clamp crd.base del.base crd.order del.order).2
          (clamp crd.base del.base crd.order del.order).1 (crd.attr &&& del.attr)) := by
    intro s hs
    simp only [delCrd, hc, hd, ha0, hPM, ne_eq, not_true_eq_false, or_self, if_false, if_true, hs]
    rw [hrun]
  have hconf := h fuel ⟨boot (), spread xs (sibling y) pd this, boot ()⟩ _ _
    (spread_trees hxs (sibling_small hy)) spread_extents (hdel _ rfl)
  apply hnot
  intro i hi hi'
  have hin' := hconf.inside n hin hnew i
  rw [show (Spaces.setPio _ t).pio = t from rfl] at hin'
  unfold extent at hin'
  rw [hb, ho] at hin'
  exact hin' hi hi'

end DelCrd

/-- Whatever a receiver has already, what it gets stays within both descriptors exactly
if the parts of the sender's nodes `xs` fit.  For a domain that sends to itself it is
enough that all parts fit. -/
theorem delCrd_confined_iff {crd del : Crd} (hc : crd.type = Crd.PIO) (hd : del.type = Crd.PIO)
    (pd : PdId) {xs : List Extent} (hxs : ∀ x ∈ xs, x.Small) :
    ((∀ (σ : Type) (M P O : SpaceOps σ) (fuel : Nat) (this : PdId) (sub hot : Mword)
      (s s' : Spaces σ) (r : Crd), this ≠ pd → PortTrees s.pio → s.pio.extents pd = xs →
        delCrd M P O fuel this pd del crd sub hot s = some (s', r) →
          Confined crd del this s.pio s'.pio) ↔ Fits crd del xs) ∧
    (FitsAll crd del xs → ∀ (σ : Type) (M P O : SpaceOps σ) (fuel : Nat) (sub hot : Mword)
      (s s' : Spaces σ) (r : Crd), PortTrees s.pio → s.pio.extents pd = xs →
        delCrd M P O fuel pd pd del crd sub hot s = some (s', r) → Confined crd del pd s.pio s'.pio) := by
  refine ⟨⟨fun h => ?_, ?_⟩, ?_⟩
  · exact fits_of_confined (pd + 1) hc hd (Nat.succ_ne_self pd) hxs fun fuel s s' r hp hx hr =>
      h Unit bareSpace bareSpace bareSpace fuel (pd + 1) 0 0 s s' r (Nat.succ_ne_self pd) hp hx hr
  · rintro hf σ M P O fuel this sub hot s s' r hne hp rfl h
    exact delCrd_confined hp hc hd hne hf h
  · rintro hf σ M P O fuel sub hot s s' r hp rfl h
    exact delCrd_confined_self hp hc hd hf h

/-- A machine on which domain 1 holds all ports and nobody else has any. -/
def allPorts : Spaces Unit :=
  ⟨boot (), (insertRoot bareSpace 1 0 0 16 0x1f 0 (boot ())).1, boot ()⟩

theorem allPorts_tree (q : PdId) : allPorts.pio.tree q = if q = 1 then [0] else [] := by
  rw [show allPorts.pio.tree = Function.update (fun _ => []) 1 [0] from rfl, Function.update_apply]

theorem allPorts_trees : PortTrees allPorts.pio := by
  have hmem : ∀ q n, n ∈ allPorts.pio.tree q → n = 0 := by
    intro q n hn
    rw [allPorts_tree] at hn
    split at hn
    · exact List.mem_singleton.mp hn
    · simp at hn
  refine ⟨fun q n hn => ?_, fun q n hn => ?_⟩
  · rw [hmem q n hn]
    decide
  · rw [hmem q n hn]
    decide

theorem fits_keyboard :
    Fits (Crd.make Crd.PIO 0x60 3 7) (Crd.make Crd.PIO 0x60 4 7) (allPorts.pio.extents 1) := by
  have hxs : allPorts.pio.extents 1 = [⟨0, 16, 0x1f⟩] := rfl
  have hc : clamp (Crd.make Crd.PIO 0x60 3 7).base (Crd.make Crd.PIO 0x60 4 7).base
      (Crd.make Crd.PIO 0x60 3 7).order (Crd.make Crd.PIO 0x60 4 7).order = (3, 0x60) := by decide
  -- the loop ends behind the one node
  have hend : Extent.find [⟨0, 16, 0x1f⟩] 0x10000 = none := by decide
  have hcomes : ∀ seen addr, Comes 0x60 3 [⟨0, 16, 0x1f⟩] seen addr → addr = 0x60 ∨ addr = 0x10000 := by
    intro seen addr h
    induction h with
    | start => exact Or.inl rfl
    | next _ hfind _ ih =>
      rcases ih with rfl | rfl
      · obtain rfl := Option.some.inj ((by decide : Extent.find [⟨0, 16, 0x1f⟩] 0x60 =
          some ⟨0, 16, 0x1f⟩).symm.trans hfind)
        exact Or.inr (by decide)
      · rw [hend] at hfind
        simp at hfind
  intro seen addr x y h hfind hclip _
  rw [hxs, hc] at h
  rw [hxs] at hfind
  rw [hc] at hclip
  rcases hcomes seen addr h with rfl | rfl
  · obtain rfl := Option.some.inj ((by decide : Extent.find [⟨0, 16, 0x1f⟩] 0x60 =
      some ⟨0, 16, 0x1f⟩).symm.trans hfind)
    obtain rfl := Option.some.inj ((by decide : Extent.clip 0x60 3 ⟨0, 16, 0x1f⟩ =
      some ⟨0x60, 3, 0x1f⟩).symm.trans hclip)
    left
    intro i h1 h2
    have hb3 : (Crd.make Crd.PIO 0x60 3 7).base.toNat = 96 ∧
        (Crd.make Crd.PIO 0x60 3 7).order.toNat = 3 := by decide
    have hb4 : (Crd.make Crd.PIO 0x60 4 7).base.toNat = 96 ∧
        (Crd.make Crd.PIO 0x60 4 7).order.toNat = 4 := by decide
    unfold Crd.Has
    rw [hb3.1, hb3.2, hb4.1, hb4.2]
    simp at h1 h2
    omega
  · rw [hend] at hfind
    simp at hfind

/-- Eight ports out of a window of sixteen. -/
theorem delCrd_confined_iff_keyboard :
    ∃ s' r, delCrd bareSpace bareSpace bareSpace 2 2 1 (Crd.make Crd.PIO 0x60 4 7)
      (Crd.make Crd.PIO 0x60 3 7) 0 0 allPorts = some (s', r) ∧
        Confined (Crd.make Crd.PIO 0x60 3 7) (Crd.make Crd.PIO 0x60 4 7) 2 allPorts.pio s'.pio := by
  have hrun : (delCrd bareSpace bareSpace bareSpace 2 2 1 (Crd.make Crd.PIO 0x60 4 7)
      (Crd.make Crd.PIO 0x60 3 7) 0 0 allPorts).isSome := by decide +kernel
  obtain ⟨⟨s', r⟩, hr⟩ := Option.isSome_iff_exists.mp hrun
  refine ⟨s', r, hr, ?_⟩
  exact (delCrd_confined_iff (by decide) (by decide) 1 (by decide)).1.mpr fits_keyboard Unit bareSpace
    bareSpace bareSpace 2 2 0 0 allPorts s' r (by decide) allPorts_trees rfl hr

/-- Port 0x60 sent to the window 0x70: the receiver gets all ports from 0x70 on. -/
theorem disjointPorts_leak :
    ¬∀ crd del : Crd, crd.type = Crd.PIO → del.type = Crd.PIO → ∀ s s' : Spaces Unit, ∀ r,
      PortTrees s.pio → delCrd bareSpace bareSpace bareSpace 2 2 1 del crd 0 0 s = some (s', r) →
        Confined crd del 2 s.pio s'.pio := by
  intro hall
  have hrun : (delCrd bareSpace bareSpace bareSpace 2 2 1 (Crd.make Crd.PIO 0x70 0 7)
      (Crd.make Crd.PIO 0x60 0 7) 0 0 allPorts).map (fun r => (r.1.pio.tree 2, (r.1.pio.mdb 1).nodeBase,
        (r.1.pio.mdb 1).nodeOrder)) = some ([1], 0x70, 16) := by decide +kernel
  obtain ⟨⟨s', r⟩, hr, hval⟩ := Option.map_eq_some_iff.mp hrun
  simp only [Prod.mk.injEq] at hval
  obtain ⟨htree, hbase, hord⟩ := hval
  have hin := (hall _ _ (by decide) (by decide) allPorts s' r allPorts_trees hr).inside 1
    (by simp [htree]) (by simp [allPorts_tree]) 0x70
  simp only [extent, hbase, hord] at hin
  exact absurd (hin (by decide) (by decide)).1.2 (by decide)

end Tukija.Pd
