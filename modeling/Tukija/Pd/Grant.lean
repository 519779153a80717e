import Tukija.Pd.Effect
import Tukija.Pd.Clamp

/-! `delegate` as a sequence of elementary changes. -/
namespace Tukija.Pd

open Tukija.Lib.Word Tukija.Lib.Ring Tukija.Mapdb

variable {σ : Type} {S : SpaceOps σ} {E : σ → σ → Prop} {st st' : State σ}
  {G L U : State σ → NodeId → Prop}

abbrev Steps (S : SpaceOps σ) (E : σ → σ → Prop) (G L U : State σ → NodeId → Prop) :
    State σ → State σ → Prop :=
  Relation.ReflTransGen (Effect S E G L U)

theorem Steps.wf (h : Steps S E G L U st st') (hw : Wf st) : Wf st' := by
  induction h with
  | refl => exact hw
  | tail _ he ih => exact he.wf ih

theorem demote_demoted {n : NodeId} {r : Mword} (hn : st.Live n) :
    Demoted st (st.demote S n r) n r where
  live := hn
  fresh := rfl
  node x := by
    simp only [State.demote, State.update, demoteNode, Heap.set_apply]
    split
    · rename_i hx
      subst hx
      exact ⟨⟨rfl, rfl, rfl, rfl, rfl, rfl, rfl⟩, rfl, rfl, rfl⟩
    · exact ⟨SameNode.refl _, rfl, rfl, rfl⟩
  attr x := by
    simp only [State.demote, State.update, demoteNode, Heap.set_apply]
    split
    · rfl
    · rfl
  tree := rfl
  orig := rfl

theorem remove_dropped {n : NodeId} {leaf : Bool} (hw : Wf st) (hn : st.Live n)
    (ha : (st.mdb n).nodeAttr = 0)
    (hd : leaf = true → (st.mdb (st.mdb.next n)).dpth ≤ (st.mdb n).dpth) :
    Dropped leaf st (st.remove n leaf) n := by
  have hr : (removeNode st.mdb n leaf).1 = true :=
    (removeNode_fst _ _ _).mpr ⟨ha, hw.alive hn, hd⟩
  have happ := removeNode_apply hr
  have hlinks := removeNode_removed hr
  generalize hres : removeNode st.mdb n leaf = res at hr happ hlinks
  obtain ⟨ok, h⟩ := res
  obtain rfl : ok = true := hr
  dsimp only at happ hlinks
  have hsp : (h n).space = (st.mdb n).space := by rw [happ]
  have htree : treeRemove h (st.tree (st.mdb n).space) n =
      some ((st.tree (st.mdb n).space).erase n) := by
    apply treeRemove_of_mem
    · exact (hw.ordered _).congr (fun x _ => by rw [happ]) (fun x _ => by rw [happ])
    · intro x hx
      exact Natural.of_same (by rw [happ]; exact ⟨rfl, rfl, rfl, rfl, rfl, rfl, rfl⟩)
        (hw.natural_of_mem x hx)
    · exact hn
  have heq : st.remove n leaf =
      { st with
        mdb := h
        tree := Function.update st.tree (st.mdb n).space ((st.tree (st.mdb n).space).erase n)
        rcu := n :: st.rcu } := by
    simp only [State.remove, hres, hsp, htree]
  rw [heq]
  constructor
  · exact hn
  · exact ha
  · exact hd
  · rfl
  · exact hlinks
  · intro x
    change SameNode (h x) _ ∧ (h x).nodeAttr = _
    rw [happ x]
    exact ⟨⟨rfl, rfl, rfl, rfl, rfl, rfl, rfl⟩, rfl⟩
  · intro x
    change (h x).prnt = _
    rw [happ x]
  · rfl
  · rfl
  · rfl

theorem remove_eq_self {n : NodeId} {leaf : Bool}
    (h : ¬((st.mdb n).nodeAttr = 0 ∧
      (leaf = true → (st.mdb (st.mdb.next n)).dpth ≤ (st.mdb n).dpth))) :
    st.remove n leaf = st := by
  have hr : (removeNode st.mdb n leaf).1 ≠ true := by
    intro hr
    have := (removeNode_fst _ _ _).mp hr
    exact h ⟨this.1, this.2.2⟩
  unfold State.remove
  generalize removeNode st.mdb n leaf = res at hr ⊢
  obtain ⟨ok, h'⟩ := res
  cases ok
  · rfl
  · exact absurd rfl hr

theorem remove_wf {n : NodeId} (hw : Wf st) (hn : st.Live n) : Wf (st.remove n true) := by
  by_cases h : (st.mdb n).nodeAttr = 0 ∧
      (true = true → (st.mdb (st.mdb.next n)).dpth ≤ (st.mdb n).dpth)
  · exact (remove_dropped hw hn h.1 h.2).wf hw
  · rw [remove_eq_self h]
    exact hw

theorem remove_steps {n : NodeId} (hw : Wf st) (hn : st.Live n) :
    Steps S E G L U st (st.remove n true) := by
  by_cases h : (st.mdb n).nodeAttr = 0 ∧
      (true = true → (st.mdb (st.mdb.next n)).dpth ≤ (st.mdb n).dpth)
  · exact .single (.unlinked n (remove_dropped hw hn h.1 h.2))
  · rw [remove_eq_self h]

theorem childOf_natural {this : PdId} {sndBase rcvBase ord sub b o : Mword} {mdb : Mdb}
    {n : NodeId} (hm : mdb.Natural) (hs : Aligned ord.toNat sndBase)
    (hr : Aligned ord.toNat rcvBase) (hp : Part mdb sndBase ord b o) :
    (childOf S this sndBase rcvBase sub mdb n b o).Natural := by
  have hlt := hm.order_lt
  have ho : o.toNat ≤ mdb.nodeOrder.toNat ∧ o.toNat ≤ ord.toNat := by
    rw [hp.order]
    omega
  constructor
  · exact ho.1.trans_lt hlt
  · apply Aligned.add (by dsimp [childOf]; omega)
    · exact Aligned.sub (by dsimp [childOf]; omega) hp.aligned (hs.mono ho.2)
    · exact hr.mono ho.2
  · apply Aligned.add (by dsimp [childOf]; omega)
    · exact Aligned.sub (by dsimp [childOf]; omega) hp.aligned (hm.base.mono ho.1)
    · exact hm.phys.mono ho.1

theorem childOf_within {this : PdId} {sndBase rcvBase ord sub b o : Mword} {mdb : Mdb}
    {n : NodeId} (hm : mdb.Natural) (hp : Part mdb sndBase ord b o) :
    Within (childOf S this sndBase rcvBase sub mdb n b o) mdb := by
  constructor
  · dsimp [childOf]
    rw [hp.order]
    exact min_le_left _ _
  · exact (sameBlock_rebase hm.order_lt.le hm.base hm.phys hp.node).symm

/-- The sender's node `m` is about to get a child. -/
def grants (S : SpaceOps σ) (this : PdId) (sndBase rcvBase attr sub : Mword) (m : NodeId)
    (b o : Mword) (st : State σ) : Bool :=
  let n := st.fresh
  let st' := st.alloc S this (childOf S this sndBase rcvBase sub (st.mdb m) n b o)
  !S.hitLimit this st.space && (treeInsert st'.mdb (st'.tree this) n).isSome &&
    (st.mdb m).nodeAttr &&& attr != 0

section DelegateNode

variable {this : PdId} {sndBase rcvBase attr sub b o : Mword} {m : NodeId} {s : Bool}

/-- The state in which a new node is in the list and in the tree. -/
def State.link (S : SpaceOps σ) (this : PdId) (x : Mdb) (tree : Tree) (m : NodeId) (attr : Mword)
    (st : State σ) : State σ :=
  let st1 := (st.alloc S this x).setTree this tree
  { st1 with
    mdb := (insertNode st1.mdb st.fresh m attr).2
    orig := Function.update st1.orig st.fresh (some m) }

def State.grant (S : SpaceOps σ) (this : PdId) (x : Mdb) (tree : Tree) (m : NodeId) (attr : Mword)
    (st : State σ) : State σ :=
  ((st.link S this x tree m attr).update S st.fresh 0).1

theorem alloc_old {x : Mdb} {y : NodeId} (hy : y < st.fresh) :
    (st.alloc S this x).mdb y = st.mdb y := by
  simp [State.alloc, Heap.set_of_ne _ _ hy.ne]

theorem alloc_new {x : Mdb} : (st.alloc S this x).mdb st.fresh = x := by
  simp [State.alloc]

theorem added_of_treeInsert {x : Mdb} {tree : Tree} (hw : Wf st) (hx : x.Natural)
    (hxs : x.space = this)
    (ht : treeInsert (st.alloc S this x).mdb (st.tree this) st.fresh = some tree)
    (hsame : ∀ y, SameNode (st'.mdb y) ((st.alloc S this x).mdb y))
    (hkeep : ∀ y < st.fresh, (st'.mdb y).nodeAttr = (st.mdb y).nodeAttr ∧
      (st'.mdb y).prnt = (st.mdb y).prnt)
    (htree : st'.tree = Function.update st.tree this tree) (hfresh : st'.fresh = st.fresh + 1) :
    Added st st' st.fresh := by
  obtain ⟨hdisj, rfl⟩ := treeInsert_some ht
  have hspace : (st'.mdb st.fresh).space = this := by
    rw [(hsame st.fresh).space, alloc_new, hxs]
  have hlt : ∀ y ∈ st.tree this, y < st.fresh := fun y hy => (hw.mem _ y hy).2
  refine ⟨rfl, hfresh, ?_, ?_, ?_, ?_, ?_⟩
  · intro y hy
    have := hsame y
    rw [alloc_old hy] at this
    exact ⟨this, hkeep y hy⟩
  · intro y
    rw [hspace, htree, Function.update_self, mem_insertOrdered]
  · intro pd hpd
    rw [hspace] at hpd
    rw [htree, Function.update_of_ne hpd]
  · rw [hspace, htree, Function.update_self]
    apply Ordered.congr _ (fun y _ => (hsame y).base) (fun y _ => (hsame y).order)
    apply ordered_insertOrdered _ _ (by rw [alloc_new]; exact hx) hdisj
    · apply (hw.ordered this).congr
      · intro y hy
        rw [alloc_old (hlt y hy)]
      · intro y hy
        rw [alloc_old (hlt y hy)]
    · intro y hy
      rw [alloc_old (hlt y hy)]
      exact hw.natural_of_mem y hy
  · apply Natural.of_same (hsame st.fresh)
    rw [alloc_new]
    exact hx

theorem grant_granted {x : Mdb} {tree : Tree} (hE : S.Frame E) (hw : Wf st) (hm : st.Live m)
    (hx : x.Natural) (hxm : Within x (st.mdb m)) (hxd : x.dpth = ((st.mdb m).dpth + 1) % 2 ^ 16)
    (hxs : x.space = this)
    (ht : treeInsert (st.alloc S this x).mdb (st.tree this) st.fresh = some tree)
    (ha : (st.mdb m).nodeAttr &&& attr ≠ 0) :
    Granted S E st (st.grant S this x tree m attr) m st.fresh := by
  have hmlt := hw.lt hm
  have hmn : st.fresh ≠ m := hmlt.ne'
  have hqn : st.fresh ≠ st.mdb.next m := (hw.lt (hw.live_next hm)).ne'
  have hmdb : (st.grant S this x tree m attr).mdb =
      (insertNode (st.alloc S this x).mdb st.fresh m attr).2 := by
    simp [State.grant, State.link, State.update, State.setTree]
  -- the heap with the new node stored but not linked in
  have h1n : (st.alloc S this x).mdb st.fresh = x := alloc_new
  have h1m : (st.alloc S this x).mdb m = st.mdb m := alloc_old hmlt
  have h1old : ∀ y, y ≠ st.fresh → (st.alloc S this x).mdb y = st.mdb y := by
    intro y hy
    simp [State.alloc, Heap.set_of_ne _ _ hy]
  generalize hh1 : (st.alloc S this x).mdb = h1 at hmdb h1n h1m h1old
  have hq1 : h1.next m = st.mdb.next m := by
    unfold Heap.next
    rw [h1m]
  have ha1 : (h1 m).nodeAttr &&& attr ≠ 0 := by
    rw [h1m]
    exact ha
  have happ := insertNode_apply ha1 hmn (by rw [hq1]; exact hqn)
  have hins := insertNode_inserted ha1 hmn (by rw [hq1]; exact hqn)
  have hsame : ∀ y, SameNode ((insertNode h1 st.fresh m attr).2 y) (h1 y) := by
    intro y
    rw [happ y]
    exact ⟨rfl, rfl, rfl, rfl, rfl, rfl, rfl⟩
  have hadd : Added st (st.grant S this x tree m attr) st.fresh := by
    apply added_of_treeInsert hw hx hxs ht
    · intro y
      rw [hmdb, hh1]
      exact hsame y
    · intro y hy
      rw [hmdb, happ y, h1old y hy.ne]
      simp [hy.ne]
    · rfl
    · rfl
  refine ⟨hadd, hm, ?_, ?_, ?_, ?_, ?_, ?_, ?_⟩
  · rw [hmdb]
    have h1next : ∀ y, y ≠ st.fresh → h1.next y = st.mdb.next y := by
      intro y hy
      unfold Heap.next
      rw [h1old y hy]
    have h1prev : ∀ y, y ≠ st.fresh → h1.prev y = st.mdb.prev y := by
      intro y hy
      unfold Heap.prev
      rw [h1old y hy]
    exact
      { next_p := hins.next_p
        next_n := by rw [hins.next_n, hq1]
        prev_n := hins.prev_n
        prev_q := by rw [← hq1, hins.prev_q]
        next_of_ne := fun y hy hyn => by rw [hins.next_of_ne y hy hyn, h1next y hyn]
        prev_of_ne := fun y hy hyn => by
          rw [hins.prev_of_ne y (by rw [hq1]; exact hy) hyn, h1prev y hyn] }
  · rw [hmdb, happ]
    simp
  · rw [hmdb, (hsame st.fresh).dpth, h1n, hxd]
  · refine ⟨attr, ?_⟩
    rw [hmdb, happ]
    simp [h1m]
  · rw [hmdb]
    unfold Within
    rw [(hsame st.fresh).order, (hsame st.fresh).phys, h1n]
    exact hxm
  · rfl
  · refine ⟨S.alloc this st.space, hE.alloc this st.space, ?_⟩
    rw [hmdb]
    simp [State.grant, State.link, State.update, State.setTree, State.alloc, ← hh1]

theorem grant_new {x : Mdb} {tree : Tree} (hw : Wf st) (hm : st.Live m)
    (ha : (st.mdb m).nodeAttr &&& attr ≠ 0) :
    SameNode ((st.grant S this x tree m attr).mdb st.fresh) x ∧
      ((st.grant S this x tree m attr).mdb st.fresh).nodeAttr = (st.mdb m).nodeAttr &&& attr := by
  have hmdb : (st.grant S this x tree m attr).mdb =
      (insertNode (st.alloc S this x).mdb st.fresh m attr).2 := by
    simp [State.grant, State.link, State.update, State.setTree]
  have h1m : (st.alloc S this x).mdb m = st.mdb m := alloc_old (hw.lt hm)
  have hq1 : (st.alloc S this x).mdb.next m = st.mdb.next m := by
    unfold Heap.next
    rw [h1m]
  have happ := insertNode_apply (h := (st.alloc S this x).mdb) (p := m) (a := attr)
    (by rw [h1m]; exact ha) (hw.lt hm).ne' (by rw [hq1]; exact (hw.lt (hw.live_next hm)).ne')
  rw [hmdb, happ st.fresh, alloc_new, h1m]
  exact ⟨⟨rfl, rfl, rfl, rfl, rfl, rfl, rfl⟩, by simp⟩

/-- What a pass of `delegate` does if it makes no child: at most an
allocation that is undone. -/
theorem delegateNode_of_not_grants (hE : S.Frame E) (hw : Wf st)
    (hx : (childOf S this sndBase rcvBase sub (st.mdb m) st.fresh b o).Natural)
    (hm : m < st.fresh) (hg : grants S this sndBase rcvBase attr sub m b o st = false) :
    ∃ st', Quiet E st st' ∧
      (S.hitLimit this st.space = false ∧
          delegateNode S this sndBase rcvBase attr sub m b o (st, s) = some (.next (st', s)) ∨
        st'.oom = true ∧
          delegateNode S this sndBase rcvBase attr sub m b o (st, s) = some (.ret (st', s))) := by
  by_cases hq : S.hitLimit this st.space = true
  · refine ⟨{ st with oom := true }, ⟨hE.refl _, fun _ _ => rfl, le_rfl, rfl, rfl⟩, Or.inr ⟨rfl, ?_⟩⟩
    simp [delegateNode, hq]
  · have hold : ∀ y < st.fresh,
        (st.alloc S this (childOf S this sndBase rcvBase sub (st.mdb m) st.fresh b o)).mdb y =
          st.mdb y := by
      intro y hy
      simp [State.alloc, Heap.set_of_ne _ _ hy.ne]
    generalize hx' : childOf S this sndBase rcvBase sub (st.mdb m) st.fresh b o = x at hx hold
    cases ht : treeInsert (st.alloc S this x).mdb (st.tree this) st.fresh with
    | none =>
      refine ⟨_, ?_, Or.inl ⟨by simpa using hq, by
        simp only [delegateNode, hq, hx', Bool.false_eq_true, if_false]
        rw [show (st.alloc S this x).tree this = st.tree this from rfl, ht]⟩⟩
      exact ⟨hE.trans _ _ _ (hE.alloc _ _) (hE.destroy _ _), hold, Nat.le_succ _, rfl, rfl⟩
    | some tree =>
      have ha : (st.mdb m).nodeAttr &&& attr = 0 := by
        simpa [grants, hq, hx', show (st.alloc S this x).tree this = st.tree this from rfl, ht]
          using hg
      have hins : insertNode (st.alloc S this x).mdb st.fresh m attr =
          (false, (st.alloc S this x).mdb.set st.fresh fun y => { y with nodeAttr := 0 }) := by
        simp [insertNode, hold m hm, ha]
      obtain ⟨hdisj, rfl⟩ := treeInsert_some ht
      generalize hh1 : (st.alloc S this x).mdb = h1 at ht hins hold hdisj
      have h1n : h1 st.fresh = x := by
        rw [← hh1]
        simp [State.alloc]
      have hsame : ∀ y, SameNode ((h1.set st.fresh fun y => { y with nodeAttr := 0 }) y) (h1 y) := by
        intro y
        rw [Heap.set_apply]
        split
        · rename_i hy
          subst hy
          exact ⟨rfl, rfl, rfl, rfl, rfl, rfl, rfl⟩
        · exact SameNode.refl _
      have hnat : ∀ y ∈ st.tree this, (h1 y).Natural := by
        intro y hy
        rw [hold y (hw.mem _ y hy).2]
        exact hw.natural_of_mem y hy
      have hord : Ordered h1 (insertOrdered h1 st.fresh (st.tree this)) := by
        apply ordered_insertOrdered _ hnat (by rw [h1n]; exact hx) hdisj
        apply (hw.ordered this).congr
        · intro y hy
          rw [hold y (hw.mem _ y hy).2]
        · intro y hy
          rw [hold y (hw.mem _ y hy).2]
      have hrem : treeRemove (h1.set st.fresh fun y => { y with nodeAttr := 0 })
          (insertOrdered h1 st.fresh (st.tree this)) st.fresh = some (st.tree this) := by
        rw [treeRemove_of_mem]
        · rw [erase_insertOrdered]
          intro hmem
          exact absurd (hw.mem _ _ hmem).2 (lt_irrefl _)
        · exact hord.congr (fun y _ => (hsame y).base) (fun y _ => (hsame y).order)
        · intro y hy
          apply Natural.of_same (hsame y)
          rcases mem_insertOrdered.mp hy with rfl | hy
          · rw [h1n]
            exact hx
          · exact hnat y hy
        · exact mem_insertOrdered.mpr (Or.inl rfl)
      refine ⟨{ st.alloc S this x with
        mdb := h1.set st.fresh fun y => { y with nodeAttr := 0 }
        rcu := st.fresh :: st.rcu }, ?_, Or.inl ⟨by simpa using hq, ?_⟩⟩
      rotate_left
      · simp only [delegateNode, hq, hx', Bool.false_eq_true, if_false, State.setTree,
          show (st.alloc S this x).tree = st.tree from rfl, hh1, ht, hins,
          Function.update_self, hrem]
        rw [Function.update_idem, Function.update_eq_self]
        rfl
      constructor
      · exact hE.alloc _ _
      · intro y hy
        dsimp only
        rw [Heap.set_of_ne _ _ hy.ne, hold y hy]
      · exact Nat.le_succ _
      · rfl
      · rfl

theorem delegateNode_of_grants (hg : grants S this sndBase rcvBase attr sub m b o st = true)
    (hm : m < st.fresh) :
    let x := childOf S this sndBase rcvBase sub (st.mdb m) st.fresh b o
    ∃ tree, treeInsert (st.alloc S this x).mdb (st.tree this) st.fresh = some tree ∧
      (st.mdb m).nodeAttr &&& attr ≠ 0 ∧
      let st' := st.grant S this x tree m attr
      ∃ f g, delegateNode S this sndBase rcvBase attr sub m b o (st, s) =
        if st'.oom then some (.ret ((st'.demote S st.fresh attr).remove st.fresh true, s || f || g))
        else some (.next (st', s || f)) := by
  intro x
  simp only [grants, Bool.and_eq_true, Bool.not_eq_true', bne_iff_ne, Option.isSome_iff_exists] at hg
  obtain ⟨⟨hq, tree, ht⟩, ha⟩ := hg
  refine ⟨tree, ht, ha, ?_⟩
  have hold : (st.alloc S this x).mdb m = st.mdb m := by
    simp [State.alloc, Heap.set_of_ne _ _ hm.ne]
  have hfst : (insertNode (st.alloc S this x).mdb st.fresh m attr).1 = true := by
    rw [insertNode_fst, hold]
    simpa using ha
  have hres : insertNode (st.alloc S this x).mdb st.fresh m attr =
      (true, (insertNode (st.alloc S this x).mdb st.fresh m attr).2) :=
    Prod.ext hfst rfl
  have ht' : treeInsert (st.alloc S this x).mdb ((st.alloc S this x).tree this) st.fresh =
      some tree := ht
  generalize hins : insertNode (st.alloc S this x).mdb st.fresh m attr = res at hres
  obtain ⟨ok, h⟩ := res
  obtain rfl : ok = true := congrArg Prod.fst hres
  refine ⟨((st.link S this x tree m attr).update S st.fresh 0).2,
    ((st.grant S this x tree m attr).update S st.fresh attr).2, ?_⟩
  simp only [delegateNode, hq, Bool.false_eq_true, if_false]
  rw [show childOf S this sndBase rcvBase sub (st.mdb m) st.fresh b o = x from rfl, ht']
  simp only [State.grant, State.link, State.setTree, hins]
  rfl

variable {ord : Mword} {c : Ctl (State σ × Bool)}

def Ctl.val {τ : Type} : Ctl τ → τ
  | .next t => t
  | .ret t => t

theorem delegateNode_steps (hE : S.Frame E) (hw : Wf st) (hm : st.Live m)
    (hs : Aligned ord.toNat sndBase) (hr : Aligned ord.toNat rcvBase)
    (hp : Part (st.mdb m) sndBase ord b o)
    (hG : grants S this sndBase rcvBase attr sub m b o st = true → G st m)
    (h : delegateNode S this sndBase rcvBase attr sub m b o (st, s) = some c) :
    Steps S E G L U st c.val.1 := by
  have hnat := hw.natural m hm
  have hx : (childOf S this sndBase rcvBase sub (st.mdb m) st.fresh b o).Natural :=
    childOf_natural hnat hs hr hp
  cases hg : grants S this sndBase rcvBase attr sub m b o st with
  | false =>
    obtain ⟨st', hq, ⟨-, h'⟩ | ⟨-, h'⟩⟩ := delegateNode_of_not_grants (s := s) hE hw hx (hw.lt hm) hg
    · rw [h'] at h
      obtain rfl := Option.some.inj h
      exact .single (.quiet hq)
    · rw [h'] at h
      obtain rfl := Option.some.inj h
      exact .single (.quiet hq)
  | true =>
    obtain ⟨tree, ht, ha, f, g, h'⟩ := delegateNode_of_grants (s := s) hg (hw.lt hm)
    have hgr : Granted S E st (st.grant S this _ tree m attr) m st.fresh :=
      grant_granted hE hw hm hx (childOf_within hnat hp) rfl rfl ht ha
    have hfirst : Steps S E G L U st _ := .single (.granted m st.fresh (hG hg) hgr)
    rw [h'] at h
    split at h
    · obtain rfl := Option.some.inj h
      -- out of memory: the new node is stripped of its rights and taken out again
      generalize State.grant S this _ tree m attr st = st1 at hgr hfirst
      have hw1 := hgr.wf hw
      have hlive : st1.Live st.fresh := (hgr.live hw _).mpr (Or.inl rfl)
      have hdem : Demoted st1 (st1.demote S st.fresh attr) st.fresh attr := demote_demoted hlive
      have hsecond := hfirst.tail (.demoted st.fresh attr hdem rfl)
      apply hsecond.trans
      exact remove_steps (hdem.wf hw1) ((hdem.live_iff _).mpr hlive)
    · obtain rfl := Option.some.inj h
      exact hfirst

end DelegateNode

end Tukija.Pd
