import Tukija.Pd.Delegate
import Tukija.Pd.Revoke
import Tukija.Pd.Root

/-! What one elementary change of the mapping database does.  Every operation
is a sequence of such changes, and every invariant is proved against them. -/
namespace Tukija.Pd

open Tukija.Lib.Word Tukija.Lib.Ring Tukija.Mapdb

variable {σ : Type} {S : SpaceOps σ} {E : σ → σ → Prop} {st st' : State σ}

structure SameNode (x y : Mdb) : Prop where
  dpth : x.dpth = y.dpth
  space : x.space = y.space
  phys : x.nodePhys = y.nodePhys
  base : x.nodeBase = y.nodeBase
  order : x.nodeOrder = y.nodeOrder
  type : x.nodeType = y.nodeType
  sub : x.nodeSub = y.nodeSub

theorem SameNode.refl (x : Mdb) : SameNode x x := ⟨rfl, rfl, rfl, rfl, rfl, rfl, rfl⟩

theorem SameNode.trans {x y z : Mdb} (h : SameNode x y) (h' : SameNode y z) : SameNode x z where
  dpth := h.dpth.trans h'.dpth
  space := h.space.trans h'.space
  phys := h.phys.trans h'.phys
  base := h.base.trans h'.base
  order := h.order.trans h'.order
  type := h.type.trans h'.type
  sub := h.sub.trans h'.sub

theorem Natural.of_same {x y : Mdb} (hs : SameNode x y) (hy : y.Natural) : x.Natural :=
  ⟨by rw [hs.order]; exact hy.order_lt, by rw [hs.order, hs.base]; exact hy.base,
    by rw [hs.order, hs.phys]; exact hy.phys⟩

/-- The physical range of `x` lies in that of `y`. -/
def Within (x y : Mdb) : Prop :=
  x.nodeOrder.toNat ≤ y.nodeOrder.toNat ∧ SameBlock y.nodeOrder.toNat x.nodePhys y.nodePhys

/-- The ring of `n`, read from `n`. -/
abbrev State.RingAt (st : State σ) (n : NodeId) (l : List NodeId) : Prop :=
  LinkedRing st.mdb.next st.mdb.prev n l

/-- What holds of the database after any history of aligned operations. -/
structure Wf (st : State σ) : Prop where
  mem : ∀ pd, ∀ n ∈ st.tree pd, (st.mdb n).space = pd ∧ n < st.fresh
  ordered : ∀ pd, Ordered st.mdb (st.tree pd)
  natural : ∀ n, st.Live n → (st.mdb n).Natural
  ring : ∀ n, st.Live n → ∃ l, st.RingAt n l ∧ ∀ x ∈ l, st.Live x

theorem Wf.lt (hw : Wf st) {n : NodeId} (hn : st.Live n) : n < st.fresh := (hw.mem _ n hn).2

theorem Wf.live_of_mem (hw : Wf st) {pd : PdId} {n : NodeId} (hn : n ∈ st.tree pd) :
    st.Live n := by
  unfold State.Live
  rw [(hw.mem pd n hn).1]
  exact hn

theorem Wf.natural_of_mem (hw : Wf st) {pd : PdId} : ∀ n ∈ st.tree pd, (st.mdb n).Natural :=
  fun n hn => hw.natural n (hw.live_of_mem hn)

theorem Wf.live_of_ring (hw : Wf st) {n x : NodeId} {l : List NodeId} (hn : st.Live n)
    (hr : st.RingAt n l) (hx : x ∈ l) : st.Live x := by
  obtain ⟨l', hr', hl'⟩ := hw.ring n hn
  rw [hr.unique hr'] at hx
  exact hl' x hx

theorem Wf.live_next (hw : Wf st) {n : NodeId} (hn : st.Live n) : st.Live (st.mdb.next n) := by
  obtain ⟨l, hr, hl⟩ := hw.ring n hn
  rcases List.mem_cons.mp (hr.next_mem (x := n) (by simp)) with h | h
  · rw [h]; exact hn
  · exact hl _ h

theorem Wf.withSpace (hw : Wf st) (space : σ) : Wf { st with space := space } :=
  ⟨hw.mem, hw.ordered, hw.natural, hw.ring⟩

theorem Wf.alive (hw : Wf st) {n : NodeId} (hn : st.Live n) : alive st.mdb n = true := by
  obtain ⟨l, hr, -⟩ := hw.ring n hn
  have h1 := hr.next_prev (x := n) (by simp)
  have h2 := hr.prev_next (x := n) (by simp)
  simp [Mapdb.alive, h1, h2]

/-- The changes of a space that are none to the mappings in it: `E` lets the
quotas change. -/
structure SpaceOps.Frame (S : SpaceOps σ) (E : σ → σ → Prop) : Prop where
  refl : ∀ s, E s s
  trans : ∀ s s' s'', E s s' → E s' s'' → E s s''
  alloc : ∀ pd s, E s (S.alloc pd s)
  destroy : ∀ pd s, E s (S.destroy pd s)

/-- Nothing that the database consists of has changed. -/
structure Quiet (E : σ → σ → Prop) (st st' : State σ) : Prop where
  space : E st.space st'.space
  mdb : ∀ x < st.fresh, st'.mdb x = st.mdb x
  fresh : st.fresh ≤ st'.fresh
  tree : st'.tree = st.tree
  orig : st'.orig = st.orig

/-- A node `n` was made and put into the tree of its space. -/
structure Added (st st' : State σ) (n : NodeId) : Prop where
  fresh : n = st.fresh
  fresh' : st'.fresh = st.fresh + 1
  old : ∀ x < st.fresh, SameNode (st'.mdb x) (st.mdb x) ∧
    (st'.mdb x).nodeAttr = (st.mdb x).nodeAttr ∧ (st'.mdb x).prnt = (st.mdb x).prnt
  tree : ∀ x, x ∈ st'.tree (st'.mdb n).space ↔ x = n ∨ x ∈ st.tree (st'.mdb n).space
  tree_ne : ∀ pd, pd ≠ (st'.mdb n).space → st'.tree pd = st.tree pd
  ordered : Ordered st'.mdb (st'.tree (st'.mdb n).space)
  natural : (st'.mdb n).Natural

/-- A node `n` was delegated from `m`. -/
structure Granted (S : SpaceOps σ) (E : σ → σ → Prop) (st st' : State σ) (m n : NodeId) : Prop
    extends Added st st' n where
  live_m : st.Live m
  links : LinkedRing.Inserted st.mdb.next st.mdb.prev st'.mdb.next st'.mdb.prev m n
  prnt : (st'.mdb n).prnt = some m
  dpth : (st'.mdb n).dpth = ((st.mdb m).dpth + 1) % 2 ^ 16
  attr : ∃ a, (st'.mdb n).nodeAttr = (st.mdb m).nodeAttr &&& a
  within : Within (st'.mdb n) (st.mdb m)
  orig : st'.orig = Function.update st.orig n (some m)
  space : ∃ s, E st.space s ∧ st'.space = (S.update (st'.mdb n) 0 s).1

/-- A node `n` was made from nothing. -/
structure Rooted (E : σ → σ → Prop) (st st' : State σ) (n : NodeId) : Prop
    extends Added st st' n where
  links : ∀ x < st.fresh, st'.mdb.next x = st.mdb.next x ∧ st'.mdb.prev x = st.mdb.prev x
  self : st'.mdb.next n = n ∧ st'.mdb.prev n = n
  prnt : (st'.mdb n).prnt = none
  attr : (st'.mdb n).nodeAttr &&& ~~~0x1f = 0
  sub : (st'.mdb n).nodeSub = 0
  orig : st'.orig = st.orig
  space : E st.space st'.space

/-- The rights `r` were taken from `n`. -/
structure Demoted (st st' : State σ) (n : NodeId) (r : Mword) : Prop where
  live : st.Live n
  fresh : st'.fresh = st.fresh
  node : ∀ x, SameNode (st'.mdb x) (st.mdb x) ∧ (st'.mdb x).next = (st.mdb x).next ∧
    (st'.mdb x).prev = (st.mdb x).prev ∧ (st'.mdb x).prnt = (st.mdb x).prnt
  attr : ∀ x, (st'.mdb x).nodeAttr =
    if x = n then (st.mdb n).nodeAttr &&& ~~~r else (st.mdb x).nodeAttr
  tree : st'.tree = st.tree
  orig : st'.orig = st.orig

/-- A node `n` without rights was taken out; unless it was a leaf, its
successor took over its parent. -/
structure Dropped (leaf : Bool) (st st' : State σ) (n : NodeId) : Prop where
  live : st.Live n
  attr : (st.mdb n).nodeAttr = 0
  leaf_dpth : leaf = true → (st.mdb (st.mdb.next n)).dpth ≤ (st.mdb n).dpth
  fresh : st'.fresh = st.fresh
  links : LinkedRing.Removed st.mdb.next st.mdb.prev st'.mdb.next st'.mdb.prev n
  node : ∀ x, SameNode (st'.mdb x) (st.mdb x) ∧ (st'.mdb x).nodeAttr = (st.mdb x).nodeAttr
  prnt : ∀ x, (st'.mdb x).prnt =
    if leaf = false ∧ x = st.mdb.next n then (st.mdb n).prnt else (st.mdb x).prnt
  tree : st'.tree = Function.update st.tree (st.mdb n).space ((st.tree (st.mdb n).space).erase n)
  orig : st'.orig = st.orig
  space : st'.space = st.space

/-- One elementary change.  `G` holds of the nodes delegated from, `L` of the
nodes lifted out of the middle of a list, `U` of the nodes `remove_utcb` demotes. -/
inductive Effect (S : SpaceOps σ) (E : σ → σ → Prop) (G L U : State σ → NodeId → Prop)
    (st st' : State σ) : Prop where
  | quiet (h : Quiet E st st')
  | granted (m n : NodeId) (hg : G st m) (h : Granted S E st st' m n)
  | rooted (n : NodeId) (h : Rooted E st st' n)
  | demoted (n : NodeId) (r : Mword) (h : Demoted st st' n r)
      (hs : st'.space = (S.update (st.mdb n) r st.space).1)
  | stripped (n : NodeId) (hu : U st n) (h : Demoted st st' n 0x3) (hs : st'.space = st.space)
  | unlinked (n : NodeId) (h : Dropped true st st' n)
  | lifted (n : NodeId) (hd : (st.mdb n).dpth < (st.mdb (st.mdb.next n)).dpth) (hl : L st n)
      (h : Dropped false st st' n)

section Live

variable {m n : NodeId} {r : Mword} {leaf : Bool}

theorem Quiet.live (h : Quiet E st st') (hw : Wf st) (x : NodeId) : st'.Live x ↔ st.Live x := by
  unfold State.Live
  rw [h.tree]
  by_cases hx : x < st.fresh
  · rw [h.mdb x hx]
  · constructor
    · intro hl
      exact absurd (hw.mem _ x hl).2 hx
    · intro hl
      exact absurd (hw.mem _ x hl).2 hx

theorem Added.live (h : Added st st' n) (hw : Wf st) (x : NodeId) :
    st'.Live x ↔ x = n ∨ st.Live x := by
  unfold State.Live
  by_cases hxn : x = n
  · subst hxn
    simp [h.tree]
  · by_cases hx : x < st.fresh
    · rw [(h.old x hx).1.space]
      by_cases hpd : (st.mdb x).space = (st'.mdb n).space
      · rw [hpd, h.tree]
      · rw [h.tree_ne _ hpd]
        simp [hxn]
    · constructor
      · intro hl
        by_cases hpd : (st'.mdb x).space = (st'.mdb n).space
        · rw [hpd, h.tree] at hl
          rcases hl with hl | hl
          · exact Or.inl hl
          · exact absurd (hw.mem _ x hl).2 hx
        · rw [h.tree_ne _ hpd] at hl
          exact absurd (hw.mem _ x hl).2 hx
      · rintro (hl | hl)
        · exact absurd hl hxn
        · exact absurd (hw.mem _ x hl).2 hx

theorem Added.not_live (h : Added st st' n) (hw : Wf st) : ¬st.Live n := by
  intro hl
  have := hw.lt hl
  rw [h.fresh] at this
  exact lt_irrefl _ this

theorem Demoted.live_iff (h : Demoted st st' n r) (x : NodeId) : st'.Live x ↔ st.Live x := by
  unfold State.Live
  rw [h.tree, (h.node x).1.space]

theorem Dropped.live_iff (h : Dropped leaf st st' n) (hw : Wf st) (x : NodeId) :
    st'.Live x ↔ x ≠ n ∧ st.Live x := by
  unfold State.Live
  rw [h.tree, (h.node x).1.space]
  by_cases hpd : (st.mdb x).space = (st.mdb n).space
  · rw [hpd, Function.update_self, (hw.ordered _).nodup.mem_erase_iff]
  · rw [Function.update_of_ne hpd]
    constructor
    · intro hl
      refine ⟨?_, hl⟩
      rintro rfl
      exact hpd rfl
    · exact fun hl => hl.2

end Live

section Rings

variable {m n c : NodeId} {r : Mword} {leaf : Bool} {l : List NodeId}

theorem Wf.ring_lt (hw : Wf st) (hc : st.Live c) (hr : st.RingAt c l) : ∀ x ∈ c :: l, x < st.fresh := by
  intro x hx
  rcases List.mem_cons.mp hx with rfl | hx
  · exact hw.lt hc
  · exact hw.lt (hw.live_of_ring hc hr hx)

theorem Quiet.ringAt (h : Quiet E st st') (hw : Wf st) (hc : st.Live c) (hr : st.RingAt c l) :
    st'.RingAt c l := by
  have hlt := hw.ring_lt hc hr
  apply hr.congr
  · intro x hx
    simp only [Heap.next, h.mdb x (hlt x hx)]
  · intro x hx
    simp only [Heap.prev, h.mdb x (hlt x hx)]

theorem Rooted.ringAt (h : Rooted E st st' n) (hw : Wf st) (hc : st.Live c)
    (hr : st.RingAt c l) : st'.RingAt c l := by
  have hlt := hw.ring_lt hc hr
  apply hr.congr
  · intro x hx
    exact (h.links x (hlt x hx)).1
  · intro x hx
    exact (h.links x (hlt x hx)).2

theorem Rooted.ringAt_self (h : Rooted E st st' n) : st'.RingAt n [] :=
  ⟨by simp, h.self⟩

theorem Granted.notMem_ring (h : Granted S E st st' m n) (hw : Wf st) (hc : st.Live c)
    (hr : st.RingAt c l) : n ∉ c :: l := by
  intro hn
  have := hw.ring_lt hc hr n hn
  rw [h.fresh] at this
  exact lt_irrefl _ this

theorem Granted.ringAt (h : Granted S E st st' m n) (hw : Wf st) (hc : st.Live c)
    (hr : st.RingAt c l) (hcm : c ≠ m) : st'.RingAt c (insertBehind m n l) := by
  have hn := h.notMem_ring hw hc hr
  by_cases hm : m ∈ l
  · obtain ⟨u, v, rfl⟩ := List.append_of_mem hm
    rw [insertBehind_append hr.tail_nodup]
    exact hr.insert h.links hn
  · rw [insertBehind_of_notMem hm]
    obtain ⟨lm, hrm, -⟩ := hw.ring m h.live_m
    exact hr.insert_other h.links hrm (by simp [hm, hcm.symm]) hn

theorem Granted.ringAt_self (h : Granted S E st st' m n) (hw : Wf st) (hr : st.RingAt m l) :
    st'.RingAt m (n :: l) :=
  hr.insert_head h.links (h.notMem_ring hw h.live_m hr)

theorem Granted.ringAt_new (h : Granted S E st st' m n) (hw : Wf st) (hr : st.RingAt m l) :
    st'.RingAt n (l ++ [m]) :=
  (show st'.RingAt m ([] ++ n :: l) from h.ringAt_self hw hr).rotate

theorem Demoted.ringAt (h : Demoted st st' n r) (hr : st.RingAt c l) : st'.RingAt c l := by
  apply hr.congr
  · intro x _
    exact (h.node x).2.1
  · intro x _
    exact (h.node x).2.2.1

theorem Dropped.ringAt (h : Dropped leaf st st' n) (hw : Wf st) (hr : st.RingAt c l)
    (hcn : c ≠ n) : st'.RingAt c (l.erase n) := by
  by_cases hn : n ∈ l
  · obtain ⟨u, v, rfl⟩ := List.append_of_mem hn
    have hnu : n ∉ u := by
      have := (List.nodup_append.mp hr.tail_nodup).2.2
      intro hnu
      exact this n hnu n (by simp) rfl
    rw [List.erase_append_right _ hnu, List.erase_cons_head]
    exact hr.remove h.links
  · rw [List.erase_of_not_mem hn]
    obtain ⟨ln, hrn, -⟩ := hw.ring n h.live
    exact hr.remove_other h.links hrn (by simp [hn, hcn.symm])

end Rings

theorem Quiet.wf (h : Quiet E st st') (hw : Wf st) : Wf st' where
  mem pd n hn := by
    rw [h.tree] at hn
    have := hw.mem pd n hn
    rw [h.mdb n this.2]
    exact ⟨this.1, this.2.trans_le h.fresh⟩
  ordered pd := by
    rw [h.tree]
    have hlt := fun x hx => (hw.mem pd x hx).2
    exact (hw.ordered pd).congr (fun x hx => by rw [h.mdb x (hlt x hx)])
      (fun x hx => by rw [h.mdb x (hlt x hx)])
  natural n hn := by
    rw [h.live hw] at hn
    rw [h.mdb n (hw.lt hn)]
    exact hw.natural n hn
  ring n hn := by
    rw [h.live hw] at hn
    obtain ⟨l, hr, hl⟩ := hw.ring n hn
    exact ⟨l, h.ringAt hw hn hr, fun x hx => (h.live hw x).mpr (hl x hx)⟩

theorem Added.wf {n : NodeId} (h : Added st st' n) (hw : Wf st)
    (hring : ∀ n, st'.Live n → ∃ l, st'.RingAt n l ∧ ∀ x ∈ l, st'.Live x) : Wf st' where
  mem pd x hx := by
    by_cases hpd : pd = (st'.mdb n).space
    · subst hpd
      rcases (h.tree x).mp hx with rfl | hx
      · exact ⟨rfl, by rw [h.fresh', h.fresh]; exact Nat.lt_succ_self _⟩
      · have := hw.mem _ x hx
        rw [(h.old x this.2).1.space, h.fresh']
        exact ⟨this.1, Nat.lt_succ_of_lt this.2⟩
    · rw [h.tree_ne pd hpd] at hx
      have := hw.mem _ x hx
      rw [(h.old x this.2).1.space, h.fresh']
      exact ⟨this.1, Nat.lt_succ_of_lt this.2⟩
  ordered pd := by
    by_cases hpd : pd = (st'.mdb n).space
    · subst hpd
      exact h.ordered
    · rw [h.tree_ne pd hpd]
      have hlt := fun x hx => (hw.mem pd x hx).2
      exact (hw.ordered pd).congr (fun x hx => (h.old x (hlt x hx)).1.base)
        (fun x hx => (h.old x (hlt x hx)).1.order)
  natural x hx := by
    rcases (h.live hw x).mp hx with rfl | hx
    · exact h.natural
    · exact Natural.of_same (h.old x (hw.lt hx)).1 (hw.natural x hx)
  ring := hring

theorem Granted.wf {m n : NodeId} (h : Granted S E st st' m n) (hw : Wf st) : Wf st' := by
  apply h.toAdded.wf hw
  intro c hc
  obtain ⟨lm, hrm, hlm⟩ := hw.ring m h.live_m
  rcases (h.live hw c).mp hc with rfl | hc
  · refine ⟨_, h.ringAt_new hw hrm, fun x hx => (h.live hw x).mpr (Or.inr ?_)⟩
    rcases List.mem_append.mp hx with hx | hx
    · exact hlm x hx
    · rw [List.mem_singleton.mp hx]
      exact h.live_m
  · by_cases hcm : c = m
    · subst hcm
      refine ⟨_, h.ringAt_self hw hrm, fun x hx => (h.live hw x).mpr ?_⟩
      rcases List.mem_cons.mp hx with hx | hx
      · exact Or.inl hx
      · exact Or.inr (hlm x hx)
    · obtain ⟨l, hr, hl⟩ := hw.ring c hc
      refine ⟨_, h.ringAt hw hc hr hcm, fun x hx => (h.live hw x).mpr ?_⟩
      rcases mem_insertBehind hx with hx | hx
      · exact Or.inl hx
      · exact Or.inr (hl x hx)

theorem Rooted.wf {n : NodeId} (h : Rooted E st st' n) (hw : Wf st) : Wf st' := by
  apply h.toAdded.wf hw
  intro c hc
  rcases (h.live hw c).mp hc with rfl | hc
  · exact ⟨[], h.ringAt_self, by simp⟩
  · obtain ⟨l, hr, hl⟩ := hw.ring c hc
    exact ⟨l, h.ringAt hw hc hr, fun x hx => (h.live hw x).mpr (Or.inr (hl x hx))⟩

theorem Demoted.wf {n : NodeId} {r : Mword} (h : Demoted st st' n r) (hw : Wf st) : Wf st' where
  mem pd x hx := by
    rw [h.tree] at hx
    rw [(h.node x).1.space, h.fresh]
    exact hw.mem pd x hx
  ordered pd := by
    rw [h.tree]
    exact (hw.ordered pd).congr (fun x _ => (h.node x).1.base) (fun x _ => (h.node x).1.order)
  natural x hx := Natural.of_same (h.node x).1 (hw.natural x ((h.live_iff x).mp hx))
  ring x hx := by
    obtain ⟨l, hr, hl⟩ := hw.ring x ((h.live_iff x).mp hx)
    exact ⟨l, h.ringAt hr, fun y hy => (h.live_iff y).mpr (hl y hy)⟩

theorem Dropped.wf {leaf : Bool} {n : NodeId} (h : Dropped leaf st st' n) (hw : Wf st) :
    Wf st' where
  mem pd x hx := by
    rw [(h.node x).1.space, h.fresh]
    rw [h.tree] at hx
    apply hw.mem pd x
    by_cases hpd : pd = (st.mdb n).space
    · subst hpd
      rw [Function.update_self] at hx
      exact List.mem_of_mem_erase hx
    · rwa [Function.update_of_ne hpd] at hx
  ordered pd := by
    have ho : Ordered st'.mdb (st.tree pd) :=
      (hw.ordered pd).congr (fun x _ => (h.node x).1.base) (fun x _ => (h.node x).1.order)
    rw [h.tree]
    by_cases hpd : pd = (st.mdb n).space
    · subst hpd
      rw [Function.update_self]
      exact List.Pairwise.sublist List.erase_sublist ho
    · rwa [Function.update_of_ne hpd]
  natural x hx := Natural.of_same (h.node x).1 (hw.natural x ((h.live_iff hw x).mp hx).2)
  ring x hx := by
    obtain ⟨hxn, hx⟩ := (h.live_iff hw x).mp hx
    obtain ⟨l, hr, hl⟩ := hw.ring x hx
    refine ⟨_, h.ringAt hw hr hxn, fun y hy => (h.live_iff hw y).mpr ?_⟩
    exact (hr.tail_nodup.mem_erase_iff.mp hy).imp id (hl y)

theorem Effect.wf {G L U : State σ → NodeId → Prop} (h : Effect S E G L U st st') (hw : Wf st) :
    Wf st' := by
  cases h with
  | quiet h => exact h.wf hw
  | granted m n _ h => exact h.wf hw
  | rooted n h => exact h.wf hw
  | demoted n r h _ => exact h.wf hw
  | stripped n _ h _ => exact h.wf hw
  | unlinked n h => exact h.wf hw
  | lifted n _ _ h => exact h.wf hw

end Tukija.Pd
