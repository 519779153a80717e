import Mathlib.Data.List.TakeWhile
import Tukija.Pd.Grant

/-! `revoke` as a sequence of elementary changes.  The two inner loops walk a
stretch of a ring that they do not rearrange behind their backs, so both are
folds over the list of the nodes in it. -/
namespace Tukija.Pd

open Tukija.Lib.Word Tukija.Lib.Ring Tukija.Mapdb

variable {σ : Type} {S : SpaceOps σ} {E : σ → σ → Prop} {st st' : State σ}
  {G L U : State σ → NodeId → Prop}

/-- The nodes `A` directly behind `m` are deeper than `m`; the rest `B` of the
ring starts with one that is not. -/
structure Run (st : State σ) (m : NodeId) (A B : List NodeId) : Prop where
  ring : st.RingAt m (A ++ B)
  deeper : ∀ x ∈ A, (st.mdb m).dpth < (st.mdb x).dpth
  stop : ∀ x ∈ B.head?, (st.mdb x).dpth ≤ (st.mdb m).dpth

theorem Wf.run (hw : Wf st) {m : NodeId} (hm : st.Live m) : ∃ A B, Run st m A B := by
  obtain ⟨l, hr, -⟩ := hw.ring m hm
  let p : NodeId → Bool := fun x => decide ((st.mdb m).dpth < (st.mdb x).dpth)
  refine ⟨l.takeWhile p, l.dropWhile p, ?_, ?_, ?_⟩
  · rw [List.takeWhile_append_dropWhile]
    exact hr
  · intro x hx
    simpa [p] using List.mem_takeWhile_imp hx
  · intro x hx
    have := List.head?_dropWhile_not p l
    rw [Option.mem_def.mp hx] at this
    simpa [p] using this

def SameShape (h h' : Heap) : Prop := ∀ x, h' x = { h x with nodeAttr := (h' x).nodeAttr }

theorem SameShape.refl (h : Heap) : SameShape h h := fun _ => rfl

theorem SameShape.trans {h h' h'' : Heap} (h1 : SameShape h h') (h2 : SameShape h' h'') :
    SameShape h h'' := by
  intro x
  rw [h2 x, h1 x]

/-- The nodes that the first inner loop finds the flag `demote` set for; `f` is
the flag in front of the list. -/
def flagged (h : Heap) (self : Bool) (m : NodeId) (b o : Mword) : Bool → List NodeId → List NodeId
  | _, [] => []
  | f, x :: l =>
    let f := if !self && (h x).prnt == some m then overlapsPart (h m) b o (h x) else f
    if f then x :: flagged h self m b o f l else flagged h self m b o f l

theorem overlapsPart_congr {h h' : Heap} (hs : SameShape h h') (m x : NodeId) (b o : Mword) :
    overlapsPart (h' m) b o (h' x) = overlapsPart (h m) b o (h x) := by
  rw [hs m, hs x]
  rfl

theorem flagged_congr {h h' : Heap} (hs : SameShape h h') {self : Bool} {m : NodeId} {b o : Mword}
    (f : Bool) (l : List NodeId) :
    flagged h' self m b o f l = flagged h self m b o f l := by
  induction l generalizing f with
  | nil => rfl
  | cons x l ih =>
    have hp : (h' x).prnt = (h x).prnt := by rw [hs x]
    simp only [flagged, hp, overlapsPart_congr hs, ih]

theorem flagged_subset {h : Heap} {self : Bool} {m x : NodeId} {b o : Mword} {f : Bool}
    {l : List NodeId} (hx : x ∈ flagged h self m b o f l) : x ∈ l := by
  induction l generalizing f with
  | nil => simp [flagged] at hx
  | cons y l ih =>
    simp only [flagged] at hx
    split at hx <;> split at hx
    all_goals
      first
        | exact List.mem_cons_of_mem _ (ih hx)
        | (rcases List.mem_cons.mp hx with rfl | hx
           · exact List.mem_cons_self
           · exact List.mem_cons_of_mem _ (ih hx))

def demoteOne (S : SpaceOps σ) (attr : Mword) (m : NodeId) (st : State σ) (n : NodeId) : State σ :=
  if (st.mdb n).nodeAttr &&& attr != 0 then
    ({ st with iommu := st.iommu || ((st.mdb m).nodeSub &&& 1 != 0) }).demote S n attr
  else st

theorem demoteOne_shape (attr : Mword) (m : NodeId) (st : State σ) (n : NodeId) :
    SameShape st.mdb (demoteOne S attr m st n).mdb := by
  unfold demoteOne
  split
  · intro x
    simp only [State.demote, State.update, demoteNode, Heap.set_apply]
    split
    · rename_i hx
      rw [hx]
    · rfl
  · exact SameShape.refl _

def flaggedFrom (h : Heap) (self : Bool) (m : NodeId) (b o : Mword) (f : Bool) (n : NodeId)
    (l : List NodeId) : List NodeId :=
  if f then n :: flagged h self m b o f l else flagged h self m b o f l

theorem demoteRun_succ (attr b o : Mword) (self : Bool) (m : NodeId) (fuel : Nat) (node : NodeId)
    (f : Bool) (st : State σ) :
    demoteRun S attr self m b o (fuel + 1) node f st =
      let st1 := if f then demoteOne S attr m st node else st
      let ptr := st1.mdb.next node
      if (st1.mdb ptr).dpth ≤ (st1.mdb m).dpth then some (node, st1)
      else
        demoteRun S attr self m b o fuel ptr
          (if !self && (st1.mdb ptr).prnt == some m then
            overlapsPart (st1.mdb m) b o (st1.mdb ptr) else f) st1 := by
  cases f
  · rfl
  · rfl

theorem demoteRun_eq {attr b o : Mword} {self : Bool} {m e : NodeId} (A : List NodeId)
    (fuel : Nat) (node : NodeId) (f : Bool) (st : State σ)
    (hp : Path st.mdb.next st.mdb.prev node A e)
    (hA : ∀ x ∈ A, (st.mdb m).dpth < (st.mdb x).dpth) (he : (st.mdb e).dpth ≤ (st.mdb m).dpth) :
    demoteRun S attr self m b o fuel node f st =
      if A.length < fuel then
        some (A.getLastD node,
          (flaggedFrom st.mdb self m b o f node A).foldl (demoteOne S attr m) st)
      else none := by
  induction A generalizing fuel node f st with
  | nil =>
    cases fuel with
    | zero => rfl
    | succ fuel =>
      generalize hst1 : (if f then demoteOne S attr m st node else st) = st1
      have hs : SameShape st.mdb st1.mdb := by
        rw [← hst1]
        split
        · exact demoteOne_shape attr m st node
        · exact SameShape.refl _
      have hnext : st1.mdb.next node = e := by
        rw [Heap.next, hs node]
        exact hp.1
      have hd : (st1.mdb e).dpth ≤ (st1.mdb m).dpth := by
        rw [hs e, hs m]
        exact he
      rw [demoteRun_succ]
      simp only [hst1, hnext, hd, if_true]
      cases f
      · simp [flaggedFrom, flagged, ← hst1]
      · simp [flaggedFrom, flagged, ← hst1]
  | cons x A ih =>
    cases fuel with
    | zero => rfl
    | succ fuel =>
      generalize hst1 : (if f then demoteOne S attr m st node else st) = st1
      have hs : SameShape st.mdb st1.mdb := by
        rw [← hst1]
        split
        · exact demoteOne_shape attr m st node
        · exact SameShape.refl _
      have hfield : ∀ y, (st1.mdb y).dpth = (st.mdb y).dpth ∧ st1.mdb.next y = st.mdb.next y ∧
          st1.mdb.prev y = st.mdb.prev y ∧ (st1.mdb y).prnt = (st.mdb y).prnt := by
        intro y
        unfold Heap.next Heap.prev
        rw [hs y]
        exact ⟨rfl, rfl, rfl, rfl⟩
      have hnext : st1.mdb.next node = x := by
        rw [(hfield node).2.1]
        exact hp.1.1
      have hdx : ¬(st1.mdb x).dpth ≤ (st1.mdb m).dpth := by
        rw [(hfield x).1, (hfield m).1]
        exact Nat.not_le.mpr (hA x (by simp))
      rw [demoteRun_succ]
      simp only [hst1, hnext, hdx, if_false]
      rw [ih]
      · rw [List.length_cons, List.getLastD_cons]
        simp only [Nat.add_lt_add_iff_right]
        have hfl : ∀ g, flaggedFrom st1.mdb self m b o g x A = flaggedFrom st.mdb self m b o g x A := by
          intro g
          unfold flaggedFrom
          rw [flagged_congr hs]
        rw [hfl, (hfield x).2.2.2, overlapsPart_congr hs]
        congr 3
        rw [← hst1]
        cases f
        · rfl
        · rfl
      · exact hp.2.congr (fun y _ => (hfield y).2.1) (fun y _ => (hfield y).2.2.1)
      · intro y hy
        rw [(hfield y).1, (hfield m).1]
        exact hA y (List.mem_cons_of_mem _ hy)
      · rw [(hfield e).1, (hfield m).1]
        exact he

theorem and_not_of_and_eq_zero {x r : Mword} (h : x &&& r = 0) : x &&& ~~~r = x := by
  have hx : x = (x &&& r) ||| (x &&& ~~~r) := by
    ext i hi
    simp
    cases x[i] <;> simp
  rw [h] at hx
  simpa using hx.symm

theorem and_not_and_not (x r : Mword) : x &&& ~~~r &&& ~~~r = x &&& ~~~r := by
  rw [BitVec.and_assoc, BitVec.and_self]

/-- The rights `r` were taken from all nodes in `D`. -/
structure Stripped (st st' : State σ) (D : List NodeId) (r : Mword) : Prop where
  shape : SameShape st.mdb st'.mdb
  attr : ∀ x, (st'.mdb x).nodeAttr =
    if x ∈ D then (st.mdb x).nodeAttr &&& ~~~r else (st.mdb x).nodeAttr
  fresh : st'.fresh = st.fresh
  tree : st'.tree = st.tree
  orig : st'.orig = st.orig

theorem Stripped.live_iff {D : List NodeId} {r : Mword} (h : Stripped st st' D r) (x : NodeId) :
    st'.Live x ↔ st.Live x := by
  unfold State.Live
  rw [h.tree, h.shape x]

theorem Stripped.ringAt {D : List NodeId} {r : Mword} (h : Stripped st st' D r) {c : NodeId}
    {l : List NodeId} (hr : st.RingAt c l) : st'.RingAt c l := by
  apply hr.congr
  · intro x _
    rw [Heap.next, h.shape x]
    rfl
  · intro x _
    rw [Heap.prev, h.shape x]
    rfl

theorem Stripped.wf {D : List NodeId} {r : Mword} (h : Stripped st st' D r) (hw : Wf st) :
    Wf st' where
  mem pd x hx := by
    rw [h.tree] at hx
    rw [h.shape x, h.fresh]
    exact hw.mem pd x hx
  ordered pd := by
    rw [h.tree]
    exact (hw.ordered pd).congr (fun x _ => by rw [h.shape x]) (fun x _ => by rw [h.shape x])
  natural x hx := by
    have := hw.natural x ((h.live_iff x).mp hx)
    rw [h.shape x]
    exact ⟨this.order_lt, this.base, this.phys⟩
  ring x hx := by
    obtain ⟨l, hr, hl⟩ := hw.ring x ((h.live_iff x).mp hx)
    exact ⟨l, h.ringAt hr, fun y hy => (h.live_iff y).mpr (hl y hy)⟩

theorem demoteOne_steps {attr : Mword} {m n : NodeId} (hn : st.Live n) :
    Steps S E G L U st (demoteOne S attr m st n) := by
  unfold demoteOne
  split
  · have h := demote_demoted (S := S) (r := attr)
      (show State.Live { st with iommu := st.iommu || ((st.mdb m).nodeSub &&& 1 != 0) } n from hn)
    exact .single (.demoted n attr ⟨h.live, h.fresh, h.node, h.attr, h.tree, h.orig⟩ rfl)
  · exact .refl

theorem demoteOne_stripped (attr : Mword) (m n : NodeId) :
    Stripped st (demoteOne S attr m st n) [n] attr where
  shape := demoteOne_shape attr m st n
  attr x := by
    unfold demoteOne
    split
    · simp only [State.demote, State.update, demoteNode, Heap.set_apply, List.mem_singleton]
      split
      · rename_i hx
        rw [hx]
      · rfl
    · rename_i ha
      split
      · rename_i hx
        rw [List.mem_singleton.mp hx]
        exact (and_not_of_and_eq_zero (by simpa using ha)).symm
      · rfl
  fresh := by
    unfold demoteOne
    split
    · rfl
    · rfl
  tree := by
    unfold demoteOne
    split
    · rfl
    · rfl
  orig := by
    unfold demoteOne
    split
    · rfl
    · rfl

theorem Stripped.cons {st'' : State σ} {n : NodeId} {D : List NodeId} {r : Mword}
    (h : Stripped st st' [n] r) (h' : Stripped st' st'' D r) : Stripped st st'' (n :: D) r where
  shape := h.shape.trans h'.shape
  attr x := by
    rw [h'.attr, h.attr]
    by_cases hn : x = n
    · simp only [hn, List.mem_cons, true_or, if_true]
      split
      · exact and_not_and_not _ _
      · rfl
    · by_cases hD : x ∈ D
      · simp [hn, hD]
      · simp [hn, hD]
  fresh := h'.fresh.trans h.fresh
  tree := h'.tree.trans h.tree
  orig := h'.orig.trans h.orig

theorem demoteAll_stripped (attr : Mword) (m : NodeId) (D : List NodeId) (st : State σ) :
    Stripped st (D.foldl (demoteOne S attr m) st) D attr := by
  induction D generalizing st with
  | nil => exact ⟨SameShape.refl _, fun x => by simp, rfl, rfl, rfl⟩
  | cons n D ih => exact (demoteOne_stripped attr m n).cons (ih _)

theorem demoteAll_steps (attr : Mword) (m : NodeId) (D : List NodeId) (st : State σ)
    (hD : ∀ x ∈ D, st.Live x) : Steps S E G L U st (D.foldl (demoteOne S attr m) st) := by
  induction D generalizing st with
  | nil => exact .refl
  | cons n D ih =>
    apply (demoteOne_steps (hD n (by simp))).trans
    apply ih
    intro x hx
    exact ((demoteOne_stripped attr m n).live_iff x).mpr (hD x (by simp [hx]))

/-- Nodes without rights were taken out, none but the ones in `X`. -/
structure Pruned (st st' : State σ) (X : List NodeId) : Prop where
  node : ∀ x, SameNode (st'.mdb x) (st.mdb x) ∧ (st'.mdb x).nodeAttr = (st.mdb x).nodeAttr ∧
    (st'.mdb x).prnt = (st.mdb x).prnt
  live : ∀ x, st'.Live x → st.Live x
  gone : ∀ x, st.Live x → st'.Live x ∨ x ∈ X ∧ (st.mdb x).nodeAttr = 0
  fresh : st'.fresh = st.fresh
  orig : st'.orig = st.orig

theorem Pruned.refl (st : State σ) (X : List NodeId) : Pruned st st X :=
  ⟨fun _ => ⟨SameNode.refl _, rfl, rfl⟩, fun _ h => h, fun _ h => Or.inl h, rfl, rfl⟩

theorem Pruned.cons {st'' : State σ} {n : NodeId} {X : List NodeId} (h : Pruned st st' [n])
    (h' : Pruned st' st'' X) : Pruned st st'' (n :: X) where
  node x := ⟨(h'.node x).1.trans (h.node x).1, (h'.node x).2.1.trans (h.node x).2.1,
    (h'.node x).2.2.trans (h.node x).2.2⟩
  live x hx := h.live x (h'.live x hx)
  gone x hx := by
    rcases h.gone x hx with hx' | ⟨hX, ha⟩
    · rcases h'.gone x hx' with hx'' | ⟨hX, ha⟩
      · exact Or.inl hx''
      · rw [(h.node x).2.1] at ha
        exact Or.inr ⟨List.mem_cons_of_mem _ hX, ha⟩
    · rw [List.mem_singleton.mp hX] at ha ⊢
      exact Or.inr ⟨by simp, ha⟩
  fresh := h'.fresh.trans h.fresh
  orig := h'.orig.trans h.orig

theorem remove_pruned {n : NodeId} (hw : Wf st) (hn : st.Live n) :
    Pruned st (st.remove n true) [n] := by
  by_cases h : (st.mdb n).nodeAttr = 0 ∧
      (true = true → (st.mdb (st.mdb.next n)).dpth ≤ (st.mdb n).dpth)
  · have hd := remove_dropped hw hn h.1 h.2
    constructor
    · intro x
      refine ⟨(hd.node x).1, (hd.node x).2, ?_⟩
      rw [hd.prnt x]
      simp
    · exact fun x hx => ((hd.live_iff hw x).mp hx).2
    · intro x hx
      by_cases hxn : x = n
      · rw [hxn]
        exact Or.inr ⟨by simp, h.1⟩
      · exact Or.inl ((hd.live_iff hw x).mpr ⟨hxn, hx⟩)
    · exact hd.fresh
    · exact hd.orig
  · rw [remove_eq_self h]
    exact Pruned.refl _ _

theorem remove_ringAt {m x : NodeId} {u w : List NodeId} (hw : Wf st) (hx : st.Live x)
    (hr : st.RingAt m (u ++ x :: w)) :
    (∃ w', (st.remove x true).RingAt m (u ++ w')) ∧
      (st.remove x true).mdb.prev x = st.mdb.prev x := by
  have hmx : m ≠ x := by
    rintro rfl
    exact hr.notMem (by simp)
  by_cases h : (st.mdb x).nodeAttr = 0 ∧
      (true = true → (st.mdb (st.mdb.next x)).dpth ≤ (st.mdb x).dpth)
  · have hd := remove_dropped hw hx h.1 h.2
    refine ⟨⟨w, hr.remove hd.links⟩, ?_⟩
    apply hd.links.prev_of_ne
    intro hxn
    -- a node that is its own successor is alone in its ring
    have hrx := hr.rotate
    have := hrx.next_eq
    rw [← hxn] at this
    have hmem : x ∈ w ++ m :: u := by
      rw [this]
      cases w with
      | nil => simp
      | cons y w => simp
    exact hrx.notMem hmem
  · rw [remove_eq_self h]
    exact ⟨⟨_, hr⟩, rfl⟩

theorem removeRun_eq {m : NodeId} (r w : List NodeId) (fuel : Nat) (st : State σ) (hw : Wf st)
    (hm : st.Live m) (hr : st.RingAt m (r.reverse ++ w))
    (hd : ∀ x ∈ r, (st.mdb m).dpth < (st.mdb x).dpth) :
    removeRun (st.mdb m).dpth fuel (r.headD m) st =
      if r.length < fuel then some ((r ++ [m]).foldl (fun st n => st.remove n true) st)
      else none := by
  induction r generalizing w fuel st with
  | nil =>
    cases fuel with
    | zero => rfl
    | succ fuel =>
      have := ((remove_pruned hw hm).node m).1.dpth
      simp [removeRun, this]
  | cons x r ih =>
    cases fuel with
    | zero => rfl
    | succ fuel =>
      have hr' : st.RingAt m (r.reverse ++ x :: w) := by simpa using hr
      have hx : st.Live x := hw.live_of_ring hm hr' (by simp)
      have hp := remove_pruned hw hx
      have hw1 := remove_wf hw hx
      have hmx : m ≠ x := by
        rintro rfl
        exact hr'.notMem (by simp)
      have hm1 : (st.remove x true).Live m := by
        rcases hp.gone m hm with h | ⟨h, -⟩
        · exact h
        · exact absurd (List.mem_singleton.mp h) hmx
      obtain ⟨⟨w', hring⟩, hprev⟩ := remove_ringAt hw hx hr'
      have hdm := (hp.node m).1.dpth
      have hprev' : (st.remove x true).mdb.prev x = r.headD m := by
        rw [hprev]
        have := (path_append.mp hr'.path).1.prev_eq
        rw [this]
        cases r with
        | nil => rfl
        | cons y r => simp
      have hdx : ¬((st.remove x true).mdb x).dpth ≤ (st.mdb m).dpth := by
        rw [(hp.node x).1.dpth]
        exact Nat.not_le.mpr (hd x (by simp))
      simp only [removeRun, List.headD_cons, hdx, if_false, hprev', List.length_cons,
        Nat.add_lt_add_iff_right, List.cons_append, List.foldl_cons]
      rw [← hdm]
      apply ih w' fuel _ hw1 hm1 hring
      intro y hy
      rw [hdm, (hp.node y).1.dpth]
      exact hd y (List.mem_cons_of_mem _ hy)

theorem removeAll_pruned (X : List NodeId) (st : State σ) (hw : Wf st) (hX : ∀ x ∈ X, st.Live x)
    (hnd : X.Nodup) : Pruned st (X.foldl (fun st n => st.remove n true) st) X := by
  induction X generalizing st with
  | nil => exact Pruned.refl _ _
  | cons n X ih =>
    have hp := remove_pruned hw (hX n (by simp))
    apply hp.cons
    apply ih _ (remove_wf hw (hX n (by simp))) _ (List.nodup_cons.mp hnd).2
    intro x hx
    rcases hp.gone x (hX x (by simp [hx])) with h | ⟨h, -⟩
    · exact h
    · rw [List.mem_singleton.mp h] at hx
      exact absurd hx (List.nodup_cons.mp hnd).1

theorem removeAll_rel {R : State σ → State σ → Prop} (hrefl : ∀ st, Wf st → R st st)
    (htrans : ∀ st st' st'', R st st' → R st' st'' → R st st'')
    (hone : ∀ st n, Wf st → st.Live n → R st (st.remove n true)) (X : List NodeId) (st : State σ)
    (hw : Wf st) (hX : ∀ x ∈ X, st.Live x) (hnd : X.Nodup) :
    R st (X.foldl (fun st n => st.remove n true) st) := by
  induction X generalizing st with
  | nil => exact hrefl st hw
  | cons n X ih =>
    have hp := remove_pruned hw (hX n (by simp))
    apply htrans _ _ _ (hone st n hw (hX n (by simp)))
    apply ih _ (remove_wf hw (hX n (by simp))) _ (List.nodup_cons.mp hnd).2
    intro x hx
    rcases hp.gone x (hX x (by simp [hx])) with h | ⟨h, -⟩
    · exact h
    · rw [List.mem_singleton.mp h] at hx
      exact absurd hx (List.nodup_cons.mp hnd).1

theorem removeAll_steps (X : List NodeId) (st : State σ) (hw : Wf st) (hX : ∀ x ∈ X, st.Live x)
    (hnd : X.Nodup) : Steps S E G L U st (X.foldl (fun st n => st.remove n true) st) :=
  removeAll_rel (fun _ _ => .refl) (fun _ _ _ h h' => h.trans h')
    (fun _ _ hw hn => remove_steps hw hn) X st hw hX hnd

section Pass

variable {m : NodeId} {A B : List NodeId}

theorem Run.live (hr : Run st m A B) (hw : Wf st) (hm : st.Live m) : ∀ x ∈ m :: A, st.Live x := by
  intro x hx
  rcases List.mem_cons.mp hx with rfl | hx
  · exact hm
  · exact hw.live_of_ring hm hr.ring (by simp [hx])

theorem Run.nodup (hr : Run st m A B) : (A.reverse ++ [m]).Nodup := by
  have h := hr.ring.nodup
  rw [← List.cons_append, List.nodup_append] at h
  have := List.nodup_reverse.mpr h.1
  simpa using this

theorem Run.exists_end (hr : Run st m A B) :
    ∃ e, Path st.mdb.next st.mdb.prev m A e ∧ (st.mdb e).dpth ≤ (st.mdb m).dpth := by
  have hp := hr.ring.path
  cases hB : B with
  | nil =>
    rw [hB, List.append_nil] at hp
    exact ⟨m, hp, le_rfl⟩
  | cons y B =>
    rw [hB] at hp
    exact ⟨y, (path_append.mp hp).1, hr.stop y (by simp [hB])⟩

theorem flaggedFrom_subset {h : Heap} {self f : Bool} {b o : Mword} {x : NodeId}
    (hx : x ∈ flaggedFrom h self m b o f m A) : x ∈ m :: A := by
  unfold flaggedFrom at hx
  split at hx
  · rcases List.mem_cons.mp hx with rfl | hx
    · simp
    · exact List.mem_cons_of_mem _ (flagged_subset hx)
  · exact List.mem_cons_of_mem _ (flagged_subset hx)

variable {attr b o : Mword} {self kim : Bool}

/-- The nodes that a pass over `m` takes rights from. -/
def targets (h : Heap) (self : Bool) (m : NodeId) (b o : Mword) (A : List NodeId) : List NodeId :=
  flaggedFrom h self m b o (self && overlapsPart (h m) b o (h m)) m A

theorem revokeNode_eq {fuel : Nat} (hw : Wf st) (hm : st.Live m) (hr : Run st m A B)
    (hk : keeps kim m st = false) :
    revokeNode S fuel attr self kim m b o st =
      if A.length < fuel then
        some (.next ((A.reverse ++ [m]).foldl (fun st n => st.remove n true)
          ((targets st.mdb self m b o A).foldl (demoteOne S attr m) st)))
      else none := by
  obtain ⟨e, hp, he⟩ := hr.exists_end
  simp only [revokeNode, hk, demoteRun_eq A fuel m _ st hp hr.deeper he, Bool.false_eq_true, if_false]
  by_cases hlt : A.length < fuel
  · have hst := demoteAll_stripped (S := S) attr m (targets st.mdb self m b o A) st
    have hw1 := hst.wf hw
    rw [if_pos hlt, if_pos hlt]
    simp only [show flaggedFrom st.mdb self m b o (self && overlapsPart (st.mdb m) b o (st.mdb m))
      m A = targets st.mdb self m b o A from rfl]
    generalize (targets st.mdb self m b o A).foldl (demoteOne S attr m) st = st1 at hst hw1 ⊢
    have hlast : A.getLastD m = A.reverse.headD m := by
      rw [List.headD_eq_head?_getD, List.head?_reverse, List.getLastD_eq_getLast?]
    have hring : st1.RingAt m (A.reverse.reverse ++ B) := by
      rw [List.reverse_reverse]
      exact hst.ringAt hr.ring
    rw [hlast, removeRun_eq A.reverse B fuel st1 hw1 ((hst.live_iff m).mpr hm) hring]
    · rw [List.length_reverse, if_pos hlt]
    · intro x hx
      rw [hst.shape x, hst.shape m]
      exact hr.deeper x (by simpa using hx)
  · rw [if_neg hlt, if_neg hlt]

theorem Stripped.natural_order {D : List NodeId} {r : Mword} (h : Stripped st st' D r) (x : NodeId) :
    (st'.mdb x).dpth = (st.mdb x).dpth ∧ st'.mdb.next x = st.mdb.next x := by
  unfold Heap.next
  rw [h.shape x]
  exact ⟨rfl, rfl⟩

/-- A condition on the database that rights do not matter for. -/
def Stable (L : State σ → NodeId → Prop) : Prop :=
  ∀ st st' D r m, Stripped st st' D r → L st m → L st' m

theorem revokeKeep_steps (hL : Stable L) (hw : Wf st) (hm : st.Live m) (hk : keeps kim m st = true)
    (hLm : L st m) : Steps S E G L U st (revokeKeep S m st) := by
  have hst : Stripped st (demoteOne S 0x1f m st m) [m] 0x1f := demoteOne_stripped 0x1f m m
  have hsteps : Steps S E G L U st (demoteOne S 0x1f m st m) := demoteOne_steps hm
  have hm1 := (hst.live_iff m).mpr hm
  rw [show revokeKeep S m st = (demoteOne S 0x1f m st m).remove m false from rfl]
  by_cases ha : ((demoteOne S 0x1f m st m).mdb m).nodeAttr = 0
  · have hd : Dropped false _ _ m := remove_dropped (hst.wf hw) hm1 ha (by simp)
    refine hsteps.tail (.lifted m ?_ (hL _ _ _ _ _ hst hLm) hd)
    simp only [keeps, Bool.and_eq_true, decide_eq_true_eq] at hk
    rw [(hst.natural_order m).2, (hst.natural_order m).1, (hst.natural_order _).1]
    exact hk.2
  · rw [remove_eq_self (fun h => ha h.1)]
    exact hsteps

theorem mem_backwards {x : NodeId} : x ∈ A.reverse ++ [m] ↔ x ∈ m :: A := by
  simp only [List.mem_append, List.mem_reverse, List.mem_cons]
  tauto

/-- The two halves of a pass that looks at the whole run: rights are taken from
the targets, and then nodes are removed. -/
theorem revokeNode_halves {fuel : Nat} {c : Ctl (State σ)} (hw : Wf st) (hm : st.Live m)
    (hr : Run st m A B) (hk : keeps kim m st = false)
    (h : revokeNode S fuel attr self kim m b o st = some c) :
    ∃ st1, (targets st.mdb self m b o A).foldl (demoteOne S attr m) st = st1 ∧
      Stripped st st1 (targets st.mdb self m b o A) attr ∧ (∀ x ∈ A.reverse ++ [m], st1.Live x) ∧
      c = .next ((A.reverse ++ [m]).foldl (fun st n => st.remove n true) st1) := by
  rw [revokeNode_eq hw hm hr hk] at h
  split at h
  · have hst := demoteAll_stripped (S := S) attr m (targets st.mdb self m b o A) st
    refine ⟨_, rfl, hst, fun x hx => ?_, (Option.some.inj h).symm⟩
    exact (hst.live_iff x).mpr (hr.live hw hm x (mem_backwards.mp hx))
  · simp at h

/-- What a pass of `revoke` over `m` that looks at the whole run does. -/
structure Revoked (st st' : State σ) (self : Bool) (m : NodeId) (b o attr : Mword)
    (A : List NodeId) : Prop where
  stripped : ∃ st1, Stripped st st1 (targets st.mdb self m b o A) attr ∧
    Pruned st1 st' (A.reverse ++ [m])

theorem revokeNode_revoked {fuel : Nat} {c : Ctl (State σ)} (hw : Wf st) (hm : st.Live m)
    (hr : Run st m A B) (hk : keeps kim m st = false)
    (h : revokeNode S fuel attr self kim m b o st = some c) :
    ∃ st', c = .next st' ∧ Steps S E G L U st st' ∧ Revoked st st' self m b o attr A := by
  obtain ⟨st1, rfl, hst, hlive, rfl⟩ := revokeNode_halves hw hm hr hk h
  have hw1 := hst.wf hw
  have hsteps : Steps S E G L U st _ :=
    demoteAll_steps attr m (targets st.mdb self m b o A) st
      fun x hx => hr.live hw hm x (flaggedFrom_subset hx)
  exact ⟨_, rfl, hsteps.trans (removeAll_steps _ _ hw1 hlive hr.nodup),
    ⟨⟨_, hst, removeAll_pruned _ _ hw1 hlive hr.nodup⟩⟩⟩

theorem revokeNode_ne_ret {fuel : Nat} (hm : st.Live m) (hw : Wf st) {st' : State σ} :
    revokeNode S fuel attr self kim m b o st ≠ some (.ret st') := by
  obtain ⟨A, B, hr⟩ := hw.run hm
  cases hk : keeps kim m st with
  | true => simp [revokeNode, hk]
  | false =>
    rw [revokeNode_eq hw hm hr hk]
    split
    · simp
    · simp

theorem revokeNode_steps {fuel : Nat} {c : Ctl (State σ)} (hL : Stable L) (hw : Wf st)
    (hm : st.Live m) (hLm : keeps kim m st = true → L st m)
    (h : revokeNode S fuel attr self kim m b o st = some c) :
    Steps S E G L U st c.val := by
  cases hk : keeps kim m st with
  | true =>
    have hc : c = .next (revokeKeep S m st) := by
      simpa [revokeNode, hk] using h.symm
    rw [hc]
    exact revokeKeep_steps hL hw hm hk (hLm hk)
  | false =>
    obtain ⟨A, B, hr⟩ := hw.run hm
    obtain ⟨st', rfl, hsteps, -⟩ := revokeNode_revoked hw hm hr hk h
    exact hsteps

end Pass

end Tukija.Pd
