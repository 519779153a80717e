import Tukija.Pd.Lists

/-! What a pass of `revoke` leaves behind. -/
namespace Tukija.Pd

open Tukija.Lib.Word Tukija.Lib.Ring Tukija.Mapdb

variable {σ : Type} {S : SpaceOps σ} {E : σ → σ → Prop} {st st' st'' : State σ}
  {G L U : State σ → NodeId → Prop}

/-- Rights and nodes only go; what is left of a list keeps its order. -/
structure Shrunk (st st' : State σ) : Prop where
  same : ∀ x, SameNode (st'.mdb x) (st.mdb x)
  attr : ∀ x, (st'.mdb x).nodeAttr &&& (st.mdb x).nodeAttr = (st'.mdb x).nodeAttr
  live : ∀ x, st'.Live x → st.Live x
  ring : ∀ c l, st'.Live c → st.RingAt c l → st'.RingAt c (l.filter fun y => decide (st'.Live y))
  fresh : st'.fresh = st.fresh
  orig : st'.orig = st.orig

theorem filter_live_eq_self {l : List NodeId} (hl : ∀ x ∈ l, st.Live x) :
    (l.filter fun y => decide (st.Live y)) = l := by
  apply List.filter_eq_self.mpr
  intro x hx
  simpa using hl x hx

theorem Shrunk.refl (hw : Wf st) : Shrunk st st where
  same x := SameNode.refl _
  attr x := BitVec.and_self
  live x hx := hx
  ring c l hc hr := by
    rw [filter_live_eq_self (fun x hx => hw.live_of_ring hc hr hx)]
    exact hr
  fresh := rfl
  orig := rfl

theorem Shrunk.trans (h : Shrunk st st') (h' : Shrunk st' st'') : Shrunk st st'' where
  same x := (h'.same x).trans (h.same x)
  attr x := by
    rw [← h'.attr x, BitVec.and_assoc, h.attr x]
  live x hx := h.live x (h'.live x hx)
  ring c l hc hr := by
    have := h'.ring c _ hc (h.ring c l (h'.live c hc) hr)
    rw [List.filter_filter] at this
    have heq : (l.filter fun y => decide (st''.Live y) && decide (st'.Live y)) =
        l.filter fun y => decide (st''.Live y) := by
      apply List.filter_congr
      intro y _
      by_cases hy : st''.Live y
      · simp [hy, h'.live y hy]
      · simp [hy]
    rwa [heq] at this
  fresh := h'.fresh.trans h.fresh
  orig := h'.orig.trans h.orig

theorem Shrunk.attr_eq_zero (h : Shrunk st st') {x : NodeId} {r : Mword}
    (hx : (st.mdb x).nodeAttr &&& r = 0) : (st'.mdb x).nodeAttr &&& r = 0 := by
  rw [← h.attr x, BitVec.and_assoc, hx]
  simp

theorem Stripped.shrunk {D : List NodeId} {r : Mword} (h : Stripped st st' D r) (hw : Wf st) :
    Shrunk st st' where
  same x := by
    rw [h.shape x]
    exact ⟨rfl, rfl, rfl, rfl, rfl, rfl, rfl⟩
  attr x := by
    rw [h.attr x]
    split
    · rw [BitVec.and_comm, ← BitVec.and_assoc, BitVec.and_self]
    · exact BitVec.and_self
  live x hx := (h.live_iff x).mp hx
  ring c l hc hr := by
    have hc' := (h.live_iff c).mp hc
    rw [filter_live_eq_self fun x hx => (h.live_iff x).mpr (hw.live_of_ring hc' hr hx)]
    exact h.ringAt hr
  fresh := h.fresh
  orig := h.orig

theorem Dropped.shrunk {n : NodeId} {leaf : Bool} (h : Dropped leaf st st' n) (hw : Wf st) :
    Shrunk st st' where
  same x := (h.node x).1
  attr x := by
    rw [(h.node x).2]
    exact BitVec.and_self
  live x hx := ((h.live_iff hw x).mp hx).2
  ring c l hc hr := by
    have hcn := (h.live_iff hw c).mp hc
    have heq : (l.filter fun y => decide (st'.Live y)) = l.erase n := by
      rw [hr.tail_nodup.erase_eq_filter]
      apply List.filter_congr
      intro y hy
      have := hw.live_of_ring hcn.2 hr hy
      by_cases hyn : y = n
      · simp [h.live_iff hw, hyn]
      · simp [h.live_iff hw, this, hyn]
    rw [heq]
    exact h.ringAt hw hr hcn.1
  fresh := h.fresh
  orig := h.orig

theorem remove_shrunk {n : NodeId} {leaf : Bool} (hw : Wf st) (hn : st.Live n) :
    Shrunk st (st.remove n leaf) := by
  by_cases h : (st.mdb n).nodeAttr = 0 ∧
      (leaf = true → (st.mdb (st.mdb.next n)).dpth ≤ (st.mdb n).dpth)
  · exact (remove_dropped hw hn h.1 h.2).shrunk hw
  · rw [remove_eq_self h]
    exact Shrunk.refl hw

theorem removeAll_shrunk (X : List NodeId) (st : State σ) (hw : Wf st) (hX : ∀ x ∈ X, st.Live x)
    (hnd : X.Nodup) : Shrunk st (X.foldl (fun st n => st.remove n true) st) :=
  removeAll_rel (fun _ hw => .refl hw) (fun _ _ _ h h' => h.trans h')
    (fun _ _ hw hn => remove_shrunk hw hn) X st hw hX hnd

section Pass

variable {m : NodeId} {A B : List NodeId} {attr b o : Mword} {self kim : Bool} {fuel : Nat}

/-- The nodes that a pass over `m` works on. -/
def scope (st : State σ) (kim : Bool) (m : NodeId) (A : List NodeId) : List NodeId :=
  if keeps kim m st then [m] else m :: A

theorem revokeNode_shrunk (hw : Wf st) (hm : st.Live m) (hr : Run st m A B)
    (h : revokeNode S fuel attr self kim m b o st = some (.next st')) :
    Shrunk st st' ∧ ∀ x, x ∉ scope st kim m A →
      (st'.mdb x).nodeAttr = (st.mdb x).nodeAttr ∧ (st.Live x → st'.Live x) := by
  unfold scope
  cases hk : keeps kim m st with
  | true =>
    have hst' : revokeKeep S m st = st' := by
      simpa [revokeNode, hk] using h
    have hst : Stripped st (demoteOne S 0x1f m st m) [m] 0x1f := demoteOne_stripped 0x1f m m
    rw [← hst', show revokeKeep S m st = (demoteOne S 0x1f m st m).remove m false from rfl]
    have hw1 := hst.wf hw
    have hm1 := (hst.live_iff m).mpr hm
    refine ⟨(hst.shrunk hw).trans (remove_shrunk hw1 hm1), fun x hx => ?_⟩
    have hxm : x ≠ m := by simpa using hx
    have hattr : ((demoteOne S 0x1f m st m).mdb x).nodeAttr = (st.mdb x).nodeAttr := by
      rw [hst.attr x]
      simp [hxm]
    rw [← hattr, ← hst.live_iff x]
    by_cases ha : ((demoteOne S 0x1f m st m).mdb m).nodeAttr = 0
    · have hd : Dropped false _ _ m := remove_dropped hw1 hm1 ha (by simp)
      exact ⟨(hd.node x).2, fun hl => (hd.live_iff hw1 x).mpr ⟨hxm, hl⟩⟩
    · rw [remove_eq_self (fun h => ha h.1)]
      exact ⟨rfl, id⟩
  | false =>
    obtain ⟨st1, -, hst, hlive, hc⟩ := revokeNode_halves hw hm hr hk h
    have hw1 := hst.wf hw
    have hpr := removeAll_pruned _ _ hw1 hlive hr.nodup
    rw [Ctl.next.inj hc]
    refine ⟨(hst.shrunk hw).trans (removeAll_shrunk _ _ hw1 hlive hr.nodup), fun x hx => ?_⟩
    have hx' : x ∉ m :: A := by simpa using hx
    have hxt : x ∉ targets st.mdb self m b o A := fun h => hx' (flaggedFrom_subset h)
    constructor
    · rw [(hpr.node x).2.1, hst.attr x, if_neg hxt]
    · intro hl
      rcases hpr.gone x ((hst.live_iff x).mpr hl) with h | ⟨h, -⟩
      · exact h
      · exact absurd (mem_backwards.mp h) hx'

end Pass

end Tukija.Pd
