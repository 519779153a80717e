import Tukija.Mapdb.Region
import Tukija.Pd.Authority
import Tukija.Pd.Crd

/-! What is left of a protection domain when its spaces have been revoked. -/
namespace Tukija.Pd

open Tukija.Lib.Word Tukija.Lib.Ring Tukija.Mapdb

variable {σ : Type} {S : SpaceOps σ} {E : σ → σ → Prop} {st st' t : State σ}
  {m x y : NodeId} {A B : List NodeId}

theorem removeAll_gone (r w : List NodeId) (st : State σ) (hw : Wf st) (hm : st.Live m)
    (hr : st.RingAt m (r.reverse ++ w)) (hd : ∀ x ∈ r, (st.mdb m).dpth < (st.mdb x).dpth)
    (hstop : ∀ x ∈ w.head?, (st.mdb x).dpth ≤ (st.mdb m).dpth)
    (ha : ∀ x ∈ r ++ [m], (st.mdb x).nodeAttr = 0) :
    ∀ x ∈ r ++ [m], ¬((r ++ [m]).foldl (fun st n => st.remove n true) st).Live x := by
  induction r generalizing st with
  | nil =>
    intro x hx hlive
    have hnext : (st.mdb (st.mdb.next m)).dpth ≤ (st.mdb m).dpth := by
      rw [show st.mdb.next m = _ from hr.next_eq]
      cases w with
      | nil => exact le_rfl
      | cons y w => exact hstop y (by simp)
    have hdrop : Dropped true st (st.remove m true) m :=
      remove_dropped hw hm (ha m (by simp)) (fun _ => hnext)
    have hxm : x = m := by simpa using hx
    exact ((hdrop.live_iff hw x).mp hlive).1 hxm
  | cons n r ih =>
    have hr' : st.RingAt m (r.reverse ++ n :: w) := by simpa using hr
    have hn : st.Live n := hw.live_of_ring hm hr' (by simp)
    have hmn : m ≠ n := by
      rintro rfl
      exact hr'.notMem (by simp)
    -- behind `n` comes what stops the run, or `m` itself
    have hnext : (st.mdb (st.mdb.next n)).dpth ≤ (st.mdb n).dpth := by
      have hlt := hd n (by simp)
      rw [show st.mdb.next n = _ from hr'.rotate.next_eq]
      cases w with
      | nil => exact hlt.le
      | cons y w => exact (hstop y (by simp)).trans hlt.le
    have hdrop : Dropped true st (st.remove n true) n :=
      remove_dropped hw hn (ha n (by simp)) (fun _ => hnext)
    have hw1 := hdrop.wf hw
    have hm1 : (st.remove n true).Live m := (hdrop.live_iff hw m).mpr ⟨hmn, hm⟩
    have hr1 : (st.remove n true).RingAt m (r.reverse ++ w) := hr'.remove hdrop.links
    have hsame : ∀ x, ((st.remove n true).mdb x).dpth = (st.mdb x).dpth :=
      fun x => (hdrop.node x).1.dpth
    have hrest := ih (st.remove n true) hw1 hm1 hr1
      (fun x hx => by rw [hsame, hsame]; exact hd x (by simp [hx]))
      (fun x hx => by rw [hsame, hsame]; exact hstop x hx)
      (fun x hx => by rw [(hdrop.node x).2]; exact ha x (List.mem_cons_of_mem _ hx))
    have hlive : ∀ x ∈ r ++ [m], (st.remove n true).Live x := by
      intro x hx
      rcases List.mem_append.mp hx with hx | hx
      · exact hw1.live_of_ring hm1 hr1 (by simp [hx])
      · rw [List.mem_singleton.mp hx]
        exact hm1
    have hnd : (r ++ [m]).Nodup := by
      have := hr1.nodup
      rw [← List.cons_append, List.nodup_append] at this
      simpa using List.nodup_reverse.mpr this.1
    have hpr := removeAll_pruned (r ++ [m]) (st.remove n true) hw1 hlive hnd
    intro x hx hx'
    rcases List.mem_cons.mp hx with rfl | hx
    · exact ((hdrop.live_iff hw x).mp (hpr.live x hx')).1 rfl
    · exact hrest x hx hx'

/-- `m` and the nodes `A` behind it are gone, and nothing else is. -/
structure Razed (st st' : State σ) (m : NodeId) (A : List NodeId) : Prop where
  shrunk : Shrunk st st'
  live : ∀ x, st'.Live x ↔ st.Live x ∧ x ∉ m :: A
  attr : ∀ x ∈ m :: A, (st'.mdb x).nodeAttr = 0
  prnt : ∀ x, (st'.mdb x).prnt = (st.mdb x).prnt

theorem revokeNode_razed {fuel : Nat} {base ord b o : Mword} (hw : Wf st) (h5 : FiveBits st)
    (hm : st.Live m) (hrun : Run st m A B) (hp : Part (st.mdb m) base ord b o)
    (h : revokeNode S fuel 0x1f true false m b o st = some (.next st')) : Razed st st' m A := by
  have hsh := revokeNode_shrunk hw hm hrun h
  have hk : keeps false m st = false := rfl
  obtain ⟨st1, -, hst, hlive1, hc⟩ := revokeNode_halves hw hm hrun hk h
  have hw1 := hst.wf hw
  have htargets := targets_self (A := A) st.mdb b o (hp.overlapsPart_self (hw.natural m hm))
  have hzero : ∀ x ∈ A.reverse ++ [m], (st1.mdb x).nodeAttr = 0 := by
    intro x hx
    have hx' := mem_backwards.mp hx
    rw [hst.attr x, if_pos (htargets x hx')]
    exact h5 x (hrun.live hw hm x hx')
  have hpr := removeAll_pruned _ _ hw1 hlive1 hrun.nodup
  have hgone := removeAll_gone A.reverse B st1 hw1 (hlive1 m (by simp))
    (by rw [List.reverse_reverse]; exact hst.ringAt hrun.ring)
    (fun x hx => by
      rw [hst.shape x, hst.shape m]
      exact hrun.deeper x (by simpa using hx))
    (fun x hx => by
      rw [hst.shape x, hst.shape m]
      exact hrun.stop x hx)
    hzero
  rw [← Ctl.next.inj hc] at hpr hgone
  refine ⟨hsh.1, fun x => ?_, fun x hx => ?_, fun x => ?_⟩
  · constructor
    · intro hx
      exact ⟨hsh.1.live x hx, fun hmA => hgone x (mem_backwards.mpr hmA) hx⟩
    · rintro ⟨hx, hmA⟩
      exact (hsh.2 x (by simpa [scope, hk] using hmA)).2 hx
  · rw [(hpr.node x).2.1]
    exact hzero x (mem_backwards.mpr hx)
  · rw [(hpr.node x).2.2, hst.shape x]

/-- `x` is `m` or in the run of deeper nodes behind it. -/
def Below (st : State σ) (m x : NodeId) : Prop := x = m ∨ InRun st m x

theorem Run.below_iff (hrun : Run st m A B) (x : NodeId) : Below st m x ↔ x ∈ m :: A := by
  rw [Below, ← hrun.mem_iff, List.mem_cons]

theorem Run.eq_takeWhile (hrun : Run st m A B) {l : List NodeId} (hl : st.RingAt m l) :
    A = l.takeWhile fun x => decide ((st.mdb m).dpth < (st.mdb x).dpth) := by
  rw [hl.unique hrun.ring, List.takeWhile_append_of_pos (fun x hx => by simpa using hrun.deeper x hx)]
  cases B with
  | nil => simp
  | cons y B =>
    have := hrun.stop y (by simp)
    rw [List.takeWhile_cons_of_neg (by simpa using this), List.append_nil]

theorem Shrunk.below (hs : Shrunk st t) (hw : Wf st) (hwt : Wf t) (hm : t.Live m) (hx : t.Live x)
    (h : Below st m x) : Below t m x := by
  obtain ⟨A, B, hrun⟩ := hw.run (hs.live m hm)
  obtain ⟨A', B', hrun'⟩ := hwt.run hm
  rw [hrun.below_iff] at h
  rw [hrun'.below_iff]
  rcases List.mem_cons.mp h with rfl | hxA
  · exact List.mem_cons_self
  · apply List.mem_cons_of_mem
    rw [hrun'.eq_takeWhile (hs.ring m _ hm hrun.ring), List.filter_append,
      List.takeWhile_append_of_pos]
    · exact List.mem_append_left _ (List.mem_filter.mpr ⟨hxA, by simpa using hx⟩)
    · intro y hy
      rw [(hs.same m).dpth, (hs.same y).dpth]
      simpa using hrun.deeper y (List.mem_filter.mp hy).1

theorem Below.trans (h : Below st m x) (h' : Below st x y) : Below st m y := by
  rcases h with rfl | ⟨j, rfl, hj⟩
  · exact h'
  · rcases h' with rfl | ⟨k, rfl, hk⟩
    · exact Or.inr ⟨j, rfl, hj⟩
    · refine Or.inr ⟨k + 1 + j, ?_, fun i hi => ?_⟩
      · rw [← Function.iterate_add_apply]
        congr 1
      · by_cases hij : i ≤ j
        · exact hj i hij
        · have := hk (i - j - 1) (by omega)
          rw [← Function.iterate_add_apply] at this
          rw [show i - j - 1 + 1 + (j + 1) = i + 1 by omega] at this
          exact (hj j le_rfl).trans this

theorem mem_ring_of_mem_ring {l l' : List NodeId} (hx : st.RingAt x l) (hm : st.RingAt m l')
    (hy : y ∈ x :: l) (hy' : y ∈ m :: l') : x ∈ m :: l' := by
  obtain ⟨k, hk, hmem⟩ := hx.exists_of_mem hy
  obtain ⟨k', hk', hmem'⟩ := hm.exists_of_mem hy'
  rw [← hmem', hk'.unique hk, hmem]
  exact List.mem_cons_self

theorem Razed.below (h : Razed st st' m A) (hw : Wf st) (hw' : Wf st') (hm : st.Live m)
    (hrun : Run st m A B) (hx : st'.Live x) (hb : Below st' x y) : Below st x y := by
  obtain ⟨hxs, hxA⟩ := (h.live x).mp hx
  obtain ⟨A0, B0, hrun0⟩ := hw.run hxs
  obtain ⟨A', B', hrun'⟩ := hw'.run hx
  rw [hrun'.below_iff] at hb
  rw [hrun0.below_iff]
  rcases List.mem_cons.mp hb with rfl | hyA
  · exact List.mem_cons_self
  · apply List.mem_cons_of_mem
    obtain ⟨l, hl, -⟩ := hw.ring x hxs
    have hdpth : ∀ z, (st'.mdb z).dpth = (st.mdb z).dpth := fun z => (h.shrunk.same z).dpth
    let p : NodeId → Bool := fun z => decide ((st.mdb x).dpth < (st.mdb z).dpth)
    have hA' : A' = (l.filter fun z => decide (st'.Live z)).takeWhile p := by
      rw [hrun'.eq_takeWhile (h.shrunk.ring x l hx hl)]
      simp only [hdpth, p]
    have hA0 : A0 = l.takeWhile p := hrun0.eq_takeWhile hl
    by_cases hxB : x ∈ B
    · -- the ring from `x` on: `v`, then `m` with its run, then `u`
      obtain ⟨u, v, rfl⟩ := List.append_of_mem hxB
      have hring : st.RingAt m ((A ++ u) ++ x :: v) := by simpa using hrun.ring
      have hlx := hl.unique hring.rotate
      have hnd := hring.nodup
      have hkeep : (l.filter fun z => decide (st'.Live z)) = v ++ u := by
        have hout : ∀ z ∈ v ++ u, st'.Live z := by
          intro z hz
          refine (h.live z).mpr ⟨hw.live_of_ring hm hring ?_, ?_⟩
          · simp only [List.mem_append, List.mem_cons] at hz ⊢
            tauto
          · intro hzA
            simp only [List.nodup_cons, List.nodup_append, List.mem_append, List.mem_cons] at hnd hz hzA
            grind
        have hdead : ∀ z ∈ m :: A, ¬st'.Live z := fun z hz hlz => ((h.live z).mp hlz).2 hz
        rw [hlx, List.filter_append, ← List.cons_append, List.filter_append]
        rw [List.filter_eq_self.mpr fun z hz => by simpa using hout z (by simp [hz]),
          List.filter_eq_nil_iff.mpr fun z hz => by simpa using hdead z hz,
          List.filter_eq_self.mpr fun z hz => by simpa using hout z (by simp [hz]), List.nil_append]
      rw [hA', hkeep] at hyA
      rw [hA0, hlx]
      rw [List.takeWhile_append] at hyA ⊢
      split at hyA
      · rename_i hv
        rw [if_pos hv]
        rcases List.mem_append.mp hyA with hyv | hyu
        · exact List.mem_append_left _ hyv
        · apply List.mem_append_right
          by_cases hpm : p m = true
          · rw [← List.cons_append, List.takeWhile_append_of_pos]
            · exact List.mem_append_right _ hyu
            · intro z hz
              simp only [p, decide_eq_true_eq] at hpm ⊢
              rcases List.mem_cons.mp hz with rfl | hz
              · exact hpm
              · exact hpm.trans (hrun.deeper z hz)
          · cases u with
            | nil => simp at hyu
            | cons z u =>
              have hzm := hrun.stop z (by simp)
              have hpz : ¬p z = true := by
                simp only [p, decide_eq_true_eq, not_lt] at hpm ⊢
                exact hzm.trans hpm
              simp [List.takeWhile_cons_of_neg hpz] at hyu
      · rename_i hv
        rw [if_neg hv]
        exact hyA
    · -- `x` is in another ring
      have hkeep : (l.filter fun z => decide (st'.Live z)) = l := by
        apply List.filter_eq_self.mpr
        intro z hz
        rw [decide_eq_true_eq, h.live]
        refine ⟨hw.live_of_ring hxs hl hz, fun hzA => ?_⟩
        have := mem_ring_of_mem_ring hl hrun.ring (List.mem_cons_of_mem _ hz)
          (by simp only [List.mem_cons, List.mem_append] at hzA ⊢; tauto)
        simp only [List.mem_cons, List.mem_append] at this hxA
        tauto
      rw [hA', hkeep] at hyA
      rw [hA0]
      exact hyA

section Sweep

variable {pd : PdId} {base ord : Mword} {fuel : Nat}

/-- `x` is in the run of a node of `pd` that the range touches. -/
def Doomed (st : State σ) (pd : PdId) (base ord : Mword) (x : NodeId) : Prop :=
  ∃ m, Touched st pd base ord m ∧ Below st m x

/-- The doomed nodes are gone, and nothing else is. -/
structure Swept (st : State σ) (pd : PdId) (base ord : Mword) (st' : State σ) : Prop where
  wf : Wf st'
  shrunk : Shrunk st st'
  live : ∀ x, st'.Live x ↔ st.Live x ∧ ¬Doomed st pd base ord x
  attr : ∀ x, Doomed st pd base ord x → (st'.mdb x).nodeAttr = 0
  prnt : ∀ x, (st'.mdb x).prnt = (st.mdb x).prnt

/-- What holds while `revoke` is at it. -/
structure Sweeping (st : State σ) (pd : PdId) (base ord : Mword) (t : State σ) : Prop where
  wf : Wf t
  five : FiveBits t
  shrunk : Shrunk st t
  below : ∀ x y, t.Live x → Below t x y → Below st x y
  gone : ∀ x, st.Live x → ¬t.Live x → Doomed st pd base ord x ∧ (t.mdb x).nodeAttr = 0
  prnt : ∀ x, (t.mdb x).prnt = (st.mdb x).prnt

theorem Shrunk.attr_zero (h : Shrunk st st') (hx : (st.mdb x).nodeAttr = 0) :
    (st'.mdb x).nodeAttr = 0 := by
  rw [← h.attr x, hx]
  simp

theorem Sweeping.pass {addr b o : Mword} (h : Sweeping st pd base ord t) (ho : ord.toNat < 64)
    (hb : Aligned ord.toNat base) (hv : Visits id pd base ord addr t m b o)
    (hrun : Run t m A B) (hbody : revokeNode S fuel 0x1f true false m b o t = some (.next st')) :
    Razed t st' m A ∧ Sweeping st pd base ord st' := by
  have hm := hv.live h.wf
  have hz := revokeNode_razed h.wf h.five hm hrun (hv.part h.wf ho hb) hbody
  have hsteps : Steps S (fun _ _ => True) Never Never Never t st' :=
    revokeNode_steps (fun _ _ _ _ _ _ h => h) h.wf hm (by simp [keeps]) hbody
  obtain ⟨hw', h5'⟩ := hsteps.invariant (I := FiveBits)
    (fun _ _ hw h5 he => he.fiveBits h5 hw) h.wf h.five
  refine ⟨hz, hw', h5', h.shrunk.trans hz.shrunk, fun x y hx hxy => ?_, fun x hx hx' => ?_,
    fun x => (hz.prnt x).trans (h.prnt x)⟩
  · exact h.below x y ((hz.live x).mp hx).1 (hz.below h.wf hw' hm hrun hx hxy)
  · by_cases hxt : t.Live x
    · have hxA : x ∈ m :: A := by
        by_contra hxA
        exact hx' ((hz.live x).mpr ⟨hxt, hxA⟩)
      have htouched := h.shrunk.touched h.wf (hv.touched h.wf ho hb)
      exact ⟨⟨m, htouched, h.below m x hm ((hrun.below_iff x).mpr hxA)⟩, hz.attr x hxA⟩
    · exact ⟨(h.gone x hx hxt).1, hz.shrunk.attr_zero (h.gone x hx hxt).2⟩

theorem Sweeping.refl (hw : Wf st) (h5 : FiveBits st) : Sweeping st pd base ord st :=
  ⟨hw, h5, Shrunk.refl hw, fun _ _ _ h => h, fun _ hx hx' => absurd hx hx', fun _ => rfl⟩

theorem revoke_swept (hw : Wf st) (h5 : FiveBits st) (ho : ord.toNat < 64)
    (hb : Aligned ord.toNat base)
    (hr : revoke S fuel pd base ord 0x1f true false st = some st') :
    Swept st pd base ord st' := by
  have hwalk : ∀ c, walkRange id pd base ord (revokeNode S fuel 0x1f true false) fuel base st =
      some c → Swept st pd base ord c.val := by
    intro c hc
    apply walkRange_covers (J := Sweeping st pd base ord) (T := Touched st pd base ord)
      (D := fun m t => ∀ x, Below st m x → ¬t.Live x)
      (Q := fun c => Swept st pd base ord c.val)
      ho hb _ _ _ _ _ (fun y hy => hy.1) (walkAll_of_forall (fun _ _ _ _ => trivial) _ _ _) hc
    · exact st.mdb
    · intro t h
      exact ⟨h.wf, fun x _ => (h.shrunk.same x).base, fun x _ => (h.shrunk.same x).order,
        fun y hy _ => hy.2⟩
    · intro t h hdone
      have hdead : ∀ x, Doomed st pd base ord x → ¬t.Live x := by
        rintro x ⟨m, hm, hx⟩
        exact hdone m hm x hx
      refine ⟨h.wf, h.shrunk, fun x => ⟨fun hx => ⟨h.shrunk.live x hx, fun hd => hdead x hd hx⟩, ?_⟩,
        ?_, h.prnt⟩
      · rintro ⟨hx, hd⟩
        by_contra hx'
        exact hd (h.gone x hx hx').1
      · intro x hd
        obtain ⟨m, hm, hx⟩ := hd
        obtain ⟨A, B, hrun⟩ := hw.run (hw.live_of_mem hm.1)
        have hlive := hrun.live hw (hw.live_of_mem hm.1) x ((hrun.below_iff x).mp hx)
        exact (h.gone x hlive (hdone m hm x hx)).2
    · intro addr t m b o t' h hv _ hbody
      exact absurd hbody (revokeNode_ne_ret (hv.live h.wf) h.wf)
    · intro addr t m b o t' h hv _ hbody
      have hm := hv.live h.wf
      obtain ⟨A, B, hrun⟩ := h.wf.run hm
      obtain ⟨hz, h'⟩ := h.pass ho hb hv hrun hbody
      -- what the run of a node of this run was before is in this run now
      have hdone : ∀ y ∈ m :: A, ∀ x, Below st y x → ¬t'.Live x := by
        intro y hy x hyx hx
        obtain ⟨hxt, hxA⟩ := (hz.live x).mp hx
        have hyt := hrun.live h.wf hm y hy
        have hmy := (hrun.below_iff y).mpr hy
        exact hxA ((hrun.below_iff x).mp (hmy.trans (h.shrunk.below hw h.wf hyt hxt hyx)))
      refine ⟨h', hdone m List.mem_cons_self, ?_, ?_⟩
      · intro y _ hd x hyx hx
        exact hd x hyx ((hz.live x).mp hx).1
      · intro y hy hmem
        by_cases hyA : y ∈ m :: A
        · exact Or.inr (hdone y hyA)
        · left
          have hlive : t'.Live y := (hz.live y).mpr ⟨h.wf.live_of_mem hmem, hyA⟩
          unfold State.Live at hlive
          rwa [(hz.shrunk.same y).space, (h.wf.mem pd y hmem).1] at hlive
    · exact Sweeping.refl hw h5
  unfold revoke at hr
  split at hr
  · simp at hr
  · rename_i t hc
    obtain rfl := Option.some.inj hr
    exact hwalk _ hc
  · rename_i t hc
    have h := hwalk _ hc
    split at hr
    · obtain rfl := Option.some.inj hr
      exact ⟨⟨h.wf.mem, h.wf.ordered, h.wf.natural, h.wf.ring⟩,
        ⟨h.shrunk.same, h.shrunk.attr, h.shrunk.live, h.shrunk.ring, h.shrunk.fresh, h.shrunk.orig⟩,
        h.live, h.attr, h.prnt⟩
    · obtain rfl := Option.some.inj hr
      exact h

theorem revoke_below (hw : Wf st) (h5 : FiveBits st) (ho : ord.toNat < 64)
    (hb : Aligned ord.toNat base) (hr : revoke S fuel pd base ord 0x1f true false st = some st') :
    FiveBits st' ∧ ∀ x y, st'.Live x → Below st' x y → Below st x y := by
  have hinner : ∀ c, walkRange id pd base ord (revokeNode S fuel 0x1f true false) fuel base st = some c →
      Sweeping st pd base ord c.val := by
    intro c hc
    apply walkRange_rule (P := fun _ _ _ _ => True) (fun _ t => Sweeping st pd base ord t)
      (fun c => Sweeping st pd base ord c.val) _ _ _ (.refl hw h5) (walkAll_of_forall (fun _ _ _ _ => trivial) _ _ _) hc
    · intro addr t hinv _
      exact hinv
    · intro addr t m b o t' hinv hv _ hbody
      exact absurd hbody (revokeNode_ne_ret (hv.live hinv.wf) hinv.wf)
    · intro addr t m b o t' hinv hv _ hbody
      obtain ⟨A, B, hrun⟩ := hinv.wf.run (hv.live hinv.wf)
      exact (hinv.pass ho hb hv hrun hbody).2
  unfold revoke at hr
  split at hr
  · simp at hr
  · rename_i t hc
    obtain rfl := Option.some.inj hr
    exact ⟨(hinner _ hc).five, (hinner _ hc).below⟩
  · rename_i t hc
    have h := hinner _ hc
    split at hr
    · obtain rfl := Option.some.inj hr
      exact ⟨h.five, h.below⟩
    · obtain rfl := Option.some.inj hr
      exact ⟨h.five, h.below⟩

theorem Rooted.below_iff (h : Rooted E st t m) (hw : Wf st) (hx : st.Live x) :
    Below t x y ↔ Below st x y := by
  obtain ⟨A, B, hrun⟩ := hw.run hx
  have hlt := hw.ring_lt hx hrun.ring
  have hdpth : ∀ z ∈ x :: (A ++ B), (t.mdb z).dpth = (st.mdb z).dpth := fun z hz => (h.old z (hlt z hz)).1.dpth
  have hrun' : Run t x A B := by
    refine ⟨h.ringAt hw hx hrun.ring, fun z hz => ?_, fun z hz => ?_⟩
    · rw [hdpth x (by simp), hdpth z (by simp [hz])]
      exact hrun.deeper z hz
    · rw [hdpth x (by simp), hdpth z (by simp [List.mem_of_mem_head? hz])]
      exact hrun.stop z hz
  rw [hrun.below_iff, hrun'.below_iff]

theorem Rooted.below_self (h : Rooted E st t m) : Below t m y ↔ y = m := by
  have hrun : Run t m [] [] := ⟨h.ringAt_self, by simp, by simp⟩
  rw [hrun.below_iff]
  simp

theorem Meeting.top_ne {x : Mdb} (h : Meeting x 0 ord) (hx : x.Natural) (ho : ord.toNat < 63) :
    x.top ≠ 2 ^ 64 := by
  obtain ⟨i, hi, hr⟩ := h
  have h1 : 2 ^ ord.toNat ≤ 2 ^ 62 := Nat.pow_le_pow_right (by decide) (by omega)
  have h2 : 2 ^ x.nodeOrder.toNat ≤ 2 ^ 63 :=
    Nat.pow_le_pow_right (by decide) (by have := hx.order_lt; omega)
  have h0 : (0 : Mword).toNat = 0 := rfl
  unfold Mdb.top at hi ⊢
  omega

theorem length_le_of_lt {l : List Nat} {n : Nat} (hnd : l.Nodup) (hlt : ∀ x ∈ l, x < n) :
    l.length ≤ n := by
  have hsub : l ⊆ List.range n := fun x hx => List.mem_range.mpr (hlt x hx)
  simpa using (List.subperm_of_subset hnd hsub).length_le

theorem revoke_isSome (hw : Wf st) (h5 : FiveBits st) (ho : ord.toNat < 63)
    (hfuel : Nat.succ st.fresh < fuel) :
    ∃ st', revoke S fuel pd 0 ord 0x1f true false st = some st' := by
  have ho' : ord.toNat < 64 := by omega
  have hb : Aligned ord.toNat 0 := by simp [Aligned]
  have hsome : (walkRange id pd 0 ord (revokeNode S fuel 0x1f true false) fuel 0 st).isSome := by
    have hlen : (st.tree pd).length ≤ st.fresh :=
      length_le_of_lt (hw.ordered pd).nodup fun x hx => (hw.mem pd x hx).2
    apply walkRange_isSome (J := Sweeping st pd 0 ord) (st.tree pd) st.mdb (fun t h => h.wf)
      _ _ _ (Sweeping.refl hw h5)
    · have := List.length_filter_le (fun y => decide ((0 : Mword).toNat < (st.mdb y).top)) (st.tree pd)
      omega
    · intro addr t m b o h hv
      refine ⟨(h.shrunk.touched h.wf (hv.touched h.wf ho' hb)).1, ?_⟩
      simp only [Mdb.top, (h.shrunk.same m).base, (h.shrunk.same m).order]
    · intro addr t m b o h hv
      have hm : t.Live m := hv.live h.wf
      obtain ⟨A, B, hrun⟩ := h.wf.run hm
      have hA : A.length ≤ st.fresh := by
        rw [← h.shrunk.fresh]
        have hnd := (List.nodup_append.mp hrun.nodup).1
        rw [List.nodup_reverse] at hnd
        exact length_le_of_lt hnd fun x hx => h.wf.lt (hrun.live h.wf hm x (by simp [hx]))
      rw [revokeNode_eq h.wf hm hrun rfl, if_pos (by omega)]
      exact ⟨_, rfl⟩
    · intro addr t m b o t' h hv hbody
      have hm := hv.live h.wf
      obtain ⟨A, B, hrun⟩ := h.wf.run hm
      have htouched := h.shrunk.touched h.wf (hv.touched h.wf ho' hb)
      have hnat := hw.natural_of_mem m htouched.1
      exact ⟨(h.pass ho' hb hv hrun hbody).2, fun htop => absurd htop (htouched.2.top_ne hnat ho)⟩
  obtain ⟨c, hc⟩ := Option.isSome_iff_exists.mp hsome
  unfold revoke
  rw [hc]
  cases c with
  | ret t => exact ⟨t, rfl⟩
  | next t =>
    dsimp only
    split
    · exact ⟨_, rfl⟩
    · exact ⟨_, rfl⟩

end Sweep

/-- All nodes that `pd` had in `st` are out of everything in `st'`: they have no
rights, they are in no tree, and no node of a list points at `pd`. -/
structure TornDown (st : State σ) (pd : PdId) (st' : State σ) : Prop where
  attr : ∀ n ∈ st.tree pd, (st'.mdb n).nodeAttr = 0
  tree : ∀ n ∈ st.tree pd, ∀ q, n ∉ st'.tree q
  list : ∀ n ∈ st.tree pd, ∀ x, st'.Live x → st'.mdb.next x ≠ n ∧ st'.mdb.prev x ≠ n
  unreferenced : ∀ x, st'.Live x → (st'.mdb (st'.mdb.next x)).space ≠ pd ∧
    (st'.mdb (st'.mdb.prev x)).space ≠ pd ∧
      ∀ p, (st'.mdb x).prnt = some p → (st'.mdb p).space ≠ pd

/-- Every node of `pd`, and every node with a parent in `pd`, is in the run of a
node of `pd` that has an index in the range. -/
structure InReach (st : State σ) (pd : PdId) (base ord : Mword) : Prop where
  node : ∀ n ∈ st.tree pd, Doomed st pd base ord n
  child : ∀ x p, st.Live x → (st.mdb x).prnt = some p → (st.mdb p).space = pd →
    Doomed st pd base ord x

theorem Swept.tornDown_iff {pd : PdId} {base ord : Mword} (h : Swept st pd base ord st')
    (hw : Wf st) : TornDown st pd st' ↔ InReach st pd base ord := by
  have hspace : ∀ x, (st'.mdb x).space = (st.mdb x).space := fun x => (h.shrunk.same x).space
  constructor
  · intro ht
    constructor
    · intro n hn
      by_contra hd
      have hlive := (h.live n).mpr ⟨hw.live_of_mem hn, hd⟩
      exact ht.tree n hn _ hlive
    · intro x p hx hxp hpd
      by_contra hd
      have hlive := (h.live x).mpr ⟨hx, hd⟩
      rw [← h.prnt x] at hxp
      rw [← hspace p] at hpd
      exact (ht.unreferenced x hlive).2.2 p hxp hpd
  · intro hr
    have hnot : ∀ x, st'.Live x → (st'.mdb x).space ≠ pd := by
      intro x hx hpd
      obtain ⟨hxs, hd⟩ := (h.live x).mp hx
      apply hd
      apply hr.node
      rw [hspace x] at hpd
      rw [← hpd]
      exact hxs
    have hpd : ∀ n ∈ st.tree pd, (st'.mdb n).space = pd := by
      intro n hn
      rw [hspace n]
      exact (hw.mem pd n hn).1
    constructor
    · intro n hn
      exact h.attr n (hr.node n hn)
    · intro n hn q hq
      exact hnot n (h.wf.live_of_mem hq) (hpd n hn)
    · intro n hn x hx
      constructor
      · intro heq
        have := h.wf.live_next hx
        rw [heq] at this
        exact hnot n this (hpd n hn)
      · intro heq
        have := (h.wf.live_prev hx).1
        rw [heq] at this
        exact hnot n this (hpd n hn)
    · intro x hx
      refine ⟨hnot _ (h.wf.live_next hx), hnot _ (h.wf.live_prev hx).1, fun p hxp hp => ?_⟩
      obtain ⟨hxs, hd⟩ := (h.live x).mp hx
      rw [h.prnt x] at hxp
      rw [hspace p] at hp
      exact hd (hr.child x p hxs hxp hp)

section PreFree

variable {M P O : SpaceOps σ} {EM EP EO : σ → σ → Prop} {s : Spaces σ} {pd : PdId} {fuel : Nat}

theorem AnyReach.fiveBits (hE : S.Frame E) (h : AnyReach S E st) : Wf st ∧ FiveBits st := by
  apply h.invariant hE (fun _ _ _ _ _ _ h => h)
  · intro space n hn
    simp [Pd.boot, State.Live] at hn
  · intro st st' hw h5 he
    exact he.fiveBits h5 hw

theorem Wf.follow (hw : Wf st) (t : State σ) : Wf (st.follow t) :=
  ⟨hw.mem, hw.ordered, hw.natural, hw.ring⟩

theorem tornDown_follow_left : TornDown (st.follow t) pd st' ↔ TornDown st pd st' :=
  ⟨fun h => ⟨h.attr, h.tree, h.list, h.unreferenced⟩,
    fun h => ⟨h.attr, h.tree, h.list, h.unreferenced⟩⟩

theorem tornDown_follow_right : TornDown st pd (st'.follow t) ↔ TornDown st pd st' :=
  ⟨fun h => ⟨h.attr, h.tree, h.list, h.unreferenced⟩,
    fun h => ⟨h.attr, h.tree, h.list, h.unreferenced⟩⟩

theorem inReach_follow {base ord : Mword} :
    InReach (st.follow t) pd base ord ↔ InReach st pd base ord :=
  ⟨fun h => ⟨h.node, h.child⟩, fun h => ⟨h.node, h.child⟩⟩

/-- Revoking a default descriptor tears a space down exactly if everything of
`pd` in it is within reach of the indices below `2 ^ 31`. -/
theorem revoke_ofType (S : SpaceOps σ) (pd : PdId) {c : Mword} (hc : c ∈ [Crd.MEM, Crd.PIO, Crd.OBJ]) (hw : Wf st)
    (h5 : FiveBits st) (hfuel : Nat.succ st.fresh < fuel) :
    ∃ st', revoke S fuel pd (Crd.ofType c).base (Crd.ofType c).order (Crd.ofType c).attr true false
      st = some st' ∧ (TornDown st pd st' ↔ InReach st pd 0 0x1f) := by
  obtain ⟨hbase, hord, hattr⟩ := Crd.ofType_eq hc
  rw [hbase, hord, hattr]
  have hsome : ∃ st', revoke S fuel pd 0 0x1f 0x1f true false st = some st' :=
    revoke_isSome hw h5 (by decide) hfuel
  obtain ⟨st', hst'⟩ := hsome
  exact ⟨st', hst', (revoke_swept hw h5 (by decide) (by decide) hst').tornDown_iff hw⟩

/-- `pre_free` ends, and leaves nothing of the protection domain behind exactly
if all of it is within reach of the indices below `2 ^ 31`. -/
theorem preFree_tornDown_iff (hM : M.Frame EM) (hP : P.Frame EP) (hO : O.Frame EO)
    (hm : AnyReach M EM s.mem) (hp : AnyReach P EP s.pio) (ho : AnyReach O EO s.obj)
    (hfuel : Nat.succ s.mem.fresh < fuel ∧ Nat.succ s.pio.fresh < fuel ∧
      Nat.succ s.obj.fresh < fuel) :
    ∃ s', preFree M P O fuel pd s = some s' ∧
      ((TornDown s.mem pd s'.mem ∧ TornDown s.pio pd s'.pio ∧ TornDown s.obj pd s'.obj) ↔
        InReach s.mem pd 0 0x1f ∧ InReach s.pio pd 0 0x1f ∧ InReach s.obj pd 0 0x1f) := by
  obtain ⟨hwm, h5m⟩ := hm.fiveBits hM
  obtain ⟨hwp, h5p⟩ := hp.fiveBits hP
  obtain ⟨hwo, h5o⟩ := ho.fiveBits hO
  obtain ⟨t1, h1, hiff1⟩ := revoke_ofType M pd (c := Crd.MEM) (by decide) hwm h5m hfuel.1
  obtain ⟨t2, h2, hiff2⟩ := revoke_ofType P pd (c := Crd.PIO) (by decide)
    (hwp.follow t1) h5p hfuel.2.1
  obtain ⟨t3, h3, hiff3⟩ := revoke_ofType O pd (c := Crd.OBJ) (by decide)
    ((hwo.follow t1).follow t2) h5o hfuel.2.2
  refine ⟨((s.setMem t1).setPio t2).setObj t3, ?_, ?_⟩
  · simp only [preFree, h1, Spaces.setMem, h2, Spaces.setPio, h3]
  · rw [inReach_follow, tornDown_follow_left] at hiff2
    rw [inReach_follow, inReach_follow, tornDown_follow_left, tornDown_follow_left] at hiff3
    rw [← hiff1, ← hiff2, ← hiff3]
    simp only [Spaces.setMem, Spaces.setPio, Spaces.setObj, tornDown_follow_right]

end PreFree

/-- A protection domain with one delegated page, which `pre_free` clears. -/
theorem preFree_tornDown_iff_lowPage :
    ∃ st s', execAll bareSpace 10 [.insertRoot 1 0 0 4 0x1f 0, .delegate 2 1 3 3 0 7 0] (boot ()) =
      some st ∧ 1 ∈ st.tree 2 ∧
        preFree bareSpace bareSpace bareSpace 10 2 ⟨st, boot (), boot ()⟩ = some s' ∧
          TornDown st 2 s'.mem := by
  have hrun : (execAll bareSpace 10 [.insertRoot 1 0 0 4 0x1f 0, .delegate 2 1 3 3 0 7 0]
      (boot ())).map (fun st => (st.fresh, st.tree 2, (st.mdb 1).nodeBase, (st.mdb 1).nodeOrder,
        (st.mdb 0).prnt)) = some (2, [1], 3, 0, none) := by decide +kernel
  obtain ⟨st, hst, hval⟩ := Option.map_eq_some_iff.mp hrun
  simp only [Prod.mk.injEq] at hval
  obtain ⟨hfresh, htree, hbase, hord, hprnt⟩ := hval
  have hm : AnyReach bareSpace (fun _ _ => True) st :=
    AnyReach.execAll (.boot ()) (by decide) hst
  obtain ⟨hw, -⟩ := hm.fiveBits bareSpace_frame
  have hb : AnyReach bareSpace (fun _ _ => True) (boot ()) := .boot ()
  have hdoomed : Doomed st 2 0 0x1f 1 := by
    refine ⟨1, ⟨by simp [htree], 3, ?_, by decide⟩, Or.inl rfl⟩
    unfold Mdb.top
    rw [hbase, hord]
    decide
  have hmem : InReach st 2 0 0x1f := by
    constructor
    · intro n hn
      rw [htree, List.mem_singleton] at hn
      rw [hn]
      exact hdoomed
    · intro x p hx hxp _
      have hlt : x < 2 := by
        rw [← hfresh]
        exact hw.lt hx
      have h01 : x = 0 ∨ x = 1 := by
        cases x with
        | zero => exact Or.inl rfl
        | succ x => exact Or.inr (congrArg Nat.succ (Nat.lt_one_iff.mp (Nat.lt_of_succ_lt_succ hlt)))
      rcases h01 with rfl | rfl
      · simp [hprnt] at hxp
      · exact hdoomed
  have hempty : InReach (boot ()) 2 0 0x1f :=
    ⟨fun n hn => by simp [boot] at hn, fun x p hx => by simp [boot, State.Live] at hx⟩
  have hfuel : Nat.succ st.fresh < 10 := by
    rw [hfresh]
    decide
  have hzero : Nat.succ (boot ()).fresh < 10 := by decide
  obtain ⟨s', hs', hiff⟩ := preFree_tornDown_iff (s := ⟨st, boot (), boot ()⟩) bareSpace_frame
    bareSpace_frame bareSpace_frame hm hb hb ⟨hfuel, hzero, hzero⟩
  exact ⟨st, s', hst, by simp [htree], hs', (hiff.mpr ⟨hmem, hempty, hempty⟩).1⟩

section Tip

/-- `Space::addreg`, as the list of its insertions; the first argument bounds
their number. -/
def addreg (pd : PdId) (attr type : Mword) : Nat → Mword → Mword → List Op
  | 0, _, _ => []
  | n + 1, addr, size =>
    if size = 0 then []
    else
      let o := BitVec.ofNat 64 (maxOrder addr size)
      .insertRoot pd addr addr o attr type ::
        addreg pd attr type n (addr + shl 1 o) (size - shl 1 o)

def PAGE_SIZE : Mword := 0x1000
def PAGE_H_SIZE : Mword := 0x4000
def PAGE_T_SIZE : Mword := 0x20000
def USER_ADDR : Mword := 0x00007fffc0000000

def delegateTip (kern pd : PdId) : Nat → Mword → Mword → Mword → List Op
  | 0, _, _, _ => []
  | n + 1, phys, virt, size =>
    if size = 0 then []
    else
      let o := BitVec.ofNat 64 (min (maxOrder phys size) (maxOrder virt size))
      .delegate pd kern (shr phys 12) (shr virt 12) (o - 12) 1 0 ::
        delegateTip kern pd n (phys + shl 1 o) (virt + shl 1 o) (size - shl 1 o)

/-- `Tip::delegate_to_userspace`, as the list of its calls: the topology pages
at `frame` appear right below the UTCB of the root task. -/
def delegateToUserspace (kern pd : PdId) (frame : Mword) : List Op :=
  delegateTip kern pd 32 frame (USER_ADDR - PAGE_H_SIZE - PAGE_SIZE - PAGE_T_SIZE) PAGE_T_SIZE

/-- The topology pages as the kernel gets them at boot, and a new protection
domain with its view of them. -/
def bootTip (frame : Mword) : List Op :=
  addreg 0 1 6 32 (shr frame 12) (shr PAGE_T_SIZE 12) ++ delegateToUserspace 0 2 frame

/-- The view of the topology pages that every protection domain starts with
lies beyond the descriptor that `pre_free` revokes. -/
theorem bootTip_survives :
    ¬∀ s s' : Spaces Unit, AnyReach bareSpace (fun _ _ => True) s.mem →
      AnyReach bareSpace (fun _ _ => True) s.pio → AnyReach bareSpace (fun _ _ => True) s.obj →
        preFree bareSpace bareSpace bareSpace 40 2 s = some s' → TornDown s.mem 2 s'.mem := by
  intro hall
  have hrun : ((execAll bareSpace 40 (bootTip 0x51b000) (boot ())).bind fun st =>
      (preFree bareSpace bareSpace bareSpace 40 2 ⟨st, boot (), boot ()⟩).map fun s' =>
        (decide (6 ∈ st.tree 2), decide (6 ∈ s'.mem.tree 2))) = some (true, true) := by
    decide +kernel
  obtain ⟨st, hst, hrest⟩ := Option.bind_eq_some_iff.mp hrun
  obtain ⟨s', hs', hval⟩ := Option.map_eq_some_iff.mp hrest
  simp only [Prod.mk.injEq, decide_eq_true_eq] at hval
  have hreach : AnyReach bareSpace (fun _ _ => True) st :=
    AnyReach.execAll (.boot ()) (by decide +kernel) hst
  exact (hall ⟨st, boot (), boot ()⟩ s' hreach (.boot ()) (.boot ()) hs').tree 6 hval.1 2 hval.2

end Tip

end Tukija.Pd
