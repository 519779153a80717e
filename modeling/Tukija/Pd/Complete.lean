import Tukija.Pd.Confine

/-! What `revoke` reaches. -/
namespace Tukija.Pd

open Tukija.Lib.Word Tukija.Lib.Ring Tukija.Mapdb

variable {σ : Type} {S : SpaceOps σ} {E : σ → σ → Prop} {st st' : State σ}
  {G L U : State σ → NodeId → Prop} {m : NodeId} {A B : List NodeId}

theorem Run.mem_of_derived {P : NodeId → NodeId → Prop} (hrun : Run st m A B) (hs : Stretch st P)
    (hr : Rising st) (hm : st.Live m) {x : NodeId} (hx : st.Live x) (hd : Derived st x m) :
    x ∈ A := by
  obtain ⟨A', B', hring, hA', -⟩ := hs m hm
  have hxA := (hA' x).mpr ⟨hx, hd⟩
  rcases List.append_eq_append_iff.mp (hrun.ring.unique hring) with ⟨c, hc, hB⟩ | ⟨c, hc, -⟩
  · -- the run cannot end inside the stretch
    cases c with
    | nil =>
      rw [hc, List.append_nil] at hxA
      exact hxA
    | cons y c =>
      have hy : y ∈ A' := by simp [hc]
      have hlt := hr.lt ((hA' y).mp hy).2
      have hle := hrun.stop y (by simp [hB])
      exact absurd hlt (Nat.not_lt.mpr hle)
  · rw [hc]
    exact List.mem_append_left _ hxA

/-- What is derived from a node of the run follows it there, with nothing else
in between. -/
theorem Run.split {P : NodeId → NodeId → Prop} (hrun : Run st m A B) (hs : Stretch st P)
    (hr : Rising st) {p n : NodeId} (hpA : p ∈ A) (hp : st.Live p) (hn : st.Live n)
    (hd : Derived st n p) :
    ∃ u v w, A = u ++ p :: (v ++ n :: w) ∧ ∀ y ∈ v ++ [n], st.Live y ∧ Derived st y p := by
  obtain ⟨u, v, hA⟩ := List.append_of_mem hpA
  obtain ⟨Ap, Bp, hringp, hAp, -⟩ := hs p hp
  have hring := hrun.ring
  rw [hA, List.append_assoc, List.cons_append] at hring
  have heq := hring.rotate.unique hringp
  have hmp := hrun.deeper p hpA
  have hmA : m ∉ Ap := by
    intro hmA
    have := hr.lt ((hAp m).mp hmA).2
    omega
  have hpre : ∃ c, v ++ B = Ap ++ c := by
    rcases List.append_eq_append_iff.mp heq.symm with ⟨c, hc, -⟩ | ⟨c, hc, hc'⟩
    · exact ⟨c, hc⟩
    · cases c with
      | nil => exact ⟨[], by simpa using hc.symm⟩
      | cons y c =>
        have : y = m := by simpa using (List.cons.inj hc').1.symm
        exact absurd (by simp [hc, this]) hmA
  obtain ⟨c, hc⟩ := hpre
  have hv : ∃ d, v = Ap ++ d := by
    rcases List.append_eq_append_iff.mp hc with ⟨d, hd, hB⟩ | ⟨d, hd, -⟩
    · cases d with
      | nil => exact ⟨[], by simpa using hd.symm⟩
      | cons y d =>
        have h1 := hr.lt ((hAp y).mp (by simp [hd])).2
        have h2 := hrun.stop y (by simp [hB])
        omega
    · exact ⟨d, hd⟩
  obtain ⟨d, rfl⟩ := hv
  obtain ⟨v, w, rfl⟩ := List.append_of_mem ((hAp n).mpr ⟨hn, hd⟩)
  refine ⟨u, v, w ++ d, by simpa using hA, fun y hy => (hAp y).mp ?_⟩
  simp only [List.mem_append, List.mem_cons, List.not_mem_nil, or_false] at hy ⊢
  tauto

section Flagged

variable {h : Heap} {b o : Mword}

theorem mem_flagged_append {self : Bool} {x : NodeId} {l : List NodeId}
    (hx : ∀ g, x ∈ flagged h self m b o g l) (f : Bool) (u : List NodeId) :
    x ∈ flagged h self m b o f (u ++ l) := by
  induction u generalizing f with
  | nil => exact hx f
  | cons y u ih =>
    simp only [List.cons_append, flagged]
    generalize (if (!self && (h y).prnt == some m) = true then _ else f) = g
    cases g
    · exact ih _
    · exact List.mem_cons_of_mem _ (ih _)

theorem mem_flagged_of_no_child {self : Bool} {x : NodeId} (v w : List NodeId)
    (hv : ∀ y ∈ v ++ [x], self = true ∨ (h y).prnt ≠ some m) :
    x ∈ flagged h self m b o true (v ++ x :: w) := by
  have hkeep : ∀ y, (self = true ∨ (h y).prnt ≠ some m) →
      (!self && (h y).prnt == some m) = false := by
    intro y hy
    rcases hy with rfl | hy
    · simp
    · simp [hy]
  induction v with
  | nil => simp [flagged, hkeep x (hv x (by simp))]
  | cons y v ih =>
    simp only [List.cons_append, flagged, hkeep y (hv y (by simp)), Bool.false_eq_true, if_false,
      if_true]
    exact List.mem_cons_of_mem _ (ih fun z hz => hv z (by simp at hz ⊢; tauto))

end Flagged

theorem targets_self (h : Heap) (b o : Mword) (ho : overlapsPart (h m) b o (h m) = true) :
    ∀ x ∈ m :: A, x ∈ targets h true m b o A := by
  intro x hx
  unfold targets flaggedFrom
  simp only [ho, Bool.and_self, if_true]
  rcases List.mem_cons.mp hx with rfl | hx
  · exact List.mem_cons_self
  · obtain ⟨v, w, rfl⟩ := List.append_of_mem hx
    exact List.mem_cons_of_mem _ (mem_flagged_of_no_child v w fun y _ => Or.inl rfl)

/-- Between a node and the nearest of its ancestors that is left there is a
child of `m`, unless `m` is that ancestor. -/
theorem Parent.exists_child (hp : Parent st) (hf : Forest st) (hm : st.Live m) {x : NodeId}
    (hx : st.Live x) (hd : Derived st x m) :
    ∃ z, st.Live z ∧ (st.mdb z).prnt = some m ∧ (x = z ∨ Derived st x z) := by
  induction x using Nat.strong_induction_on with
  | _ x ih =>
    cases hxp : (st.mdb x).prnt with
    | none => exact absurd hd (hp.root x m hx hxp hm)
    | some p =>
      have hxd := hp.derived x p hx hxp
      rcases hp.nearest x p m hx hxp hm hd with rfl | hpm
      · exact ⟨x, hx, hxp, Or.inl rfl⟩
      · obtain ⟨z, hz, hzp, hpz⟩ := ih p (hf.lt hxd) (hp.live x p hx hxp) hpm
        refine ⟨z, hz, hzp, Or.inr ?_⟩
        rcases hpz with rfl | hpz
        · exact hxd
        · exact hxd.trans hpz

/-- Without the node itself, the flag at `x` is the one of the child of `m` that
`x` comes from. -/
theorem mem_targets_of_child {P : NodeId → NodeId → Prop} {b o : Mword} (hrun : Run st m A B)
    (hs : Stretch st P) (hr : Rising st) (hp : Parent st) (hf : Forest st) (hm : st.Live m)
    {x z : NodeId} (hx : st.Live x) (hz : st.Live z) (hzp : (st.mdb z).prnt = some m)
    (hxz : x = z ∨ Derived st x z) (ho : overlapsPart (st.mdb m) b o (st.mdb z) = true) :
    x ∈ targets st.mdb false m b o A := by
  have hzm := hp.derived z m hz hzp
  have hzA := hrun.mem_of_derived hs hr hm hz hzm
  have hstart : ∀ l g, flagged st.mdb false m b o g (z :: l) =
      z :: flagged st.mdb false m b o true l := by
    intro l g
    simp [flagged, hzp, ho]
  suffices hgoal : x ∈ flagged st.mdb false m b o false A by
    simpa [targets, flaggedFrom] using hgoal
  rcases hxz with rfl | hxz
  · obtain ⟨u, v, rfl⟩ := List.append_of_mem hzA
    apply mem_flagged_append
    intro g
    rw [hstart]
    exact List.mem_cons_self
  · obtain ⟨u, v, w, rfl, hv⟩ := hrun.split hs hr hzA hz hx hxz
    apply mem_flagged_append
    intro g
    rw [hstart]
    apply List.mem_cons_of_mem
    apply mem_flagged_of_no_child
    intro y hy
    refine Or.inr fun hyp => ?_
    -- a child of `m` derived from `z` would have `z` for its parent
    rcases hp.nearest y m z (hv y hy).1 hyp hz (hv y hy).2 with rfl | hmz
    · exact hf.irrefl z hzm
    · exact hf.irrefl m (hmz.trans hzm)

section Overlap

variable {mdb x z : Mdb} {base ord b o : Mword}

theorem Within.le (hxz : Within x z) (hx : x.Natural) (hz : z.Natural) :
    z.nodePhys.toNat ≤ x.nodePhys.toNat ∧
      x.nodePhys.toNat + 2 ^ x.nodeOrder.toNat ≤ z.nodePhys.toNat + 2 ^ z.nodeOrder.toNat := by
  have hblock := (sameBlock_iff_of_aligned hz.phys).mp hxz.2.symm
  have hpow := Nat.pow_dvd_pow 2 hxz.1
  have hdvd : 2 ^ x.nodeOrder.toNat ∣ z.nodePhys.toNat + 2 ^ z.nodeOrder.toNat :=
    Nat.dvd_add (hpow.trans hz.phys) hpow
  exact ⟨hblock.1, add_le_of_dvd_of_lt hx.phys hdvd hblock.2⟩

theorem FromPart.mono (h : FromPart mdb base ord x) (hxz : Within x z) (hx : x.Natural)
    (hz : z.Natural) : FromPart mdb base ord z := by
  obtain ⟨i, hm, hr, hp⟩ := h
  have := hxz.le hx hz
  exact ⟨i, hm, hr, by omega⟩

theorem Part.overlapsPart_of_fromPart (hp : Part mdb base ord b o) (hm : mdb.Natural)
    (hz : z.Natural) (hb : Aligned ord.toNat base) (h : FromPart mdb base ord z) :
    overlapsPart mdb b o z = true := by
  obtain ⟨i, hi, hr, hzi⟩ := h
  have hbi := hp.mem hm hb hi hr
  have hnode := (sameBlock_iff_of_aligned hm.base).mp hp.node
  have hphys := toNat_rebase hm.order_lt.le hm.base hm.phys hp.node
  have ho : o.toNat < 64 := hp.order_le.1.trans_lt hm.order_lt
  unfold overlapsPart
  rw [bne_iff_ne, ne_eq, clamp_eq_ones_iff hz.order_lt ho, not_not,
    sameBlock_max_iff hz.phys (hp.phys_aligned hm), hphys]
  exact ⟨i - mdb.nodeBase.toNat + mdb.nodePhys.toNat, hzi, by omega⟩

theorem Part.overlapsPart_self (hp : Part mdb base ord b o) (hm : mdb.Natural) :
    overlapsPart mdb b o mdb = true := by
  have ho : o.toNat < 64 := hp.order_le.1.trans_lt hm.order_lt
  unfold overlapsPart
  rw [bne_iff_ne, ne_eq, clamp_eq_ones_iff hm.order_lt ho, not_not, max_eq_left hp.order_le.1]
  exact sameBlock_rebase hm.order_lt.le hm.base hm.phys hp.node

end Overlap

/-- No node outlives what it was derived from, as far as that was there at
first. -/
def Closed (st0 st : State σ) : Prop :=
  ∀ m x, st0.Live m → st.Live x → Derived st x m → st.Live m

abbrev Never (_ : State σ) (_ : NodeId) : Prop := False

theorem Effect.closed {st0 : State σ} (h : Effect S E Never Never Never st st') (ht : Tidy st)
    (hw : Wf st) (hc : Closed st0 st) : Closed st0 st' := by
  intro m x hm hx hd
  cases h with
  | quiet h =>
    rw [h.live hw] at hx ⊢
    exact hc m x hm hx ((derived_congr h.orig x m).mp hd)
  | granted m n hg h => exact hg.elim
  | rooted n h =>
    rcases (h.live hw x).mp hx with rfl | hx
    · exact absurd hd (h.not_derived ht.forest m).2
    · exact (h.live hw m).mpr (Or.inr (hc m x hm hx ((derived_congr h.orig x m).mp hd)))
  | demoted n r h _ =>
    rw [h.live_iff] at hx ⊢
    exact hc m x hm hx ((derived_congr h.orig x m).mp hd)
  | stripped n hu h _ => exact hu.elim
  | unlinked n h =>
    rw [h.live_iff hw] at hx ⊢
    rw [derived_congr h.orig] at hd
    refine ⟨?_, hc m x hm hx.2 hd⟩
    rintro rfl
    exact ht.stretch.not_derived_of_leaf ht.rising h.live (h.leaf_dpth rfl) hx.2 hd
  | lifted n _ hl h => exact hl.elim

theorem and_not_and_self (x r : Mword) : x &&& ~~~r &&& r = 0 := by
  rw [BitVec.and_assoc, BitVec.and_comm (~~~r), BitVec.and_not_self]
  simp

section Revoke

variable {fuel : Nat} {pd : PdId} {base ord attr : Mword} {self : Bool}

/-- Nothing derived from the part of `m` in the range has a right in `attr`
left, nor has `m` if it is to be revoked too. -/
structure Done (st : State σ) (base ord attr : Mword) (own : Bool) (m : NodeId) (t : State σ) :
    Prop where
  derived : ∀ x, t.Live x → Derived st x m → FromPart (st.mdb m) base ord (st.mdb x) →
    (t.mdb x).nodeAttr &&& attr = 0
  node : own = true → t.Live m → (t.mdb m).nodeAttr &&& attr = 0

theorem Done.shrunk {t t' : State σ} (h : Done st base ord attr self m t) (hs : Shrunk t t') :
    Done st base ord attr self m t' :=
  ⟨fun x hx hd hp => hs.attr_eq_zero (h.derived x (hs.live x hx) hd hp),
    fun hself hm => hs.attr_eq_zero (h.node hself (hs.live m hm))⟩

theorem revokeNode_done {t t' : State σ} {b o : Mword} (hw : Wf t) (ht : Tidy t) (hsh : Shrunk st t)
    (hm : t.Live m) (hp : Part (t.mdb m) base ord b o) (hb : Aligned ord.toNat base)
    (h : revokeNode S fuel attr self false m b o t = some (.next t')) :
    Done st base ord attr self m t' := by
  obtain ⟨A, B, hrun⟩ := hw.run hm
  obtain ⟨t'', heq, -, ⟨t1, hst, hpr⟩⟩ := revokeNode_revoked (E := fun _ _ => True) (G := Never)
    (L := Never) (U := Never) hw hm hrun (by simp [keeps]) h
  obtain rfl : t' = t'' := Ctl.next.inj heq
  have hnat := hw.natural m hm
  have hzero : ∀ x, x ∈ targets t.mdb self m b o A → (t'.mdb x).nodeAttr &&& attr = 0 := by
    intro x hx
    rw [(hpr.node x).2.1, hst.attr x, if_pos hx]
    exact and_not_and_self _ _
  have hlive : ∀ x, t'.Live x → t.Live x := fun x hx => (hst.live_iff x).mp (hpr.live x hx)
  constructor
  · intro x hx hd hpart
    have hx' := hlive x hx
    have hd' := (derived_congr hsh.orig x m).mpr hd
    apply hzero
    cases self with
    | true =>
      exact targets_self _ b o (hp.overlapsPart_self hnat) x
        (List.mem_cons_of_mem _ (hrun.mem_of_derived ht.stretch ht.rising hm hx' hd'))
    | false =>
      obtain ⟨z, hz, hzp, hxz⟩ := ht.parent.exists_child ht.forest hm hx' hd'
      apply mem_targets_of_child hrun ht.stretch ht.rising ht.parent ht.forest hm hx' hz hzp hxz
      apply hp.overlapsPart_of_fromPart hnat (hw.natural z hz) hb
      have hpart' : FromPart (t.mdb m) base ord (t.mdb x) := by
        unfold FromPart Mdb.top at hpart ⊢
        rw [(hsh.same m).base, (hsh.same m).order, (hsh.same m).phys, (hsh.same x).phys,
          (hsh.same x).order]
        exact hpart
      apply hpart'.mono _ (hw.natural x hx') (hw.natural z hz)
      rcases hxz with rfl | hxz
      · exact Within.refl _
      · exact ht.forest.within_of_derived hxz
  · intro hself _
    apply hzero
    rw [hself]
    exact targets_self _ b o (hp.overlapsPart_self hnat) m List.mem_cons_self

/-- In histories whose lifted nodes have a single child and whose delegations
do not overflow the depth, `revoke` reaches everything derived from its range. -/
theorem revoke_done (hE : S.Frame E) (h : Reach S E NoWrap OneChild (fun _ _ => True) st)
    (ho : ord.toNat < 64) (hb : Aligned ord.toNat base)
    (hr : revoke S fuel pd base ord attr self false st = some st') :
    ∀ m, Touched st pd base ord m → Done st base ord attr self m st' := by
  have hL := stable_oneChild (σ := σ)
  obtain ⟨hw, htidy⟩ := h.tidy hE hL (fun _ _ h => h) (fun _ _ h => h)
  let J : State σ → Prop := fun t =>
    Wf t ∧ Tidy t ∧ Closed st t ∧ Shrunk st t
  have hwalk : ∀ c, walkRange id pd base ord (revokeNode S fuel attr self false) fuel base st =
      some c → ∀ m, Touched st pd base ord m → Done st base ord attr self m c.val := by
    intro c hc
    apply walkRange_covers (J := J) (T := Touched st pd base ord)
      (D := fun m t => Done st base ord attr self m t)
      (Q := fun c => ∀ m, Touched st pd base ord m → Done st base ord attr self m c.val)
      ho hb _ _ _ _ _ (fun y hy => hy.1) (walkAll_of_forall (fun _ _ _ _ => trivial) _ _ _) hc
    · exact st.mdb
    · rintro t ⟨hwt, -, -, hsh⟩
      exact ⟨hwt, fun x _ => (hsh.same x).base, fun x _ => (hsh.same x).order, fun y hy _ => hy.2⟩
    · exact fun t _ hdone => hdone
    · rintro addr t m b o t' ⟨hwt, -, -, -⟩ hv - hbody
      exact absurd hbody (revokeNode_ne_ret (hv.live hwt) hwt)
    · rintro addr t m b o t' ⟨hwt, htt, hct, hsh⟩ hv - hbody
      have hm := hv.live hwt
      obtain ⟨A, B, hrun⟩ := hwt.run hm
      obtain ⟨hsh', -⟩ := revokeNode_shrunk hwt hm hrun hbody
      have hsteps : Steps S E Never Never Never t t' :=
        revokeNode_steps (fun _ _ _ _ _ _ h => h) hwt hm (by simp [keeps]) hbody
      obtain ⟨hwt', htt', hct'⟩ := hsteps.invariant (I := fun t => Tidy t ∧ Closed st t)
        (fun _ _ hw hi he => ⟨he.tidy (fun _ _ h => h.elim) (fun _ _ h => h.elim) hi.1 hw, he.closed hi.1 hw hi.2⟩) hwt ⟨htt, hct⟩
      have hsh'' := hsh.trans hsh'
      refine ⟨⟨hwt', htt', hct', hsh''⟩, ?_, ?_, ?_⟩
      · exact revokeNode_done hwt htt hsh hm (hv.part hwt ho hb) hb hbody
      · exact fun y _ hd => hd.shrunk hsh'
      · intro y hy hmem
        by_cases hly : t'.Live y
        · left
          have hpd : (t'.mdb y).space = pd := by
            rw [(hsh'.same y).space]
            exact (hwt.mem pd y hmem).1
          unfold State.Live at hly
          rwa [hpd] at hly
        · right
          constructor
          · intro x hx hd _
            exact absurd (hct' y x (hw.live_of_mem hy.1) hx
              ((derived_congr hsh''.orig x y).mpr hd)) hly
          · exact fun _ h => absurd h hly
    · exact ⟨hw, htidy, fun m x hm _ _ => hm, Shrunk.refl hw⟩
  unfold revoke at hr
  split at hr
  · simp at hr
  · rename_i t hc
    obtain rfl := Option.some.inj hr
    exact hwalk _ hc
  · rename_i t hc
    split at hr
    · obtain rfl := Option.some.inj hr
      intro m hm
      exact ⟨(hwalk _ hc m hm).derived, (hwalk _ hc m hm).node⟩
    · obtain rfl := Option.some.inj hr
      exact hwalk _ hc

end Revoke

/-- A chain of three nodes with the middle one lifted out: the last one is
still reached. -/
theorem revoke_done_liftOneChild :
    ∃ st st', execAll bareSpace 10 liftOneChild (boot ()) = some st ∧
      revoke bareSpace 10 1 0 0 7 false false st = some st' ∧ (st.mdb 2).nodeAttr = 7 ∧
        Done st 0 0 7 false 0 st' := by
  have hrun : ((execAll bareSpace 10 liftOneChild (boot ())).bind fun st =>
      (revoke bareSpace 10 1 0 0 7 false false st).map fun _ =>
        ((st.mdb 2).nodeAttr, decide (0 ∈ st.tree 1), (st.mdb 0).nodeBase, (st.mdb 0).nodeOrder)) =
      some (7, true, 0, 4) := by decide +kernel
  obtain ⟨st, hst, hrest⟩ := Option.bind_eq_some_iff.mp hrun
  obtain ⟨st', hst', hval⟩ := Option.map_eq_some_iff.mp hrest
  simp only [Prod.mk.injEq, decide_eq_true_eq] at hval
  obtain ⟨h2, h0, hbase, hord⟩ := hval
  have hreach : Reach bareSpace (fun _ _ => True) NoWrap OneChild (fun _ _ => True) st :=
    Reach.execAll (.boot ()) (by decide +kernel) hst
  have htouched : Touched st 1 0 0 0 := by
    refine ⟨h0, 0, ?_, by decide⟩
    unfold Mdb.top
    rw [hbase, hord]
    decide
  exact ⟨st, st', hst, hst', h2,
    revoke_done bareSpace_frame hreach (by decide) (by decide) hst' 0 htouched⟩

/-- The second child of a lifted node keeps the flag of the first one, and with
it its rights. -/
theorem liftTwoChildren_missed :
    ¬∀ st st', AnyReach bareSpace (fun _ _ => True) st →
      revoke bareSpace 10 1 0 0 7 false false st = some st' →
        ∀ m, Touched st 1 0 0 m → Done st 0 0 7 false m st' := by
  intro hall
  have hrun : ((execAll bareSpace 10 liftTwoChildren (boot ())).bind fun st =>
      (revoke bareSpace 10 1 0 0 7 false false st).map fun st' =>
        (decide (st'.Live 2), (st'.mdb 2).nodeAttr)) = some (true, 7) := by decide +kernel
  have hbefore : ∀ st ∈ execAll bareSpace 10 liftTwoChildren (boot ()),
      (st.orig 2 = some 1 ∧ st.orig 1 = some 0) ∧
        (0 ∈ st.tree 1 ∧ (st.mdb 0).nodeBase = 0 ∧ (st.mdb 0).nodeOrder = 4 ∧
          (st.mdb 0).nodePhys = 0) ∧
        (st.mdb 2).nodePhys = 0 ∧ (st.mdb 2).nodeOrder = 3 := by decide +kernel
  obtain ⟨st, hst, hrest⟩ := Option.bind_eq_some_iff.mp hrun
  obtain ⟨st', hst', hval⟩ := Option.map_eq_some_iff.mp hrest
  simp only [Prod.mk.injEq, decide_eq_true_eq] at hval
  obtain ⟨hlive, hattr⟩ := hval
  obtain ⟨⟨ho2, ho1⟩, ⟨h0, hb, ho, hp⟩, hp2, hord2⟩ := hbefore st hst
  have hreach : AnyReach bareSpace (fun _ _ => True) st :=
    AnyReach.execAll (.boot ()) (by decide) hst
  have htouched : Touched st 1 0 0 0 := by
    refine ⟨h0, 0, ?_, by decide⟩
    unfold Mdb.top
    rw [hb, ho]
    decide
  have hpart : FromPart (st.mdb 0) 0 0 (st.mdb 2) := by
    refine ⟨0, ?_, by decide, ?_⟩
    · unfold Mdb.top
      rw [hb, ho]
      decide
    · rw [hb, hp, hp2, hord2]
      decide
  have hzero := (hall st st' hreach hst' 0 htouched).derived 2 hlive
    (.head ho2 (.single ho1)) hpart
  rw [hattr] at hzero
  exact absurd hzero (by decide)

end Tukija.Pd
