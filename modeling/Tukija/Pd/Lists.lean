import Tukija.Pd.Preorder

/-! The lists of the mapping database as preorder listings. -/
namespace Tukija.Pd

open Tukija.Lib.Word Tukija.Lib.Ring Tukija.Mapdb

variable {σ : Type} {S : SpaceOps σ} {E : σ → σ → Prop} {st st' : State σ}
  {G L U : State σ → NodeId → Prop}

/-- `x` is in the run of deeper nodes directly behind `n`. -/
def InRun (st : State σ) (n x : NodeId) : Prop :=
  ∃ k, st.mdb.next^[k + 1] n = x ∧
    ∀ j ≤ k, (st.mdb n).dpth < (st.mdb (st.mdb.next^[j + 1] n)).dpth

/-- Following `prnt` from `x` leads to `n`. -/
def PrntChain (st : State σ) : NodeId → NodeId → Prop :=
  Relation.TransGen fun x p => (st.mdb x).prnt = some p

/-- Every list is a ring of live nodes in preorder: the parent is the nearest
node in front that is shallower, and a subtree is a run of deeper nodes. -/
structure PreorderLists (st : State σ) : Prop where
  ring : ∀ n, st.Live n → ∃ l, st.RingAt n l ∧ ∀ x ∈ l, st.Live x
  prnt_live : ∀ n p, st.Live n → (st.mdb n).prnt = some p → st.Live p
  prnt_nearest : ∀ n p, st.Live n → (st.mdb n).prnt = some p →
    ∃ k, st.mdb.prev^[k + 1] n = p ∧ (st.mdb p).dpth < (st.mdb n).dpth ∧
      ∀ j < k, (st.mdb n).dpth ≤ (st.mdb (st.mdb.prev^[j + 1] n)).dpth
  subtree : ∀ n x, st.Live n → st.Live x → (PrntChain st x n ↔ InRun st n x)

theorem Run.mem_iff {m : NodeId} {A B : List NodeId} (hr : Run st m A B) (x : NodeId) :
    x ∈ A ↔ InRun st m x := by
  obtain ⟨e, hp, he⟩ := hr.exists_end
  constructor
  · intro hx
    obtain ⟨k, hk, rfl⟩ := List.mem_iff_getElem.mp hx
    refine ⟨k, hp.next_iterate_get hk, fun j hj => ?_⟩
    rw [hp.next_iterate_get (hj.trans_lt hk)]
    exact hr.deeper _ (List.getElem_mem _)
  · rintro ⟨k, rfl, hk⟩
    have hlt : k < A.length := by
      by_contra hge
      have := hk A.length (Nat.le_of_not_lt hge)
      rw [hp.next_iterate] at this
      omega
    rw [hp.next_iterate_get hlt]
    exact List.getElem_mem _

theorem Wf.live_prev (hw : Wf st) {n : NodeId} (hn : st.Live n) :
    st.Live (st.mdb.prev n) ∧ st.mdb.next (st.mdb.prev n) = n := by
  obtain ⟨l, hr, hl⟩ := hw.ring n hn
  refine ⟨?_, hr.next_prev (by simp)⟩
  rcases List.mem_cons.mp (hr.prev_mem (x := n) (by simp)) with h | h
  · rw [h]
    exact hn
  · exact hl _ h

theorem Wf.live_prev_iterate (hw : Wf st) {n : NodeId} (hn : st.Live n) (k : Nat) :
    st.Live (st.mdb.prev^[k] n) := by
  induction k with
  | zero => exact hn
  | succ k ih =>
    rw [Function.iterate_succ_apply']
    exact (hw.live_prev ih).1

theorem Wf.next_prev_iterate (hw : Wf st) {n : NodeId} (hn : st.Live n) (a b : Nat) :
    st.mdb.next^[a] (st.mdb.prev^[a + b] n) = st.mdb.prev^[b] n := by
  induction a with
  | zero => simp
  | succ a ih =>
    rw [Function.iterate_succ_apply, show a + 1 + b = (a + b) + 1 by omega,
      Function.iterate_succ_apply', (hw.live_prev (hw.live_prev_iterate hn _)).2]
    exact ih

section Nested

variable (hw : Wf st) (hf : Forest st) (hr : Rising st) (hn : Nested st)

include hr hn

theorem Nested.run {c : NodeId} (hc : st.Live c) :
    ∃ A B, Run st c A B ∧ ∀ x, x ∈ A ↔ st.Live x ∧ Derived st x c := by
  obtain ⟨A, B, hring, hA, hstop⟩ := hn c hc
  exact ⟨A, B, ⟨hring, fun x hx => hr.lt ((hA x).mp hx).2, hstop⟩, hA⟩

theorem Nested.inRun_iff {c x : NodeId} (hc : st.Live c) :
    InRun st c x ↔ st.Live x ∧ Derived st x c := by
  obtain ⟨A, B, hrun, hA⟩ := hn.run hr hc
  rw [← hrun.mem_iff, hA]

end Nested

theorem Parent.chain_iff (hp : Parent st) (hf : Forest st) {x n : NodeId} (hx : st.Live x)
    (hn : st.Live n) : PrntChain st x n ↔ Derived st x n := by
  constructor
  · intro h
    induction h using Relation.TransGen.head_induction_on with
    | single h => exact hp.derived _ _ hx h
    | head h _ ih => exact (hp.derived _ _ hx h).trans (ih (hp.live _ _ hx h))
  · -- by the age of `x`: its parent is older
    intro h
    induction x using Nat.strong_induction_on with
    | _ x ih =>
      cases hxp : (st.mdb x).prnt with
      | none => exact absurd h (hp.root x n hx hxp hn)
      | some p =>
        rcases hp.nearest x p n hx hxp hn h with rfl | hpn
        · exact .single hxp
        · exact .head hxp
            (ih p (hf.lt (hp.derived x p hx hxp)) (hp.live x p hx hxp) hpn)

theorem Parent.nearest_prev (hp : Parent st) (hn : Nested st) (hr : Rising st) (hf : Forest st)
    (hw : Wf st) {x p : NodeId} (hx : st.Live x) (hxp : (st.mdb x).prnt = some p) :
    ∃ k, st.mdb.prev^[k + 1] x = p ∧ (st.mdb p).dpth < (st.mdb x).dpth ∧
      ∀ j < k, (st.mdb x).dpth ≤ (st.mdb (st.mdb.prev^[j + 1] x)).dpth := by
  have hlp := hp.live x p hx hxp
  have hd := hp.derived x p hx hxp
  obtain ⟨A, B, hrun, hA⟩ := hn.run hr hlp
  obtain ⟨u, v, rfl⟩ := List.append_of_mem ((hA x).mpr ⟨hx, hd⟩)
  have hring := hrun.ring
  rw [List.append_assoc, List.cons_append] at hring
  have hpath := (path_append.mp hring.path).1
  refine ⟨u.length, hpath.prev_iterate, hr.lt hd, fun j hj => ?_⟩
  -- a shallower node in between would have `x` in its run
  induction j using Nat.strong_induction_on with
  | _ j ih =>
    by_contra hlt
    have hlt := Nat.lt_of_not_le hlt
    have hy := hpath.prev_iterate_mem hj
    have hly := hw.live_prev_iterate hx (j + 1)
    have hyp := ((hA _).mp (List.mem_append_left _ hy)).2
    have hinrun : InRun st (st.mdb.prev^[j + 1] x) x := by
      refine ⟨j, ?_, fun i hi => ?_⟩
      · simpa using hw.next_prev_iterate hx (j + 1) 0
      · have hstep := hw.next_prev_iterate hx (i + 1) (j - i)
        rw [show i + 1 + (j - i) = j + 1 by omega] at hstep
        rw [hstep]
        cases hji : j - i with
        | zero => exact hlt
        | succ d => exact hlt.trans_le (ih d (by omega) (by omega))
    have hxy := ((hn.inRun_iff hr hly).mp hinrun).2
    rcases hp.nearest x p _ hx hxp hly hxy with e | hpy
    · rw [e] at hyp
      exact hf.irrefl p hyp
    · exact hf.irrefl p (hpy.trans hyp)

/-- The conditions under which depths, parents and lists stay in step. -/
def GrantsInOrder (st : State σ) (m : NodeId) : Prop := NoWrap st m ∧ Tight st m

def LiftsInOrder (st : State σ) (m : NodeId) : Prop := OneChild st m ∧ Level st m

instance (st : State σ) (m : NodeId) : Decidable (GrantsInOrder st m) :=
  inferInstanceAs (Decidable (_ ∧ _))

instance (st : State σ) (m : NodeId) : Decidable (LiftsInOrder st m) :=
  inferInstanceAs (Decidable (_ ∧ _))

theorem Stripped.prev_eq {D : List NodeId} {r : Mword} (h : Stripped st st' D r) (x : NodeId) :
    st'.mdb.prev x = st.mdb.prev x := by
  unfold Heap.prev
  rw [h.shape x]

theorem stable_oneChild : Stable (σ := σ) OneChild := by
  intro st st' D r m h hone
  have hprnt : ∀ x, (st'.mdb x).prnt = (st.mdb x).prnt := by
    intro x
    rw [h.shape x]
  unfold OneChild
  rw [(h.natural_order m).2, hprnt]
  refine ⟨hone.1, fun x hlt hx hxp => ?_⟩
  rw [hprnt] at hxp
  exact hone.2 x (by rwa [h.fresh] at hlt) ((h.live_iff x).mp hx) hxp

theorem stable_level : Stable (σ := σ) Level := by
  intro st st' D r m h hlev k hlt hk
  rw [h.fresh] at hlt
  have hprev : st'.mdb.prev = st.mdb.prev := funext h.prev_eq
  rw [(h.natural_order m).2, hprev, (h.natural_order _).1, (h.natural_order _).1]
  apply hlev k hlt
  intro j hj
  have := hk j hj
  rwa [hprev, (h.natural_order _).1, (h.natural_order _).1] at this

theorem stable_liftsInOrder : Stable (σ := σ) LiftsInOrder := by
  intro st st' D r m h hl
  exact ⟨stable_oneChild st st' D r m h hl.1, stable_level st st' D r m h hl.2⟩

theorem reach_preorderLists (hE : S.Frame E)
    (h : Reach S E GrantsInOrder LiftsInOrder (fun _ _ => True) st) : PreorderLists st := by
  have hL := stable_liftsInOrder (σ := σ)
  obtain ⟨hw, hf, -, hr, hp⟩ := h.tidy hE hL (fun _ _ h => h.1) (fun _ _ h => h.1)
  have hn := h.nested hE hL (fun _ _ h => h) (fun _ _ h => h.2)
  constructor
  · exact hw.ring
  · exact hp.live
  · intro n p hx hxp
    exact hp.nearest_prev hn hr hf hw hx hxp
  · intro n x hn' hx
    rw [hp.chain_iff hf hx hn', hn.inRun_iff hr hn']
    exact ⟨fun h => ⟨hx, h⟩, fun h => h.2⟩

/-- A chain of three nodes whose middle one `revoke` lifts out. -/
def liftOneChild : List Op :=
  [.insertRoot 1 0 0 4 0x1f 0, .delegate 2 1 0 0 4 7 0, .delegate 3 2 0 0 3 7 0,
    .revoke 2 0 4 0x1f true true]

theorem reach_preorderLists_liftOneChild :
    ∃ st, execAll bareSpace 10 liftOneChild (boot ()) = some st ∧
      ((st.mdb 2).prnt, decide (st.Live 1)) = (some 0, false) ∧ PreorderLists st := by
  have hrun : (execAll bareSpace 10 liftOneChild (boot ())).map
      (fun st => ((st.mdb 2).prnt, decide (st.Live 1))) = some (some 0, false) := by
    decide +kernel
  obtain ⟨st, hst, hval⟩ := Option.map_eq_some_iff.mp hrun
  exact ⟨st, hst, hval, reach_preorderLists bareSpace_frame
    (Reach.execAll (.boot ()) (by decide +kernel) hst)⟩

/-- Two children behind a node that `revoke` lifts out of the list: the second
one keeps pointing at it. -/
def liftTwoChildren : List Op :=
  [.insertRoot 1 0 0 4 0x1f 0, .delegate 2 1 0 0 4 7 0, .delegate 3 2 0 0 3 7 0,
    .delegate 3 2 8 8 3 7 0, .revoke 2 0 4 0x1f true true]

theorem liftTwoChildren_stale :
    ¬∀ st, AnyReach bareSpace (fun _ _ => True) st → PreorderLists st := by
  intro hall
  have hrun : (execAll bareSpace 10 liftTwoChildren (boot ())).map
      (fun st => (decide (st.Live 2), (st.mdb 2).prnt, decide (st.Live 1))) =
        some (true, some 1, false) := by decide +kernel
  obtain ⟨st, hst, hval⟩ := Option.map_eq_some_iff.mp hrun
  simp only [Prod.mk.injEq, decide_eq_true_eq, decide_eq_false_iff_not] at hval
  have hreach : AnyReach bareSpace (fun _ _ => True) st :=
    AnyReach.execAll (.boot ()) (by decide) hst
  exact hval.2.2 ((hall st hreach).prnt_live 2 1 hval.1 hval.2.1)

end Tukija.Pd
