import Tukija.Pd.Derivation

/-! Depths and parent pointers: under which conditions they describe the
derivation of the nodes. -/
namespace Tukija.Pd

open Tukija.Lib.Word Tukija.Lib.Ring Tukija.Mapdb

variable {σ : Type} {S : SpaceOps σ} {E : σ → σ → Prop} {st st' : State σ}
  {G L U : State σ → NodeId → Prop}

/-- The depth of a child of `m` fits its 16 bits. -/
def NoWrap (st : State σ) (m : NodeId) : Prop := (st.mdb m).dpth + 1 < 2 ^ 16

/-- The node behind `m` is at most one level deeper than `m`. -/
def Tight (st : State σ) (m : NodeId) : Prop :=
  (st.mdb (st.mdb.next m)).dpth ≤ (st.mdb m).dpth + 1

/-- The successor of `m` is its only child. -/
def OneChild (st : State σ) (m : NodeId) : Prop :=
  (st.mdb (st.mdb.next m)).prnt = some m ∧
    ∀ x < st.fresh, st.Live x → (st.mdb x).prnt = some m → x = st.mdb.next m

/-- Walking back from `m` over nodes that are no shallower than `m`, none is
shallower than the successor of `m`. -/
def Level (st : State σ) (m : NodeId) : Prop :=
  ∀ k < st.fresh, (∀ j ≤ k, st.mdb.prev^[j + 1] m ≠ m ∧
      (st.mdb m).dpth ≤ (st.mdb (st.mdb.prev^[j + 1] m)).dpth) →
    (st.mdb (st.mdb.next m)).dpth ≤ (st.mdb (st.mdb.prev^[k + 1] m)).dpth

instance (st : State σ) (m : NodeId) : Decidable (NoWrap st m) :=
  inferInstanceAs (Decidable (_ < _))

instance (st : State σ) (m : NodeId) : Decidable (Tight st m) :=
  inferInstanceAs (Decidable (_ ≤ _))

instance (st : State σ) (m : NodeId) : Decidable (OneChild st m) :=
  inferInstanceAs (Decidable (_ ∧ ∀ x < st.fresh, _))

instance (st : State σ) (m : NodeId) : Decidable (Level st m) :=
  inferInstanceAs (Decidable (∀ k < st.fresh, (∀ j ≤ k, _ ∧ _) → _))

def Rising (st : State σ) : Prop :=
  ∀ x m, st.orig x = some m → (st.mdb m).dpth < (st.mdb x).dpth

theorem Rising.lt (hr : Rising st) {x c : NodeId} (h : Derived st x c) :
    (st.mdb c).dpth < (st.mdb x).dpth := by
  induction h with
  | single h => exact hr _ _ h
  | tail _ h ih => exact (hr _ _ h).trans ih

/-- `prnt` is the nearest node in the derivation that is still there. -/
structure Parent (st : State σ) : Prop where
  live : ∀ x p, st.Live x → (st.mdb x).prnt = some p → st.Live p
  derived : ∀ x p, st.Live x → (st.mdb x).prnt = some p → Derived st x p
  nearest : ∀ x p q, st.Live x → (st.mdb x).prnt = some p → st.Live q → Derived st x q →
    q = p ∨ Derived st p q
  root : ∀ x q, st.Live x → (st.mdb x).prnt = none → st.Live q → ¬Derived st x q

/-- The node behind everything derived from `c` is no deeper than `c`. -/
def Nested (st : State σ) : Prop :=
  Stretch st fun c y => (st.mdb y).dpth ≤ (st.mdb c).dpth

theorem Effect.same (h : Effect S E G L U st st') {x : NodeId} (hx : x < st.fresh) :
    SameNode (st'.mdb x) (st.mdb x) := by
  cases h with
  | quiet h =>
    rw [h.mdb x hx]
    exact SameNode.refl _
  | granted m n _ h => exact (h.old x hx).1
  | rooted n h => exact (h.old x hx).1
  | demoted n r h _ => exact (h.node x).1
  | stripped n _ h _ => exact (h.node x).1
  | unlinked n h => exact (h.node x).1
  | lifted n _ _ h => exact (h.node x).1

theorem Effect.rising (h : Effect S E G L U st st') (hG : ∀ st m, G st m → NoWrap st m)
    (hr : Rising st) (hf : Forest st) (hw : Wf st) : Rising st' := by
  have hold : ∀ x m, st.orig x = some m → (st'.mdb m).dpth < (st'.mdb x).dpth := by
    intro x m hx
    have hlt := hf.orig_lt x m hx
    rw [(h.same hlt.2).dpth, (h.same (hlt.1.trans hlt.2)).dpth]
    exact hr x m hx
  intro x c hx
  cases h with
  | quiet h => exact hold x c (by rwa [h.orig] at hx)
  | granted m n hg h =>
    by_cases hxn : x = n
    · subst hxn
      rw [h.orig, Function.update_self] at hx
      obtain rfl := Option.some.inj hx
      have hnw : (st.mdb m).dpth + 1 < 2 ^ 16 := hG st m hg
      rw [h.dpth, (h.old m (hw.lt h.live_m)).1.dpth, Nat.mod_eq_of_lt hnw]
      exact Nat.lt_succ_self _
    · rw [h.orig, Function.update_of_ne hxn] at hx
      exact hold x c hx
  | rooted n h => exact hold x c (by rwa [h.orig] at hx)
  | demoted n r h _ => exact hold x c (by rwa [h.orig] at hx)
  | stripped n _ h _ => exact hold x c (by rwa [h.orig] at hx)
  | unlinked n h => exact hold x c (by rwa [h.orig] at hx)
  | lifted n _ _ h => exact hold x c (by rwa [h.orig] at hx)

theorem Rising.boot (space : σ) : Rising (boot space) := by
  intro x m h
  simp [Pd.boot] at h

theorem Stretch.not_derived_of_leaf {P : NodeId → NodeId → Prop} (hs : Stretch st P)
    (hr : Rising st) {n : NodeId} (hn : st.Live n)
    (hd : (st.mdb (st.mdb.next n)).dpth ≤ (st.mdb n).dpth) {x : NodeId} (hx : st.Live x) :
    ¬Derived st x n := by
  intro hxn
  obtain ⟨A, B, hring, hA, -⟩ := hs n hn
  have hxA := (hA x).mpr ⟨hx, hxn⟩
  cases A with
  | nil => simp at hxA
  | cons y A =>
    have hnext : st.mdb.next n = y := hring.path.1.1
    have hy := hr.lt ((hA y).mp (by simp)).2
    rw [hnext] at hd
    exact absurd hy (Nat.not_lt.mpr hd)

section Parent

variable {m n : NodeId}

theorem Parent.congr (hp : Parent st) (hl : ∀ x, st'.Live x ↔ st.Live x) (ho : st'.orig = st.orig)
    (hprnt : ∀ x, st.Live x → (st'.mdb x).prnt = (st.mdb x).prnt) : Parent st' := by
  have hd := derived_congr ho
  constructor
  · intro x p hx hxp
    rw [hl] at hx ⊢
    rw [hprnt x hx] at hxp
    exact hp.live x p hx hxp
  · intro x p hx hxp
    rw [hl] at hx
    rw [hprnt x hx] at hxp
    rw [hd]
    exact hp.derived x p hx hxp
  · intro x p q hx hxp hq hxq
    rw [hl] at hx hq
    rw [hprnt x hx] at hxp
    rw [hd] at hxq ⊢
    exact hp.nearest x p q hx hxp hq hxq
  · intro x q hx hxp hq
    rw [hl] at hx hq
    rw [hprnt x hx] at hxp
    rw [hd]
    exact hp.root x q hx hxp hq

theorem Quiet.parent (h : Quiet E st st') (hp : Parent st) (hw : Wf st) : Parent st' := by
  apply hp.congr (h.live hw) h.orig
  intro x hx
  rw [h.mdb x (hw.lt hx)]

theorem Demoted.parent {r : Mword} (h : Demoted st st' n r) (hp : Parent st) : Parent st' :=
  hp.congr h.live_iff h.orig fun x _ => (h.node x).2.2.2

theorem Granted.parent (h : Granted S E st st' m n) (hp : Parent st) (hf : Forest st) (hw : Wf st) :
    Parent st' := by
  have hm := hw.lt h.live_m
  have hprnt : ∀ x, st.Live x → (st'.mdb x).prnt = (st.mdb x).prnt :=
    fun x hx => (h.old x (hw.lt hx)).2.2
  have hold : ∀ {x}, st.Live x → ∀ q, Derived st' x q ↔ Derived st x q :=
    fun hx => h.derived_old hf (hw.lt hx)
  -- what a node is derived from was there before
  have hq : ∀ {x q}, st'.Live x → st'.Live q → Derived st' x q → st.Live q := by
    intro x q hx hq hd
    rcases (h.live hw q).mp hq with rfl | hq
    · exact absurd hd (h.not_derived hf hw hx)
    · exact hq
  constructor
  · intro x p hx hxp
    rcases (h.live hw x).mp hx with rfl | hx
    · rw [h.prnt] at hxp
      obtain rfl := Option.some.inj hxp
      exact (h.live hw m).mpr (Or.inr h.live_m)
    · rw [hprnt x hx] at hxp
      exact (h.live hw p).mpr (Or.inr (hp.live x p hx hxp))
  · intro x p hx hxp
    rcases (h.live hw x).mp hx with rfl | hx
    · rw [h.prnt] at hxp
      obtain rfl := Option.some.inj hxp
      exact (h.derived_new hf hw m).mpr (Or.inl rfl)
    · rw [hprnt x hx] at hxp
      rw [hold hx]
      exact hp.derived x p hx hxp
  · intro x p q hx hxp hlq hxq
    have hq' := hq hx hlq hxq
    rcases (h.live hw x).mp hx with rfl | hx
    · rw [h.prnt] at hxp
      obtain rfl := Option.some.inj hxp
      rcases (h.derived_new hf hw q).mp hxq with e | hd
      · exact Or.inl e
      · exact Or.inr ((hold h.live_m q).mpr hd)
    · rw [hprnt x hx] at hxp
      rw [hold hx] at hxq
      rcases hp.nearest x p q hx hxp hq' hxq with e | hd
      · exact Or.inl e
      · exact Or.inr ((hold (hp.live x p hx hxp) q).mpr hd)
  · intro x q hx hxp hlq hxq
    have hq' := hq hx hlq hxq
    rcases (h.live hw x).mp hx with rfl | hx
    · rw [h.prnt] at hxp
      simp at hxp
    · rw [hprnt x hx] at hxp
      rw [hold hx] at hxq
      exact hp.root x q hx hxp hq' hxq

theorem Rooted.parent (h : Rooted E st st' n) (hp : Parent st) (hf : Forest st) (hw : Wf st) :
    Parent st' := by
  have hprnt : ∀ x, st.Live x → (st'.mdb x).prnt = (st.mdb x).prnt :=
    fun x hx => (h.old x (hw.lt hx)).2.2
  have hd := derived_congr h.orig
  have hnew : ∀ {x p}, st'.Live x → (st'.mdb x).prnt = some p → st.Live x := by
    intro x p hx hxp
    rcases (h.live hw x).mp hx with rfl | hx
    · rw [h.prnt] at hxp
      simp at hxp
    · exact hx
  constructor
  · intro x p hx hxp
    have hx' := hnew hx hxp
    rw [hprnt x hx'] at hxp
    exact (h.live hw p).mpr (Or.inr (hp.live x p hx' hxp))
  · intro x p hx hxp
    have hx' := hnew hx hxp
    rw [hprnt x hx'] at hxp
    rw [hd]
    exact hp.derived x p hx' hxp
  · intro x p q hx hxp hq hxq
    have hx' := hnew hx hxp
    rw [hprnt x hx'] at hxp
    rcases (h.live hw q).mp hq with rfl | hq
    · exact absurd hxq (h.not_derived hf x).1
    · rw [hd] at hxq ⊢
      exact hp.nearest x p q hx' hxp hq hxq
  · intro x q hx hxp hq hxq
    rcases (h.live hw x).mp hx with rfl | hx
    · exact (h.not_derived hf q).2 hxq
    · rcases (h.live hw q).mp hq with rfl | hq
      · exact (h.not_derived hf x).1 hxq
      · rw [hprnt x hx] at hxp
        rw [hd] at hxq
        exact hp.root x q hx hxp hq hxq

theorem Dropped.parent_leaf {P : NodeId → NodeId → Prop} (h : Dropped true st st' n)
    (hp : Parent st) (hs : Stretch st P) (hr : Rising st) (hw : Wf st) : Parent st' := by
  have hprnt : ∀ x, (st'.mdb x).prnt = (st.mdb x).prnt := by
    intro x
    rw [h.prnt]
    simp
  have hd := derived_congr h.orig
  have hl := h.live_iff hw
  constructor
  · intro x p hx hxp
    rw [hl] at hx ⊢
    rw [hprnt] at hxp
    refine ⟨?_, hp.live x p hx.2 hxp⟩
    rintro rfl
    exact hs.not_derived_of_leaf hr h.live (h.leaf_dpth rfl) hx.2 (hp.derived x p hx.2 hxp)
  · intro x p hx hxp
    rw [hl] at hx
    rw [hprnt] at hxp
    rw [hd]
    exact hp.derived x p hx.2 hxp
  · intro x p q hx hxp hq hxq
    rw [hl] at hx hq
    rw [hprnt] at hxp
    rw [hd] at hxq ⊢
    exact hp.nearest x p q hx.2 hxp hq.2 hxq
  · intro x q hx hxp hq
    rw [hl] at hx hq
    rw [hprnt] at hxp
    rw [hd]
    exact hp.root x q hx.2 hxp hq.2

theorem Dropped.parent_lift (h : Dropped false st st' n) (hp : Parent st) (hf : Forest st)
    (hw : Wf st) (hone : OneChild st n) : Parent st' := by
  have hd := derived_congr h.orig
  have hl := h.live_iff hw
  have hcn : Derived st (st.mdb.next n) n := hp.derived _ n (hw.live_next h.live) hone.1
  have hchild : (st'.mdb (st.mdb.next n)).prnt = (st.mdb n).prnt := by
    rw [h.prnt]
    simp
  have hother : ∀ x, x ≠ st.mdb.next n → (st'.mdb x).prnt = (st.mdb x).prnt := by
    intro x hx
    rw [h.prnt]
    simp [hx]
  constructor
  · intro x p hx hxp
    rw [hl] at hx ⊢
    by_cases hxc : x = st.mdb.next n
    · subst hxc
      rw [hchild] at hxp
      refine ⟨?_, hp.live n p h.live hxp⟩
      rintro rfl
      exact hf.irrefl p (hp.derived p p h.live hxp)
    · rw [hother x hxc] at hxp
      refine ⟨?_, hp.live x p hx.2 hxp⟩
      rintro rfl
      exact hxc (hone.2 x (hw.lt hx.2) hx.2 hxp)
  · intro x p hx hxp
    rw [hl] at hx
    rw [hd]
    by_cases hxc : x = st.mdb.next n
    · subst hxc
      rw [hchild] at hxp
      exact hcn.trans (hp.derived n p h.live hxp)
    · rw [hother x hxc] at hxp
      exact hp.derived x p hx.2 hxp
  · intro x p q hx hxp hq hxq
    rw [hl] at hx hq
    rw [hd] at hxq ⊢
    by_cases hxc : x = st.mdb.next n
    · subst hxc
      rw [hchild] at hxp
      rcases hp.nearest _ n q hx.2 hone.1 hq.2 hxq with e | hnq
      · exact absurd e hq.1
      · exact hp.nearest n p q h.live hxp hq.2 hnq
    · rw [hother x hxc] at hxp
      exact hp.nearest x p q hx.2 hxp hq.2 hxq
  · intro x q hx hxp hq
    rw [hl] at hx hq
    rw [hd]
    by_cases hxc : x = st.mdb.next n
    · subst hxc
      rw [hchild] at hxp
      intro hxq
      rcases hp.nearest _ n q hx.2 hone.1 hq.2 hxq with e | hnq
      · exact hq.1 e
      · exact hp.root n q h.live hxp hq.2 hnq
    · rw [hother x hxc] at hxp
      exact hp.root x q hx.2 hxp hq.2

theorem Parent.boot (space : σ) : Parent (Pd.boot space) := by
  constructor
  all_goals
    intros
    simp_all [Pd.boot, State.Live]

theorem Effect.parent {P : NodeId → NodeId → Prop} (h : Effect S E G L U st st')
    (hL : ∀ st m, L st m → OneChild st m) (hp : Parent st) (hs : Stretch st P) (hr : Rising st)
    (hf : Forest st) (hw : Wf st) : Parent st' := by
  cases h with
  | quiet h => exact h.parent hp hw
  | granted m n _ h => exact h.parent hp hf hw
  | rooted n h => exact h.parent hp hf hw
  | demoted n r h _ => exact h.parent hp
  | stripped n _ h _ => exact h.parent hp
  | unlinked n h => exact h.parent_leaf hp hs hr hw
  | lifted n _ hl h => exact h.parent_lift hp hf hw (hL st n hl)

end Parent

section Nested

/-- A lift under which the successor of the lifted node closes the same
stretches. -/
theorem Dropped.nested_lift {n : NodeId} (h : Dropped false st st' n) (hs : Nested st)
    (hr : Rising st) (hw : Wf st) (hlev : Level st n) : Nested st' := by
  apply h.stretch hs hw
  · intro c y hcy
    rw [(h.node c).1.dpth, (h.node y).1.dpth]
    exact hcy
  · intro c A hc hp hA hnd hlt hn hcn
    rw [(h.node c).1.dpth, (h.node _).1.dpth]
    have hlen : A.length < st.fresh := by
      have hsub : c :: A ⊆ List.range st.fresh := fun x hx => List.mem_range.mpr (hlt x hx)
      have := (List.subperm_of_subset hnd hsub).length_le
      rw [List.length_range] at this
      exact this
    have hall : ∀ x ∈ c :: A, x ≠ n ∧ (st.mdb n).dpth ≤ (st.mdb x).dpth := by
      intro x hx
      refine ⟨fun e => hn (e ▸ hx), ?_⟩
      rcases List.mem_cons.mp hx with rfl | hx
      · exact hcn
      · exact hcn.trans (hr.lt (hA x hx)).le
    have hback : ∀ j ≤ A.length, st.mdb.prev^[j + 1] n ∈ c :: A := by
      intro j hj
      rcases Nat.lt_or_eq_of_le hj with hlt | rfl
      · exact List.mem_cons_of_mem _ (hp.prev_iterate_mem hlt)
      · rw [hp.prev_iterate]
        exact List.mem_cons_self
    have := hlev A.length hlen (fun j hj => hall _ (hback j hj))
    rwa [hp.prev_iterate] at this

theorem Effect.nested (h : Effect S E G L U st st') (hG : ∀ st m, G st m → NoWrap st m ∧ Tight st m)
    (hL : ∀ st m, L st m → Level st m) (hs : Nested st) (hr : Rising st) (hf : Forest st)
    (hw : Wf st) : Nested st' := by
  have hold : ∀ c y, st.Live c → st.Live y → (st.mdb y).dpth ≤ (st.mdb c).dpth →
      (st'.mdb y).dpth ≤ (st'.mdb c).dpth := by
    intro c y hc hy hle
    rw [(h.same (hw.lt hc)).dpth, (h.same (hw.lt hy)).dpth]
    exact hle
  cases h with
  | quiet h => exact h.stretch hs hw hold
  | granted m n hg h =>
    apply h.stretch hs hf hw hold
    obtain ⟨hnw, ht⟩ := hG st m hg
    have hq := hw.lt (hw.live_next h.live_m)
    rw [h.dpth, (h.old _ hq).1.dpth, Nat.mod_eq_of_lt hnw]
    exact ht
  | rooted n h => exact h.stretch hs hf hw hold
  | demoted n r h _ =>
    apply h.stretch hs
    intro c y hcy
    rw [(h.node c).1.dpth, (h.node y).1.dpth]
    exact hcy
  | stripped n _ h _ =>
    apply h.stretch hs
    intro c y hcy
    rw [(h.node c).1.dpth, (h.node y).1.dpth]
    exact hcy
  | unlinked n h =>
    apply h.stretch hs hw
    · intro c y hcy
      rw [(h.node c).1.dpth, (h.node y).1.dpth]
      exact hcy
    · intro c A _ _ _ _ _ _ hcn
      rw [(h.node c).1.dpth, (h.node _).1.dpth]
      exact (h.leaf_dpth rfl).trans hcn
  | lifted n _ hl h => exact h.nested_lift hs hr hw (hL st n hl)

end Nested

/-- What a database is like whose derivation `prnt` and `dpth` agree with. -/
structure Tidy (st : State σ) : Prop where
  forest : Forest st
  stretch : Stretch st fun _ _ => True
  rising : Rising st
  parent : Parent st

theorem Tidy.boot (space : σ) : Tidy (Pd.boot space) :=
  ⟨Forest.boot space, Stretch.boot space _, Rising.boot space, Parent.boot space⟩

theorem Effect.tidy (h : Effect S E G L U st st') (hG : ∀ st m, G st m → NoWrap st m)
    (hL : ∀ st m, L st m → OneChild st m) (ht : Tidy st) (hw : Wf st) : Tidy st' where
  forest := h.forest ht.forest hw
  stretch := h.stretch ht.stretch ht.forest hw
  rising := h.rising hG ht.rising ht.forest hw
  parent := h.parent hL ht.parent ht.stretch ht.rising ht.forest hw

section Histories

variable (hE : S.Frame E) (hL : Stable L)

include hE hL

theorem Reach.derivation (h : Reach S E G L U st) :
    Wf st ∧ Forest st ∧ Stretch st fun _ _ => True := by
  apply h.invariant hE hL (fun space => ⟨Forest.boot space, Stretch.boot space _⟩)
  intro st st' hw hi he
  exact ⟨he.forest hi.1 hw, he.stretch hi.2 hi.1 hw⟩

theorem Reach.rising (hG : ∀ st m, G st m → NoWrap st m) (h : Reach S E G L U st) : Rising st := by
  have := h.invariant (I := fun st => Forest st ∧ Rising st) hE hL
    (fun space => ⟨Forest.boot space, Rising.boot space⟩)
    (fun st st' hw hi he => ⟨he.forest hi.1 hw, he.rising hG hi.2 hi.1 hw⟩)
  exact this.2.2

theorem Reach.tidy (hG : ∀ st m, G st m → NoWrap st m) (hL' : ∀ st m, L st m → OneChild st m)
    (h : Reach S E G L U st) : Wf st ∧ Tidy st :=
  h.invariant hE hL Tidy.boot fun _ _ hw hi he => he.tidy hG hL' hi hw

theorem Reach.nested (hG : ∀ st m, G st m → NoWrap st m ∧ Tight st m)
    (hL' : ∀ st m, L st m → Level st m) (h : Reach S E G L U st) : Nested st := by
  have := h.invariant (I := fun st => Forest st ∧ Rising st ∧ Nested st) hE hL
    (fun space => ⟨Forest.boot space, Rising.boot space, Stretch.boot space _⟩)
    (fun st st' hw hi he => ⟨he.forest hi.1 hw, he.rising (fun st m h => (hG st m h).1) hi.2.1 hi.1 hw,
      he.nested hG hL' hi.2.2 hi.2.1 hi.1 hw⟩)
  exact this.2.2.2

end Histories

end Tukija.Pd
