import Tukija.Pd.Runs

/-! Which node a node was delegated from, over any number of steps and across
nodes that are gone, and where the lists keep what was derived from a node. -/
namespace Tukija.Pd

open Tukija.Lib.Word Tukija.Lib.Ring Tukija.Mapdb

variable {σ : Type} {S : SpaceOps σ} {E : σ → σ → Prop} {st st' : State σ}
  {G L U : State σ → NodeId → Prop}

/-- `x` was delegated from `m`, directly or through other nodes. -/
def Derived (st : State σ) : NodeId → NodeId → Prop :=
  Relation.TransGen fun x m => st.orig x = some m

theorem Derived.trans {x y z : NodeId} (h : Derived st x y) (h' : Derived st y z) :
    Derived st x z :=
  Relation.TransGen.trans h h'

theorem derived_congr (h : st'.orig = st.orig) (x c : NodeId) :
    Derived st' x c ↔ Derived st x c := by
  unfold Derived
  rw [h]

/-- Nodes are derived from older ones, and from a larger physical range. -/
structure Forest (st : State σ) : Prop where
  orig_lt : ∀ x m, st.orig x = some m → m < x ∧ x < st.fresh
  within : ∀ x m, st.orig x = some m → Within (st.mdb x) (st.mdb m)

/-- What was derived from a node `c` stands in one stretch right behind it; `P`
holds of `c` and the node behind the stretch. -/
def Stretch (st : State σ) (P : NodeId → NodeId → Prop) : Prop :=
  ∀ c, st.Live c → ∃ A B, st.RingAt c (A ++ B) ∧
    (∀ x, x ∈ A ↔ st.Live x ∧ Derived st x c) ∧ ∀ y ∈ B.head?, P c y

theorem Forest.lt (hf : Forest st) {x c : NodeId} (h : Derived st x c) : c < x := by
  induction h with
  | single h => exact (hf.orig_lt _ _ h).1
  | tail _ h ih => exact (hf.orig_lt _ _ h).1.trans ih

theorem Forest.irrefl (hf : Forest st) (x : NodeId) : ¬Derived st x x :=
  fun h => lt_irrefl _ (hf.lt h)

theorem Within.refl (x : Mdb) : Within x x := ⟨le_rfl, SameBlock.refl _ _⟩

theorem Within.trans {x y z : Mdb} (h : Within x y) (h' : Within y z) : Within x z :=
  ⟨h.1.trans h'.1, (h.2.mono h'.1).trans h'.2⟩

theorem Forest.within_of_derived (hf : Forest st) {x c : NodeId} (h : Derived st x c) :
    Within (st.mdb x) (st.mdb c) := by
  induction h with
  | single h => exact hf.within _ _ h
  | tail _ h ih => exact ih.trans (hf.within _ _ h)

section Granted

variable {m n : NodeId}

theorem Granted.orig_old (h : Granted S E st st' m n) {x : NodeId} (hx : x < st.fresh) :
    st'.orig x = st.orig x := by
  rw [h.orig, Function.update_of_ne]
  rw [h.fresh]
  exact hx.ne

theorem Granted.derived_old (h : Granted S E st st' m n) (hf : Forest st) {x : NodeId}
    (hx : x < st.fresh) (c : NodeId) : Derived st' x c ↔ Derived st x c := by
  constructor
  · intro hd
    revert hx
    induction hd using Relation.TransGen.head_induction_on with
    | single hac =>
      intro hx
      rw [h.orig_old hx] at hac
      exact .single hac
    | head hac _ ih =>
      intro hx
      rw [h.orig_old hx] at hac
      exact .head hac (ih ((hf.orig_lt _ _ hac).1.trans hx))
  · intro hd
    have hle : (fun a b => st.orig a = some b) ≤ (fun a b => st'.orig a = some b) := by
      intro a b hab
      rw [h.orig_old (hf.orig_lt _ _ hab).2]
      exact hab
    exact Relation.TransGen.mono hle x c hd

theorem Granted.derived_new (h : Granted S E st st' m n) (hf : Forest st) (hw : Wf st)
    (c : NodeId) : Derived st' n c ↔ c = m ∨ Derived st m c := by
  have hn : st'.orig n = some m := by
    rw [h.orig, Function.update_self]
  constructor
  · intro hd
    obtain ⟨b, hb, hbc⟩ := Relation.TransGen.head'_iff.mp hd
    obtain rfl := Option.some.inj (hn.symm.trans hb)
    rcases Relation.reflTransGen_iff_eq_or_transGen.mp hbc with rfl | h'
    · exact Or.inl rfl
    · exact Or.inr ((h.derived_old hf (hw.lt h.live_m) c).mp h')
  · rintro (rfl | hd)
    · exact .single hn
    · exact .head hn ((h.derived_old hf (hw.lt h.live_m) c).mpr hd)

theorem Granted.not_derived (h : Granted S E st st' m n) (hf : Forest st) (hw : Wf st) {x : NodeId}
    (hx : st'.Live x) : ¬Derived st' x n := by
  intro hd
  rcases (h.live hw x).mp hx with rfl | hx
  · rw [h.derived_new hf hw] at hd
    rcases hd with rfl | hd
    · exact h.not_live hw h.live_m
    · have hlt := (hf.lt hd).trans (hw.lt h.live_m)
      rw [h.fresh] at hlt
      exact lt_irrefl _ hlt
  · have hlt := hw.lt hx
    rw [h.derived_old hf hlt] at hd
    have := (hf.lt hd).trans hlt
    rw [h.fresh] at this
    exact lt_irrefl _ this

theorem within_congr {x y x' y' : Mdb} (hx : SameNode x' x) (hy : SameNode y' y)
    (h : Within x y) : Within x' y' := by
  unfold Within at h ⊢
  rw [hx.order, hx.phys, hy.order, hy.phys]
  exact h

theorem Granted.forest (h : Granted S E st st' m n) (hf : Forest st) (hw : Wf st) : Forest st' where
  orig_lt x c hx := by
    by_cases hxn : x = n
    · subst hxn
      rw [h.orig, Function.update_self] at hx
      obtain rfl := Option.some.inj hx
      rw [h.fresh', h.fresh]
      exact ⟨hw.lt h.live_m, Nat.lt_succ_self _⟩
    · rw [h.orig, Function.update_of_ne hxn] at hx
      have := hf.orig_lt x c hx
      rw [h.fresh']
      exact ⟨this.1, Nat.lt_succ_of_lt this.2⟩
  within x c hx := by
    by_cases hxn : x = n
    · subst hxn
      rw [h.orig, Function.update_self] at hx
      obtain rfl := Option.some.inj hx
      exact within_congr (SameNode.refl _) (h.old _ (hw.lt h.live_m)).1 h.within
    · rw [h.orig, Function.update_of_ne hxn] at hx
      have hlt := hf.orig_lt x c hx
      exact within_congr (h.old x hlt.2).1 (h.old c (hlt.1.trans hlt.2)).1 (hf.within x c hx)

theorem Granted.stretch {P P' : NodeId → NodeId → Prop} (h : Granted S E st st' m n)
    (hs : Stretch st P) (hf : Forest st) (hw : Wf st)
    (hold : ∀ c y, st.Live c → st.Live y → P c y → P' c y) (hnew : P' n (st.mdb.next m)) :
    Stretch st' P' := by
  intro c hc
  obtain ⟨Am, Bm, hrm, hAm, hPm⟩ := hs m h.live_m
  have hhead : ∀ {c A B}, st.Live c → st.RingAt c (A ++ B) → (∀ y ∈ B.head?, P c y) →
      ∀ y ∈ B.head?, P' c y := by
    intro c A B hc hr hP y hy
    have hyB : y ∈ B := List.mem_of_mem_head? hy
    exact hold c y hc (hw.live_of_ring hc hr (by simp [hyB])) (hP y hy)
  rcases (h.live hw c).mp hc with rfl | hc'
  · -- the new node: nothing is derived from it
    refine ⟨[], Am ++ Bm ++ [m], h.ringAt_new hw hrm, fun x => ⟨fun hx => by simp at hx, ?_⟩, ?_⟩
    · rintro ⟨hx, hd⟩
      exact absurd hd (h.not_derived hf hw hx)
    · intro y hy
      have hq := hrm.next_eq
      rw [List.head?_eq_some_head (by simp)] at hy
      rw [← Option.some.inj hy, ← hq]
      exact hnew
  · have hcn : c ≠ n := by
      rintro rfl
      exact h.not_live hw hc'
    by_cases hcm : c = m
    · -- the node delegated from: the new one comes first
      subst hcm
      refine ⟨n :: Am, Bm, h.ringAt_self hw hrm, fun x => ?_, hhead hc' hrm hPm⟩
      rw [List.mem_cons, hAm, h.live hw]
      by_cases hxn : x = n
      · simp [hxn, h.derived_new hf hw]
      · constructor
        · rintro (e | ⟨hx, hd⟩)
          · exact absurd e hxn
          · exact ⟨Or.inr hx, (h.derived_old hf (hw.lt hx) c).mpr hd⟩
        · rintro ⟨e | hx, hd⟩
          · exact absurd e hxn
          · exact Or.inr ⟨hx, (h.derived_old hf (hw.lt hx) c).mp hd⟩
    · obtain ⟨A, B, hr, hA, hP⟩ := hs c hc'
      have hring := h.ringAt hw hc' hr hcm
      have hmem : ∀ x, x ≠ n → (x ∈ A ↔ st'.Live x ∧ Derived st' x c) := by
        intro x hxn
        rw [hA, h.live hw]
        constructor
        · rintro ⟨hx, hd⟩
          exact ⟨Or.inr hx, (h.derived_old hf (hw.lt hx) c).mpr hd⟩
        · rintro ⟨e | hx, hd⟩
          · exact absurd e hxn
          · exact ⟨hx, (h.derived_old hf (hw.lt hx) c).mp hd⟩
      have hnA : n ∉ A := fun hn => h.notMem_ring hw hc' hr (by simp [hn])
      by_cases hm : m ∈ A
      · obtain ⟨u, v, rfl⟩ := List.append_of_mem hm
        have hnd := hr.tail_nodup
        rw [List.append_assoc, List.cons_append] at hnd hring
        rw [insertBehind_append hnd] at hring
        refine ⟨u ++ m :: n :: v, B, by simpa using hring, fun x => ?_, hhead hc' hr hP⟩
        by_cases hxn : x = n
        · subst hxn
          have hd : Derived st' x c :=
            (h.derived_new hf hw c).mpr (Or.inr ((hA m).mp (by simp)).2)
          simp [(h.live hw x).mpr (Or.inl rfl), hd]
        · rw [← hmem x hxn]
          simp only [List.mem_append, List.mem_cons, hxn, false_or]
      · rw [insertBehind_append_of_notMem hm] at hring
        refine ⟨A, insertBehind m n B, hring, fun x => ?_, ?_⟩
        · by_cases hxn : x = n
          · subst hxn
            constructor
            · exact fun hx => absurd hx hnA
            · rintro ⟨-, hd⟩
              rcases (h.derived_new hf hw c).mp hd with rfl | hd
              · exact absurd rfl hcm
              · exact absurd ((hA m).mpr ⟨h.live_m, hd⟩) hm
          · exact hmem x hxn
        · rw [head?_insertBehind]
          exact hhead hc' hr hP

end Granted

theorem Quiet.forest (h : Quiet E st st') (hf : Forest st) : Forest st' where
  orig_lt x c hx := by
    rw [h.orig] at hx
    have := hf.orig_lt x c hx
    exact ⟨this.1, this.2.trans_le h.fresh⟩
  within x c hx := by
    rw [h.orig] at hx
    have := hf.orig_lt x c hx
    rw [h.mdb x this.2, h.mdb c (this.1.trans this.2)]
    exact hf.within x c hx

theorem Rooted.forest {n : NodeId} (h : Rooted E st st' n) (hf : Forest st) : Forest st' where
  orig_lt x c hx := by
    rw [h.orig] at hx
    have := hf.orig_lt x c hx
    rw [h.fresh']
    exact ⟨this.1, Nat.lt_succ_of_lt this.2⟩
  within x c hx := by
    rw [h.orig] at hx
    have := hf.orig_lt x c hx
    exact within_congr (h.old x this.2).1 (h.old c (this.1.trans this.2)).1 (hf.within x c hx)

theorem Demoted.forest {n : NodeId} {r : Mword} (h : Demoted st st' n r) (hf : Forest st) :
    Forest st' where
  orig_lt x c hx := by
    rw [h.orig] at hx
    rw [h.fresh]
    exact hf.orig_lt x c hx
  within x c hx := by
    rw [h.orig] at hx
    exact within_congr (h.node x).1 (h.node c).1 (hf.within x c hx)

theorem Dropped.forest {n : NodeId} {leaf : Bool} (h : Dropped leaf st st' n) (hf : Forest st) :
    Forest st' where
  orig_lt x c hx := by
    rw [h.orig] at hx
    rw [h.fresh]
    exact hf.orig_lt x c hx
  within x c hx := by
    rw [h.orig] at hx
    exact within_congr (h.node x).1 (h.node c).1 (hf.within x c hx)

section Stretch

variable {P P' : NodeId → NodeId → Prop}

theorem Quiet.stretch (h : Quiet E st st') (hs : Stretch st P) (hw : Wf st)
    (hold : ∀ c y, st.Live c → st.Live y → P c y → P' c y) : Stretch st' P' := by
  intro c hc
  rw [h.live hw] at hc
  obtain ⟨A, B, hr, hA, hP⟩ := hs c hc
  refine ⟨A, B, h.ringAt hw hc hr, fun x => ?_, fun y hy => ?_⟩
  · rw [hA, h.live hw, derived_congr h.orig]
  · have hyB : y ∈ B := List.mem_of_mem_head? hy
    exact hold c y hc (hw.live_of_ring hc hr (by simp [hyB])) (hP y hy)

theorem Rooted.not_derived {n : NodeId} (h : Rooted E st st' n) (hf : Forest st) (x : NodeId) :
    ¬Derived st' x n ∧ ¬Derived st' n x := by
  rw [derived_congr h.orig, derived_congr h.orig]
  constructor
  · intro hd
    obtain ⟨y, -, hy⟩ := Relation.TransGen.tail'_iff.mp hd
    have := hf.orig_lt y n hy
    rw [h.fresh] at this
    exact absurd (this.1.trans this.2) (lt_irrefl _)
  · intro hd
    obtain ⟨y, hy, -⟩ := Relation.TransGen.head'_iff.mp hd
    have := hf.orig_lt n y hy
    rw [h.fresh] at this
    exact absurd this.2 (lt_irrefl _)

theorem Rooted.stretch {n : NodeId} (h : Rooted E st st' n) (hs : Stretch st P) (hf : Forest st)
    (hw : Wf st) (hold : ∀ c y, st.Live c → st.Live y → P c y → P' c y) : Stretch st' P' := by
  intro c hc
  rcases (h.live hw c).mp hc with rfl | hc
  · refine ⟨[], [], h.ringAt_self, fun x => ?_, by simp⟩
    simp [(h.not_derived hf x).1]
  · obtain ⟨A, B, hr, hA, hP⟩ := hs c hc
    refine ⟨A, B, h.ringAt hw hc hr, fun x => ?_, fun y hy => ?_⟩
    · rw [hA, h.live hw]
      constructor
      · rintro ⟨hx, hd⟩
        exact ⟨Or.inr hx, (derived_congr h.orig x c).mpr hd⟩
      · rintro ⟨rfl | hx, hd⟩
        · exact absurd hd (h.not_derived hf c).2
        · exact ⟨hx, (derived_congr h.orig x c).mp hd⟩
    · have hyB : y ∈ B := List.mem_of_mem_head? hy
      exact hold c y hc (hw.live_of_ring hc hr (by simp [hyB])) (hP y hy)

theorem Demoted.stretch {n : NodeId} {r : Mword} (h : Demoted st st' n r) (hs : Stretch st P)
    (hold : ∀ c y, P c y → P' c y) : Stretch st' P' := by
  intro c hc
  obtain ⟨A, B, hr, hA, hP⟩ := hs c ((h.live_iff c).mp hc)
  refine ⟨A, B, h.ringAt hr, fun x => ?_, fun y hy => hold c y (hP y hy)⟩
  rw [hA, h.live_iff, derived_congr h.orig]

theorem Dropped.stretch {n : NodeId} {leaf : Bool} (h : Dropped leaf st st' n) (hs : Stretch st P)
    (hw : Wf st) (hold : ∀ c y, P c y → P' c y)
    (hnext : ∀ c A, st.Live c → Path st.mdb.next st.mdb.prev c A n → (∀ x ∈ A, Derived st x c) →
      (c :: A).Nodup → (∀ x ∈ c :: A, x < st.fresh) → n ∉ c :: A → P c n →
        P' c (st.mdb.next n)) : Stretch st' P' := by
  intro c hc
  obtain ⟨hcn, hc⟩ := (h.live_iff hw c).mp hc
  obtain ⟨A, B, hr, hA, hP⟩ := hs c hc
  have hnd := hr.tail_nodup
  refine ⟨A.erase n, B.erase n, ?_, fun x => ?_, fun y hy => ?_⟩
  · rw [← erase_append_of_nodup hnd]
    exact h.ringAt hw hr hcn
  · rw [(hnd.sublist (List.sublist_append_left A B)).mem_erase_iff, hA, h.live_iff hw,
      derived_congr h.orig]
    tauto
  · cases hB : B with
    | nil => simp [hB] at hy
    | cons z B' =>
      rw [hB] at hy hP hr
      by_cases hzn : z = n
      · subst hzn
        rw [List.erase_cons_head] at hy
        obtain ⟨hp1, hp2⟩ := path_append.mp hr.path
        have hq : st.mdb.next z = y := by
          rw [hp2.next_eq]
          cases B' with
          | nil => simp at hy
          | cons w B' => simpa using hy
        rw [← hq]
        have hnd' := hr.nodup
        rw [← List.cons_append, List.nodup_append] at hnd'
        apply hnext c A hc hp1 (fun x hx => ((hA x).mp hx).2) hnd'.1 _ _ (hP z (by simp))
        · intro x hx
          apply hw.ring_lt hc hr x
          rw [← List.cons_append]
          exact List.mem_append_left _ hx
        · intro hz
          exact hnd'.2.2 z hz z (by simp) rfl
      · rw [List.erase_cons_tail (by simpa using hzn)] at hy
        exact hold c y (hP y (by simpa using hy))

end Stretch

theorem Forest.boot (space : σ) : Forest (boot space) where
  orig_lt x m h := by simp [Pd.boot] at h
  within x m h := by simp [Pd.boot] at h

theorem Stretch.boot (space : σ) (P : NodeId → NodeId → Prop) : Stretch (Pd.boot space) P := by
  intro c hc
  simp [Pd.boot, State.Live] at hc

theorem Effect.forest (h : Effect S E G L U st st') (hf : Forest st) (hw : Wf st) : Forest st' := by
  cases h with
  | quiet h => exact h.forest hf
  | granted m n _ h => exact h.forest hf hw
  | rooted n h => exact h.forest hf
  | demoted n r h _ => exact h.forest hf
  | stripped n _ h _ => exact h.forest hf
  | unlinked n h => exact h.forest hf
  | lifted n _ _ h => exact h.forest hf

theorem Effect.stretch (h : Effect S E G L U st st') (hs : Stretch st fun _ _ => True)
    (hf : Forest st) (hw : Wf st) : Stretch st' fun _ _ => True := by
  cases h with
  | quiet h => exact h.stretch hs hw (fun _ _ _ _ _ => trivial)
  | granted m n _ h => exact h.stretch hs hf hw (fun _ _ _ _ _ => trivial) trivial
  | rooted n h => exact h.stretch hs hf hw (fun _ _ _ _ _ => trivial)
  | demoted n r h _ => exact h.stretch hs (fun _ _ _ => trivial)
  | stripped n _ h _ => exact h.stretch hs (fun _ _ _ => trivial)
  | unlinked n h => exact h.stretch hs hw (fun _ _ _ => trivial) (fun _ _ _ _ _ _ _ _ _ => trivial)
  | lifted n _ _ h => exact h.stretch hs hw (fun _ _ _ => trivial) (fun _ _ _ _ _ _ _ _ _ => trivial)

end Tukija.Pd
