import Tukija.Create.Migrate

/-! When a migration that fails leaves its EC without what it had. -/
namespace Tukija.Create

open Tukija.Lib.Word Tukija.Mapdb Tukija.Pd

variable {σ ρ φ : Type} {M P O : SpaceOps σ} {fuel : Nat} {st st' st₁ t : State σ} {cur : PdId} {a b sel : Mword}
  {n x y : NodeId}

/-- An object of `cur` is at the selector. -/
def Occ (st : State σ) (cur : PdId) (sel : Mword) : Prop := ∃ n ∈ st.tree cur, (st.mdb n).covers sel = true

/-- What was derived from the selector `sel` of `cur` is gone. -/
structure Withdrawn (st : State σ) (cur : PdId) (sel : Mword) (st' : State σ) : Prop where
  swept : Swept st cur sel 0 st'
  five : FiveBits st'
  below : ∀ x y, st'.Live x → Below st' x y → Below st x y

theorem revoke_withdrawn (hw : Wf st) (h5 : FiveBits st)
    (hr : revoke O fuel cur sel 0 0x1f true false st = some st') : Withdrawn st cur sel st' := by
  have ho : (0 : Mword).toNat < 64 := by decide
  have hb : Aligned (0 : Mword).toNat sel := aligned_zero _
  have h := revoke_below hw h5 ho hb hr
  exact ⟨revoke_swept hw h5 ho hb hr, h.1, h.2⟩

theorem mem_tree_iff (hw : Wf st) : n ∈ st.tree cur ↔ st.Live n ∧ (st.mdb n).space = cur := by
  constructor
  · intro h
    exact ⟨hw.live_of_mem h, (hw.mem cur n h).1⟩
  · rintro ⟨h, rfl⟩
    exact h

theorem covers_same {m m' : Mdb} (h : SameNode m m') : m.covers sel = m'.covers sel := by
  unfold Mdb.covers
  rw [h.base, h.order]

theorem Withdrawn.occ_iff (h : Withdrawn st cur a st') (hw : Wf st) :
    Occ st' cur sel ↔ ∃ n ∈ st.tree cur, (st.mdb n).covers sel = true ∧ ¬Doomed st cur a 0 n := by
  unfold Occ
  apply exists_congr
  intro n
  rw [mem_tree_iff h.swept.wf, mem_tree_iff hw, h.swept.live, (h.swept.shrunk.same n).space,
    covers_same (h.swept.shrunk.same n)]
  tauto

/-- The new root `n` of `cur` is at the selector `sel`. -/
structure Placed (st : State σ) (cur : PdId) (sel : Mword) (n : NodeId) (t : State σ) : Prop where
  wf : Wf t
  five : FiveBits t
  rooted : Rooted (fun _ _ => True) st t n
  space : (t.mdb n).space = cur
  base : (t.mdb n).nodeBase = sel
  order : (t.mdb n).nodeOrder = 0

theorem Placed.meeting_iff (h : Placed st cur sel n t) : Meeting (t.mdb n) b 0 ↔ sel = b := by
  have h0 : (0 : Mword).toNat = 0 := rfl
  unfold Meeting Mdb.top
  rw [h.base, h.order, h0]
  constructor
  · rintro ⟨i, hi, hb⟩
    exact BitVec.eq_of_toNat_eq (by omega)
  · rintro rfl
    exact ⟨sel.toNat, by omega, by omega⟩

theorem Placed.covers_iff (h : Placed st cur sel n t) (hw : Wf st) : (t.mdb n).covers b = true ↔ sel = b := by
  have h0 : (0 : Mword).toNat = 0 := rfl
  rw [(h.wf.natural n ((h.rooted.live hw n).mpr (.inl rfl))).covers_iff]
  unfold Mdb.top
  rw [h.base, h.order, h0]
  constructor
  · intro hb
    exact BitVec.eq_of_toNat_eq (by omega)
  · rintro rfl
    omega

theorem meeting_same {m m' : Mdb} (h : SameNode m m') : Meeting m a b ↔ Meeting m' a b := by
  unfold Meeting Mdb.top
  rw [h.base, h.order]

theorem Placed.old_ne (h : Placed st cur sel n t) {m : NodeId} (hw : Wf st) (hm : m ∈ st.tree cur) : m < st.fresh ∧ m ≠ n := by
  have hlt := (hw.mem cur m hm).2
  refine ⟨hlt, ?_⟩
  rw [h.rooted.fresh]
  exact hlt.ne

theorem Placed.mem_iff (h : Placed st cur sel n t) {m : NodeId} : m ∈ t.tree cur ↔ m = n ∨ m ∈ st.tree cur := by
  have := h.rooted.tree m
  rwa [h.space] at this

theorem Placed.doomed_iff (h : Placed st cur sel n t) (hw : Wf st) (hx : st.Live x) :
    Doomed t cur b 0 x ↔ Doomed st cur b 0 x := by
  have hxn : x ≠ n := by
    rw [h.rooted.fresh]
    exact (hw.lt hx).ne
  constructor
  · rintro ⟨m, ⟨hm, hmeet⟩, hb⟩
    rcases h.mem_iff.mp hm with rfl | hm
    · exact absurd (h.rooted.below_self.mp hb) hxn
    · have hlt := (h.old_ne hw hm).1
      exact ⟨m, ⟨hm, (meeting_same (h.rooted.old m hlt).1).mp hmeet⟩,
        (h.rooted.below_iff hw (hw.live_of_mem hm)).mp hb⟩
  · rintro ⟨m, ⟨hm, hmeet⟩, hb⟩
    have hlt := (h.old_ne hw hm).1
    exact ⟨m, ⟨h.mem_iff.mpr (.inr hm), (meeting_same (h.rooted.old m hlt).1).mpr hmeet⟩,
      (h.rooted.below_iff hw (hw.live_of_mem hm)).mpr hb⟩

theorem Placed.doomed_self (h : Placed st cur sel n t) (hw : Wf st) : Doomed t cur b 0 n ↔ sel = b := by
  constructor
  · rintro ⟨m, ⟨hm, hmeet⟩, hb⟩
    rcases h.mem_iff.mp hm with rfl | hm
    · exact h.meeting_iff.mp hmeet
    · have hlive := hw.live_of_mem hm
      have := (h.rooted.below_iff hw hlive).mp hb
      obtain ⟨A, B, hrun⟩ := hw.run hlive
      have hn := hrun.live hw hlive n ((hrun.below_iff n).mp this)
      have hlt := hw.lt hn
      rw [h.rooted.fresh] at hlt
      exact absurd hlt (lt_irrefl _)
  · intro hb
    exact ⟨n, ⟨h.mem_iff.mpr (.inl rfl), h.meeting_iff.mpr hb⟩, .inl rfl⟩

/-- Revoking one selector takes nothing away from what is below another one, but
what it takes itself. -/
theorem Withdrawn.doomed_iff (h : Withdrawn st cur a st') (hw : Wf st) (hx : st'.Live x) :
    Doomed st' cur b 0 x ↔ Doomed st cur b 0 x := by
  have hxs := (h.swept.live x).mp hx
  constructor
  · rintro ⟨m, hm, hb⟩
    exact ⟨m, h.swept.shrunk.touched h.swept.wf hm, h.below m x (h.swept.wf.live_of_mem hm.1) hb⟩
  · rintro ⟨m, hm, hb⟩
    have hlive : st'.Live m := by
      refine (h.swept.live m).mpr ⟨hw.live_of_mem hm.1, fun hd => hxs.2 ?_⟩
      obtain ⟨c, hc, hcm⟩ := hd
      exact ⟨c, hc, hcm.trans hb⟩
    have hspace := ((h.swept.shrunk.same m).space.trans (hw.mem cur m hm.1).1)
    exact ⟨m, ⟨(mem_tree_iff h.swept.wf).mpr ⟨hlive, hspace⟩, (meeting_same (h.swept.shrunk.same m)).mpr hm.2⟩,
      h.swept.shrunk.below hw h.swept.wf hlive hx hb⟩

theorem insertObj_placed {obj attr : Mword} {ok : Bool} (hw : Wf st) (h5 : FiveBits st) (ha : attr &&& ~~~0x1f = 0)
    (h : insertObj O cur obj sel attr st = (t, ok)) :
    ok = false ∧ Occ st cur sel ∨ ok = true ∧ ¬Occ st cur sel ∧ Placed st cur sel st.fresh t := by
  cases hi : insertRoot (embedded O) cur obj sel 0 attr 0 st with
  | mk u c =>
    unfold insertObj at h
    rw [hi] at h
    rcases insertRoot_slot hw ha hi with ⟨rfl, hocc, -⟩ | ⟨rfl, hocc, -⟩
    · obtain ⟨rfl, rfl⟩ := Prod.mk.inj h
      exact .inl ⟨rfl, hocc⟩
    · right
      have hmeets : Meets (embedded O) (fun _ _ => True) (fun _ _ => True) (fun _ _ => True) 0
          (.insertRoot cur obj sel 0 attr 0) st := ⟨by decide, aligned_zero _, aligned_zero _, ha⟩
      have hcases := insertRoot_cases (trivial_frame (embedded O)) hw hmeets
      rw [hi] at hcases
      obtain ⟨-, hroot, hnode⟩ := hcases.resolve_left (by simp)
      have hu : Placed st cur sel st.fresh u := by
        refine ⟨hroot.wf hw, ?_, hroot, ?_, ?_, ?_⟩
        · exact Effect.fiveBits (S := embedded O) (G := fun _ _ => True) (L := fun _ _ => True) (U := fun _ _ => True)
            (.rooted st.fresh hroot) h5 hw
        · rw [hnode]
          rfl
        · rw [hnode]
          rfl
        · rw [hnode]
          rfl
      dsimp only at h
      split at h
      · obtain ⟨rfl, rfl⟩ := Prod.mk.inj h
        have hr := hu.rooted
        exact ⟨rfl, hocc, ⟨hu.wf.mem, hu.wf.ordered, hu.wf.natural, hu.wf.ring⟩, hu.five,
          ⟨⟨hr.fresh, hr.fresh', hr.old, hr.tree, hr.tree_ne, hr.ordered, hr.natural⟩, hr.links, hr.self, hr.prnt, hr.attr,
            hr.sub, hr.orig, trivial⟩, hu.space, hu.base, hu.order⟩
      · obtain ⟨rfl, rfl⟩ := Prod.mk.inj h
        exact ⟨rfl, hocc, hu⟩

/-- A machine whose object spaces are well formed, with a place for a new EC that
no capability refers to. -/
structure Host (σ ρ φ : Type) extends Machine σ ρ φ where
  wf : Wf spaces.obj
  five : FiveBits spaces.obj
  fresh : ∀ i e, caps i = some (.ec e) → e ≠ newEc

variable {k k' : Machine σ ρ φ} {cap : Option Kobj} {ecR e : EcId} {p : PtId} {s : ScId} {r : EcCtrl}
  {init : PdId → Nat → σ → σ} {ok : Bool}

/-- The EC that was to migrate has what it had, and the slots and the mapping
database are as before. -/
structure Kept (k k' : Machine σ ρ φ) (cap : Option Kobj) : Prop where
  utcb : ∀ e, cap = some (.ec e) → (k'.ec e).utcb = (k.ec e).utcb ∧ (k'.ec e).userUtcb = (k.ec e).userUtcb
  fpu : ∀ e, cap = some (.ec e) → (k'.ec e).fpu = (k.ec e).fpu
  area : k'.area = k.area
  ptOom : ∀ e, cap = some (.ec e) → (k'.ec e).ptOom = (k.ec e).ptOom
  nodes : SameNodes k.spaces.obj k'.spaces.obj
  slots : k'.spaces.obj.space = k.spaces.obj.space

/-- There is no place for the new EC or for the new SC: at the selector that the
old one was made with is an object that is not derived from the capability for
the EC (nor, for the SC, from that for the SC), or the new EC. -/
def Taken (k : Machine σ ρ φ) (e : EcId) (s : ScId) (r : EcCtrl) : Prop :=
  (∃ n ∈ k.spaces.obj.tree k.cur, (k.spaces.obj.mdb n).covers (k.ec e).nodeBase = true ∧
    ¬Doomed k.spaces.obj k.cur r.ec 0 n) ∨
  ((k.ec e).nodeBase = (k.sc s).nodeBase ∧ (k.ec e).nodeBase ≠ r.ec + 2) ∨
  ∃ n ∈ k.spaces.obj.tree k.cur, (k.spaces.obj.mdb n).covers (k.sc s).nodeBase = true ∧
    ¬Doomed k.spaces.obj k.cur r.ec 0 n ∧ ¬Doomed k.spaces.obj k.cur (r.ec + 2) 0 n

theorem tests_ok (h : k.tests cap ecR r = .ok (e, p, s)) : cap = some (.ec e) ∧ (k.ec e).utcb ≠ none := by
  unfold Machine.tests at h
  split at h
  · simp at h
  · split at h
    · rename_i e'
      split at h
      · simp at h
      · split at h
        · simp at h
        · split at h
          · simp at h
          · rename_i hu
            split at h
            · split at h
              · split at h
                · simp at h
                · obtain ⟨rfl, -⟩ := Prod.mk.inj (Except.ok.inj h)
                  refine ⟨rfl, fun hn => hu ?_⟩
                  simp [hn]
              · simp at h
            · simp at h
    · simp at h

theorem saveFpu_spaces (k : Machine σ ρ φ) (e : EcId) :
    (k.saveFpu e).spaces = k.spaces ∧ (k.saveFpu e).ec = k.ec ∧ (k.saveFpu e).sc = k.sc ∧
      (k.saveFpu e).cur = k.cur ∧ (k.saveFpu e).newEc = k.newEc ∧ (k.saveFpu e).newSc = k.newSc := by
  unfold Machine.saveFpu
  split
  · simp
  · split <;> simp

/-- What the new EC and the new SC are made of. -/
structure Made (k k' : Machine σ ρ φ) (e : EcId) (s : ScId) : Prop where
  obj : ∃ x, k'.spaces.obj = { k.spaces.obj with space := x }
  cur : k'.cur = k.cur
  ec : (k'.ec k'.newEc).nodeBase = (k.ec e).nodeBase
  sc : (k'.sc k'.newSc).nodeBase = (k.sc s).nodeBase
  utcb : (k'.ec e).utcb = none

theorem made_makeSc (he : e ≠ k.newEc) (c : Nat) : Made k ((k.makeEc init e p c).makeSc s) e s := by
  obtain ⟨hs, hec, hsc, hcur, hn, hm⟩ := saveFpu_spaces k e
  unfold Machine.makeSc Machine.makeEc
  refine ⟨⟨init ((k.saveFpu e).ec e).pd c (k.saveFpu e).spaces.obj.space, ?_⟩, hcur, ?_, ?_, ?_⟩
  · dsimp only
    rw [hs]
    rfl
  · dsimp only
    rw [Function.update_self, hec]
  · dsimp only
    rw [Function.update_self, hsc]
  · dsimp only
    rw [Function.update_of_ne (by rwa [hn]), Function.update_self]

theorem withdraw_eq {sel : Mword} (h : k.withdraw O fuel sel = some k') :
    ∃ st, revoke O fuel k.cur sel 0 0x1f true false k.spaces.obj = some st ∧
      k' = { k with spaces := k.spaces.setObj st } := by
  obtain ⟨st, hst, rfl⟩ := Option.map_eq_some_iff.mp h
  exact ⟨st, hst, rfl⟩

theorem place_eq {obj attr : Mword} (h : k.place O obj sel attr = (k', ok)) :
    ∃ t, insertObj O k.cur obj sel attr k.spaces.obj = (t, ok) ∧ k' = { k with spaces := k.spaces.setObj t } := by
  unfold Machine.place at h
  cases hi : insertObj O k.cur obj sel attr k.spaces.obj with
  | mk t c =>
    rw [hi] at h
    obtain ⟨rfl, rfl⟩ := Prod.mk.inj h
    exact ⟨t, rfl, rfl⟩

theorem occ_second {st₂ st₃ : State σ} {c d : Mword} (hw : Wf st) (h₁ : Withdrawn st cur a st₁)
    (h₂ : Placed st₁ cur c n st₂) (h₃ : Withdrawn st₂ cur b st₃) :
    Occ st₃ cur d ↔ c = d ∧ c ≠ b ∨ ∃ m ∈ st.tree cur, (st.mdb m).covers d = true ∧ ¬Doomed st cur a 0 m ∧
      ¬Doomed st cur b 0 m := by
  have hw₁ := h₁.swept.wf
  rw [h₃.occ_iff h₂.wf]
  constructor
  · rintro ⟨m, hm, hc, hd⟩
    rcases h₂.mem_iff.mp hm with rfl | hm₁
    · exact .inl ⟨(h₂.covers_iff hw₁).mp hc, fun hcb => hd ((h₂.doomed_self hw₁).mpr hcb)⟩
    · right
      have hlive := hw₁.live_of_mem hm₁
      have hold := h₁.swept.shrunk.same m
      rw [h₂.doomed_iff hw₁ hlive, h₁.doomed_iff hw hlive] at hd
      refine ⟨m, ?_, ?_, ((h₁.swept.live m).mp hlive).2, hd⟩
      · rw [mem_tree_iff hw]
        exact ⟨((h₁.swept.live m).mp hlive).1, hold.space.symm.trans (hw₁.mem cur m hm₁).1⟩
      · rwa [covers_same (h₂.rooted.old m (h₂.old_ne hw₁ hm₁).1).1, covers_same hold] at hc
  · rintro (⟨rfl, hcb⟩ | ⟨m, hm, hc, hd, hd'⟩)
    · exact ⟨n, h₂.mem_iff.mpr (.inl rfl), (h₂.covers_iff hw₁).mpr rfl, fun hd => hcb ((h₂.doomed_self hw₁).mp hd)⟩
    · have hlive : st₁.Live m := (h₁.swept.live m).mpr ⟨hw.live_of_mem hm, hd⟩
      have hold := h₁.swept.shrunk.same m
      have hm₁ : m ∈ st₁.tree cur := (mem_tree_iff hw₁).mpr ⟨hlive, hold.space.trans (hw.mem cur m hm).1⟩
      refine ⟨m, h₂.mem_iff.mpr (.inr hm₁), ?_, ?_⟩
      · rwa [covers_same (h₂.rooted.old m (h₂.old_ne hw₁ hm₁).1).1, covers_same hold]
      · rwa [h₂.doomed_iff hw₁ hlive, h₁.doomed_iff hw hlive]

theorem move_stranded (k : Host σ ρ φ) {b : Bool} (he : e ≠ k.newEc)
    (h : k.toMachine.move M P O fuel init e p s r = some (b, k')) :
    (b = false ↔ Taken k.toMachine e s r) ∧ (b = false → (k'.ec e).utcb = none) := by
  have hmade : Made k.toMachine ((k.toMachine.makeEc init e p r.cpu).makeSc s) e s := made_makeSc he r.cpu
  unfold Machine.move at h
  generalize hk₁ : (k.toMachine.makeEc init e p r.cpu).makeSc s = k₁ at h hmade
  obtain ⟨x, hobj⟩ := hmade.obj
  have hw : Wf k₁.spaces.obj := by
    rw [hobj]
    exact ⟨k.wf.mem, k.wf.ordered, k.wf.natural, k.wf.ring⟩
  have h5 : FiveBits k₁.spaces.obj := by
    rw [hobj]
    exact k.five
  have htaken : Taken k.toMachine e s r ↔ (∃ n ∈ k₁.spaces.obj.tree k₁.cur,
        (k₁.spaces.obj.mdb n).covers (k₁.ec k₁.newEc).nodeBase = true ∧ ¬Doomed k₁.spaces.obj k₁.cur r.ec 0 n) ∨
      ((k₁.ec k₁.newEc).nodeBase = (k₁.sc k₁.newSc).nodeBase ∧ (k₁.ec k₁.newEc).nodeBase ≠ r.ec + 2) ∨
      ∃ n ∈ k₁.spaces.obj.tree k₁.cur, (k₁.spaces.obj.mdb n).covers (k₁.sc k₁.newSc).nodeBase = true ∧
        ¬Doomed k₁.spaces.obj k₁.cur r.ec 0 n ∧ ¬Doomed k₁.spaces.obj k₁.cur (r.ec + 2) 0 n := by
    rw [hobj, hmade.cur, hmade.ec, hmade.sc]
    rfl
  cases hr₁ : k₁.withdraw O fuel r.ec with
  | none => simp [hr₁] at h
  | some k₂ =>
    simp only [hr₁, Option.bind_eq_bind, Option.bind_some] at h
    obtain ⟨st₁, hst₁, rfl⟩ := withdraw_eq hr₁
    have hd₁ := revoke_withdrawn hw h5 hst₁
    cases hp₁ : Machine.place { k₁ with spaces := k₁.spaces.setObj st₁ } O (Machine.ecPtr k₁.newEc)
        (k₁.ec k₁.newEc).nodeBase 0xd with
    | mk k₃ c₁ =>
      obtain ⟨st₂, hst₂, rfl⟩ := place_eq hp₁
      have hplaced := insertObj_placed hd₁.swept.wf hd₁.five (by decide) hst₂
      simp only [hp₁] at h
      rcases hplaced with ⟨rfl, hocc⟩ | ⟨rfl, hocc, hpl⟩
      · obtain ⟨rfl, rfl⟩ := Prod.mk.inj (Option.some.inj h)
        exact ⟨iff_of_true rfl (htaken.mpr (.inl ((hd₁.occ_iff hw).mp hocc))), fun _ => hmade.utcb⟩
      · rw [hd₁.occ_iff hw] at hocc
        simp only [Bool.not_true, Bool.false_eq_true, if_false] at h
        rw [or_iff_right hocc] at htaken
        cases hr₂ : Machine.withdraw { k₁ with spaces := (k₁.spaces.setObj st₁).setObj st₂ } O fuel (r.ec + 2) with
        | none =>
          rw [hr₂] at h
          simp at h
        | some k₄ =>
          rw [hr₂] at h
          simp only [Option.bind_some] at h
          obtain ⟨st₃, hst₃, rfl⟩ := withdraw_eq hr₂
          have hd₂ : Withdrawn st₂ k₁.cur (r.ec + 2) st₃ := revoke_withdrawn hpl.wf hpl.five hst₃
          cases hp₂ : Machine.place { k₁ with spaces := ((k₁.spaces.setObj st₁).setObj st₂).setObj st₃ } O
              (Machine.scPtr k₁.newSc) (k₁.sc k₁.newSc).nodeBase 0x1 with
          | mk k₅ c₂ =>
            rw [hp₂] at h
            obtain ⟨st₄, hst₄, rfl⟩ := place_eq hp₂
            have hsecond := occ_second (d := (k₁.sc k₁.newSc).nodeBase) hw hd₁ hpl hd₂
            rcases insertObj_placed hd₂.swept.wf hd₂.five (by decide) hst₄ with ⟨rfl, hocc₂⟩ | ⟨rfl, hocc₂, -⟩
            · dsimp only at h
              cases hr₃ : Machine.withdraw { k₁ with
                  spaces := (((k₁.spaces.setObj st₁).setObj st₂).setObj st₃).setObj st₄ } O fuel r.ec with
              | none =>
                rw [hr₃] at h
                simp at h
              | some k₆ =>
                obtain ⟨st₅, -, rfl⟩ := withdraw_eq hr₃
                rw [hr₃] at h
                obtain ⟨rfl, rfl⟩ := Prod.mk.inj (Option.some.inj h)
                exact ⟨iff_of_true rfl (htaken.mpr (hsecond.mp hocc₂)), fun _ => hmade.utcb⟩
            · rw [hsecond] at hocc₂
              simp only [Bool.not_true, Bool.false_eq_true, if_false] at h
              obtain ⟨v, -, hv⟩ := Option.bind_eq_some_iff.mp h
              obtain ⟨rfl, -⟩ := Prod.mk.inj (Option.some.inj hv)
              exact ⟨iff_of_false (by simp) (mt htaken.mp hocc₂), by simp⟩

/-- A migration that fails leaves everything as it was exactly if it fails in one
of the tests at the start. -/
theorem migrate_kept_iff (k : Host σ ρ φ) {b : Bool}
    (h : k.toMachine.migrate M P O fuel init (k.caps r.ec) ecR r = some (b, k')) :
    (b = false → Kept k.toMachine k' (k.caps r.ec)) ↔
      ∀ e p s, k.tests (k.caps r.ec) ecR r = .ok (e, p, s) → ¬Taken k.toMachine e s r := by
  unfold Machine.migrate at h
  split at h
  · rename_i ht
    obtain ⟨rfl, rfl⟩ := Prod.mk.inj (Option.some.inj h)
    refine iff_of_true (fun _ => ?_) (by simp [ht])
    exact ⟨fun _ _ => ⟨rfl, rfl⟩, fun _ _ => rfl, rfl, fun _ _ => rfl, ⟨rfl, fun _ _ => rfl⟩, rfl⟩
  · rename_i ht
    obtain ⟨rfl, rfl⟩ := Prod.mk.inj (Option.some.inj h)
    refine iff_of_true (fun _ => ?_) (by simp [ht])
    exact ⟨fun _ _ => ⟨rfl, rfl⟩, fun _ _ => rfl, rfl, fun _ _ => rfl, ⟨rfl, fun _ _ => rfl⟩, rfl⟩
  · rename_i e p s ht
    obtain ⟨hcap, hutcb⟩ := tests_ok ht
    obtain ⟨hb, hgone⟩ := move_stranded k (k.fresh _ _ hcap) h
    have hone : (∀ e' p' s', k.tests (k.caps r.ec) ecR r = .ok (e', p', s') → ¬Taken k.toMachine e' s' r) ↔
        ¬Taken k.toMachine e s r := by
      constructor
      · intro hall
        exact hall e p s ht
      · intro hnot e' p' s' ht'
        obtain ⟨rfl, -, rfl⟩ := by simpa using Except.ok.inj (ht.symm.trans ht')
        exact hnot
    rw [hone, ← hb]
    constructor
    · rintro hkept rfl
      have := (hkept rfl).utcb e hcap
      exact hutcb (this.1.symm.trans (hgone rfl))
    · intro hne hfalse
      exact absurd hfalse hne

/-- The domain 1 makes an EC at the selector 5 and an SC at 7, and delegates them to
itself at 9 and 11. -/
def twiceOps : List Op :=
  [.insertRoot 1 0 5 0 0xd 0, .insertRoot 1 1 7 0 1 0, .delegate 1 1 5 9 0 0x1f 0, .delegate 1 1 7 11 0 0x1f 0]

def twice : State Unit := (execAll bareSpace 5 twiceOps (boot ())).getD (boot ())

theorem twice_sound : Wf twice ∧ FiveBits twice := by
  have h : execAll bareSpace 5 twiceOps (boot ()) = some twice := by
    unfold twice
    cases h : execAll bareSpace 5 twiceOps (boot ()) with
    | none =>
      have : (execAll bareSpace 5 twiceOps (boot ())).isSome = true := by decide +kernel
      simp [h] at this
    | some st => rfl
  exact (AnyReach.execAll (.boot ()) (by decide) h).fiveBits bareSpace_frame

/-- The EC has a UTCB and runs on CPU 0; a portal of another EC on CPU 1 is behind
each of its capabilities. -/
def migrant : Host Unit Unit Unit where
  spaces := ⟨boot (), boot (), twice⟩
  cur := 1
  caps i := if i = 5 ∨ i = 9 then some (.ec 0) else if i = 6 ∨ i = 10 then some (.pt 0) else
    if i = 7 ∨ i = 11 then some (.sc 0) else none
  online c := c < 2
  quota _ := ⟨0, 0, 10, 0⟩
  ec e := ⟨5, some 0, ⟨(), none, none, none⟩, some 0, 1, none, e, true, 0, 0x1000, none, none⟩
  sc _ := ⟨7, 0, 0, 1, false, 0, 0, 0, 0⟩
  pt _ := ⟨1, 1⟩
  area _ := ()
  fpuRegs := ()
  fpowner := none
  fpuLazy := false
  rcu := []
  ready := []
  newEc := 2
  newSc := 1
  wf := twice_sound.1
  five := twice_sound.2
  fresh := by
    intro i e h
    split at h
    · cases h
      decide
    · split at h
      · cases h
      · split at h
        · cases h
        · cases h

theorem migrant_kept :
    ∃ k', migrant.toMachine.migrate bareSpace bareSpace bareSpace 5 (fun _ _ s => s) (migrant.caps 5) 0
        ⟨5, 1, Crd.make Crd.OBJ 0 0 0x1f⟩ = some (true, k') ∧
      ∀ e p s, migrant.tests (migrant.caps 5) 0 ⟨5, 1, Crd.make Crd.OBJ 0 0 0x1f⟩ = .ok (e, p, s) →
        ¬Taken migrant.toMachine e s ⟨5, 1, Crd.make Crd.OBJ 0 0 0x1f⟩ := by
  have hrun : (migrant.toMachine.migrate bareSpace bareSpace bareSpace 5 (fun _ _ s => s) (migrant.caps 5) 0
      ⟨5, 1, Crd.make Crd.OBJ 0 0 0x1f⟩).map Prod.fst = some true := by decide +kernel
  obtain ⟨⟨b, k'⟩, hk, rfl⟩ := Option.map_eq_some_iff.mp hrun
  exact ⟨k', hk, (migrate_kept_iff migrant hk).mp (by simp)⟩

/-- With the other capability, the selector of the EC is still in use. -/
theorem migrant_not_kept :
    ¬∀ (k : Host Unit Unit Unit) (ecR : EcId) (r : EcCtrl) (k' : Machine Unit Unit Unit),
      k.toMachine.migrate bareSpace bareSpace bareSpace 5 (fun _ _ s => s) (k.caps r.ec) ecR r = some (false, k') →
        Kept k.toMachine k' (k.caps r.ec) := by
  intro hall
  have hrun : (migrant.toMachine.migrate bareSpace bareSpace bareSpace 5 (fun _ _ s => s) (migrant.caps 9) 0
      ⟨9, 1, Crd.make Crd.OBJ 0 0 0x1f⟩).map (fun x => (x.1, (x.2.ec 0).utcb)) = some (false, none) := by
    decide +kernel
  obtain ⟨⟨b, k'⟩, hk, hval⟩ := Option.map_eq_some_iff.mp hrun
  obtain ⟨rfl, hnone⟩ := Prod.mk.inj hval
  have := (hall migrant 0 ⟨9, 1, Crd.make Crd.OBJ 0 0 0x1f⟩ k' hk).utcb 0 rfl
  rw [hnone] at this
  exact absurd this.1 (by decide)

end Tukija.Create
