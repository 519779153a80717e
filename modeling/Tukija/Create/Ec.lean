import Tukija.Create.Stranded
import Tukija.Space.Mapped

/-! `sys_create_ec`: the UTCB is mapped before the selector is known to be free. -/
namespace Tukija.Create

open Tukija.Lib.Word Tukija.Lib.Radix Tukija.Mapdb Tukija.Pd Tukija.Space

inductive EcStatus where
  | success
  | badCpu
  | badFtr
  | badCap
  | quoOom
  | badPar
  deriving DecidableEq, Repr

/-- `Sys_create_ec`, as far as memory and slots go. -/
structure EcArgs where
  sel : Mword
  pd : Mword
  cpu : Nat
  utcb : Mword

/-- Memory with its tables, the CPUs that have tables for a domain, and the object
spaces. -/
structure Scene (θ σ : Type) where
  mem : Space.Machine θ
  cpus : PdId → Nat → Bool
  obj : State σ

/-- The caller `cur` with its slots, and the page and the place that there are for
a UTCB and an EC. -/
structure Creator (θ σ : Type) extends Scene θ σ where
  cur : PdId
  caps : Mword → Option Cap
  online : Nat → Bool
  virt : Bool
  quota : PdId → Kmem.Quota
  frame : Mword
  newEc : Mword
  wf : Wf mem.pds
  wfObj : Wf obj
  tame : mem.pds.space.wild = false

section Call

variable {θ σ : Type} (T : Tables θ) (O : SpaceOps σ)

def insertUtcb (pd : PdId) (b phys : Mword) (st : State (MemState θ)) : State (MemState θ) × Bool :=
  if phys = 0 ∨ b = 0 then (st, true) else insertRoot (memSpace T) pd phys (shr b 12) 0 0x3 0 st

def Creator.tests (k : Creator θ σ) (r : EcArgs) : Except EcStatus PdId :=
  if ((k.quota k.cur).hitLimit 0).val then .error .quoOom
  else if !k.online r.cpu then .error .badCpu
  else if r.utcb = 0 ∧ !k.virt then .error .badFtr
  else
    match k.caps r.pd with
    | none => .error .badCap
    | some cap =>
      if cap.prm &&& 2 = 0 then .error .badCap
      else if ((k.quota cap.pd).hitLimit 7).val then .error .quoOom
      else if !utcbValid r.utcb || !(insertUtcb T cap.pd r.utcb 0 k.mem.pds).2 then .error .badPar
      else .ok cap.pd

def sysCreateEc (k : Creator θ σ) (r : EcArgs) : EcStatus × Scene θ σ :=
  match k.tests T r with
  | .error status => (status, k.toScene)
  | .ok pd =>
    let e : Space.Ec := ⟨pd, r.utcb, k.frame⟩
    let s : Scene θ σ :=
      { k.toScene with
        mem := createEc T e k.mem
        cpus := Function.update k.cpus pd (Function.update (k.cpus pd) r.cpu true) }
    let (obj, ok) := insertObj O k.cur k.newEc r.sel 0xd k.obj
    if !ok then (.badCap, { s with mem := destroyEc T e s.mem, obj := obj }) else (.success, { s with obj := obj })

end Call

variable {θ σ : Type} {T : Tables θ} {O : SpaceOps σ} {k : Creator θ σ} {r : EcArgs} {st : State (MemState θ)}
  {pd : PdId} {u : Mword}

/-- Every page is mapped as before, no frame has been taken for a table, and the
mapping database and the slots are as before. -/
structure Unmoved (s s' : Scene θ σ) : Prop where
  pages : ∀ pd, ∀ v < 512 ^ 4, find 512 4 (s'.mem.pds.space.hpt pd) v = find 512 4 (s.mem.pds.space.hpt pd) v
  wild : s'.mem.pds.space.wild = s.mem.pds.space.wild
  cpus : s'.cpus = s.cpus
  ecs : s'.mem.ecs = s.mem.ecs
  mem : SameNodes s.mem.pds s'.mem.pds
  obj : SameNodes s.obj s'.obj
  slots : s'.obj.space = s.obj.space

/-- `remove_utcb` takes nothing from the node `n`. -/
def Spared {σ : Type} (st : State σ) (n : NodeId) : Prop :=
  (st.mdb n).nodeAttr &&& 0x3 = 0 ∧
    ((st.mdb n).nodeAttr = 0 → (st.mdb n).dpth < (st.mdb (st.mdb.next n)).dpth)

/-- Nothing is mapped at the address `u`, and nothing there is to be taken. -/
def Vacant (st : State (MemState θ)) (pd : PdId) (u : Mword) : Prop :=
  find 512 4 (st.space.hpt pd) (shr u 12).toNat = none ∧
    ∀ n, st.lookup pd (shr u 12) false = some n → Spared st n

section Pages

theorem insertPage_wild {p a : Mword} (h : st.space.wild = true) : (insertPage T pd u p a st).space.wild = true := by
  unfold insertPage MemState.hptUpdate
  dsimp only
  split
  · exact h
  · rfl
  · exact h

theorem insertPage_superpage {p a : Mword} (h : ¬NoSuperpage st pd u) :
    (insertPage T pd u p a st).space.wild = true := by
  unfold NoSuperpage at h
  push Not at h
  obtain ⟨l, x, hf, hl⟩ := h
  unfold insertPage MemState.hptUpdate
  dsimp only
  rw [put_of_find 3 (by simpa using hf) (Nat.pos_of_ne_zero hl)]

theorem insertPage_twice {p a : Mword} {st' : State (MemState θ)} (hu : utcbValid u = true)
    (hh : st'.space.hpt = (insertPage T pd u p a st).space.hpt)
    (hst : st'.space.wild = (insertPage T pd u p a st).space.wild) (hw : st.space.wild = false) :
    ((∀ q, ∀ v < 512 ^ 4, find 512 4 ((insertPage T pd u 0 0 st').space.hpt q) v = find 512 4 (st.space.hpt q) v) ∧
      (insertPage T pd u 0 0 st').space.wild = st.space.wild) ↔
      find 512 4 (st.space.hpt pd) (shr u 12).toNat = none := by
  have hlt : (shr u 12).toNat < 512 ^ 4 := (page_lt hu).trans (by decide)
  by_cases hns : NoSuperpage st pd u
  · obtain ⟨hwild, hother, hout₁, hinn⟩ := insertPage_rewrote T p a hu hns
    rw [← hh] at hother hout₁ hinn
    rw [← hst] at hwild
    have hns' : NoSuperpage st' pd u := by
      intro l x hf
      rcases hinn _ le_rfl (Nat.lt_succ_self _) with h | ⟨-, h⟩
      · rw [h] at hf
        simp at hf
      · rw [h] at hf
        exact (Prod.mk.inj (Option.some.inj hf)).1.symm
    have h₂ := insertPage_rewrote T 0 0 hu hns'
    have hnone : find 512 4 ((insertPage T pd u 0 0 st').space.hpt pd) (shr u 12).toNat = none := by
      rcases h₂.inn _ le_rfl (Nat.lt_succ_self _) with h | ⟨h, -⟩
      · exact h
      · exact absurd rfl h
    constructor
    · rintro ⟨hpages, -⟩
      rw [← hpages pd _ hlt, hnone]
    · intro hfree
      refine ⟨fun q v hv => ?_, h₂.wild.trans hwild⟩
      by_cases hq : q = pd
      · subst hq
        by_cases hvp : v = (shr u 12).toNat
        · rw [hvp, hnone, hfree]
        · have hout : ¬((shr u 12).toNat ≤ v ∧ v < (shr u 12).toNat + 1) := by omega
          rw [h₂.out v hv hout, hout₁ v hv hout]
      · rw [h₂.other q hq, hother q hq]
  · refine iff_of_false (fun h => ?_) fun hfree => hns fun l x hf => ?_
    · have h₁ : st'.space.wild = true := by
        rw [hst]
        exact insertPage_superpage hns
      rw [insertPage_wild h₁, hw] at h
      exact absurd h.2 (by simp)
    · rw [hfree] at hf
      simp at hf

end Pages

section Nodes

variable {σ : Type} {st st' : State σ} {n : NodeId}

theorem and_not_eq_self_iff (x m : Mword) : x &&& ~~~m = x ↔ x &&& m = 0 := by
  constructor
  · intro h
    rw [← h, BitVec.and_assoc, BitVec.and_comm (~~~m), BitVec.and_not_self]
    exact BitVec.and_zero
  · intro h
    have hsplit : x = x &&& m ||| x &&& ~~~m := by
      rw [← BitVec.and_or_distrib_left, BitVec.or_not_self, BitVec.and_allOnes]
    rw [h] at hsplit
    exact (hsplit.trans (BitVec.zero_or ..)).symm

theorem Quiet.lookup_iff (hw : Wf st) (hq : Quiet (fun _ _ => True) st st') {b : Mword} :
    st'.lookup pd b false = some n ↔ st.lookup pd b false = some n := by
  rw [hw.lookup_iff, (hq.wf hw).lookup_iff, hq.tree]
  constructor
  · rintro ⟨hm, hc⟩
    rw [hq.mdb n (hw.mem pd n hm).2] at hc
    exact ⟨hm, hc⟩
  · rintro ⟨hm, hc⟩
    rw [← hq.mdb n (hw.mem pd n hm).2] at hc
    exact ⟨hm, hc⟩

theorem Quiet.spared_iff (hw : Wf st) (hq : Quiet (fun _ _ => True) st st') (hn : st.Live n) :
    Spared st' n ↔ Spared st n := by
  have hlt := hw.lt hn
  have hnext : st'.mdb.next n = st.mdb.next n := congrArg Mdb.next (hq.mdb n hlt)
  unfold Spared
  rw [hnext, hq.mdb n hlt, hq.mdb _ (hw.lt (hw.live_next hn))]

theorem removeUtcb_same (hw : Wf st) (hq : Quiet (fun _ _ => True) st st') (hu : u ≠ 0) :
    SameNodes st (removeUtcb pd u st') ↔ ∀ n, st.lookup pd (shr u 12) false = some n → Spared st n := by
  have hlook : ∀ n, st'.lookup pd (shr u 12) false = some n ↔ st.lookup pd (shr u 12) false = some n :=
    fun n => Quiet.lookup_iff hw hq
  have hw₀ := hq.wf hw
  unfold removeUtcb
  rw [if_neg hu]
  cases hl : st'.lookup pd (shr u 12) false with
  | none =>
    refine iff_of_true ⟨hq.tree, hq.mdb⟩ fun n hn => ?_
    rw [(hlook n).mpr hn] at hl
    simp at hl
  | some n =>
    have hlive₀ := hw.live_of_mem (lookup_mem ((hlook n).mp hl))
    have hlive := hw₀.live_of_mem (lookup_mem hl)
    have hd : Demoted st' { st' with mdb := demoteNode st'.mdb n 0x3 } n 0x3 := strip_demoted hlive
    have hw' := hd.wf hw₀
    have hlive' := (hd.live_iff n).mpr hlive
    have hone : (∀ m, st.lookup pd (shr u 12) false = some m → Spared st m) ↔ Spared st' n := by
      rw [(hlook n).mp hl, Quiet.spared_iff hw hq hlive₀]
      simp
    rw [hone]
    change SameNodes st (({ st' with mdb := demoteNode st'.mdb n 0x3 } : State σ).remove n true) ↔ _
    generalize hst : ({ st' with mdb := demoteNode st'.mdb n 0x3 } : State σ) = st₁ at hd hw' hlive'
    have hn : st₁.mdb.next n = st'.mdb.next n := (hd.node n).2.1
    have hattr := hd.attr n
    rw [if_pos rfl] at hattr
    unfold Spared
    by_cases hr : (st₁.mdb n).nodeAttr = 0 ∧ (true = true → (st₁.mdb (st₁.mdb.next n)).dpth ≤ (st₁.mdb n).dpth)
    · have hdrop : Dropped true st₁ (st₁.remove n true) n := remove_dropped hw' hlive' hr.1 hr.2
      have hgone : ¬(st₁.remove n true).Live n := fun h => ((hdrop.live_iff hw' n).mp h).1 rfl
      refine iff_of_false (fun hs => hgone ?_) fun hs => ?_
      · unfold State.Live
        rw [hs.1, hs.2 n (hw.lt hlive₀)]
        exact hlive₀
      · rw [(and_not_eq_self_iff _ _).mpr hs.1] at hattr
        have hnext : (st₁.mdb (st₁.mdb.next n)).dpth ≤ (st₁.mdb n).dpth := hr.2 rfl
        rw [hn, (hd.node _).1.dpth, (hd.node n).1.dpth] at hnext
        exact absurd (hs.2 (hattr.symm.trans hr.1)) (Nat.not_lt.mpr hnext)
    · rw [remove_eq_self hr]
      constructor
      · intro hs
        have hsame : (st₁.mdb n).nodeAttr = (st'.mdb n).nodeAttr := by
          rw [hs.2 n (hw.lt hlive₀), hq.mdb n (hw.lt hlive₀)]
        refine ⟨(and_not_eq_self_iff _ _).mp (hattr.symm.trans hsame), fun h0 => ?_⟩
        by_contra hle
        refine hr ⟨hsame.trans h0, fun _ => ?_⟩
        rw [hn, (hd.node _).1.dpth, (hd.node n).1.dpth]
        exact Nat.not_lt.mp hle
      · rintro ⟨h3, -⟩
        have hmdb : st₁.mdb = st'.mdb := by
          rw [← hst]
          change demoteNode st'.mdb n 0x3 = st'.mdb
          unfold demoteNode
          funext m
          by_cases hm : m = n
          · subst hm
            rw [Heap.set_self]
            rw [(and_not_eq_self_iff _ _).mpr h3]
          · rw [Heap.set_of_ne _ _ hm]
        refine ⟨hd.tree.trans hq.tree, fun m hm => ?_⟩
        rw [hmdb]
        exact hq.mdb m hm

theorem lookup_eq_none_iff {b : Mword} :
    st.lookup pd b false = none ↔ ¬∃ m ∈ st.tree pd, (st.mdb m).covers b = true := by
  have hlook : st.lookup pd b false = (st.tree pd).find? fun m => (st.mdb m).covers b := by
    unfold State.lookup Mapdb.lookup
    cases (st.tree pd).find? fun m => (st.mdb m).covers b <;> rfl
  rw [hlook, List.find?_eq_none]
  simp

theorem mdb_eq_of_same {x y : Mdb} (h : SameNode x y) (ha : x.nodeAttr = y.nodeAttr) (hp : x.prnt = y.prnt)
    (hn : x.next = y.next) (hv : x.prev = y.prev) : x = y := by
  obtain ⟨h1, h2, h3, h4, h5, h6, h7⟩ := h
  cases x
  cases y
  simp_all

theorem removeUtcb_insertRoot {S : SpaceOps σ} {f : Mword} (hw : Wf st) (hu : u ≠ 0)
    (hfree : st.lookup pd (shr u 12) false = none) :
    SameNodes st (removeUtcb pd u (insertRoot S pd f (shr u 12) 0 0x3 0 st).1) := by
  have hok := mt (insertRoot_eq_false S pd f (shr u 12) 0x3 hw).mp (lookup_eq_none_iff.mp hfree)
  have hmeets : Meets S (fun _ _ => True) (fun _ _ => True) (fun _ _ => True) 0
      (.insertRoot pd f (shr u 12) 0 0x3 0) st := ⟨by decide, aligned_zero _, aligned_zero _, by decide⟩
  obtain ⟨-, hroot, hnode⟩ := (insertRoot_cases (trivial_frame S) hw hmeets).resolve_left fun h => hok h.1
  have htree : (insertRoot S pd f (shr u 12) 0 0x3 0 st).1.tree =
      Function.update st.tree pd (insertOrdered (st.alloc S pd (rootNode pd st.fresh f (shr u 12) 0 0x3 0)).mdb st.fresh
        (st.tree pd)) := by
    unfold insertRoot at hok ⊢
    dsimp only at hok ⊢
    split at hok
    · exact absurd rfl hok
    · rename_i tree ht
      have ht' : treeInsert (st.alloc S pd (rootNode pd st.fresh f (shr u 12) 0 0x3 0)).mdb (st.tree pd) st.fresh =
        some tree := ht
      obtain ⟨-, rfl⟩ := treeInsert_some ht'
      rfl
  have hold : ∀ m < st.fresh, (insertRoot S pd f (shr u 12) 0 0x3 0 st).1.mdb m = st.mdb m := by
    intro m hm
    obtain ⟨hs, ha, hp⟩ := hroot.old m hm
    exact mdb_eq_of_same hs ha hp (hroot.links m hm).1 (hroot.links m hm).2
  generalize (insertRoot S pd f (shr u 12) 0 0x3 0 st).1 = st₁ at *
  have hw₁ := hroot.wf hw
  have hself : (st₁.mdb st.fresh).space = pd := by
    rw [hnode]
    rfl
  have hmem : st.fresh ∈ st₁.tree pd := by
    have := (hroot.tree st.fresh).mpr (.inl rfl)
    rwa [hself] at this
  have hlook : st₁.lookup pd (shr u 12) false = some st.fresh := by
    rw [hw₁.lookup_iff]
    refine ⟨hmem, ?_, ?_⟩
    · rw [hnode]
      exact le_rfl
    · rw [hnode]
      exact Nat.lt_succ_self _
  have hlive := hw₁.live_of_mem hmem
  unfold removeUtcb
  rw [if_neg hu, hlook]
  dsimp only
  have hd : Demoted st₁ { st₁ with mdb := demoteNode st₁.mdb st.fresh 0x3 } st.fresh 0x3 := strip_demoted hlive
  generalize ({ st₁ with mdb := demoteNode st₁.mdb st.fresh 0x3 } : State σ) = st₂ at hd
  have hw₂ := hd.wf hw₁
  have hlive₂ := (hd.live_iff _).mpr hlive
  have hzero : (st₂.mdb st.fresh).nodeAttr = 0 := by
    rw [hd.attr, if_pos rfl, hnode]
    change (0x3 : Mword) &&& ~~~0x3 = 0
    decide
  have hnext : st₂.mdb.next st.fresh = st.fresh := (hd.node _).2.1.trans hroot.self.1
  have hprev : st₂.mdb.prev st.fresh = st.fresh := (hd.node _).2.2.1.trans hroot.self.2
  have hdrop : Dropped true st₂ (st₂.remove st.fresh true) st.fresh :=
    remove_dropped hw₂ hlive₂ hzero fun _ => by rw [hnext]
  constructor
  · rw [hdrop.tree, hd.tree, (hd.node _).1.space, hself, htree]
    have hnot : st.fresh ∉ st.tree pd := fun h => lt_irrefl _ (hw.mem pd _ h).2
    rw [Function.update_self, erase_insertOrdered hnot, Function.update_idem, Function.update_eq_self]
  · intro m hm
    have hne : m ≠ st.fresh := hm.ne
    rw [← hold m hm]
    refine mdb_eq_of_same ((hdrop.node m).1.trans (hd.node m).1) ?_ ?_ ?_ ?_
    · rw [(hdrop.node m).2, hd.attr, if_neg hne]
    · rw [hdrop.prnt, if_neg (by simp), (hd.node m).2.2.2]
    · exact (hdrop.links.next_of_ne m (by rwa [hprev])).trans (hd.node m).2.1
    · exact (hdrop.links.prev_of_ne m (by rwa [hnext])).trans (hd.node m).2.2.1

theorem insertRoot_inWay {S : SpaceOps σ} {f : Mword} (hw : Wf st)
    (hn : st.lookup pd (shr u 12) false = some n) : Quiet (fun _ _ => True) st (insertRoot S pd f (shr u 12) 0 0x3 0 st).1 := by
  have hmeets : Meets S (fun _ _ => True) (fun _ _ => True) (fun _ _ => True) 0
      (.insertRoot pd f (shr u 12) 0 0x3 0) st := ⟨by decide, aligned_zero _, aligned_zero _, by decide⟩
  have hfalse : (insertRoot S pd f (shr u 12) 0 0x3 0 st).2 = false := by
    rw [insertRoot_eq_false S pd f _ _ hw]
    by_contra hocc
    rw [lookup_eq_none_iff.mpr hocc] at hn
    simp at hn
  rcases insertRoot_cases (trivial_frame S) hw hmeets with ⟨-, h⟩ | ⟨h, -⟩
  · exact h
  · exact absurd (hfalse.symm.trans h) (by simp)

end Nodes

/-- The call refuses or succeeds, or the domain has its tables for the CPU already
and there is nothing at the address of the UTCB. -/
def EcClean (T : Tables θ) (k : Creator θ σ) (r : EcArgs) : Prop :=
  ¬Occ k.obj k.cur r.sel ∨
    ∀ pd, k.tests T r = .ok pd → k.cpus pd r.cpu = true ∧ (r.utcb = 0 ∨ Vacant k.mem.pds pd r.utcb)

theorem utcb_nodes {S : SpaceOps σ} {st st' : State σ} {f : Mword} {c : Prop} [Decidable c] (hw : Wf st) (hu : u ≠ 0)
    (hq : Quiet (fun _ _ => True) st st') (hf : st'.fresh = st.fresh) :
    SameNodes st (removeUtcb pd u (if c then (insertRoot S pd f (shr u 12) 0 0x3 0 st').1 else st')) ↔
      ∀ n, st.lookup pd (shr u 12) false = some n → Spared st n := by
  by_cases hc : c
  · rw [if_pos hc]
    cases hl : st'.lookup pd (shr u 12) false with
    | none =>
      refine iff_of_true ?_ fun n hn => ?_
      · have h := removeUtcb_insertRoot (S := S) (f := f) (hq.wf hw) hu hl
        refine ⟨h.1.trans hq.tree, fun m hm => (h.2 m (hf ▸ hm)).trans (hq.mdb m hm)⟩
      · rw [(Quiet.lookup_iff hw hq).mpr hn] at hl
        simp at hl
    | some n =>
      have h := insertRoot_inWay (S := S) (f := f) (hq.wf hw) hl
      have hq' : Quiet (fun _ _ => True) st (insertRoot S pd f (shr u 12) 0 0x3 0 st').1 :=
        ⟨trivial, fun m hm => (h.mdb m (hf ▸ hm)).trans (hq.mdb m hm), hq.fresh.trans h.fresh, h.tree.trans hq.tree,
          h.orig.trans hq.orig⟩
      exact removeUtcb_same hw hq' hu
  · rw [if_neg hc]
    exact removeUtcb_same hw hq hu

theorem remove_space (st : State σ) (n : NodeId) (leaf : Bool) : (st.remove n leaf).space = st.space := by
  unfold State.remove
  split
  · rfl
  · split <;> rfl

theorem removeUtcb_space (st : State σ) : (removeUtcb pd u st).space = st.space := by
  unfold removeUtcb
  split
  · rfl
  · split
    · rfl
    · exact remove_space _ _ _

theorem insertRoot_tables {phys base order attr type : Mword} (st : State (MemState θ)) :
    (insertRoot (memSpace T) pd phys base order attr type st).1.space.hpt = st.space.hpt ∧
      (insertRoot (memSpace T) pd phys base order attr type st).1.space.wild = st.space.wild := by
  unfold insertRoot
  dsimp only
  split
  · exact ⟨rfl, rfl⟩
  · exact ⟨rfl, rfl⟩

theorem destroyEc_createEc (T : Tables θ) (pd : PdId) (k : Creator θ σ) (hu : utcbValid u = true) :
    ((∀ q, ∀ v < 512 ^ 4, find 512 4 ((destroyEc T ⟨pd, u, k.frame⟩ (createEc T ⟨pd, u, k.frame⟩ k.mem)).pds.space.hpt q) v =
        find 512 4 (k.mem.pds.space.hpt q) v) ∧
      (destroyEc T ⟨pd, u, k.frame⟩ (createEc T ⟨pd, u, k.frame⟩ k.mem)).pds.space.wild = k.mem.pds.space.wild ∧
      SameNodes k.mem.pds (destroyEc T ⟨pd, u, k.frame⟩ (createEc T ⟨pd, u, k.frame⟩ k.mem)).pds) ↔
      u = 0 ∨ Vacant k.mem.pds pd u := by
  unfold createEc destroyEc
  simp only [hu, Bool.not_true, Bool.false_eq_true, if_false]
  by_cases h0 : u = 0
  · simp only [h0, if_true, true_or, iff_true]
    exact ⟨fun _ _ _ => trivial, trivial, rfl, fun _ _ => rfl⟩
  · simp only [h0, if_false, false_or]
    generalize hst : (if pd = rootPd ∧ k.frame ≠ 0 then
      (insertRoot (memSpace T) pd k.frame (shr u 12) 0 0x3 0 (insertPage T pd u k.frame 0x7 k.mem.pds)).1
      else insertPage T pd u k.frame 0x7 k.mem.pds) = st
    have htables : st.space.hpt = (insertPage T pd u k.frame 0x7 k.mem.pds).space.hpt ∧
        st.space.wild = (insertPage T pd u k.frame 0x7 k.mem.pds).space.wild := by
      rw [← hst]
      split
      · exact insertRoot_tables _
      · exact ⟨rfl, rfl⟩
    have hspace : (removeUtcb pd u st).space = st.space := removeUtcb_space st
    have hpages := insertPage_twice hu (hspace ▸ htables.1) (hspace ▸ htables.2) k.tame
    have hquiet : Quiet (fun _ _ => True) k.mem.pds (insertPage T pd u k.frame 0x7 k.mem.pds) :=
      ⟨trivial, fun _ _ => rfl, le_rfl, rfl, rfl⟩
    have hnodes : SameNodes k.mem.pds (insertPage T pd u 0 0 (removeUtcb pd u st)) ↔ _ :=
      hst ▸ utcb_nodes k.wf h0 hquiet rfl
    unfold Vacant
    rw [← hpages, ← hnodes, and_assoc]

theorem ecs_restored (k : Creator θ σ) (e : Space.Ec) (hu : utcbValid e.utcb = true) :
    (destroyEc T e (createEc T e k.mem)).ecs = k.mem.ecs := by
  unfold createEc destroyEc
  simp only [hu, Bool.not_true, Bool.false_eq_true, if_false]
  split
  · exact List.erase_cons_head ..
  · exact List.erase_cons_head ..

theorem tests_utcb (h : k.tests T r = .ok pd) : utcbValid r.utcb = true := by
  unfold Creator.tests at h
  split at h
  · simp at h
  · split at h
    · simp at h
    · split at h
      · simp at h
      · split at h
        · simp at h
        · split at h
          · simp at h
          · split at h
            · simp at h
            · split at h
              · simp at h
              · rename_i hv
                by_contra hn
                simp [hn] at hv

theorem insertObj_slot {st t : State σ} {cur : PdId} {obj sel attr : Mword} {ok : Bool} (hw : Wf st)
    (ha : attr &&& ~~~0x1f = 0) (h : insertObj O cur obj sel attr st = (t, ok)) :
    ok = false ∧ Occ st cur sel ∧ SameNodes st t ∧ t.space = st.space ∨ ok = true ∧ ¬Occ st cur sel := by
  cases hi : insertRoot (embedded O) cur obj sel 0 attr 0 st with
  | mk u c =>
    unfold insertObj at h
    rw [hi] at h
    rcases insertRoot_slot hw ha hi with ⟨rfl, hocc, hs, hx⟩ | ⟨rfl, hocc, -⟩
    · obtain ⟨rfl, rfl⟩ := Prod.mk.inj h
      exact .inl ⟨rfl, hocc, hs, hx⟩
    · dsimp only at h
      split at h
      · obtain ⟨-, rfl⟩ := Prod.mk.inj h
        exact .inr ⟨rfl, hocc⟩
      · obtain ⟨-, rfl⟩ := Prod.mk.inj h
        exact .inr ⟨rfl, hocc⟩

theorem cpus_update_iff (k : Creator θ σ) (pd : PdId) (c : Nat) :
    Function.update k.cpus pd (Function.update (k.cpus pd) c true) = k.cpus ↔ k.cpus pd c = true := by
  rw [Function.update_eq_self_iff, Function.update_eq_self_iff]
  exact eq_comm

/-- A call that fails leaves memory, database and slots as they were exactly under
these conditions. -/
theorem failed_unmoved_iff (k : Creator θ σ) (r : EcArgs) :
    ((sysCreateEc T O k r).1 ≠ .success → Unmoved k.toScene (sysCreateEc T O k r).2) ↔ EcClean T k r := by
  unfold sysCreateEc EcClean
  cases ht : k.tests T r with
  | error status =>
    refine iff_of_true (fun _ => ?_) (.inr fun pd h => by simp at h)
    exact ⟨fun _ _ _ => rfl, rfl, rfl, rfl, ⟨rfl, fun _ _ => rfl⟩, ⟨rfl, fun _ _ => rfl⟩, rfl⟩
  | ok pd =>
    have hu := tests_utcb ht
    dsimp only
    cases hi : insertObj O k.cur k.newEc r.sel 0xd k.obj with
    | mk obj ok =>
      rcases insertObj_slot k.wfObj (by decide) hi with ⟨rfl, hocc, hobj, hslots⟩ | ⟨rfl, hocc⟩
      · have hmem := destroyEc_createEc T pd k hu
        have hecs : (destroyEc T ⟨pd, r.utcb, k.frame⟩ (createEc T ⟨pd, r.utcb, k.frame⟩ k.mem)).ecs = k.mem.ecs :=
          ecs_restored k ⟨pd, r.utcb, k.frame⟩ hu
        have hcpus := cpus_update_iff k pd r.cpu
        rw [or_iff_right (not_not.mpr hocc)]
        simp only [Except.ok.injEq, forall_eq']
        rw [← hmem, ← hcpus]
        constructor
        · intro h
          obtain ⟨hpages, hwild, hc, -, hnodes, -, -⟩ := h (by simp)
          exact ⟨hc, hpages, hwild, hnodes⟩
        · rintro ⟨hc, hpages, hwild, hnodes⟩ -
          exact ⟨hpages, hwild, hc, hecs, hnodes, hobj, hslots⟩
      · exact iff_of_true (fun h => absurd rfl h) (.inl hocc)

/-- The domain 2 has an EC with its UTCB at 0x1000, and an object at the selector 5. -/
def utcbInUse : Creator Unit Unit where
  mem := createEc plainTables ⟨2, 0x1000, 0x40⟩ ⟨boot ⟨(), fun _ => .empty, false⟩, [], []⟩
  cpus _ _ := true
  obj := (insertRoot bareSpace 2 0 5 0 0x1f 0 (boot ())).1
  cur := 2
  caps i := if i = 3 then some ⟨2, 3⟩ else none
  online _ := true
  virt := false
  quota _ := ⟨0, 0, 100, 0⟩
  frame := 0x41
  newEc := 0
  wf := Wf.boot _
  wfObj := by
    have hmeets : Meets bareSpace (fun _ _ => True) (fun _ _ => True) (fun _ _ => True) 0
        (.insertRoot 2 0 5 0 0x1f 0) (boot ()) := by decide
    exact (insertRoot_steps bareSpace_frame (Wf.boot ()) hmeets).wf (Wf.boot ())
  tame := rfl

/-- Another EC with its UTCB at the same address takes it away. -/
theorem utcbInUse_not_unmoved :
    ¬∀ (k : Creator Unit Unit) (r : EcArgs), (sysCreateEc plainTables bareSpace k r).1 ≠ .success →
      Unmoved k.toScene (sysCreateEc plainTables bareSpace k r).2 := by
  intro hall
  have hrun : (sysCreateEc plainTables bareSpace utcbInUse ⟨5, 3, 0, 0x1000⟩).1 = .badCap := by decide +kernel
  have hne : (sysCreateEc plainTables bareSpace utcbInUse ⟨5, 3, 0, 0x1000⟩).1 ≠ .success := by
    rw [hrun]
    exact fun h => nomatch h
  have hu := hall utcbInUse ⟨5, 3, 0, 0x1000⟩ hne
  have hgone : find 512 4 ((sysCreateEc plainTables bareSpace utcbInUse ⟨5, 3, 0, 0x1000⟩).2.mem.pds.space.hpt 2) 1 =
      none := by decide +kernel
  have hmapped : find 512 4 (utcbInUse.mem.pds.space.hpt 2) 1 = some (0, ⟨0x40, 0x7⟩) := by decide +kernel
  have := hu.pages 2 1 (by decide)
  rw [hgone] at this
  exact absurd (this.trans hmapped) (by simp)

end Tukija.Create
