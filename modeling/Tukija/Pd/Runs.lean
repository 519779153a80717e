import Tukija.Pd.Withdraw
import Tukija.Pd.Walk

/-! Histories of calls.  A history may be confined to calls that meet a
condition at every node they are about to work on. -/
namespace Tukija.Pd

open Tukija.Lib.Word Tukija.Lib.Ring Tukija.Mapdb

variable {σ : Type} {S : SpaceOps σ} {E : σ → σ → Prop} {st st' : State σ}
  {G L U : State σ → NodeId → Prop}

inductive Op where
  | delegate (this snd : PdId) (sndBase rcvBase ord attr sub : Mword)
  | revoke (pd : PdId) (base ord attr : Mword) (self kim : Bool)
  | insertRoot (pd : PdId) (phys base order attr type : Mword)
  | removeUtcb (pd : PdId) (b : Mword)

def exec (S : SpaceOps σ) (fuel : Nat) : Op → State σ → Option (State σ)
  | .delegate this snd sndBase rcvBase ord attr sub, st =>
    (delegate S fuel this snd sndBase rcvBase ord attr sub st).map Prod.fst
  | .revoke pd base ord attr self kim, st => revoke S fuel pd base ord attr self kim st
  | .insertRoot pd phys base order attr type, st => some (insertRoot S pd phys base order attr type st).1
  | .removeUtcb pd b, st => some (removeUtcb pd b st)

/-- Ranges are naturally aligned, `G` holds of every node that is about to get
a child, `L` of every node that is about to be lifted out of its list and `U` of
every node that `remove_utcb` finds. -/
def Meets (S : SpaceOps σ) (G L U : State σ → NodeId → Prop) (fuel : Nat) : Op → State σ → Prop
  | .delegate this snd sndBase rcvBase ord attr sub, st =>
    ord.toNat < 64 ∧ Aligned ord.toNat sndBase ∧ Aligned ord.toNat rcvBase ∧
      walkAll Prod.fst snd sndBase ord (delegateNode S this sndBase rcvBase attr sub)
        (fun m b o t => grants S this sndBase rcvBase attr sub m b o t.1 = true → G t.1 m)
        fuel sndBase (st, false)
  | .revoke pd base ord attr self kim, st =>
    walkAll id pd base ord (revokeNode S fuel attr self kim)
      (fun m _ _ st => keeps kim m st = true → L st m) fuel base st
  | .insertRoot _ phys base order attr _, _ =>
    order.toNat < 64 ∧ Aligned order.toNat base ∧ Aligned order.toNat phys ∧ attr &&& ~~~0x1f = 0
  | .removeUtcb pd b, st => b ≠ 0 → ∀ n, st.lookup pd (shr b 12) false = some n → U st n

instance (G L U : State σ → NodeId → Prop) [∀ st m, Decidable (G st m)]
    [∀ st m, Decidable (L st m)] [∀ st m, Decidable (U st m)] (fuel : Nat) (op : Op) (st : State σ) :
    Decidable (Meets S G L U fuel op st) :=
  match op with
  | .delegate .. => inferInstanceAs (Decidable (_ ∧ _ ∧ _ ∧ walkAll ..))
  | .revoke .. => inferInstanceAs (Decidable (walkAll ..))
  | .insertRoot .. => inferInstanceAs (Decidable (_ ∧ _ ∧ _ ∧ _))
  | .removeUtcb pd b =>
    match h : st.lookup pd (shr b 12) false with
    | none => isTrue (by simp only [Meets, h, reduceCtorEq, false_imp_iff, implies_true])
    | some n => decidable_of_iff (b ≠ 0 → U st n) (by
        simp only [Meets, h, Option.some.injEq, forall_eq'])

/-- The states that calls confined by `G`, `L` and `U` lead to.  In between,
the quotas and the hazards of the CPU may change. -/
inductive Reach (S : SpaceOps σ) (E : σ → σ → Prop) (G L U : State σ → NodeId → Prop) :
    State σ → Prop where
  | boot (space : σ) : Reach S E G L U (boot space)
  | env {st : State σ} {space : σ} (oom iommu preemption : Bool) (h : Reach S E G L U st)
      (he : E st.space space) :
      Reach S E G L U { st with space := space, oom := oom, iommu := iommu, preemption := preemption }
  | call {st st' : State σ} (op : Op) (fuel : Nat) (h : Reach S E G L U st)
      (hm : Meets S G L U fuel op st) (he : exec S fuel op st = some st') : Reach S E G L U st'

theorem Wf.boot (space : σ) : Wf (boot space) where
  mem pd n hn := by simp [Pd.boot] at hn
  ordered pd := List.Pairwise.nil
  natural n hn := by simp [Pd.boot, State.Live] at hn
  ring n hn := by simp [Pd.boot, State.Live] at hn

theorem lookup_mem {pd : PdId} {addr : Mword} {next : Bool} {m : NodeId}
    (h : st.lookup pd addr next = some m) : m ∈ st.tree pd := by
  unfold State.lookup lookup at h
  split at h
  · rename_i hf
    obtain rfl := Option.some.inj h
    exact List.mem_of_find?_eq_some hf
  · split at h
    · exact List.mem_of_find?_eq_some h
    · simp at h

section Operations

variable {fuel : Nat} {pd this snd : PdId}

theorem Visits.live {τ : Type} {get : τ → State σ} {base ord addr : Mword} {t : τ} {m : NodeId}
    {b o : Mword} (hv : Visits get pd base ord addr t m b o) (hw : Wf (get t)) : (get t).Live m :=
  hw.live_of_mem (lookup_mem hv.lookup)

theorem Visits.part {τ : Type} {get : τ → State σ} {base ord addr : Mword} {t : τ} {m : NodeId}
    {b o : Mword} (hv : Visits get pd base ord addr t m b o) (hw : Wf (get t))
    (ho : ord.toNat < 64) (hb : Aligned ord.toNat base) : Part ((get t).mdb m) base ord b o := by
  have := clamp_part (hw.natural m (hv.live hw)) ho hb (by rw [hv.clamp]; exact hv.order)
  rwa [hv.clamp] at this

theorem delegate_steps {sndBase rcvBase ord attr sub : Mword} (hE : S.Frame E) (hw : Wf st)
    (hm : Meets S G L U fuel (.delegate this snd sndBase rcvBase ord attr sub) st)
    {r : State σ × Bool}
    (h : delegate S fuel this snd sndBase rcvBase ord attr sub st = some r) :
    Steps S E G L U st r.1 := by
  obtain ⟨ho, hs, hr, hall⟩ := hm
  have hinner : ∀ c, walkRange Prod.fst snd sndBase ord
      (delegateNode S this sndBase rcvBase attr sub) fuel sndBase (st, false) = some c →
      Steps S E G L U st c.val.1 := by
    intro c hc
    -- at the loop head: everything so far was a sequence of changes
    apply walkRange_rule (fun _ t => Steps S E G L U st t.1)
      (fun c => Steps S E G L U st c.val.1) _ _ _ .refl hall hc
    · intro addr t hinv _
      exact hinv
    · intro addr t m b o t' hinv hv hG hb
      have hwt := hinv.wf hw
      exact hinv.trans
        (delegateNode_steps hE hwt (hv.live hwt) hs hr (hv.part hwt ho hs) hG hb)
    · intro addr t m b o t' hinv hv hG hb
      have hwt := hinv.wf hw
      exact hinv.trans
        (delegateNode_steps hE hwt (hv.live hwt) hs hr (hv.part hwt ho hs) hG hb)
  unfold delegate at h
  split at h
  · simp at h
  · rename_i t hc
    obtain rfl := Option.some.inj h
    exact hinner _ hc
  · rename_i t hc
    split at h
    · obtain rfl := Option.some.inj h
      exact hinner _ hc
    · obtain rfl := Option.some.inj h
      exact (hinner _ hc).tail (.quiet ⟨hE.refl _, fun _ _ => rfl, le_rfl, rfl, rfl⟩)

theorem revoke_steps {base ord attr : Mword} {self kim : Bool} (hE : S.Frame E) (hL : Stable L)
    (hw : Wf st) (hm : Meets S G L U fuel (.revoke pd base ord attr self kim) st)
    (h : revoke S fuel pd base ord attr self kim st = some st') : Steps S E G L U st st' := by
  have hinner : ∀ c, walkRange id pd base ord (revokeNode S fuel attr self kim) fuel base st =
      some c → Steps S E G L U st c.val := by
    intro c hc
    apply walkRange_rule (fun _ t => Steps S E G L U st t)
      (fun c => Steps S E G L U st c.val) _ _ _ .refl hm hc
    · intro addr t hinv _
      exact hinv
    · intro addr t m b o t' hinv hv hLm hb
      have hwt := hinv.wf hw
      exact hinv.trans (revokeNode_steps hL hwt (hv.live hwt) hLm hb)
    · intro addr t m b o t' hinv hv hLm hb
      have hwt := hinv.wf hw
      exact hinv.trans (revokeNode_steps hL hwt (hv.live hwt) hLm hb)
  unfold revoke at h
  split at h
  · simp at h
  · rename_i t hc
    obtain rfl := Option.some.inj h
    exact hinner _ hc
  · rename_i t hc
    split at h
    · obtain rfl := Option.some.inj h
      exact (hinner _ hc).tail (.quiet ⟨hE.refl _, fun _ _ => rfl, le_rfl, rfl, rfl⟩)
    · obtain rfl := Option.some.inj h
      exact hinner _ hc

theorem insertRoot_cases {phys base order attr type : Mword} (hE : S.Frame E) (hw : Wf st)
    (hm : Meets S G L U fuel (.insertRoot pd phys base order attr type) st) :
    (insertRoot S pd phys base order attr type st).2 = false ∧
        Quiet E st (insertRoot S pd phys base order attr type st).1 ∨
      (insertRoot S pd phys base order attr type st).2 = true ∧
        Rooted E st (insertRoot S pd phys base order attr type st).1 st.fresh ∧
          (insertRoot S pd phys base order attr type st).1.mdb st.fresh =
            rootNode pd st.fresh phys base order attr type := by
  obtain ⟨ho, hb, hp, ha⟩ := hm
  unfold insertRoot
  dsimp only
  generalize hx : rootNode pd st.fresh phys base order attr type = x
  have hnat : x.Natural := by
    rw [← hx]
    exact ⟨ho, hb, hp⟩
  split
  · left
    refine ⟨rfl, hE.trans _ _ _ (hE.alloc _ _) (hE.destroy _ _), ?_, Nat.le_succ _, rfl, rfl⟩
    intro y hy
    exact (alloc_old hy : (st.alloc S pd x).mdb y = st.mdb y)
  · rename_i tree ht
    right
    have hnew : ((st.alloc S pd x).setTree pd tree).mdb st.fresh = x :=
      (alloc_new : (st.alloc S pd x).mdb st.fresh = x)
    have hold : ∀ y < st.fresh, ((st.alloc S pd x).setTree pd tree).mdb y = st.mdb y :=
      fun y hy => (alloc_old hy : (st.alloc S pd x).mdb y = st.mdb y)
    refine ⟨rfl, ⟨?_, ?_, ?_, ?_, ?_, ?_, rfl, hE.alloc _ _⟩, hnew⟩
    · apply added_of_treeInsert hw hnat (by rw [← hx]; rfl) ht
      · exact fun y => SameNode.refl _
      · intro y hy
        rw [hold y hy]
        exact ⟨rfl, rfl⟩
      · rfl
      · rfl
    · intro y hy
      unfold Heap.next Heap.prev
      rw [hold y hy]
      exact ⟨rfl, rfl⟩
    · unfold Heap.next Heap.prev
      rw [hnew, ← hx]
      exact ⟨rfl, rfl⟩
    · rw [hnew, ← hx]
      rfl
    · rw [hnew, ← hx]
      exact ha
    · rw [hnew, ← hx]
      rfl

theorem insertRoot_steps {phys base order attr type : Mword} (hE : S.Frame E) (hw : Wf st)
    (hm : Meets S G L U fuel (.insertRoot pd phys base order attr type) st) :
    Steps S E G L U st (insertRoot S pd phys base order attr type st).1 := by
  rcases insertRoot_cases hE hw hm with ⟨-, h⟩ | ⟨-, h, -⟩
  · exact .single (.quiet h)
  · exact .single (.rooted st.fresh h)

theorem strip_demoted {n : NodeId} {r : Mword} (hn : st.Live n) :
    Demoted st { st with mdb := demoteNode st.mdb n r } n r := by
  have h := demote_demoted (S := ⟨id, fun _ _ s => (s, false, false), fun _ _ => false,
    fun _ s => s, fun _ s => s, fun _ _ => true⟩) (r := r) hn
  exact ⟨h.live, h.fresh, h.node, h.attr, h.tree, h.orig⟩

theorem removeUtcb_steps {b : Mword} (hw : Wf st)
    (hm : Meets S G L U fuel (.removeUtcb pd b) st) : Steps S E G L U st (removeUtcb pd b st) := by
  unfold removeUtcb
  split
  · exact .refl
  · rename_i hb
    split
    · exact .refl
    · rename_i n hn
      have hlive := hw.live_of_mem (lookup_mem hn)
      have hd := strip_demoted (r := 0x3) hlive
      have h1 : Steps S E G L U st { st with mdb := demoteNode st.mdb n 0x3 } :=
        .single (.stripped n (hm hb n hn) hd rfl)
      exact h1.trans (remove_steps (hd.wf hw) ((hd.live_iff n).mpr hlive))

end Operations

theorem exec_steps {fuel : Nat} {op : Op} (hE : S.Frame E) (hL : Stable L) (hw : Wf st)
    (hm : Meets S G L U fuel op st) (h : exec S fuel op st = some st') :
    Steps S E G L U st st' := by
  cases op with
  | delegate this snd sndBase rcvBase ord attr sub =>
    obtain ⟨r, hr, rfl⟩ := Option.map_eq_some_iff.mp h
    exact delegate_steps hE hw hm hr
  | revoke pd base ord attr self kim => exact revoke_steps hE hL hw hm h
  | insertRoot pd phys base order attr type =>
    obtain rfl := Option.some.inj h
    exact insertRoot_steps hE hw hm
  | removeUtcb pd b =>
    obtain rfl := Option.some.inj h
    exact removeUtcb_steps hw hm

theorem Reach.steps (hE : S.Frame E) (hL : Stable L) (h : Reach S E G L U st) :
    ∃ space, Steps S E G L U (Pd.boot space) st := by
  induction h with
  | boot space => exact ⟨space, .refl⟩
  | env oom iommu preemption _ he ih =>
    obtain ⟨space, hs⟩ := ih
    exact ⟨space, hs.tail (.quiet ⟨he, fun _ _ => rfl, le_rfl, rfl, rfl⟩)⟩
  | call op fuel _ hm he ih =>
    obtain ⟨space, hs⟩ := ih
    exact ⟨space, hs.trans (exec_steps hE hL (hs.wf (Wf.boot space)) hm he)⟩

/-- What every elementary change of a well-formed database preserves holds in
every state reached. -/
theorem Reach.invariant {I : State σ → Prop} (hE : S.Frame E) (hL : Stable L)
    (hboot : ∀ space, I (Pd.boot space))
    (hstep : ∀ st st', Wf st → I st → Effect S E G L U st st' → I st')
    (h : Reach S E G L U st) : Wf st ∧ I st := by
  obtain ⟨space, hs⟩ := h.steps hE hL
  clear h
  induction hs with
  | refl => exact ⟨Wf.boot space, hboot space⟩
  | tail _ he ih => exact ⟨he.wf ih.1, hstep _ _ ih.1 ih.2 he⟩

def execAll (S : SpaceOps σ) (fuel : Nat) : List Op → State σ → Option (State σ)
  | [], st => some st
  | op :: ops, st =>
    match exec S fuel op st with
    | none => none
    | some st => execAll S fuel ops st

/-- The conditions of `Meets` hold of every call in turn. -/
def MeetsAll (S : SpaceOps σ) (G L U : State σ → NodeId → Prop) (fuel : Nat) :
    List Op → State σ → Prop
  | [], _ => True
  | op :: ops, st =>
    Meets S G L U fuel op st ∧
      match exec S fuel op st with
      | none => True
      | some st => MeetsAll S G L U fuel ops st

instance meetsAllDecidable (G L U : State σ → NodeId → Prop) [∀ st m, Decidable (G st m)]
    [∀ st m, Decidable (L st m)] [∀ st m, Decidable (U st m)] (fuel : Nat) :
    ∀ ops st, Decidable (MeetsAll S G L U fuel ops st)
  | [], _ => isTrue trivial
  | op :: ops, st =>
    match h : exec S fuel op st with
    | none => decidable_of_iff (Meets S G L U fuel op st) (by simp [MeetsAll, h])
    | some st' =>
      have := meetsAllDecidable G L U fuel ops st'
      decidable_of_iff (Meets S G L U fuel op st ∧ MeetsAll S G L U fuel ops st')
        (by simp [MeetsAll, h])

theorem Reach.execAll {fuel : Nat} {ops : List Op} (hr : Reach S E G L U st)
    (hm : MeetsAll S G L U fuel ops st) (h : execAll S fuel ops st = some st') :
    Reach S E G L U st' := by
  induction ops generalizing st with
  | nil =>
    obtain rfl := Option.some.inj h
    exact hr
  | cons op ops ih =>
    unfold Pd.execAll at h
    unfold MeetsAll at hm
    cases he : exec S fuel op st with
    | none => simp [he] at h
    | some st1 =>
      simp only [he] at h hm
      exact ih (.call op fuel hr hm.1 he) hm.2 h

/-- The conditions on a call that do not depend on the state. -/
def Op.Natural : Op → Prop
  | .delegate _ _ sndBase rcvBase ord _ _ =>
    ord.toNat < 64 ∧ Aligned ord.toNat sndBase ∧ Aligned ord.toNat rcvBase
  | .revoke .. => True
  | .insertRoot _ phys base order attr _ =>
    order.toNat < 64 ∧ Aligned order.toNat base ∧ Aligned order.toNat phys ∧ attr &&& ~~~0x1f = 0
  | .removeUtcb .. => True

instance : DecidablePred Op.Natural := fun op =>
  match op with
  | .delegate .. => inferInstanceAs (Decidable (_ ∧ _ ∧ _))
  | .revoke .. => inferInstanceAs (Decidable True)
  | .insertRoot .. => inferInstanceAs (Decidable (_ ∧ _ ∧ _ ∧ _))
  | .removeUtcb .. => inferInstanceAs (Decidable True)

/-- Histories without any condition but alignment. -/
abbrev AnyReach (S : SpaceOps σ) (E : σ → σ → Prop) : State σ → Prop :=
  Reach S E (fun _ _ => True) (fun _ _ => True) (fun _ _ => True)

theorem meets_of_natural {fuel : Nat} {op : Op} (h : op.Natural) :
    Meets S (fun _ _ => True) (fun _ _ => True) (fun _ _ => True) fuel op st := by
  cases op with
  | delegate this snd sndBase rcvBase ord attr sub =>
    exact ⟨h.1, h.2.1, h.2.2, walkAll_of_forall (fun _ _ _ _ _ => trivial) _ _ _⟩
  | revoke pd base ord attr self kim => exact walkAll_of_forall (fun _ _ _ _ _ => trivial) _ _ _
  | insertRoot pd phys base order attr type => exact h
  | removeUtcb pd b => exact fun _ _ _ => trivial

theorem AnyReach.execAll {fuel : Nat} {ops : List Op} (hr : AnyReach S E st)
    (hops : ∀ op ∈ ops, op.Natural) (h : execAll S fuel ops st = some st') : AnyReach S E st' := by
  apply Reach.execAll hr _ h
  clear h hr
  induction ops generalizing st with
  | nil => trivial
  | cons op ops ih =>
    refine ⟨meets_of_natural (hops op (by simp)), ?_⟩
    split
    · trivial
    · exact ih (fun op' h' => hops op' (by simp [h']))

/-- A space that keeps nothing of its own and never runs out of memory. -/
def bareSpace : SpaceOps Unit where
  stickySub _ := 0
  update _ _ s := (s, false, false)
  hitLimit _ _ := false
  alloc _ s := s
  destroy _ s := s
  check _ _ := true

theorem bareSpace_frame : bareSpace.Frame fun _ _ => True :=
  ⟨fun _ => trivial, fun _ _ _ _ _ => trivial, fun _ _ => trivial, fun _ _ => trivial⟩

end Tukija.Pd
