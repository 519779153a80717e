import Tukija.Pd.Ports

/-! Nodes of ports over whole histories: they name themselves, whatever is delegated and revoked. -/
namespace Tukija.Pd

open Tukija.Lib.Word Tukija.Mapdb

variable {σ : Type} {S : SpaceOps σ}

/-- A node of ports: it names itself, base and order come from descriptors, and there are
five rights. -/
structure PortNode (x : Mdb) : Prop where
  phys : x.nodePhys = x.nodeBase
  small : (extent x).Small
  rights : x.nodeAttr &&& ~~~0x1f = 0

/-- All nodes of the space are such, whether in a tree or not. -/
def Ports (st : State σ) : Prop := ∀ n, PortNode (st.mdb n)

section Ports

variable {h : Heap} {t : State σ} {pd : PdId}

theorem Ports.boot (space : σ) : Ports (boot space) := fun _ =>
  have h : PortNode default := by constructor <;> decide
  h

theorem PortNode.masked {x : Mdb} (hx : PortNode x) (a : Mword) :
    PortNode { x with nodeAttr := x.nodeAttr &&& a } := by
  refine ⟨hx.phys, hx.small, ?_⟩
  dsimp only
  rw [BitVec.and_assoc, BitVec.and_comm a, ← BitVec.and_assoc, hx.rights]
  exact BitVec.zero_and

theorem ports_set (hp : ∀ n, PortNode (h n)) {m : NodeId} {f : Mdb → Mdb} (hf : PortNode (f (h m))) :
    ∀ n, PortNode (h.set m f n) := by
  intro n
  rw [Heap.set_apply]
  split
  · exact hf
  · exact hp n

theorem ports_insertNode (hp : ∀ n, PortNode (h n)) (m p : NodeId) (a : Mword) :
    ∀ n, PortNode ((insertNode h m p a).2 n) := by
  have hx := (hp p).masked a
  have h1 := ports_set hp (m := m) (f := fun x => { x with nodeAttr := (h p).nodeAttr &&& a })
    ⟨(hp m).phys, (hp m).small, hx.rights⟩
  unfold insertNode
  dsimp only
  split
  · exact h1
  · have h2 := ports_set h1 (m := m) (f := fun x => { x with prev := p, prnt := some p, next := h.next p })
      ⟨(h1 m).phys, (h1 m).small, (h1 m).rights⟩
    have h3 := ports_set h2 (m := h.next p) (f := fun x => { x with prev := m })
      ⟨(h2 _).phys, (h2 _).small, (h2 _).rights⟩
    exact ports_set h3 (m := p) (f := fun x => { x with next := m })
      ⟨(h3 p).phys, (h3 p).small, (h3 p).rights⟩

theorem Ports.demote (hp : Ports t) (n : NodeId) (r : Mword) : Ports (t.demote S n r) :=
  ports_set (h := t.mdb) hp (f := fun x => { x with nodeAttr := x.nodeAttr &&& ~~~r }) ((hp n).masked _)

theorem Ports.remove (hp : Ports t) (n : NodeId) (leaf : Bool) : Ports (t.remove n leaf) := by
  have hheap : ∀ x, PortNode ((removeNode t.mdb n leaf).2 x) := by
    intro x
    cases hr : (removeNode t.mdb n leaf).1 with
    | true =>
      rw [removeNode_apply hr x]
      exact ⟨(hp x).phys, (hp x).small, (hp x).rights⟩
    | false =>
      obtain ⟨⟨hb, ho⟩, ha⟩ := Steady.removeNode (x + 1) t.mdb n leaf x
      have hphys : ((removeNode t.mdb n leaf).2 x).nodePhys = (t.mdb x).nodePhys := by
        unfold removeNode at hr ⊢
        dsimp only at hr ⊢
        split at hr
        · rw [if_pos ‹_›]
        split at hr
        · rw [if_neg ‹_›, if_pos ‹_›]
        split at hr
        · rw [if_neg ‹_›, if_neg ‹_›, if_pos ‹_›]
        simp at hr
      refine ⟨?_, ?_, ?_⟩
      · rw [hphys, hb, (hp x).phys]
      · have := (hp x).small
        unfold extent at this ⊢
        rw [hb, ho]
        exact this
      · rw [ha (Nat.ne_of_lt (Nat.lt_succ_self x))]
        exact (hp x).rights
  unfold State.remove
  split
  · exact hp
  · rename_i h hr
    rw [hr] at hheap
    split <;> exact hheap

theorem Ports.delegateNode {start a sub o b : Mword} {m : NodeId} {w : Bool} {c : Ctl (State σ × Bool)}
    (hp : Ports t) (hb : b.toNat < 2 ^ 52) (ho : o.toNat < 32)
    (h : delegateNode S this start start a sub m b o (t, w) = some c) : Ports c.val.1 := by
  have hchild : PortNode (childOf S this start start sub (t.mdb m) t.fresh b o) := by
    refine ⟨?_, ?_, BitVec.zero_and⟩
    · simp only [childOf, (hp m).phys, BitVec.sub_add_cancel]
    · simp only [extent, childOf, BitVec.sub_add_cancel]
      exact ⟨hb, ho⟩
  unfold Pd.delegateNode at h
  dsimp only at h
  split at h
  · obtain rfl := Option.some.inj h
    exact hp
  have halloc : Ports (t.alloc S this (childOf S this start start sub (t.mdb m) t.fresh b o)) :=
    ports_set (h := t.mdb) hp (f := fun _ => childOf S this start start sub (t.mdb m) t.fresh b o) hchild
  have hins := ports_insertNode halloc t.fresh m a
  generalize t.alloc S this (childOf S this start start sub (t.mdb m) t.fresh b o) = t1 at h halloc hins
  split at h
  · obtain rfl := Option.some.inj h
    exact halloc
  split at h
  · rename_i g hg
    rw [show insertNode t1.mdb t.fresh m a = (false, g) from hg] at hins
    split at h <;>
    · obtain rfl := Option.some.inj h
      exact hins
  · rename_i g hg
    rw [show insertNode t1.mdb t.fresh m a = (true, g) from hg] at hins
    split at h
    · obtain rfl := Option.some.inj h
      exact Ports.remove (Ports.demote (t := State.mk g _ _ _ _ _ _ _ _) hins _ _) _ _
    · obtain rfl := Option.some.inj h
      exact hins

/-- Delegations of ports make nothing but nodes of ports. -/
theorem delCrd_ports {M P O : SpaceOps σ} {fuel : Nat} {this pd : PdId} {crd del r : Crd} {sub hot : Mword}
    {s s' : Spaces σ} (hp : Ports s.pio) (hc : crd.type = Crd.PIO) (hd : del.type = Crd.PIO)
    (h : delCrd M P O fuel this pd del crd sub hot s = some (s', r)) : Ports s'.pio := by
  by_cases ha : crd.attr &&& del.attr = 0
  · rw [delCrd_denied ha h]
    exact hp
  obtain ⟨f, hdel⟩ := delCrd_pio hc hd ha h
  have hs := clamp_base_lt crd del
  refine delegate_of_walk (Q := Ports) hdel (fun c hc' => ?_) fun _ h => h
  generalize (clamp crd.base del.base crd.order del.order).2 = start at hs hc' hdel
  generalize (clamp crd.base del.base crd.order del.order).1 = o at hc' hdel
  have hpass : ∀ {addr t m b o' c}, Ports t.1 → Visits Prod.fst pd start o addr t m b o' →
      delegateNode P this start start (crd.attr &&& del.attr) sub m b o' t = some c → Ports c.val.1 := by
    rintro addr ⟨t, w⟩ m b o' c hh hv hb
    obtain ⟨h1, h2⟩ := (hh m).small.clip hs hv.clip.2
    exact hh.delegateNode h1 h2 hb
  refine walkRange_rule (P := fun _ _ _ _ => True) (fun _ t => Ports t.1)
    (fun c => Ports c.val.1) ?_ ?_ ?_ ?_ (walkAll_of_forall (fun _ _ _ _ => trivial) _ _ _) hc'
  · exact fun _ _ hh _ => hh
  · exact fun addr t m b o' t' hh hv _ hb => hpass hh hv hb
  · exact fun addr t m b o' t' hh hv _ hb => hpass hh hv hb
  · exact hp

theorem Ports.demoteRun {a b o : Mword} {self : Bool} {m : NodeId} {fuel : Nat} {node : NodeId}
    {demote : Bool} {r : NodeId × State σ} (hp : Ports t)
    (h : demoteRun S a self m b o fuel node demote t = some r) : Ports r.2 := by
  induction fuel generalizing node demote t with
  | zero => simp [Pd.demoteRun] at h
  | succ fuel ih =>
    unfold Pd.demoteRun at h
    dsimp only at h
    have hstep : ∀ {u : State σ}, u = (if demote && (t.mdb node).nodeAttr &&& a != 0 then
        ({ t with iommu := t.iommu || ((t.mdb m).nodeSub &&& 1 != 0) }).demote S node a else t) → Ports u := by
      rintro u rfl
      split
      · exact Ports.demote (S := S) (t := { t with iommu := _ }) hp node a
      · exact hp
    generalize hu : (if demote && (t.mdb node).nodeAttr &&& a != 0 then
        ({ t with iommu := t.iommu || ((t.mdb m).nodeSub &&& 1 != 0) }).demote S node a else t) = u at h
    have hpu := hstep hu.symm
    split at h
    · obtain rfl := Option.some.inj h
      exact hpu
    · exact ih hpu h

theorem Ports.removeRun {d fuel : Nat} {node : NodeId} {r : State σ} (hp : Ports t)
    (h : removeRun d fuel node t = some r) : Ports r := by
  induction fuel generalizing node t with
  | zero => simp [Pd.removeRun] at h
  | succ fuel ih =>
    unfold Pd.removeRun at h
    dsimp only at h
    split at h
    · obtain rfl := Option.some.inj h
      exact hp.remove node true
    · exact ih (hp.remove node true) h

/-- Revocations leave nothing but nodes of ports. -/
theorem revoke_ports {fuel : Nat} {base ord a : Mword} {self kim : Bool} {r : State σ} (hp : Ports t)
    (h : revoke S fuel pd base ord a self kim t = some r) : Ports r := by
  have hnode : ∀ {u : State σ} {m b o c}, Ports u → revokeNode S fuel a self kim m b o u = some c →
      Ports c.val := by
    intro u m b o c hu h
    unfold revokeNode at h
    split at h
    · obtain rfl := Option.some.inj h
      unfold Ctl.val revokeKeep
      dsimp only
      split
      · exact Ports.remove (Ports.demote (S := S)
          (t := { u with iommu := u.iommu || ((u.mdb m).nodeSub &&& 1 != 0) }) hu m _) m false
      · exact hu.remove _ _
    · dsimp only at h
      split at h
      · simp at h
      · rename_i n' u' hd
        split at h
        · simp at h
        · rename_i u'' hr
          obtain rfl := Option.some.inj h
          exact Ports.removeRun (hu.demoteRun hd) hr
  have hwalk : ∀ c, walkRange id pd base ord (revokeNode S fuel a self kim) fuel base t = some c →
      Ports c.val := by
    intro c hc
    refine walkRange_rule (P := fun _ _ _ _ => True) (fun _ u => Ports u) (fun c => Ports c.val)
      ?_ ?_ ?_ ?_ (walkAll_of_forall (fun _ _ _ _ => trivial) _ _ _) hc
    · exact fun _ _ hu _ => hu
    · exact fun _ _ _ _ _ _ hu _ _ hb => hnode hu hb
    · exact fun _ _ _ _ _ _ hu _ _ hb => hnode hu hb
    · exact hp
  unfold revoke at h
  split at h
  · simp at h
  · rename_i u hu
    obtain rfl := Option.some.inj h
    exact hwalk _ hu
  · rename_i u hu
    have := hwalk _ hu
    split at h <;>
    · obtain rfl := Option.some.inj h
      exact this

end Ports

end Tukija.Pd
