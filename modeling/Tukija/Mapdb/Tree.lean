import Tukija.Mapdb.Node

/-! The search tree of a space.  `Space::tree` is an AVL tree; the functions
here work on its in-order sequence, which is all that lookups, insertions and
removals depend on. -/
namespace Tukija.Mapdb

open Tukija.Lib.Word

abbrev Tree := List NodeId

def Mdb.larger (x y : Mdb) : Bool := decide (y.nodeBase < x.nodeBase)

/-- `Mdb::equal`: the two nodes overlap. -/
def Mdb.equal (x y : Mdb) : Bool :=
  shr (x.nodeBase ^^^ y.nodeBase) (wmax x.nodeOrder y.nodeOrder) == 0

/-- The containment test of `Mdb::lookup`. -/
def Mdb.covers (x : Mdb) (base : Mword) : Bool := shr (x.nodeBase ^^^ base) x.nodeOrder == 0

/-- `Mdb::lookup`: the node that contains `base`; failing that, and if `next`
is set, the first node behind `base`. -/
def lookup (h : Heap) (t : Tree) (base : Mword) (next : Bool) : Option NodeId :=
  match t.find? fun n => (h n).covers base with
  | some n => some n
  | none => if next then t.find? fun n => decide (base < (h n).nodeBase) else none

def insertOrdered (h : Heap) (n : NodeId) : Tree → Tree
  | [] => [n]
  | x :: t => if (h n).larger (h x) then x :: insertOrdered h n t else n :: x :: t

/-- `Avl::insert`: fails on overlap. -/
def treeInsert (h : Heap) (t : Tree) (n : NodeId) : Option Tree :=
  if t.any fun x => (h n).equal (h x) then none else some (insertOrdered h n t)

/-- `Avl::remove`: takes out the node that overlaps `n`, which is `n` itself
for every node that is in the tree. -/
def treeRemove (h : Heap) (t : Tree) (n : NodeId) : Option Tree :=
  match t.find? fun x => (h n).equal (h x) with
  | none => none
  | some x => some (t.erase x)

/-- Index just behind a node, as the loops over a range compute it. -/
def Mdb.last (x : Mdb) : Mword := x.nodeBase + shl 1 x.nodeOrder

/-- A naturally aligned node: both ranges start at a multiple of their size. -/
structure Mdb.Natural (x : Mdb) : Prop where
  order_lt : x.nodeOrder.toNat < 64
  base : Aligned x.nodeOrder.toNat x.nodeBase
  phys : Aligned x.nodeOrder.toNat x.nodePhys

/-- The index just behind the node, beyond the range of a word for a node at
the very top. -/
def Mdb.top (x : Mdb) : Nat := x.nodeBase.toNat + 2 ^ x.nodeOrder.toNat

theorem Mdb.equal_iff {x y : Mdb} (hx : x.nodeOrder.toNat < 64) (hy : y.nodeOrder.toNat < 64) :
    x.equal y = true ↔
      SameBlock (max x.nodeOrder.toNat y.nodeOrder.toNat) x.nodeBase y.nodeBase := by
  have hlt : (wmax x.nodeOrder y.nodeOrder).toNat < 64 := by
    rw [toNat_wmax]
    omega
  rw [Mdb.equal, beq_iff_eq, shr_xor_eq_zero, mod_64_eq hlt, toNat_wmax]

theorem Mdb.equal_comm {x y : Mdb} (hx : x.nodeOrder.toNat < 64) (hy : y.nodeOrder.toNat < 64) :
    x.equal y = y.equal x := by
  rw [Bool.eq_iff_iff, Mdb.equal_iff hx hy, Mdb.equal_iff hy hx, max_comm]
  exact ⟨SameBlock.symm, SameBlock.symm⟩

theorem Mdb.Natural.covers_iff {x : Mdb} (hx : x.Natural) (b : Mword) :
    x.covers b = true ↔ x.nodeBase.toNat ≤ b.toNat ∧ b.toNat < x.top := by
  rw [Mdb.covers, beq_iff_eq, shr_xor_eq_zero, mod_64_eq hx.order_lt,
    sameBlock_iff_of_aligned hx.base, Mdb.top]

theorem Mdb.base_lt_top (x : Mdb) : x.nodeBase.toNat < x.top := by
  have := Nat.two_pow_pos x.nodeOrder.toNat
  unfold Mdb.top
  omega

theorem Mdb.Natural.top_le {x y : Mdb} (hx : x.Natural) (hy : y.Natural)
    (hlt : x.nodeBase < y.nodeBase) (h : x.equal y = false) : x.top ≤ y.nodeBase.toNat := by
  apply add_le_of_not_sameBlock hx.base (BitVec.lt_def.mp hlt)
  rw [← Mdb.equal_iff hx.order_lt hy.order_lt, h]
  decide

theorem Mdb.Natural.last_eq {x : Mdb} (hx : x.Natural) :
    x.last.toNat = x.top % 2 ^ 64 := by
  unfold Mdb.last Mdb.top
  rw [BitVec.toNat_add, toNat_shl_one hx.order_lt]

/-- The in-order sequence of a search tree of disjoint nodes. -/
def Ordered (h : Heap) (t : Tree) : Prop :=
  t.Pairwise fun x y => (h x).nodeBase < (h y).nodeBase ∧ (h x).equal (h y) = false

theorem Ordered.congr {h h' : Heap} {t : Tree} (ho : Ordered h t)
    (hb : ∀ x ∈ t, (h' x).nodeBase = (h x).nodeBase)
    (hr : ∀ x ∈ t, (h' x).nodeOrder = (h x).nodeOrder) : Ordered h' t := by
  apply List.Pairwise.imp_of_mem _ ho
  intro x y hx hy hxy
  simpa [Mdb.equal, hb x hx, hb y hy, hr x hx, hr y hy] using hxy

theorem Ordered.nodup {h : Heap} {t : Tree} (ho : Ordered h t) : t.Nodup := by
  apply List.Pairwise.imp _ ho
  rintro x y ⟨hlt, -⟩ rfl
  exact absurd (BitVec.lt_def.mp hlt) (lt_irrefl _)

theorem mem_insertOrdered {h : Heap} {n x : NodeId} {t : Tree} :
    x ∈ insertOrdered h n t ↔ x = n ∨ x ∈ t := by
  induction t with
  | nil => simp [insertOrdered]
  | cons y t ih =>
    unfold insertOrdered
    split <;> simp [ih]
    tauto

theorem erase_insertOrdered {h : Heap} {n : NodeId} {t : Tree} (hn : n ∉ t) :
    (insertOrdered h n t).erase n = t := by
  induction t with
  | nil => simp [insertOrdered]
  | cons y t ih =>
    have hy : y ≠ n := fun e => hn (by simp [e])
    unfold insertOrdered
    split
    · rw [List.erase_cons_tail (by simpa using hy), ih (fun e => hn (by simp [e]))]
    · exact List.erase_cons_head _ _

section Natural

variable {h : Heap} {t : Tree} {n : NodeId}

theorem equal_self_of_natural (hn : (h n).Natural) : (h n).equal (h n) = true := by
  rw [Mdb.equal_iff hn.order_lt hn.order_lt]
  exact SameBlock.refl _ _

theorem ordered_insertOrdered (ho : Ordered h t) (ht : ∀ x ∈ t, (h x).Natural)
    (hn : (h n).Natural) (hne : ∀ x ∈ t, (h n).equal (h x) = false) :
    Ordered h (insertOrdered h n t) := by
  induction t with
  | nil => simp [insertOrdered, Ordered]
  | cons y t ih =>
    obtain ⟨hy, hrest⟩ := List.pairwise_cons.mp ho
    have hyn := hne y (by simp)
    have hyn' : (h y).equal (h n) = false := by
      rw [Mdb.equal_comm (ht y (by simp)).order_lt hn.order_lt, hyn]
    unfold insertOrdered
    by_cases hlarge : (h n).larger (h y)
    · have hlt : (h y).nodeBase < (h n).nodeBase := by simpa [Mdb.larger] using hlarge
      rw [if_pos hlarge]
      apply List.pairwise_cons.mpr
      constructor
      · intro x hx
        rcases mem_insertOrdered.mp hx with rfl | hx
        · exact ⟨hlt, hyn'⟩
        · exact hy x hx
      · exact ih hrest (fun x hx => ht x (by simp [hx])) (fun x hx => hne x (by simp [hx]))
    · rw [if_neg hlarge]
      have hlt : (h n).nodeBase < (h y).nodeBase := by
        have hle : (h n).nodeBase.toNat ≤ (h y).nodeBase.toNat := by
          simpa [Mdb.larger, BitVec.lt_def] using hlarge
        have hbne : (h n).nodeBase.toNat ≠ (h y).nodeBase.toNat := by
          intro heq
          have := (Mdb.equal_iff hn.order_lt (ht y (by simp)).order_lt).mpr (by
            unfold SameBlock
            rw [heq])
          simp [hyn] at this
        exact BitVec.lt_def.mpr (lt_of_le_of_ne hle hbne)
      apply List.pairwise_cons.mpr
      refine ⟨fun x hx => ⟨?_, hne x hx⟩, ho⟩
      rcases List.mem_cons.mp hx with rfl | hx
      · exact hlt
      · exact BitVec.lt_def.mpr ((BitVec.lt_def.mp hlt).trans (BitVec.lt_def.mp (hy x hx).1))

theorem treeInsert_eq_none : treeInsert h t n = none ↔ ∃ x ∈ t, (h n).equal (h x) = true := by
  simp [treeInsert]

theorem treeInsert_some {t' : Tree} (hi : treeInsert h t n = some t') :
    (∀ x ∈ t, (h n).equal (h x) = false) ∧ t' = insertOrdered h n t := by
  unfold treeInsert at hi
  split at hi
  · simp at hi
  · rename_i hany
    simp only [List.any_eq_true, not_exists, not_and, Bool.not_eq_true] at hany
    exact ⟨hany, (Option.some.inj hi).symm⟩

theorem treeRemove_of_mem (ho : Ordered h t) (ht : ∀ x ∈ t, (h x).Natural) (hn : n ∈ t) :
    treeRemove h t n = some (t.erase n) := by
  have hfind : t.find? (fun x => (h n).equal (h x)) = some n := by
    obtain ⟨u, v, rfl⟩ := List.append_of_mem hn
    rw [List.find?_append]
    have hu : u.find? (fun x => (h n).equal (h x)) = none := by
      apply List.find?_eq_none.mpr
      intro x hx
      have := (List.pairwise_append.mp ho).2.2 x hx n (by simp)
      rw [Mdb.equal_comm (ht n (by simp)).order_lt (ht x (by simp [hx])).order_lt, this.2]
      decide
    simp [hu, equal_self_of_natural (ht n (by simp))]
  simp [treeRemove, hfind]

theorem Ordered.top_le {x y : NodeId} (ho : Ordered h t) (ht : ∀ x ∈ t, (h x).Natural)
    (hx : x ∈ t) (hy : y ∈ t) (hlt : (h x).nodeBase.toNat < (h y).nodeBase.toNat) :
    (h x).top ≤ (h y).nodeBase.toNat := by
  have hdisj : (h x).nodeBase < (h y).nodeBase → (h x).equal (h y) = false := by
    apply List.Pairwise.forall_of_forall_of_flip (l := t)
      (R := fun a b => (h a).nodeBase < (h b).nodeBase → (h a).equal (h b) = false) _ _ _ hx hy
    · intro c _ hc
      exact absurd (BitVec.lt_def.mp hc) (lt_irrefl _)
    · apply List.Pairwise.imp _ ho
      intro a b hab _
      exact hab.2
    · apply List.Pairwise.imp _ ho
      intro a b hab hba
      exact absurd (BitVec.lt_def.mp hba) (Nat.lt_asymm (BitVec.lt_def.mp hab.1))
  have hlt' := BitVec.lt_def.mpr hlt
  exact (ht x hx).top_le (ht y hy) hlt' (hdisj hlt')

theorem Ordered.base_inj {x y : NodeId} (ho : Ordered h t) (hx : x ∈ t) (hy : y ∈ t)
    (hb : (h x).nodeBase = (h y).nodeBase) : x = y := by
  have hnd : (t.map fun x => (h x).nodeBase).Nodup := by
    apply List.pairwise_map.mpr
    apply List.Pairwise.imp _ ho
    intro a b hab heq
    rw [heq] at hab
    exact absurd (BitVec.lt_def.mp hab.1) (lt_irrefl _)
  exact List.inj_on_of_nodup_map hnd hx hy hb

theorem lookup_next_some {b : Mword} {m : NodeId} (ho : Ordered h t)
    (ht : ∀ x ∈ t, (h x).Natural) (hl : lookup h t b true = some m) :
    m ∈ t ∧ b.toNat < (h m).top ∧
      ∀ y ∈ t, b.toNat < (h y).top → (h m).nodeBase.toNat ≤ (h y).nodeBase.toNat := by
  unfold lookup at hl
  cases hf : t.find? (fun n => (h n).covers b) with
  | some x =>
    rw [hf] at hl
    obtain rfl : x = m := Option.some.inj hl
    have hx := List.mem_of_find?_eq_some hf
    have hc := ((ht x hx).covers_iff b).mp (List.find?_some (p := fun n => (h n).covers b) hf)
    refine ⟨hx, hc.2, fun y hy hby => ?_⟩
    by_contra hcon
    have := ho.top_le ht hy hx (Nat.lt_of_not_le hcon)
    omega
  | none =>
    rw [hf] at hl
    simp only [if_true] at hl
    have hm := List.mem_of_find?_eq_some hl
    have hbm : b.toNat < (h m).nodeBase.toNat := by
      have := List.find?_some (p := fun n => decide (b < (h n).nodeBase)) hl
      simpa [BitVec.lt_def] using this
    refine ⟨hm, hbm.trans (h m).base_lt_top, fun y hy hby => ?_⟩
    have hcov : ¬(h y).covers b = true := List.find?_eq_none.mp hf y hy
    rw [(ht y hy).covers_iff] at hcov
    have hby' : b.toNat < (h y).nodeBase.toNat := by omega
    obtain ⟨u, v, rfl, hu⟩ := List.find?_eq_some_iff_append.mp hl |>.2
    rcases List.mem_append.mp hy with hyu | hyv
    · have := hu y hyu
      simp only [BitVec.lt_def, Bool.not_eq_true', decide_eq_false_iff_not] at this
      exact absurd hby' this
    · rcases List.mem_cons.mp hyv with rfl | hyv
      · exact le_rfl
      · have := (List.pairwise_cons.mp (List.pairwise_append.mp ho).2.1).1 y hyv
        exact (BitVec.lt_def.mp this.1).le

theorem lookup_next_none {b : Mword} (ht : ∀ x ∈ t, (h x).Natural)
    (hl : lookup h t b true = none) : ∀ y ∈ t, (h y).top ≤ b.toNat := by
  unfold lookup at hl
  cases hf : t.find? (fun n => (h n).covers b) with
  | some x => simp [hf] at hl
  | none =>
    rw [hf] at hl
    simp only [if_true] at hl
    intro y hy
    have hcov : ¬(h y).covers b = true := List.find?_eq_none.mp hf y hy
    rw [(ht y hy).covers_iff] at hcov
    have := List.find?_eq_none.mp hl y hy
    simp only [BitVec.lt_def, decide_eq_true_eq, not_lt] at this
    omega

theorem lookup_some_iff {b : Mword} {m : NodeId} (ho : Ordered h t)
    (ht : ∀ x ∈ t, (h x).Natural) :
    lookup h t b false = some m ↔
      m ∈ t ∧ (h m).nodeBase.toNat ≤ b.toNat ∧ b.toNat < (h m).top := by
  have hlook : lookup h t b false = t.find? (fun n => (h n).covers b) := by
    unfold lookup
    cases t.find? (fun n => (h n).covers b) <;> rfl
  rw [hlook]
  constructor
  · intro hf
    have hm := List.mem_of_find?_eq_some hf
    exact ⟨hm, ((ht m hm).covers_iff b).mp (List.find?_some (p := fun n => (h n).covers b) hf)⟩
  · rintro ⟨hm, hc⟩
    cases hf : t.find? (fun n => (h n).covers b) with
    | none =>
      have := List.find?_eq_none.mp hf m hm
      exact absurd (((ht m hm).covers_iff b).mpr hc) this
    | some x =>
      have hx := List.mem_of_find?_eq_some hf
      have hcx := ((ht x hx).covers_iff b).mp (List.find?_some (p := fun n => (h n).covers b) hf)
      by_contra hne
      have hbase : (h x).nodeBase.toNat ≠ (h m).nodeBase.toNat := by
        intro heq
        exact hne (congrArg some (ho.base_inj hx hm (BitVec.eq_of_toNat_eq heq)))
      rcases Nat.lt_or_gt_of_ne hbase with hlt | hlt
      · have := ho.top_le ht hx hm hlt
        omega
      · have := ho.top_le ht hm hx hlt
        omega

end Natural

end Tukija.Mapdb
