import Tukija.Avl.Remove
import Tukija.Mapdb.Tree

/-! The tree that `Space::tree` really is.  `Avl::insert<Mdb>` keeps it a
balanced search tree and works on its sequence as `treeInsert` does;
`Avl::remove<Mdb>` takes a node of the tree out of it. -/
namespace Tukija.Mapdb

open Tukija.Lib.Word

/-- Naturally aligned in its own space, whatever its physical range is. -/
structure Mdb.Placed (x : Mdb) : Prop where
  order_lt : x.nodeOrder.toNat < 64
  base : Aligned x.nodeOrder.toNat x.nodeBase

def Mdb.Overlaps (x y : Mdb) : Prop := x.nodeBase.toNat < y.top ∧ y.nodeBase.toNat < x.top

instance (x y : Mdb) : Decidable (x.Overlaps y) := inferInstanceAs (Decidable (_ ∧ _))

theorem Mdb.Overlaps.symm {x y : Mdb} (h : x.Overlaps y) : y.Overlaps x := ⟨h.2, h.1⟩

theorem Mdb.overlaps_self (x : Mdb) : x.Overlaps x := ⟨x.base_lt_top, x.base_lt_top⟩

theorem Mdb.Placed.equal_iff_overlaps {x y : Mdb} (hx : x.Placed) (hy : y.Placed) :
    x.equal y = true ↔ x.Overlaps y := by
  have hxt := x.base_lt_top
  have hyt := y.base_lt_top
  rw [Mdb.equal_iff hx.order_lt hy.order_lt]
  constructor
  · intro h
    -- the block of the larger order is one of the two nodes
    rcases le_total x.nodeOrder.toNat y.nodeOrder.toNat with hle | hle
    · rw [max_eq_right hle] at h
      have := (sameBlock_iff_of_aligned hy.base).mp h.symm
      unfold Mdb.Overlaps Mdb.top at *
      omega
    · rw [max_eq_left hle] at h
      have := (sameBlock_iff_of_aligned hx.base).mp h
      unfold Mdb.Overlaps Mdb.top at *
      omega
  · intro h
    by_contra hne
    rcases lt_trichotomy x.nodeBase.toNat y.nodeBase.toNat with hlt | heq | hlt
    · have := add_le_of_not_sameBlock hx.base hlt hne
      unfold Mdb.Overlaps Mdb.top at h
      omega
    · exact hne (by unfold SameBlock; rw [heq])
    · rw [max_comm] at hne
      have := add_le_of_not_sameBlock hy.base hlt (fun e => hne e.symm)
      unfold Mdb.Overlaps Mdb.top at h
      omega

section Tree

variable (h : Heap)

/-- `Avl::insert<Mdb>`. -/
def avlInsert (t : Avl NodeId) (n : NodeId) : Option (Bool × Avl NodeId) :=
  Avl.insert (fun x => (h n).equal (h x)) (fun x => (h n).larger (h x)) t n

/-- `Avl::remove<Mdb>`. -/
def avlRemove (t : Avl NodeId) (n : NodeId) : Option (Bool × Avl NodeId) :=
  Avl.remove (fun x => (h n).equal (h x)) (fun x => (h n).larger (h x)) t n

/-- A search tree of disjoint nodes, height balanced, with correct balance
fields. -/
structure Valid (t : Avl NodeId) : Prop where
  sorted : t.inorder.Pairwise fun x y => (h x).nodeBase < (h y).nodeBase
  disjoint : t.inorder.Pairwise fun x y => ¬(h x).Overlaps (h y)
  balanced : t.Balanced

variable {h} {t : Avl NodeId} {n : NodeId}

theorem top_le_iff {x y : Mdb} :
    x.top ≤ y.nodeBase.toNat ↔ x.nodeBase < y.nodeBase ∧ ¬x.Overlaps y := by
  have hx := x.base_lt_top
  have hy := y.base_lt_top
  unfold Mdb.Overlaps
  rw [BitVec.lt_def]
  omega

theorem Valid.top_le (ht : Valid h t) :
    t.inorder.Pairwise fun x y => (h x).top ≤ (h y).nodeBase.toNat :=
  ht.sorted.imp₂ (fun _ _ hlt hdis => top_le_iff.mpr ⟨hlt, hdis⟩) ht.disjoint

theorem Valid.before (ht : Valid h t) (hpl : ∀ x ∈ t.inorder, (h x).Placed) (hn : (h n).Placed) :
    t.inorder.Pairwise
      (Avl.Before (fun x => (h n).equal (h x)) (fun x => (h n).larger (h x))) := by
  apply List.Pairwise.imp_of_mem _ ht.top_le
  intro x y hx hy hxy
  have hbx := (h x).base_lt_top
  have hex := hn.equal_iff_overlaps (hpl x hx)
  have hey := hn.equal_iff_overlaps (hpl y hy)
  constructor
  · simp only [Mdb.larger, decide_eq_true_eq, BitVec.lt_def]
    omega
  · intro hox _
    have := hex.mp hox
    simp only [Mdb.larger, decide_eq_false_iff_not, BitVec.lt_def]
    unfold Mdb.Overlaps at this
    omega
  · intro hoy hox
    have hoy := hey.mp hoy
    have hox : ¬(h n).Overlaps (h x) := by simp [← hex, hox]
    simp only [Mdb.larger, decide_eq_true_eq, BitVec.lt_def]
    unfold Mdb.Overlaps at hox hoy
    omega

theorem insertAt_eq (l : List NodeId) :
    Avl.insertAt (fun x => (h n).larger (h x)) n l = insertOrdered h n l := by
  induction l with
  | nil => rfl
  | cons x l ih => cases hx : (h n).larger (h x) <;> simp [Avl.insertAt, insertOrdered, hx, ih]

theorem insertOrdered_top_le {l : List NodeId}
    (hl : l.Pairwise fun x y => (h x).top ≤ (h y).nodeBase.toNat)
    (hn : ∀ x ∈ l, ¬(h n).Overlaps (h x)) :
    (insertOrdered h n l).Pairwise fun x y => (h x).top ≤ (h y).nodeBase.toNat := by
  induction l with
  | nil => simp [insertOrdered]
  | cons y l ih =>
    obtain ⟨hy, hrest⟩ := List.pairwise_cons.mp hl
    have hny := hn y (by simp)
    unfold insertOrdered
    by_cases hlarge : (h n).larger (h y)
    · have hlt : (h y).nodeBase < (h n).nodeBase := by simpa [Mdb.larger] using hlarge
      rw [if_pos hlarge]
      apply List.pairwise_cons.mpr
      constructor
      · intro x hx
        rcases mem_insertOrdered.mp hx with rfl | hx
        · exact top_le_iff.mpr ⟨hlt, fun e => hny e.symm⟩
        · exact hy x hx
      · exact ih hrest fun x hx => hn x (by simp [hx])
    · rw [if_neg hlarge]
      have hle : (h n).nodeBase.toNat ≤ (h y).nodeBase.toNat := by
        simpa [Mdb.larger, BitVec.lt_def] using hlarge
      have hny' : (h n).top ≤ (h y).nodeBase.toNat := by
        have := (h y).base_lt_top
        unfold Mdb.Overlaps at hny
        omega
      apply List.pairwise_cons.mpr
      refine ⟨?_, hl⟩
      intro x hx
      rcases List.mem_cons.mp hx with rfl | hx
      · exact hny'
      · have := (h y).base_lt_top
        have := hy x hx
        omega

theorem valid_of_insertOrdered {t' : Avl NodeId} (ht : Valid h t)
    (hn : ∀ x ∈ t.inorder, ¬(h n).Overlaps (h x)) (hb : t'.Balanced)
    (hi : t'.inorder = insertOrdered h n t.inorder) : Valid h t' := by
  have htop := insertOrdered_top_le ht.top_le hn
  rw [← hi] at htop
  exact ⟨htop.imp fun hxy => (top_le_iff.mp hxy).1, htop.imp fun hxy => (top_le_iff.mp hxy).2, hb⟩

theorem avlInsert_overlap (ht : Valid h t) (hpl : ∀ x ∈ t.inorder, (h x).Placed)
    (hn : (h n).Placed) (ho : ∃ x ∈ t.inorder, (h n).Overlaps (h x)) :
    avlInsert h t n = some (false, t) := by
  obtain ⟨x, hx, hox⟩ := ho
  exact Avl.insert_overlap (ht.before hpl hn) ⟨x, hx, (hn.equal_iff_overlaps (hpl x hx)).mpr hox⟩

theorem avlInsert_free (ht : Valid h t) (hpl : ∀ x ∈ t.inorder, (h x).Placed)
    (hn : (h n).Placed) (hno : ∀ x ∈ t.inorder, ¬(h n).Overlaps (h x)) :
    ∃ t', avlInsert h t n = some (true, t') ∧ Valid h t' ∧
      t'.inorder = insertOrdered h n t.inorder := by
  have hself := (hn.equal_iff_overlaps hn).mpr (h n).overlaps_self
  have hne : ∀ x ∈ t.inorder, (h n).equal (h x) = false := by
    intro x hx
    rw [← Bool.not_eq_true, hn.equal_iff_overlaps (hpl x hx)]
    exact hno x hx
  obtain ⟨t', hins, hbal, hino⟩ := Avl.insert_balanced (fun x => (h n).larger (h x))
    hself hne ht.balanced
  rw [Avl.inorder_place (ht.before hpl hn), insertAt_eq] at hino
  exact ⟨t', hins, valid_of_insertOrdered ht hno hbal hino, hino⟩

/-- On the sequence, the tree does what `treeInsert` says. -/
theorem avlInsert_refines (ht : Valid h t) (hpl : ∀ x ∈ t.inorder, (h x).Placed)
    (hn : (h n).Placed) :
    ∃ t', avlInsert h t n = some ((treeInsert h t.inorder n).isSome, t') ∧
      t'.inorder = (treeInsert h t.inorder n).getD t.inorder := by
  by_cases ho : ∃ x ∈ t.inorder, (h n).Overlaps (h x)
  · obtain ⟨x, hx, hox⟩ := ho
    have hnone : treeInsert h t.inorder n = none :=
      treeInsert_eq_none.mpr ⟨x, hx, (hn.equal_iff_overlaps (hpl x hx)).mpr hox⟩
    rw [hnone]
    exact ⟨t, avlInsert_overlap ht hpl hn ⟨x, hx, hox⟩, rfl⟩
  · push Not at ho
    obtain ⟨t', hins, -, hino⟩ := avlInsert_free ht hpl hn ho
    have hsome : treeInsert h t.inorder n = some (insertOrdered h n t.inorder) := by
      unfold treeInsert
      rw [if_neg]
      simp only [List.any_eq_true, not_exists, not_and]
      intro x hx hex
      exact ho x hx ((hn.equal_iff_overlaps (hpl x hx)).mp hex)
    rw [hsome]
    exact ⟨t', hins, hino⟩

theorem avlInsert_valid (ht : Valid h t) (hpl : ∀ x ∈ t.inorder, (h x).Placed)
    (hn : (h n).Placed) :
    (avlInsert h t n = some (false, t) ↔ ∃ x ∈ t.inorder, (h n).Overlaps (h x)) ∧
      ((¬∃ x ∈ t.inorder, (h n).Overlaps (h x)) →
        ∃ t', avlInsert h t n = some (true, t') ∧ Valid h t' ∧
          t'.inorder = insertOrdered h n t.inorder) := by
  refine ⟨⟨?_, avlInsert_overlap ht hpl hn⟩, ?_⟩
  · intro hf
    by_contra hno
    push Not at hno
    obtain ⟨t', hins, -⟩ := avlInsert_free ht hpl hn hno
    simp [hins] at hf
  · intro hno
    push Not at hno
    exact avlInsert_free ht hpl hn hno

def rowOfSixteen : Heap := fun i =>
  { (default : Mdb) with nodeBase := 16 * BitVec.ofNat 64 i, nodeOrder := 4 }

def twoOfThree : Avl NodeId := .node (.leaf 1) 3 (some false) .nil

theorem avlInsert_valid_twoOfThree :
    ∃ t', avlInsert rowOfSixteen twoOfThree 2 = some (true, t') ∧ Valid rowOfSixteen t' ∧
      t'.inorder = [1, 2, 3] := by
  have hplaced : ∀ x ∈ [1, 2, 3], (rowOfSixteen x).Placed := by
    intro x hx
    fin_cases hx <;> exact ⟨by decide, by decide⟩
  have hvalid : Valid rowOfSixteen twoOfThree := ⟨by decide, by decide, by decide⟩
  have hspec := (avlInsert_valid hvalid
    (fun x hx => hplaced x (by fin_cases hx <;> simp)) (hplaced 2 (by simp))).2 (by decide)
  simpa [twoOfThree, Avl.inorder, Avl.leaf, insertOrdered, Mdb.larger, rowOfSixteen] using hspec

theorem Valid.nodup (ht : Valid h t) : t.inorder.Nodup :=
  ht.sorted.imp fun hlt heq => by simp [heq] at hlt

theorem Valid.equal_iff_eq (ht : Valid h t) (hpl : ∀ x ∈ t.inorder, (h x).Placed)
    (hn : n ∈ t.inorder) {x : NodeId} (hx : x ∈ t.inorder) : (h n).equal (h x) = true ↔ x = n := by
  rw [(hpl n hn).equal_iff_overlaps (hpl x hx)]
  constructor
  · intro ho
    by_contra hne
    have : Std.Symm fun x y : NodeId => ¬(h x).Overlaps (h y) := ⟨fun _ _ hxy hyx => hxy hyx.symm⟩
    exact ht.disjoint.forall hn hx (Ne.symm hne) ho
  · rintro rfl
    exact (h x).overlaps_self

theorem Valid.sided (ht : Valid h t) :
    t.inorder.Pairwise (Avl.Sided (fun x => (h n).larger (h x)) n) := by
  refine ht.sorted.imp ?_
  intro x y hlt
  constructor
  · rintro rfl
    simpa [Mdb.larger] using hlt
  · rintro rfl
    rw [BitVec.lt_def] at hlt
    simp only [Mdb.larger, decide_eq_false_iff_not, BitVec.lt_def]
    omega

theorem Valid.erase {t' : Avl NodeId} (ht : Valid h t) (hb : t'.Balanced)
    (hi : t'.inorder = t.inorder.erase n) : Valid h t' :=
  ⟨hi ▸ ht.sorted.erase n, hi ▸ ht.disjoint.erase n, hb⟩

/-- A node of the tree is taken out of it; one that overlaps none leaves it as it is. -/
theorem avlRemove_valid (ht : Valid h t) (hpl : ∀ x ∈ t.inorder, (h x).Placed) :
    (n ∈ t.inorder → ∃ t', avlRemove h t n = some (true, t') ∧ Valid h t' ∧
      t'.inorder = t.inorder.erase n) ∧
      ((h n).Placed → (¬∃ x ∈ t.inorder, (h n).Overlaps (h x)) →
        avlRemove h t n = some (false, t)) := by
  constructor
  · intro hn
    have hself : (h n).larger (h n) = false := by simp [Mdb.larger]
    obtain ⟨t', hrem, hbal, hino⟩ := Avl.remove_balanced
      (fun x hx => ht.equal_iff_eq hpl hn hx) hself ht.sided ht.nodup ht.balanced hn
    exact ⟨t', hrem, ht.erase hbal hino, hino⟩
  · intro hn hno
    push Not at hno
    have hne : ∀ x ∈ t.inorder, (h n).equal (h x) = false := by
      intro x hx
      rw [← Bool.not_eq_true, hn.equal_iff_overlaps (hpl x hx)]
      exact hno x hx
    exact Avl.remove_free _ hne (fun hmem => hno n hmem (h n).overlaps_self) ht.nodup ht.balanced

def threeOfFour : Avl NodeId := .node (.node .nil 1 (some true) (.leaf 2)) 3 (some false) (.leaf 4)

theorem avlRemove_valid_threeOfFour :
    (∃ t', avlRemove rowOfSixteen threeOfFour 3 = some (true, t') ∧ Valid rowOfSixteen t' ∧
      t'.inorder = [1, 2, 4]) ∧
      avlRemove rowOfSixteen threeOfFour 5 = some (false, threeOfFour) := by
  have hplaced : ∀ x ∈ [1, 2, 3, 4, 5], (rowOfSixteen x).Placed := by
    intro x hx
    fin_cases hx <;> exact ⟨by decide, by decide⟩
  have hvalid : Valid rowOfSixteen threeOfFour := ⟨by decide, by decide, by decide⟩
  have hpl : ∀ x ∈ threeOfFour.inorder, (rowOfSixteen x).Placed :=
    fun x hx => hplaced x (by fin_cases hx <;> simp)
  constructor
  · exact (avlRemove_valid hvalid hpl).1 (by decide)
  · exact (avlRemove_valid hvalid hpl).2 (hplaced 5 (by simp)) (by decide)

end Tree

end Tukija.Mapdb
