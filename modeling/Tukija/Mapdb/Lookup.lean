import Tukija.Mapdb.Region

/-! `Mdb::lookup` as a descent of the tree finds what `lookup` finds in its
sequence. -/
namespace Tukija.Mapdb

open Tukija.Lib.Word

variable {h : Heap} {t : Avl NodeId} {base : Mword}

/-! ## Finding in a sequence -/

/-- The first member with `p` is the one that all others with `p` are behind. -/
theorem find?_eq_some_iff_first {α : Type} {R : α → α → Prop} {l : List α} {p : α → Bool} {a : α}
    (hl : l.Pairwise R) (hR : ∀ x y, R x y → ¬ R y x) :
    l.find? p = some a ↔ a ∈ l ∧ p a = true ∧ ∀ y ∈ l, p y = true → y = a ∨ R a y := by
  rw [List.find?_eq_some_iff_append]
  constructor
  · rintro ⟨ha, u, v, rfl, hu⟩
    refine ⟨by simp, ha, fun y hy hpy => ?_⟩
    rcases List.mem_append.mp hy with hyu | hyv
    · have := hu y hyu
      rw [hpy] at this
      cases this
    · rcases List.mem_cons.mp hyv with rfl | hyv
      · exact .inl rfl
      · exact .inr ((List.pairwise_cons.mp (List.pairwise_append.mp hl).2.1).1 y hyv)
  · rintro ⟨ha, hp, hall⟩
    obtain ⟨u, v, rfl⟩ := List.append_of_mem ha
    refine ⟨hp, u, v, rfl, fun y hy => ?_⟩
    have hya := (List.pairwise_append.mp hl).2.2 y hy a List.mem_cons_self
    cases hpy : p y with
    | false => rfl
    | true =>
      rcases hall y (List.mem_append_left _ hy) hpy with rfl | hay
      · exact absurd hya (hR _ _ hya)
      · exact absurd hay (hR _ _ hya)

/-! ## The descent -/

theorem avlLookup_eq_lookup (hs : t.inorder.Pairwise fun x y => (h x).top ≤ (h y).nodeBase.toNat)
    (hpl : ∀ n ∈ t.inorder, (h n).Placed) (next : Bool) :
    avlLookup h base next t none = lookup h t.inorder base next := by
  rw [avlLookup_or hs hpl, lookup]
  cases t.inorder.find? fun n => (h n).covers base with
  | some m => rfl
  | none => cases next <;> simp

/-- `base` is in the node. -/
def Mdb.Contains (x : Mdb) (base : Mword) : Prop := x.nodeBase.toNat ≤ base.toNat ∧ base.toNat < x.top

theorem Mdb.Placed.contains_iff {x : Mdb} (hx : x.Placed) : x.covers base = true ↔ x.Contains base := hx.covers_iff base

theorem contains_unique (hdisjoint : t.inorder.Pairwise fun x y => ¬ (h x).Overlaps (h y)) {m n : NodeId}
    (hm : m ∈ t.inorder) (hn : n ∈ t.inorder) (hmb : (h m).Contains base) (hnb : (h n).Contains base) : m = n := by
  by_contra hne
  have : Std.Symm fun x y => ¬ (h x).Overlaps (h y) := ⟨fun _ _ ho hs => ho hs.symm⟩
  exact hdisjoint.forall hm hn hne ⟨hmb.1.trans_lt hnb.2, hnb.1.trans_lt hmb.2⟩

/-- Which node is found in a search tree of disjoint and naturally aligned nodes. -/
theorem avlLookup_spec (hsorted : t.inorder.Pairwise fun x y => (h x).nodeBase < (h y).nodeBase)
    (hdisjoint : t.inorder.Pairwise fun x y => ¬ (h x).Overlaps (h y)) (hpl : ∀ n ∈ t.inorder, (h n).Placed)
    (base : Mword) (next : Bool) :
    (∀ m ∈ t.inorder, (h m).Contains base → avlLookup h base next t none = some m) ∧
      ((∀ m ∈ t.inorder, ¬ (h m).Contains base) →
        (next = false → avlLookup h base next t none = none) ∧
        (next = true →
          (avlLookup h base next t none = none ↔ ∀ m ∈ t.inorder, ¬ base < (h m).nodeBase) ∧
          ∀ m, avlLookup h base next t none = some m ↔ m ∈ t.inorder ∧ base < (h m).nodeBase ∧
            ∀ y ∈ t.inorder, base < (h y).nodeBase → (h m).nodeBase ≤ (h y).nodeBase)) := by
  have htop : t.inorder.Pairwise fun x y => (h x).top ≤ (h y).nodeBase.toNat :=
    hsorted.imp₂ (fun _ _ hlt hdis => top_le_iff.mpr ⟨hlt, hdis⟩) hdisjoint
  rw [avlLookup_eq_lookup htop hpl, lookup]
  constructor
  · intro m hm hmb
    cases hfind : t.inorder.find? fun n => (h n).covers base with
    | none => exact absurd ((hpl m hm).contains_iff.mpr hmb) (List.find?_eq_none.mp hfind m hm)
    | some x =>
      have hx := List.mem_of_find?_eq_some hfind
      have hxb := (hpl x hx).contains_iff.mp (List.find?_some (p := fun n => (h n).covers base) hfind)
      rw [contains_unique hdisjoint hx hm hxb hmb]
  · intro hnone
    have hfind : (t.inorder.find? fun n => (h n).covers base) = none :=
      List.find?_eq_none.mpr fun n hn hc => hnone n hn ((hpl n hn).contains_iff.mp hc)
    rw [hfind]
    refine ⟨fun hn => by rw [hn]; rfl, fun hn => ?_⟩
    simp only [hn, if_true]
    constructor
    · simp only [List.find?_eq_none, decide_eq_true_eq]
    · intro m
      rw [find?_eq_some_iff_first hsorted fun x y hxy hyx => (BitVec.lt_asymm hxy hyx)]
      simp only [decide_eq_true_eq]
      refine and_congr_right fun hm => and_congr_right fun _ => forall₂_congr fun y hy => ?_
      refine imp_congr_right fun _ => ⟨fun hor => ?_, fun hle => ?_⟩
      · rcases hor with rfl | hlt
        · exact BitVec.le_refl _
        · exact BitVec.le_of_lt hlt
      · by_contra hor
        rw [not_or] at hor
        have : Std.Symm fun x y => (h x).nodeBase ≠ (h y).nodeBase := ⟨fun _ _ => Ne.symm⟩
        have hne := (hsorted.imp fun hlt => BitVec.ne_of_lt hlt).forall hy hm hor.1
        exact hor.2 (BitVec.lt_def.mpr (lt_of_le_of_ne (BitVec.le_def.mp hle) fun heq => hne (BitVec.eq_of_toNat_eq heq.symm)))

def pairHeap : Heap := fun n => if n = 1 then newRegion 1 4 1 7 0 else newRegion n 1 0 7 0

def pairTree : Avl NodeId := .node (.node .nil 0 none .nil) 1 (some false) .nil

theorem avlLookup_spec_pair :
    (∀ n ∈ pairTree.inorder, ¬ (pairHeap n).Contains 2) ∧
      (avlLookup pairHeap 2 true pairTree none = some 1 ↔ 1 ∈ pairTree.inorder ∧ 2 < (pairHeap 1).nodeBase ∧
        ∀ y ∈ pairTree.inorder, 2 < (pairHeap y).nodeBase → (pairHeap 1).nodeBase ≤ (pairHeap y).nodeBase) := by
  have hpl : ∀ n ∈ pairTree.inorder, (pairHeap n).Placed := by
    have hboth : ∀ n ∈ pairTree.inorder,
        (pairHeap n).nodeOrder.toNat < 64 ∧ Aligned (pairHeap n).nodeOrder.toNat (pairHeap n).nodeBase := by
      decide
    exact fun n hn => ⟨(hboth n hn).1, (hboth n hn).2⟩
  have hnone : ∀ n ∈ pairTree.inorder, ¬ (pairHeap n).Contains 2 := by
    unfold Mdb.Contains
    decide
  exact ⟨hnone, (((avlLookup_spec (by decide) (by decide) hpl 2 true).2 hnone).2 rfl).2 1⟩

end Tukija.Mapdb
