import Mathlib.Tactic.Common

/-! Bit masks: a value that is split between two words by a mask, and words whose bits
are all in another one. -/
namespace Tukija.Lib.Masks

variable {w : Nat}

/-- The bits of the mask come from `y`, the others from `x`. -/
def merge (m x y : BitVec w) : BitVec w := (x &&& ~~~m) ||| (y &&& m)

theorem merge_eq {m x y : BitVec w} (h : x &&& ~~~m = y &&& ~~~m) : merge m x y = y := by
  unfold merge
  rw [h, ← BitVec.and_or_distrib_left, BitVec.or_comm, BitVec.or_not_self, BitVec.and_allOnes]

theorem merge_and {m x y : BitVec w} : merge m x y &&& m = y &&& m := by
  unfold merge
  apply BitVec.eq_of_getLsbD_eq
  intro i _
  simp only [BitVec.getLsbD_and, BitVec.getLsbD_or, BitVec.getLsbD_not]
  cases m.getLsbD i <;> simp

theorem merge_of_and {m x y : BitVec w} (h : x &&& m = y &&& m) : merge m x y = x := by
  unfold merge
  rw [← h, ← BitVec.and_or_distrib_left, BitVec.or_comm, BitVec.or_not_self, BitVec.and_allOnes]

/-- Every bit of `x` is one of `y`. -/
def Within (x y : BitVec w) : Prop := x &&& y = x

instance (x y : BitVec w) : Decidable (Within x y) := by
  unfold Within
  infer_instance

variable {x y z : BitVec w}

theorem within_iff : Within x y ↔ ∀ i, x.getLsbD i = true → y.getLsbD i = true := by
  unfold Within
  constructor
  · intro h i hi
    rw [← h, BitVec.getLsbD_and, Bool.and_eq_true] at hi
    exact hi.2
  · intro h
    apply BitVec.eq_of_getLsbD_eq
    intro i _
    rw [BitVec.getLsbD_and]
    cases hx : x.getLsbD i with
    | true => simpa using h i hx
    | false => rfl

theorem Within.or_left (h : Within x y) : Within x (y ||| z) := by
  rw [within_iff] at h ⊢
  intro i hi
  simp [h i hi]

theorem Within.or_right (h : Within x z) : Within x (y ||| z) := by
  rw [within_iff] at h ⊢
  intro i hi
  simp [h i hi]

theorem within_self : Within x x := BitVec.and_self

theorem within_and : Within (x &&& y) y := by
  unfold Within
  rw [BitVec.and_assoc, BitVec.and_self]

theorem Within.and (h : Within x z) : Within (x &&& y) (z &&& y) := by
  rw [within_iff] at h ⊢
  intro i hi
  simp only [BitVec.getLsbD_and, Bool.and_eq_true] at hi ⊢
  exact ⟨h i hi.1, hi.2⟩

theorem and_not_and (x m : BitVec w) : x &&& ~~~m &&& m = 0 := by
  rw [BitVec.and_assoc, BitVec.not_and_self]
  exact BitVec.and_zero

theorem within_not (h : x &&& y = 0) : Within x (~~~y) := by
  rw [within_iff]
  intro i hi
  have hy : (x &&& y).getLsbD i = false := by
    rw [h]
    exact BitVec.getLsbD_zero
  rw [BitVec.getLsbD_and, hi, Bool.true_and] at hy
  rw [BitVec.getLsbD_not, hy, decide_eq_true (BitVec.lt_of_getLsbD hi)]
  rfl

end Tukija.Lib.Masks
