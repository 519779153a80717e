import Mathlib.Data.List.Sort

/-! Search trees with balance fields.  The code reaches a node through the
link that holds it (`Avl **`); such a link is named here by the directions
that lead to it from the root. -/
namespace Tukija

/-- `class Avl`.  The field `bal` is `2` in an even node, which is `none` here,
and the direction of the higher link otherwise. -/
inductive Avl (α : Type) where
  | nil
  | node (l : Avl α) (a : α) (bal : Option Bool) (r : Avl α)
  deriving DecidableEq, Repr

namespace Avl

variable {α : Type}

/-- The node on `a` with `u` in direction `d` and `v` in the other one. -/
def join (d : Bool) (u : Avl α) (a : α) (bal : Option Bool) (v : Avl α) : Avl α :=
  match d with
  | false => node u a bal v
  | true => node v a bal u

def leaf (a : α) : Avl α := node nil a none nil

/-- `lnk[d]`. -/
def lnk (d : Bool) : Avl α → Avl α
  | nil => nil
  | node l _ _ r => bif d then r else l

def sub : Avl α → List Bool → Avl α
  | t, [] => t
  | t, d :: p => (t.lnk d).sub p

def modify (f : Avl α → Avl α) : Avl α → List Bool → Avl α
  | t, [] => f t
  | nil, _ :: _ => nil
  | node l a b r, d :: p => bif d then node l a b (r.modify f p) else node (l.modify f p) a b r

def inorder : Avl α → List α
  | nil => []
  | node l a _ r => l.inorder ++ a :: r.inorder

def height : Avl α → Nat
  | nil => 0
  | node l _ _ r => max l.height r.height + 1

/-- What a balance field says about the heights of `lnk[0]` and `lnk[1]`. -/
def Leans : Option Bool → Nat → Nat → Prop
  | none, m, n => m = n
  | some false, m, n => m = n + 1
  | some true, m, n => n = m + 1

instance (b : Option Bool) (m n : Nat) : Decidable (Leans b m n) :=
  match b with
  | none => inferInstanceAs (Decidable (m = n))
  | some false => inferInstanceAs (Decidable (m = n + 1))
  | some true => inferInstanceAs (Decidable (n = m + 1))

/-- Height balanced, with correct balance fields. -/
def Balanced : Avl α → Prop
  | nil => True
  | node l _ b r => l.Balanced ∧ r.Balanced ∧ Leans b l.height r.height

instance decidableBalanced : (t : Avl α) → Decidable t.Balanced
  | nil => inferInstanceAs (Decidable True)
  | node l _ b r =>
    have := decidableBalanced l
    have := decidableBalanced r
    inferInstanceAs (Decidable (l.Balanced ∧ r.Balanced ∧ Leans b l.height r.height))

section Join

variable {d : Bool} {u v : Avl α} {a : α} {b : Option Bool}

@[simp] theorem lnk_join : (join d u a b v).lnk d = u := by cases d <;> rfl

@[simp] theorem height_join : (join d u a b v).height = max u.height v.height + 1 := by
  cases d <;> simp [join, height, max_comm]

@[simp] theorem modify_join (f : Avl α → Avl α) (p : List Bool) :
    (join d u a b v).modify f (d :: p) = join d (u.modify f p) a b v := by
  cases d <;> simp [join, modify]

@[simp] theorem modify_not_join (f : Avl α → Avl α) (p : List Bool) :
    (join d u a b v).modify f ((!d) :: p) = join d u a b (v.modify f p) := by
  cases d <;> simp [join, modify]

theorem join_not : join (!d) v a b u = join d u a b v := by cases d <;> rfl

theorem mem_inorder_join {x : α} :
    x ∈ (join d u a b v).inorder ↔ x = a ∨ x ∈ u.inorder ∨ x ∈ v.inorder := by
  cases d <;> simp [join, inorder] <;> tauto

/-- The balance field says the same from either side. -/
def LeansFrom (d : Bool) (b : Option Bool) (m n : Nat) : Prop :=
  bif d then Leans b n m else Leans b m n

theorem balanced_join :
    (join d u a b v).Balanced ↔ u.Balanced ∧ v.Balanced ∧ LeansFrom d b u.height v.height := by
  cases d
  · rfl
  · simp only [join, Balanced, LeansFrom, cond_true]
    tauto

theorem balanced_join_even :
    (join d u a none v).Balanced ↔ u.Balanced ∧ v.Balanced ∧ u.height = v.height := by
  cases d
  · rfl
  · simp only [join, Balanced, Leans, eq_comm (a := u.height)]
    tauto

theorem balanced_join_toward :
    (join d u a (some d) v).Balanced ↔ u.Balanced ∧ v.Balanced ∧ u.height = v.height + 1 := by
  cases d
  · rfl
  · simp only [join, Balanced, Leans]
    tauto

theorem balanced_join_away :
    (join d u a (some !d) v).Balanced ↔ u.Balanced ∧ v.Balanced ∧ v.height = u.height + 1 := by
  cases d
  · rfl
  · simp only [join, Balanced, Leans, Bool.not_true]
    tauto

end Join

@[simp] theorem modify_nil_path (f : Avl α → Avl α) (t : Avl α) : t.modify f [] = f t := by
  cases t <;> rfl

@[simp] theorem sub_nil_path (t : Avl α) : t.sub [] = t := by
  cases t <;> rfl

@[simp] theorem height_eq_zero {t : Avl α} : t.height = 0 ↔ t = nil := by
  cases t <;> simp [height]

end Avl

end Tukija
