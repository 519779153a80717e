import Tukija.Avl.Tree

/-! `Avl::insert`: one pass down, which remembers the last node that is not
even, then at most one rotation there and new balance fields below. -/
namespace Tukija.Avl

variable {α : Type}

/-- `Avl::rotate (tree, d)`; the path is that of the node it returns. -/
def rotate (d : Bool) (tree : Avl α) : Option (Avl α × List Bool) :=
  match tree, tree.lnk d with
  | node _ x _ _, node yl y _ yr =>
    let top := node yl y none yr
    some (join d (top.lnk d) y none (join d (top.lnk !d) x none (tree.lnk !d)), [d])
  | _, _ => none

/-- `Avl::rotate (tree, d, b)`: `x`, `y` and `z` are `node[0]`, `node[1]` and
the new top. -/
def rotateTwice (d : Bool) (b : Option Bool) (tree : Avl α) : Option (Avl α × Option (List Bool)) :=
  match tree, tree.lnk d, (tree.lnk d).lnk !d with
  | node _ x _ _, node yl y yb yr, node zl z zb zr =>
    let node1 := node yl y yb yr
    let top := node zl z zb zr
    let bal (i : Bool) : Option Bool :=
      match b with
      | none => none
      | some b => if i = (b != d) then some !b else none
    let n := b.map fun b => [if b = d then d else !d, !b]
    some (join d (join d (node1.lnk d) y (bal true) (top.lnk d)) z none
      (join d (top.lnk !d) x (bal false) (tree.lnk !d)), n)
  | _, _, _ => none

section Insert

-- How the new node compares to those of the tree: `equal` and `larger` of the
-- class it is cast to.
variable (equal larger : α → Bool)

/-- The first loop of `Avl::insert`, with `tree` and `p`; `none` where it
returns. -/
def descend : Avl α → List Bool → List Bool → Option (List Bool × List Bool)
  | nil, tree, p => some (tree, p)
  | node l x b r, tree, p =>
    if equal x then none
    else
      let p := if b = none then p else tree
      bif larger x then descend r (tree ++ [true]) p else descend l (tree ++ [false]) p

/-- What `Avl::insert` does to the node `n` of the link `p`, and the node it
goes on with. -/
def settle (n : Avl α) : Option (Avl α × Option (List Bool)) :=
  match n with
  | nil => none
  | node _ _ none _ => some (n, some [])
  | node l x (some bal) r =>
    let d1 := larger x
    if bal ≠ d1 then some (node l x none r, some [d1])
    else
      match n.lnk d1 with
      | nil => none
      | node yl y yb yr =>
        let d2 := larger y
        if d1 = d2 then (rotate d1 n).map fun (t, n) => (t, some n)
        else
          match (node yl y yb yr).lnk d2 with
          | nil => none
          | node _ z _ _ => rotateTwice d1 (if equal z then none else some (larger z)) n

/-- The last loop of `Avl::insert`. -/
def fixBal : Avl α → Avl α
  | nil => nil
  | node l x b r =>
    if equal x then node l x b r
    else bif larger x then node l x (some true) (fixBal r) else node (fixBal l) x (some false) r

/-- The last loop, from the node that `n` names. -/
def fixFrom (n : Option (List Bool)) (t : Avl α) : Avl α :=
  match n with
  | none => t
  | some n => t.modify (fixBal equal larger) n

/-- `Avl::insert`; `none` stands for a null pointer that is followed. -/
def insert (tree : Avl α) (a : α) : Option (Bool × Avl α) :=
  match descend equal larger tree [] [] with
  | none => some (false, tree)
  | some (link, p) => do
    let tree := tree.modify (fun _ => leaf a) link
    let (s, n) ← settle equal larger (tree.sub p)
    return (true, tree.modify (fun _ => fixFrom equal larger n s) p)

end Insert

section Steps

variable {d : Bool} {u v p q : Avl α} {x y z : α} {b c : Option Bool}

theorem rotate_join :
    rotate d (join d (join d u y b v) x c q) = some (join d u y none (join d v x none q), [d]) := by
  cases d <;> rfl

theorem rotateTwice_even :
    rotateTwice d none (join d (join d u y b (join d p z c q)) x (some d) v) =
      some (join d (join d u y none p) z none (join d q x none v), none) := by
  cases d <;> rfl

theorem rotateTwice_toward :
    rotateTwice d (some d) (join d (join d u y b (join d p z c q)) x (some d) v) =
      some (join d (join d u y none p) z none (join d q x (some !d) v), some [d, !d]) := by
  cases d <;> rfl

theorem rotateTwice_away :
    rotateTwice d (some !d) (join d (join d u y b (join d p z c q)) x (some d) v) =
      some (join d (join d u y (some d) p) z none (join d q x none v), some [!d, d]) := by
  cases d <;> rfl

variable {equal larger : α → Bool}

theorem settle_even :
    settle equal larger (join d u x none v) = some (join d u x none v, some []) := by
  cases d <;> rfl

theorem settle_away (hx : larger x = d) :
    settle equal larger (join d u x (some !d) v) = some (join d u x none v, some [d]) := by
  cases d <;> simp [settle, join, hx]

theorem settle_single (hx : larger x = d) (hy : larger y = d) :
    settle equal larger (join d (join d u y b q) x (some d) v) =
      some (join d u y none (join d q x none v), some [d]) := by
  have hrot : rotate d (join d (join d u y b q) x (some d) v) =
      some (join d u y none (join d q x none v), [d]) := rotate_join
  cases d <;> simp only [join] at hrot ⊢ <;> simp [settle, lnk, hx, hy, hrot]

theorem settle_double (hx : larger x = d) (hy : larger y = !d) :
    settle equal larger (join d (join d u y b (join d p z c q)) x (some d) v) =
      rotateTwice d (if equal z then none else some (larger z))
        (join d (join d u y b (join d p z c q)) x (some d) v) := by
  cases d <;> simp [settle, join, lnk, hx, hy]

end Steps

/-! The same pass, told by recursion on the tree. -/

section Relative

variable (equal larger : α → Bool)

def place (a : α) : Avl α → Avl α
  | nil => leaf a
  | node l x b r => bif larger x then node l x b (place a r) else node (place a l) x b r

/-- The way to the last node of the search path that is not even. -/
def deepest : Avl α → Option (List Bool)
  | nil => none
  | node l x b r =>
    match bif larger x then deepest r else deepest l with
    | some p => some (larger x :: p)
    | none => if b = none then none else some []

def route : Avl α → List Bool
  | nil => []
  | node l x _ r => larger x :: bif larger x then route r else route l

variable {equal larger}

theorem place_join {d : Bool} {a x : α} {u v : Avl α} {b : Option Bool} (hx : larger x = d) :
    place larger a (join d u x b v) = join d (place larger a u) x b v := by
  cases d <;> simp [place, join, hx]

theorem fixBal_join {d : Bool} {x : α} {u v : Avl α} {b : Option Bool} (hx : larger x = d)
    (he : equal x = false) :
    fixBal equal larger (join d u x b v) = join d (fixBal equal larger u) x (some d) v := by
  cases d <;> simp [fixBal, join, hx, he]

theorem deepest_join {d : Bool} {x : α} {u v : Avl α} {b : Option Bool} (hx : larger x = d) :
    deepest larger (join d u x b v) =
      match deepest larger u with
      | some p => some (d :: p)
      | none => if b = none then none else some [] := by
  cases d <;> simp [deepest, join, hx]

theorem modify_route (a : α) (t : Avl α) :
    t.modify (fun _ => leaf a) (route larger t) = place larger a t := by
  induction t with
  | nil => rfl
  | node l x b r ihl ihr => cases hx : larger x <;> simp [route, place, modify, hx, ihl, ihr]

theorem descend_eq (larger : α → Bool) {t : Avl α} (hne : ∀ x ∈ t.inorder, equal x = false) (tree p : List Bool) :
    descend equal larger t tree p =
      some (tree ++ route larger t, ((deepest larger t).map (tree ++ ·)).getD p) := by
  induction t generalizing tree p with
  | nil => simp [descend, route, deepest]
  | node l x b r ihl ihr =>
    have hx : equal x = false := hne x (by simp [inorder])
    have ihl := ihl fun y hy => hne y (by simp [inorder, hy])
    have ihr := ihr fun y hy => hne y (by simp [inorder, hy])
    cases hd : larger x
    · simp only [descend, hx, hd, ihl, route, deepest, cond_false, Bool.false_eq_true, if_false]
      cases deepest larger l <;> cases b <;> simp
    · simp only [descend, hx, hd, ihr, route, deepest, cond_true, Bool.false_eq_true, if_false]
      cases deepest larger r <;> cases b <;> simp

end Relative

/-! No step but the first changes the sequence. -/

section Inorder

theorem inorder_modify {f : Avl α → Avl α} {t : Avl α} {p : List Bool}
    (h : (f (t.sub p)).inorder = (t.sub p).inorder) : (t.modify f p).inorder = t.inorder := by
  induction p generalizing t with
  | nil => simpa using h
  | cons d p ih =>
    cases t with
    | nil => rfl
    | node l a b r =>
      have ih := ih h
      cases d
      · simpa [modify, inorder, lnk] using ih
      · simpa [modify, inorder, lnk] using ih

theorem inorder_rotate {d : Bool} {t s : Avl α} {n : List Bool} (h : rotate d t = some (s, n)) :
    s.inorder = t.inorder := by
  unfold rotate at h
  split at h
  · rename_i hy
    obtain ⟨rfl, -⟩ := by simpa using h
    cases d <;> simp only [lnk, cond_true, cond_false] at hy <;>
      simp [join, lnk, inorder, hy]
  · simp at h

theorem inorder_rotateTwice {d : Bool} {b : Option Bool} {t s : Avl α} {n : Option (List Bool)}
    (h : rotateTwice d b t = some (s, n)) : s.inorder = t.inorder := by
  unfold rotateTwice at h
  split at h
  · rename_i hy hz
    obtain ⟨rfl, -⟩ := by simpa using h
    rw [hy] at hz
    cases d <;> simp only [lnk, cond_true, cond_false, Bool.not_true, Bool.not_false] at hy hz <;>
      simp [join, lnk, inorder, hy, hz]
  · simp at h

variable {equal larger : α → Bool}

theorem inorder_settle {t s : Avl α} {n : Option (List Bool)}
    (h : settle equal larger t = some (s, n)) : s.inorder = t.inorder := by
  unfold settle at h
  split at h
  · simp at h
  · obtain ⟨rfl, -⟩ := by simpa using h
    rfl
  dsimp only at h
  split at h
  · obtain ⟨rfl, -⟩ := by simpa using h
    rfl
  split at h
  · simp at h
  split at h
  · obtain ⟨⟨s', n'⟩, hrot, heq⟩ := Option.map_eq_some_iff.mp h
    obtain ⟨rfl, -⟩ := by simpa using heq
    exact inorder_rotate hrot
  split at h
  · simp at h
  · exact inorder_rotateTwice h

theorem inorder_fixBal (t : Avl α) : (fixBal equal larger t).inorder = t.inorder := by
  induction t with
  | nil => rfl
  | node l x b r ihl ihr =>
    unfold fixBal
    split
    · rfl
    · cases larger x <;> simp [inorder, ihl, ihr]

theorem inorder_fixFrom (n : Option (List Bool)) (t : Avl α) :
    (fixFrom equal larger n t).inorder = t.inorder := by
  cases n with
  | none => rfl
  | some p => exact inorder_modify (inorder_fixBal _)

end Inorder

/-! The heights. -/

section Heights

variable {equal larger : α → Bool} {a : α}

theorem path_induction (larger : α → Bool) {motive : Avl α → Prop} (nil : motive nil)
    (join : ∀ u x b v, motive u → motive (join (larger x) u x b v)) (t : Avl α) : motive t := by
  induction t with
  | nil => exact nil
  | node l x b r ihl ihr =>
    cases hx : larger x
    · simpa [hx, Avl.join] using join l x b r ihl
    · simpa [hx, Avl.join] using join r x b l ihr

theorem eq_join_larger (larger : α → Bool) {t : Avl α} (h : t ≠ nil) :
    ∃ u x b v, t = join (larger x) u x b v := by
  induction t using path_induction larger with
  | nil => exact absurd rfl h
  | join u x b v => exact ⟨u, x, b, v, rfl⟩

/-- Below the last node that is not even, every node of the search path gets
one level higher on the side of the new node. -/
theorem fixBal_place (ha : equal a = true) {t : Avl α} (hne : ∀ x ∈ t.inorder, equal x = false)
    (ht : t.Balanced) (hd : deepest larger t = none) :
    (fixBal equal larger (place larger a t)).Balanced ∧
      (fixBal equal larger (place larger a t)).height = t.height + 1 := by
  induction t using path_induction larger with
  | nil => simp [place, leaf, fixBal, ha, Balanced, Leans, height]
  | join u x b v ih =>
    have hx : equal x = false := hne x (mem_inorder_join.mpr (.inl rfl))
    rw [deepest_join rfl] at hd
    split at hd
    · simp at hd
    rename_i hu
    obtain rfl : b = none := by
      by_contra hb
      simp [hb] at hd
    obtain ⟨hbu, hbv, hh⟩ := balanced_join_even.mp ht
    obtain ⟨ih1, ih2⟩ := ih (fun y hy => hne y (mem_inorder_join.mpr (.inr (.inl hy)))) hbu hu
    rw [place_join rfl, fixBal_join rfl hx]
    constructor
    · exact balanced_join_toward.mpr ⟨ih1, hbv, by omega⟩
    · simp only [height_join]
      omega

theorem deepest_join_none {u v : Avl α} {x : α} {b : Option Bool}
    (h : deepest larger (join (larger x) u x b v) = none) : deepest larger u = none ∧ b = none := by
  rw [deepest_join rfl] at h
  split at h
  · simp at h
  · rename_i hu
    by_cases hb : b = none
    · exact ⟨hu, hb⟩
    · simp [hb] at h

/-- A node whose child on the search path has grown by one level gets its old
height back. -/
def Restores (equal larger : α → Bool) (t t' : Avl α) : Prop :=
  ∃ s n, settle equal larger t' = some (s, n) ∧
    (fixFrom equal larger n s).Balanced ∧ (fixFrom equal larger n s).height = t.height

section Grown

variable {u v w : Avl α} {x y z : α} {d : Bool} (ha : equal a = true)
include ha

theorem restores_away (hx : larger x = d) (hne : ∀ y ∈ u.inorder, equal y = false)
    (ht : (join d u x (some !d) v).Balanced) (hd : deepest larger u = none) :
    Restores equal larger (join d u x (some !d) v) (join d (place larger a u) x (some !d) v) := by
  obtain ⟨hu, hv, hh⟩ := balanced_join_away.mp ht
  obtain ⟨hu', hh'⟩ := fixBal_place ha hne hu hd
  refine ⟨_, _, settle_away hx, ?_, ?_⟩
  · simpa [fixFrom, balanced_join_even] using ⟨hu', hv, by omega⟩
  · simp only [fixFrom, modify_join, modify_nil_path, height_join]
    omega

theorem restores_single (hx : larger x = d) (hy : larger y = d)
    (hne : ∀ y ∈ u.inorder, equal y = false)
    (ht : (join d (join d u y none w) x (some d) v).Balanced) (hd : deepest larger u = none) :
    Restores equal larger (join d (join d u y none w) x (some d) v)
      (join d (join d (place larger a u) y none w) x (some d) v) := by
  obtain ⟨hb, hv, hh⟩ := balanced_join_toward.mp ht
  obtain ⟨hu, hw, huw⟩ := balanced_join_even.mp hb
  obtain ⟨hu', hh'⟩ := fixBal_place ha hne hu hd
  simp only [height_join] at hh
  refine ⟨_, _, settle_single hx hy, ?_, ?_⟩
  · simp only [fixFrom, modify_join, modify_nil_path, balanced_join_even, height_join]
    refine ⟨hu', ⟨hw, hv, by omega⟩, by omega⟩
  · simp only [fixFrom, modify_join, modify_nil_path, height_join]
    omega

theorem restores_double_new (hx : larger x = d) (hy : larger y = !d)
    (ht : (join d (join d w y none nil) x (some d) v).Balanced) :
    Restores equal larger (join d (join d w y none nil) x (some d) v)
      (join d (join d w y none (join d nil a none nil)) x (some d) v) := by
  obtain ⟨hb, hv, hh⟩ := balanced_join_toward.mp ht
  obtain ⟨hw, -, hw0⟩ := balanced_join_even.mp hb
  simp only [height_join, height] at hh hw0
  refine ⟨_, _, (settle_double hx hy).trans (by rw [if_pos ha, rotateTwice_even]), ?_, ?_⟩
  · simp only [fixFrom, balanced_join_even, height_join, height, Balanced]
    exact ⟨⟨hw, trivial, hw0⟩, ⟨trivial, hv, by omega⟩, by omega⟩
  · simp only [fixFrom, height_join, height]
    omega

theorem restores_double_toward (hx : larger x = d) (hy : larger y = !d) (hz : larger z = d)
    (hez : equal z = false) {p q : Avl α} (hne : ∀ y ∈ p.inorder, equal y = false)
    (ht : (join d (join d w y none (join d p z none q)) x (some d) v).Balanced)
    (hd : deepest larger p = none) :
    Restores equal larger (join d (join d w y none (join d p z none q)) x (some d) v)
      (join d (join d w y none (join d (place larger a p) z none q)) x (some d) v) := by
  obtain ⟨hb, hv, hh⟩ := balanced_join_toward.mp ht
  obtain ⟨hw, hz', hwz⟩ := balanced_join_even.mp hb
  obtain ⟨hp, hq, hpq⟩ := balanced_join_even.mp hz'
  obtain ⟨hp', hh'⟩ := fixBal_place ha hne hp hd
  simp only [height_join] at hh hwz
  refine ⟨_, _, (settle_double hx hy).trans (by simp only [hez, hz]; exact rotateTwice_toward), ?_, ?_⟩
  · simp only [fixFrom, modify_join, modify_not_join, modify_nil_path, balanced_join_even,
      balanced_join_away, height_join]
    exact ⟨⟨hw, hp', by omega⟩, ⟨hq, hv, by omega⟩, by omega⟩
  · simp only [fixFrom, modify_join, modify_not_join, modify_nil_path, height_join]
    omega

theorem restores_double_away (hx : larger x = d) (hy : larger y = !d) (hz : larger z = !d)
    (hez : equal z = false) {p q : Avl α} (hne : ∀ y ∈ p.inorder, equal y = false)
    (ht : (join d (join d w y none (join d q z none p)) x (some d) v).Balanced)
    (hd : deepest larger p = none) :
    Restores equal larger (join d (join d w y none (join d q z none p)) x (some d) v)
      (join d (join d w y none (join d q z none (place larger a p))) x (some d) v) := by
  obtain ⟨hb, hv, hh⟩ := balanced_join_toward.mp ht
  obtain ⟨hw, hz', hwz⟩ := balanced_join_even.mp hb
  obtain ⟨hq, hp, hpq⟩ := balanced_join_even.mp hz'
  obtain ⟨hp', hh'⟩ := fixBal_place ha hne hp hd
  simp only [height_join] at hh hwz
  refine ⟨_, _, (settle_double hx hy).trans (by simp only [hez, hz]; exact rotateTwice_away), ?_, ?_⟩
  · simp only [fixFrom, modify_join, modify_not_join, modify_nil_path, balanced_join_even,
      balanced_join_toward, height_join]
    exact ⟨⟨hw, hq, by omega⟩, ⟨hp', hv, by omega⟩, by omega⟩
  · simp only [fixFrom, modify_join, modify_not_join, modify_nil_path, height_join]
    omega

theorem restores_place {e : Bool} {t : Avl α} (heq : t = join (larger x) u x (some e) v)
    (hne : ∀ y ∈ t.inorder, equal y = false) (ht : t.Balanced) (hd : deepest larger u = none) :
    Restores equal larger t (place larger a t) := by
  have hnu : ∀ y ∈ u.inorder, equal y = false := by
    intro y hy
    exact hne y (heq ▸ mem_inorder_join.mpr (.inr (.inl hy)))
  subst heq
  rw [place_join rfl]
  generalize hx : larger x = d at ht ⊢
  obtain rfl | rfl : e = d ∨ e = !d := by cases e <;> cases d <;> simp
  swap
  · exact restores_away ha hx hnu ht hd
  have hpos : u ≠ nil := by
    rintro rfl
    have := (balanced_join_toward.mp ht).2.2
    simp [height] at this
  -- the child leans to neither side, so the new node decides which rotation it is
  obtain ⟨u, y, c, w, rfl⟩ := eq_join_larger larger hpos
  obtain ⟨hdu, rfl⟩ := deepest_join_none hd
  have hnu' : ∀ z ∈ u.inorder, equal z = false :=
    fun z hz => hnu z (mem_inorder_join.mpr (.inr (.inl hz)))
  rw [place_join rfl]
  generalize hy : larger y = d2 at ht ⊢
  obtain rfl | rfl : d2 = e ∨ d2 = !e := by cases d2 <;> cases e <;> simp
  · exact restores_single ha hx hy hnu' ht hdu
  rw [join_not] at ht
  rw [join_not, join_not]
  by_cases hu : u = nil
  · subst hu
    have hleaf : place larger a nil = join e nil a none nil := by cases e <;> rfl
    rw [hleaf]
    exact restores_double_new ha hx hy ht
  obtain ⟨p, z, c, q, rfl⟩ := eq_join_larger larger hu
  obtain ⟨hdp, rfl⟩ := deepest_join_none hdu
  have hez : equal z = false := hnu' z (mem_inorder_join.mpr (.inl rfl))
  have hnp : ∀ z ∈ p.inorder, equal z = false :=
    fun z hz => hnu' z (mem_inorder_join.mpr (.inr (.inl hz)))
  rw [place_join rfl]
  generalize hz : larger z = d3 at ht ⊢
  obtain rfl | rfl : d3 = e ∨ d3 = !e := by cases d3 <;> cases e <;> simp
  · exact restores_double_toward ha hx hy hz hez hnp ht hdp
  · rw [join_not] at ht
    rw [join_not, join_not]
    exact restores_double_away ha hx hy hz hez hnp ht hdp

theorem settle_deepest {t : Avl α} {p : List Bool} (hne : ∀ y ∈ t.inorder, equal y = false)
    (ht : t.Balanced) (hd : deepest larger t = some p) :
    ∃ s n, settle equal larger ((place larger a t).sub p) = some (s, n) ∧
      ((place larger a t).modify (fun _ => fixFrom equal larger n s) p).Balanced ∧
      ((place larger a t).modify (fun _ => fixFrom equal larger n s) p).height = t.height := by
  induction t using path_induction larger generalizing p with
  | nil => simp [deepest] at hd
  | join u x b v ih =>
    rw [deepest_join rfl] at hd
    cases hu : deepest larger u with
    | none =>
      rw [hu] at hd
      cases b with
      | none => simp at hd
      | some e =>
        obtain rfl : [] = p := by simpa using hd
        obtain ⟨s, n, hs, hb, hh⟩ := restores_place ha rfl hne ht hu
        exact ⟨s, n, by simpa using hs, by simpa using hb, by simpa using hh⟩
    | some q =>
      rw [hu] at hd
      obtain rfl : larger x :: q = p := by simpa using hd
      have hnu : ∀ y ∈ u.inorder, equal y = false :=
        fun y hy => hne y (mem_inorder_join.mpr (.inr (.inl hy)))
      rw [balanced_join] at ht
      obtain ⟨s, n, hs, hb, hh⟩ := ih hnu ht.1 hu
      refine ⟨s, n, ?_, ?_, ?_⟩
      · rw [place_join rfl]
        simpa [sub] using hs
      · rw [place_join rfl, modify_join, balanced_join, hh]
        exact ⟨hb, ht.2⟩
      · rw [place_join rfl, modify_join, height_join, height_join, hh]

end Grown

end Heights

section Main

variable {equal larger : α → Bool} {a : α}

/-- With no overlap, the tree stays balanced and only the new node joins the
sequence. -/
theorem insert_balanced (larger : α → Bool) (ha : equal a = true) {t : Avl α}
    (hne : ∀ y ∈ t.inorder, equal y = false) (ht : t.Balanced) :
    ∃ t', insert equal larger t a = some (true, t') ∧ t'.Balanced ∧
      t'.inorder = (place larger a t).inorder := by
  have hdesc := descend_eq larger hne [] []
  cases hd : deepest larger t with
  | none =>
    -- the first node the code settles is the root, which is even or new
    have hroot : settle equal larger (place larger a t) = some (place larger a t, some []) := by
      by_cases hnil : t = nil
      · subst hnil
        rfl
      · obtain ⟨u, x, b, v, rfl⟩ := eq_join_larger larger hnil
        obtain ⟨-, rfl⟩ := deepest_join_none hd
        rw [place_join rfl, settle_even]
    refine ⟨fixBal equal larger (place larger a t), ?_, (fixBal_place ha hne ht hd).1, inorder_fixBal _⟩
    simp [insert, hdesc, hd, modify_route, hroot, fixFrom]
  | some p =>
    obtain ⟨s, n, hs, hb, -⟩ := settle_deepest ha hne ht hd
    refine ⟨_, ?_, hb, ?_⟩
    · simp [insert, hdesc, hd, modify_route, hs]
    · exact inorder_modify ((inorder_fixFrom n s).trans (inorder_settle hs))

/-- `x` before `y`, as the search for the new node's place sees it. -/
structure Before (equal larger : α → Bool) (x y : α) : Prop where
  below : larger y = true → larger x = true
  left : equal x = true → equal y = false → larger y = false
  right : equal y = true → equal x = false → larger x = true

def insertAt (larger : α → Bool) (a : α) : List α → List α
  | [] => [a]
  | x :: l => bif larger x then x :: insertAt larger a l else a :: x :: l

theorem insertAt_append_of_larger {l l' : List α} (h : ∀ x ∈ l, larger x = true) :
    insertAt larger a (l ++ l') = l ++ insertAt larger a l' := by
  induction l with
  | nil => rfl
  | cons x l ih =>
    simp only [List.mem_cons, forall_eq_or_imp] at h
    simp [insertAt, h.1, ih h.2]

theorem insertAt_append_cons {l l' : List α} {x : α} (h : larger x = false) :
    insertAt larger a (l ++ x :: l') = insertAt larger a l ++ x :: l' := by
  induction l with
  | nil => simp [insertAt, h]
  | cons y l ih => cases hy : larger y <;> simp [insertAt, hy, ih]

theorem inorder_place {t : Avl α} (ht : t.inorder.Pairwise (Before equal larger)) :
    (place larger a t).inorder = insertAt larger a t.inorder := by
  induction t with
  | nil => rfl
  | node l x b r ihl ihr =>
    obtain ⟨hl, hr, hlr⟩ := List.pairwise_append.mp ht
    obtain ⟨hxr, hr⟩ := List.pairwise_cons.mp hr
    cases hx : larger x
    · rw [inorder, insertAt_append_cons hx, ← ihl hl]
      simp [place, hx, inorder]
    · have hl' : ∀ y ∈ l.inorder, larger y = true :=
        fun y hy => (hlr y hy x (by simp)).below hx
      rw [inorder, insertAt_append_of_larger hl', insertAt, hx, cond_true, ← ihr hr]
      simp [place, hx, inorder]

theorem descend_eq_none {t : Avl α} (ht : t.inorder.Pairwise (Before equal larger))
    (he : ∃ x ∈ t.inorder, equal x = true) (tree p : List Bool) :
    descend equal larger t tree p = none := by
  induction t generalizing tree p with
  | nil => simp [inorder] at he
  | node l x b r ihl ihr =>
    obtain ⟨hl, hr, hlr⟩ := List.pairwise_append.mp ht
    obtain ⟨hxr, hr⟩ := List.pairwise_cons.mp hr
    unfold descend
    cases hx : equal x
    · obtain ⟨y, hy, hey⟩ := he
      simp only [inorder, List.mem_append, List.mem_cons] at hy
      rcases hy with hy | rfl | hy
      · rw [(hlr y hy x (by simp)).left hey hx]
        exact ihl hl ⟨y, hy, hey⟩ _ _
      · simp [hx] at hey
      · rw [(hxr y hy).right hey hx]
        exact ihr hr ⟨y, hy, hey⟩ _ _
    · rfl

theorem insert_overlap {t : Avl α} (ht : t.inorder.Pairwise (Before equal larger))
    (he : ∃ x ∈ t.inorder, equal x = true) :
    insert equal larger t a = some (false, t) := by
  simp [insert, descend_eq_none ht he]

end Main

end Tukija.Avl
