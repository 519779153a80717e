import Tukija.Avl.Link

/-! `Avl::remove`: one pass down, which remembers the last node whose height will
stay, one pass down from there that rebalances ahead of the removal, and an
exchange of the item with the last node of the search path. -/
namespace Tukija.Avl

variable {α : Type}

def setBal (b : Option Bool) : Avl α → Avl α
  | nil => nil
  | node l x _ r => node l x b r

/-- `balanced ()`, through a pointer. -/
def even : Avl α → Option Bool
  | nil => none
  | node _ _ b _ => some (b = none)

/-- The rotation at a node that leans away from `d`, with what follows it when
its higher child is even. -/
def turn (d : Bool) (n : Avl α) : Option (Avl α) :=
  match n.lnk !d with
  | nil => none
  | node yl y yb yr =>
    if yb = some d then
      match (node yl y yb yr).lnk d with
      | nil => none
      | node _ _ zb _ => (rotateTwice (!d) zb n).map Prod.fst
    else
      (rotate (!d) n).map fun (top, _) =>
        if yb = none then (top.setBal (some d)).modify (setBal (some !d)) [d] else top

/-- The variables of `Avl::remove` after its first loop. -/
structure Seek (α : Type) where
  tree : Link α
  p : Link α
  item : Option (Link α)
  d : Bool

section Remove

-- How the node that is to go compares to those of the tree.
variable [DecidableEq α] (equal larger : α → Bool)

/-- The first loop of `Avl::remove`. -/
def seek : Avl α → Seek α → Option (Seek α)
  | nil, s => some s
  | node l x b r, s =>
    let item := if equal x then some s.tree else s.item
    let d := larger x
    if (node l x b r).lnk d = nil then some { s with item := item, d := d }
    else do
      let stays ←
        if b = none then some true
        else if b = some !d then even ((node l x b r).lnk !d)
        else some false
      let s := ⟨.lnk x d, if stays then s.tree else s.p, item, d⟩
      bif d then seek r s else seek l s

/-- The second loop, on the tree that `p` holds; `a` is `node`.  The child in
direction `d` is the same before and after a rotation. -/
def lower (a : α) : Avl α → Link α → Bool → Option (Avl α × Link α × Bool)
  | nil, item, d => some (nil, item, d)
  | node l x b r, item, _ =>
    let n := node l x b r
    let d := larger x
    if n.lnk d = nil then some (n, item, d)
    else if b = some !d then
      match turn d n with
      | none | some nil => none
      | some (node tl y tb tr) => do
        let item := if x = a then .lnk y d else item
        let (u, item, e) ← bif d then lower a r item d else lower a l item d
        some ((node tl y tb tr).modify (fun _ => u) [d, d], item, e)
    else do
      let (u, item, e) ← bif d then lower a r item d else lower a l item d
      some ((n.setBal (if b = none then some !d else none)).modify (fun _ => u) [d], item, e)

/-- The end of `Avl::remove`: the last node of the path leaves its place and,
unless it is the item itself, takes the item's. -/
def exchange (a : α) (tree item : Link α) (d : Bool) (t : Avl α) : Option (Avl α) :=
  match tree.read t with
  | nil => none
  | node l y b r =>
    let t := tree.write ((node l y b r).lnk !d) t
    if item = tree then some t
    else
      match t.find a with
      | nil => none
      | node l _ b r => some (item.write (node l y b r) t)

/-- `Avl::remove`; `none` stands for a null pointer that is followed. -/
def remove (tree : Avl α) (a : α) : Option (Bool × Avl α) := do
  let s ← seek equal larger tree ⟨.root, .root, none, false⟩
  match s.item with
  | none => some (false, tree)
  | some item => do
    let (u, item, d) ← lower larger a (s.p.read tree) item s.d
    let t ← exchange a s.tree item d (s.p.write u tree)
    some (true, t)

end Remove

section Steps

variable {d : Bool} {u v w p q : Avl α} {x y z : α} {b c : Option Bool}

theorem turn_single :
    turn d (join d u x b (join d q y (some !d) w)) = some (join d (join d u x none q) y none w) := by
  cases d <;> rfl

theorem turn_even :
    turn d (join d u x b (join d q y none w)) =
      some (join d (join d u x (some !d) q) y (some d) w) := by
  cases d <;> rfl

theorem turn_double_even :
    turn d (join d u x b (join d (join d p z none q) y (some d) w)) =
      some (join d (join d u x none p) z none (join d q y none w)) := by
  cases d <;> rfl

theorem turn_double_toward :
    turn d (join d u x b (join d (join d p z (some d) q) y (some d) w)) =
      some (join d (join d u x none p) z none (join d q y (some !d) w)) := by
  cases d <;> rfl

theorem turn_double_away :
    turn d (join d u x b (join d (join d p z (some !d) q) y (some d) w)) =
      some (join d (join d u x (some d) p) z none (join d q y none w)) := by
  cases d <;> rfl

theorem inorder_setBal (b : Option Bool) (t : Avl α) : (t.setBal b).inorder = t.inorder := by
  cases t <;> rfl

theorem inorder_turn {t s : Avl α} (h : turn d t = some s) : s.inorder = t.inorder := by
  unfold turn at h
  split at h
  · simp at h
  split at h
  · split at h
    · simp at h
    · obtain ⟨⟨s', n⟩, hrot, rfl⟩ := Option.map_eq_some_iff.mp h
      exact inorder_rotateTwice hrot
  · obtain ⟨⟨s', n⟩, hrot, rfl⟩ := Option.map_eq_some_iff.mp h
    rw [← inorder_rotate hrot]
    dsimp only
    split
    · rw [inorder_modify (inorder_setBal _ _), inorder_setBal]
    · rfl

variable [DecidableEq α] {larger : α → Bool} {a : α} {item : Link α} {e : Bool}

theorem lower_stop (hx : larger x = d) :
    lower larger a (join d nil x b v) item e = some (join d nil x b v, item, d) := by
  cases d <;> simp [lower, join, lnk, hx]

theorem lower_even (hx : larger x = d) (hu : u ≠ nil) :
    lower larger a (join d u x none v) item e =
      (lower larger a u item d).map fun r => (join d r.1 x (some !d) v, r.2) := by
  cases d <;> simp [lower, join, lnk, hx, hu, setBal, modify, Option.map_eq_bind]

theorem lower_toward (hx : larger x = d) (hu : u ≠ nil) :
    lower larger a (join d u x (some d) v) item e =
      (lower larger a u item d).map fun r => (join d r.1 x none v, r.2) := by
  cases d <;> simp [lower, join, lnk, hx, hu, setBal, modify, Option.map_eq_bind]

theorem lower_turn (hx : larger x = d) (hu : u ≠ nil)
    (ht : turn d (join d u x (some !d) v) = some (join d (join d u x c q) y b w)) :
    lower larger a (join d u x (some !d) v) item e =
      (lower larger a u (if x = a then .lnk y d else item) d).map fun r =>
        (join d (join d r.1 x c q) y b w, r.2) := by
  cases d <;> simp only [join, Bool.not_true, Bool.not_false] at ht ⊢ <;>
    simp [lower, lnk, hx, hu, ht, modify, Option.map_eq_bind]

end Steps

/-! What the first loop finds. -/

section Trail

variable {larger : α → Bool} {d : Bool} {u v : Avl α} {x : α} {b : Option Bool}

def trail (larger : α → Bool) : Avl α → List α
  | nil => []
  | node l x _ r => x :: bif larger x then trail larger r else trail larger l

theorem trail_join (hx : larger x = d) : trail larger (join d u x b v) = x :: trail larger u := by
  cases d <;> simp [trail, join, hx]

theorem mem_inorder_of_mem_trail {t : Avl α} {y : α} (h : y ∈ trail larger t) : y ∈ t.inorder := by
  induction t using path_induction larger with
  | nil => simp [trail] at h
  | join u x b v ih =>
    rw [trail_join rfl] at h
    rcases List.mem_cons.mp h with rfl | h
    · exact mem_inorder_join.mpr (.inl rfl)
    · exact mem_inorder_join.mpr (.inr (.inl (ih h)))

theorem trail_eq_nil {t : Avl α} : trail larger t = [] ↔ t = nil := by
  cases t <;> simp [trail]

/-- The last of the search path, below a node of it. -/
theorem getLast?_trail_join (hx : larger x = d) (hu : u ≠ nil) :
    (trail larger (join d u x b v)).getLast? = (trail larger u).getLast? := by
  rw [trail_join hx, List.getLast?_cons]
  cases h : (trail larger u).getLast? with
  | none => exact absurd (trail_eq_nil.mp (List.getLast?_eq_none_iff.mp h)) hu
  | some y => rfl

theorem even_isSome (ht : (join d u x (some !d) v).Balanced) : ∃ e, even v = some e := by
  cases v with
  | nil => simp [balanced_join_away, height] at ht
  | node l z c r => exact ⟨_, rfl⟩

end Trail

section Seek

variable [DecidableEq α] (larger : α → Bool)

/-- The node keeps its height when its child on the search path loses one level. -/
def stays : Avl α → Bool
  | nil => false
  | node l x b r =>
    let d := larger x
    (node l x b r).lnk d ≠ nil && (b = none || (b = some !d && even ((node l x b r).lnk !d) = some true))

def keeper : Avl α → Option α
  | nil => none
  | node l x b r =>
    (bif larger x then keeper r else keeper l).or
      (if stays larger (node l x b r) then some x else none)

variable {larger} {d : Bool} {u v : Avl α} {x : α} {b : Option Bool}

theorem keeper_join (hx : larger x = d) :
    keeper larger (join d u x b v) =
      (keeper larger u).or (if stays larger (join d u x b v) then some x else none) := by
  cases d <;> simp only [keeper, join, hx, cond_true, cond_false] <;> rfl

theorem stays_join (hx : larger x = d) :
    stays larger (join d u x b v) =
      (u ≠ nil && (b = none || (b = some !d && even v = some true)) : Bool) := by
  cases d <;> simp [stays, join, lnk, hx]

theorem mem_trail_of_keeper {t : Avl α} {z : α} (h : keeper larger t = some z) :
    z ∈ trail larger t := by
  induction t using path_induction larger with
  | nil => simp [keeper] at h
  | join u x b v ih =>
    rw [keeper_join rfl] at h
    rw [trail_join rfl]
    rcases Option.or_eq_some_iff.mp h with h | ⟨-, h⟩
    · exact List.mem_cons_of_mem x (ih h)
    · simp [← (Option.ite_some_none_eq_some.mp h).2]

variable {equal : α → Bool} {a : α}

theorem seek_stop (hx : larger x = d) (s : Seek α) :
    seek equal larger (join d nil x b v) s =
      some { s with item := if equal x then some s.tree else s.item, d := d } := by
  cases d <;> simp [seek, join, lnk, hx]

theorem seek_join (hx : larger x = d) (hu : u ≠ nil) (ht : (join d u x b v).Balanced) (s : Seek α) :
    seek equal larger (join d u x b v) s =
      seek equal larger u ⟨.lnk x d, if stays larger (join d u x b v) then s.tree else s.p,
        if equal x then some s.tree else s.item, d⟩ := by
  rw [stays_join hx]
  obtain rfl | rfl | rfl : b = none ∨ b = some d ∨ b = some !d := by cases b <;> cases d <;> simp
  · cases d <;> simp [seek, join, lnk, hx, hu]
  · cases d <;> simp [seek, join, lnk, hx, hu]
  · obtain ⟨e, he⟩ := even_isSome ht
    cases d <;> simp only [Bool.not_true, Bool.not_false] at he ⊢ <;>
      simp [seek, join, lnk, hx, hu, he]

/-- The search ends at the last node of its path, and has passed the last that
keeps its height, and the item if that is on the path. -/
theorem seek_spec (larger : α → Bool) {t : Avl α} (ht : t.Balanced) (hnd : t.inorder.Nodup) (s : Seek α)
    (he : ∀ x ∈ t.inorder, equal x = true ↔ x = a) :
    ∃ s', seek equal larger t s = some s' ∧
      (∀ y, (trail larger t).getLast? = some y → t.linkOf y s.tree = some s'.tree) ∧
      (keeper larger t = none → s'.p = s.p) ∧
      (∀ z, keeper larger t = some z → t.linkOf z s.tree = some s'.p) ∧
      (a ∈ trail larger t → t.linkOf a s.tree = s'.item) ∧
      (a ∉ trail larger t → s'.item = s.item) := by
  induction t using path_induction larger generalizing s with
  | nil => exact ⟨s, rfl, by simp [trail], by simp, by simp [keeper], by simp [trail], by simp⟩
  | join u x b v ih =>
    have hex := he x (mem_inorder_join.mpr (.inl rfl))
    by_cases hu : u = nil
    · subst hu
      refine ⟨_, seek_stop rfl s, ?_, by simp, ?_, ?_, ?_⟩
      · simp [trail_join rfl, trail]
      · simp [keeper_join rfl, stays_join rfl, keeper]
      · intro ha
        obtain rfl : a = x := by simpa [trail_join rfl, trail] using ha
        simp [hex.mpr rfl]
      · intro ha
        have hax : equal x = false := by
          rw [← Bool.not_eq_true, hex]
          rintro rfl
          simp [trail_join rfl] at ha
        simp [hax]
    obtain ⟨hndu, -, hxu, hxv, huv⟩ := nodup_join.mp hnd
    obtain ⟨s', hs', hy, hp, hz, hin, hout⟩ := ih (balanced_join.mp ht).1 hndu
      ⟨.lnk x (larger x), if stays larger (join (larger x) u x b v) then s.tree else s.p,
        if equal x then some s.tree else s.item, larger x⟩
      fun y hy => he y (mem_inorder_join.mpr (.inr (.inl hy)))
    have hway : ∀ c ∈ trail larger u,
        (join (larger x) u x b v).linkOf c s.tree = u.linkOf c (.lnk x (larger x)) := by
      intro c hc
      have hcu := mem_inorder_of_mem_trail hc
      exact linkOf_join (fun h => hxu (h ▸ hcu)) (huv hcu)
    refine ⟨s', (seek_join rfl hu ht s).trans hs', ?_, ?_, ?_, ?_, ?_⟩
    · intro y hlast
      rw [getLast?_trail_join rfl hu] at hlast
      rw [hway y (List.mem_of_getLast? hlast)]
      exact hy y hlast
    · intro hk
      rw [keeper_join rfl, Option.or_eq_none_iff] at hk
      rw [hp hk.1, if_neg]
      intro hst
      simp [hst] at hk
    · intro z hk
      rw [keeper_join rfl] at hk
      rcases Option.or_eq_some_iff.mp hk with hku | ⟨hku, hst⟩
      · rw [hway z (mem_trail_of_keeper hku)]
        exact hz z hku
      · obtain ⟨hstays, rfl⟩ := Option.ite_some_none_eq_some.mp hst
        rw [linkOf_join_self, hp hku, if_pos hstays]
    · intro ha
      rw [trail_join rfl] at ha
      by_cases hau : a ∈ trail larger u
      · rw [hway a hau]
        exact hin hau
      · obtain rfl := (List.mem_cons.mp ha).resolve_right hau
        rw [linkOf_join_self, hout hau, if_pos (hex.mpr rfl)]
    · intro ha
      simp only [trail_join rfl, List.mem_cons, not_or] at ha
      rw [hout ha.2, if_neg fun h => ha.1 (hex.mp h).symm]

end Seek

/-! What the second loop leaves: the last node of the path, the item's link, and
a tree that is balanced once that node is gone. -/

section Lower

variable [DecidableEq α] {larger : α → Bool} {a : α}

/-- `t` has become `t'` and `item` has become `k`.  Without the last node of the
path, the height is `n` less than before. -/
structure Lowered (larger : α → Bool) (a : α) (n : Nat) (t : Avl α) (item : Link α) (t' : Avl α)
    (k : Link α) : Prop where
  inorder : t'.inorder = t.inorder
  find : ∀ y, (trail larger t).getLast? = some y → t'.find y = t.find y
  last : ∀ y, (trail larger t).getLast? = some y → ∀ link, t'.linkOf y link = t.linkOf y link
  kept : a ∉ trail larger t → k = item
  moved : a ∈ trail larger t → ∀ link, t.linkOf a link = some item → t'.linkOf a link = some k
  fits : ∀ y, (trail larger t).getLast? = some y → ∀ s, (t.find y).lnk (!larger y) = s →
    (t'.graft y s).Balanced ∧ (t'.graft y s).height + n = t.height

section Context

variable {d : Bool} {u u' v w q : Avl α} {x y : α} {b c e : Option Bool} {item k : Link α} {n : Nat}

theorem lowered_stop (hx : larger x = d) (ht : (join d nil x b v).Balanced) :
    Lowered larger a 1 (join d nil x b v) item (join d nil x b v) item := by
  have htrail : trail larger (join d nil x b v) = [x] := by simp [trail_join hx, trail]
  refine ⟨rfl, fun _ _ => rfl, fun _ _ _ => rfl, fun _ => rfl, fun _ _ h => h, ?_⟩
  intro y hy s hs
  obtain rfl : x = y := by simpa [htrail] using hy
  rw [find_join_self, hx, ← join_not, lnk_join] at hs
  subst hs
  rw [graft_join_self, height_join]
  exact ⟨(balanced_join.mp ht).2.1, by simp [height]⟩

variable (hx : larger x = d) (hu : u ≠ nil) (hnd : (join d u x b v).inorder.Nodup)

include hx hu hnd

theorem Lowered.above (h : Lowered larger a 1 u item u' k)
    (hfit : ∀ g : Avl α, g.Balanced → g.height + 1 = u.height →
      (join d g x c v).Balanced ∧ (join d g x c v).height + n = (join d u x b v).height) :
    Lowered larger a n (join d u x b v) item (join d u' x c v) k := by
  obtain ⟨hndu, -, hxu, hxv, huv⟩ := nodup_join.mp hnd
  have hne : ∀ z ∈ u.inorder, z ≠ x := fun z hz h => hxu (h ▸ hz)
  have hlast := getLast?_trail_join (b := b) (v := v) hx hu
  have hmem : ∀ y, (trail larger u).getLast? = some y → y ∈ u.inorder :=
    fun y hy => mem_inorder_of_mem_trail (List.mem_of_getLast? hy)
  refine ⟨?_, ?_, ?_, ?_, ?_, ?_⟩
  · cases d <;> simp [join, Avl.inorder, h.inorder]
  · intro y hy
    rw [hlast] at hy
    have hyu := hmem y hy
    rw [find_join (hne y hyu) (huv hyu), find_join (hne y hyu) (huv hyu), h.find y hy]
  · intro y hy link
    rw [hlast] at hy
    have hyu := hmem y hy
    rw [linkOf_join (hne y hyu) (huv hyu), linkOf_join (hne y hyu) (huv hyu), h.last y hy]
  · intro ha
    rw [trail_join hx, List.mem_cons, not_or] at ha
    exact h.kept ha.2
  · intro ha link hlink
    rw [trail_join hx] at ha
    by_cases hau : a ∈ trail larger u
    · have hain := mem_inorder_of_mem_trail hau
      rw [linkOf_join (hne a hain) (huv hain)] at hlink ⊢
      exact h.moved hau _ hlink
    · obtain rfl := (List.mem_cons.mp ha).resolve_right hau
      rw [linkOf_join_self] at hlink ⊢
      rw [h.kept hau, hlink]
  · intro y hy s hs
    rw [hlast] at hy
    have hyu := hmem y hy
    rw [find_join (hne y hyu) (huv hyu)] at hs
    obtain ⟨hb, hh⟩ := h.fits y hy s hs
    rw [graft_join (hne y hyu) (huv hyu)]
    exact hfit _ hb hh

theorem Lowered.rotated (h : Lowered larger a 1 u (if x = a then .lnk y d else item) u' k)
    (hin : (join d (join d u x c q) y e w).inorder = (join d u x b v).inorder)
    (hfit : ∀ g : Avl α, g.Balanced → g.height + 1 = u.height →
      (join d (join d g x c q) y e w).Balanced ∧
        (join d (join d g x c q) y e w).height + n = (join d u x b v).height) :
    Lowered larger a n (join d u x b v) item (join d (join d u' x c q) y e w) k := by
  obtain ⟨hndu, -, hxu, hxv, huv⟩ := nodup_join.mp hnd
  obtain ⟨hndl, -, hyl, hyw, hlw⟩ := nodup_join.mp (hin ▸ hnd)
  obtain ⟨-, -, -, hxq, huq⟩ := nodup_join.mp hndl
  have hne : ∀ z ∈ u.inorder, z ≠ x := fun z hz h => hxu (h ▸ hz)
  have hlow : ∀ z ∈ u.inorder, z ∈ (join d u x c q).inorder :=
    fun z hz => mem_inorder_join.mpr (.inr (.inl hz))
  have hne' : ∀ z ∈ u.inorder, z ≠ y := fun z hz h => hyl (h ▸ hlow z hz)
  have hxy : x ≠ y := fun h => hyl (h ▸ mem_inorder_join.mpr (.inl rfl))
  have hxw : x ∉ w.inorder := hlw (mem_inorder_join.mpr (.inl rfl))
  have hlast := getLast?_trail_join (b := b) (v := v) hx hu
  have hmem : ∀ y, (trail larger u).getLast? = some y → y ∈ u.inorder :=
    fun y hy => mem_inorder_of_mem_trail (List.mem_of_getLast? hy)
  -- below `x`, everything is where it was
  have hlink : ∀ z ∈ u.inorder, ∀ link,
      (join d (join d u' x c q) y e w).linkOf z link = u'.linkOf z (.lnk x d) := by
    intro z hz link
    rw [linkOf_join (hne' z hz) (hlw (hlow z hz)), linkOf_join (hne z hz) (huq hz)]
  refine ⟨?_, ?_, ?_, ?_, ?_, ?_⟩
  · rw [← hin]
    cases d <;> simp [join, Avl.inorder, h.inorder]
  · intro z hz
    rw [hlast] at hz
    have hzu := hmem z hz
    rw [find_join (hne' z hzu) (hlw (hlow z hzu)), find_join (hne z hzu) (huq hzu),
      find_join (hne z hzu) (huv hzu), h.find z hz]
  · intro z hz link
    rw [hlast] at hz
    have hzu := hmem z hz
    rw [hlink z hzu, linkOf_join (hne z hzu) (huv hzu), h.last z hz]
  · intro ha
    rw [trail_join hx, List.mem_cons, not_or] at ha
    rw [h.kept ha.2, if_neg fun h => ha.1 h.symm]
  · intro ha link hlink'
    rw [trail_join hx] at ha
    by_cases hau : a ∈ trail larger u
    · have hain := mem_inorder_of_mem_trail hau
      rw [linkOf_join (hne a hain) (huv hain)] at hlink'
      rw [hlink a hain]
      refine h.moved hau _ ?_
      rw [hlink', if_neg (hne a hain).symm]
    · obtain rfl := (List.mem_cons.mp ha).resolve_right hau
      rw [linkOf_join hxy hxw, linkOf_join_self, h.kept hau, if_pos rfl]
  · intro z hz s hs
    rw [hlast] at hz
    have hzu := hmem z hz
    rw [find_join (hne z hzu) (huv hzu)] at hs
    obtain ⟨hb, hh⟩ := h.fits z hz s hs
    rw [graft_join (hne' z hzu) (hlw (hlow z hzu)), graft_join (hne z hzu) (huq hzu)]
    exact hfit _ hb hh

end Context

section Step

variable {d : Bool} {u v : Avl α} {x : α} {b : Option Bool}

/-- `u` can be lowered, as far as the node above it is concerned. -/
def Sinks (larger : α → Bool) (a : α) (n : Nat) (t : Avl α) : Prop :=
  ∀ item e, ∃ t' k e', lower larger a t item e = some (t', k, e') ∧
    (∀ y, (trail larger t).getLast? = some y → e' = larger y) ∧ Lowered larger a n t item t' k

variable (hx : larger x = d) (hu : u ≠ nil) (hnd : (join d u x b v).inorder.Nodup)
  (ih : Sinks larger a 1 u)

include hx hu hnd ih

theorem sinks_rotated {c e : Option Bool} {q w : Avl α} {y : α} {n : Nat} (hb : b = some !d)
    (hturn : turn d (join d u x b v) = some (join d (join d u x c q) y e w))
    (hfit : ∀ g : Avl α, g.Balanced → g.height + 1 = u.height →
      (join d (join d g x c q) y e w).Balanced ∧
        (join d (join d g x c q) y e w).height + n = (join d u x b v).height) :
    Sinks larger a n (join d u x b v) := by
  subst hb
  intro item e'
  obtain ⟨u', k, e'', hlow, he, h⟩ := ih (if x = a then .lnk y d else item) d
  rw [← getLast?_trail_join hx hu] at he
  refine ⟨_, k, e'', ?_, he, h.rotated hx hu hnd (inorder_turn hturn) hfit⟩
  rw [lower_turn hx hu hturn, hlow]
  rfl

theorem sinks_join (ht : (join d u x b v).Balanced) :
    Sinks larger a (if stays larger (join d u x b v) then 0 else 1) (join d u x b v) := by
  have hpos : 0 < u.height := Nat.pos_of_ne_zero fun h => hu (height_eq_zero.mp h)
  obtain rfl | rfl | rfl : b = none ∨ b = some d ∨ b = some !d := by cases b <;> cases d <;> simp
  · intro item e
    obtain ⟨u', k, e', hlow, he, h⟩ := ih item d
    rw [← getLast?_trail_join hx hu] at he
    obtain ⟨-, hv, hh⟩ := balanced_join_even.mp ht
    refine ⟨_, _, _, (lower_even hx hu).trans (by rw [hlow]; rfl), he, h.above hx hu hnd ?_⟩
    intro g hg hgu
    have hst : stays larger (join d u x none v) = true := by simp [stays_join hx, hu]
    rw [balanced_join_away, height_join, height_join, hst, if_pos rfl]
    exact ⟨⟨hg, hv, by omega⟩, by omega⟩
  · intro item e
    obtain ⟨u', k, e', hlow, he, h⟩ := ih item d
    rw [← getLast?_trail_join hx hu] at he
    obtain ⟨-, hv, hh⟩ := balanced_join_toward.mp ht
    refine ⟨_, _, _, (lower_toward hx hu).trans (by rw [hlow]; rfl), he, h.above hx hu hnd ?_⟩
    intro g hg hgu
    have hst : stays larger (join d u x (some d) v) = false := by cases d <;> simp [stays_join hx]
    rw [balanced_join_even, height_join, height_join, hst, if_neg Bool.false_ne_true]
    exact ⟨⟨hg, hv, by omega⟩, by omega⟩
  · obtain ⟨-, hv, hh⟩ := balanced_join_away.mp ht
    obtain ⟨w, y, c, q, rfl⟩ : ∃ w y c q, v = join d q y c w := by
      cases v with
      | nil => simp [height] at hh
      | node l y c r => cases d <;> exact ⟨_, y, c, _, rfl⟩
    rw [height_join] at hh
    obtain rfl | rfl | rfl : c = none ∨ c = some d ∨ c = some !d := by cases c <;> cases d <;> simp
    · -- the child that becomes the top is even, so the height stays
      obtain ⟨hq, hw, hqw⟩ := balanced_join_even.mp hv
      have hst : stays larger (join d u x (some !d) (join d q y none w)) = true := by
        rw [stays_join hx]
        cases d <;> simp [hu, even, join]
      refine sinks_rotated hx hu hnd ih rfl turn_even ?_
      intro g hg hgu
      simp only [balanced_join_toward, balanced_join_away, height_join, hst, if_true]
      exact ⟨⟨⟨hg, hq, by omega⟩, hw, by omega⟩, by omega⟩
    · -- its own child becomes the top
      obtain ⟨hq, hw, hqw⟩ := balanced_join_toward.mp hv
      have hst : stays larger (join d u x (some !d) (join d q y (some d) w)) = false := by
        rw [stays_join hx]
        cases d <;> simp [even, join]
      obtain ⟨p, z, e, q', rfl⟩ : ∃ p z e q', q = join d p z e q' := by
        cases q with
        | nil => simp [height] at hqw
        | node l z e r => cases d <;> exact ⟨_, z, e, _, rfl⟩
      simp only [height_join] at hh hqw
      obtain rfl | rfl | rfl : e = none ∨ e = some d ∨ e = some !d := by cases e <;> cases d <;> simp
      · obtain ⟨hp, hq', hpq⟩ := balanced_join_even.mp hq
        refine sinks_rotated hx hu hnd ih rfl turn_double_even ?_
        intro g hg hgu
        simp only [balanced_join_even, height_join, hst, if_false, Bool.false_eq_true]
        exact ⟨⟨⟨hg, hp, by omega⟩, ⟨hq', hw, by omega⟩, by omega⟩, by omega⟩
      · obtain ⟨hp, hq', hpq⟩ := balanced_join_toward.mp hq
        refine sinks_rotated hx hu hnd ih rfl turn_double_toward ?_
        intro g hg hgu
        simp only [balanced_join_even, balanced_join_away, height_join, hst, if_false, Bool.false_eq_true]
        exact ⟨⟨⟨hg, hp, by omega⟩, ⟨hq', hw, by omega⟩, by omega⟩, by omega⟩
      · obtain ⟨hp, hq', hpq⟩ := balanced_join_away.mp hq
        refine sinks_rotated hx hu hnd ih rfl turn_double_away ?_
        intro g hg hgu
        simp only [balanced_join_even, balanced_join_toward, height_join, hst, if_false,
          Bool.false_eq_true]
        exact ⟨⟨⟨hg, hp, by omega⟩, ⟨hq', hw, by omega⟩, by omega⟩, by omega⟩
    · obtain ⟨hq, hw, hqw⟩ := balanced_join_away.mp hv
      have hst : stays larger (join d u x (some !d) (join d q y (some !d) w)) = false := by
        rw [stays_join hx]
        cases d <;> simp [even, join]
      refine sinks_rotated hx hu hnd ih rfl turn_single ?_
      intro g hg hgu
      simp only [balanced_join_even, height_join, hst, if_false, Bool.false_eq_true]
      exact ⟨⟨⟨hg, hq, by omega⟩, hw, by omega⟩, by omega⟩

end Step

theorem sinks_of_keeper {t : Avl α} (hne : t ≠ nil) (ht : t.Balanced) (hnd : t.inorder.Nodup)
    (hk : keeper larger t = none) : Sinks larger a 1 t := by
  induction t using path_induction larger with
  | nil => exact absurd rfl hne
  | join u x b v ih =>
    rw [keeper_join rfl, Option.or_eq_none_iff] at hk
    by_cases hu : u = nil
    · subst hu
      intro item e
      refine ⟨_, _, _, lower_stop rfl, ?_, lowered_stop rfl ht⟩
      intro y hy
      obtain rfl : x = y := by simpa [trail_join rfl, trail] using hy
      rfl
    · have hst : stays larger (join (larger x) u x b v) = false := by
        by_contra h
        simp [h] at hk
      have := sinks_join rfl hu hnd (ih hu (balanced_join.mp ht).1 (nodup_join.mp hnd).1 hk.1) ht
      rwa [hst, if_neg Bool.false_ne_true] at this

theorem sinks_find {t : Avl α} {z : α} (ht : t.Balanced) (hnd : t.inorder.Nodup)
    (hk : keeper larger t = some z) :
    Sinks larger a 0 (t.find z) ∧ (trail larger (t.find z)).getLast? = (trail larger t).getLast? ∧
      (a ∈ trail larger t → a ∈ (t.find z).inorder → a ∈ trail larger (t.find z)) := by
  induction t using path_induction larger with
  | nil => simp [keeper] at hk
  | join u x b v ih =>
    obtain ⟨hndu, -, hxu, -, huv⟩ := nodup_join.mp hnd
    have htu := (balanced_join.mp ht).1
    rw [keeper_join rfl] at hk
    rcases Option.or_eq_some_iff.mp hk with hku | ⟨hku, hst⟩
    · have hzu := mem_inorder_of_mem_trail (mem_trail_of_keeper hku)
      have hu : u ≠ nil := by
        rintro rfl
        simp [keeper] at hku
      obtain ⟨hs, hlast, hat⟩ := ih htu hndu hku
      have hzx : z ≠ x := fun h => hxu (h ▸ hzu)
      rw [find_join hzx (huv hzu)]
      refine ⟨hs, hlast.trans (getLast?_trail_join rfl hu).symm, ?_⟩
      intro ha haz
      rw [trail_join rfl] at ha
      rcases List.mem_cons.mp ha with rfl | ha
      · exact absurd (inorder_find_subset hndu hzu haz) hxu
      · exact hat ha haz
    · obtain ⟨hstays, rfl⟩ := Option.ite_some_none_eq_some.mp hst
      have hu : u ≠ nil := by
        rintro rfl
        simp [stays_join rfl] at hstays
      have hsink := sinks_join (a := a) rfl hu hnd (sinks_of_keeper hu htu hndu hku) ht
      rw [hstays, if_pos rfl] at hsink
      rw [find_join_self]
      exact ⟨hsink, rfl, fun h _ => h⟩

theorem lower_spec {t : Avl α} {s : Seek α} {y : α} {item : Link α} (hne : t ≠ nil)
    (ht : t.Balanced) (hnd : t.inorder.Nodup) (hp : keeper larger t = none → s.p = .root)
    (hz : ∀ z, keeper larger t = some z → t.linkOf z .root = some s.p)
    (hy : (trail larger t).getLast? = some y) (ha : a ∈ trail larger t)
    (hitem : t.linkOf a .root = some item) :
    ∃ u k, lower larger a (s.p.read t) item s.d = some (u, k, larger y) ∧
      (s.p.write u t).inorder = t.inorder ∧ (s.p.write u t).find y = t.find y ∧
      (s.p.write u t).linkOf y .root = t.linkOf y .root ∧
      (s.p.write u t).linkOf a .root = some k ∧
      ((s.p.write u t).graft y ((t.find y).lnk !larger y)).Balanced := by
  cases hk : keeper larger t with
  | none =>
    rw [hp hk]
    obtain ⟨u, k, e, hlow, he, h⟩ := sinks_of_keeper hne ht hnd hk item s.d
    obtain rfl := he y hy
    exact ⟨u, k, hlow, h.inorder, h.find y hy, h.last y hy _, h.moved ha _ hitem,
      (h.fits y hy _ rfl).1⟩
  | some z =>
    have hzl := hz z hk
    have hzt := mem_inorder_of_mem_trail (mem_trail_of_keeper hk)
    obtain ⟨hsink, hlast, hat⟩ := sinks_find (a := a) ht hnd hk
    rw [← hlast] at hy
    obtain ⟨u, k, e, hlow, he, h⟩ := hsink item s.d
    obtain rfl := he y hy
    have hyz : y ∈ (t.find z).inorder := mem_inorder_of_mem_trail (List.mem_of_getLast? hy)
    have hyu : y ∈ u.inorder := h.inorder ▸ hyz
    have hout : ∀ x ∈ t.inorder, x ∈ u.inorder → x ∈ (t.find z).inorder :=
      fun x _ hx => h.inorder ▸ hx
    have hself := graft_find hnd hzt
    -- a node below `z`, in the old tree and in the new one
    have hold : ∀ c ∈ (t.find z).inorder, t.linkOf c .root = (t.find z).linkOf c s.p := by
      intro c hc
      have := (linkOf_graft nil hnd hzt hzl hc fun x _ hx => hx).1
      rwa [hself] at this
    have hnew := fun c (hc : c ∈ (t.find z).inorder) s' =>
      linkOf_graft s' hnd hzt hzl (h.inorder.symm ▸ hc : c ∈ u.inorder) hout
    have hfind : t.find y = (t.find z).find y := by
      have := (linkOf_graft nil hnd hzt hzl hyz fun x _ hx => hx).2.1
      rwa [hself] at this
    rw [read_linkOf hnd hzt hzl]
    refine ⟨u, k, hlow, ?_⟩
    rw [write_linkOf hnd hzt hzl]
    refine ⟨?_, ?_, ?_, ?_, ?_⟩
    · obtain ⟨A, B, hino, hs⟩ := inorder_graft hnd hzt
      rw [hs, h.inorder, hino]
    · rw [(hnew y hyz nil).2.1, h.find y hy, hfind]
    · rw [(hnew y hyz nil).1, h.last y hy, hold y hyz]
    · by_cases haz : a ∈ (t.find z).inorder
      · rw [(hnew a haz nil).1]
        exact h.moved (hat ha haz) _ ((hold a haz).symm.trans hitem)
      · rw [h.kept fun h => haz (mem_inorder_of_mem_trail h),
          linkOf_graft_of_notMem hnd hzt haz (h.inorder.symm ▸ haz), hitem]
    · rw [(hnew y hyz _).2.2, hfind]
      obtain ⟨hb, hh⟩ := h.fits y hy _ rfl
      exact (balanced_graft hnd hzt ht hb hh).1

end Lower

section Main

variable [DecidableEq α] {equal larger : α → Bool} {a : α}

/-- `x` before `y`, as the search for `a` sees it. -/
structure Sided (larger : α → Bool) (a x y : α) : Prop where
  left : y = a → larger x = true
  right : x = a → larger y = false

omit [DecidableEq α] in
theorem mem_trail {t : Avl α} (hs : t.inorder.Pairwise (Sided larger a)) (ha : a ∈ t.inorder) :
    a ∈ trail larger t := by
  induction t with
  | nil => simp [inorder] at ha
  | node l x b r ihl ihr =>
    obtain ⟨hl, hr, hlr⟩ := List.pairwise_append.mp hs
    obtain ⟨hxr, hr⟩ := List.pairwise_cons.mp hr
    simp only [inorder, List.mem_append, List.mem_cons] at ha
    rw [trail]
    rcases ha with ha | rfl | ha
    · simp [(hlr a ha x (by simp)).right rfl, ihl hl ha]
    · simp
    · simp [(hxr a ha).left rfl, ihr hr ha]

omit [DecidableEq α] in
theorem getLast?_cons_trail {x y : α} {t : Avl α} (h : (x :: trail larger t).getLast? = some y) :
    (t = nil ∧ x = y) ∨ (trail larger t).getLast? = some y := by
  cases hl : (trail larger t).getLast? with
  | none =>
    rw [List.getLast?_eq_none_iff, trail_eq_nil] at hl
    subst hl
    exact .inl ⟨rfl, by simpa [trail] using h⟩
  | some z =>
    right
    rwa [List.getLast?_cons, hl] at h

omit [DecidableEq α] in
theorem last_of_split {t : Avl α} {y : α} {A B : List α} (hAB : t.inorder = A ++ B)
    (hA : ∀ x ∈ A, larger x = true) (hB : ∀ x ∈ B, larger x = false)
    (hy : (trail larger t).getLast? = some y) :
    (larger y = true → A.getLast? = some y) ∧ (larger y = false → B.head? = some y) := by
  induction t generalizing A B with
  | nil => simp [trail] at hy
  | node l x b r ihl ihr =>
    rw [trail] at hy
    cases hx : larger x with
    | false =>
      rw [hx, cond_false] at hy
      obtain ⟨c, hl, rfl⟩ : ∃ c, l.inorder = A ++ c ∧ B = c ++ x :: r.inorder := by
        rcases List.append_eq_append_iff.mp hAB with ⟨a', rfl, h⟩ | ⟨c, hl, hc⟩
        · cases a' with
          | nil => exact ⟨[], by simp, by simpa using h.symm⟩
          | cons z a' =>
            obtain ⟨rfl, -⟩ := List.cons.inj h
            simp [hA x (by simp)] at hx
        · exact ⟨c, hl, hc⟩
      rcases getLast?_cons_trail hy with ⟨rfl, rfl⟩ | hy
      · obtain ⟨-, rfl⟩ := List.append_eq_nil_iff.mp hl.symm
        simp [hx]
      · obtain ⟨h1, h2⟩ := ihl hl hA (fun z hz => hB z (by simp [hz])) hy
        exact ⟨h1, fun h => by simp [h2 h]⟩
    | true =>
      rw [hx, cond_true] at hy
      obtain ⟨c, rfl, hr⟩ : ∃ c, A = l.inorder ++ x :: c ∧ r.inorder = c ++ B := by
        rcases List.append_eq_append_iff.mp hAB with ⟨a', rfl, h⟩ | ⟨c, hl, hc⟩
        · cases a' with
          | nil =>
            rw [List.nil_append] at h
            subst h
            simp [hB x (by simp)] at hx
          | cons z a' =>
            obtain ⟨rfl, hr⟩ := List.cons.inj h
            exact ⟨a', rfl, hr⟩
        · subst hc
          simp [hB x (by simp)] at hx
      rcases getLast?_cons_trail hy with ⟨rfl, rfl⟩ | hy
      · obtain ⟨rfl, -⟩ := List.append_eq_nil_iff.mp hr.symm
        simp [hx]
      · obtain ⟨h1, h2⟩ := ihr hr (fun z hz => hA z (by simp [hz])) hB hy
        exact ⟨fun h => by simp [List.getLast?_append, List.getLast?_cons, h1 h], h2⟩

omit [DecidableEq α] in
theorem getLast?_trail_of_ne_nil {t : Avl α} (h : t ≠ nil) : ∃ y, (trail larger t).getLast? = some y :=
  Option.ne_none_iff_exists'.mp fun hn => h (trail_eq_nil.mp (List.getLast?_eq_none_iff.mp hn))

theorem find_last {t : Avl α} {y : α} (hnd : t.inorder.Nodup)
    (hy : (trail larger t).getLast? = some y) :
    (∃ b v, t.find y = join (larger y) nil y b v) ∧
      (a ∈ trail larger t → a = y ∨ a ∉ (t.find y).inorder) := by
  induction t using path_induction larger with
  | nil => simp [trail] at hy
  | join u x b v ih =>
    obtain ⟨hndu, -, hxu, -, huv⟩ := nodup_join.mp hnd
    rw [trail_join rfl] at hy
    rcases getLast?_cons_trail hy with ⟨rfl, rfl⟩ | hy
    · rw [find_join_self]
      exact ⟨⟨b, v, rfl⟩, fun ha => .inl (by simpa [trail_join rfl, trail] using ha)⟩
    · have hyu : y ∈ u.inorder := mem_inorder_of_mem_trail (List.mem_of_getLast? hy)
      have hyx : y ≠ x := fun h => hxu (h ▸ hyu)
      obtain ⟨hjoin, hat⟩ := ih hndu hy
      rw [find_join hyx (huv hyu), trail_join rfl]
      refine ⟨hjoin, ?_⟩
      intro ha
      rcases List.mem_cons.mp ha with rfl | ha
      · exact .inr fun h => hxu (inorder_find_subset hndu hyu h)
      · exact hat ha

theorem balanced_rename {l r : Avl α} {b : Option Bool} {t : Avl α} {y : α} (hnd : t.inorder.Nodup)
    (ha : a ∈ t.inorder) (ht : t.Balanced) (hf : t.find a = node l a b r) :
    (t.graft a (node l y b r)).Balanced :=
  (balanced_graft hnd ha ht (by simpa [hf, Balanced] using balanced_find hnd ha ht)
    (by rw [hf]; rfl)).1

theorem erase_of_swap {y : α} {l A B P Q : List α} (hnd : l.Nodup) (hl : l = A ++ a :: B)
    (hy : (larger y = true → A.getLast? = some y) ∧ (larger y = false → (a :: B).head? = some y))
    (hya : a ≠ y) (hPQ : l.erase y = P ++ a :: Q) : P ++ y :: Q = l.erase a := by
  cases hly : larger y with
  | false => exact absurd (by simpa using hy.2 hly) hya
  | true =>
    obtain ⟨A, rfl⟩ := List.getLast?_eq_some_iff.mp (hy.1 hly)
    subst hl
    simp only [List.append_assoc, List.cons_append, List.nil_append] at hnd hPQ ⊢
    obtain ⟨-, hyaB, hdis⟩ := List.nodup_append'.mp hnd
    obtain ⟨hyB, haB⟩ := List.nodup_cons.mp hyaB
    have hyA : y ∉ A := fun h => hdis h (by simp)
    have haA : a ∉ A := fun h => hdis h (by simp)
    rw [List.erase_append_right _ hyA, List.erase_cons_head] at hPQ
    rw [List.erase_append_right _ haA, List.erase_cons_tail (by simpa using hya.symm),
      List.erase_cons_head]
    obtain ⟨rfl, -, rfl⟩ := (List.append_cons_inj_of_notMem haA (List.nodup_cons.mp haB).1).mp hPQ
    rfl

theorem inorder_take_out {t v : Avl α} {d : Bool} {y : α} {b : Option Bool} (hnd : t.inorder.Nodup)
    (hy : y ∈ t.inorder) (hf : t.find y = join d nil y b v) :
    (t.graft y v).inorder = t.inorder.erase y := by
  obtain ⟨A, B, hino, hs⟩ := inorder_graft hnd hy
  rw [hs]
  rw [hino, hf] at hnd ⊢
  have hyA : y ∉ A := fun h =>
    (List.nodup_append'.mp hnd).2.2 h (List.mem_append_left B (mem_inorder_join.mpr (.inl rfl)))
  rw [List.erase_append_right _ hyA]
  cases d with
  | false => simp [join, inorder]
  | true =>
    have hyv : y ∉ v.inorder := by
      have := (List.nodup_append'.mp (List.nodup_append'.mp hnd).2.1).1
      exact (nodup_join.mp this).2.2.2.1
    simp [join, inorder, List.erase_append_right _ hyv]

theorem exchange_spec {t v : Avl α} {tree item : Link α} {y : α} {b : Option Bool} {A B : List α}
    (hnd : t.inorder.Nodup) (hy : y ∈ t.inorder) (ha : a ∈ t.inorder)
    (hf : t.find y = join (larger y) nil y b v) (hay : a = y ∨ a ∉ (t.find y).inorder)
    (htree : t.linkOf y .root = some tree) (hitem : t.linkOf a .root = some item)
    (hbal : (t.graft y v).Balanced) (hAB : t.inorder = A ++ a :: B)
    (hlast : (larger y = true → A.getLast? = some y) ∧ (larger y = false → (a :: B).head? = some y)) :
    ∃ t', exchange a tree item (larger y) t = some t' ∧ t'.Balanced ∧
      t'.inorder = t.inorder.erase a := by
  have hread := read_linkOf hnd hy htree
  have hout : exchange a tree item (larger y) t =
      if item = tree then some (t.graft y v)
      else
        match (t.graft y v).find a with
        | nil => none
        | node l _ b r => some (item.write (node l y b r) (t.graft y v)) := by
    unfold exchange
    rw [hread, hf]
    cases larger y <;> simp [join, lnk, write_linkOf hnd hy htree]
  have herase := inorder_take_out hnd hy hf
  have hnd' : (t.graft y v).inorder.Nodup := herase ▸ hnd.erase y
  rw [hout]
  by_cases heq : item = tree
  · -- both links hold the same node
    obtain rfl : a = y := by
      obtain ⟨l, c, r, hfa⟩ := find_of_mem hnd ha
      have hsame : t.find a = t.find y := by
        rw [← hread, ← heq, read_linkOf hnd ha hitem]
      rw [hfa, hf] at hsame
      cases hly : larger y <;> simp only [hly, join, node.injEq] at hsame <;> exact hsame.2.1
    rw [if_pos heq]
    exact ⟨_, rfl, hbal, herase⟩
  · have hne : a ≠ y := by
      rintro rfl
      exact heq (Option.some.inj (hitem.symm.trans htree))
    have haf := hay.resolve_left hne
    have hav : a ∉ v.inorder := fun h => haf (hf ▸ mem_inorder_join.mpr (.inr (.inr h)))
    have ha' : a ∈ (t.graft y v).inorder := by
      rw [herase]
      exact (List.mem_erase_of_ne hne).mpr ha
    have hlink : (t.graft y v).linkOf a .root = some item := by
      rw [linkOf_graft_of_notMem hnd hy haf hav, hitem]
    obtain ⟨l, c, r, hfa⟩ := find_of_mem hnd' ha'
    obtain ⟨P, Q, hino, hs⟩ := inorder_graft hnd' ha'
    rw [if_neg heq, hfa]
    refine ⟨_, rfl, ?_, ?_⟩
    · rw [write_linkOf hnd' ha' hlink]
      exact balanced_rename hnd' ha' hbal hfa
    · rw [write_linkOf hnd' ha' hlink, hs]
      have hPQ : t.inorder.erase y = (P ++ l.inorder) ++ a :: (r.inorder ++ Q) := by
        rw [← herase, hino, hfa]
        simp [inorder]
      have := erase_of_swap hnd hAB hlast hne hPQ
      simpa [inorder] using this

theorem remove_balanced {t : Avl α} (he : ∀ x ∈ t.inorder, equal x = true ↔ x = a)
    (hla : larger a = false) (hs : t.inorder.Pairwise (Sided larger a)) (hnd : t.inorder.Nodup)
    (ht : t.Balanced) (ha : a ∈ t.inorder) :
    ∃ t', remove equal larger t a = some (true, t') ∧ t'.Balanced ∧
      t'.inorder = t.inorder.erase a := by
  have hne : t ≠ nil := by
    rintro rfl
    simp [inorder] at ha
  have hat := mem_trail hs ha
  obtain ⟨y, hy⟩ : ∃ y, (trail larger t).getLast? = some y := getLast?_trail_of_ne_nil hne
  have hyt := mem_inorder_of_mem_trail (List.mem_of_getLast? hy)
  obtain ⟨⟨b, v, hfy⟩, hay⟩ := find_last (a := a) hnd hy
  obtain ⟨s, hseek, htree, hp, hz, hin, -⟩ :=
    seek_spec larger ht hnd ⟨.root, .root, none, false⟩ he
  obtain ⟨item, hitem⟩ : ∃ item, t.linkOf a .root = some item := linkOf_isSome hnd ha
  have hsi : s.item = some item := (hin hat).symm.trans hitem
  obtain ⟨u, k, hlow, hino, hfind, hlast, hk, hbal⟩ := lower_spec hne ht hnd hp hz hy hat hitem
  obtain ⟨A, B, hAB⟩ := List.append_of_mem ha
  have hsplit : (larger y = true → A.getLast? = some y) ∧ (larger y = false → (a :: B).head? = some y) := by
    rw [hAB] at hs
    obtain ⟨-, haB, hAa⟩ := List.pairwise_append.mp hs
    refine last_of_split hAB (fun x hx => (hAa x hx a (by simp)).left rfl) ?_ hy
    intro x hx
    rcases List.mem_cons.mp hx with rfl | hx
    · exact hla
    · exact ((List.pairwise_cons.mp haB).1 x hx).right rfl
  have hv : (t.find y).lnk (!larger y) = v := by
    rw [hfy, ← join_not, lnk_join]
  rw [hv] at hbal
  rw [← hfind] at hfy hay
  rw [← hino] at hnd hyt ha hAB
  obtain ⟨t', hex, hbal', hino'⟩ := exchange_spec hnd hyt ha hfy (hay hat) (hlast.trans (htree y hy)) hk
    hbal hAB hsplit
  refine ⟨t', ?_, hbal', hino ▸ hino'⟩
  simp [remove, hseek, hsi, hlow, hex]

theorem remove_free {t : Avl α} (larger : α → Bool) (he : ∀ x ∈ t.inorder, equal x = false)
    (ha : a ∉ t.inorder) (hnd : t.inorder.Nodup) (ht : t.Balanced) :
    remove equal larger t a = some (false, t) := by
  have he' : ∀ x ∈ t.inorder, equal x = true ↔ x = a := by
    intro x hx
    rw [he x hx]
    exact ⟨fun h => absurd h Bool.false_ne_true, fun h => absurd (h ▸ hx) ha⟩
  obtain ⟨s, hseek, -, -, -, -, hout⟩ :=
    seek_spec larger ht hnd ⟨.root, .root, none, false⟩ he'
  have hitem := hout fun h => ha (mem_inorder_of_mem_trail h)
  simp [remove, hseek, hitem]

end Main

end Tukija.Avl
