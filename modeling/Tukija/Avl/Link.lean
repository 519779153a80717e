import Tukija.Avl.Insert

/-! Links by owner.  A pointer to a link of a node stays good when the node is
moved by a rotation, so such a link is named here by its node. -/
namespace Tukija.Avl

variable {α : Type}

/-- `Avl **`: the link to the root, or `lnk[d]` of a node. -/
inductive Link (α : Type) where
  | root
  | lnk (a : α) (d : Bool)
  deriving DecidableEq, Repr

section Defs

variable [DecidableEq α]

/-- The node `a`, as it is in the tree. -/
def find (a : α) : Avl α → Avl α
  | nil => nil
  | node l x b r =>
    if x = a then node l x b r
    else
      match find a l with
      | nil => find a r
      | s => s

/-- `lnk[d]` of the node `a` is set to `s`. -/
def setLnk (a : α) (d : Bool) : Avl α → Avl α → Avl α
  | nil, _ => nil
  | node l x b r, s =>
    if x = a then bif d then node l x b s else node s x b r
    else node (setLnk a d l s) x b (setLnk a d r s)

def Link.read : Link α → Avl α → Avl α
  | .root, t => t
  | .lnk a d, t => (t.find a).lnk d

def Link.write (s : Avl α) : Link α → Avl α → Avl α
  | .root, _ => s
  | .lnk a d, t => t.setLnk a d s

/-- The tree with `s` in the place of `a` and what is below it. -/
def graft (a : α) : Avl α → Avl α → Avl α
  | nil, _ => nil
  | node l x b r, s => if x = a then s else node (graft a l s) x b (graft a r s)

/-- The link that holds `a` in a tree that `link` holds. -/
def linkOf (a : α) : Avl α → Link α → Option (Link α)
  | nil, _ => none
  | node l x _ r, link =>
    if x = a then some link
    else
      match linkOf a l (.lnk x false) with
      | none => linkOf a r (.lnk x true)
      | some k => some k

end Defs

section Mem

variable [DecidableEq α] {a : α} {s t : Avl α}

theorem find_of_notMem (h : a ∉ t.inorder) : t.find a = nil := by
  induction t with
  | nil => rfl
  | node l x b r ihl ihr =>
    simp only [inorder, List.mem_append, List.mem_cons, not_or] at h
    simp [find, Ne.symm h.2.1, ihl h.1, ihr h.2.2]

theorem setLnk_of_notMem {d : Bool} (h : a ∉ t.inorder) : t.setLnk a d s = t := by
  induction t with
  | nil => rfl
  | node l x b r ihl ihr =>
    simp only [inorder, List.mem_append, List.mem_cons, not_or] at h
    simp [setLnk, Ne.symm h.2.1, ihl h.1, ihr h.2.2]

theorem graft_of_notMem (h : a ∉ t.inorder) : t.graft a s = t := by
  induction t with
  | nil => rfl
  | node l x b r ihl ihr =>
    simp only [inorder, List.mem_append, List.mem_cons, not_or] at h
    simp [graft, Ne.symm h.2.1, ihl h.1, ihr h.2.2]

theorem linkOf_of_notMem {link : Link α} (h : a ∉ t.inorder) : t.linkOf a link = none := by
  induction t generalizing link with
  | nil => rfl
  | node l x b r ihl ihr =>
    simp only [inorder, List.mem_append, List.mem_cons, not_or] at h
    simp [linkOf, Ne.symm h.2.1, ihl h.1, ihr h.2.2]

section Join

variable {d e : Bool} {u v : Avl α} {x : α} {b : Option Bool} {link : Link α}

@[simp] theorem find_join_self : (join d u x b v).find x = join d u x b v := by
  cases d <;> simp [join, find]

@[simp] theorem setLnk_join_self : (join d u x b v).setLnk x d s = join d s x b v := by
  cases d <;> simp [join, setLnk]

@[simp] theorem graft_join_self : (join d u x b v).graft x s = s := by
  cases d <;> simp [join, graft]

@[simp] theorem linkOf_join_self : (join d u x b v).linkOf x link = some link := by
  cases d <;> simp [join, linkOf]

variable (hx : a ≠ x) (hv : a ∉ v.inorder)

include hx hv

theorem find_join : (join d u x b v).find a = u.find a := by
  cases d with
  | false =>
    simp only [join, find, if_neg hx.symm, find_of_notMem hv]
    split <;> simp_all
  | true => simp [join, find, hx.symm, find_of_notMem hv]

theorem setLnk_join : (join d u x b v).setLnk a e s = join d (u.setLnk a e s) x b v := by
  cases d <;> simp [join, setLnk, hx.symm, setLnk_of_notMem hv]

theorem graft_join : (join d u x b v).graft a s = join d (u.graft a s) x b v := by
  cases d <;> simp [join, graft, hx.symm, graft_of_notMem hv]

theorem linkOf_join : (join d u x b v).linkOf a link = u.linkOf a (.lnk x d) := by
  cases d with
  | false =>
    simp only [join, linkOf, if_neg hx.symm, linkOf_of_notMem hv]
    split <;> simp_all
  | true => simp [join, linkOf, hx.symm, linkOf_of_notMem hv]

end Join

end Mem

section Induction

variable {a x : α} {d : Bool} {u v : Avl α} {b : Option Bool}

theorem nodup_join : (join d u x b v).inorder.Nodup ↔
    u.inorder.Nodup ∧ v.inorder.Nodup ∧ x ∉ u.inorder ∧ x ∉ v.inorder ∧ u.inorder.Disjoint v.inorder := by
  cases d
  · simp only [join, inorder, List.nodup_append', List.nodup_cons, List.disjoint_cons_right]
    tauto
  · simp only [join, inorder, List.nodup_append', List.nodup_cons, List.disjoint_cons_right,
      @List.disjoint_comm _ u.inorder]
    tauto

theorem mem_induction {motive : Avl α → Prop} (here : ∀ d u b v, motive (join d u a b v))
    (below : ∀ d u x b v, (join d u x b v).inorder.Nodup → a ≠ x → a ∈ u.inorder → a ∉ v.inorder →
      motive u → motive (join d u x b v))
    {t : Avl α} (hnd : t.inorder.Nodup) (ha : a ∈ t.inorder) : motive t := by
  induction t with
  | nil => simp [inorder] at ha
  | node l x b r ihl ihr =>
    have hnd' : (join false l x b r).inorder.Nodup := hnd
    obtain ⟨hl, hr, hxl, hxr, hlr⟩ := nodup_join.mp hnd'
    simp only [inorder, List.mem_append, List.mem_cons] at ha
    rcases ha with ha | rfl | ha
    · exact below false l x b r hnd (fun h => hxl (h ▸ ha)) ha (hlr ha) (ihl hl ha)
    · exact here false l b r
    · exact below true r x b l hnd (fun h => hxr (h ▸ ha)) ha (fun h => hlr h ha) (ihr hr ha)

end Induction

section Resolve

variable [DecidableEq α] {a : α} {s t : Avl α} {link k : Link α}

theorem linkOf_isSome (hnd : t.inorder.Nodup) (ha : a ∈ t.inorder) :
    ∃ k, t.linkOf a link = some k := by
  refine mem_induction (motive := fun t => ∀ link, ∃ k, t.linkOf a link = some k) ?_ ?_ hnd ha link
  · intro d u b v link
    exact ⟨link, linkOf_join_self⟩
  · intro d u x b v hnd hx hu hv ih link
    rw [linkOf_join hx hv]
    exact ih (.lnk x d)

theorem linkOf_cases (s : Avl α) (hnd : t.inorder.Nodup) (ha : a ∈ t.inorder)
    (h : t.linkOf a link = some k) :
    (k = link ∧ t.find a = t ∧ t.graft a s = s) ∨
      ∃ o d, k = .lnk o d ∧ o ∈ t.inorder ∧ (t.find o).lnk d = t.find a ∧
        t.setLnk o d s = t.graft a s := by
  refine mem_induction (motive := fun t => ∀ link, t.linkOf a link = some k →
    (k = link ∧ t.find a = t ∧ t.graft a s = s) ∨
      ∃ o d, k = .lnk o d ∧ o ∈ t.inorder ∧ (t.find o).lnk d = t.find a ∧
        t.setLnk o d s = t.graft a s) ?_ ?_ hnd ha link h
  · intro d u b v link h
    rw [linkOf_join_self] at h
    exact .inl ⟨(Option.some.inj h).symm, find_join_self, graft_join_self⟩
  · intro d u x b v hnd hx hu hv ih link h
    obtain ⟨-, -, hxu, hxv, huv⟩ := nodup_join.mp hnd
    rw [linkOf_join hx hv] at h
    rw [find_join hx hv, graft_join hx hv]
    right
    obtain ⟨rfl, hfind, hgraft⟩ | ⟨o, e, rfl, ho, hfind, hset⟩ := ih _ h
    · refine ⟨x, d, rfl, mem_inorder_join.mpr (.inl rfl), ?_, ?_⟩
      · rw [find_join_self, lnk_join, hfind]
      · rw [setLnk_join_self, hgraft]
    · have hox : o ≠ x := fun h => hxu (h ▸ ho)
      refine ⟨o, e, rfl, mem_inorder_join.mpr (.inr (.inl ho)), ?_, ?_⟩
      · rw [find_join hox (huv ho), hfind]
      · rw [setLnk_join hox (huv ho), hset]

theorem read_linkOf (hnd : t.inorder.Nodup) (ha : a ∈ t.inorder) (h : t.linkOf a .root = some k) :
    k.read t = t.find a := by
  obtain ⟨rfl, hfind, -⟩ | ⟨o, d, rfl, -, hfind, -⟩ := linkOf_cases nil hnd ha h
  · exact hfind.symm
  · exact hfind

theorem write_linkOf (hnd : t.inorder.Nodup) (ha : a ∈ t.inorder) (h : t.linkOf a .root = some k) :
    k.write s t = t.graft a s := by
  obtain ⟨rfl, -, hgraft⟩ | ⟨o, d, rfl, -, -, hset⟩ := linkOf_cases s hnd ha h
  · exact hgraft.symm
  · exact hset

end Resolve

section Graft

variable [DecidableEq α] {a c : α} {s s' t : Avl α} {link k : Link α}

theorem find_of_mem (hnd : t.inorder.Nodup) (ha : a ∈ t.inorder) :
    ∃ l b r, t.find a = node l a b r := by
  refine mem_induction (motive := fun t => ∃ l b r, t.find a = node l a b r) ?_ ?_ hnd ha
  · intro d u b v
    rw [find_join_self]
    cases d <;> exact ⟨_, b, _, rfl⟩
  · intro d u x b v hnd hx hu hv ih
    rwa [find_join hx hv]

theorem inorder_find_subset (hnd : t.inorder.Nodup) (ha : a ∈ t.inorder) {x : α}
    (hx : x ∈ (t.find a).inorder) : x ∈ t.inorder := by
  refine mem_induction (motive := fun t => x ∈ (t.find a).inorder → x ∈ t.inorder) ?_ ?_ hnd ha hx
  · intro d u b v hx
    rwa [find_join_self] at hx
  · intro d u y b v hnd hy hu hv ih hx
    rw [find_join hy hv] at hx
    exact mem_inorder_join.mpr (.inr (.inl (ih hx)))

theorem balanced_find (hnd : t.inorder.Nodup) (ha : a ∈ t.inorder) (ht : t.Balanced) :
    (t.find a).Balanced := by
  refine mem_induction (motive := fun t => t.Balanced → (t.find a).Balanced) ?_ ?_ hnd ha ht
  · intro d u b v ht
    rwa [find_join_self]
  · intro d u y b v hnd hy hu hv ih ht
    rw [find_join hy hv]
    exact ih (balanced_join.mp ht).1

theorem inorder_graft (hnd : t.inorder.Nodup) (ha : a ∈ t.inorder) :
    ∃ A B, t.inorder = A ++ ((t.find a).inorder ++ B) ∧
      ∀ s, (t.graft a s).inorder = A ++ (s.inorder ++ B) := by
  refine mem_induction (motive := fun t => ∃ A B, t.inorder = A ++ ((t.find a).inorder ++ B) ∧
    ∀ s, (t.graft a s).inorder = A ++ (s.inorder ++ B)) ?_ ?_ hnd ha
  · intro d u b v
    exact ⟨[], [], by simp, by simp⟩
  · intro d u x b v hnd hx hu hv ⟨A, B, h, hs⟩
    simp only [find_join hx hv, graft_join hx hv]
    cases d with
    | false => exact ⟨A, B ++ x :: v.inorder, by simp [join, inorder, h], by simp [join, inorder, hs]⟩
    | true => exact ⟨v.inorder ++ x :: A, B, by simp [join, inorder, h], by simp [join, inorder, hs]⟩

theorem balanced_graft (hnd : t.inorder.Nodup) (ha : a ∈ t.inorder) (ht : t.Balanced)
    (hs : s.Balanced) (hh : s.height = (t.find a).height) :
    (t.graft a s).Balanced ∧ (t.graft a s).height = t.height := by
  refine mem_induction (motive := fun t => t.Balanced → s.height = (t.find a).height →
    (t.graft a s).Balanced ∧ (t.graft a s).height = t.height) ?_ ?_ hnd ha ht hh
  · intro d u b v _ hh
    rw [find_join_self] at hh
    rw [graft_join_self]
    exact ⟨hs, hh⟩
  · intro d u x b v hnd hx hu hv ih ht hh
    rw [find_join hx hv] at hh
    rw [balanced_join] at ht
    obtain ⟨hb, hg⟩ := ih ht.1 hh
    rw [graft_join hx hv, balanced_join, height_join, height_join, hg]
    exact ⟨⟨hb, ht.2⟩, rfl⟩

theorem graft_find (hnd : t.inorder.Nodup) (ha : a ∈ t.inorder) : t.graft a (t.find a) = t := by
  refine mem_induction (motive := fun t => t.graft a (t.find a) = t) ?_ ?_ hnd ha
  · intro d u b v
    rw [graft_join_self, find_join_self]
  · intro d u x b v hnd hx hu hv ih
    rw [find_join hx hv, graft_join hx hv, ih]

variable (hnd : t.inorder.Nodup) (ha : a ∈ t.inorder)

include hnd ha

variable (s') in
theorem linkOf_graft (hk : t.linkOf a link = some k) (hc : c ∈ s.inorder)
    (hout : ∀ x ∈ t.inorder, x ∈ s.inorder → x ∈ (t.find a).inorder) :
    (t.graft a s).linkOf c link = s.linkOf c k ∧ (t.graft a s).find c = s.find c ∧
      (t.graft a s).graft c s' = t.graft a (s.graft c s') := by
  refine mem_induction (motive := fun t => ∀ link, t.linkOf a link = some k →
    (∀ x ∈ t.inorder, x ∈ s.inorder → x ∈ (t.find a).inorder) →
    (t.graft a s).linkOf c link = s.linkOf c k ∧ (t.graft a s).find c = s.find c ∧
      (t.graft a s).graft c s' = t.graft a (s.graft c s')) ?_ ?_ hnd ha link hk hout
  · intro d u b v link hk hout
    simp only [linkOf_join_self, Option.some.injEq] at hk
    simp [hk]
  · intro d u x b v hnd hx hu hv ih link hk hout
    obtain ⟨hndu, -, hxu, -, huv⟩ := nodup_join.mp hnd
    rw [linkOf_join hx hv] at hk
    rw [find_join hx hv] at hout
    have hin : ∀ y ∈ (join d u x b v).inorder, y ∈ s.inorder → y ∈ u.inorder :=
      fun y hy hys => inorder_find_subset hndu hu (hout y hy hys)
    have hcx : c ≠ x := fun h => hxu (hin x (mem_inorder_join.mpr (.inl rfl)) (h ▸ hc))
    have hcv : c ∉ v.inorder :=
      fun h => huv (hin c (mem_inorder_join.mpr (.inr (.inr h))) hc) h
    obtain ⟨hl, hf, hg⟩ := ih _ hk fun y hy => hout y (mem_inorder_join.mpr (.inr (.inl hy)))
    rw [graft_join hx hv, graft_join hx hv, linkOf_join hcx hcv, find_join hcx hcv,
      graft_join hcx hcv, hl, hf, hg]
    exact ⟨rfl, rfl, rfl⟩

theorem linkOf_graft_of_notMem (hc : c ∉ (t.find a).inorder) (hcs : c ∉ s.inorder) :
    (t.graft a s).linkOf c link = t.linkOf c link := by
  refine mem_induction (motive := fun t => ∀ link, c ∉ (t.find a).inorder →
    (t.graft a s).linkOf c link = t.linkOf c link) ?_ ?_ hnd ha link hc
  · intro d u b v link hc
    rw [find_join_self] at hc
    rw [graft_join_self, linkOf_of_notMem hc, linkOf_of_notMem hcs]
  · intro d u x b v hnd hx hu hv ih link hc
    rw [find_join hx hv] at hc
    rw [graft_join hx hv]
    by_cases hcx : c = x
    · subst hcx
      rw [linkOf_join_self, linkOf_join_self]
    by_cases hcv : c ∈ v.inorder
    · obtain ⟨hndu, -, -, -, huv⟩ := nodup_join.mp hnd
      have hcu : c ∉ u.inorder := fun h => huv h hcv
      have hcg : c ∉ (u.graft a s).inorder := by
        obtain ⟨A, B, h, hs⟩ := inorder_graft hndu hu
        rw [h] at hcu
        rw [hs]
        simp only [List.mem_append, not_or] at hcu ⊢
        exact ⟨hcu.1, hcs, hcu.2.2⟩
      have hway : ∀ w, c ∉ w.inorder → (join d w x b v).linkOf c link = v.linkOf c (.lnk x !d) := by
        intro w hw
        rw [← join_not, linkOf_join hcx hw]
      rw [hway _ hcg, hway _ hcu]
    · rw [linkOf_join hcx hcv, linkOf_join hcx hcv, ih _ hc]

end Graft

end Tukija.Avl
