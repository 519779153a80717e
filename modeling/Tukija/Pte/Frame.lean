import Tukija.Pte.Table

/-! Every table has one place in the tree, so that a write to an entry is seen on
one way down only. -/
namespace Tukija.Pte

variable {F : Format}

def Format.width (F : Format) : Nat := 2 ^ F.B

theorem width_pow_pos (F : Format) (l : Nat) : 0 < F.width ^ l := Nat.pow_pos (Nat.two_pow_pos F.B)

/-- What is relied upon of a page from `Buddy::alloc`: it is not out, and it has an
address that an entry can hold. -/
structure Fresh (Y : Layout F) (q : F.Word) (log : List (Event F)) : Prop where
  notMem : q ∉ taken log
  page : q &&& Y.field = q
  ne_zero : q ≠ 0

def Supply (Y : Layout F) (alloc : List (Event F) → Option F.Word) : Prop :=
  ∀ log q, alloc log = some q → Fresh Y q log

/-- The places of tables: `some (l, c)` for a table whose entries are on level `l`
and that belongs to the entry `c` on level `l + 1`, where entries of a level are
counted from address 0 on. -/
abbrev Places (F : Format) := F.Word → Option (Nat × Nat)

/-- `x` is the entry `b` on level `l`. -/
def At (own : Places F) (l b : Nat) (x : Loc F) : Prop :=
  (l = F.L ∧ b = 0 ∧ x = .root) ∨ ∃ q, x = .slot q (b % F.width) ∧ own q = some (l, b / F.width)

namespace Mem

/-- Whether an entry on level `l` points to a table. -/
def Points (w : F.Word) (l : Nat) : Prop := w ≠ 0 ∧ l ≠ 0 ∧ F.super w l = false

instance (w : F.Word) (l : Nat) : Decidable (Points w l) :=
  inferInstanceAs (Decidable (_ ∧ _ ∧ _))

/-- Each table hangs at its place and all of them are out. -/
structure Owned (m : Mem F) (own : Places F) : Prop where
  level : ∀ q l c, own q = some (l, c) → l < F.L
  child : ∀ l b x, At own (l + 1) b x → Points (m.read x) (l + 1) →
    own (F.addr (m.read x)) = some (l, b)
  parent : ∀ q l c, own q = some (l, c) →
    ∃ x, At own (l + 1) c x ∧ Points (m.read x) (l + 1) ∧ F.addr (m.read x) = q
  out : ∀ q, own q ≠ none → q ∈ taken m.log

variable {m : Mem F} {own : Places F}

theorem Owned.at_unique (h : Owned m own) {l b : Nat} {x y : Loc F} (hx : At own l b x)
    (hy : At own l b y) : x = y := by
  induction hk : F.L - l generalizing l b x y with
  | zero =>
    have hroot : ∀ z, At own l b z → z = .root := by
      rintro z (⟨-, -, rfl⟩ | ⟨q, -, hq⟩)
      · rfl
      · have := h.level q _ _ hq
        omega
    rw [hroot x hx, hroot y hy]
  | succ k ih =>
    have hslot : ∀ z, At own l b z →
        ∃ q, z = .slot q (b % F.width) ∧ own q = some (l, b / F.width) := by
      rintro z (⟨rfl, -, -⟩ | hz)
      · omega
      · exact hz
    obtain ⟨q, rfl, hq⟩ := hslot x hx
    obtain ⟨r, rfl, hr⟩ := hslot y hy
    obtain ⟨x', hx', -, hqx⟩ := h.parent q _ _ hq
    obtain ⟨y', hy', -, hry⟩ := h.parent r _ _ hr
    have := ih hx' hy' (by omega)
    rw [← hqx, ← hry, this]

theorem place_unique {l l' b b' : Nat} {x : Loc F} (hx : At own l b x)
    (hx' : At own l' b' x) : l = l' ∧ b = b' := by
  rcases hx with ⟨rfl, rfl, rfl⟩ | ⟨q, rfl, hq⟩
  · rcases hx' with ⟨rfl, rfl, -⟩ | ⟨q, hq, -⟩
    · exact ⟨rfl, rfl⟩
    · cases hq
  · rcases hx' with ⟨-, -, hr⟩ | ⟨r, hr, hr'⟩
    · cases hr
    · obtain ⟨rfl, hmod⟩ := Loc.slot.inj hr
      rw [hq, Option.some.injEq, Prod.mk.injEq] at hr'
      refine ⟨hr'.1, ?_⟩
      rw [← Nat.div_add_mod b F.width, ← Nat.div_add_mod b' F.width, hr'.2, hmod]

/-- The leaf that page `r` leads to from an entry on level `l`, with its level. -/
def leafAt (m : Mem F) (r : Nat) : Nat → Loc F → Option (Nat × F.Word)
  | 0, e => if m.read e = 0 then none else some (0, m.read e)
  | l + 1, e =>
    if m.read e = 0 then none
    else if F.super (m.read e) (l + 1) then some (l + 1, m.read e)
    else leafAt m r l (.slot (F.addr (m.read e)) (r / F.width ^ l % F.width))

def leaf (m : Mem F) (r : Nat) : Option (Nat × F.Word) := m.leafAt r F.L .root

theorem leafAt_of_points {r l : Nat} {x : Loc F} (hp : Points (m.read x) (l + 1)) :
    m.leafAt r (l + 1) x =
      m.leafAt r l (.slot (F.addr (m.read x)) (r / F.width ^ l % F.width)) := by
  rw [leafAt, if_neg hp.1, hp.2.2, if_neg Bool.false_ne_true]

theorem leafAt_of_zero {r l : Nat} {x : Loc F} (h : m.read x = 0) : m.leafAt r l x = none := by
  cases l <;> rw [leafAt, if_pos h]

theorem leafAt_of_leaf {r l : Nat} {x : Loc F} (h0 : m.read x ≠ 0)
    (hs : l ≠ 0 → F.super (m.read x) l = true) : m.leafAt r l x = some (l, m.read x) := by
  cases l with
  | zero => rw [leafAt, if_neg h0]
  | succ l => rw [leafAt, if_neg h0, if_pos (hs (Nat.succ_ne_zero l))]

theorem at_child {l b : Nat} {q : F.Word} {r : Nat} (hq : own q = some (l, b))
    (hb : r / F.width ^ (l + 1) = b) :
    At own l (r / F.width ^ l) (.slot q (r / F.width ^ l % F.width)) := by
  right
  refine ⟨q, rfl, ?_⟩
  rw [hq, Nat.div_div_eq_div_mul, ← Nat.pow_succ, hb]

theorem Owned.at_child (h : Owned m own) {l r : Nat} {x : Loc F}
    (hx : At own (l + 1) (r / F.width ^ (l + 1)) x) (hp : Points (m.read x) (l + 1)) :
    At own l (r / F.width ^ l) (.slot (F.addr (m.read x)) (r / F.width ^ l % F.width)) :=
  Mem.at_child (h.child l _ x hx hp) rfl

theorem at_root {r : Nat} (hr : r < F.width ^ F.L) : At own F.L (r / F.width ^ F.L) .root :=
  .inl ⟨rfl, Nat.div_eq_of_lt hr, rfl⟩

theorem Owned.leaf_eq (h : Owned m own) {l r : Nat} {x : Loc F}
    (hx : At own l (r / F.width ^ l) x) : m.leaf r = m.leafAt r l x := by
  induction hk : F.L - l generalizing l x with
  | zero =>
    rcases hx with ⟨rfl, -, rfl⟩ | ⟨q, rfl, hq⟩
    · rfl
    · have := h.level q _ _ hq
      omega
  | succ k ih =>
    rcases hx with ⟨rfl, -, rfl⟩ | ⟨q, rfl, hq⟩
    · omega
    · obtain ⟨y, hy, hp, rfl⟩ := h.parent q _ _ hq
      rw [Nat.div_div_eq_div_mul, ← Nat.pow_succ] at hy
      rw [ih hy (by omega), leafAt_of_points hp]

theorem Owned.leafAt_congr {m' : Mem F} (h : Owned m own) {r l : Nat} {x : Loc F}
    (hx : At own l (r / F.width ^ l) x)
    (hsame : ∀ j y, j ≤ l → At own j (r / F.width ^ j) y → m'.read y = m.read y) :
    m'.leafAt r l x = m.leafAt r l x := by
  induction l generalizing x with
  | zero => rw [leafAt, leafAt, hsame 0 x le_rfl hx]
  | succ l ih =>
    have hread := hsame (l + 1) x le_rfl hx
    by_cases hp : Points (m.read x) (l + 1)
    · rw [leafAt_of_points hp, leafAt_of_points (hread ▸ hp), hread]
      exact ih (h.at_child hx hp) fun j y hj => hsame j y (by omega)
    · by_cases h0 : m.read x = 0
      · rw [leafAt_of_zero h0, leafAt_of_zero (hread.trans h0)]
      · have hs : F.super (m.read x) (l + 1) = true := by
          by_contra hs
          exact hp ⟨h0, by omega, by simpa using hs⟩
        rw [leafAt_of_leaf h0 fun _ => hs, leafAt_of_leaf (hread ▸ h0) fun _ => hread ▸ hs, hread]

theorem Owned.leaf_congr {m' : Mem F} (h : Owned m own) {r : Nat} (hr : r < F.width ^ F.L)
    (hsame : ∀ j y, At own j (r / F.width ^ j) y → m'.read y = m.read y) :
    m'.leaf r = m.leaf r :=
  h.leafAt_congr (at_root hr) fun j y _ => hsame j y

theorem Owned.at_le (h : Owned m own) {l b : Nat} {x : Loc F} (hx : At own l b x) : l ≤ F.L := by
  rcases hx with ⟨rfl, -, -⟩ | ⟨q, -, hq⟩
  · exact le_rfl
  · exact (h.level q _ _ hq).le

theorem read_write (m : Mem F) (x y : Loc F) (w : F.Word) :
    (m.write x w).read y = if y = x then w else m.read y := by
  cases x with
  | root => cases y <;> simp [write, read]
  | slot q i =>
    cases y with
    | root => simp [write, read]
    | slot r j =>
      by_cases hq : r = q
      · subst hq
        by_cases hj : j = i
        · subst hj
          simp [write, read]
        · simp [write, read, hj]
      · simp [write, read, hq]

section Grow

variable {Y : Layout F} {t : F.Word} {l b : Nat} {x : Loc F}

theorem log_write (m : Mem F) (x : Loc F) (w : F.Word) : (m.write x w).log = m.log := by
  cases x <;> rfl

theorem log_grow : (m.grow t x l).log = .alloc t :: m.log := log_write _ _ _

theorem read_grow_self : (m.grow t x l).read x = F.pointer t l := by
  rw [grow, read_write, if_pos rfl]

theorem read_grow_new {i : Nat} (hx : x ≠ .slot t i) :
    (m.grow t x l).read (.slot t i) = 0 := by
  rw [grow, read_write, if_neg hx.symm]
  simp [read]

theorem read_grow {y : Loc F} (hy : y ≠ x) (hnew : ∀ i, y ≠ .slot t i) :
    (m.grow t x l).read y = m.read y := by
  rw [grow, read_write, if_neg hy]
  cases y with
  | root => rfl
  | slot q i =>
    have hq : q ≠ t := fun h => hnew i (h ▸ rfl)
    simp [read, hq]

theorem pointer_points {log : List (Event F)} (ht : Fresh Y t log) (hl0 : l ≠ 0) (hl : l ≤ F.L) :
    Points (F.pointer t l) l := by
  refine ⟨?_, hl0, Y.super_pointer ht.page hl0 hl⟩
  intro h
  have h := (BitVec.or_eq_zero_iff.mp (BitVec.or_eq_zero_iff.mp h).1).1
  exact ht.ne_zero h

def settle (own : Places F) (t : F.Word) (l b : Nat) : Places F :=
  Function.update own t (some (l, b))

theorem settle_self : settle own t l b t = some (l, b) := Function.update_self _ _ _

theorem settle_of_ne {q : F.Word} (hq : q ≠ t) : settle own t l b q = own q :=
  Function.update_of_ne hq _ _

variable (ht : Fresh Y t m.log) (h : Owned m own) (hx : At own (l + 1) b x) (h0 : m.read x = 0)

include ht h

theorem Owned.own_fresh : own t = none := by
  by_contra hne
  exact ht.notMem (h.out _ hne)

theorem Owned.at_ne_fresh {j c : Nat} {y : Loc F} (hy : At own j c y) (i : Nat) : y ≠ .slot t i := by
  intro heq
  rcases hy with ⟨-, -, rfl⟩ | ⟨q, rfl, hq⟩
  · cases heq
  · obtain ⟨rfl, -⟩ := Loc.slot.inj heq
    rw [h.own_fresh ht] at hq
    cases hq

theorem Owned.at_settle {j c : Nat} {y : Loc F} (hy : At own j c y) :
    At (settle own t l b) j c y := by
  rcases hy with hroot | ⟨q, rfl, hq⟩
  · exact .inl hroot
  · refine .inr ⟨q, rfl, ?_⟩
    rwa [settle_of_ne]
    rintro rfl
    rw [h.own_fresh ht] at hq
    cases hq

include hx h0

theorem Owned.grow : Owned (m.grow t x (l + 1)) (settle own t l b) := by
  have hle := h.at_le hx
  have hptr := pointer_points ht (Nat.succ_ne_zero l) hle
  have haddr := Y.addr_pointer ht.page hle
  refine ⟨?_, ?_, ?_, ?_⟩
  · intro q j c hq
    by_cases hqt : q = t
    · subst hqt
      rw [settle_self, Option.some.injEq, Prod.mk.injEq] at hq
      omega
    · rw [settle_of_ne hqt] at hq
      exact h.level q j c hq
  · intro j c y hy hp
    by_cases hyx : y = x
    · subst hyx
      obtain ⟨hj, rfl⟩ := place_unique hy (h.at_settle ht hx)
      obtain rfl : j = l := by omega
      rw [read_grow_self, haddr, settle_self]
    · have hyo : At own (j + 1) c y := by
        rcases hy with hroot | ⟨q, rfl, hq⟩
        · exact .inl hroot
        · by_cases hqt : q = t
          · subst hqt
            rw [read_grow_new (h.at_ne_fresh ht hx _)] at hp
            exact absurd rfl hp.1
          · rw [settle_of_ne hqt] at hq
            exact .inr ⟨q, rfl, hq⟩
      rw [read_grow hyx (h.at_ne_fresh ht hyo)] at hp ⊢
      have hown := h.child j c y hyo hp
      rwa [settle_of_ne]
      intro ha
      rw [ha, h.own_fresh ht] at hown
      cases hown
  · intro q j c hq
    by_cases hqt : q = t
    · subst hqt
      rw [settle_self, Option.some.injEq, Prod.mk.injEq] at hq
      obtain ⟨rfl, rfl⟩ := hq
      refine ⟨x, h.at_settle ht hx, ?_, ?_⟩
      · rwa [read_grow_self]
      · rw [read_grow_self, haddr]
    · rw [settle_of_ne hqt] at hq
      obtain ⟨y, hy, hp, hay⟩ := h.parent q j c hq
      have hyx : y ≠ x := by
        rintro rfl
        exact hp.1 h0
      refine ⟨y, h.at_settle ht hy, ?_, ?_⟩
      · rwa [read_grow hyx (h.at_ne_fresh ht hy)]
      · rwa [read_grow hyx (h.at_ne_fresh ht hy)]
  · intro q hq
    rw [log_grow, taken, List.mem_cons]
    by_cases hqt : q = t
    · exact .inl hqt
    · rw [settle_of_ne hqt] at hq
      exact .inr (h.out q hq)

theorem Owned.leaf_grow {r : Nat} (hr : r < F.width ^ F.L) :
    (m.grow t x (l + 1)).leaf r = m.leaf r := by
  have hle := h.at_le hx
  have howned := h.grow ht hx h0
  have haddr := Y.addr_pointer ht.page hle
  by_cases hrb : r / F.width ^ (l + 1) = b
  · subst hrb
    have hptr := pointer_points ht (Nat.succ_ne_zero l) hle
    have hchild := howned.at_child (h.at_settle ht hx) (by rwa [read_grow_self])
    rw [h.leaf_eq hx, leafAt_of_zero h0, howned.leaf_eq hchild]
    apply leafAt_of_zero
    rw [read_grow_self, haddr]
    exact read_grow_new (h.at_ne_fresh ht hx _)
  · apply h.leaf_congr hr
    intro j y hy
    apply read_grow _ (h.at_ne_fresh ht hy)
    rintro rfl
    obtain ⟨rfl, hb⟩ := place_unique hy hx
    exact hrb hb

end Grow

section Cut

/-- A table of the place `(l', c)` is reached through the entry `b` on level `l`. -/
def Under (F : Format) (l b l' c : Nat) : Prop := l' < l ∧ c / F.width ^ (l - 1 - l') = b

instance (l b l' c : Nat) : Decidable (Under F l b l' c) := inferInstanceAs (Decidable (_ ∧ _))

theorem under_up {l b l' c : Nat} (hl : l' + 1 < l) :
    Under F l b (l' + 1) (c / F.width) ↔ Under F l b l' c := by
  unfold Under
  rw [Nat.div_div_eq_div_mul, ← Nat.pow_succ', show (l - 1 - (l' + 1)).succ = l - 1 - l' by omega]
  constructor <;> rintro ⟨-, h⟩ <;> exact ⟨by omega, h⟩

def cut (own : Places F) (l b : Nat) : Places F := fun q =>
  (own q).filter fun c => ¬Under F l b c.1 c.2

theorem cut_eq_some {own : Places F} {l b l' c : Nat} {q : F.Word} :
    cut own l b q = some (l', c) ↔ own q = some (l', c) ∧ ¬Under F l b l' c := by
  simp [cut, Option.filter_eq_some_iff]

theorem at_of_cut {l b j c : Nat} {x : Loc F} (hx : At (cut own l b) j c x) : At own j c x := by
  rcases hx with hroot | ⟨q, rfl, hq⟩
  · exact .inl hroot
  · exact .inr ⟨q, rfl, (cut_eq_some.mp hq).1⟩

variable {m' : Mem F} {l b : Nat} {x : Loc F} {w : F.Word}

theorem at_cut {c : Nat} (hx : At own l c x) : At (cut own l b) l c x := by
  rcases hx with hroot | ⟨q, rfl, hq⟩
  · exact .inl hroot
  · exact .inr ⟨q, rfl, cut_eq_some.mpr ⟨hq, fun hu => absurd hu.1 (lt_irrefl l)⟩⟩

variable (h : Owned m own) (hx : At own l b x) (hw : ¬Points w l)
  (hread : ∀ y, m'.read y = if y = x then w else m.read y)

include h hx hw hread

theorem Owned.set (hout : ∀ q, cut own l b q ≠ none → q ∈ taken m'.log) :
    Owned m' (cut own l b) := by
  have hsame : ∀ {j c y}, At own j c y → (j, c) ≠ (l, b) → m'.read y = m.read y := by
    intro j c y hy hne
    rw [hread, if_neg]
    rintro rfl
    exact hne (Prod.ext_iff.mpr (place_unique hy hx))
  have hle := h.at_le hx
  refine ⟨?_, ?_, ?_, hout⟩
  · intro q j c hq
    exact h.level q j c (cut_eq_some.mp hq).1
  · intro j c y hy hp
    have hyo := at_of_cut hy
    have hne : (j + 1, c) ≠ (l, b) := by
      rintro ⟨rfl, rfl⟩
      obtain rfl := h.at_unique hyo hx
      rw [hread, if_pos rfl] at hp
      exact hw hp
    rw [hsame hyo hne] at hp ⊢
    refine cut_eq_some.mpr ⟨h.child j c y hyo hp, ?_⟩
    intro hu
    by_cases hj : j + 1 < l
    · rcases hy with ⟨hjL, -, -⟩ | ⟨q, -, hq⟩
      · omega
      · exact (cut_eq_some.mp hq).2 ((under_up hj).mpr hu)
    · obtain rfl : l = j + 1 := by have := hu.1; omega
      have := hu.2
      simp only [Nat.add_sub_cancel, Nat.sub_self, Nat.pow_zero, Nat.div_one] at this
      exact hne (by rw [this])
  · intro q j c hq
    obtain ⟨hqo, hnu⟩ := cut_eq_some.mp hq
    obtain ⟨y, hy, hp, hay⟩ := h.parent q j c hqo
    have hne : (j + 1, c) ≠ (l, b) := by
      rintro ⟨rfl, rfl⟩
      exact hnu ⟨by omega, by simp⟩
    have hyc : At (cut own l b) (j + 1) c y := by
      rcases hy with hroot | ⟨q', rfl, hq'⟩
      · exact .inl hroot
      · refine .inr ⟨q', rfl, cut_eq_some.mpr ⟨hq', ?_⟩⟩
        intro hu
        exact hnu ((under_up hu.1).mp hu)
    rw [← hsame hy hne] at hp hay
    exact ⟨y, hyc, hp, hay⟩

theorem Owned.leaf_set (hout : ∀ q, cut own l b q ≠ none → q ∈ taken m'.log) {r : Nat}
    (hr : r < F.width ^ F.L) :
    m'.leaf r = if r / F.width ^ l = b then (if w = 0 then none else some (l, w)) else m.leaf r := by
  have h' := h.set hx hw hread hout
  have hself : m'.read x = w := by rw [hread, if_pos rfl]
  split
  · rename_i hrb
    subst hrb
    rw [h'.leaf_eq (at_cut hx)]
    split
    · exact leafAt_of_zero (hself.trans ‹_›)
    · rename_i h0
      rw [leafAt_of_leaf (hself ▸ h0), hself]
      intro hl
      rw [hself]
      by_contra hs
      exact hw ⟨h0, hl, by simpa using hs⟩
  · rename_i hrb
    apply h.leaf_congr hr
    intro j y hy
    rw [hread, if_neg]
    rintro rfl
    obtain ⟨rfl, hb⟩ := place_unique hy hx
    exact hrb hb

end Cut

end Mem

end Tukija.Pte
