import Tukija.Lib.Word
import Tukija.Pte.Frame

/-! What `walk`, `lookup` and `update` do to the pages that can be found. -/
namespace Tukija.Pte

open Tukija.Lib.Word

variable {F : Format}

namespace Mem

def pageOf (v : F.Word) : Nat := v.toNat / 2 ^ pageBits % F.width ^ F.L

end Mem

section Index

theorem width_pow (l : Nat) : F.width ^ l = 2 ^ (l * F.B) := by
  rw [Format.width, ← Nat.pow_mul, Nat.mul_comm]

theorem index_eq (Y : Layout F) {l : Nat} (hl : l < F.L) (v : F.Word) :
    Mem.index v l = Mem.pageOf v / F.width ^ l % F.width := by
  have hB : 2 ^ F.B ≤ 2 ^ F.w := by
    apply Nat.pow_le_pow_right (by decide)
    have := Y.room
    have := Nat.le_mul_of_pos_left F.B (Nat.pos_of_ne_zero Y.depth)
    omega
  have hmask : (BitVec.ofNat F.w (2 ^ F.B - 1)).toNat = 2 ^ F.B - 1 := by
    rw [BitVec.toNat_ofNat]
    apply Nat.mod_eq_of_lt
    have := Nat.two_pow_pos F.B
    omega
  obtain ⟨k, hk⟩ : ∃ k, F.L = l + 1 + k := ⟨F.L - (l + 1), by omega⟩
  rw [Mem.index, BitVec.toNat_and, hmask, BitVec.toNat_ushiftRight, Nat.and_two_pow_sub_one_eq_mod,
    Nat.shiftRight_eq_div_pow, Mem.pageOf, hk, Nat.pow_add F.width (l + 1) k, Nat.pow_succ,
    Nat.mul_assoc, Nat.mod_mul_right_div_self, Nat.mod_mul_right_mod, Nat.div_div_eq_div_mul,
    width_pow, ← Nat.pow_add, Nat.add_comm]
  rfl

end Index

namespace Mem

theorem pageOf_lt (v : F.Word) : pageOf v < F.width ^ F.L :=
  Nat.mod_lt _ (width_pow_pos F F.L)

theorem lookup_eq (Y : Layout F) (m : Mem F) (v : F.Word) {l : Nat} (hl : l ≤ F.L) (e : Loc F) :
    m.lookup v l e = (m.leafAt (pageOf v) l e).map fun x => found x.2 v x.1 := by
  induction l generalizing e with
  | zero => unfold lookup leafAt; split <;> rfl
  | succ l ih =>
    unfold lookup leafAt
    split
    · rfl
    · split
      · rfl
      · rw [ih (by omega), child, index_eq Y (by omega)]

section Walk

variable {Y : Layout F} {alloc : List (Event F) → Option F.Word} {m : Mem F} {own : Places F} {v : F.Word}
  {n : Nat}

/-- No leaf lies on the way of `r` above level `n`. -/
def Clear (m : Mem F) (r n : Nat) : Prop := ∀ l w, m.leaf r = some (l, w) → l ≤ n

theorem div_pow_eq_of_le {r r' W j k : Nat} (hjk : j ≤ k) (h : r / W ^ j = r' / W ^ j) :
    r / W ^ k = r' / W ^ k := by
  obtain ⟨i, rfl⟩ := Nat.exists_eq_add_of_le hjk
  rw [Nat.pow_add, ← Nat.div_div_eq_div_mul, ← Nat.div_div_eq_div_mul, h]

theorem Clear.points (h : Owned m own) {r l : Nat} {e : Loc F} (hc : Clear m r n)
    (he : At own (l + 1) (r / F.width ^ (l + 1)) e) (hl : n ≤ l) (h0 : m.read e ≠ 0) :
    Points (m.read e) (l + 1) := by
  refine ⟨h0, Nat.succ_ne_zero l, ?_⟩
  by_contra hs
  have hleaf := h.leaf_eq he
  rw [leafAt_of_leaf h0 fun _ => by simpa using hs] at hleaf
  have := hc _ _ hleaf
  omega

/-- `Pte::walk`, where no leaf is in its way and no page lacks.  Either it ends at
the entry for `v` on level `n` and what can be found is as before, or a table is
missing. -/
theorem walk_spec (hs : Supply Y alloc) {a : Bool} {l : Nat} {e : Loc F} (hl : n ≤ l)
    (h : Owned m own) (he : At own l (pageOf v / F.width ^ l) e) (hc : Clear m (pageOf v) n)
    {res : Option (Loc F) × Mem F} (hw : walk alloc v n a l e m = some res) :
    (∃ x m' own', res = (some x, m') ∧ Owned m' own' ∧
        At own' n (pageOf v / F.width ^ n) x ∧ ∀ r < F.width ^ F.L, m'.leaf r = m.leaf r) ∨
      (a = false ∧ res = (none, m) ∧
        ∀ r, r / F.width ^ (n + 1) = pageOf v / F.width ^ (n + 1) → m.leaf r = none) := by
  induction l generalizing e m own with
  | zero =>
    obtain rfl : n = 0 := by omega
    rw [walk, Option.some.injEq] at hw
    exact .inl ⟨e, m, own, hw.symm, h, he, fun _ _ => rfl⟩
  | succ l ih =>
    by_cases hn : l + 1 = n
    · subst hn
      rw [walk, if_pos rfl, Option.some.injEq] at hw
      exact .inl ⟨e, m, own, hw.symm, h, he, fun _ _ => rfl⟩
    have hln : n ≤ l := by omega
    have hlL : l < F.L := h.at_le he
    rw [walk, if_neg hn] at hw
    by_cases h0 : m.read e = 0
    · rw [if_pos h0] at hw
      cases a with
      | false =>
        simp only [Bool.false_eq_true, if_false, Option.some.injEq] at hw
        refine .inr ⟨rfl, hw.symm, ?_⟩
        intro r hr
        rw [← div_pow_eq_of_le (Nat.succ_le_succ hln) hr] at he
        rw [h.leaf_eq he, leafAt_of_zero h0]
      | true =>
        simp only [if_true] at hw
        obtain ⟨t, hta, hw⟩ := Option.bind_eq_some_iff.mp hw
        have ht := hs _ _ hta
        have hleaf := fun r hr => h.leaf_grow ht he h0 (r := r) hr
        have he1 : At (settle own t l (pageOf v / F.width ^ (l + 1))) l
            (pageOf v / F.width ^ l) (child ((m.grow t e (l + 1)).read e) v l) := by
          rw [child, read_grow_self, Y.addr_pointer ht.page (h.at_le he), index_eq Y hlL]
          exact at_child settle_self rfl
        have hc1 : Clear (m.grow t e (l + 1)) (pageOf v) n := by
          intro j w hj
          rw [hleaf _ (pageOf_lt v)] at hj
          exact hc j w hj
        obtain ⟨x, m', own', hres, h', hx, hleaf'⟩ | ⟨hf, -⟩ :=
          ih hln (h.grow ht he h0) he1 hc1 hw
        · exact .inl ⟨x, m', own', hres, h', hx, fun r hr => (hleaf' r hr).trans (hleaf r hr)⟩
        · cases hf
    · rw [if_neg h0] at hw
      have hp := hc.points h he hln h0
      have he1 : At own l (pageOf v / F.width ^ l) (child (m.read e) v l) := by
        rw [child, index_eq Y hlL]
        exact h.at_child he hp
      exact ih hln h he1 hc hw

end Walk

section Fill

variable {m : Mem F} {own : Places F} {l b : Nat} {x : Loc F}

theorem at_add {i : Nat} (hx : At own l b x) (hi : b % F.width + i < F.width) (hl : l < F.L) :
    At own l (b + i) (x.add i) := by
  rcases hx with ⟨rfl, -, -⟩ | ⟨q, rfl, hq⟩
  · omega
  · right
    have hsplit : b + i = F.width * (b / F.width) + (b % F.width + i) := by
      rw [← Nat.add_assoc, Nat.div_add_mod]
    refine ⟨q, ?_, ?_⟩
    · rw [hsplit, Nat.mul_add_mod, Nat.mod_eq_of_lt hi]
      rfl
    · have hpos : 0 < F.width := Nat.two_pow_pos F.B
      rw [hsplit, Nat.mul_add_div hpos, Nat.div_eq_of_lt hi, Nat.add_zero, hq]

/-- What pages find at an entry that holds `w`. -/
def shows (w : F.Word) (l : Nat) : Option (Nat × F.Word) := if w = 0 then none else some (l, w)

variable {t : Kind} {p s : F.Word}

theorem read_overwrite (y : Loc F) :
    (overwrite l t x p m).2.read y = if y = x then p else m.read y := by
  rw [overwrite, read_write]
  congr 1
  split
  · cases y <;> rfl
  · rfl

theorem out_overwrite (h : Owned m own) (hx : At own l b x) (q : F.Word)
    (hq : cut own l b q ≠ none) : q ∈ taken (overwrite l t x p m).2.log := by
  obtain ⟨⟨j, c⟩, hjc⟩ := Option.ne_none_iff_exists'.mp hq
  obtain ⟨hown, hnu⟩ := cut_eq_some.mp hjc
  have hout := h.out q (by simp [hown])
  rw [overwrite, log_write]
  split
  · rename_i hd
    -- the page that is given back hangs below the entry
    simp only [drops, Bool.and_eq_true, bne_iff_ne, Bool.not_eq_true'] at hd
    obtain ⟨l, rfl⟩ := Nat.exists_eq_succ_of_ne_zero hd.1.2
    have hchild := h.child l b x hx ⟨hd.1.1.1, hd.1.2, hd.2⟩
    refine (List.mem_erase_of_ne ?_).mpr hout
    rintro rfl
    rw [hown, Option.some.injEq, Prod.mk.injEq] at hchild
    obtain ⟨rfl, rfl⟩ := hchild
    exact hnu ⟨Nat.lt_succ_self _, by simp⟩
  · exact hout

theorem fill_spec {n i : Nat} (flush : Bool) (h : Owned m own)
    (hx : ∀ j < n, At own l (b + j) (x.add (i + j)))
    (hw : ∀ j < n, ¬Points (p + BitVec.ofNat F.w j * s) l) :
    (∃ own', Owned (fill l x t s n i p flush m).2 own') ∧
      ∀ r < F.width ^ F.L, (fill l x t s n i p flush m).2.leaf r =
        if b ≤ r / F.width ^ l ∧ r / F.width ^ l < b + n then
          shows (p + BitVec.ofNat F.w (r / F.width ^ l - b) * s) l
        else m.leaf r := by
  induction n generalizing m own b i p flush with
  | zero => exact ⟨⟨own, h⟩, fun r _ => by rw [if_neg (by omega)]; rfl⟩
  | succ n ih =>
    have hx0 : At own l b (x.add i) := hx 0 (Nat.succ_pos n)
    have hw0 : ¬Points p l := by simpa using hw 0 (Nat.succ_pos n)
    have h1 : Owned (overwrite l t (x.add i) p m).2 (cut own l b) :=
      h.set hx0 hw0 read_overwrite (out_overwrite h hx0)
    have hleaf := fun r (hr : r < F.width ^ F.L) =>
      h.leaf_set hx0 hw0 (read_overwrite (t := t)) (out_overwrite h hx0) hr
    have hstep : ∀ j, p + BitVec.ofNat F.w (j + 1) * s = p + s + BitVec.ofNat F.w j * s := by
      intro j
      rw [BitVec.ofNat_add, BitVec.add_mul, BitVec.one_mul, BitVec.add_comm (_ * s),
        BitVec.add_assoc]
    obtain ⟨hown, hrest⟩ := ih (flush || (overwrite l t (x.add i) p m).1) h1 (b := b + 1) (i := i + 1)
      (p := p + s) (fun j hj => by
        have := at_cut (b := b) (hx (j + 1) (by omega))
        rwa [show b + 1 + j = b + (j + 1) by omega, show i + 1 + j = i + (j + 1) by omega])
      (fun j hj => by rw [← hstep]; exact hw (j + 1) (by omega))
    refine ⟨hown, ?_⟩
    intro r hr
    refine (hrest r hr).trans ?_
    rw [hleaf r hr]
    generalize r / F.width ^ l = c
    by_cases hcb : c = b
    · subst hcb
      rw [if_neg (show ¬(c + 1 ≤ c ∧ c < c + 1 + n) by omega), if_pos rfl,
        if_pos (show c ≤ c ∧ c < c + (n + 1) by omega), Nat.sub_self, BitVec.zero_mul, BitVec.add_zero]
      rfl
    · rw [if_neg hcb]
      by_cases hc : b + 1 ≤ c ∧ c < b + 1 + n
      · rw [if_pos hc, if_pos (show b ≤ c ∧ c < b + (n + 1) by omega), ← hstep,
          show c - (b + 1) + 1 = c - b by omega]
      · rw [if_neg hc, if_neg (show ¬(b ≤ c ∧ c < b + (n + 1)) by omega)]

end Fill

section Update

variable {Y : Layout F} {alloc : List (Event F) → Option F.Word} {m : Mem F} {own : Places F} {v : F.Word}
  {o : Nat}

/-- The size of an entry on level `l`. -/
def span (F : Format) (l : Nat) : F.Word := (1 : F.Word) <<< (l * F.B + pageBits)

/-- The entry number `j` of a mapping. -/
def entry (p a : F.Word) (o j : Nat) : F.Word :=
  (p + BitVec.ofNat F.w j * span F (o / F.B)) ||| F.flags a (o / F.B) (o % F.B)

/-- The attributes are such, and the addresses of all entries fit into their field. -/
structure Mappable (Y : Layout F) (o : Nat) (p a : F.Word) : Prop where
  ne_zero : a ≠ 0
  attrs : a &&& Y.attrs = a
  field : ∀ j < 2 ^ (o % F.B), (p + BitVec.ofNat F.w j * span F (o / F.B)) &&& Y.field =
    p + BitVec.ofNat F.w j * span F (o / F.B)

variable {p a : F.Word}

theorem two_pow_order (F : Format) (o : Nat) : 2 ^ o = F.width ^ (o / F.B) * 2 ^ (o % F.B) := by
  rw [width_pow, ← Nat.pow_add, Nat.mul_comm, Nat.div_add_mod]

theorem mod_lt (Y : Layout F) (o : Nat) : o % F.B < F.B := Nat.mod_lt _ (Nat.pos_of_ne_zero Y.base)

theorem entry_eq (hp : Mappable Y o p a) {j : Nat} (hj : j < 2 ^ (o % F.B)) :
    (p ||| F.flags a (o / F.B) (o % F.B)) + BitVec.ofNat F.w j * span F (o / F.B) =
      entry p a o j := by
  have hapart : ∀ x : F.Word, x &&& Y.field = x → x &&& F.flags a (o / F.B) (o % F.B) = 0#F.w :=
    fun x hx => and_eq_zero_of_field hx (Y.apart hp.attrs (mod_lt Y o))
  have h0 : p &&& Y.field = p := by simpa using hp.field 0 (Nat.two_pow_pos _)
  rw [entry, ← BitVec.add_eq_or_of_and_eq_zero _ _ (hapart _ h0),
    ← BitVec.add_eq_or_of_and_eq_zero _ _ (hapart _ (hp.field j hj)), BitVec.add_assoc,
    BitVec.add_comm (F.flags a _ _), ← BitVec.add_assoc]

theorem entry_ne_zero (hp : Mappable Y o p a) (j : Nat) : entry p a o j ≠ 0 := by
  intro h
  exact hp.ne_zero (BitVec.or_eq_zero_iff.mp (BitVec.or_eq_zero_iff.mp h).2).2

theorem entry_not_points (hp : Mappable Y o p a) {j : Nat} (hj : j < 2 ^ (o % F.B)) :
    ¬Points (entry p a o j) (o / F.B) := by
  rintro ⟨-, hl, hs⟩
  have := Y.super_leaf (hp.field j hj) hp.attrs (mod_lt Y o) hl
  rw [entry, this] at hs
  cases hs

def InRange (v : F.Word) (o r : Nat) : Prop := pageOf v ≤ r ∧ r < pageOf v + 2 ^ o

instance (v : F.Word) (o r : Nat) : Decidable (InRange v o r) := inferInstanceAs (Decidable (_ ∧ _))

section Range

variable (ho : o ≤ F.L * F.B) (hv : 2 ^ (o + pageBits) ∣ v.toNat)

include ho

theorem level_le : o / F.B ≤ F.L := by
  apply Nat.div_le_of_le_mul
  rwa [Nat.mul_comm]

include hv

theorem order_dvd : 2 ^ o ∣ pageOf v := by
  have hpage : 2 ^ o ∣ v.toNat / 2 ^ pageBits := by
    rw [Nat.pow_add] at hv
    exact Nat.dvd_div_of_mul_dvd (by rwa [Nat.mul_comm] at hv)
  have hall : 2 ^ o ∣ F.width ^ F.L := by
    rw [width_pow]
    exact Nat.pow_dvd_pow 2 ho
  exact (Nat.dvd_mod_iff hall).mpr hpage

theorem inRange_iff {r : Nat} :
    InRange v o r ↔ pageOf v / F.width ^ (o / F.B) ≤ r / F.width ^ (o / F.B) ∧
      r / F.width ^ (o / F.B) < pageOf v / F.width ^ (o / F.B) + 2 ^ (o % F.B) := by
  have hpos := width_pow_pos F (o / F.B)
  have hpow := two_pow_order F o
  have hdvd : F.width ^ (o / F.B) ∣ pageOf v :=
    (Dvd.intro _ hpow.symm).trans (order_dvd ho hv)
  obtain ⟨c, hc⟩ := hdvd
  unfold InRange
  rw [hc, Nat.mul_div_cancel_left _ hpos, hpow, ← Nat.mul_add, Nat.le_div_iff_mul_le hpos,
    Nat.div_lt_iff_lt_mul hpos, Nat.mul_comm c, Nat.mul_comm (c + _)]

theorem sub_div (r : Nat) :
    r / F.width ^ (o / F.B) - pageOf v / F.width ^ (o / F.B) =
      (r - pageOf v) / F.width ^ (o / F.B) := by
  have hdvd : F.width ^ (o / F.B) ∣ pageOf v :=
    (Dvd.intro _ (two_pow_order F o).symm).trans (order_dvd ho hv)
  obtain ⟨c, hc⟩ := hdvd
  have hpos := width_pow_pos F (o / F.B)
  rw [hc, Nat.mul_div_cancel_left _ hpos, Nat.sub_mul_div]

theorem room (Y : Layout F) :
    pageOf v / F.width ^ (o / F.B) % F.width + 2 ^ (o % F.B) ≤ F.width := by
  have hwidth : 2 ^ (o % F.B) ∣ F.width := Nat.pow_dvd_pow 2 (mod_lt Y o).le
  have hblock : 2 ^ (o % F.B) ∣ pageOf v / F.width ^ (o / F.B) := by
    obtain ⟨c, hc⟩ := order_dvd ho hv
    rw [hc, two_pow_order F o, Nat.mul_assoc, Nat.mul_div_cancel_left _ (width_pow_pos F _)]
    exact Dvd.intro _ rfl
  exact add_le_of_dvd_of_lt ((Nat.dvd_mod_iff hwidth).mpr hblock) hwidth
    (Nat.mod_lt _ (Nat.two_pow_pos F.B))

theorem same_table (Y : Layout F) {r : Nat} (hr : InRange v o r) :
    r / F.width ^ (o / F.B + 1) = pageOf v / F.width ^ (o / F.B + 1) := by
  obtain ⟨h1, h2⟩ := (inRange_iff ho hv).mp hr
  have hroom := room ho hv Y
  rw [Nat.pow_succ, ← Nat.div_div_eq_div_mul, ← Nat.div_div_eq_div_mul]
  generalize r / F.width ^ (o / F.B) = c at *
  generalize pageOf v / F.width ^ (o / F.B) = b at *
  have hb := Nat.div_add_mod b F.width
  apply Nat.div_eq_of_lt_le
  · rw [Nat.mul_comm]
    omega
  · rw [Nat.add_mul, Nat.mul_comm (b / F.width)]
    omega

theorem at_range {x : Loc F} (Y : Layout F)
    (hx : At own (o / F.B) (pageOf v / F.width ^ (o / F.B)) x) {j : Nat} (hj : j < 2 ^ (o % F.B)) :
    At own (o / F.B) (pageOf v / F.width ^ (o / F.B) + j) (x.add j) := by
  rcases Nat.lt_or_ge (o / F.B) F.L with hl | hl
  · have := room ho hv Y
    exact at_add hx (by omega) hl
  · -- an entry for the whole table is the only one
    have hmul : F.L * F.B ≤ o / F.B * F.B := Nat.mul_le_mul_right _ hl
    have hdiv := Nat.div_add_mod o F.B
    rw [Nat.mul_comm] at hdiv
    have h0 : o % F.B = 0 := by omega
    rw [h0, Nat.pow_zero, Nat.lt_one_iff] at hj
    subst hj
    cases x <;> exact hx

end Range

/-- What `Pte::update` leaves to be found, if no leaf of a higher level is in its
way.  Without `TYPE_UP` it may find nothing to update. -/
theorem update_spec (hs : Supply Y alloc) (h : Owned m own) (ho : o ≤ F.L * F.B)
    (hv : 2 ^ (o + pageBits) ∣ v.toNat) (hc : Clear m (pageOf v) (o / F.B))
    (ha : a = 0 ∨ Mappable Y o p a) {t : Kind} {f : Bool} {m' : Mem F}
    (hup : update alloc v o p a t m = some (f, m')) :
    (∃ own', Owned m' own') ∧
      ((∀ r < F.width ^ F.L, m'.leaf r =
          if InRange v o r then
            if a = 0 then none
            else some (o / F.B, entry p a o ((r - pageOf v) / F.width ^ (o / F.B)))
          else m.leaf r) ∨
        t ≠ .up ∧ m' = m ∧ ∀ r, InRange v o r → m.leaf r = none) := by
  cases hw : walk alloc v (o / F.B) (t == .up) F.L .root m with
  | none =>
    simp only [update, hw] at hup
    cases hup
  | some res =>
    obtain ⟨x, m₁, own₁, rfl, h₁, hx, hleaf⟩ | ⟨ht, rfl, hnone⟩ :=
      walk_spec hs (level_le ho) h (at_root (pageOf_lt v)) hc hw
    · have hrange := fun j hj => at_range ho hv Y hx (j := j) hj
      by_cases ha0 : a = 0
      · simp only [update, hw, ha0, ne_eq, not_true_eq_false, if_false, Option.some.injEq] at hup
        obtain rfl : _ = m' := congrArg Prod.snd hup
        obtain ⟨hown, hfill⟩ := fill_spec (i := 0) (t := t) (p := 0) (s := 0)
          (n := 2 ^ (o % F.B)) false h₁ (fun j hj => by simpa using hrange j hj)
          (fun j _ hp => hp.1 (by simp))
        refine ⟨hown, .inl ?_⟩
        intro r hr
        rw [hfill r hr, hleaf r hr, if_pos ha0]
        simp only [← inRange_iff ho hv]
        simp [shows]
      · have hp := ha.resolve_left ha0
        simp only [update, hw, ha0, ne_eq, not_false_eq_true, if_true, Option.some.injEq] at hup
        obtain rfl : _ = m' := congrArg Prod.snd hup
        obtain ⟨hown, hfill⟩ := fill_spec (i := 0) (t := t) (s := span F (o / F.B))
          (p := p ||| F.flags a (o / F.B) (o % F.B)) (n := 2 ^ (o % F.B)) false
          h₁ (fun j hj => by simpa using hrange j hj)
          (fun j hj => by rw [entry_eq hp hj]; exact entry_not_points hp hj)
        refine ⟨hown, .inl ?_⟩
        intro r hr
        refine (hfill r hr).trans ?_
        rw [hleaf r hr, if_neg ha0]
        simp only [← inRange_iff ho hv]
        by_cases hin : InRange v o r
        · obtain ⟨h1, h2⟩ := (inRange_iff ho hv).mp hin
          rw [if_pos hin, if_pos hin, entry_eq hp (by omega), shows, if_neg (entry_ne_zero hp _),
            sub_div ho hv]
        · rw [if_neg hin, if_neg hin]
    · simp only [update, hw, Option.some.injEq] at hup
      obtain rfl : m = m' := congrArg Prod.snd hup
      refine ⟨⟨own, h⟩, .inr ⟨by simpa using ht, rfl, ?_⟩⟩
      intro r hr
      exact hnone r (same_table ho hv Y hr)

end Update

end Mem

end Tukija.Pte
