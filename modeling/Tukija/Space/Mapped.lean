import Tukija.Pd.Exact
import Tukija.Space.Mem
import Tukija.Space.Slots

/-! The host page tables against the nodes of the memory spaces. -/
namespace Tukija.Space

open Tukija.Lib.Word Tukija.Lib.Radix Tukija.Mapdb Tukija.Pd

variable {θ : Type} {T : Tables θ} {s s' : MemState θ}

/-- The pages of `pd` from `lo` up to `hi` are found as `P` says and everything
else is found as before. -/
structure Rewrote (pd : PdId) (lo hi : Nat) (P : Nat → Option (Nat × Pte) → Prop)
    (s s' : MemState θ) : Prop where
  wild : s'.wild = s.wild
  other : ∀ q, q ≠ pd → s'.hpt q = s.hpt q
  out : ∀ q, q < 512 ^ 4 → ¬(lo ≤ q ∧ q < hi) →
    find 512 4 (s'.hpt pd) q = find 512 4 (s.hpt pd) q
  inn : ∀ q, lo ≤ q → q < hi → P q (find 512 4 (s'.hpt pd) q)

theorem Rewrote.mono {pd : PdId} {lo hi : Nat} {P P' : Nat → Option (Nat × Pte) → Prop}
    (h : Rewrote pd lo hi P s s') (hP : ∀ q r, lo ≤ q → q < hi → P q r → P' q r) :
    Rewrote pd lo hi P' s s' :=
  ⟨h.wild, h.other, h.out, fun q h1 h2 => hP q _ h1 h2 (h.inn q h1 h2)⟩

section Update

variable {v : Mword} {o : Nat}

theorem pow_split (o : Nat) : 2 ^ o = 512 ^ (o / 9) * 2 ^ (o % 9) := by
  rw [show (512 : Nat) = 2 ^ 9 from rfl, ← Nat.pow_mul, ← Nat.pow_add, Nat.div_add_mod]

theorem inside_aligned {q : Nat} (ho : o ≤ 26) (hv : Aligned o v) (hend : v.toNat + 2 ^ o ≤ 512 ^ 4)
    (hq : q < 512 ^ 4) :
    Inside 512 (o / 9) v.toNat (2 ^ (o % 9)) q (3 - o / 9) ↔
      v.toNat ≤ q ∧ q < v.toNat + 2 ^ o := by
  have hpos : 0 < 512 ^ (o / 9) := Nat.pow_pos (by decide)
  have hpow := pow_split o
  have htwo := Nat.two_pow_pos o
  have hlev : o / 9 + (3 - o / 9) + 1 = 4 := by omega
  obtain ⟨t, ht⟩ := hv
  have hdiv : v.toNat / 512 ^ (o / 9) = 2 ^ (o % 9) * t := by
    rw [ht, hpow, Nat.mul_assoc, Nat.mul_div_cancel_left _ hpos]
  have hvq : v.toNat = 512 ^ (o / 9) * (v.toNat / 512 ^ (o / 9)) := by
    rw [hdiv, ← Nat.mul_assoc, ← hpow, ht]
  have hroom : digit 512 (o / 9) v.toNat + 2 ^ (o % 9) ≤ 512 := by
    have hdvd : 2 ^ (o % 9) ∣ 512 := Nat.pow_dvd_pow 2 (show o % 9 ≤ 9 by omega)
    unfold digit
    rw [hdiv]
    apply add_le_of_dvd_of_lt _ hdvd (Nat.mod_lt _ (by decide))
    exact (Nat.dvd_mod_iff hdvd).mpr (Dvd.intro _ rfl)
  rw [inside_iff _ (by rw [hlev]; omega) (by rw [hlev]; exact hq) hroom]
  generalize v.toNat / 512 ^ (o / 9) = x at hvq
  rw [Nat.le_div_iff_mul_le hpos, Nat.div_lt_iff_lt_mul hpos, hvq, hpow, ← Nat.mul_add,
    Nat.mul_comm x, Nat.mul_comm (x + 2 ^ (o % 9))]

theorem hptUpdate_rewrote (pd : PdId) (p a : Mword) (up : Bool) (ho : o ≤ 26) (hv : Aligned o v)
    (hend : v.toNat + 2 ^ o ≤ 512 ^ 4)
    (hlev : ∀ l x, find 512 4 (s.hpt pd) v.toNat = some (l, x) → l ≤ o / 9) :
    Rewrote pd v.toNat (v.toNat + 2 ^ o) (fun q r => r = none ∨ a ≠ 0 ∧
      r = some (o / 9, ⟨p + BitVec.ofNat 64 (q - q % 512 ^ (o / 9) - v.toNat), a⟩)) s
        (s.hptUpdate T pd v o p a up).1 := by
  have h4 : o / 9 + (3 - o / 9) + 1 = 4 := by omega
  have hdvd : 512 ^ (o / 9) ∣ 2 ^ o := Dvd.intro _ (pow_split o).symm
  have htwo := Nat.two_pow_pos o
  unfold MemState.hptUpdate
  dsimp only
  split
  · -- no table: the pages were not mapped and are not
    rename_i hput
    refine ⟨rfl, fun _ _ => rfl, fun _ _ _ => rfl, ?_⟩
    intro q h1 h2
    have hin := (inside_aligned ho hv hend (by omega)).mpr ⟨h1, h2⟩
    left
    have := find_of_missing _ hput hin.1
    rwa [h4] at this
  · rename_i hput
    obtain ⟨m, x, hf, hm⟩ := find_of_broken _ hput
    rw [h4] at hf
    have := hlev m x hf
    omega
  · rename_i e hput
    have hfind := fun q => find_put _ hput q
    rw [h4] at hfind
    refine ⟨rfl, fun q hq => Function.update_of_ne hq _ _, ?_, ?_⟩
    · intro q hq hout
      dsimp only
      rw [Function.update_self, hfind,
        if_neg fun hin => hout ((inside_aligned ho hv hend hq).mp hin)]
    · intro q h1 h2
      have hin := (inside_aligned ho hv hend (by omega)).mpr ⟨h1, h2⟩
      dsimp only
      rw [Function.update_self, hfind, if_pos hin]
      by_cases ha : a = 0
      · left
        rw [if_neg (by simpa using ha), find_empty]
      · right
        have hoff : (digit 512 (o / 9) q - digit 512 (o / 9) v.toNat) * 512 ^ (o / 9) =
            q - q % 512 ^ (o / 9) - v.toNat := by
          have hmod := Nat.div_add_mod q (512 ^ (o / 9))
          rw [hin.digit_sub (by rw [h4]; omega) (by rw [h4]; omega), Nat.sub_mul,
            Nat.div_mul_cancel (hdvd.trans hv), Nat.mul_comm]
          omega
        rw [if_pos ha, find_leaf, hoff]
        exact ⟨ha, rfl⟩

end Update

/-- As `A` says, or as before if `c` allows that. -/
def OrSame (A : Nat → Option (Nat × Pte) → Prop) (c : Prop) (pd : PdId) (s : MemState θ) (q : Nat)
    (r : Option (Nat × Pte)) : Prop :=
  A q r ∨ c ∧ r = find 512 4 (s.hpt pd) q

theorem Rewrote.refl {A : Nat → Option (Nat × Pte) → Prop} {c : Prop} (pd : PdId) (lo hi : Nat)
    (hc : c) (s : MemState θ) : Rewrote pd lo hi (OrSame A c pd s) s s :=
  ⟨rfl, fun _ _ => rfl, fun _ _ _ => rfl, fun _ _ _ => Or.inr ⟨hc, rfl⟩⟩

theorem Rewrote.append {A : Nat → Option (Nat × Pte) → Prop} {c : Prop} {pd : PdId}
    {lo mid hi : Nat} {s1 s2 : MemState θ} (h1 : Rewrote pd lo mid (OrSame A c pd s) s s1)
    (h2 : Rewrote pd mid hi (OrSame A c pd s1) s1 s2) (hle : lo ≤ mid) (hmid : mid ≤ hi)
    (hhi : hi ≤ 512 ^ 4) : Rewrote pd lo hi (OrSame A c pd s) s s2 := by
  refine ⟨h2.wild.trans h1.wild, fun q hq => (h2.other q hq).trans (h1.other q hq), ?_, ?_⟩
  · intro q hq hout
    rw [h2.out q hq (by omega), h1.out q hq (by omega)]
  · intro q hlo hq
    by_cases hm : q < mid
    · rw [h2.out q (by omega) (by omega)]
      exact h1.inn q hlo hm
    · rcases h2.inn q (by omega) hq with h | ⟨hc, h⟩
      · exact Or.inl h
      · exact Or.inr ⟨hc, h.trans (h1.out q (by omega) (by omega))⟩

section Node

variable {x : Mdb} {r a : Mword}

def nodeLevel (T : Tables θ) (x : Mdb) : Nat := min x.nodeOrder.toNat T.ord / 9

/-- The entry that maps the page `q` for the node `x` with the attributes `a`. -/
def nodePte (T : Tables θ) (x : Mdb) (a : Mword) (q : Nat) : Pte where
  frame := x.nodePhys + BitVec.ofNat 64 (q - q % 512 ^ nodeLevel T x - x.nodeBase.toNat)
  attr := hwAttr a

/-- Nothing or the entry of `x`. -/
def MappedFor (T : Tables θ) (x : Mdb) (a : Mword) (q : Nat) (e : Option (Nat × Pte)) : Prop :=
  e = none ∨ a ≠ 0 ∧ e = some (nodeLevel T x, nodePte T x a q)

theorem hwAttr_eq_zero_iff (a : Mword) : hwAttr a = 0 ↔ a = 0 := by
  unfold hwAttr
  dsimp only
  by_cases ha : a = 0
  · simp [ha]
  · simp only [ha, iff_false]
    split
    · rw [if_pos]
      · intro h
        have := (BitVec.or_eq_zero_iff.mp h).2
        exact absurd this (by decide)
      · intro h
        exact absurd (BitVec.or_eq_zero_iff.mp h).2 (by decide)
    · intro h
      exact absurd (BitVec.or_eq_zero_iff.mp h).2 (by decide)

theorem outsideUser_eq_false_iff (hx : x.Natural) :
    MemState.outsideUser x = false ↔ x.top ≤ userPages.toNat := by
  have hend := hx.base.add_le hx.order_lt.le
  have hpos := Nat.two_pow_pos x.nodeOrder.toNat
  have hU := userPages.isLt
  have hsum := BitVec.toNat_add x.nodeBase (shl 1 x.nodeOrder)
  rw [toNat_shl_one hx.order_lt] at hsum
  unfold MemState.outsideUser Mdb.top
  simp only [Bool.or_eq_false_iff, decide_eq_false_iff_not]
  rw [BitVec.lt_def, BitVec.le_def, BitVec.le_def, hsum]
  rcases Nat.lt_or_ge (x.nodeBase.toNat + 2 ^ x.nodeOrder.toNat) (2 ^ 64) with hlt | hge
  · rw [Nat.mod_eq_of_lt hlt]
    omega
  · -- the sum wraps to zero
    have heq : x.nodeBase.toNat + 2 ^ x.nodeOrder.toNat = 2 ^ 64 := by omega
    rw [heq, Nat.mod_self]
    omega

theorem userPages_lt : userPages.toNat < 512 ^ 4 := by decide

/-- The entry of parts of `2 ^ ord` pages that maps the page `q` for the node `x`. -/
def partPte (x : Mdb) (a : Mword) (ord q : Nat) : Pte where
  frame := x.nodePhys + BitVec.ofNat 64 (q - q % 512 ^ (ord / 9) - x.nodeBase.toNat)
  attr := a

theorem treeParts_rewrote {ord : Nat} (h26 : ord ≤ 26) (hle : ord ≤ x.nodeOrder.toNat)
    (hx : x.Natural) (htop : x.top ≤ 512 ^ 4) (k i : Nat) (t : MemState θ × Bool)
    (hk : i + k ≤ 2 ^ (x.nodeOrder.toNat - ord))
    (hlev : ∀ q l y, x.nodeBase.toNat ≤ q → q < x.top → x.nodeBase.toNat + i * 2 ^ ord ≤ q →
      find 512 4 (t.1.hpt x.space) q = some (l, y) → l ≤ ord / 9) :
    Rewrote x.space (x.nodeBase.toNat + i * 2 ^ ord) (x.nodeBase.toNat + (i + k) * 2 ^ ord)
      (OrSame (fun q e => e = none ∨ a ≠ 0 ∧ e = some (ord / 9, partPte x a ord q)) (r = 0)
        x.space t.1) t.1 (MemState.treeParts T x r a ord k i t).1.1 := by
  have hsize : 2 ^ (x.nodeOrder.toNat - ord) * 2 ^ ord = 2 ^ x.nodeOrder.toNat := by
    rw [← Nat.pow_add, Nat.sub_add_cancel hle]
  have hpos := Nat.two_pow_pos ord
  have hmax : (i + k) * 2 ^ ord ≤ 2 ^ x.nodeOrder.toNat := by
    rw [← hsize]
    exact Nat.mul_le_mul_right _ hk
  unfold Mdb.top at htop
  induction k generalizing i t with
  | zero =>
    refine ⟨rfl, fun _ _ => rfl, fun _ _ _ => rfl, ?_⟩
    intro q h1 h2
    simp only [Nat.add_zero] at h2
    omega
  | succ k ih =>
    unfold MemState.treeParts
    split
    · rename_i h
      exact .refl _ _ _ h.1 t.1
    · dsimp only
      have hnext : (i + 1) * 2 ^ ord ≤ (i + (k + 1)) * 2 ^ ord :=
        Nat.mul_le_mul_right _ (by omega)
      have hone : (i + 1) * 2 ^ ord = i * 2 ^ ord + 2 ^ ord := by ring
      have hsmall : i * 2 ^ ord < 2 ^ 64 := by omega
      have hstart : (x.nodeBase + BitVec.ofNat 64 (i * 2 ^ ord)).toNat =
          x.nodeBase.toNat + i * 2 ^ ord := by
        rw [BitVec.toNat_add, BitVec.toNat_ofNat, Nat.mod_eq_of_lt hsmall]
        exact Nat.mod_eq_of_lt (by omega)
      have halign : Aligned ord (x.nodeBase + BitVec.ofNat 64 (i * 2 ^ ord)) := by
        unfold Aligned
        rw [hstart]
        exact Nat.dvd_add (hx.base.mono hle) (Dvd.intro_left _ rfl)
      have hpart := hptUpdate_rewrote (T := T) (s := t.1) x.space
        (x.nodePhys + BitVec.ofNat 64 (i * 2 ^ ord)) a (decide (r = 0))
        h26 halign (by rw [hstart]; omega) (by
          intro l y hf
          rw [hstart] at hf
          exact hlev _ l y (by omega) (by unfold Mdb.top; omega) le_rfl hf)
      rw [hstart] at hpart
      generalize MemState.hptUpdate T x.space _ ord _ a _ t.1 = u at hpart
      have h1 : Rewrote x.space (x.nodeBase.toNat + i * 2 ^ ord)
          (x.nodeBase.toNat + (i + 1) * 2 ^ ord)
          (OrSame (fun q e => e = none ∨ a ≠ 0 ∧ e = some (ord / 9, partPte x a ord q)) (r = 0)
            x.space t.1) t.1 u.1 := by
        rw [hone, ← Nat.add_assoc]
        apply hpart.mono
        rintro q e hq - (rfl | ⟨ha, rfl⟩)
        · exact Or.inl (Or.inl rfl)
        · refine Or.inl (Or.inr ⟨ha, ?_⟩)
          have hge : x.nodeBase.toNat + i * 2 ^ ord ≤ q - q % 512 ^ (ord / 9) := by
            have hdvd : 512 ^ (ord / 9) ∣ 2 ^ ord := Dvd.intro _ (pow_split ord).symm
            have := Nat.div_add_mod q (512 ^ (ord / 9))
            rw [← hstart] at hq ⊢
            have hle := Nat.mul_le_mul_left (512 ^ (ord / 9))
              (Nat.div_le_div_right (c := 512 ^ (ord / 9)) hq)
            rw [Nat.mul_div_cancel' (hdvd.trans halign)] at hle
            omega
          unfold partPte
          rw [BitVec.add_assoc, ← BitVec.ofNat_add]
          congr 5
          omega
      have h2 := ih (i + 1) (u.1, t.2 || u.2) (by omega) (by
        intro q l y hlo hhi hge hf
        have hout : ¬(x.nodeBase.toNat + i * 2 ^ ord ≤ q ∧
            q < x.nodeBase.toNat + (i + 1) * 2 ^ ord) := by omega
        dsimp only at hf
        unfold Mdb.top at hhi
        rw [h1.out q (by omega) hout] at hf
        exact hlev q l y hlo (by unfold Mdb.top; omega) (by omega) hf)
        (by rw [show i + 1 + k = i + (k + 1) by omega]; exact hmax)
      rw [show i + 1 + k = i + (k + 1) by omega] at h2
      exact h1.append h2 (by omega) (by omega) (by omega)

theorem mapParts_eq (ord k i : Nat) (t : MemState θ × Bool) :
    MemState.mapParts T x r a ord k i t = MemState.treeParts T x r (hwAttr a) ord k i t := by
  induction k generalizing i t with
  | zero => rfl
  | succ k ih =>
    unfold MemState.mapParts MemState.treeParts
    split
    · rfl
    · exact ih _ _

theorem mapParts_rewrote {ord : Nat} (hord : ord = min x.nodeOrder.toNat T.ord) (hx : x.Natural)
    (htop : x.top ≤ userPages.toNat) (k i : Nat) (t : MemState θ × Bool)
    (hk : i + k ≤ 2 ^ (x.nodeOrder.toNat - ord))
    (hlev : ∀ q l y, x.nodeBase.toNat ≤ q → q < x.top → x.nodeBase.toNat + i * 2 ^ ord ≤ q →
      find 512 4 (t.1.hpt x.space) q = some (l, y) → l ≤ nodeLevel T x) :
    Rewrote x.space (x.nodeBase.toNat + i * 2 ^ ord) (x.nodeBase.toNat + (i + k) * 2 ^ ord)
      (OrSame (MappedFor T x a) (r = 0) x.space t.1) t.1
        (MemState.mapParts T x r a ord k i t).1.1 := by
  have hU := userPages_lt
  have h26 := T.ord_le
  have hlevel : nodeLevel T x = ord / 9 := by
    unfold nodeLevel
    rw [hord]
  rw [mapParts_eq]
  rw [hlevel] at hlev
  apply (treeParts_rewrote (by omega) (by omega) hx (by omega) k i t hk hlev).mono
  rintro q e - - ((rfl | ⟨ha, rfl⟩) | hsame)
  · exact Or.inl (Or.inl rfl)
  · refine Or.inl (Or.inr ⟨fun h => ha ((hwAttr_eq_zero_iff a).mpr h), ?_⟩)
    unfold nodePte partPte
    rw [hlevel]
  · exact Or.inr hsame

theorem update_rewrote (hx : x.Natural)
    (hlev : x.top ≤ userPages.toNat → ∀ q l y, x.nodeBase.toNat ≤ q → q < x.top →
      find 512 4 (s.hpt x.space) q = some (l, y) → l ≤ nodeLevel T x) :
    Rewrote x.space x.nodeBase.toNat x.top
      (OrSame (fun q e => x.top ≤ userPages.toNat ∧
        MappedFor T x (MemState.writeThrough x (x.nodeAttr &&& ~~~r)) q e)
        (r = 0 ∨ userPages.toNat < x.top) x.space s) s (MemState.update T x r s).1 := by
  unfold MemState.update
  dsimp only
  split
  · rename_i h
    exact ⟨rfl, fun _ _ => rfl, fun _ _ _ => rfl, fun _ _ _ => Or.inr ⟨Or.inl h.1, rfl⟩⟩
  · split
    · rename_i hout
      have htop : userPages.toNat < x.top := by
        by_contra h
        rw [(outsideUser_eq_false_iff hx).mpr (by omega)] at hout
        simp at hout
      exact ⟨rfl, fun _ _ => rfl, fun _ _ _ => rfl, fun _ _ _ => Or.inr ⟨Or.inr htop, rfl⟩⟩
    · rename_i hout
      have htop := (outsideUser_eq_false_iff hx).mp (Bool.eq_false_iff.mpr hout)
      have hparts := mapParts_rewrote (T := T) (r := r)
        (a := MemState.writeThrough x (x.nodeAttr &&& ~~~r)) rfl hx htop
        (2 ^ (x.nodeOrder.toNat - min x.nodeOrder.toNat T.ord)) 0
        ({ s with quota := (T.others x r s.quota).1 }, (T.others x r s.quota).2.1)
        (by omega) (fun q l y h1 h2 _ hf => hlev htop q l y h1 h2 hf)
      rw [Nat.zero_add, ← Nat.pow_add, Nat.sub_add_cancel (Nat.min_le_left _ _), Nat.zero_mul,
        Nat.add_zero] at hparts
      generalize MemState.mapParts T x r _ _ _ 0 _ = res at hparts ⊢
      have hres : Rewrote x.space x.nodeBase.toNat x.top
          (OrSame (fun q e => x.top ≤ userPages.toNat ∧
            MappedFor T x (MemState.writeThrough x (x.nodeAttr &&& ~~~r)) q e)
            (r = 0 ∨ userPages.toNat < x.top) x.space s) s res.1.1 := by
        refine ⟨hparts.wild, hparts.other, hparts.out, ?_⟩
        intro q h1 h2
        rcases hparts.inn q h1 h2 with h | ⟨h, h'⟩
        · exact Or.inl ⟨htop, h⟩
        · exact Or.inr ⟨Or.inl h, h'⟩
      split
      · exact hres
      · split
        · exact ⟨hres.wild, hres.other, hres.out, hres.inn⟩
        · exact hres

end Node

section Coverage

variable {K : PdId → Nat → Pte → Prop} {st st' : State (MemState θ)} {m n : NodeId} {pd : PdId}
  {q l : Nat} {y : Pte}

/-- The entry `y` on level `l` is what maps the page `q` for the node `x`. -/
structure MapsAt (T : Tables θ) (x : Mdb) (q l : Nat) (y : Pte) : Prop where
  low : x.nodeBase.toNat ≤ q
  high : q < x.top
  user : x.top ≤ userPages.toNat
  attr : x.nodeAttr ≠ 0
  level : l = nodeLevel T x
  pte : y = nodePte T x (MemState.writeThrough x x.nodeAttr) q

theorem MapsAt.of_same {x x' : Mdb} (h : MapsAt T x q l y) (hs : SameNode x' x)
    (ha : x'.nodeAttr = x.nodeAttr) : MapsAt T x' q l y := by
  have htop : x'.top = x.top := by
    unfold Mdb.top
    rw [hs.base, hs.order]
  have hlevel : nodeLevel T x' = nodeLevel T x := by
    unfold nodeLevel
    rw [hs.order]
  refine ⟨?_, ?_, ?_, ?_, ?_, ?_⟩
  · rw [hs.base]
    exact h.low
  · rw [htop]
    exact h.high
  · rw [htop]
    exact h.user
  · rw [ha]
    exact h.attr
  · rw [hlevel]
    exact h.level
  · rw [h.pte]
    unfold nodePte MemState.writeThrough
    rw [hlevel, hs.phys, hs.base, hs.sub, ha]

/-- The page `q` of `pd` is not mapped, or mapped for a node, or a page that `K`
accounts for. -/
def Accounted (T : Tables θ) (K : PdId → Nat → Pte → Prop) (st : State (MemState θ)) (pd : PdId)
    (q : Nat) : Prop :=
  ∀ l y, find 512 4 (st.space.hpt pd) q = some (l, y) →
    (∃ n ∈ st.tree pd, MapsAt T (st.mdb n) q l y) ∨ l = 0 ∧ K pd q y

/-- All user pages are accounted for, and no memory but that of tables was
written to. -/
structure Sound (T : Tables θ) (K : PdId → Nat → Pte → Prop) (st : State (MemState θ)) : Prop where
  wild : st.space.wild = false
  page : ∀ pd q, q < userPages.toNat → Accounted T K st pd q

def SameTables (s s' : MemState θ) : Prop := s'.hpt = s.hpt ∧ s'.wild = s.wild

theorem memSpace_frame : (memSpace T).Frame SameTables where
  refl _ := ⟨rfl, rfl⟩
  trans _ _ _ h h' := ⟨h'.1.trans h.1, h'.2.trans h.2⟩
  alloc _ _ := ⟨rfl, rfl⟩
  destroy _ _ := ⟨rfl, rfl⟩

theorem eq_of_covers (hw : Wf st) (hn : n ∈ st.tree pd) (hm : m ∈ st.tree pd)
    (hq : q < userPages.toNat) (hn1 : (st.mdb n).nodeBase.toNat ≤ q) (hn2 : q < (st.mdb n).top)
    (hm1 : (st.mdb m).nodeBase.toNat ≤ q) (hm2 : q < (st.mdb m).top) : n = m := by
  have hU := userPages.isLt
  have htoNat : (BitVec.ofNat 64 q).toNat = q := by
    rw [BitVec.toNat_ofNat]
    exact Nat.mod_eq_of_lt (by omega)
  have h1 : st.lookup pd (BitVec.ofNat 64 q) false = some n :=
    hw.lookup_iff.mpr ⟨hn, by rw [htoNat]; exact hn1, by rw [htoNat]; exact hn2⟩
  have h2 : st.lookup pd (BitVec.ofNat 64 q) false = some m :=
    hw.lookup_iff.mpr ⟨hm, by rw [htoNat]; exact hm1, by rw [htoNat]; exact hm2⟩
  exact Option.some.inj (h1.symm.trans h2)

/-- `x` as `demote_node` leaves it. -/
def strip (x : Mdb) (r : Mword) : Mdb := { x with nodeAttr := x.nodeAttr &&& ~~~r }

theorem Sound.update {x : Mdb} {r : Mword} {s : MemState θ} (h : Sound T K st) (hx : x.Natural)
    (hs : SameTables st.space s) (hsp : st'.space = (MemState.update T x r s).1)
    (hold : ∀ q l y, q < userPages.toNat → x.nodeBase.toNat ≤ q → q < x.top →
      find 512 4 (st.space.hpt x.space) q = some (l, y) → MapsAt T x q l y ∨ l = 0 ∧ K x.space q y)
    (hkeep : ∀ pd n q l y, n ∈ st.tree pd → q < userPages.toNat →
      ¬(pd = x.space ∧ x.nodeBase.toNat ≤ q ∧ q < x.top) → MapsAt T (st.mdb n) q l y →
        ∃ n ∈ st'.tree pd, MapsAt T (st'.mdb n) q l y)
    (hnew : ∀ q l y, MapsAt T (strip x r) q l y →
      ∃ n ∈ st'.tree x.space, MapsAt T (st'.mdb n) q l y) : Sound T K st' := by
  have hU := userPages_lt
  have hlev : x.top ≤ userPages.toNat → ∀ q l y, x.nodeBase.toNat ≤ q → q < x.top →
      find 512 4 (s.hpt x.space) q = some (l, y) → l ≤ nodeLevel T x := by
    intro htop q l y h1 h2 hf
    rw [hs.1] at hf
    rcases hold q l y (by omega) h1 h2 hf with hat | ⟨rfl, -⟩
    · exact hat.level.le
    · exact Nat.zero_le _
  have hup := update_rewrote (T := T) (r := r) hx hlev
  rw [← hsp] at hup
  refine ⟨hup.wild.trans (hs.2.trans h.wild), ?_⟩
  intro pd q hq l y hf
  by_cases hin : pd = x.space ∧ x.nodeBase.toNat ≤ q ∧ q < x.top
  · obtain ⟨rfl, h1, h2⟩ := hin
    have hstill : find 512 4 (st'.space.hpt x.space) q = find 512 4 (s.hpt x.space) q →
        MapsAt T x q l y ∨ l = 0 ∧ K x.space q y := by
      intro heq
      apply hold q l y hq h1 h2
      rw [← hs.1, ← heq]
      exact hf
    rcases hup.inn q h1 h2 with ⟨htop, hnone | ⟨ha, hmap⟩⟩ | ⟨hr | htop, heq⟩
    · rw [hf] at hnone
      simp at hnone
    · rw [hf] at hmap
      obtain ⟨hl, hy⟩ := Prod.mk.inj (Option.some.inj hmap)
      refine Or.inl (hnew q l y ⟨h1, h2, htop, ?_, hl, hy⟩)
      intro h0
      apply ha
      have h0' : x.nodeAttr &&& ~~~r = 0 := h0
      rw [h0']
      simp [MemState.writeThrough]
    · -- nothing was added: memory ran out
      subst hr
      rcases hstill heq with hat | hK
      · refine Or.inl (hnew q l y ?_)
        unfold strip
        rw [and_not_zero]
        exact hat
      · exact Or.inr hK
    · rcases hstill heq with hat | hK
      · have := hat.user
        omega
      · exact Or.inr hK
  · have hsame : find 512 4 (st'.space.hpt pd) q = find 512 4 (st.space.hpt pd) q := by
      by_cases hpd : pd = x.space
      · subst hpd
        rw [hup.out q (by omega) fun hr => hin ⟨rfl, hr⟩, hs.1]
      · rw [hup.other pd hpd, hs.1]
    rw [hsame] at hf
    rcases h.page pd q hq l y hf with ⟨n, hn, hat⟩ | hK
    · exact Or.inl (hkeep pd n q l y hn hq hin hat)
    · exact Or.inr hK

theorem Sound.quiet (h : Sound T K st) (hw : Wf st) (hq : Quiet SameTables st st') :
    Sound T K st' := by
  refine ⟨hq.space.2.trans h.wild, ?_⟩
  intro pd q hU l y hf
  rw [hq.space.1] at hf
  rcases h.page pd q hU l y hf with ⟨n, hn, hat⟩ | hK
  · refine Or.inl ⟨n, by rw [hq.tree]; exact hn, ?_⟩
    rw [hq.mdb n (hw.mem pd n hn).2]
    exact hat
  · exact Or.inr hK

theorem Added.mapsAt (ha : Added st st' n) (hw : Wf st) (hm : m ∈ st.tree pd)
    (hat : MapsAt T (st.mdb m) q l y) : ∃ m ∈ st'.tree pd, MapsAt T (st'.mdb m) q l y := by
  have hold := ha.old m (hw.mem pd m hm).2
  refine ⟨m, ?_, hat.of_same hold.1 hold.2.1⟩
  by_cases hpd : pd = (st'.mdb n).space
  · subst hpd
    exact (ha.tree m).mpr (Or.inr hm)
  · rw [ha.tree_ne pd hpd]
    exact hm

theorem Sound.rooted (h : Sound T K st) (hw : Wf st) (hr : Rooted SameTables st st' n) :
    Sound T K st' := by
  refine ⟨hr.space.2.trans h.wild, ?_⟩
  intro pd q hU l y hf
  rw [hr.space.1] at hf
  rcases h.page pd q hU l y hf with ⟨m, hm, hat⟩ | hK
  · exact Or.inl (Added.mapsAt hr.toAdded hw hm hat)
  · exact Or.inr hK

theorem Sound.granted (h : Sound T K st) (hw : Wf st)
    (hg : Granted (memSpace T) SameTables st st' m n) : Sound T K st' := by
  obtain ⟨s, hs, hsp⟩ := hg.space
  have hw' := hg.wf hw
  have hnew : n ∈ st'.tree (st'.mdb n).space := (hg.tree n).mpr (Or.inl rfl)
  apply h.update (x := st'.mdb n) (r := 0) hg.natural hs hsp
  · -- no other node covers a page of the new one
    intro q l y hU h1 h2 hf
    rcases h.page _ q hU l y hf with ⟨m', hm', hat⟩ | hK
    · exfalso
      have hold := hg.old m' (hw.mem _ m' hm').2
      have hat' := hat.of_same hold.1 hold.2.1
      have hmem : m' ∈ st'.tree (st'.mdb n).space := (hg.tree m').mpr (Or.inr hm')
      have heq := eq_of_covers hw' hmem hnew hU hat'.low hat'.high h1 h2
      have := (hw.mem _ m' hm').2
      rw [heq, hg.fresh] at this
      exact absurd this (lt_irrefl _)
    · exact Or.inr hK
  · intro pd m' q l y hm' _ _ hat
    exact Added.mapsAt hg.toAdded hw hm' hat
  · intro q l y hat
    unfold strip at hat
    rw [and_not_zero] at hat
    exact ⟨n, hnew, hat⟩

theorem Sound.demoted {r : Mword} (h : Sound T K st) (hw : Wf st) (hd : Demoted st st' n r)
    (hsp : st'.space = (MemState.update T (st.mdb n) r st.space).1) : Sound T K st' := by
  apply h.update (x := st.mdb n) (hw.natural n hd.live) ⟨rfl, rfl⟩ hsp
  · intro q l y hU h1 h2 hf
    rcases h.page _ q hU l y hf with ⟨m, hm, hat⟩ | hK
    · have heq := eq_of_covers hw hm hd.live hU hat.low hat.high h1 h2
      rw [heq] at hat
      exact Or.inl hat
    · exact Or.inr hK
  · intro pd m q l y hm hU hout hat
    have hmn : m ≠ n := by
      rintro rfl
      exact hout ⟨(hw.mem pd m hm).1.symm, hat.low, hat.high⟩
    refine ⟨m, by rw [hd.tree]; exact hm, hat.of_same (hd.node m).1 ?_⟩
    rw [hd.attr, if_neg hmn]
  · intro q l y hat
    refine ⟨n, by rw [hd.tree]; exact hd.live, hat.of_same ?_ ?_⟩
    · exact ⟨(hd.node n).1.dpth, (hd.node n).1.space, (hd.node n).1.phys, (hd.node n).1.base,
        (hd.node n).1.order, (hd.node n).1.type, (hd.node n).1.sub⟩
    · rw [hd.attr, if_pos rfl]
      rfl

theorem Dropped.mapsAt {leaf : Bool} (hd : Dropped leaf st st' n) (hw : Wf st)
    (hm : m ∈ st.tree pd) (hat : MapsAt T (st.mdb m) q l y) :
    ∃ m ∈ st'.tree pd, MapsAt T (st'.mdb m) q l y := by
  have hmn : m ≠ n := by
    rintro rfl
    exact hat.attr hd.attr
  refine ⟨m, ?_, hat.of_same (hd.node m).1 (hd.node m).2⟩
  have hlive := (hd.live_iff hw m).mpr ⟨hmn, hw.live_of_mem hm⟩
  unfold State.Live at hlive
  rwa [(hd.node m).1.space, (hw.mem pd m hm).1] at hlive

theorem Sound.dropped {leaf : Bool} (h : Sound T K st) (hw : Wf st) (hd : Dropped leaf st st' n) :
    Sound T K st' := by
  refine ⟨by rw [hd.space]; exact h.wild, ?_⟩
  intro pd q hU l y hf
  rw [hd.space] at hf
  rcases h.page pd q hU l y hf with ⟨m, hm, hat⟩ | hK
  · exact Or.inl (Dropped.mapsAt hd hw hm hat)
  · exact Or.inr hK

theorem Sound.effect {G L : State (MemState θ) → NodeId → Prop} (hw : Wf st) (h : Sound T K st)
    (he : Effect (memSpace T) SameTables G L (fun _ _ => False) st st') : Sound T K st' := by
  cases he with
  | quiet hq => exact h.quiet hw hq
  | granted m n _ hg => exact h.granted hw hg
  | rooted n hr => exact h.rooted hw hr
  | demoted n r hd hs => exact h.demoted hw hd hs
  | stripped n hu _ _ => exact hu.elim
  | unlinked n hd => exact h.dropped hw hd
  | lifted n _ _ hd => exact h.dropped hw hd

end Coverage

section Threads

variable {K K' : PdId → Nat → Pte → Prop} {st st' : State (MemState θ)} {pd : PdId} {u p a : Mword}

/-- The page of the address `u` is not part of a larger page of `pd`. -/
def NoSuperpage (st : State (MemState θ)) (pd : PdId) (u : Mword) : Prop :=
  ∀ l x, find 512 4 (st.space.hpt pd) (shr u 12).toNat = some (l, x) → l = 0

theorem shr_page (u : Mword) : (shr u 12).toNat = u.toNat / 2 ^ 12 := by
  unfold shr
  rw [BitVec.toNat_ushiftRight, Nat.shiftRight_eq_div_pow]
  rfl

theorem page_lt (hu : utcbValid u = true) : (shr u 12).toNat < userPages.toNat := by
  unfold utcbValid at hu
  simp only [Bool.and_eq_true, decide_eq_true_eq] at hu
  have h : u.toNat < 0x7fffc0000000 := BitVec.lt_def.mp hu.1
  rw [shr_page, show userPages.toNat = 0x7fffc0000 from rfl]
  omega

theorem insertPage_rewrote (T : Tables θ) (p a : Mword) (hu : utcbValid u = true)
    (hpage : NoSuperpage st pd u) :
    Rewrote pd (shr u 12).toNat ((shr u 12).toNat + 1)
      (fun _ r => r = none ∨ a ≠ 0 ∧ r = some (0, ⟨p, a⟩)) st.space
        (insertPage T pd u p a st).space := by
  have hlt := page_lt hu
  have hU := userPages_lt
  have h := hptUpdate_rewrote (T := T) (s := st.space) (v := shr u 12) (o := 0) pd p a true
    (by omega) (aligned_zero _) (by omega) (fun l x hf => (hpage l x hf).le)
  apply h.mono
  rintro q r h1 h2 (rfl | ⟨ha, rfl⟩)
  · exact Or.inl rfl
  · right
    refine ⟨ha, ?_⟩
    have hq : q - q % 512 ^ (0 / 9) - (shr u 12).toNat = 0 := by
      rw [show q % 512 ^ (0 / 9) = 0 from Nat.mod_one q]
      omega
    rw [hq]
    simp

/-- A page that is accounted for afterwards is mapped or unmapped; all others
have been accounted for before. -/
theorem insertPage_sound (hwild : st.space.wild = false)
    (hrest : ∀ pd' q, q < userPages.toNat → ¬(pd' = pd ∧ q = (shr u 12).toNat) →
      Accounted T K st pd' q)
    (hK : ∀ pd' q y, ¬(pd' = pd ∧ q = (shr u 12).toNat) → K pd' q y → K' pd' q y)
    (hu : utcbValid u = true) (hpage : NoSuperpage st pd u)
    (hnew : a ≠ 0 → K' pd (shr u 12).toNat ⟨p, a⟩) : Sound T K' (insertPage T pd u p a st) := by
  have hr := insertPage_rewrote T p a hu hpage
  have hU := userPages_lt
  refine ⟨hr.wild.trans hwild, ?_⟩
  intro pd' q hq l y hf
  by_cases hin : pd' = pd ∧ q = (shr u 12).toNat
  · obtain ⟨rfl, rfl⟩ := hin
    rcases hr.inn _ le_rfl (Nat.lt_succ_self _) with hnone | ⟨ha, hsome⟩
    · rw [hf] at hnone
      simp at hnone
    · rw [hf] at hsome
      obtain ⟨hl, hy⟩ := Prod.mk.inj (Option.some.inj hsome)
      rw [hy]
      exact Or.inr ⟨hl, hnew ha⟩
  · have hsame : find 512 4 (st.space.hpt pd') q = some (l, y) := by
      by_cases hpd : pd' = pd
      · subst hpd
        rw [← hr.out q (by omega) fun h => hin ⟨rfl, by omega⟩]
        exact hf
      · rw [← hr.other pd' hpd]
        exact hf
    rcases hrest pd' q hq hin l y hsame with hat | ⟨hl, hk⟩
    · exact Or.inl hat
    · exact Or.inr ⟨hl, hK _ _ _ hin hk⟩

/-- Taking reading and writing away from `x` does not show in the table, or no
page of it but that of `u` is mapped for it. -/
def Detachable (T : Tables θ) (st : State (MemState θ)) (pd : PdId) (u : Mword) (x : Mdb) : Prop :=
  hwAttr (MemState.writeThrough x (x.nodeAttr &&& ~~~0x3)) =
      hwAttr (MemState.writeThrough x x.nodeAttr) ∨
    ∀ q l y, q ≠ (shr u 12).toNat → find 512 4 (st.space.hpt pd) q = some (l, y) →
      ¬MapsAt T x q l y

theorem writeThrough_eq_zero_iff (x : Mdb) (a : Mword) : MemState.writeThrough x a = 0 ↔ a = 0 := by
  unfold MemState.writeThrough
  split
  · rename_i h
    simp only [h.2, iff_false]
    intro h0
    exact h.2 (BitVec.or_eq_zero_iff.mp h0).1
  · exact Iff.rfl

theorem strip_mapsAt {x : Mdb} {q l : Nat} {y : Pte}
    (heq : hwAttr (MemState.writeThrough x (x.nodeAttr &&& ~~~0x3)) =
      hwAttr (MemState.writeThrough x x.nodeAttr)) (hat : MapsAt T x q l y) :
    MapsAt T (strip x 0x3) q l y := by
  refine ⟨hat.low, hat.high, hat.user, ?_, hat.level, ?_⟩
  · intro h0
    have h0' : x.nodeAttr &&& ~~~0x3 = 0 := h0
    rw [h0', (writeThrough_eq_zero_iff x 0).mpr rfl, (hwAttr_eq_zero_iff 0).mpr rfl] at heq
    exact hat.attr ((writeThrough_eq_zero_iff _ _).mp ((hwAttr_eq_zero_iff _).mp heq.symm))
  · rw [hat.pte]
    unfold nodePte
    rw [← heq]
    rfl

/-- `remove_utcb` touches no table; the pages that it leaves unaccounted for
are that of the UTCB at most. -/
theorem removeUtcb_accounted (h : Sound T K st) (hw : Wf st) (hu0 : u ≠ 0)
    (hD : ∀ n, st.lookup pd (shr u 12) false = some n → Detachable T st pd u (st.mdb n)) :
    (removeUtcb pd u st).space = st.space ∧ Wf (removeUtcb pd u st) ∧
      ∀ pd' q, q < userPages.toNat → ¬(pd' = pd ∧ q = (shr u 12).toNat) →
        Accounted T K (removeUtcb pd u st) pd' q := by
  unfold removeUtcb
  rw [if_neg hu0]
  split
  · exact ⟨rfl, hw, fun pd' q hq _ => h.page pd' q hq⟩
  · rename_i n hn
    have hmem := lookup_mem hn
    have hlive := hw.live_of_mem hmem
    have hd : Demoted st { st with mdb := demoteNode st.mdb n 0x3 } n 0x3 := strip_demoted hlive
    have hself : demoteNode st.mdb n 0x3 n = strip (st.mdb n) 0x3 := Heap.set_self _ _ _
    have hsp : ({ st with mdb := demoteNode st.mdb n 0x3 } : State (MemState θ)).space = st.space :=
      rfl
    have hmap : ∀ pd' q l y, ¬(pd' = pd ∧ q = (shr u 12).toNat) →
        find 512 4 (st.space.hpt pd') q = some (l, y) → ∀ m ∈ st.tree pd',
          MapsAt T (st.mdb m) q l y → MapsAt T (demoteNode st.mdb n 0x3 m) q l y := by
      intro pd' q l y hne hf m hm hat
      by_cases hmn : m = n
      · subst hmn
        have hpd : pd' = pd := (hw.mem pd' m hm).1.symm.trans (hw.mem pd m hmem).1
        subst hpd
        rcases hD m hn with heq | hnone
        · rw [hself]
          exact strip_mapsAt heq hat
        · exact absurd hat (hnone q l y (fun h => hne ⟨rfl, h⟩) hf)
      · have hattr := hd.attr m
        rw [if_neg hmn] at hattr
        exact hat.of_same (hd.node m).1 hattr
    generalize hst1 : ({ st with mdb := demoteNode st.mdb n 0x3 } : State (MemState θ)) = st1
      at hd hsp
    have hw1 := hd.wf hw
    have hlive1 := (hd.live_iff n).mpr hlive
    have hacc : ∀ pd' q, q < userPages.toNat → ¬(pd' = pd ∧ q = (shr u 12).toNat) →
        Accounted T K st1 pd' q := by
      intro pd' q hq hne l y hf
      rw [hsp] at hf
      rcases h.page pd' q hq l y hf with ⟨m, hm, hat⟩ | hk
      · refine Or.inl ⟨m, by rw [hd.tree]; exact hm, ?_⟩
        rw [← hst1]
        exact hmap pd' q l y hne hf m hm hat
      · exact Or.inr hk
    by_cases hc : (st1.mdb n).nodeAttr = 0 ∧
        (true = true → (st1.mdb (st1.mdb.next n)).dpth ≤ (st1.mdb n).dpth)
    · have hdrop := remove_dropped hw1 hlive1 hc.1 hc.2
      refine ⟨hdrop.space.trans hsp, hdrop.wf hw1, ?_⟩
      intro pd' q hq hne l y hf
      rw [hdrop.space] at hf
      rcases hacc pd' q hq hne l y hf with ⟨m, hm, hat⟩ | hk
      · exact Or.inl (Dropped.mapsAt hdrop hw1 hm hat)
      · exact Or.inr hk
    · rw [remove_eq_self hc]
      exact ⟨hsp, hw1, hacc⟩

end Threads

/-- The calls that are about memory: delegation, revocation and the regions that
the kernel starts out with. -/
def isMemOp : Op → Bool
  | .delegate .. => true
  | .revoke .. => true
  | .insertRoot pd .. => pd == kern
  | .removeUtcb .. => false

/-- The states that calls and the creation and destruction of execution contexts
lead to, with `C` and `D` holding of the latter.  The first pages are those of
the cells that exist; in between, memory may change as long as no table does. -/
inductive MemReach (T : Tables θ) (C D : Machine θ → Ec → Prop) : Machine θ → Prop where
  | boot (space : MemState θ) (cips : List (PdId × Nat)) (hwild : space.wild = false)
      (h : ∀ pd q l y, q < userPages.toNat → find 512 4 (space.hpt pd) q = some (l, y) →
        l = 0 ∧ (pd, q) ∈ cips) : MemReach T C D ⟨boot space, [], cips⟩
  | env {s : Machine θ} {space : MemState θ} (oom iommu preemption : Bool) (h : MemReach T C D s)
      (he : SameTables s.pds.space space) :
      MemReach T C D { s with pds := { s.pds with
        space := space, oom := oom, iommu := iommu, preemption := preemption } }
  | call {s : Machine θ} {st : State (MemState θ)} (op : Op) (fuel : Nat) (h : MemReach T C D s)
      (hop : isMemOp op = true) (hnat : op.Natural)
      (he : exec (memSpace T) fuel op s.pds = some st) : MemReach T C D { s with pds := st }
  | create {s : Machine θ} (e : Ec) (h : MemReach T C D s) (hC : C s e) :
      MemReach T C D (createEc T e s)
  | destroy {s : Machine θ} (e : Ec) (h : MemReach T C D s) (he : e ∈ s.ecs) (hD : D s e) :
      MemReach T C D (destroyEc T e s)

/-- No larger page is in the way of the UTCB. -/
def CreatesSafely (s : Machine θ) (e : Ec) : Prop :=
  utcbValid e.utcb = true → e.utcb ≠ 0 → NoSuperpage s.pds e.pd e.utcb

/-- No larger page is in the way of the UTCB, and the node that `remove_utcb`
finds is as good without the rights it takes away, or mapped nowhere else. -/
def DestroysSafely (T : Tables θ) (s : Machine θ) (e : Ec) : Prop :=
  e.utcb ≠ 0 → NoSuperpage s.pds e.pd e.utcb ∧
    ∀ n, s.pds.lookup e.pd (shr e.utcb 12) false = some n →
      Detachable T s.pds e.pd e.utcb (s.pds.mdb n)

section Machine

variable {s : Machine θ}

/-- The UTCB of a live execution context, or the page of a cell. -/
def KernelPage (ecs : List Ec) (cips : List (PdId × Nat)) (pd : PdId) (q : Nat) (y : Pte) : Prop :=
  (∃ e ∈ ecs, e.utcb ≠ 0 ∧ e.pd = pd ∧ e.page = q ∧ y.frame = e.frame) ∨ (pd, q) ∈ cips

structure MachineInv (T : Tables θ) (s : Machine θ) : Prop where
  wf : Wf s.pds
  valid : ∀ e ∈ s.ecs, utcbValid e.utcb = true
  sound : Sound T (KernelPage s.ecs s.cips) s.pds

theorem Sound.mono {K K' : PdId → Nat → Pte → Prop} {st : State (MemState θ)} (h : Sound T K st)
    (hK : ∀ pd q y, K pd q y → K' pd q y) : Sound T K' st := by
  refine ⟨h.wild, ?_⟩
  intro pd q hq l y hf
  rcases h.page pd q hq l y hf with hat | ⟨hl, hk⟩
  · exact Or.inl hat
  · exact Or.inr ⟨hl, hK _ _ _ hk⟩

theorem MachineInv.exec {op : Op} {fuel : Nat} {st : State (MemState θ)} (h : MachineInv T s)
    (hop : isMemOp op = true) (hnat : op.Natural)
    (he : exec (memSpace T) fuel op s.pds = some st) : MachineInv T { s with pds := st } := by
  have hm : Meets (memSpace T) (fun _ _ => True) (fun _ _ => True) (fun _ _ => False) fuel op
      s.pds := by
    cases op with
    | delegate this snd sndBase rcvBase ord attr sub =>
      exact ⟨hnat.1, hnat.2.1, hnat.2.2, walkAll_of_forall (fun _ _ _ _ _ => trivial) _ _ _⟩
    | revoke pd base ord attr self kim => exact walkAll_of_forall (fun _ _ _ _ _ => trivial) _ _ _
    | insertRoot pd phys base order attr type => exact hnat
    | removeUtcb pd b => simp [isMemOp] at hop
  have hsteps := exec_steps memSpace_frame (fun _ _ _ _ _ _ h => h) h.wf hm he
  obtain ⟨hw, hs⟩ := hsteps.invariant (fun _ _ hw hs he => Sound.effect hw hs he) h.wf h.sound
  exact ⟨hw, h.valid, hs⟩

theorem MachineInv.create {e : Ec} (h : MachineInv T s) (hC : CreatesSafely s e) :
    MachineInv T (createEc T e s) := by
  have hmore : ∀ pd q y, KernelPage s.ecs s.cips pd q y → KernelPage (e :: s.ecs) s.cips pd q y := by
    rintro pd q y (⟨e', he', hrest⟩ | hcip)
    · exact Or.inl ⟨e', List.mem_cons_of_mem _ he', hrest⟩
    · exact Or.inr hcip
  unfold createEc
  split
  · exact h
  · rename_i hval
    have hu : utcbValid e.utcb = true := by simpa using hval
    have hvalid : ∀ e' ∈ e :: s.ecs, utcbValid e'.utcb = true := by
      intro e' he'
      rcases List.mem_cons.mp he' with rfl | he'
      · exact hu
      · exact h.valid e' he'
    split
    · exact ⟨h.wf, hvalid, h.sound.mono hmore⟩
    · rename_i hu0
      have hsound : Sound T (KernelPage (e :: s.ecs) s.cips)
          (insertPage T e.pd e.utcb e.frame 0x7 s.pds) := by
        apply insertPage_sound h.sound.wild (fun pd q hq _ => h.sound.page pd q hq)
          (fun pd q y _ hk => hmore pd q y hk) hu (hC hu hu0)
        intro _
        exact Or.inl ⟨e, List.mem_cons_self, hu0, rfl, rfl, rfl⟩
      have hw : Wf (insertPage T e.pd e.utcb e.frame 0x7 s.pds) :=
        h.wf.withSpace _
      dsimp only
      generalize insertPage T e.pd e.utcb e.frame 0x7 s.pds = st at hsound hw
      split
      · have hm : Meets (memSpace T) (fun _ _ => True) (fun _ _ => True) (fun _ _ => False) 0
            (.insertRoot e.pd e.frame (shr e.utcb 12) 0 0x3 0) st :=
          ⟨by decide, aligned_zero _, aligned_zero _, by decide⟩
        have hsteps := insertRoot_steps memSpace_frame hw hm
        obtain ⟨hw', hs'⟩ := hsteps.invariant (fun _ _ hw hs he => Sound.effect hw hs he) hw hsound
        exact ⟨hw', hvalid, hs'⟩
      · exact ⟨hw, hvalid, hsound⟩

theorem MachineInv.destroy {e : Ec} (h : MachineInv T s) (he : e ∈ s.ecs)
    (hD : DestroysSafely T s e) : MachineInv T (destroyEc T e s) := by
  have hvalid : ∀ e' ∈ s.ecs.erase e, utcbValid e'.utcb = true :=
    fun e' he' => h.valid e' (List.mem_of_mem_erase he')
  have hstay : ∀ pd q y, ¬(e.utcb ≠ 0 ∧ pd = e.pd ∧ q = e.page) → KernelPage s.ecs s.cips pd q y →
      KernelPage (s.ecs.erase e) s.cips pd q y := by
    rintro pd q y hne (⟨e', he', h0, hpd, hq, hy⟩ | hcip)
    · have hee : e' ≠ e := by
        rintro rfl
        exact hne ⟨h0, hpd.symm, hq.symm⟩
      exact Or.inl ⟨e', (List.mem_erase_of_ne hee).mpr he', h0, hpd, hq, hy⟩
    · exact Or.inr hcip
  unfold destroyEc
  split
  · rename_i hu0
    exact ⟨h.wf, hvalid, h.sound.mono fun pd q y => hstay pd q y fun hc => hc.1 hu0⟩
  · rename_i hu0
    obtain ⟨hpage, hdet⟩ := hD hu0
    obtain ⟨hsp, hw, hrest⟩ := removeUtcb_accounted h.sound h.wf hu0 hdet
    refine ⟨hw.withSpace _, hvalid, ?_⟩
    apply insertPage_sound (by rw [hsp]; exact h.sound.wild) hrest
    · intro pd q y hne
      exact hstay pd q y fun hc => hne ⟨hc.2.1, hc.2.2⟩
    · exact h.valid e he
    · unfold NoSuperpage
      rw [hsp]
      exact hpage
    · intro ha
      exact absurd rfl ha

theorem MemReach.execAll {C D : Machine θ → Ec → Prop} {fuel : Nat} {ops : List Op}
    {st : State (MemState θ)} (h : MemReach T C D s)
    (hops : ∀ op ∈ ops, isMemOp op = true ∧ op.Natural)
    (he : execAll (memSpace T) fuel ops s.pds = some st) : MemReach T C D { s with pds := st } := by
  induction ops generalizing s with
  | nil =>
    obtain rfl := Option.some.inj he
    exact h
  | cons op ops ih =>
    unfold Pd.execAll at he
    cases hop : Pd.exec (memSpace T) fuel op s.pds with
    | none => simp [hop] at he
    | some st1 =>
      simp only [hop] at he
      have hfirst := hops op (by simp)
      have hcall : MemReach T C D { s with pds := st1 } :=
        .call op fuel h hfirst.1 hfirst.2 hop
      exact @ih { s with pds := st1 } hcall (fun op' h' => hops op' (by simp [h'])) he

theorem MemReach.inv (h : MemReach T CreatesSafely (DestroysSafely T) s) : MachineInv T s := by
  induction h with
  | boot space cips hwild h =>
    refine ⟨Wf.boot space, by simp, hwild, ?_⟩
    intro pd q hq l y hf
    obtain ⟨hl, hcip⟩ := h pd q l y hq hf
    exact Or.inr ⟨hl, Or.inr hcip⟩
  | @env s space oom iommu preemption _ he ih =>
    have hq : Quiet SameTables s.pds { s.pds with
        space := space, oom := oom, iommu := iommu, preemption := preemption } :=
      ⟨he, fun _ _ => rfl, le_rfl, rfl, rfl⟩
    exact ⟨hq.wf ih.wf, ih.valid, ih.sound.quiet ih.wf hq⟩
  | call op fuel _ hop hnat he ih => exact ih.exec hop hnat he
  | create e _ hC ih => exact ih.create hC
  | destroy e _ he hD ih => exact ih.destroy he hD

/-- Every user page found in a table is mapped for the node that covers it, to
the frame and with the rights that the node says, or is the UTCB of a live
execution context or a page of a cell. -/
structure Covered (s : Machine θ) : Prop where
  wild : s.pds.space.wild = false
  page : ∀ pd q l f a, q < userPages.toNat →
    hptLookup (s.pds.space.hpt pd) q = some (l, f, a) →
      (∃ n, s.pds.lookup pd (BitVec.ofNat 64 q) false = some n ∧
        f = physOf (s.pds.mdb n) (BitVec.ofNat 64 q) ∧
          a = hwAttr (MemState.writeThrough (s.pds.mdb n) (s.pds.mdb n).nodeAttr)) ∨
      (∃ e ∈ s.ecs, e.utcb ≠ 0 ∧ e.pd = pd ∧ e.page = q ∧ f = e.frame) ∨ (pd, q) ∈ s.cips

theorem MapsAt.frame_eq {x : Mdb} {q l : Nat} {y : Pte} (hx : x.Natural) (h : MapsAt T x q l y) :
    y.frame ||| BitVec.ofNat 64 (q % 512 ^ l) = physOf x (BitVec.ofNat 64 q) := by
  have hU := userPages.isLt
  have huser := h.user
  have hhigh := h.high
  have hlow := h.low
  have hsize : 512 ^ l = 2 ^ (9 * l) := by
    rw [Nat.pow_mul]
  have hle : 9 * l ≤ x.nodeOrder.toNat := by
    have := h.level
    unfold nodeLevel at this
    omega
  have hpos : 0 < 512 ^ l := Nat.pow_pos (by decide)
  have hmod := Nat.mod_lt q hpos
  have hqm := Nat.mod_le q (512 ^ l)
  have hbase : 512 ^ l ∣ x.nodeBase.toNat := by
    rw [hsize]
    exact hx.base.mono hle
  have hstart : x.nodeBase.toNat ≤ q - q % 512 ^ l := by
    have hdiv := Nat.div_add_mod q (512 ^ l)
    have := Nat.mul_le_mul_left (512 ^ l) (Nat.div_le_div_right (c := 512 ^ l) hlow)
    rw [Nat.mul_div_cancel' hbase] at this
    omega
  have hoff : (BitVec.ofNat 64 (q - q % 512 ^ l - x.nodeBase.toNat)).toNat =
      q - q % 512 ^ l - x.nodeBase.toNat := by
    rw [BitVec.toNat_ofNat]
    exact Nat.mod_eq_of_lt (by omega)
  have hframe : y.frame = x.nodePhys + BitVec.ofNat 64 (q - q % 512 ^ l - x.nodeBase.toNat) := by
    rw [h.pte, h.level]
    rfl
  have haligned : Aligned (9 * l) y.frame := by
    have horder := hx.order_lt
    rw [hframe]
    apply (hx.phys.mono hle).add (by omega)
    unfold Aligned
    rw [hoff, ← hsize]
    exact Nat.dvd_sub (Nat.dvd_sub_mod q) hbase
  have hsub : BitVec.ofNat 64 q - x.nodeBase = BitVec.ofNat 64 (q - x.nodeBase.toNat) := by
    have hq : (BitVec.ofNat 64 q).toNat = q := by
      rw [BitVec.toNat_ofNat]
      exact Nat.mod_eq_of_lt (by omega)
    apply BitVec.eq_of_toNat_eq
    rw [BitVec.toNat_sub_of_le (BitVec.le_def.mpr (by rw [hq]; exact hlow)), hq, BitVec.toNat_ofNat]
    exact (Nat.mod_eq_of_lt (by omega)).symm
  have hrest : (BitVec.ofNat 64 (q % 512 ^ l)).toNat < 2 ^ (9 * l) := by
    rw [← hsize, BitVec.toNat_ofNat]
    exact lt_of_le_of_lt (Nat.mod_le _ _) hmod
  rw [haligned.or_eq_add hrest, hframe, BitVec.add_assoc, ← BitVec.ofNat_add]
  unfold physOf
  rw [hsub, BitVec.add_comm]
  congr 2
  omega

/-- No mapping is left behind in a history whose execution contexts come and go
safely. -/
theorem reach_covered (h : MemReach T CreatesSafely (DestroysSafely T) s) : Covered s := by
  have hinv := h.inv
  refine ⟨hinv.sound.wild, ?_⟩
  intro pd q l f a hq hl
  unfold hptLookup at hl
  obtain ⟨⟨l', y⟩, hf, heq⟩ := Option.map_eq_some_iff.mp hl
  obtain ⟨rfl, hfa⟩ := Prod.mk.inj heq
  obtain ⟨rfl, rfl⟩ := Prod.mk.inj hfa
  have htoNat : (BitVec.ofNat 64 q).toNat = q := by
    have := userPages.isLt
    rw [BitVec.toNat_ofNat]
    exact Nat.mod_eq_of_lt (by omega)
  rcases hinv.sound.page pd q hq l' y hf with ⟨n, hn, hat⟩ | ⟨rfl, hk⟩
  · left
    refine ⟨n, hinv.wf.lookup_iff.mpr ⟨hn, ?_, ?_⟩, hat.frame_eq (hinv.wf.natural_of_mem n hn), ?_⟩
    · rw [htoNat]
      exact hat.low
    · rw [htoNat]
      exact hat.high
    · rw [hat.pte]
      rfl
  · right
    have hzero : y.frame ||| BitVec.ofNat 64 (q % 512 ^ 0) = y.frame := by
      rw [show q % 512 ^ 0 = 0 from Nat.mod_one q]
      exact BitVec.or_zero
    rcases hk with ⟨e, he, h0, hpd, hpage, hy⟩ | hcip
    · exact Or.inl ⟨e, he, h0, hpd, hpage, by rw [hzero, hy]⟩
    · exact Or.inr hcip

end Machine

section Examples

theorem superOrd_le : 26 ≤ 26 := le_rfl

def plainTables : Tables Unit where
  quotas := noQuotas
  ord := 26
  ord_le := superOrd_le
  others _ _ s := (s, false, false)
  check _ _ _ := true
  draw _ s := s
  loc _ _ s := (s, false)

def emptyTables : MemState Unit := ⟨(), fun _ => .empty, false⟩

def twoPages : Option (State (MemState Unit)) :=
  execAll (memSpace plainTables) 10
    [.insertRoot kern 0 0 20 0x7 0, .delegate 2 kern 0x10 0x10 1 0x3 0] (boot emptyTables)

theorem twoPages_reach {C D : Machine Unit → Ec → Prop} {st : State (MemState Unit)}
    (h : twoPages = some st) : MemReach plainTables C D ⟨st, [], []⟩ := by
  have hboot : MemReach plainTables C D ⟨boot emptyTables, [], []⟩ := by
    apply MemReach.boot
    · rfl
    · intro pd q l y _ hf
      simp [emptyTables] at hf
  exact hboot.execAll (by decide) h

/-- An execution context whose UTCB is beside the two pages, and one whose UTCB
is on the first of them. -/
def asideEc : Ec := ⟨2, 0x20000, 0x5000⟩

def insideEc : Ec := ⟨2, 0x10000, 0x5000⟩

theorem reach_covered_asideEc :
    ∃ st, twoPages = some st ∧
      hptLookup ((createEc plainTables asideEc ⟨st, [], []⟩).pds.space.hpt 2) 0x20 =
        some (0, 0x5000, 0x7) ∧ Covered (createEc plainTables asideEc ⟨st, [], []⟩) := by
  have heval : (twoPages.map fun st => (find 512 4 (st.space.hpt 2) 0x20,
      hptLookup ((createEc plainTables asideEc ⟨st, [], []⟩).pds.space.hpt 2) 0x20)) =
        some (none, some (0, 0x5000, 0x7)) := by
    decide +kernel
  obtain ⟨st, hst, hval⟩ := Option.map_eq_some_iff.mp heval
  obtain ⟨hnone, hpage⟩ := Prod.mk.inj hval
  refine ⟨st, hst, hpage, reach_covered (.create asideEc (twoPages_reach hst) ?_)⟩
  intro _ _ l x hf
  have hf' : find 512 4 (st.space.hpt 2) 0x20 = some (l, x) := hf
  simp [hnone] at hf'

def insideEcGone (st : State (MemState Unit)) : Machine Unit :=
  destroyEc plainTables insideEc (createEc plainTables insideEc ⟨st, [], []⟩)

/-- The second page stays mapped when the node of both is gone. -/
theorem insideEc_leaves_page :
    ¬∀ s, MemReach plainTables (fun _ _ => True) (fun _ _ => True) s → Covered s := by
  intro hall
  have heval : (twoPages.map fun st => (hptLookup ((insideEcGone st).pds.space.hpt 2) 0x11,
      (insideEcGone st).pds.lookup 2 (BitVec.ofNat 64 0x11) false)) =
        some (some (0, 0x11, 0x8000000000000067), none) := by
    decide +kernel
  obtain ⟨st, hst, hval⟩ := Option.map_eq_some_iff.mp heval
  obtain ⟨hpage, hnode⟩ := Prod.mk.inj hval
  have hecs : (insideEcGone st).ecs = [] := rfl
  have hcips : (insideEcGone st).cips = [] := rfl
  have hcreate : MemReach plainTables (fun _ _ => True) (fun _ _ => True)
      (createEc plainTables insideEc ⟨st, [], []⟩) :=
    .create insideEc (twoPages_reach hst) trivial
  have hmem : insideEc ∈ (createEc plainTables insideEc ⟨st, [], []⟩).ecs := List.mem_cons_self
  have hcov : Covered (insideEcGone st) := hall _ (.destroy insideEc hcreate hmem trivial)
  rcases hcov.page 2 0x11 0 0x11 0x8000000000000067 (by decide) hpage with
    ⟨n, hn, -⟩ | ⟨e, he, -⟩ | hcip
  · rw [hnode] at hn
    simp at hn
  · rw [hecs] at he
    simp at he
  · rw [hcips] at hcip
    simp at hcip

end Examples

end Tukija.Space
