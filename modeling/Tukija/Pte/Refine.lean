import Tukija.Pte.Update

/-! A page table as a finite map: what `lookup` tells is what has been mapped. -/
namespace Tukija.Pte

variable {F : Format}

/-- A naturally aligned range of `2 ^ order` pages from `base` on, with the
physical address and the attributes it was mapped with. -/
structure Mapping (F : Format) where
  base : Nat
  order : Nat
  p : F.Word
  a : F.Word

namespace Mapping

def Covers (x : Mapping F) (r : Nat) : Prop := x.base ≤ r ∧ r < x.base + 2 ^ x.order

instance (x : Mapping F) (r : Nat) : Decidable (x.Covers r) := inferInstanceAs (Decidable (_ ∧ _))

/-- The physical address of `v`. -/
def phys (x : Mapping F) (v : F.Word) : F.Word :=
  x.p + BitVec.ofNat F.w ((Mem.pageOf v - x.base) * 2 ^ pageBits + v.toNat % 2 ^ pageBits)

def shown (x : Mapping F) : F.Word :=
  F.flags x.a (x.order / F.B) (x.order % F.B) &&& BitVec.ofNat F.w (2 ^ pageBits - 1)

end Mapping

abbrev Mappings (F : Format) := List (Mapping F)

namespace Mappings

def find (M : Mappings F) (r : Nat) : Option (Mapping F) := List.find? (fun x => x.Covers r) M

/-- What the address space translates `v` to. -/
def translate (M : Mappings F) (v : F.Word) : Option (F.Word × F.Word) :=
  (M.find (Mem.pageOf v)).map fun x => (x.phys v, x.shown)

end Mappings

/-- What the page table translates `v` to. -/
def Mem.translate (m : Mem F) (v : F.Word) : Option (F.Word × F.Word) :=
  (m.lookup v F.L .root).map fun f => (f.p, f.a)

/-- A call of `Pte::update`: for a range that is not mapped, or for one that was
mapped as it is. -/
inductive Act (F : Format) where
  | map (v : F.Word) (o : Nat) (p a : F.Word)
  | unmap (v : F.Word) (o : Nat) (p : F.Word) (t : Kind)
  | change (v : F.Word) (o : Nat) (p a : F.Word) (t : Kind)

namespace Act

def range : Act F → F.Word × Nat
  | map v o _ _ => (v, o)
  | unmap v o _ _ => (v, o)
  | change v o _ _ _ => (v, o)

def exec (alloc : List (Event F) → Option F.Word) (m : Mem F) (act : Act F) : Option (Mem F) :=
  Option.map Prod.snd <| match act with
    | map v o p a => Mem.update alloc v o p a .up m
    | unmap v o p t => Mem.update alloc v o p 0 t m
    | change v o p a t => Mem.update alloc v o p a t m

def others (M : Mappings F) (v : F.Word) (o : Nat) : Mappings F :=
  M.filter fun x => ¬(x.base = Mem.pageOf v ∧ x.order = o)

def apply (M : Mappings F) : Act F → Mappings F
  | map v o p a => ⟨Mem.pageOf v, o, p, a⟩ :: M
  | unmap v o _ _ => others M v o
  | change v o p a _ => ⟨Mem.pageOf v, o, p, a⟩ :: others M v o

end Act

section Valid

variable (Y : Layout F)

/-- A range that the tables can cover and whose size is a word, and a frame that is
aligned to what its entries tell about their size. -/
structure Fits (o : Nat) (p a : F.Word) : Prop where
  le : o ≤ F.L * F.B
  size : o + pageBits < F.w
  mappable : Mem.Mappable Y o p a
  aligned : 2 ^ (o / F.B * F.B + pageBits + Y.extra (o % F.B)) ∣ p.toNat

/-- The call is one for a range that is mapped, or not mapped, as it should be. -/
def Act.Allowed (M : Mappings F) : Act F → Prop
  | .map v o p a => 2 ^ (o + pageBits) ∣ v.toNat ∧ Fits Y o p a ∧
      ∀ x ∈ M, ∀ r, Mem.InRange v o r → ¬x.Covers r
  | .unmap v o _ _ => 2 ^ (o + pageBits) ∣ v.toNat ∧ ∃ x ∈ M, x.base = Mem.pageOf v ∧ x.order = o
  | .change v o p a _ => 2 ^ (o + pageBits) ∣ v.toNat ∧ Mem.Mappable Y o p a ∧
      ∃ x ∈ M, x.base = Mem.pageOf v ∧ x.order = o ∧ x.p = p

/-- What runs of allowed calls lead to from a page table that is empty. -/
inductive Reach (alloc : List (Event F) → Option F.Word) : Mem F → Mappings F → Prop
  | start {m : Mem F} (h : m.val = 0) : Reach alloc m []
  | step {m m' : Mem F} {M : Mappings F} {act : Act F} (h : Reach alloc m M)
      (ha : act.Allowed Y M) (he : act.exec alloc m = some m') : Reach alloc m' (act.apply M)

end Valid

section Find

variable {Y : Layout F} {M : Mappings F} {x y : Mapping F} {r o : Nat} {v : F.Word}

structure Mapping.Sound (Y : Layout F) (x : Mapping F) : Prop where
  fits : Fits Y x.order x.p x.a
  dvd : 2 ^ x.order ∣ x.base

/-- The ranges are sound and apart from each other. -/
structure Mappings.Sound (Y : Layout F) (M : Mappings F) : Prop where
  sound : ∀ x ∈ M, x.Sound Y
  apart : ∀ x ∈ M, ∀ y ∈ M, ∀ r, x.Covers r → y.Covers r → x = y

theorem Mappings.Sound.find_eq (h : M.Sound Y) (hx : x ∈ M) (hr : x.Covers r) :
    M.find r = some x := by
  cases hf : M.find r with
  | none =>
    have := List.find?_eq_none.mp hf x hx
    simp [hr] at this
  | some y =>
    have hy : y.Covers r := by simpa using List.find?_some hf
    rw [h.apart x hx y (List.mem_of_find?_eq_some hf) r hr hy]

theorem Mappings.find_eq_none : M.find r = none ↔ ∀ x ∈ M, ¬x.Covers r := by
  simp [Mappings.find, List.find?_eq_none]

theorem mem_others : x ∈ Act.others M v o ↔ x ∈ M ∧ ¬(x.base = Mem.pageOf v ∧ x.order = o) := by
  rw [Act.others, List.mem_filter, decide_eq_true_eq]

theorem Mapping.covers_iff_inRange (hb : x.base = Mem.pageOf v) (ho : x.order = o) :
    x.Covers r ↔ Mem.InRange v o r := by
  subst ho
  unfold Mapping.Covers Mem.InRange
  rw [hb]

theorem Mappings.Sound.others (h : M.Sound Y) : Mappings.Sound Y (Act.others M v o) :=
  ⟨fun x hx => h.sound x (mem_others.mp hx).1,
    fun x hx y hy => h.apart x (mem_others.mp hx).1 y (mem_others.mp hy).1⟩

theorem Mappings.Sound.others_apart (h : M.Sound Y) (hx : x ∈ M) (hb : x.base = Mem.pageOf v)
    (ho : x.order = o) (hy : y ∈ Act.others M v o) (hr : Mem.InRange v o r) : ¬y.Covers r := by
  intro hc
  obtain ⟨hyM, hne⟩ := mem_others.mp hy
  obtain rfl := h.apart x hx y hyM r ((Mapping.covers_iff_inRange hb ho).mpr hr) hc
  exact hne ⟨hb, ho⟩

theorem Mappings.Sound.find_others (h : M.Sound Y) (hx : x ∈ M) (hb : x.base = Mem.pageOf v)
    (ho : x.order = o) (r : Nat) :
    Mappings.find (Act.others M v o) r = if Mem.InRange v o r then none else M.find r := by
  split
  · exact Mappings.find_eq_none.mpr fun y hy => h.others_apart hx hb ho hy ‹_›
  · rename_i hr
    cases hf : M.find r with
    | none =>
      rw [Mappings.find_eq_none] at hf ⊢
      exact fun y hy => hf y (mem_others.mp hy).1
    | some y =>
      have hy : y.Covers r := by simpa using List.find?_some hf
      refine h.others.find_eq (mem_others.mpr ⟨List.mem_of_find?_eq_some hf, ?_⟩) hy
      rintro ⟨hyb, hyo⟩
      exact hr ((Mapping.covers_iff_inRange hyb hyo).mp hy)

theorem Mappings.Sound.cons (h : M.Sound Y) (hx : x.Sound Y)
    (hfree : ∀ y ∈ M, ∀ r, x.Covers r → ¬y.Covers r) : Mappings.Sound Y (x :: M) := by
  constructor
  · intro y hy
    rcases List.mem_cons.mp hy with rfl | hy
    · exact hx
    · exact h.sound y hy
  · intro y hy z hz r hyr hzr
    rcases List.mem_cons.mp hy with rfl | hyM
    · rcases List.mem_cons.mp hz with rfl | hzM
      · rfl
      · exact absurd hzr (hfree z hzM r hyr)
    · rcases List.mem_cons.mp hz with rfl | hzM
      · exact absurd hyr (hfree y hyM r hzr)
      · exact h.apart y hyM z hzM r hyr hzr

theorem Mappings.find_cons (r : Nat) :
    Mappings.find (x :: M) r = if x.Covers r then some x else M.find r := by
  rw [Mappings.find, List.find?_cons]
  by_cases hr : x.Covers r <;> simp [hr, Mappings.find]

theorem Mappings.Sound.find_apply (h : M.Sound Y) {act : Act F} (ha : act.Allowed Y M)
    (hr : ¬Mem.InRange act.range.1 act.range.2 r) : Mappings.find (act.apply M) r = M.find r := by
  cases act with
  | map v o p a =>
    have hc : ¬Mapping.Covers ⟨Mem.pageOf v, o, p, a⟩ r := hr
    rw [Act.apply, Mappings.find_cons, if_neg hc]
  | unmap v o p t =>
    obtain ⟨-, x, hx, hb, rfl⟩ := ha
    have hr : ¬Mem.InRange v x.order r := hr
    rw [Act.apply, h.find_others hx hb rfl, if_neg hr]
  | change v o p a t =>
    obtain ⟨-, -, x, hx, hb, rfl, -⟩ := ha
    have hr : ¬Mem.InRange v x.order r := hr
    have hc : ¬Mapping.Covers ⟨Mem.pageOf v, x.order, p, a⟩ r := hr
    rw [Act.apply, Mappings.find_cons, if_neg hc, h.find_others hx hb rfl, if_neg hr]

end Find

section Refines

variable {Y : Layout F} {alloc : List (Event F) → Option F.Word} {m m' : Mem F} {M : Mappings F}
  {act : Act F}

/-- The entry that page `r` of a mapping is found at. -/
def Mapping.entry (x : Mapping F) (r : Nat) : Nat × F.Word :=
  (x.order / F.B, Mem.entry x.p x.a x.order ((r - x.base) / F.width ^ (x.order / F.B)))

/-- The page table holds the entries of the mappings and no others. -/
structure Refines (Y : Layout F) (m : Mem F) (M : Mappings F) : Prop where
  sound : M.Sound Y
  owned : ∃ own, Mem.Owned m own
  leaf : ∀ r < F.width ^ F.L, m.leaf r = (M.find r).map fun x => x.entry r

theorem Refines.start (h : m.val = 0) : Refines Y m [] := by
  refine ⟨⟨by simp, by simp⟩, ⟨fun _ => none, ?_⟩, ?_⟩
  · refine ⟨by simp, ?_, by simp, by simp⟩
    rintro l b x (⟨-, -, rfl⟩ | ⟨q, -, hq⟩) hp
    · exact absurd h hp.1
    · cases hq
  · intro r _
    exact Mem.leafAt_of_zero h

theorem Refines.clear_free (h : Refines Y m M) {v : F.Word}
    (hfree : ∀ x ∈ M, ¬x.Covers (Mem.pageOf v)) (n : Nat) : Mem.Clear m (Mem.pageOf v) n := by
  intro l w hl
  rw [h.leaf _ (Mem.pageOf_lt v), Mappings.find_eq_none.mpr hfree] at hl
  cases hl

theorem covers_base {x : Mapping F} {v : F.Word} (hb : x.base = Mem.pageOf v) :
    x.Covers (Mem.pageOf v) :=
  ⟨hb.le, by rw [hb]; exact Nat.lt_add_of_pos_right (Nat.two_pow_pos _)⟩

theorem Refines.clear_mapped (h : Refines Y m M) {x : Mapping F} (hx : x ∈ M) {v : F.Word}
    (hb : x.base = Mem.pageOf v) : Mem.Clear m (Mem.pageOf v) (x.order / F.B) := by
  intro l w hl
  rw [h.leaf _ (Mem.pageOf_lt v), h.sound.find_eq hx (covers_base hb)] at hl
  obtain ⟨rfl, -⟩ := Prod.mk.inj (Option.some.inj hl)
  exact le_rfl

theorem Refines.not_missing (h : Refines Y m M) {x : Mapping F} (hx : x ∈ M) {v : F.Word}
    (hb : x.base = Mem.pageOf v) : ¬∀ r, Mem.InRange v x.order r → m.leaf r = none := by
  intro hnone
  have := hnone (Mem.pageOf v) ((Mapping.covers_iff_inRange hb rfl).mp (covers_base hb))
  rw [h.leaf _ (Mem.pageOf_lt v), h.sound.find_eq hx (covers_base hb)] at this
  cases this

/-- The step of `map` and `change`: an update puts a mapping where there is none
besides. -/
theorem Refines.mapped {v : F.Word} {o : Nat} {p a : F.Word} {m' : Mem F} {M' : Mappings F}
    (hM : M'.Sound Y) (hown : ∃ own, Mem.Owned m' own) (hf : Fits Y o p a)
    (hv : 2 ^ (o + pageBits) ∣ v.toNat)
    (hfree : ∀ y ∈ M', ∀ r, Mem.InRange v o r → ¬y.Covers r)
    (hleaf : ∀ r < F.width ^ F.L, m'.leaf r =
      if Mem.InRange v o r then
        some (o / F.B, Mem.entry p a o ((r - Mem.pageOf v) / F.width ^ (o / F.B)))
      else (M'.find r).map fun x => x.entry r) :
    Refines Y m' (⟨Mem.pageOf v, o, p, a⟩ :: M') := by
  have hx : Mapping.Sound Y ⟨Mem.pageOf v, o, p, a⟩ := ⟨hf, Mem.order_dvd hf.le hv⟩
  refine ⟨hM.cons hx fun y hy r hr => hfree y hy r hr, hown, ?_⟩
  intro r hr
  rw [hleaf r hr, Mappings.find_cons]
  by_cases hin : Mem.InRange v o r
  · have hc : Mapping.Covers ⟨Mem.pageOf v, o, p, a⟩ r := hin
    rw [if_pos hin, if_pos hc]
    rfl
  · have hc : ¬Mapping.Covers ⟨Mem.pageOf v, o, p, a⟩ r := hin
    rw [if_neg hin, if_neg hc]

variable (hs : Supply Y alloc) (h : Refines Y m M)

include hs h

theorem Refines.map {v : F.Word} {o : Nat} {p a : F.Word} (ha : Act.Allowed Y M (.map v o p a))
    (he : Act.exec alloc m (.map v o p a) = some m') :
    Refines Y m' (Act.apply M (.map v o p a)) := by
  obtain ⟨hv, hf, hfree⟩ := ha
  obtain ⟨own, hown⟩ := h.owned
  obtain ⟨⟨f, m₁⟩, hup, rfl⟩ := Option.map_eq_some_iff.mp he
  have hbase : Mem.InRange v o (Mem.pageOf v) :=
    ⟨le_rfl, Nat.lt_add_of_pos_right (Nat.two_pow_pos o)⟩
  obtain ⟨hown', hleaf | ⟨ht, -⟩⟩ := Mem.update_spec hs hown hf.le hv
    (h.clear_free (fun x hx => hfree x hx _ hbase) _) (.inr hf.mappable) hup
  · refine Refines.mapped h.sound hown' hf hv hfree ?_
    intro r hr
    rw [hleaf r hr, if_neg hf.mappable.ne_zero, h.leaf r hr]
  · exact absurd rfl ht

theorem Refines.change {v : F.Word} {o : Nat} {p a : F.Word} {t : Kind}
    (ha : Act.Allowed Y M (.change v o p a t))
    (he : Act.exec alloc m (.change v o p a t) = some m') :
    Refines Y m' (Act.apply M (.change v o p a t)) := by
  obtain ⟨hv, hmap, x, hx, hb, rfl, rfl⟩ := ha
  obtain ⟨own, hown⟩ := h.owned
  obtain ⟨⟨f, m₁⟩, hup, rfl⟩ := Option.map_eq_some_iff.mp he
  have hfx := (h.sound.sound x hx).fits
  have hf : Fits Y x.order x.p a := ⟨hfx.le, hfx.size, hmap, hfx.aligned⟩
  obtain ⟨hown', hleaf | ⟨-, -, hnone⟩⟩ := Mem.update_spec hs hown hf.le hv (h.clear_mapped hx hb)
    (.inr hmap) hup
  · refine Refines.mapped h.sound.others hown' hf hv
      (fun y hy r hr => h.sound.others_apart hx hb rfl hy hr) ?_
    intro r hr
    rw [hleaf r hr, if_neg hmap.ne_zero, h.leaf r hr]
    by_cases hin : Mem.InRange v x.order r
    · rw [if_pos hin, if_pos hin]
    · rw [if_neg hin, if_neg hin, h.sound.find_others hx hb rfl, if_neg hin]
  · exact absurd hnone (h.not_missing hx hb)

theorem Refines.unmap {v : F.Word} {o : Nat} {p : F.Word} {t : Kind}
    (ha : Act.Allowed Y M (.unmap v o p t))
    (he : Act.exec alloc m (.unmap v o p t) = some m') :
    Refines Y m' (Act.apply M (.unmap v o p t)) := by
  obtain ⟨hv, x, hx, hb, rfl⟩ := ha
  obtain ⟨own, hown⟩ := h.owned
  obtain ⟨⟨f, m₁⟩, hup, rfl⟩ := Option.map_eq_some_iff.mp he
  have hfx := (h.sound.sound x hx).fits
  obtain ⟨hown', hleaf | ⟨-, -, hnone⟩⟩ := Mem.update_spec hs hown hfx.le hv
    (h.clear_mapped hx hb) (.inl rfl) hup
  · refine ⟨h.sound.others, hown', ?_⟩
    intro r hr
    rw [hleaf r hr, if_pos rfl, h.leaf r hr, Act.apply, h.sound.find_others hx hb rfl]
    by_cases hin : Mem.InRange v x.order r
    · rw [if_pos hin, if_pos hin]
      rfl
    · rw [if_neg hin, if_neg hin]
  · exact absurd hnone (h.not_missing hx hb)

theorem Refines.step (ha : act.Allowed Y M) (he : act.exec alloc m = some m') :
    Refines Y m' (act.apply M) := by
  cases act with
  | map v o p a => exact h.map hs ha he
  | unmap v o p t => exact h.unmap hs ha he
  | change v o p a t => exact h.change hs ha he

end Refines

theorem Reach.refines {Y : Layout F} {alloc : List (Event F) → Option F.Word} {m : Mem F} {M : Mappings F}
    (hs : Supply Y alloc) (h : Reach Y alloc m M) : Refines Y m M := by
  induction h with
  | start h => exact Refines.start h
  | step h ha he ih => exact ih.step hs ha he

end Tukija.Pte
