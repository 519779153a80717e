import Mathlib
import Tukija.Lib.Word

/-! `Refcount`: parties take references to an object and give them up.  Whoever has
the last one gives it to RCU, and the callback drops it after the grace period. -/
namespace Tukija.Ref

abbrev Count := BitVec 32

/-- Whose `free` it is. -/
inductive Kind where
  | ec
  | sm
  | pd
  deriving DecidableEq

inductive Pc where
  | out
  | load
  | cas (r : Count)
  | last
  | sub
  | one
  | call
  | drop
  | destroy
  | up
  deriving DecidableEq

/-- What `free` does when references are left. -/
def Kind.rest : Kind → Pc
  | .ec => .out
  | .sm => .up
  | .pd => .out

/-- `held` has a party once for each reference that it holds; `tree` says whether the
capability tree still has one.  `given` counts the references that RCU has or is about
to get, `pending` how often the object is in the lists of RCU, `destroyed` the
destructions. -/
structure Obj (ι : Type) where
  ref : Count
  pc : ι → Pc
  held : Multiset ι
  tree : Bool
  given : Nat
  pending : Nat
  destroyed : Nat

inductive Act (ι : Type) where
  | addRef
  | delRcu
  | revoke
  | free
  | pass (j : ι)
  | step

namespace Obj

variable {ι : Type} [DecidableEq ι]

/-- The constructor: `ref` is 1, for the capability tree or for a party. -/
def create : Option ι → Obj ι
  | none => ⟨1, fun _ => .out, 0, true, 0, 0, 0⟩
  | some i => ⟨1, fun _ => .out, {i}, false, 0, 0, 0⟩

def refs (s : Obj ι) : Nat := s.held.card + s.tree.toNat + s.given

def goto (s : Obj ι) (i : ι) (p : Pc) : Obj ι := { s with pc := Function.update s.pc i p }

def step (k : Kind) (i : ι) (s : Obj ι) : Obj ι :=
  match s.pc i with
  | .out => s
  | .load => s.goto i (if s.ref = 0 then .out else .cas s.ref)
  | .cas r =>
    if s.ref = r then { s with ref := r + 1, held := i ::ₘ s.held }.goto i .out else s.goto i .load
  | .last =>
    if s.ref = 1 then { s with held := s.held.erase i, given := s.given + 1 }.goto i .call
    else s.goto i .sub
  | .sub =>
    { s with ref := s.ref - 1, held := s.held.erase i }.goto i
      (if s.ref - 1 = 0 then .one else .out)
  | .one => { s with ref := 1, given := s.given + 1 }.goto i .call
  | .call => { s with pending := s.pending + 1 }.goto i .out
  | .drop =>
    { s with ref := s.ref - 1, given := s.given - 1 }.goto i
      (if s.ref - 1 = 0 then .destroy else k.rest)
  | .destroy => { s with destroyed := s.destroyed + 1 }.goto i .out
  | .up => s.goto i .out

/-- A party begins `add_ref`, or `del_rcu` for a reference that it holds, or hands one
over to another party; the object is revoked, which gives the reference of the tree to
RCU; or the callback begins.  What is not possible changes nothing. -/
def act (k : Kind) (i : ι) (a : Act ι) (s : Obj ι) : Obj ι :=
  match s.pc i, a with
  | _, .step => s.step k i
  | .out, .addRef => s.goto i .load
  | .out, .delRcu => if i ∈ s.held then s.goto i .last else s
  | .out, .revoke =>
    if s.tree then { s with tree := false, given := s.given + 1 }.goto i .call else s
  | .out, .free => if 0 < s.pending then { s with pending := s.pending - 1 }.goto i .drop else s
  | .out, .pass j => if i ∈ s.held then { s with held := j ::ₘ s.held.erase i } else s
  | _, _ => s

/-- A run: one party after the other begins something or takes a step. -/
def after (k : Kind) (s : Obj ι) (acts : List (ι × Act ι)) : Obj ι :=
  acts.foldl (fun s x => s.act k x.1 x.2) s

end Obj

/-- Where the object is on its way from the last reference to its end. -/
inductive Phase (ι : Type) where
  | live
  | one (i : ι)
  | call (i : ι)
  | queued
  | drop (i : ι)
  | destroy (i : ι)
  | gone

def Phase.share {ι : Type} : Phase ι → Nat
  | .call _ => 1
  | .queued => 1
  | .drop _ => 1
  | _ => 0

def Phase.bare {ι : Type} : Phase ι → Bool
  | .one _ => true
  | .destroy _ => true
  | .gone => true
  | _ => false

def Phase.pending {ι : Type} : Phase ι → Nat
  | .queued => 1
  | _ => 0

def Phase.destroyed {ι : Type} : Phase ι → Nat
  | .gone => 1
  | _ => 0

def Phase.owner {ι : Type} : Phase ι → Option ι
  | .one i => some i
  | .call i => some i
  | .drop i => some i
  | .destroy i => some i
  | _ => none

/-- The phase that a party at `p` brings the object into. -/
def Pc.phase {ι : Type} (i : ι) : Pc → Option (Phase ι)
  | .one => some (.one i)
  | .call => some (.call i)
  | .drop => some (.drop i)
  | .destroy => some (.destroy i)
  | _ => none

variable {ι : Type}

/-- The counter counts the references, and one party at most brings the object to its
end. -/
structure Counted (s : Obj ι) (φ : Phase ι) : Prop where
  phase : ∀ i ψ, (s.pc i).phase i = some ψ → φ = ψ
  ref : s.ref.toNat = s.held.card + s.tree.toNat + φ.share
  tree : s.tree = true → φ = .live
  bare : φ.bare = true → s.held = 0
  given : s.given = φ.share
  pending : s.pending = φ.pending
  destroyed : s.destroyed = φ.destroyed
  mine : ∀ i, s.pc i = .last ∨ s.pc i = .sub → i ∈ s.held
  cas : ∀ i r, s.pc i = .cas r → r ≠ 0

theorem Pc.owner_phase {p : Pc} {i : ι} {ψ : Phase ι} (h : p.phase i = some ψ) : ψ.owner = some i := by
  cases p <;> simp [Pc.phase] at h <;> subst h <;> rfl

theorem Counted.alone {s : Obj ι} {φ : Phase ι} (h : Counted s φ) {j : ι} (hj : φ.owner ≠ some j) :
    (s.pc j).phase j = none := by
  by_contra hne
  obtain ⟨ψ, hψ⟩ := Option.ne_none_iff_exists'.mp hne
  obtain rfl := h.phase j ψ hψ
  exact hj (Pc.owner_phase hψ)

theorem Counted.no_tree {s : Obj ι} {φ : Phase ι} (h : Counted s φ) (hφ : φ ≠ .live) : s.tree = false := by
  by_contra ht
  exact hφ (h.tree (by simpa using ht))

section Steps

variable [DecidableEq ι] {s : Obj ι} {φ : Phase ι} {i : ι} {k : Kind}

theorem Counted.goto {p : Pc} (h : Counted s φ) (hp : p.phase i = none)
    (hm : p = .last ∨ p = .sub → i ∈ s.held) (hc : ∀ r, p = .cas r → r ≠ 0) :
    Counted (s.goto i p) φ := by
  refine ⟨?_, h.ref, h.tree, h.bare, h.given, h.pending, h.destroyed, ?_, ?_⟩
  · apply (Function.forall_update_iff s.pc fun j q => ∀ ψ, q.phase j = some ψ → φ = ψ).mpr
    refine ⟨fun ψ hψ => ?_, fun j _ => h.phase j⟩
    rw [hp] at hψ
    simp at hψ
  · exact (Function.forall_update_iff s.pc fun j q => q = .last ∨ q = .sub → j ∈ s.held).mpr
      ⟨hm, fun j _ => h.mine j⟩
  · exact (Function.forall_update_iff s.pc fun _ q => ∀ r, q = .cas r → r ≠ 0).mpr
      ⟨hc, fun j _ => h.cas j⟩

theorem Counted.turn {t : Obj ι} {ψ : Phase ι} {p : Pc} (h : Counted s φ)
    (hpc : t.pc = Function.update s.pc i p) (ho : ∀ j, φ.owner = some j → j = i)
    (hp : ∀ ψ', p.phase i = some ψ' → ψ = ψ') (href : t.ref.toNat = t.held.card + t.tree.toNat + ψ.share)
    (htree : t.tree = true → ψ = .live) (hbare : ψ.bare = true → t.held = 0) (hgiven : t.given = ψ.share)
    (hpending : t.pending = ψ.pending) (hdestroyed : t.destroyed = ψ.destroyed)
    (hm : p ≠ .last ∧ p ≠ .sub) (hc : ∀ r, p ≠ .cas r)
    (hheld : ∀ j, j ≠ i → j ∈ s.held → j ∈ t.held) : Counted t ψ := by
  refine ⟨?_, href, htree, hbare, hgiven, hpending, hdestroyed, ?_, ?_⟩
  · rw [hpc]
    apply (Function.forall_update_iff s.pc fun j q => ∀ ψ', q.phase j = some ψ' → ψ = ψ').mpr
    refine ⟨hp, fun j hj ψ' hψ' => ?_⟩
    rw [h.alone fun hown => hj (ho j hown)] at hψ'
    simp at hψ'
  · rw [hpc]
    apply (Function.forall_update_iff s.pc fun j q => q = .last ∨ q = .sub → j ∈ t.held).mpr
    exact ⟨fun hls => absurd hls (not_or.mpr hm), fun j hj hls => hheld j hj (h.mine j hls)⟩
  · rw [hpc]
    exact (Function.forall_update_iff s.pc fun _ q => ∀ r, q = .cas r → r ≠ 0).mpr
      ⟨fun r hr => absurd hr (hc r), fun j _ => h.cas j⟩

theorem toNat_sub_one {r : Count} (hr : 0 < r.toNat) : (r - 1).toNat = r.toNat - 1 := by
  rw [BitVec.toNat_sub, show (1 : Count).toNat = 1 from rfl]
  have := r.isLt
  omega

theorem sub_one_eq_zero {r : Count} (hr : 0 < r.toNat) : r - 1 = 0 ↔ r.toNat = 1 := by
  rw [← BitVec.toNat_inj, toNat_sub_one hr]
  show r.toNat - 1 = 0 ↔ _
  omega

theorem Counted.addRef {r : Count} (h : Counted s φ) (hp : s.pc i = .cas r) (hr : s.ref = r)
    (hfew : s.refs + 1 < 2 ^ 32) :
    Counted ({ s with ref := r + 1, held := i ::ₘ s.held }.goto i .out) φ := by
  have hne := h.cas i r hp
  have hpos : r.toNat ≠ 0 := fun hz => hne (BitVec.eq_of_toNat_eq hz)
  have hcount := h.ref
  rw [hr] at hcount
  rw [Obj.refs, h.given] at hfew
  have hout := h.goto (p := .out) (i := i) rfl (by simp) (by simp)
  refine ⟨hout.phase, ?_, h.tree, fun hb => ?_, h.given, h.pending, h.destroyed, fun j hj => ?_, hout.cas⟩
  · show (r + 1).toNat = (i ::ₘ s.held).card + s.tree.toNat + φ.share
    rw [BitVec.toNat_add, show (1 : Count).toNat = 1 from rfl, Multiset.card_cons]
    omega
  · -- nobody would have a reference
    have hlive : φ ≠ .live := by
      rintro rfl
      simp [Phase.bare] at hb
    rw [h.bare hb, h.no_tree hlive] at hcount
    cases φ <;> simp [Phase.bare, Phase.share] at hb hcount <;> omega
  · exact Multiset.mem_cons_of_mem (hout.mine j hj)

theorem Counted.live (h : Counted s φ) (hi : i ∈ s.held) (hone : s.ref.toNat = 1) :
    φ = .live ∧ s.held.erase i = 0 ∧ s.tree = false := by
  have hcard := Multiset.card_pos_iff_exists_mem.mpr ⟨i, hi⟩
  have hcount := h.ref
  have herase := Multiset.card_erase_add_one hi
  refine ⟨?_, Multiset.card_eq_zero.mp (by omega), ?_⟩
  · have hb : φ.bare = false := by
      by_contra hb
      rw [h.bare (by simpa using hb)] at hi
      simp at hi
    cases φ <;> simp [Phase.bare, Phase.share] at hb hcount ⊢ <;> omega
  · by_contra ht
    rw [show s.tree = true by simpa using ht, Bool.toNat_true] at hcount
    omega

theorem Counted.last (h : Counted s φ) (hp : s.pc i = .last) (hone : s.ref = 1) :
    Counted ({ s with held := s.held.erase i, given := s.given + 1 }.goto i .call) (.call i) := by
  obtain ⟨rfl, herase, htree⟩ := h.live (h.mine i (.inl hp)) (by rw [hone]; rfl)
  refine h.turn rfl (by simp [Phase.owner]) (by simp [Pc.phase]) ?_ ?_ (by simp [Phase.bare]) ?_ h.pending
    h.destroyed (by simp) (by simp) fun j hj hj' => (Multiset.mem_erase_of_ne hj).mpr hj'
  · show s.ref.toNat = (s.held.erase i).card + s.tree.toNat + 1
    rw [herase, hone, htree]
    rfl
  · exact fun ht => absurd ht (by simp [Obj.goto, htree])
  · show s.given + 1 = 1
    rw [h.given]
    rfl

theorem Counted.sub (h : Counted s φ) (hp : s.pc i = .sub) :
    ∃ ψ, Counted ({ s with ref := s.ref - 1, held := s.held.erase i }.goto i
      (if s.ref - 1 = 0 then .one else .out)) ψ := by
  have hi := h.mine i (.inr hp)
  have hcard := Multiset.card_erase_add_one hi
  have hcount := h.ref
  have hpos : 0 < s.ref.toNat := by omega
  have hsub := toNat_sub_one hpos
  have hheld : ∀ j, j ≠ i → j ∈ s.held → j ∈ s.held.erase i :=
    fun j hj hj' => (Multiset.mem_erase_of_ne hj).mpr hj'
  by_cases hzero : s.ref - 1 = 0
  · rw [if_pos hzero]
    obtain ⟨rfl, herase, htree⟩ := h.live hi ((sub_one_eq_zero hpos).mp hzero)
    refine ⟨.one i, h.turn rfl (by simp [Phase.owner]) (by simp [Pc.phase]) ?_ ?_ (fun _ => herase) h.given
      h.pending h.destroyed (by simp) (by simp) hheld⟩
    · show (s.ref - 1).toNat = (s.held.erase i).card + s.tree.toNat + 0
      rw [hzero, herase, htree]
      rfl
    · exact fun ht => absurd ht (by simp [Obj.goto, htree])
  · rw [if_neg hzero]
    have hout := h.goto (p := .out) (i := i) rfl (by simp) (by simp)
    refine ⟨φ, hout.phase, ?_, h.tree, fun hb => ?_, h.given, h.pending, h.destroyed, fun j hj => ?_,
      hout.cas⟩
    · show (s.ref - 1).toNat = (s.held.erase i).card + s.tree.toNat + φ.share
      omega
    · rw [h.bare hb] at hi
      simp at hi
    · have hji : j ≠ i := by
        rintro rfl
        have hj' : Function.update s.pc j .out j = .last ∨ Function.update s.pc j .out j = .sub := hj
        rw [Function.update_self] at hj'
        simp at hj'
      exact hheld j hji (hout.mine j hj)

theorem Counted.one (h : Counted s φ) (hp : s.pc i = .one) :
    Counted ({ s with ref := 1, given := s.given + 1 }.goto i .call) (.call i) := by
  obtain rfl := h.phase i (.one i) (by rw [hp]; rfl)
  have hheld := h.bare rfl
  have htree := h.no_tree (by simp)
  refine h.turn rfl (by simp [Phase.owner]) (by simp [Pc.phase]) ?_ ?_ (by simp [Phase.bare]) ?_ h.pending
    h.destroyed (by simp) (by simp) fun _ _ hj => hj
  · show (1 : Count).toNat = s.held.card + s.tree.toNat + 1
    rw [hheld, htree]
    rfl
  · exact fun ht => absurd ht (by simp [Obj.goto, htree])
  · show s.given + 1 = 1
    rw [h.given]
    rfl

theorem Counted.revoke (h : Counted s φ) (ht : s.tree = true) :
    Counted ({ s with tree := false, given := s.given + 1 }.goto i .call) (.call i) := by
  obtain rfl := h.tree ht
  have hcount : s.ref.toNat = s.held.card + s.tree.toNat + 0 := h.ref
  refine h.turn rfl (by simp [Phase.owner]) (by simp [Pc.phase]) ?_ (by simp [Obj.goto])
    (by simp [Phase.bare]) ?_ h.pending h.destroyed (by simp) (by simp) fun _ _ hj => hj
  · show s.ref.toNat = s.held.card + 0 + 1
    rw [hcount, ht]
    rfl
  · show s.given + 1 = 1
    rw [h.given]
    rfl

theorem Counted.call (h : Counted s φ) (hp : s.pc i = .call) :
    Counted ({ s with pending := s.pending + 1 }.goto i .out) .queued := by
  obtain rfl := h.phase i (.call i) (by rw [hp]; rfl)
  refine h.turn rfl (by simp [Phase.owner]) (by simp [Pc.phase]) h.ref ?_ (by simp [Phase.bare]) h.given ?_
    h.destroyed (by simp) (by simp) fun _ _ hj => hj
  · exact fun ht => absurd (h.tree ht) (by simp)
  · show s.pending + 1 = 1
    rw [h.pending]
    rfl

theorem Counted.free (h : Counted s φ) (hpend : 0 < s.pending) :
    Counted ({ s with pending := s.pending - 1 }.goto i .drop) (.drop i) := by
  have hq : φ = .queued := by
    rw [h.pending] at hpend
    cases φ <;> simp [Phase.pending] at hpend ⊢
  subst hq
  refine h.turn rfl (by simp [Phase.owner]) (by simp [Pc.phase]) h.ref ?_ (by simp [Phase.bare]) h.given ?_
    h.destroyed (by simp) (by simp) fun _ _ hj => hj
  · exact fun ht => absurd (h.tree ht) (by simp)
  · show s.pending - 1 = 0
    rw [h.pending]
    rfl

theorem Counted.drop (h : Counted s φ) (hp : s.pc i = .drop) :
    ∃ ψ, Counted ({ s with ref := s.ref - 1, given := s.given - 1 }.goto i
      (if s.ref - 1 = 0 then .destroy else k.rest)) ψ := by
  obtain rfl := h.phase i (.drop i) (by rw [hp]; rfl)
  have hcount : s.ref.toNat = s.held.card + s.tree.toNat + 1 := h.ref
  have hpos : 0 < s.ref.toNat := by omega
  have hsub := toNat_sub_one hpos
  have hgiven : s.given - 1 = 0 := by
    rw [h.given]
    rfl
  by_cases hzero : s.ref - 1 = 0
  · rw [if_pos hzero]
    have hone := (sub_one_eq_zero hpos).mp hzero
    refine ⟨.destroy i, h.turn rfl (by simp [Phase.owner]) (by simp [Pc.phase]) ?_ ?_ (fun _ => ?_) hgiven
      h.pending h.destroyed (by simp) (by simp) fun _ _ hj => hj⟩
    · show (s.ref - 1).toNat = s.held.card + s.tree.toNat + 0
      omega
    · exact fun ht => absurd (h.tree ht) (by simp)
    · exact Multiset.card_eq_zero.mp (show s.held.card = 0 by omega)
  · rw [if_neg hzero]
    refine ⟨.live, h.turn rfl (by simp [Phase.owner]) ?_ ?_ (fun _ => rfl) (by simp [Phase.bare]) hgiven
      h.pending h.destroyed ?_ ?_ fun _ _ hj => hj⟩
    · cases k <;> simp [Kind.rest, Pc.phase]
    · show (s.ref - 1).toNat = s.held.card + s.tree.toNat + 0
      omega
    · cases k <;> simp [Kind.rest]
    · cases k <;> simp [Kind.rest]

theorem Counted.destroy (h : Counted s φ) (hp : s.pc i = .destroy) :
    Counted ({ s with destroyed := s.destroyed + 1 }.goto i .out) .gone := by
  obtain rfl := h.phase i (.destroy i) (by rw [hp]; rfl)
  refine h.turn rfl (by simp [Phase.owner]) (by simp [Pc.phase]) h.ref ?_ (fun _ => h.bare rfl) h.given
    h.pending ?_ (by simp) (by simp) fun _ _ hj => hj
  · exact fun ht => absurd (h.tree ht) (by simp)
  · show s.destroyed + 1 = 1
    rw [h.destroyed]
    rfl

theorem Counted.pass {j : ι} (h : Counted s φ) (hp : s.pc i = .out) (hi : i ∈ s.held) :
    Counted { s with held := j ::ₘ s.held.erase i } φ := by
  refine ⟨h.phase, ?_, h.tree, fun hb => ?_, h.given, h.pending, h.destroyed, fun l hl => ?_, h.cas⟩
  · show s.ref.toNat = (j ::ₘ s.held.erase i).card + s.tree.toNat + φ.share
    rw [h.ref, Multiset.card_cons, Multiset.card_erase_add_one hi]
  · rw [h.bare hb] at hi
    simp at hi
  · have hl' : s.pc l = .last ∨ s.pc l = .sub := hl
    have hli : l ≠ i := by
      rintro rfl
      rw [hp] at hl'
      simp at hl'
    exact Multiset.mem_cons_of_mem ((Multiset.mem_erase_of_ne hli).mpr (h.mine l hl))

theorem Counted.step (h : Counted s φ) (hfew : (s.step k i).refs < 2 ^ 32) :
    ∃ ψ, Counted (s.step k i) ψ := by
  unfold Obj.step at hfew ⊢
  cases hp : s.pc i with
  | out => exact ⟨φ, h⟩
  | load =>
    refine ⟨φ, h.goto ?_ ?_ ?_⟩
    · split <;> rfl
    · split <;> simp
    · intro r hr
      split at hr
      · simp at hr
      · rwa [← Pc.cas.inj hr]
  | cas r =>
    simp only [hp] at hfew
    dsimp only
    split
    · rename_i hr
      rw [if_pos hr] at hfew
      refine ⟨φ, h.addRef hp hr ?_⟩
      have hrefs : ({ s with ref := r + 1, held := i ::ₘ s.held }.goto i .out).refs = s.refs + 1 := by
        show (i ::ₘ s.held).card + s.tree.toNat + s.given = s.held.card + s.tree.toNat + s.given + 1
        rw [Multiset.card_cons]
        omega
      rwa [hrefs] at hfew
    · exact ⟨φ, h.goto rfl (by simp) (by simp)⟩
  | last =>
    dsimp only
    split
    · exact ⟨_, h.last hp ‹_›⟩
    · exact ⟨φ, h.goto rfl (fun _ => h.mine i (.inl hp)) (by simp)⟩
  | sub => exact h.sub hp
  | one => exact ⟨_, h.one hp⟩
  | call => exact ⟨_, h.call hp⟩
  | drop => exact h.drop hp
  | destroy => exact ⟨_, h.destroy hp⟩
  | up => exact ⟨φ, h.goto rfl (by simp) (by simp)⟩

theorem Counted.act {a : Act ι} (h : Counted s φ) (hfew : (s.act k i a).refs < 2 ^ 32) :
    ∃ ψ, Counted (s.act k i a) ψ := by
  unfold Obj.act at hfew ⊢
  split
  · exact h.step hfew
  · exact ⟨φ, h.goto rfl (by simp) (by simp)⟩
  · split
    · exact ⟨φ, h.goto rfl (fun _ => ‹_›) (by simp)⟩
    · exact ⟨φ, h⟩
  · split
    · exact ⟨_, h.revoke ‹_›⟩
    · exact ⟨φ, h⟩
  · split
    · exact ⟨_, h.free ‹_›⟩
    · exact ⟨φ, h⟩
  · split
    · exact ⟨φ, h.pass ‹_› ‹_›⟩
    · exact ⟨φ, h⟩
  · exact ⟨φ, h⟩

theorem Counted.after {acts : List (ι × Act ι)} (h : Counted s φ)
    (hfew : ∀ p, p <+: acts → (s.after k p).refs < 2 ^ 32) : ∃ ψ, Counted (s.after k acts) ψ := by
  induction acts generalizing s φ with
  | nil => exact ⟨φ, h⟩
  | cons x acts ih =>
    obtain ⟨ψ, hψ⟩ := h.act (k := k) (i := x.1) (a := x.2) (hfew [x] (by simp))
    exact ih hψ fun p hp => hfew (x :: p) ((List.cons_prefix_cons).mpr ⟨rfl, hp⟩)

end Steps

theorem counted_create (o : Option ι) : Counted (Obj.create o) .live := by
  cases o with
  | none => exact ⟨by simp [Obj.create, Pc.phase], rfl, fun _ => rfl, by simp [Phase.bare], rfl, rfl, rfl,
      by simp [Obj.create], by simp [Obj.create]⟩
  | some i => exact ⟨by simp [Obj.create, Pc.phase], rfl, fun _ => rfl, by simp [Phase.bare], rfl, rfl, rfl,
      by simp [Obj.create], by simp [Obj.create]⟩

structure Sound (s : Obj ι) : Prop where
  once : s.destroyed ≤ 1
  kept : 0 < s.destroyed → s.held = 0
  destroy : ∀ i, s.pc i = .destroy → s.destroyed = 0 ∧ s.held = 0
  queued : s.pending ≤ 1
  call : ∀ i, s.pc i = .call → s.pending = 0

theorem Counted.sound {s : Obj ι} {φ : Phase ι} (h : Counted s φ) : Sound s := by
  refine ⟨?_, fun hpos => h.bare ?_, fun i hi => ?_, ?_, fun i hi => ?_⟩
  · rw [h.destroyed]
    cases φ <;> simp [Phase.destroyed]
  · rw [h.destroyed] at hpos
    cases φ <;> simp [Phase.destroyed] at hpos
    rfl
  · obtain rfl := h.phase i (.destroy i) (by rw [hi]; rfl)
    exact ⟨h.destroyed, h.bare rfl⟩
  · rw [h.pending]
    cases φ <;> simp [Phase.pending]
  · obtain rfl := h.phase i (.call i) (by rw [hi]; rfl)
    exact h.pending

/-- However the parties interleave, as long as there are fewer than 2^32 references. -/
theorem after_sound [DecidableEq ι] (k : Kind) (o : Option ι) (acts : List (ι × Act ι))
    (hfew : ∀ p, p <+: acts → ((Obj.create o).after k p).refs < 2 ^ 32) :
    Sound ((Obj.create o).after k acts) := by
  obtain ⟨φ, h⟩ := (counted_create o).after hfew
  exact h.sound

/-- Party 1 takes a reference while the last one waits in RCU, and gives it up after
the callback. -/
def revived : List (Fin 2 × Act (Fin 2)) :=
  [(0, .delRcu), (0, .step), (1, .addRef), (0, .step), (1, .step), (1, .step), (0, .free), (0, .step),
    (0, .step), (1, .delRcu), (1, .step), (1, .step), (0, .free), (0, .step), (0, .step)]

theorem revived_sound :
    (∀ p, p <+: revived → ((Obj.create (some 0)).after .sm p).refs < 2 ^ 32) ∧
      ((Obj.create (some 0)).after .sm revived).destroyed = 1 ∧
        Sound ((Obj.create (some 0)).after .sm revived) := by
  have hfew : ∀ p ∈ revived.inits, ((Obj.create (some 0)).after .sm p).refs < 2 ^ 32 := by
    decide +kernel
  have hfew' : ∀ p, p <+: revived → ((Obj.create (some 0)).after .sm p).refs < 2 ^ 32 :=
    fun p hp => hfew p ((List.mem_inits p revived).mpr hp)
  exact ⟨hfew', by decide +kernel, after_sound .sm (some 0) revived hfew'⟩

end Tukija.Ref
