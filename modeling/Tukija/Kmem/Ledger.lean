import Tukija.Kmem.Account

/-! The accounts over whole histories. -/
namespace Tukija.Kmem

open Tukija.Lib.Word Tukija.Lib.Checked

variable {ι : Type} [DecidableEq ι] [Fintype ι] {s : Books ι}

/-- The condition `C` holds before every step. -/
def AllMeet (C : Books ι → Op ι → Prop) : List (Op ι) → Books ι → Prop
  | [], _ => True
  | op :: ops, s => C s op ∧ AllMeet C ops (exec op s)

omit [Fintype ι] in
theorem send_wrapped {src dst : ι} {t : Mword} {chk : Bool}
    (h : (s.send src dst t chk).wrapped = false) : s.wrapped = false := by
  unfold Books.send at h
  dsimp only at h
  split at h
  · exact (Bool.or_eq_false_iff.mp h).1
  · exact (Bool.or_eq_false_iff.mp h).1

omit [Fintype ι] in
theorem exec_wrapped {op : Op ι} (h : (exec op s).wrapped = false) : s.wrapped = false := by
  cases op with
  | alloc i p => exact (Bool.or_eq_false_iff.mp h).1
  | free i p => exact (Bool.or_eq_false_iff.mp h).1
  | transfer src dst t chk => exact send_wrapped h
  | setNotr i l => exact h
  | check guard ref req =>
    simp only [exec] at h
    split at h
    · exact (Bool.or_eq_false_iff.mp h).1
    · exact (Bool.or_eq_false_iff.mp (send_wrapped h)).1
  | freeUp src dst => exact h
  | deliver n =>
    simp only [exec] at h
    split at h
    · exact h
    · exact (Bool.or_eq_false_iff.mp h).1
    · exact (Bool.or_eq_false_iff.mp h).1

omit [Fintype ι] in
theorem run_wrapped {ops : List (Op ι)} (h : (run ops s).wrapped = false) : s.wrapped = false := by
  induction ops generalizing s with
  | nil => exact h
  | cons op ops ih => exact exec_wrapped (ih h)

omit [DecidableEq ι] in
theorem total_sub (f g : Quota → Int) : s.total (fun q => f q - g q) = s.total f - s.total g := by
  have hlist : ∀ l : List (Parcel ι), (l.map fun p => f p.quota - g p.quota).sum =
      (l.map fun p => f p.quota).sum - (l.map fun p => g p.quota).sum := by
    intro l
    induction l with
    | nil => simp
    | cons p l ih =>
      simp only [List.map_cons, List.sum_cons, ih]
      ring
  unfold Books.total
  rw [Finset.sum_sub_distrib, hlist]
  ring

omit [DecidableEq ι] in
theorem total_eq_sum (f : Quota → Int) (h : s.parcels = []) : s.total f = ∑ i, f (s.quota i) := by
  simp [Books.total, h]

section Conservation

def spare (q : Quota) : Int := upliOf q - usedOf q

/-- By how much a step raises what all accounts together may still take. -/
def spareChange : Op ι → Int
  | .alloc _ p => -p.toNat
  | .free _ p => p.toNat
  | _ => 0

theorem exec_spare (op : Op ι) (h : (exec op s).wrapped = false) :
    (exec op s).total spare = s.total spare + spareChange op := by
  obtain ⟨du, dO, dl, hm, hc⟩ := exec_moved op h
  unfold spare
  rw [total_sub, total_sub, hm.upli, hm.used]
  cases op with
  | alloc i p =>
    obtain ⟨rfl, -, rfl⟩ := hc
    simp only [spareChange]
    ring
  | free i p =>
    obtain ⟨d, -, -, rfl, -, rfl⟩ := hc
    simp only [spareChange]
    ring
  | transfer src dst t chk | setNotr i l | check guard ref req | freeUp src dst =>
    obtain ⟨rfl, -, rfl⟩ := hc
    simp [spareChange]
  | deliver n =>
    rcases hc with ⟨d, -, rfl, -, rfl⟩ | ⟨-, rfl, -, rfl⟩
    · simp only [spareChange]
      ring
    · simp [spareChange]

/-- Only `alloc` and `free` change what all accounts together may still take,
by what they allocate and free.  Nothing is on its way between two calls. -/
theorem run_spare (ops : List (Op ι)) (s : Books ι) (h : (run ops s).wrapped = false) :
    (run ops s).total spare = s.total spare + (ops.map spareChange).sum ∧
      (s.parcels = [] → (run ops s).parcels = [] →
        ∑ i, spare ((run ops s).quota i) = ∑ i, spare (s.quota i) + (ops.map spareChange).sum) := by
  have htotal : (run ops s).total spare = s.total spare + (ops.map spareChange).sum := by
    induction ops generalizing s with
    | nil => simp [run]
    | cons op ops ih =>
      have hstep := exec_spare (s := s) op (run_wrapped (s := exec op s) h)
      have hrest := ih (exec op s) h
      simp only [run, List.foldl_cons] at hrest ⊢
      rw [hrest, hstep, List.map_cons, List.sum_cons]
      ring
  refine ⟨htotal, ?_⟩
  intro h0 h1
  rw [← total_eq_sum spare h0, ← total_eq_sum spare h1]
  exact htotal

/-- Two accounts: what was allocated on the first is freed on the second, whose
limit then goes over to the first. -/
def oneDebt : List (Op (Fin 2)) := [.alloc 0 5, .free 1 5, .transfer 1 0 5 true, .deliver 0]

theorem run_spare_oneDebt :
    (run oneDebt Books.start).parcels = [] ∧
      ∑ i, spare ((run oneDebt Books.start).quota i) =
        ∑ i : Fin 2, spare ((Books.start : Books (Fin 2)).quota i) + (oneDebt.map spareChange).sum :=
  ⟨by decide +kernel, (run_spare oneDebt Books.start (by decide +kernel)).2 rfl (by decide +kernel)⟩

end Conservation

section Debt

/-- Pages charged here less pages freed here that were charged elsewhere. -/
def charged (q : Quota) : Int := usedOf q - ovrOf q

def granted (q : Quota) : Int := upliOf q - ovrOf q

/-- No part of `ovr` is on its way to an account that has nothing in use. -/
def Settles (s : Books ι) : Op ι → Prop
  | .deliver n => ¬Loses s n
  | _ => True

theorem exec_debt (op : Op ι) (hs : Settles s op) (h : (exec op s).wrapped = false) :
    (exec op s).total charged = s.total charged - spareChange op ∧
      (exec op s).total granted = s.total granted := by
  obtain ⟨du, dO, dl, hm, hc⟩ := exec_moved op h
  unfold charged granted
  rw [total_sub, total_sub, total_sub, total_sub, hm.upli, hm.used, hm.ovr]
  cases op with
  | alloc i p =>
    obtain ⟨rfl, rfl, rfl⟩ := hc
    simp only [spareChange]
    exact ⟨by ring, by ring⟩
  | free i p =>
    obtain ⟨d, -, -, rfl, rfl, rfl⟩ := hc
    simp only [spareChange]
    exact ⟨by ring, by ring⟩
  | transfer src dst t chk | setNotr i l | check guard ref req | freeUp src dst =>
    obtain ⟨rfl, rfl, rfl⟩ := hc
    simp [spareChange]
  | deliver n =>
    rcases hc with ⟨d, -, rfl, rfl, rfl⟩ | ⟨hl, -⟩
    · simp only [spareChange]
      exact ⟨by ring, by ring⟩
    · exact absurd hl hs

omit [DecidableEq ι] in
theorem total_start (f : Quota → Int) (h : f .zero = 0) : (Books.start : Books ι).total f = 0 := by
  simp [Books.total, Books.start, h]

/-- The pages charged to all accounts are those allocated and not freed, and
what was granted to all of them stays the same. -/
theorem run_debt (ops : List (Op ι)) (hs : AllMeet Settles ops Books.start)
    (h : (run ops Books.start).wrapped = false) :
    ((run ops Books.start).total charged = -(ops.map spareChange).sum ∧
      (run ops Books.start).total granted = 0) ∧
      ((run ops Books.start).parcels = [] →
        ∑ i, charged ((run ops Books.start).quota i) = -(ops.map spareChange).sum ∧
          ∑ i, granted ((run ops Books.start).quota i) = 0) := by
  have hgen : ∀ (ops : List (Op ι)) (s : Books ι), AllMeet Settles ops s →
      (run ops s).wrapped = false →
        (run ops s).total charged = s.total charged - (ops.map spareChange).sum ∧
          (run ops s).total granted = s.total granted := by
    intro ops
    induction ops with
    | nil => intro s _ _; simp [run]
    | cons op ops ih =>
      intro s hs h
      obtain ⟨hc1, hg1⟩ := exec_debt op hs.1 (run_wrapped (s := exec op s) h)
      obtain ⟨hc2, hg2⟩ := ih (exec op s) hs.2 h
      simp only [run, List.foldl_cons] at hc2 hg2 ⊢
      rw [hc2, hc1, hg2, hg1, List.map_cons, List.sum_cons]
      exact ⟨by ring, rfl⟩
  have hrun := hgen ops Books.start hs h
  rw [total_start charged rfl, total_start granted rfl, zero_sub] at hrun
  refine ⟨hrun, ?_⟩
  intro h0
  rw [← total_eq_sum charged h0, ← total_eq_sum granted h0]
  exact hrun

theorem run_debt_oneDebt :
    (run oneDebt Books.start).parcels = [] ∧ (oneDebt.map spareChange).sum = 0 ∧
      ∑ i, charged ((run oneDebt Books.start).quota i) = -(oneDebt.map spareChange).sum ∧
        ∑ i, granted ((run oneDebt Books.start).quota i) = 0 := by
  refine ⟨by decide +kernel, by decide +kernel, ?_⟩
  apply (run_debt oneDebt _ (by decide +kernel)).2 (by decide +kernel)
  refine ⟨trivial, trivial, trivial, ?_, trivial⟩
  rintro ⟨dst, t, o, hp, -, hu⟩
  have hparcel : (run [.alloc 0 5, .free 1 5, .transfer 1 0 5 true]
      (Books.start : Books (Fin 2))).parcels[0]? = some (.transfer 0 5 5) := by decide +kernel
  have hdst : dst = 0 := (Parcel.transfer.inj (Option.some.inj (hparcel.symm.trans hp))).1.symm
  subst hdst
  exact absurd hu (by decide +kernel)

/-- Three accounts: the limit that freeing has raised goes to an account with
nothing in use. -/
def lostDebt : List (Op (Fin 3)) := [.alloc 0 5, .free 1 5, .transfer 1 2 5 true, .deliver 0]

theorem lostDebt_forgotten :
    ¬∀ ops : List (Op (Fin 3)), (run ops Books.start).wrapped = false →
      (run ops Books.start).parcels = [] →
        ∑ i, charged ((run ops Books.start).quota i) = -(ops.map spareChange).sum ∧
          ∑ i, granted ((run ops Books.start).quota i) = 0 := by
  intro hall
  have h := (hall lostDebt (by decide +kernel) (by decide +kernel)).1
  exact absurd h (by decide +kernel)

end Debt

section NoWrap

variable {op : Op ι}

/-- Before a step: what is in use and the limits of all accounts leave room for
the pages that are allocated and freed, and a transfer asks for no more than a
word holds together with what is in use, of a limit that is not below `notr`. -/
def Fits (s : Books ι) : Op ι → Prop
  | .alloc _ p => s.total usedOf + p.toNat < 2 ^ 64
  | .free _ p => s.total upliOf + p.toNat < 2 ^ 64
  | .transfer src _ t chk => (s.quota src).used.toNat ≤ (s.quota src).upli.toNat →
      (s.quota src).used.toNat + t.toNat < 2 ^ 64 ∧
        (chk = true → (s.quota src).notr.toNat ≤ (s.quota src).upli.toNat)
  | .check guard ref req =>
      (s.quota guard).used.toNat + req.toNat < (s.quota guard).upli.toNat + 2 ^ 64 ∧
        ((s.quota ref).used.toNat ≤ (s.quota ref).upli.toNat →
          (s.quota ref).used.toNat + ((s.quota guard).used.toNat + req.toNat) <
            (s.quota guard).upli.toNat + 2 ^ 64)
  | _ => True

instance (s : Books ι) (op : Op ι) : Decidable (Fits s op) :=
  match op with
  | .alloc .. => inferInstanceAs (Decidable (_ < _))
  | .free .. => inferInstanceAs (Decidable (_ < _))
  | .transfer .. => inferInstanceAs (Decidable (_ → _ ∧ _))
  | .setNotr .. => isTrue trivial
  | .check .. => inferInstanceAs (Decidable (_ ∧ (_ → _)))
  | .freeUp .. => isTrue trivial
  | .deliver _ => isTrue trivial

/-- No account and no parcel has an `ovr` above its limit. -/
def Backed (s : Books ι) : Prop :=
  (∀ i, (s.quota i).ovr.toNat ≤ (s.quota i).upli.toNat) ∧
    ∀ p ∈ s.parcels, p.quota.ovr.toNat ≤ p.quota.upli.toNat

structure Sane (s : Books ι) : Prop where
  wrapped : s.wrapped = false
  backed : Backed s
  used : s.total usedOf < 2 ^ 64
  upli : s.total upliOf < 2 ^ 64

omit [DecidableEq ι] in
theorem le_total (s : Books ι) (f : Quota → Int) (hf : ∀ q, 0 ≤ f q) (i : ι) :
    f (s.quota i) ≤ s.total f := by
  have hsum : f (s.quota i) ≤ ∑ j, f (s.quota j) :=
    Finset.single_le_sum (fun j _ => hf (s.quota j)) (Finset.mem_univ i)
  have hlist : 0 ≤ (s.parcels.map fun p => f p.quota).sum := by
    apply List.sum_nonneg
    intro x hx
    obtain ⟨p, -, rfl⟩ := List.mem_map.mp hx
    exact hf _
  unfold Books.total
  omega

omit [DecidableEq ι] in
theorem add_le_total {n : Nat} {p : Parcel ι} (h : s.parcels[n]? = some p) (f : Quota → Int)
    (hf : ∀ q, 0 ≤ f q) (i : ι) : f (s.quota i) + f p.quota ≤ s.total f := by
  have hle := le_total ({ s with parcels := s.parcels.eraseIdx n } : Books ι) f hf i
  rw [eraseIdx_total h] at hle
  dsimp only at hle
  omega

theorem usedOf_nonneg (q : Quota) : 0 ≤ usedOf q := Int.natCast_nonneg _

theorem upliOf_nonneg (q : Quota) : 0 ≤ upliOf q := Int.natCast_nonneg _

omit [Fintype ι] in
theorem send_unwrapped {src dst : ι} {t : Mword} {chk : Bool} (hw : s.wrapped = false)
    (h : (s.quota src).used.toNat ≤ (s.quota src).upli.toNat →
      (s.quota src).used.toNat + t.toNat < 2 ^ 64 ∧
        (chk = true → (s.quota src).notr.toNat ≤ (s.quota src).upli.toNat)) :
    (s.send src dst t chk).wrapped = false := by
  have hout := Quota.transferOut_wraps h
  unfold Books.send
  dsimp only
  split
  · exact Bool.or_eq_false_iff.mpr ⟨hw, hout⟩
  · exact Bool.or_eq_false_iff.mpr ⟨hw, hout⟩

theorem Sane.unwrapped (h : Sane s) (hf : Fits s op) : (exec op s).wrapped = false := by
  have hw := h.wrapped
  cases op with
  | alloc i p =>
    have hle := le_total s usedOf usedOf_nonneg i
    refine Bool.or_eq_false_iff.mpr ⟨hw, Quota.alloc_wraps.mpr ?_⟩
    unfold Fits at hf
    unfold usedOf at hle hf
    omega
  | free i p =>
    have hle := le_total s upliOf upliOf_nonneg i
    have hovr := h.backed.1 i
    unfold Fits at hf
    refine Bool.or_eq_false_iff.mpr ⟨hw, Quota.free_wraps ?_ ?_⟩
    · simp only [upliOf] at hle
      omega
    · simp only [upliOf] at hle
      omega
  | transfer src dst t chk => exact send_unwrapped hw hf
  | setNotr i l => exact hw
  | check guard ref req =>
    have hreq := Quota.checkReq_wraps hf.1
    simp only [exec]
    split
    · exact Bool.or_eq_false_iff.mpr ⟨hw, hreq⟩
    · rename_i t ht
      have hamount := Quota.checkReq_some hreq ht
      apply send_unwrapped (Bool.or_eq_false_iff.mpr ⟨hw, hreq⟩)
      intro hle
      have := hf.2 hle
      exact ⟨by simp only [Books.note]; omega, by simp⟩
  | freeUp src dst => exact hw
  | deliver n =>
    simp only [exec]
    split
    · exact hw
    · rename_i dst t o hp
      have hparcel : o.toNat ≤ t.toNat := h.backed.2 _ (List.mem_of_getElem? hp)
      have hle := add_le_total hp upliOf upliOf_nonneg dst
      have hovr := h.backed.1 dst
      have hupli := h.upli
      simp only [upliOf, Parcel.quota] at hle
      refine Bool.or_eq_false_iff.mpr ⟨hw, Quota.transferIn_wraps ?_ ?_ hparcel⟩
      · omega
      · omega
    · rename_i dst l u o hp
      have hparcel : o.toNat ≤ l.toNat := h.backed.2 _ (List.mem_of_getElem? hp)
      have hle := add_le_total hp upliOf upliOf_nonneg dst
      have hle' := add_le_total hp usedOf usedOf_nonneg dst
      have hovr := h.backed.1 dst
      have hupli := h.upli
      have hused := h.used
      simp only [upliOf, usedOf, Parcel.quota] at hle hle'
      refine Bool.or_eq_false_iff.mpr ⟨hw, Quota.freeUpIn_wraps ?_ ?_ hovr hparcel⟩
      · omega
      · omega

omit [Fintype ι] in
theorem update_ovr {g : ι → Quota} {i : ι} {q : Quota}
    (h : ∀ j, (g j).ovr.toNat ≤ (g j).upli.toNat) (hq : q.ovr.toNat ≤ q.upli.toNat) (j : ι) :
    (Function.update g i q j).ovr.toNat ≤ (Function.update g i q j).upli.toNat := by
  by_cases hj : j = i
  · subst hj
    rw [Function.update_self]
    exact hq
  · rw [Function.update_of_ne hj]
    exact h j

omit [Fintype ι] in
theorem send_backed {src dst : ι} {t : Mword} {chk : Bool} (h : Backed s)
    (hw : (s.send src dst t chk).wrapped = false) : Backed (s.send src dst t chk) := by
  unfold Books.send at hw ⊢
  dsimp only at hw ⊢
  cases hv : ((s.quota src).transferOut t chk).val with
  | none => exact h
  | some r =>
    obtain ⟨q, o⟩ := r
    simp only [hv] at hw
    obtain ⟨-, hupli, hovr, hmin, -⟩ := Quota.transferOut_some (Bool.or_eq_false_iff.mp hw).2 hv
    have hsrc := h.1 src
    refine ⟨update_ovr h.1 (by omega), ?_⟩
    intro p hp
    rcases List.mem_cons.mp hp with rfl | hp
    · simp only [Parcel.quota]
      omega
    · exact h.2 p hp

omit [Fintype ι] in
theorem put_backed {i : ι} {c : Calc Quota} {ps : List (Parcel ι)} (h : Backed s)
    (hps : ∀ p ∈ ps, p ∈ s.parcels) (hc : c.val.ovr.toNat ≤ c.val.upli.toNat) :
    Backed (({ s with parcels := ps } : Books ι).put i c) :=
  ⟨update_ovr h.1 hc, fun p hp => h.2 p (hps p hp)⟩

omit [Fintype ι] in
theorem exec_backed (h : Backed s) (hw : (exec op s).wrapped = false) : Backed (exec op s) := by
  cases op with
  | alloc i p => exact put_backed h (fun p hp => hp) (h.1 i)
  | free i p =>
    have hi := h.1 i
    apply put_backed h (fun p hp => hp)
    rcases Quota.free_cases (Bool.or_eq_false_iff.mp hw).2 with ⟨-, ho, hl⟩ | ⟨-, -, ho, hl⟩
    · rw [ho, hl]
      exact hi
    · omega
  | transfer src dst t chk => exact send_backed h hw
  | setNotr i l => exact ⟨update_ovr h.1 (h.1 i), h.2⟩
  | check guard ref req =>
    simp only [exec] at hw ⊢
    split at hw
    · exact h
    · exact send_backed (s := s.note ((s.quota guard).checkReq req).wraps) h hw
  | freeUp src dst =>
    refine ⟨update_ovr h.1 le_rfl, ?_⟩
    intro p hp
    rcases List.mem_cons.mp hp with rfl | hp
    · exact h.1 src
    · exact h.2 p hp
  | deliver n =>
    have herase : ∀ p ∈ s.parcels.eraseIdx n, p ∈ s.parcels := fun p hp => List.mem_of_mem_eraseIdx hp
    simp only [exec] at hw ⊢
    cases hp : s.parcels[n]? with
    | none => exact h
    | some p =>
      rw [hp] at hw
      have hparcel := h.2 p (List.mem_of_getElem? hp)
      cases p with
      | transfer dst t o =>
        have hdst := h.1 dst
        simp only [Parcel.quota] at hparcel
        apply put_backed h herase
        rcases Quota.transferIn_cases (Bool.or_eq_false_iff.mp hw).2 with
          ⟨-, ho, hl, -⟩ | ⟨d, hd, -, hl, ho⟩
        · rw [ho]
          omega
        · omega
      | freeUp dst l u o =>
        have hdst := h.1 dst
        simp only [Parcel.quota] at hparcel
        apply put_backed h herase
        obtain ⟨d, hd, -, hl, ho⟩ := Quota.freeUpIn_cases (Bool.or_eq_false_iff.mp hw).2
        omega

theorem Sane.exec (h : Sane s) (hf : Fits s op) : Sane (exec op s) := by
  have hw := h.unwrapped hf
  obtain ⟨du, dO, dl, hm, hc⟩ := exec_moved op hw
  have hused := h.used
  have hupli := h.upli
  have hle : du ≤ 0 ∧ dl ≤ 0 ∨ s.total usedOf + du < 2 ^ 64 ∧ s.total upliOf + dl < 2 ^ 64 := by
    cases op with
    | alloc i p =>
      obtain ⟨rfl, -, rfl⟩ := hc
      unfold Fits at hf
      omega
    | free i p =>
      obtain ⟨d, h0, hd, rfl, -, rfl⟩ := hc
      unfold Fits at hf
      omega
    | transfer src dst t chk => exact Or.inl ⟨hc.1.le, hc.2.2.le⟩
    | setNotr i l => exact Or.inl ⟨hc.1.le, hc.2.2.le⟩
    | check guard ref req => exact Or.inl ⟨hc.1.le, hc.2.2.le⟩
    | freeUp src dst => exact Or.inl ⟨hc.1.le, hc.2.2.le⟩
    | deliver n =>
      rcases hc with ⟨d, h0, rfl, -, rfl⟩ | ⟨-, rfl, -, rfl⟩
      · omega
      · omega
  refine ⟨hw, exec_backed h.backed hw, ?_, ?_⟩
  · rw [hm.used]
    omega
  · rw [hm.upli]
    omega

def request (s : Books ι) : Op ι → Option (ι × ι × Mword × Bool)
  | .transfer src dst t chk => some (src, dst, t, chk)
  | .check guard ref req => ((s.quota guard).checkReq req).val.map fun t => (ref, guard, t, false)
  | _ => none

/-- A refused transfer changes nothing; one that is granted takes its amount
from the limit, which still covers what is in use, and sends it off. -/
structure Asked (s s' : Books ι) (src dst : ι) (t : Mword) (chk : Bool) : Prop where
  refused : ((s.quota src).transferOut t chk).val = none →
    s'.quota = s.quota ∧ s'.parcels = s.parcels
  granted : ((s.quota src).transferOut t chk).val ≠ none →
    (∃ o, s'.parcels = .transfer dst t o :: s.parcels) ∧
      upliOf (s'.quota src) = upliOf (s.quota src) - t.toNat ∧
        usedOf (s'.quota src) = usedOf (s.quota src) ∧
          usedOf (s'.quota src) ≤ upliOf (s'.quota src) ∧ ∀ j, j ≠ src → s'.quota j = s.quota j

/-- Nothing wraps around, and transfers move what they are asked to. -/
structure Exact (s : Books ι) (op : Op ι) : Prop where
  wrapped : (exec op s).wrapped = false
  asked : ∀ src dst t chk, request s op = some (src, dst, t, chk) →
    Asked s (exec op s) src dst t chk
  arrived : ∀ n dst t o, op = .deliver n → s.parcels[n]? = some (.transfer dst t o) →
    spare ((exec op s).quota dst) = spare (s.quota dst) + t.toNat ∧
      ∀ j, j ≠ dst → (exec op s).quota j = s.quota j

omit [Fintype ι] in
theorem send_asked {src dst : ι} {t : Mword} {chk : Bool}
    (h : (s.send src dst t chk).wrapped = false) : Asked s (s.send src dst t chk) src dst t chk := by
  unfold Books.send at h ⊢
  dsimp only at h ⊢
  cases hv : ((s.quota src).transferOut t chk).val with
  | none => exact ⟨fun _ => ⟨rfl, rfl⟩, fun hne => absurd hv hne⟩
  | some r =>
    obtain ⟨q, o⟩ := r
    simp only [hv] at h
    obtain ⟨hused, hupli, -, -, hle⟩ := Quota.transferOut_some (Bool.or_eq_false_iff.mp h).2 hv
    refine ⟨fun hnone => by simp [hv] at hnone, fun _ => ⟨⟨o, rfl⟩, ?_, ?_, ?_, ?_⟩⟩
    · dsimp only
      rw [Function.update_self]
      simp only [upliOf]
      omega
    · dsimp only
      rw [Function.update_self]
      simp only [usedOf, hused]
    · dsimp only
      rw [Function.update_self]
      simp only [usedOf, upliOf]
      omega
    · intro j hj
      exact Function.update_of_ne hj _ _

theorem Sane.exact (h : Sane s) (hf : Fits s op) : Exact s op := by
  have hw := h.unwrapped hf
  refine ⟨hw, ?_, ?_⟩
  · intro src dst t chk hreq
    cases op with
    | transfer src' dst' t' chk' =>
      obtain ⟨rfl, rfl, rfl, rfl⟩ : src' = src ∧ dst' = dst ∧ t' = t ∧ chk' = chk := by
        simpa [request] using hreq
      exact send_asked hw
    | check guard ref req =>
      obtain ⟨t', ht, heq⟩ := Option.map_eq_some_iff.mp hreq
      obtain ⟨rfl, rfl, rfl, rfl⟩ : ref = src ∧ guard = dst ∧ t' = t ∧ false = chk := by
        simpa using heq
      simp only [Kmem.exec, ht] at hw ⊢
      have hsend := send_asked hw
      exact ⟨hsend.refused, hsend.granted⟩
    | alloc i p => simp [request] at hreq
    | free i p => simp [request] at hreq
    | setNotr i l => simp [request] at hreq
    | freeUp src' dst' => simp [request] at hreq
    | deliver n => simp [request] at hreq
  · rintro n dst t o rfl hp
    simp only [Kmem.exec, hp] at hw ⊢
    constructor
    · simp only [Books.put, Function.update_self, spare, upliOf, usedOf]
      rcases Quota.transferIn_cases (Bool.or_eq_false_iff.mp hw).2 with
        ⟨hu, -, hl, -⟩ | ⟨d, -, hu, hl, -⟩
      · rw [hu]
        omega
      · omega
    · intro j hj
      exact Function.update_of_ne hj _ _

/-- In a history whose steps all fit, nothing wraps around and every transfer
moves what it is asked to. -/
theorem run_exact (ops : List (Op ι)) (h : AllMeet Fits ops Books.start) :
    (run ops Books.start).wrapped = false ∧
      ∀ op, Fits (run ops Books.start) op → Exact (run ops Books.start) op := by
  have hstart : Sane (Books.start : Books ι) := by
    refine ⟨rfl, ⟨fun _ => le_rfl, by simp [Books.start]⟩, ?_, ?_⟩
    · rw [total_start usedOf rfl]
      decide
    · rw [total_start upliOf rfl]
      decide
  have hrun : ∀ (ops : List (Op ι)) (s : Books ι), Sane s → AllMeet Fits ops s →
      Sane (run ops s) := by
    intro ops
    induction ops with
    | nil => intro s hs _; exact hs
    | cons op ops ih => intro s hs hf; exact ih _ (hs.exec hf.1) hf.2
  have hs := hrun ops Books.start hstart h
  exact ⟨hs.wrapped, fun op hf => hs.exact hf⟩

theorem run_exact_oneDebt :
    (run oneDebt Books.start).wrapped = false ∧
      ∀ op, Fits (run oneDebt Books.start) op → Exact (run oneDebt Books.start) op := by
  apply run_exact
  refine ⟨?_, ?_, ?_, trivial, trivial⟩
  · decide +kernel
  · decide +kernel
  · decide +kernel

/-- Five pages of limit, one in use, and a transfer of all pages but one that a
word can count. -/
def hugeTransfer : List (Op (Fin 2)) := [.free 0 5, .alloc 0 1, .transfer 0 1 (0 - 1) true]

theorem hugeTransfer_wraps : ¬∀ ops : List (Op (Fin 2)), (run ops Books.start).wrapped = false := by
  intro hall
  exact absurd (hall hugeTransfer) (by decide +kernel)

end NoWrap

end Tukija.Kmem
