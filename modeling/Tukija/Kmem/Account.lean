import Tukija.Kmem.Quota

/-! What the functions of `Quota` do as long as nothing wraps around, and what
follows for all accounts together. -/
namespace Tukija.Kmem

open Tukija.Lib.Word Tukija.Lib.Checked

namespace Quota

variable {q : Quota} {p t o l u req : Mword} {chk : Bool}

theorem alloc_wraps : (q.alloc p).wraps = false ↔ q.used.toNat + p.toNat < 2 ^ 64 := by
  simp [alloc]

theorem alloc_used (h : q.used.toNat + p.toNat < 2 ^ 64) :
    (q.alloc p).val.used.toNat = q.used.toNat + p.toNat :=
  add_toNat h

theorem free_cases (h : (q.free p).wraps = false) :
    ((q.free p).val.used.toNat + p.toNat = q.used.toNat ∧ (q.free p).val.ovr = q.ovr ∧
        (q.free p).val.upli = q.upli) ∨
      (q.used.toNat < p.toNat ∧ (q.free p).val.used = 0 ∧
        (q.free p).val.ovr.toNat = q.ovr.toNat + (p.toNat - q.used.toNat) ∧
          (q.free p).val.upli.toNat = q.upli.toNat + (p.toNat - q.used.toNat)) := by
  unfold free at h ⊢
  split at h
  · rename_i hle
    have hle' := BitVec.le_def.mp hle
    left
    simp only [hle, if_true, bind_val, pure_val]
    rw [sub_toNat hle']
    exact ⟨by omega, trivial, trivial⟩
  · rename_i hle
    have hlt : q.used.toNat < p.toNat := by
      rw [BitVec.le_def] at hle
      omega
    simp only [bind_wraps, pure_wraps, Bool.or_false, Bool.or_eq_false_iff, add_wraps, sub_wraps,
      sub_toNat hlt.le] at h
    right
    simp only [hle, if_false, bind_val, pure_val]
    refine ⟨hlt, trivial, ?_, ?_⟩
    · rw [add_toNat (by rw [sub_toNat hlt.le]; exact h.2.1), sub_toNat hlt.le]
    · rw [add_toNat (by rw [sub_toNat hlt.le]; exact h.2.2), sub_toNat hlt.le]

theorem free_wraps (ho : q.ovr.toNat + p.toNat < 2 ^ 64) (hu : q.upli.toNat + p.toNat < 2 ^ 64) :
    (q.free p).wraps = false := by
  unfold free
  split
  · rename_i hle
    have hle' := BitVec.le_def.mp hle
    simp [hle']
  · rename_i hle
    have hlt : q.used.toNat < p.toNat := by
      rw [BitVec.le_def] at hle
      omega
    simp only [bind_wraps, pure_wraps, Bool.or_false, Bool.or_eq_false_iff, add_wraps, sub_wraps,
      sub_toNat hlt.le]
    omega

theorem hitLimit_zero : q.hitLimit 0 = ⟨decide (q.upli < q.used), false⟩ := by
  have hlt : ¬q.upli < 0 := by
    rw [BitVec.lt_def]
    simp
  have hwraps : (sub q.upli 0).wraps = false := by simp
  have hval : (sub q.upli 0).val = q.upli := BitVec.sub_zero q.upli
  unfold hitLimit
  rw [if_neg hlt]
  change (⟨decide ((sub q.upli 0).val < q.used), (sub q.upli 0).wraps || false⟩ : Calc Bool) = _
  rw [hwraps, hval]
  rfl

theorem transferOut_some (h : (q.transferOut t chk).wraps = false) {q' : Quota}
    (hval : (q.transferOut t chk).val = some (q', o)) :
    q'.used = q.used ∧ q'.upli.toNat + t.toNat = q.upli.toNat ∧
      q'.ovr.toNat + o.toNat = q.ovr.toNat ∧ o.toNat = min q.ovr.toNat t.toNat ∧
        q'.used.toNat ≤ q'.upli.toNat := by
  unfold transferOut at h hval
  rw [hitLimit_zero] at h hval
  simp only [bind_val, bind_wraps, Bool.false_or] at h hval
  split at hval
  · simp at hval
  · rename_i hhit
    simp only [hhit, if_false, Bool.false_eq_true, bind_val, bind_wraps, Bool.or_eq_false_iff,
      add_wraps, sub_wraps] at h hval
    generalize (if chk = true then q.notr else 0) = notr at h hval
    obtain ⟨hadd, hnotr, h⟩ := h
    split at hval
    · simp at hval
    · rename_i hroom
      simp only [hroom, if_false, bind_wraps, Bool.or_eq_false_iff, sub_wraps] at h
      simp only [bind_val, pure_val, Option.some.injEq, Prod.mk.injEq] at hval
      obtain ⟨rfl, rfl⟩ := hval
      have hle : q.used.toNat + t.toNat ≤ q.upli.toNat := by
        rw [BitVec.lt_def, add_toNat hadd, sub_toNat hnotr] at hroom
        omega
      have hmin := toNat_wmin q.ovr t
      dsimp only
      rw [sub_toNat h.1, sub_toNat (by omega)]
      exact ⟨rfl, by omega, by omega, hmin, by omega⟩

theorem transferOut_wraps (h : q.used.toNat ≤ q.upli.toNat →
      q.used.toNat + t.toNat < 2 ^ 64 ∧ (chk = true → q.notr.toNat ≤ q.upli.toNat)) :
    (q.transferOut t chk).wraps = false := by
  unfold transferOut
  rw [hitLimit_zero]
  simp only [bind_wraps, Bool.false_or]
  split
  · rfl
  · rename_i hhit
    have hle : q.used.toNat ≤ q.upli.toNat := by
      simp only [decide_eq_true_eq, BitVec.lt_def] at hhit
      omega
    obtain ⟨hadd, hnotr⟩ := h hle
    have hnotr' : (if chk = true then q.notr else 0).toNat ≤ q.upli.toNat := by
      split
      · rename_i hc
        exact hnotr hc
      · exact Nat.zero_le _
    simp only [bind_wraps, Bool.or_eq_false_iff, add_wraps, sub_wraps]
    generalize (if chk = true then q.notr else 0) = notr at hnotr'
    refine ⟨hadd, hnotr', ?_⟩
    split
    · rfl
    · rename_i hroom
      rw [BitVec.lt_def, add_toNat hadd, sub_toNat hnotr'] at hroom
      have hmin := toNat_wmin q.ovr t
      simp only [bind_wraps, Bool.or_eq_false_iff, sub_wraps]
      exact ⟨by omega, by omega, rfl⟩

/-- The account that gets an amount settles what it has in use against the `ovr`
that came along; the rest of that is lost if it has nothing in use. -/
theorem transferIn_cases (h : (q.transferIn t o).wraps = false) :
    ((q.transferIn t o).val.used = q.used ∧ (q.transferIn t o).val.ovr = q.ovr ∧
        (q.transferIn t o).val.upli.toNat = q.upli.toNat + t.toNat ∧ (q.used = 0 ∨ o = 0)) ∨
      ∃ u, u ≤ o.toNat ∧ (q.transferIn t o).val.used.toNat + u = q.used.toNat ∧
        (q.transferIn t o).val.upli.toNat + u = q.upli.toNat + t.toNat ∧
          (q.transferIn t o).val.ovr.toNat + u = q.ovr.toNat + o.toNat := by
  unfold transferIn at h ⊢
  simp only [bind_val, bind_wraps, Bool.or_eq_false_iff, add_wraps] at h ⊢
  obtain ⟨hadd, h⟩ := h
  split at h
  · rename_i hc
    right
    have hmin := toNat_wmin q.used o
    simp only [bind_wraps, Bool.or_eq_false_iff, sub_wraps, add_wraps, add_toNat hadd] at h
    obtain ⟨hused, hupli, ho, hover, -⟩ := h
    rw [if_pos hc]
    simp only [bind_val, pure_val]
    refine ⟨(wmin q.used o).toNat, ho, ?_, ?_, ?_⟩
    · rw [sub_toNat hused]
      omega
    · rw [sub_toNat (by rw [add_toNat hadd]; exact hupli), add_toNat hadd]
      omega
    · rw [add_toNat hover, sub_toNat ho]
      omega
  · rename_i hc
    left
    rw [if_neg hc]
    refine ⟨rfl, rfl, add_toNat hadd, ?_⟩
    by_contra hboth
    exact hc (not_or.mp hboth)

theorem transferIn_wraps (hupli : q.upli.toNat + t.toNat < 2 ^ 64)
    (hover : q.ovr.toNat + o.toNat < 2 ^ 64) (ho : o.toNat ≤ t.toNat) :
    (q.transferIn t o).wraps = false := by
  unfold transferIn
  simp only [bind_wraps, Bool.or_eq_false_iff, add_wraps]
  refine ⟨hupli, ?_⟩
  split
  · have hmin := toNat_wmin q.used o
    have hd : (wmin q.used o).toNat ≤ o.toNat := by omega
    simp only [bind_wraps, Bool.or_eq_false_iff, sub_wraps, add_wraps, add_toNat hupli,
      sub_toNat hd]
    exact ⟨by omega, by omega, hd, by omega, rfl⟩
  · rfl

theorem freeUpIn_cases (h : (q.freeUpIn l u o).wraps = false) :
    ∃ s, s ≤ q.ovr.toNat + o.toNat ∧
      (q.freeUpIn l u o).val.used.toNat + s = q.used.toNat + u.toNat ∧
        (q.freeUpIn l u o).val.upli.toNat + s = q.upli.toNat + l.toNat ∧
          (q.freeUpIn l u o).val.ovr.toNat + s = q.ovr.toNat + o.toNat := by
  unfold freeUpIn at h ⊢
  simp only [bind_val, bind_wraps, Bool.or_eq_false_iff, add_wraps] at h ⊢
  obtain ⟨hu, hl, ho, h⟩ := h
  split at h
  · rename_i hc
    have hmin := toNat_wmin (add q.used u).val (add q.ovr o).val
    simp only [bind_wraps, Bool.or_eq_false_iff, sub_wraps] at h
    obtain ⟨h1, h2, h3, -⟩ := h
    rw [if_pos hc]
    simp only [bind_val, pure_val]
    rw [sub_toNat h1, sub_toNat h2, sub_toNat h3]
    rw [add_toNat hu] at h1 ⊢
    rw [add_toNat hl] at h3 ⊢
    rw [add_toNat ho] at h2 ⊢
    exact ⟨_, h2, by omega, by omega, by omega⟩
  · rename_i hc
    rw [if_neg hc]
    simp only [pure_val]
    rw [add_toNat hu, add_toNat hl, add_toNat ho]
    exact ⟨0, Nat.zero_le _, rfl, rfl, rfl⟩

theorem freeUpIn_wraps (hu : q.used.toNat + u.toNat < 2 ^ 64) (hl : q.upli.toNat + l.toNat < 2 ^ 64)
    (hq : q.ovr.toNat ≤ q.upli.toNat) (ho : o.toNat ≤ l.toNat) :
    (q.freeUpIn l u o).wraps = false := by
  have hover : q.ovr.toNat + o.toNat < 2 ^ 64 := by omega
  unfold freeUpIn
  simp only [bind_wraps, Bool.or_eq_false_iff, add_wraps]
  refine ⟨hu, hl, hover, ?_⟩
  split
  · have hmin := toNat_wmin (add q.used u).val (add q.ovr o).val
    simp only [bind_wraps, Bool.or_eq_false_iff, sub_wraps]
    rw [add_toNat hu, add_toNat hover] at hmin
    rw [add_toNat hu, add_toNat hover, add_toNat hl]
    exact ⟨by omega, by omega, by omega, rfl⟩
  · rfl

theorem hitLimit_wraps : (q.hitLimit req).wraps = false := by
  unfold hitLimit
  split
  · rfl
  · rename_i h
    rw [BitVec.lt_def] at h
    simp only [bind_wraps, pure_wraps, Bool.or_false, sub_wraps]
    omega

theorem hitLimit_val : (q.hitLimit req).val = true ↔ q.upli.toNat < q.used.toNat + req.toNat := by
  unfold hitLimit
  split
  · rename_i h
    rw [BitVec.lt_def] at h
    simp only [pure_val, true_iff]
    omega
  · rename_i h
    rw [BitVec.lt_def] at h
    simp only [bind_val, pure_val, decide_eq_true_eq, BitVec.lt_def]
    rw [sub_toNat (by omega)]
    omega

theorem checkReq_some (h : (q.checkReq req).wraps = false) (hval : (q.checkReq req).val = some t) :
    t.toNat + q.upli.toNat = q.used.toNat + req.toNat := by
  unfold checkReq at h hval
  simp only [bind_val, bind_wraps, hitLimit_wraps, Bool.false_or] at h hval
  split at hval
  · simp at hval
  · rename_i hhit
    have hlt := hitLimit_val.mp (by simpa using hhit)
    rw [if_neg hhit] at h
    split at hval
    · rename_i hle
      rw [if_pos hle] at h
      have hle' := BitVec.le_def.mp hle
      simp only [bind_wraps, Bool.or_eq_false_iff, sub_wraps, add_wraps] at h
      simp only [bind_val, pure_val, Option.some.injEq] at hval
      rw [← hval, add_toNat h.2.1, sub_toNat hle']
      omega
    · rename_i hle
      rw [BitVec.le_def] at hle
      simp only [bind_val, pure_val, Option.some.injEq] at hval
      have hd : (sub q.upli q.used).val.toNat = q.upli.toNat - q.used.toNat := sub_toNat (by omega)
      rw [← hval, sub_toNat (by omega)]
      omega

theorem checkReq_wraps (h : q.used.toNat + req.toNat < q.upli.toNat + 2 ^ 64) :
    (q.checkReq req).wraps = false := by
  unfold checkReq
  simp only [bind_wraps, hitLimit_wraps, Bool.false_or]
  split
  · rfl
  · rename_i hhit
    have hlt := hitLimit_val.mp (by simpa using hhit)
    split
    · rename_i hle
      have hle' := BitVec.le_def.mp hle
      have hd : (sub q.used q.upli).val.toNat = q.used.toNat - q.upli.toNat := sub_toNat hle'
      simp only [bind_wraps, Bool.or_eq_false_iff, sub_wraps, add_wraps]
      exact ⟨hle', by omega, rfl⟩
    · rename_i hle
      rw [BitVec.le_def] at hle
      have hd : (sub q.upli q.used).val.toNat = q.upli.toNat - q.used.toNat := sub_toNat (by omega)
      simp only [bind_wraps, Bool.or_eq_false_iff, sub_wraps]
      exact ⟨by omega, by omega, rfl⟩

end Quota

def Parcel.quota {ι : Type} : Parcel ι → Quota
  | .transfer _ amount o => ⟨0, o, amount, 0⟩
  | .freeUp _ l u o => ⟨u, o, l, 0⟩

section Totals

variable {ι : Type} [DecidableEq ι] [Fintype ι] {s : Books ι}

def Books.total (s : Books ι) (f : Quota → Int) : Int :=
  ∑ i, f (s.quota i) + (s.parcels.map fun p => f p.quota).sum

theorem sum_update (g : ι → Quota) (i : ι) (q : Quota) (f : Quota → Int) :
    ∑ j, f (Function.update g i q j) = ∑ j, f (g j) + (f q - f (g i)) := by
  have hterm : ∀ j, f (Function.update g i q j) = f (g j) + if j = i then f q - f (g i) else 0 := by
    intro j
    by_cases hj : j = i
    · subst hj
      rw [Function.update_self, if_pos rfl]
      ring
    · rw [Function.update_of_ne hj, if_neg hj, add_zero]
  simp only [hterm, Finset.sum_add_distrib, Finset.sum_ite_eq', Finset.mem_univ, if_true]

theorem sum_eraseIdx {α : Type} (f : α → Int) {l : List α} {n : Nat} {x : α} (h : l[n]? = some x) :
    (l.map f).sum = f x + ((l.eraseIdx n).map f).sum := by
  induction l generalizing n with
  | nil => simp at h
  | cons y l ih =>
    cases n with
    | zero =>
      simp only [List.getElem?_cons_zero, Option.some.injEq] at h
      simp [h]
    | succ n =>
      simp only [List.getElem?_cons_succ] at h
      simp only [List.map_cons, List.sum_cons, List.eraseIdx_cons_succ, ih h]
      ring

def usedOf (q : Quota) : Int := q.used.toNat

def ovrOf (q : Quota) : Int := q.ovr.toNat

def upliOf (q : Quota) : Int := q.upli.toNat

/-- The totals have changed by the given amounts. -/
structure Moved (s s' : Books ι) (du dO dl : Int) : Prop where
  used : s'.total usedOf = s.total usedOf + du
  ovr : s'.total ovrOf = s.total ovrOf + dO
  upli : s'.total upliOf = s.total upliOf + dl

/-- The `ovr` of a parcel arrives where nothing is in use. -/
def Loses (s : Books ι) (n : Nat) : Prop :=
  ∃ dst amount o, s.parcels[n]? = some (.transfer dst amount o) ∧ o ≠ 0 ∧ (s.quota dst).used = 0

/-- By how much a step may change the totals. -/
def Change (s : Books ι) (du dO dl : Int) : Op ι → Prop
  | .alloc _ p => du = p.toNat ∧ dO = 0 ∧ dl = 0
  | .free _ p => ∃ d, 0 ≤ d ∧ d ≤ p.toNat ∧ du = d - p.toNat ∧ dO = d ∧ dl = d
  | .deliver n => (∃ d, 0 ≤ d ∧ du = -d ∧ dO = -d ∧ dl = -d) ∨ Loses s n ∧ du = 0 ∧ dO < 0 ∧ dl = 0
  | _ => du = 0 ∧ dO = 0 ∧ dl = 0

theorem put_moved (s : Books ι) (i : ι) (c : Calc Quota) :
    Moved s (s.put i c) (usedOf c.val - usedOf (s.quota i)) (ovrOf c.val - ovrOf (s.quota i))
      (upliOf c.val - upliOf (s.quota i)) := by
  constructor
  · unfold Books.total Books.put
    rw [sum_update]
    ring
  · unfold Books.total Books.put
    rw [sum_update]
    ring
  · unfold Books.total Books.put
    rw [sum_update]
    ring

theorem post_total (s : Books ι) (i : ι) (q : Quota) (p : Parcel ι) (w : Bool) (f : Quota → Int) :
    (⟨Function.update s.quota i q, p :: s.parcels, w⟩ : Books ι).total f =
      s.total f + (f q - f (s.quota i) + f p.quota) := by
  unfold Books.total
  simp only [sum_update, List.map_cons, List.sum_cons]
  ring

theorem send_moved {src dst : ι} {t : Mword} {chk : Bool}
    (h : (s.send src dst t chk).wrapped = false) : Moved s (s.send src dst t chk) 0 0 0 := by
  unfold Books.send at h ⊢
  dsimp only at h ⊢
  cases hv : ((s.quota src).transferOut t chk).val with
  | none => exact ⟨(add_zero _).symm, (add_zero _).symm, (add_zero _).symm⟩
  | some r =>
    obtain ⟨q, o⟩ := r
    simp only [hv, Bool.or_eq_false_iff] at h
    obtain ⟨hused, hupli, hovr, -, -⟩ := Quota.transferOut_some h.2 hv
    constructor
    · rw [post_total]
      simp [Parcel.quota, usedOf, hused]
    · rw [post_total]
      simp only [Parcel.quota, ovrOf]
      omega
    · rw [post_total]
      simp only [Parcel.quota, upliOf]
      omega

omit [DecidableEq ι] in
theorem eraseIdx_total {n : Nat} {p : Parcel ι} (h : s.parcels[n]? = some p) (f : Quota → Int) :
    ({ s with parcels := s.parcels.eraseIdx n } : Books ι).total f = s.total f - f p.quota := by
  unfold Books.total
  rw [sum_eraseIdx (fun p => f p.quota) h]
  ring

theorem arrive_moved {n : Nat} {p : Parcel ι} (h : s.parcels[n]? = some p) (i : ι) (c : Calc Quota) :
    Moved s (({ s with parcels := s.parcels.eraseIdx n } : Books ι).put i c)
      (usedOf c.val - usedOf (s.quota i) - usedOf p.quota)
      (ovrOf c.val - ovrOf (s.quota i) - ovrOf p.quota)
      (upliOf c.val - upliOf (s.quota i) - upliOf p.quota) := by
  have hput := put_moved ({ s with parcels := s.parcels.eraseIdx n } : Books ι) i c
  constructor
  · rw [hput.used, eraseIdx_total h]
    ring
  · rw [hput.ovr, eraseIdx_total h]
    ring
  · rw [hput.upli, eraseIdx_total h]
    ring

/-- What a parcel brings goes to the account it is for, less what is settled
there. -/
theorem deliver_moved {n : Nat} (h : (exec (.deliver n) s).wrapped = false) :
    ∃ du dO dl, Moved s (exec (.deliver n) s) du dO dl ∧ Change s du dO dl (.deliver n) := by
  cases hp : s.parcels[n]? with
  | none =>
    have he : exec (.deliver n) s = s := by simp only [exec, hp]
    rw [he]
    exact ⟨0, 0, 0, ⟨(add_zero _).symm, (add_zero _).symm, (add_zero _).symm⟩,
      Or.inl ⟨0, le_rfl, by simp, by simp, by simp⟩⟩
  | some p =>
    cases p with
    | transfer dst t o =>
      have he : exec (.deliver n) s = ({ s with parcels := s.parcels.eraseIdx n } : Books ι).put dst
          ((s.quota dst).transferIn t o) := by
        simp only [exec, hp]
      rw [he] at h ⊢
      have hw : ((s.quota dst).transferIn t o).wraps = false := (Bool.or_eq_false_iff.mp h).2
      refine ⟨_, _, _, arrive_moved hp dst _, ?_⟩
      simp only [Parcel.quota, usedOf, ovrOf, upliOf]
      rcases Quota.transferIn_cases hw with ⟨hu, ho, hl, hzero⟩ | ⟨d, hd, hu, hl, ho⟩
      · by_cases ho0 : o = 0
        · left
          refine ⟨0, le_rfl, ?_, ?_, ?_⟩
          · simp [hu]
          · rw [ho, ho0]
            simp
          · omega
        · right
          have hpos : 0 < o.toNat := by
            rcases Nat.eq_zero_or_pos o.toNat with h0 | h0
            · exact absurd (BitVec.eq_of_toNat_eq h0) ho0
            · exact h0
          refine ⟨⟨dst, t, o, hp, ho0, hzero.resolve_right ho0⟩, ?_, ?_, ?_⟩
          · simp [hu]
          · rw [ho]
            omega
          · omega
      · left
        have hzero : ((0 : Mword).toNat : Int) = 0 := rfl
        exact ⟨d, by omega, by omega, by omega, by omega⟩
    | freeUp dst l u o =>
      have he : exec (.deliver n) s = ({ s with parcels := s.parcels.eraseIdx n } : Books ι).put dst
          ((s.quota dst).freeUpIn l u o) := by
        simp only [exec, hp]
      rw [he] at h ⊢
      have hw : ((s.quota dst).freeUpIn l u o).wraps = false := (Bool.or_eq_false_iff.mp h).2
      obtain ⟨d, hd, hu, hl, ho⟩ := Quota.freeUpIn_cases hw
      refine ⟨_, _, _, arrive_moved hp dst _, Or.inl ⟨d, by omega, ?_, ?_, ?_⟩⟩
      · simp only [Parcel.quota, usedOf]
        omega
      · simp only [Parcel.quota, ovrOf]
        omega
      · simp only [Parcel.quota, upliOf]
        omega

theorem exec_moved (op : Op ι) (h : (exec op s).wrapped = false) :
    ∃ du dO dl, Moved s (exec op s) du dO dl ∧ Change s du dO dl op := by
  cases op with
  | alloc i p =>
    have hw := Quota.alloc_wraps.mp (Bool.or_eq_false_iff.mp h).2
    refine ⟨_, _, _, put_moved s i _, ?_, ?_, ?_⟩
    · simp only [usedOf, Quota.alloc_used hw]
      omega
    · exact sub_self _
    · exact sub_self _
  | free i p =>
    refine ⟨_, _, _, put_moved s i _, ?_⟩
    rcases Quota.free_cases (Bool.or_eq_false_iff.mp h).2 with ⟨hu, ho, hl⟩ | ⟨hlt, hu, ho, hl⟩
    · refine ⟨0, le_rfl, by omega, ?_, ?_, ?_⟩
      · simp only [usedOf]
        omega
      · simp [ovrOf, ho]
      · simp [upliOf, hl]
    · refine ⟨p.toNat - (s.quota i).used.toNat, by omega, by omega, ?_, ?_, ?_⟩
      · have hzero : ((0 : Mword).toNat : Int) = 0 := rfl
        simp only [usedOf, hu]
        omega
      · simp only [ovrOf]
        omega
      · simp only [upliOf]
        omega
  | transfer src dst t chk => exact ⟨0, 0, 0, send_moved h, rfl, rfl, rfl⟩
  | setNotr i l =>
    have hput := put_moved s i ⟨{ s.quota i with notr := l }, false⟩
    exact ⟨_, _, _, ⟨hput.used, hput.ovr, hput.upli⟩, sub_self _, sub_self _, sub_self _⟩
  | check guard ref req =>
    refine ⟨0, 0, 0, ?_, rfl, rfl, rfl⟩
    simp only [exec] at h ⊢
    cases hv : ((s.quota guard).checkReq req).val with
    | none => exact ⟨(add_zero _).symm, (add_zero _).symm, (add_zero _).symm⟩
    | some t =>
      simp only [hv] at h
      have hsend := send_moved h
      exact ⟨hsend.used, hsend.ovr, hsend.upli⟩
  | freeUp src dst =>
    refine ⟨0, 0, 0, ⟨?_, ?_, ?_⟩, rfl, rfl, rfl⟩
    · simp only [exec]
      rw [post_total]
      simp [usedOf, Quota.freeUpOut, Parcel.quota]
    · simp only [exec]
      rw [post_total]
      simp [ovrOf, Quota.freeUpOut, Parcel.quota]
    · simp only [exec]
      rw [post_total]
      simp [upliOf, Quota.freeUpOut, Parcel.quota]
  | deliver n => exact deliver_moved h

end Totals

end Tukija.Kmem
