import Tukija.Vtlb.Table

/-! What the operations on a shadow page table do to the translations that it can come to
give. -/
namespace Tukija.Vtlb

open Tukija.Lib.Word

variable {virt a size host attr v : Mword} {lev i : Nat} {t tab : Table} {h : Hit} {o : Origin} {b : Bool}

/-! ## Indices -/

theorem index_eq (virt : Mword) (lev : Nat) : index virt lev = virt.toNat / 2 ^ (lev * 9 + 12) % 512 := by
  have hmask : (0x1ff : Mword).toNat = 2 ^ 9 - 1 := by decide
  rw [index, BitVec.toNat_and, hmask, Nat.and_two_pow_sub_one_eq_mod, BitVec.toNat_ushiftRight,
    Nat.shiftRight_eq_div_pow]

theorem index_congr {k : Nat} (hk : k ≤ lev * 9 + 12) (hs : SameBlock k a virt) : index a lev = index virt lev := by
  rw [index_eq, index_eq, hs.mono hk]

/-! ## Bits -/

theorem getLsbD_clear (v : Mword) (k n : Nat) : (v &&& ~~~bit k).getLsbD n = (v.getLsbD n && decide (k ≠ n)) := by
  by_cases hn : n < 64
  · by_cases hkn : k = n
    · simp [hn, hkn]
    · simp [hn, hkn, Ne.symm hkn]
  · rw [BitVec.getLsbD_of_ge _ _ (Nat.le_of_not_lt hn), BitVec.getLsbD_of_ge _ _ (Nat.le_of_not_lt hn), Bool.false_and]

theorem quench_present (hp : (quench b v).getLsbD tlbP = true) :
    quench b v = v ∧ v.getLsbD tlbM = true ∧ b = false := by
  unfold quench at hp ⊢
  split_ifs at hp ⊢ with h₁ h₂ h₃
  · rw [hp] at h₁
    cases h₁
  · rw [getLsbD_clear] at hp
    simp at hp
  · exact ⟨rfl, h₃, Bool.eq_false_iff.mpr h₂⟩
  · rw [getLsbD_clear] at hp
    simp at hp

theorem quench_absent (hp : v.getLsbD tlbP = false) : quench b v = v := by
  unfold quench
  rw [hp]
  rfl

theorem quench_marked (hM : v.getLsbD tlbM = true) : quench false v = v := by
  unfold quench
  simp [hM]

/-! ## Tables that are not present -/

theorem latent_dir (ht : t (index virt (lev + 1)) = .dir v tab) :
    latent virt (lev + 1) t = latent virt lev (behind v tab) := by
  rw [latent, ht]

theorem latent_leaf (ht : t (index virt lev) = .leaf v o) : latent virt lev t = hit lev v o := by
  cases lev <;> rw [latent, ht]

theorem behind_quench (hp : v.getLsbD tlbP = true) :
    behind (quench b v) tab = if b = false ∧ v.getLsbD tlbM = true then tab else flushPtab b tab := by
  cases b with
  | true =>
    have hq : quench true v = (v ||| bit tlbM) &&& ~~~bit tlbP := by
      rw [quench, hp]
      rfl
    have hP : (quench true v).getLsbD tlbP = false := by
      rw [hq, getLsbD_clear]
      simp
    have hM : (quench true v).getLsbD tlbM = true := by
      rw [hq, getLsbD_clear]
      simp [tlbM, tlbP]
    rw [behind, hP, hM]
    rfl
  | false =>
    cases hm : v.getLsbD tlbM with
    | true =>
      have hq : quench false v = v := by
        rw [quench, hp, hm]
        rfl
      rw [hq, behind, hp]
      rfl
    | false =>
      have hq : quench false v = v &&& ~~~bit tlbP := by
        rw [quench, hp, hm]
        rfl
      have hP : (quench false v).getLsbD tlbP = false := by
        rw [hq, getLsbD_clear]
        simp
      have hM : (quench false v).getLsbD tlbM = false := by rw [hq, getLsbD_clear, hm, Bool.false_and]
      rw [behind, hP, hM]
      rfl

theorem hit_eq_some : hit lev v o = some h ↔ v.getLsbD tlbP = true ∧ h = ⟨lev * 9 + 12, v, o⟩ := by
  unfold hit
  split_ifs with hp
  · exact ⟨fun heq => ⟨hp, (Option.some.inj heq).symm⟩, fun heq => congrArg some heq.2.symm⟩
  · exact ⟨nofun, fun heq => absurd heq.1 hp⟩

theorem latent_of_walk (hw : walk virt lev t = some h) : latent virt lev t = some h := by
  induction lev generalizing t with
  | zero => exact hw
  | succ lev ih =>
    cases ht : t (index virt (lev + 1)) with
    | leaf v o =>
      rw [latent_leaf ht]
      rwa [walk, ht] at hw
    | dir v tab =>
      rw [walk, ht] at hw
      simp only at hw
      split_ifs at hw with hp
      rw [latent_dir ht, behind, if_pos hp]
      exact ih hw

/-! ## `flush_ptab` -/

theorem latent_flushPtab (hl : latent virt lev (flushPtab b t) = some h) : latent virt lev t = some h := by
  induction lev generalizing t b with
  | zero =>
    cases ht : t (index virt 0) with
    | leaf v o =>
      have ht' : flushPtab b t (index virt 0) = .leaf (quench b v) o := by rw [flushPtab, ht, Tlb.mapVal]
      rw [latent_leaf ht', hit_eq_some] at hl
      rw [latent_leaf ht, hit_eq_some]
      rwa [(quench_present hl.1).1] at hl
    | dir v tab =>
      have ht' : flushPtab b t (index virt 0) = .dir (quench b v) tab := by rw [flushPtab, ht, Tlb.mapVal]
      rw [latent, ht'] at hl
      cases hl
  | succ lev ih =>
    cases ht : t (index virt (lev + 1)) with
    | leaf v o =>
      have ht' : flushPtab b t (index virt (lev + 1)) = .leaf (quench b v) o := by rw [flushPtab, ht, Tlb.mapVal]
      rw [latent_leaf ht', hit_eq_some] at hl
      rw [latent_leaf ht, hit_eq_some]
      rwa [(quench_present hl.1).1] at hl
    | dir v tab =>
      have ht' : flushPtab b t (index virt (lev + 1)) = .dir (quench b v) tab := by rw [flushPtab, ht, Tlb.mapVal]
      rw [latent_dir ht'] at hl
      rw [latent_dir ht]
      cases hp : v.getLsbD tlbP with
      | false => rwa [quench_absent hp] at hl
      | true =>
        rw [behind_quench hp] at hl
        rw [behind, if_pos hp]
        split_ifs at hl
        · exact hl
        · exact ih hl

theorem latent_flushPtab_true (hw : walk virt lev t = some h) : latent virt lev (flushPtab true t) = none := by
  induction lev generalizing t with
  | zero =>
    cases ht : t (index virt 0) with
    | leaf v o =>
      have ht' : flushPtab true t (index virt 0) = .leaf (quench true v) o := by rw [flushPtab, ht, Tlb.mapVal]
      rw [latent_leaf ht', hit, if_neg]
      exact fun hp => absurd (quench_present hp).2.2 (by decide)
    | dir v tab =>
      rw [walk, ht] at hw
      cases hw
  | succ lev ih =>
    cases ht : t (index virt (lev + 1)) with
    | leaf v o =>
      have ht' : flushPtab true t (index virt (lev + 1)) = .leaf (quench true v) o := by rw [flushPtab, ht, Tlb.mapVal]
      rw [latent_leaf ht', hit, if_neg]
      exact fun hp => absurd (quench_present hp).2.2 (by decide)
    | dir v tab =>
      have ht' : flushPtab true t (index virt (lev + 1)) = .dir (quench true v) tab := by rw [flushPtab, ht, Tlb.mapVal]
      rw [walk, ht] at hw
      simp only at hw
      split_ifs at hw with hp
      rw [latent_dir ht', behind_quench hp, if_neg (by simp)]
      exact ih hw

theorem latent_flushPtab_asleep (hw : walk virt lev t = none) :
    latent virt lev (flushPtab true t) = latent virt lev t := by
  induction lev generalizing t with
  | zero =>
    cases ht : t (index virt 0) with
    | leaf v o =>
      have ht' : flushPtab true t (index virt 0) = .leaf (quench true v) o := by rw [flushPtab, ht, Tlb.mapVal]
      rw [walk, ht] at hw
      have hp : v.getLsbD tlbP = false := by simpa [hit] using hw
      rw [latent_leaf ht', latent_leaf ht, quench_absent hp]
    | dir v tab =>
      rw [latent, latent, flushPtab, ht]
      rfl
  | succ lev ih =>
    cases ht : t (index virt (lev + 1)) with
    | leaf v o =>
      have ht' : flushPtab true t (index virt (lev + 1)) = .leaf (quench true v) o := by
        rw [flushPtab, ht, Tlb.mapVal]
      rw [walk, ht] at hw
      have hp : v.getLsbD tlbP = false := by simpa [hit] using hw
      rw [latent_leaf ht', latent_leaf ht, quench_absent hp]
    | dir v tab =>
      have ht' : flushPtab true t (index virt (lev + 1)) = .dir (quench true v) tab := by
        rw [flushPtab, ht, Tlb.mapVal]
      rw [latent_dir ht', latent_dir ht]
      cases hp : v.getLsbD tlbP with
      | false => rw [quench_absent hp]
      | true =>
        rw [walk, ht] at hw
        simp only [hp, if_true] at hw
        rw [behind_quench hp, if_neg (by simp), behind, if_pos hp]
        exact ih hw

theorem latent_flushPtab_false (hl : latent virt lev t = some h) (hM : h.val.getLsbD tlbM = true) :
    latent virt lev (flushPtab false t) = some h := by
  induction lev generalizing t with
  | zero =>
    cases ht : t (index virt 0) with
    | leaf v o =>
      have ht' : flushPtab false t (index virt 0) = .leaf (quench false v) o := by rw [flushPtab, ht, Tlb.mapVal]
      rw [latent_leaf ht] at hl
      obtain ⟨hp, rfl⟩ := hit_eq_some.mp hl
      rwa [latent_leaf ht', quench_marked hM]
    | dir v tab =>
      rw [latent, ht] at hl
      cases hl
  | succ lev ih =>
    cases ht : t (index virt (lev + 1)) with
    | leaf v o =>
      have ht' : flushPtab false t (index virt (lev + 1)) = .leaf (quench false v) o := by
        rw [flushPtab, ht, Tlb.mapVal]
      rw [latent_leaf ht] at hl
      obtain ⟨hp, rfl⟩ := hit_eq_some.mp hl
      rwa [latent_leaf ht', quench_marked hM]
    | dir v tab =>
      have ht' : flushPtab false t (index virt (lev + 1)) = .dir (quench false v) tab := by
        rw [flushPtab, ht, Tlb.mapVal]
      rw [latent_dir ht] at hl
      rw [latent_dir ht']
      cases hp : v.getLsbD tlbP with
      | false => rwa [quench_absent hp]
      | true =>
        rw [behind, if_pos hp] at hl
        rw [behind_quench hp]
        split_ifs
        · exact hl
        · exact ih hl

/-! ## Marks -/

/-- A present entry with `TLB_M` leads to global translations only. -/
def Marks : Nat → Table → Prop
  | 0, _ => True
  | lev + 1, t => ∀ i v tab, t i = .dir v tab → Marks lev tab ∧
      (v.getLsbD tlbP = true → v.getLsbD tlbM = true →
        ∀ virt h, latent virt lev tab = some h → h.val.getLsbD tlbM = true)

theorem marks_blank (lev : Nat) : Marks lev blank := by
  cases lev with
  | zero => trivial
  | succ lev => exact fun i v tab => nofun

theorem latent_blank : latent virt lev blank = none := by
  rw [latent_leaf (v := bit tlbS) rfl, hit, if_neg]
  decide

theorem Marks.flushPtab (hm : Marks lev t) (b : Bool) : Marks lev (flushPtab b t) := by
  cases lev with
  | zero => trivial
  | succ lev =>
    intro i v' tab' hi
    cases ht : t i with
    | leaf v o =>
      rw [Vtlb.flushPtab, ht] at hi
      cases hi
    | dir v tab =>
      rw [Vtlb.flushPtab, ht] at hi
      obtain ⟨rfl, rfl⟩ := Tlb.dir.inj hi
      obtain ⟨htab, hglobal⟩ := hm i v tab ht
      refine ⟨htab, fun hp => ?_⟩
      obtain ⟨heq, -⟩ := quench_present hp
      rw [heq] at hp ⊢
      exact hglobal hp

theorem Marks.behind (hm : Marks lev tab) (v : Mword) : Marks lev (behind v tab) := by
  unfold Vtlb.behind
  split_ifs
  · exact hm
  · exact hm.flushPtab _

theorem Marks.global (hm : Marks lev t) (hl : latent virt lev (Vtlb.flushPtab b t) = some h) :
    h.val.getLsbD tlbM = true := by
  induction lev generalizing t b with
  | zero =>
    cases ht : t (index virt 0) with
    | leaf v o =>
      have ht' : Vtlb.flushPtab b t (index virt 0) = .leaf (quench b v) o := by rw [Vtlb.flushPtab, ht, Tlb.mapVal]
      rw [latent_leaf ht', hit_eq_some] at hl
      obtain ⟨hp, rfl⟩ := hl
      obtain ⟨heq, hmark, -⟩ := quench_present hp
      rwa [heq]
    | dir v tab =>
      rw [latent, Vtlb.flushPtab, ht] at hl
      cases hl
  | succ lev ih =>
    cases ht : t (index virt (lev + 1)) with
    | leaf v o =>
      have ht' : Vtlb.flushPtab b t (index virt (lev + 1)) = .leaf (quench b v) o := by
        rw [Vtlb.flushPtab, ht, Tlb.mapVal]
      rw [latent_leaf ht', hit_eq_some] at hl
      obtain ⟨hp, rfl⟩ := hl
      obtain ⟨heq, hmark, -⟩ := quench_present hp
      rwa [heq]
    | dir v tab =>
      have ht' : Vtlb.flushPtab b t (index virt (lev + 1)) = .dir (quench b v) tab := by
        rw [Vtlb.flushPtab, ht, Tlb.mapVal]
      rw [latent_dir ht'] at hl
      obtain ⟨htab, hglobal⟩ := hm _ v tab ht
      cases hp : v.getLsbD tlbP with
      | false =>
        rw [quench_absent hp, Vtlb.behind, hp] at hl
        exact ih htab hl
      | true =>
        rw [behind_quench hp] at hl
        split_ifs at hl with hkeep
        · exact hglobal hp hkeep.2 virt h hl
        · exact ih htab hl

/-! ## `flush` for an address -/

theorem latent_congr {t' : Table} (ht : t' (index virt lev) = t (index virt lev)) :
    latent virt lev t' = latent virt lev t := by
  cases lev <;> rw [latent, latent, ht]

theorem mapVal_quench (e : Tlb) : e.mapVal (quench true) = if e.present then e.drop else e := by
  unfold Tlb.present Tlb.drop
  split_ifs with hp
  · have hq : quench true e.val = (e.val ||| bit tlbM) &&& ~~~bit tlbP := by
      rw [quench, hp]
      rfl
    cases e with
    | leaf v o => exact congrArg (Tlb.leaf · o) hq
    | dir v tab => exact congrArg (Tlb.dir · tab) hq
  · have hq : quench true e.val = e.val := quench_absent (Bool.eq_false_iff.mpr hp)
    cases e with
    | leaf v o => exact congrArg (Tlb.leaf · o) hq
    | dir v tab => exact congrArg (Tlb.dir · tab) hq

theorem dropAt_eq (i : Nat) (t : Table) : dropAt i t = Function.update t i (flushPtab true t i) := by
  rw [flushPtab, mapVal_quench, dropAt]
  split_ifs
  · rfl
  · exact (Function.update_eq_self _ _).symm

theorem latent_dropAt (a : Mword) : latent a lev (dropAt i t) =
    if index a lev = i then latent a lev (flushPtab true t) else latent a lev t := by
  rw [dropAt_eq]
  split_ifs with hi
  · exact latent_congr (by rw [hi, Function.update_self])
  · exact latent_congr (Function.update_of_ne hi _ _)

theorem latent_of_dropAt (hl : latent a lev (dropAt i t) = some h) : latent a lev t = some h := by
  rw [latent_dropAt] at hl
  split_ifs at hl
  · exact latent_flushPtab hl
  · exact hl

theorem flushPage_succ (virt : Mword) (lev : Nat) (t : Table) :
    flushPage virt (lev + 1) t = dropAt (index virt (lev + 1)) t ∨
      ∃ v tab, t (index virt (lev + 1)) = .dir v tab ∧ v.getLsbD tlbP = true ∧ v.getLsbD tlbF = false ∧
        flushPage virt (lev + 1) t = Function.update t (index virt (lev + 1)) (.dir v (flushPage virt lev tab)) := by
  rw [flushPage]
  cases ht : t (index virt (lev + 1)) with
  | leaf v o => exact .inl rfl
  | dir v tab =>
    simp only
    split_ifs with hv
    · rw [Bool.and_eq_true, Bool.not_eq_true'] at hv
      exact .inr ⟨v, tab, rfl, hv.1, hv.2, rfl⟩
    · exact .inl rfl

theorem latent_flushPage (hl : latent a lev (flushPage virt lev t) = some h) : latent a lev t = some h := by
  induction lev generalizing t with
  | zero => exact latent_of_dropAt hl
  | succ lev ih =>
    obtain heq | ⟨v, tab, ht, hp, -, heq⟩ := flushPage_succ virt lev t
    · rw [heq] at hl
      exact latent_of_dropAt hl
    · rw [heq] at hl
      by_cases hi : index a (lev + 1) = index virt (lev + 1)
      · rw [← hi] at hl ht
        rw [latent_dir (Function.update_self _ _ _), behind, if_pos hp] at hl
        rw [latent_dir ht, behind, if_pos hp]
        exact ih hl
      · rwa [latent_congr (Function.update_of_ne hi _ _)] at hl

theorem Marks.dropAt (hm : Marks lev t) (i : Nat) : Marks lev (dropAt i t) := by
  cases lev with
  | zero => trivial
  | succ lev =>
    rw [dropAt_eq]
    intro j v tab hj
    by_cases hij : j = i
    · rw [hij, Function.update_self] at hj
      exact hm.flushPtab true i v tab hj
    · rw [Function.update_of_ne hij] at hj
      exact hm j v tab hj

theorem Marks.flushPage (hm : Marks lev t) (virt : Mword) : Marks lev (flushPage virt lev t) := by
  induction lev generalizing t with
  | zero => trivial
  | succ lev ih =>
    obtain heq | ⟨v, tab, ht, -, -, heq⟩ := flushPage_succ virt lev t
    · rw [heq]
      exact hm.dropAt _
    · rw [heq]
      intro j v' tab' hj
      by_cases hij : j = index virt (lev + 1)
      · rw [hij, Function.update_self] at hj
        obtain ⟨rfl, rfl⟩ := Tlb.dir.inj hj
        obtain ⟨htab, hglobal⟩ := hm _ v tab ht
        exact ⟨ih htab, fun hp hmark a h hl => hglobal hp hmark a h (latent_flushPage hl)⟩
      · rw [Function.update_of_ne hij] at hj
        exact hm j v' tab' hj

theorem walk_shift_le (hw : walk virt lev t = some h) : h.shift ≤ lev * 9 + 12 := by
  induction lev generalizing t with
  | zero =>
    rw [walk] at hw
    split at hw
    · rw [hit_eq_some] at hw
      rw [hw.2]
    · cases hw
  | succ lev ih =>
    rw [walk] at hw
    split at hw
    · rw [hit_eq_some] at hw
      rw [hw.2]
    · split_ifs at hw
      exact (ih hw).trans (by omega)

theorem walk_page (hw : walk virt lev t = some h) (hs : SameBlock h.shift a virt) : walk a lev t = some h := by
  induction lev generalizing t with
  | zero =>
    have hi := index_congr (walk_shift_le hw) hs
    rw [walk, hi]
    rwa [walk] at hw
  | succ lev ih =>
    have hi := index_congr (walk_shift_le hw) hs
    rw [walk, hi]
    rw [walk] at hw
    cases ht : t (index virt (lev + 1)) with
    | leaf v o => rwa [ht] at hw
    | dir v tab =>
      rw [ht] at hw
      simp only at hw ⊢
      split_ifs at hw ⊢
      exact ih hw

theorem latent_dropAt_self (hw : walk a lev t = some h) (hi : index a lev = i) : latent a lev (dropAt i t) = none := by
  rw [latent_dropAt, if_pos hi]
  exact latent_flushPtab_true hw

theorem flushPage_same (hw : walk a lev t = some h) (hs : SameBlock h.shift a virt) :
    latent a lev (flushPage virt lev t) = none := by
  induction lev generalizing t with
  | zero => exact latent_dropAt_self hw (index_congr (walk_shift_le hw) hs)
  | succ lev ih =>
    have hi := index_congr (walk_shift_le hw) hs
    obtain heq | ⟨v, tab, ht, hp, -, heq⟩ := flushPage_succ virt lev t
    · rw [heq]
      exact latent_dropAt_self hw hi
    · rw [heq]
      rw [walk, hi, ht] at hw
      simp only [hp, if_true] at hw
      have hupd : Function.update t (index virt (lev + 1)) (.dir v (flushPage virt lev tab)) (index a (lev + 1)) =
          .dir v (flushPage virt lev tab) := by rw [hi, Function.update_self]
      rw [latent_dir hupd, behind, if_pos hp]
      exact ih hw

theorem flushPage_frag (hw : walk a (lev + 1) t = some h) (hi : index a (lev + 1) = index virt (lev + 1))
    (hf : (t (index virt (lev + 1))).val.getLsbD tlbF = true) :
    latent a (lev + 1) (flushPage virt (lev + 1) t) = none := by
  obtain heq | ⟨v, tab, ht, -, hnf, -⟩ := flushPage_succ virt lev t
  · rw [heq]
    exact latent_dropAt_self hw hi
  · rw [ht] at hf
    exact absurd (hf.symm.trans hnf) (by decide)

/-! ## `miss` -/

theorem getLsbD_mask {k : Nat} (hk : k < 64) (n : Nat) : (bit k - 1).getLsbD n = decide (n < k) := by
  have hlt : 2 ^ k < 2 ^ 64 := Nat.pow_lt_pow_right (by decide) hk
  have hone : (1 : Mword) ≤ bit k := by
    rw [BitVec.le_def, BitVec.toNat_twoPow, Nat.mod_eq_of_lt hlt]
    exact Nat.two_pow_pos k
  have hsub : (bit k - 1).toNat = 2 ^ k - 1 := by
    rw [BitVec.toNat_sub_of_le hone, BitVec.toNat_twoPow, Nat.mod_eq_of_lt hlt]
    rfl
  rw [BitVec.getLsbD, hsub, Nat.testBit_two_pow_sub_one]

theorem getLsbD_frameMask {k n : Nat} (hk : k < 64) (hn : n < 64) : (frameMask k).getLsbD n = decide (k ≤ n) := by
  rw [frameMask, BitVec.getLsbD_not, getLsbD_mask hk n, decide_eq_true hn, Bool.true_and]
  by_cases h : n < k
  · simp [h, Nat.not_le.mpr h]
  · simp [h, Nat.le_of_not_lt h]

/-- The value that `miss` writes into the entry that ends a walk. -/
def filled (lev : Nat) (host attr : Mword) : Mword :=
  (host &&& frameMask (lev * 9 + 12)) ||| (if lev = 0 then attr else attr ||| bit tlbS) ||| bit tlbD ||| bit tlbA

theorem getLsbD_filled {n : Nat} (hlev : lev ≤ 4) (hn : n < 12) (hA : n ≠ tlbA) (hD : n ≠ tlbD) (hS : n ≠ tlbS) :
    (filled lev host attr).getLsbD n = attr.getLsbD n := by
  have hmask : (frameMask (lev * 9 + 12)).getLsbD n = false := by
    rw [getLsbD_frameMask (by omega) (by omega)]
    exact decide_eq_false (by omega)
  unfold filled
  split_ifs <;> simp [hmask, Ne.symm hA, Ne.symm hD, Ne.symm hS]

theorem fill_succ (lev : Nat) (t : Table) :
    fill virt size host attr o (lev + 1) t = Function.update t (index virt (lev + 1))
      (if lev + 1 = 2 ∨ size < bit ((lev + 1) * 9 + 12) then
        .dir (((enter (lev + 1) (t (index virt (lev + 1)))).1 &&& (attr ||| ~~~bit tlbM)) ||| (attr &&& bit tlbF))
          (fill virt size host attr o lev (enter (lev + 1) (t (index virt (lev + 1)))).2)
      else .leaf (filled (lev + 1) host attr) o) := by
  rw [fill]
  split_ifs
  · rfl
  · rfl

theorem enter_present (e : Tlb) : (enter lev e).1.getLsbD tlbP = true := by
  cases e with
  | leaf v o => simp [enter, tlbP]
  | dir v tab =>
    change (if v.getLsbD tlbP then v else v ||| bit tlbM ||| bit tlbP).getLsbD tlbP = true
    split_ifs with hp
    · exact hp
    · simp [tlbP]

theorem getLsbD_passed (v attr : Mword) {n : Nat} (hn : n < 12) (hF : n ≠ tlbF) :
    ((v &&& (attr ||| ~~~bit tlbM)) ||| (attr &&& bit tlbF)).getLsbD n =
      (v.getLsbD n && (attr.getLsbD n || decide (n ≠ tlbM))) := by
  have h64 : n < 64 := by omega
  by_cases hM : tlbM = n
  · simp [← hM, tlbM, tlbF]
  · simp [h64, Ne.symm hM, hF]

theorem latent_fill (hlev : lev < 4) (hl : latent a lev (fill virt size host attr o lev t) = some h) :
    latent a lev t = some h ∨ ∃ l ≤ lev, h = ⟨l * 9 + 12, filled l host attr, o⟩ := by
  induction lev generalizing t with
  | zero =>
    by_cases hi : index a 0 = index virt 0
    · have ht' : fill virt size host attr o 0 t (index a 0) = .leaf (filled 0 host attr) o := by
        rw [hi]
        exact Function.update_self _ _ _
      rw [latent_leaf ht', hit_eq_some] at hl
      exact .inr ⟨0, le_rfl, hl.2⟩
    · have ht' : fill virt size host attr o 0 t (index a 0) = t (index a 0) := Function.update_of_ne hi _ _
      rw [latent_congr ht'] at hl
      exact .inl hl
  | succ lev ih =>
    rw [fill_succ lev t] at hl
    by_cases hi : index a (lev + 1) = index virt (lev + 1)
    · rw [← hi] at hl
      split_ifs at hl
      · rw [latent_dir (Function.update_self _ _ _), behind, if_pos] at hl
        · obtain hold | ⟨l, hle, hnew⟩ := ih (by omega) hl
          · left
            cases ht : t (index a (lev + 1)) with
            | leaf v o =>
              rw [ht] at hold
              exact absurd (latent_blank.symm.trans hold) nofun
            | dir v tab =>
              rw [ht] at hold
              rw [latent_dir ht]
              exact hold
          · exact .inr ⟨l, hle.trans (Nat.le_succ _), hnew⟩
        · rw [getLsbD_passed _ _ (by decide) (by decide), enter_present]
          simp [tlbP, tlbM]
      · rw [latent_leaf (Function.update_self _ _ _), hit_eq_some] at hl
        exact .inr ⟨lev + 1, le_rfl, hl.2⟩
    · rw [latent_congr (Function.update_of_ne hi _ _)] at hl
      exact .inl hl

theorem Marks.fill (hm : Marks lev t) (hlev : lev < 4) (virt size host attr : Mword) (o : Origin) :
    Marks lev (fill virt size host attr o lev t) := by
  induction lev generalizing t with
  | zero => trivial
  | succ lev ih =>
    rw [fill_succ lev t]
    intro j v' tab' hj
    by_cases hij : j = index virt (lev + 1)
    · rw [hij, Function.update_self] at hj
      split_ifs at hj
      obtain ⟨rfl, rfl⟩ := Tlb.dir.inj hj
      have htab : Marks lev (enter (lev + 1) (t (index virt (lev + 1)))).2 := by
        cases ht : t (index virt (lev + 1)) with
        | leaf v o => exact marks_blank lev
        | dir v tab => exact (hm _ v tab ht).1.behind v
      refine ⟨ih htab (by omega), fun _ hmark a h hl => ?_⟩
      rw [getLsbD_passed _ _ (by decide) (by decide), Bool.and_eq_true] at hmark
      have hattr : attr.getLsbD tlbM = true := by simpa using hmark.2
      obtain hold | ⟨l, hle, rfl⟩ := latent_fill (by omega) hl
      · -- what is left behind the entry is global, as it was marked or has been flushed
        cases ht : t (index virt (lev + 1)) with
        | leaf v o =>
          rw [ht] at hold
          exact absurd (latent_blank.symm.trans hold) nofun
        | dir v tab =>
          rw [ht] at hold hmark
          obtain ⟨htab, hglobal⟩ := hm _ v tab ht
          by_cases hp : v.getLsbD tlbP = true
          · simp only [enter, Vtlb.behind, if_pos hp] at hold hmark
            exact hglobal hp hmark.1 a h hold
          · simp only [enter, Vtlb.behind, if_neg hp] at hold
            exact htab.global hold
      · exact (getLsbD_filled (by omega) (by decide) (by decide) (by decide) (by decide)).trans hattr
    · rw [Function.update_of_ne hij] at hj
      exact hm j v' tab' hj

end Tukija.Vtlb
