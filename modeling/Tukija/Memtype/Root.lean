import Tukija.Memtype.Mtrr

/-! `Space_mem::insert_root`: a range of physical memory is put into the space, with a
new node wherever the memory type changes. -/
namespace Tukija.Memtype

open Tukija.Lib.Word Tukija.Mapdb

/-- The inner loop: `p` goes on while the type is `t`.  The first argument bounds the
turns, as in `insertRoot`. -/
def skip (st : State) (e : Mword) (t : Nat) : Nat → Mword → Option Mword
  | 0, p => if p < e then none else some p
  | fuel + 1, p =>
    if p < e then
      let r := memtype st p
      if r.1 ≠ t then some p else skip st e t fuel r.2
    else some p

/-- `Space_mem::insert_root`.  No `uint64` is above `~0UL`. -/
def insertRoot (st : State) (a e : Mword) : Nat → Mword → Regions → Option Regions
  | 0, s, r => if s < e then none else some r
  | fuel + 1, s, r =>
    if s < e then
      let m := memtype st s
      (skip st e m.1 fuel m.2).bind fun p =>
        let p := wmin p e
        let size := (p - s) >>> 12
        (Regions.addreg a (BitVec.ofNat 64 m.1) size.toNat (s >>> 12) size r).bind
          (insertRoot st a e fuel p)
    else some r

/-- Page `x` is in the range of addresses. -/
def InRange (s e x : Mword) : Prop := s.toNat ≤ 4096 * x.toNat ∧ 4096 * x.toNat < e.toNat

/-- The range is put into the space as it should: `memtype` gets on everywhere with a type that
holds so far, and each page of the range is in a node that has the memory type of
all its addresses below the width. -/
structure Typed (st : State) (w : Nat) (s e : Mword) : Prop where
  gets_on : ∀ phys : Mword, s.toNat ≤ phys.toNat → phys.toNat < e.toNat →
    phys.toNat < (memtype st phys).2.toNat ∧ ∀ q : Mword, phys.toNat ≤ q.toNat →
      q.toNat < (memtype st phys).2.toNat → q.toNat < e.toNat → (memtype st q).1 = (memtype st phys).1
  nodes : ∀ (a : Mword) (r : Regions), r.Good → (∀ x, InRange s e x → ¬r.Covered x) →
    ∃ fuel r', insertRoot st a e fuel s r = some r' ∧ r'.Good ∧
      (∀ x, ¬InRange s e x → ∀ p b t, r'.Maps x p b t ↔ r.Maps x p b t) ∧
      ∀ x, InRange s e x → ∃ t, (∀ p b t', r'.Maps x p b t' ↔ p = x ∧ b = a ∧ t' = t) ∧
        ∀ i < 4096, 4096 * x.toNat + i < 2 ^ w → t = BitVec.ofNat 64 (mtrrType st (4096 * x.toNat + i))

variable {st : State} {w : Nat} {s e : Mword}

theorem skip_spec (hs : st.Fits w) (he : e.toNat ≤ 2 ^ 52)
    (hd : ∀ phys : Mword, s.toNat ≤ phys.toNat → phys.toNat < e.toNat → st.Direct w phys.toNat)
    (t fuel : Nat) {p : Mword} (hf : e.toNat - p.toNat ≤ fuel) (hsp : s.toNat ≤ p.toNat)
    (hp : 2 ^ 12 ∣ p.toNat ∨ p = ones) :
    ∃ p', skip st e t fuel p = some p' ∧ p.toNat ≤ p'.toNat ∧ (2 ^ 12 ∣ p'.toNat ∨ p' = ones) ∧
      ∀ q, p.toNat ≤ q → q < p'.toNat → q < e.toNat → mtrrType st q = t := by
  have hstop : ∀ fuel (p : Mword), ¬p.toNat < e.toNat → skip st e t fuel p = some p := by
    intro fuel p hlt
    have hlt' : ¬p < e := fun h => hlt (BitVec.lt_def.mp h)
    cases fuel with
    | zero => rw [skip, if_neg hlt']
    | succ fuel => rw [skip, if_neg hlt']
  induction fuel generalizing p with
  | zero => exact ⟨p, hstop 0 p (by omega), le_rfl, hp, fun q h1 h2 => absurd h2 (by omega)⟩
  | succ fuel ih =>
    by_cases hlt : p.toNat < e.toNat
    · have hans := answers hs (by omega) (hd p hsp hlt)
      have hnext := hans.next
      rw [skip, if_pos (BitVec.lt_def.mpr hlt)]
      by_cases ht : (memtype st p).1 = t
      · obtain ⟨p', hp', hle, hpage, hall⟩ := @ih (memtype st p).2 (by omega) (by omega) hans.page
        refine ⟨p', ?_, by omega, hpage, fun q h1 h2 h3 => ?_⟩
        · simpa [ht] using hp'
        · by_cases hq : q < (memtype st p).2.toNat
          · rw [hans.const q h1 hq, ← hans.type, ht]
          · exact hall q (by omega) h2 h3
      · exact ⟨p, by simp [ht], le_rfl, hp, fun q h1 h2 => absurd h2 (by omega)⟩
    · exact ⟨p, hstop _ p hlt, le_rfl, hp, fun q h1 h2 => absurd h2 (by omega)⟩

theorem pages_iff {s p : Mword} (hs : 2 ^ 12 ∣ s.toNat) (hp : 2 ^ 12 ∣ p.toNat) (hle : s.toNat ≤ p.toNat)
    (h52 : p.toNat ≤ 2 ^ 52) (x : Mword) :
    (x - s >>> 12).toNat < ((p - s) >>> 12).toNat ↔ InRange s p x := by
  have hx := x.isLt
  unfold InRange
  rw [BitVec.toNat_sub, BitVec.toNat_ushiftRight, BitVec.toNat_ushiftRight,
    BitVec.toNat_sub_of_le (BitVec.le_def.mpr hle), Nat.shiftRight_eq_div_pow, Nat.shiftRight_eq_div_pow]
  obtain ⟨m, hm⟩ := hs
  obtain ⟨n, hn⟩ := hp
  rw [show s.toNat / 2 ^ 12 = m by omega, show (p.toNat - s.toNat) / 2 ^ 12 = n - m by omega]
  by_cases hmx : m ≤ x.toNat
  · rw [show 2 ^ 64 - m + x.toNat = x.toNat - m + 2 ^ 64 by omega, Nat.add_mod_right,
      Nat.mod_eq_of_lt (by omega)]
    omega
  · rw [Nat.mod_eq_of_lt (by omega)]
    omega

theorem insertRoot_spec (hs : st.Fits w) (hee : 2 ^ 12 ∣ e.toNat) (he : e.toNat ≤ 2 ^ 52) (a : Mword)
    {fuel : Nat} {s : Mword} {r : Regions} (hf : e.toNat - s.toNat ≤ fuel) (hss : 2 ^ 12 ∣ s.toNat)
    (hd : ∀ phys : Mword, s.toNat ≤ phys.toNat → phys.toNat < e.toNat → st.Direct w phys.toNat)
    (hg : r.Good) (hfree : ∀ x, InRange s e x → ¬r.Covered x) :
    ∃ r', insertRoot st a e fuel s r = some r' ∧ r'.Good ∧ ∀ x p b t, r'.Maps x p b t ↔
      r.Maps x p b t ∨ InRange s e x ∧ p = x ∧ b = a ∧ t = BitVec.ofNat 64 (mtrrType st (4096 * x.toNat)) := by
  have hdone : ∀ {fuel : Nat} {s : Mword} {r : Regions}, ¬s.toNat < e.toNat → r.Good →
      ∃ r', insertRoot st a e fuel s r = some r' ∧ r'.Good ∧ ∀ x p b t, r'.Maps x p b t ↔
        r.Maps x p b t ∨ InRange s e x ∧ p = x ∧ b = a ∧
          t = BitVec.ofNat 64 (mtrrType st (4096 * x.toNat)) := by
    intro fuel s r hlt hg
    have hlt' : ¬s < e := fun h => hlt (BitVec.lt_def.mp h)
    refine ⟨r, ?_, hg, fun x p b t => ?_⟩
    · cases fuel with
      | zero => rw [insertRoot, if_neg hlt']
      | succ fuel => rw [insertRoot, if_neg hlt']
    · have hno : ¬InRange s e x := fun h => hlt (h.1.trans_lt h.2)
      simp [hno]
  induction fuel generalizing s r with
  | zero => exact hdone (by omega) hg
  | succ fuel ih =>
    by_cases hlt : s.toNat < e.toNat
    · have hans := answers hs (by omega) (hd s le_rfl hlt)
      have hnext := hans.next
      obtain ⟨p, hskip, hle, hpage, hall⟩ := skip_spec hs he hd (memtype st s).1 fuel
        (by omega) hnext.le hans.page
      have hp1 : (wmin p e).toNat = min p.toNat e.toNat := toNat_wmin p e
      generalize hgen : wmin p e = p1 at hp1
      have hpage1 : 2 ^ 12 ∣ p1.toNat := by
        rcases Nat.le_total p.toNat e.toNat with hpe | hpe
        · rw [hp1, Nat.min_eq_left hpe]
          rcases hpage with hd12 | rfl
          · exact hd12
          · have hones : ones.toNat = 2 ^ 64 - 1 := rfl
            omega
        · rw [hp1, Nat.min_eq_right hpe]
          exact hee
      -- the addresses up to `p1` have the type of the first one
      have hsame : ∀ q, s.toNat ≤ q → q < p1.toNat → mtrrType st q = mtrrType st s.toNat := by
        intro q h1 h2
        by_cases hq : q < (memtype st s).2.toNat
        · exact hans.const q h1 hq
        · rw [hall q (by omega) (by omega) (by omega), hans.type]
      have hiff := pages_iff hss hpage1 (by omega) (by omega)
      obtain ⟨r1, hr1, hg1, hmaps1⟩ := Regions.addreg_spec hg (le_refl ((p1 - s) >>> 12).toNat) a
        (BitVec.ofNat 64 (memtype st s).1) (s >>> 12)
      have hsplit : ∀ x, InRange s e x ↔ InRange s p1 x ∨ InRange p1 e x := by
        intro x
        unfold InRange
        omega
      have hmaps1 := hmaps1 fun x hx => hfree x ((hsplit x).mpr (.inl ((hiff x).mp hx)))
      have hfree1 : ∀ x, InRange p1 e x → ¬r1.Covered x := by
        intro x hx hcov
        obtain ⟨q, b, t, hm⟩ := Regions.covered_iff.mp hcov
        rcases (hmaps1 x q b t).mp hm with hold | ⟨hin, -⟩
        · exact hfree x ((hsplit x).mpr (.inr hx)) (Regions.covered_iff.mpr ⟨q, b, t, hold⟩)
        · have hin := (hiff x).mp hin
          unfold InRange at hin hx
          omega
      obtain ⟨r2, hr2, hg2, hmaps2⟩ := @ih p1 r1 (by omega) hpage1 (fun phys h1 h2 => hd phys (by omega) h2)
        hg1 hfree1
      refine ⟨r2, ?_, hg2, fun x q b t => ?_⟩
      · rw [insertRoot, if_pos (BitVec.lt_def.mpr hlt)]
        simp only [hskip, Option.bind_some, hgen, hr1, hr2]
      · rw [hmaps2, hmaps1, hiff, hsplit x, hans.type, or_assoc]
        refine or_congr_right ?_
        by_cases hx : InRange s p1 x
        · have hx' : ¬InRange p1 e x := by
            unfold InRange at hx ⊢
            omega
          simp [hx, hx', hsame _ hx.1 hx.2]
        · simp [hx]
    · exact hdone hlt hg

/-- The range is typed unless a variable range is met again above the width in it. -/
theorem typed_iff (hs : st.Fits w) (hss : 2 ^ 12 ∣ s.toNat) (hee : 2 ^ 12 ∣ e.toNat)
    (he : e.toNat ≤ 2 ^ 52) :
    Typed st w s e ↔ ∀ phys : Mword, s.toNat ≤ phys.toNat → phys.toNat < e.toNat → st.Direct w phys.toNat := by
  constructor
  · intro h phys h1 h2
    by_contra hd
    exact absurd (h.gets_on phys h1 h2).1 (Nat.not_lt_of_le (next_le_of_not_direct hs hd))
  · intro hd
    have hans : ∀ phys : Mword, s.toNat ≤ phys.toNat → phys.toNat < e.toNat →
        Answers st phys (memtype st phys) := fun phys h1 h2 => answers hs (by omega) (hd phys h1 h2)
    refine ⟨fun phys h1 h2 => ⟨(hans phys h1 h2).next, fun q h3 h4 h5 => ?_⟩, fun a r hg hfree => ?_⟩
    · rw [(hans q (by omega) h5).type, (hans phys h1 h2).type]
      exact (hans phys h1 h2).const _ h3 h4
    · obtain ⟨r', hr', hg', hmaps⟩ := insertRoot_spec hs hee he a le_rfl hss hd hg hfree
      refine ⟨_, r', hr', hg', fun x hx p b t => ?_, fun x hx =>
        ⟨BitVec.ofNat 64 (mtrrType st (4096 * x.toNat)), fun p b t => ?_, fun i hi _ => ?_⟩⟩
      · rw [hmaps]
        simp [hx]
      · rw [hmaps]
        have hno : ¬r.Maps x p b t := fun h => hfree x hx (Regions.covered_iff.mpr ⟨p, b, t, h⟩)
        simp [hno, hx]
      · -- `next` is on a page boundary, so the type is that of the whole page
        have hx' := hx
        unfold InRange at hx'
        have htop : (BitVec.ofNat 64 (4096 * x.toNat)).toNat = 4096 * x.toNat := by
          rw [BitVec.toNat_ofNat, Nat.mod_eq_of_lt (by omega)]
        have h1 := hans (BitVec.ofNat 64 (4096 * x.toNat)) (by omega) (by omega)
        have hnext := h1.next
        have hconst := h1.const
        rw [htop] at hnext hconst
        have hpage : 4096 * x.toNat + 4096 ≤ (memtype st (BitVec.ofNat 64 (4096 * x.toNat))).2.toNat := by
          rcases h1.page with hd12 | hones
          · exact add_le_of_dvd_of_lt ⟨x.toNat, rfl⟩ hd12 hnext
          · have : ones.toNat = 2 ^ 64 - 1 := rfl
            rw [hones]
            omega
        rw [hconst _ (Nat.le_add_right _ i) (by omega)]

/-- 64 GiB of write-back memory in two ranges, the whole of a width of 36. -/
def halves : State := State.init fun
  | 0xfe => 2
  | 0x200 => 0x6
  | 0x201 => 0x800000800
  | 0x202 => 0x800000006
  | 0x203 => 0x800000800
  | _ => 0

theorem fits_halves : halves.Fits 36 := by
  have hmask : ∀ i, 12 ≤ i → ((0x800000800 : Mword).getLsbD i = true ↔ 35 ≤ i ∧ i < 36) := by
    have hlow : ∀ i < 64, 12 ≤ i → ((0x800000800 : Mword).getLsbD i = true ↔ 35 ≤ i ∧ i < 36) := by
      decide
    intro i hi
    by_cases hlt : i < 64
    · exact hlow i hlt hi
    · rw [BitVec.getLsbD_of_ge _ _ (Nat.le_of_not_lt hlt)]
      simp only [Bool.false_eq_true, false_iff]
      omega
  refine ⟨by decide, by decide, fun x hx _ => ⟨35, ?_⟩⟩
  have hlist : halves.list = [⟨0x6, 0x800000800⟩, ⟨0x800000006, 0x800000800⟩] := rfl
  rw [hlist, List.mem_cons, List.mem_singleton] at hx
  rcases hx with rfl | rfl
  · exact ⟨by decide, by decide, hmask, by decide, by decide⟩
  · exact ⟨by decide, by decide, hmask, by decide, by decide⟩

/-- At 64 GiB `memtype` sees the first range again, so that `p` goes back and forth. -/
theorem endless_halves : halves.Fits 36 ∧ ¬Typed halves 36 0x100000 0x10000000000000 ∧
    ∀ fuel a r, insertRoot halves a 0x10000000000000 fuel 0x100000 r = none := by
  have h0 : memtype halves 0x100000 = (6, 0x800000000) := by decide
  have h1 : memtype halves 0x800000000 = (6, 0x1000000000) := by decide
  have h2 : memtype halves 0x1000000000 = (6, 0x800000000) := by decide
  have hskip : ∀ fuel, skip halves 0x10000000000000 6 fuel 0x800000000 = none ∧
      skip halves 0x10000000000000 6 fuel 0x1000000000 = none := by
    intro fuel
    induction fuel with
    | zero => exact ⟨rfl, rfl⟩
    | succ fuel ih =>
      constructor
      · rw [skip, if_pos (by decide), h1]
        exact ih.2
      · rw [skip, if_pos (by decide), h2]
        exact ih.1
  refine ⟨fits_halves, fun h => ?_, fun fuel a r => ?_⟩
  · have := (h.gets_on 0x1000000000 (by decide) (by decide)).1
    rw [h2] at this
    exact absurd this (by decide)
  · cases fuel with
    | zero => rfl
    | succ fuel =>
      rw [insertRoot, if_pos (by decide), h0]
      simp only [(hskip fuel).1, Option.bind_none]

theorem typed_iff_halves : Typed halves 36 0x100000 0x1000000000 :=
  (typed_iff fits_halves (by decide) (by decide) (by decide)).mpr fun phys _ hlt hw =>
    absurd hw (Nat.not_le_of_lt hlt)

end Tukija.Memtype
