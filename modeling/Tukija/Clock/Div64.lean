import Mathlib.Data.BitVec
import Mathlib.Data.Nat.ModEq

/-! `div64`, by one division on the 64-bit machine and by two chained ones on the
32-bit machine. -/
namespace Tukija.Clock

inductive Arch where
  | i386
  | x86_64
  deriving DecidableEq, Repr

/-- The registers that the divisions work on; `r` is the one for the remainder. -/
structure Regs where
  eax : BitVec 32
  edx : BitVec 32
  r : BitVec 32

/-- `divl`: an exception when the quotient does not fit. -/
def divl (d : BitVec 32) (m : Regs) : Option Regs :=
  let n := m.edx.toNat * 2 ^ 32 + m.eax.toNat
  if d ≠ 0 ∧ n / d.toNat < 2 ^ 32 then
    some { m with eax := .ofNat 32 (n / d.toNat), edx := .ofNat 32 (n % d.toNat) }
  else none

def Regs.xchgEax (m : Regs) : Regs := { m with eax := m.r, r := m.eax }

def Regs.xchgEdx (m : Regs) : Regs := { m with edx := m.r, r := m.edx }

/-- `div64`: quotient and remainder. -/
def div64 (arch : Arch) (n : BitVec 64) (d : BitVec 32) : Option (BitVec 64 × BitVec 32) :=
  match arch with
  | .i386 =>
    (divl d ⟨n.extractLsb' 32 32, 0, n.extractLsb' 0 32⟩).bind fun m =>
      (divl d m.xchgEax).map fun m =>
        let m := m.xchgEdx
        (m.edx ++ m.eax, m.r)
  | .x86_64 => if d = 0 then none else some (n / d.setWidth 64, (n % d.setWidth 64).setWidth 32)

theorem div_digits (hi lo b d : Nat) : (hi * b + lo) / d = hi / d * b + (hi % d * b + lo) / d := by
  rcases Nat.eq_zero_or_pos d with rfl | hd
  · simp
  · have h : hi * b + lo = d * (hi / d * b) + (hi % d * b + lo) := by
      conv_lhs => rw [← Nat.div_add_mod hi d]
      rw [Nat.add_mul, Nat.mul_assoc, Nat.add_assoc]
    rw [h, Nat.mul_add_div hd]

theorem mod_digits (hi lo b d : Nat) : (hi * b + lo) % d = (hi % d * b + lo) % d :=
  ((Nat.mod_modEq hi d).symm.mul_right b).add_right lo

theorem digit_lt {r lo b d : Nat} (hr : r < d) (hlo : lo < b) : (r * b + lo) / d < b := by
  rw [Nat.div_lt_iff_lt_mul (Nat.zero_lt_of_lt hr)]
  calc r * b + lo < r * b + b := Nat.add_lt_add_left hlo _
    _ = (r + 1) * b := (Nat.succ_mul r b).symm
    _ ≤ d * b := Nat.mul_le_mul_right b hr
    _ = b * d := Nat.mul_comm d b

theorem divl_eq {d eax edx : BitVec 32} (r : BitVec 32) (h : edx.toNat < d.toNat) :
    divl d ⟨eax, edx, r⟩ = some ⟨.ofNat 32 ((edx.toNat * 2 ^ 32 + eax.toNat) / d.toNat),
      .ofNat 32 ((edx.toNat * 2 ^ 32 + eax.toNat) % d.toNat), r⟩ := by
  have hd : d ≠ 0 := by
    rintro rfl
    exact Nat.not_lt_zero _ h
  rw [divl, if_pos ⟨hd, digit_lt h eax.isLt⟩]

theorem toNat_pair (x y : BitVec 32) : (x ++ y).toNat = x.toNat * 2 ^ 32 + y.toNat := by
  rw [BitVec.toNat_append, ← Nat.shiftLeft_add_eq_or_of_lt y.isLt, Nat.shiftLeft_eq]

theorem div64_zero (arch : Arch) (n : BitVec 64) : div64 arch n 0 = none := by
  cases arch <;> rfl

theorem div64_eq (arch : Arch) (n : BitVec 64) {d : BitVec 32} (hd : d ≠ 0) :
    div64 arch n d = some (.ofNat 64 (n.toNat / d.toNat), .ofNat 32 (n.toNat % d.toNat)) := by
  have hpos : 0 < d.toNat := Nat.pos_of_ne_zero fun h => hd (BitVec.eq_of_toNat_eq h)
  have hn := n.isLt
  have hd32 := d.isLt
  cases arch with
  | x86_64 =>
    have hw : (d.setWidth 64).toNat = d.toNat := by
      rw [BitVec.toNat_setWidth]
      omega
    rw [div64, if_neg hd]
    refine congrArg some (Prod.ext (BitVec.eq_of_toNat_eq ?_) (BitVec.eq_of_toNat_eq ?_))
    · rw [BitVec.toNat_udiv, hw, BitVec.toNat_ofNat]
      exact (Nat.mod_eq_of_lt ((Nat.div_le_self _ _).trans_lt hn)).symm
    · rw [BitVec.toNat_setWidth, BitVec.toNat_umod, hw, BitVec.toNat_ofNat]
  | i386 =>
    have hhi : (n.extractLsb' 32 32).toNat = n.toNat / 2 ^ 32 := by
      rw [BitVec.extractLsb'_toNat, Nat.shiftRight_eq_div_pow]
      omega
    have hlo : (n.extractLsb' 0 32).toNat = n.toNat % 2 ^ 32 := by
      rw [BitVec.extractLsb'_toNat, Nat.shiftRight_zero]
    have hsplit : n.toNat = n.toNat / 2 ^ 32 * 2 ^ 32 + n.toNat % 2 ^ 32 := by omega
    have hr : n.toNat / 2 ^ 32 % d.toNat < d.toNat := Nat.mod_lt _ hpos
    have hrem : (BitVec.ofNat 32 (n.toNat / 2 ^ 32 % d.toNat)).toNat = n.toNat / 2 ^ 32 % d.toNat :=
      Nat.mod_eq_of_lt (hr.trans hd32)
    have first : divl d ⟨n.extractLsb' 32 32, 0, n.extractLsb' 0 32⟩ =
        some ⟨.ofNat 32 (n.toNat / 2 ^ 32 / d.toNat), .ofNat 32 (n.toNat / 2 ^ 32 % d.toNat), n.extractLsb' 0 32⟩ := by
      rw [divl_eq _ (show (0 : BitVec 32).toNat < d.toNat from hpos), hhi]
      rw [show (0 : BitVec 32).toNat = 0 from rfl, Nat.zero_mul, Nat.zero_add]
    have second : divl d ⟨n.extractLsb' 0 32, .ofNat 32 (n.toNat / 2 ^ 32 % d.toNat), .ofNat 32 (n.toNat / 2 ^ 32 / d.toNat)⟩ =
        some ⟨.ofNat 32 ((n.toNat / 2 ^ 32 % d.toNat * 2 ^ 32 + n.toNat % 2 ^ 32) / d.toNat),
          .ofNat 32 (n.toNat % d.toNat), .ofNat 32 (n.toNat / 2 ^ 32 / d.toNat)⟩ := by
      rw [divl_eq _ (hrem.trans_lt hr), hrem, hlo, ← mod_digits, ← hsplit]
    rw [div64, first, Option.bind_some, Regs.xchgEax, second, Option.map_some]
    refine congrArg some (Prod.ext (BitVec.eq_of_toNat_eq ?_) rfl)
    have hdigit : (n.toNat / 2 ^ 32 % d.toNat * 2 ^ 32 + n.toNat % 2 ^ 32) / d.toNat < 2 ^ 32 :=
      digit_lt hr (Nat.mod_lt _ (by decide))
    have hq : n.toNat / d.toNat = n.toNat / 2 ^ 32 / d.toNat * 2 ^ 32 +
        (n.toNat / 2 ^ 32 % d.toNat * 2 ^ 32 + n.toNat % 2 ^ 32) / d.toNat := by
      rw [← div_digits, ← hsplit]
    have hhigh : n.toNat / 2 ^ 32 / d.toNat < 2 ^ 32 := (Nat.div_le_self _ _).trans_lt (by omega)
    refine (toNat_pair _ _).trans ?_
    rw [Regs.xchgEdx]
    dsimp only
    rw [BitVec.toNat_ofNat, BitVec.toNat_ofNat, BitVec.toNat_ofNat, Nat.mod_eq_of_lt hhigh, Nat.mod_eq_of_lt hdigit, ← hq]
    exact (Nat.mod_eq_of_lt ((Nat.div_le_self _ _).trans_lt hn)).symm

end Tukija.Clock
