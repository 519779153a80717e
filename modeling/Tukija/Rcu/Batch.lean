import Tukija.Rcu.State

/-! Batches by their true numbers.  The state word and the batch numbers of the
CPUs wrap; what is compared is never further apart than one batch. -/
namespace Tukija.Rcu

open Tukija.Lib.Word

def epoch (n : Nat) : Mword := BitVec.ofNat 64 n <<< 2

def Flag.pick (f : Flag) (cmp pnd : Bool) : Bool :=
  match f with
  | .cmp => cmp
  | .pnd => pnd

def flagBits (cmp pnd : Bool) : Mword :=
  (if cmp then Flag.cmp.bit else 0) ||| (if pnd then Flag.pnd.bit else 0)

/-- The state word of the batch `n`. -/
def stateWord (n : Nat) (cmp pnd : Bool) : Mword := epoch n ||| flagBits cmp pnd

theorem toNat_epoch (n : Nat) : (epoch n).toNat = 4 * n % 2 ^ 64 := by
  unfold epoch
  rw [BitVec.toNat_shiftLeft, BitVec.toNat_ofNat, Nat.shiftLeft_eq]
  omega

theorem epoch_succ (n : Nat) : epoch (n + 1) = epoch n + 4 := by
  apply BitVec.eq_of_toNat_eq
  rw [BitVec.toNat_add, toNat_epoch, toNat_epoch]
  show 4 * (n + 1) % 2 ^ 64 = (4 * n % 2 ^ 64 + 4) % 2 ^ 64
  omega

theorem epoch_and (n : Nat) : epoch n &&& 3 = 0 := by
  apply BitVec.eq_of_toNat_eq
  rw [BitVec.toNat_and, toNat_epoch]
  show 4 * n % 2 ^ 64 &&& 2 ^ 2 - 1 = 0
  rw [Nat.and_two_pow_sub_one_eq_mod]
  omega

theorem epoch_shr (n : Nat) : (epoch n >>> 2).toNat = n % 2 ^ 62 := by
  rw [BitVec.toNat_ushiftRight, toNat_epoch, Nat.shiftRight_eq_div_pow]
  omega

theorem epoch_shr_ne (n : Nat) : epoch (n + 1) >>> 2 ≠ epoch n >>> 2 := by
  intro h
  have := congrArg BitVec.toNat h
  rw [epoch_shr, epoch_shr] at this
  omega

theorem epoch_next (n : Nat) : (epoch n >>> 2 + 1) <<< 2 = epoch (n + 1) := by
  apply BitVec.eq_of_toNat_eq
  rw [BitVec.toNat_shiftLeft, BitVec.toNat_add, epoch_shr, toNat_epoch, Nat.shiftLeft_eq]
  show (n % 2 ^ 62 + 1) % 2 ^ 64 * 2 ^ 2 % 2 ^ 64 = 4 * (n + 1) % 2 ^ 64
  omega

theorem epoch_or {n : Nat} {x : Mword} (hx : 3 &&& x = x) : epoch n ||| x = epoch n + x := by
  apply (BitVec.add_eq_or_of_and_eq_zero _ _ _).symm
  rw [← hx, ← BitVec.and_assoc, epoch_and]
  exact BitVec.zero_and

section StateWord

variable (n : Nat) (cmp pnd : Bool)

theorem stateWord_and : stateWord n cmp pnd &&& 3 = flagBits cmp pnd := by
  unfold stateWord
  rw [BitVec.and_or_distrib_right, epoch_and]
  cases cmp <;> cases pnd <;> decide

theorem stateWord_and_bit (f : Flag) :
    stateWord n cmp pnd &&& f.bit ≠ 0 ↔ f.pick cmp pnd = true := by
  have hbit : f.bit = 3 &&& f.bit := by cases f <;> decide
  rw [hbit, ← BitVec.and_assoc, stateWord_and]
  cases f <;> cases cmp <;> cases pnd <;> decide

theorem stateWord_or_cmp : stateWord n cmp pnd ||| Flag.cmp.bit = stateWord n true pnd := by
  unfold stateWord
  rw [BitVec.or_assoc]
  congr 1
  cases cmp <;> cases pnd <;> decide

theorem stateWord_or_pnd : stateWord n cmp pnd ||| Flag.pnd.bit = stateWord n cmp true := by
  unfold stateWord
  rw [BitVec.or_assoc]
  congr 1
  cases cmp <;> cases pnd <;> decide

theorem stateWord_shr : stateWord n cmp pnd >>> 2 = epoch n >>> 2 := by
  have hflags : flagBits cmp pnd >>> 2 = 0 := by cases cmp <;> cases pnd <;> decide
  unfold stateWord
  rw [BitVec.ushiftRight_or_distrib, hflags]
  exact BitVec.or_zero

theorem stateWord_succ : stateWord n true true + 1 = stateWord (n + 1) false false := by
  unfold stateWord
  rw [epoch_or (by decide), epoch_or (by decide), epoch_succ, BitVec.add_assoc, BitVec.add_assoc]
  rfl

theorem behind_stateWord (f : Flag) (b : Caller) :
    f.behind b (stateWord n cmp pnd) =
      match f with
      | .cmp => if cmp = false ∧ pnd = true then .count b else b.pc
      | .pnd => if cmp = true ∧ pnd = false then .count b else b.pc := by
  have hlow : ∀ x y : Mword, (x ^^^ y) &&& 3 = (x &&& 3) ^^^ (y &&& 3) := by
    intro x y
    ext k
    simp only [BitVec.getElem_and, BitVec.getElem_xor]
    cases x[k] <;> cases y[k] <;> simp
  unfold Flag.behind
  rw [show Flag.cmp.bit ||| Flag.pnd.bit = 3 from rfl, hlow, stateWord_and]
  cases f <;> cases cmp <;> cases pnd <;> rfl

theorem stateWord_and_not_pnd : stateWord n cmp pnd &&& ~~~Flag.pnd.bit =
    epoch n + flagBits cmp false := by
  have hepoch : epoch n &&& ~~~Flag.pnd.bit = epoch n := by
    have hsplit := BitVec.and_or_distrib_left (x := epoch n) (y := 3) (z := ~~~3)
    rw [epoch_and, show (3 : Mword) ||| ~~~3 = BitVec.allOnes 64 from rfl, BitVec.and_allOnes] at hsplit
    have hhigh : epoch n = epoch n &&& ~~~3 := hsplit.trans BitVec.zero_or
    rw [hhigh, BitVec.and_assoc]
    rfl
  unfold stateWord
  rw [BitVec.and_or_distrib_right, hepoch, ← epoch_or (by cases cmp <;> decide)]
  congr 1
  cases cmp <;> cases pnd <;> decide

end StateWord

theorem completes_stateWord {n m : Nat} {cmp pnd : Bool} {b : Mword} (hb : b <<< 2 = epoch m)
    (h1 : n ≤ m + 1) (h2 : m ≤ n + 1) :
    completes (stateWord n cmp pnd) b = true ↔ m < n ∨ m = n ∧ cmp = true := by
  unfold completes
  rw [stateWord_and_not_pnd, hb, decide_eq_true_eq]
  rcases Nat.lt_trichotomy n m with hlt | rfl | hgt
  · obtain rfl : m = n + 1 := by omega
    have hdiff : epoch n + flagBits cmp false - (epoch n + 4) = flagBits cmp false - 4 := by
      generalize epoch n = x
      generalize flagBits cmp false = y
      bv_omega
    rw [epoch_succ, hdiff]
    cases cmp <;> simp <;> decide
  · rw [BitVec.add_comm, BitVec.add_sub_cancel]
    cases cmp <;> simp <;> decide
  · obtain rfl : n = m + 1 := by omega
    rw [epoch_succ, BitVec.add_assoc, BitVec.add_comm, BitVec.add_sub_cancel]
    cases cmp <;> simp <;> decide

end Tukija.Rcu
