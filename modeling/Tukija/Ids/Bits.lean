import Mathlib.Data.BitVec
import Mathlib.Logic.Function.Basic
import Tukija.Cpus.Set

/-! The bitmap of `Bit_alloc`, and `reserve`. -/
namespace Tukija.Ids

/-- The parameters of the template; `C` is `64 * max`, as it asserts. -/
structure Params where
  max : Nat
  inv : Nat
  inv_lt : inv < 64 * max

abbrev Words := Nat → BitVec 64

def bit (w : Words) (id : Nat) : Bool := (w (id / 64)).getLsbD (id % 64)

/-- What `test_set_bit` leaves. -/
def setBit (w : Words) (i b : Nat) : Words := Function.update w i (w i ||| 1#64 <<< b)

/-- What `test_clr_bit` leaves. -/
def clrBit (w : Words) (i b : Nat) : Words := Function.update w i (w i &&& ~~~(1#64 <<< b))

namespace Params

variable (p : Params)

def c : Nat := 64 * p.max

/-- `Bit_alloc::Bit_alloc`. -/
def init : Words := setBit (fun _ => 0#64) (p.inv / 64) (p.inv % 64)

/-- The loop of `reserve`. -/
def reserveLoop : Nat → Nat → Nat → Nat → Words → Option Words
  | 0, _, _, _, _ => none
  | fuel + 1, i, b, cnt, w =>
    if cnt = 0 then some w
    else
      let c := if 64 < cnt then 64 else cnt
      let bc := if 64 - b < c then 64 - b else c
      let word := if 64 ≤ bc then BitVec.allOnes 64 else w i ||| ((1#64 <<< bc) - 1#64) <<< b
      reserveLoop fuel (i + 1) 0 (cnt - bc) (if w i ≠ BitVec.allOnes 64 then Function.update w i word else w)

def reserve (fuel start count : Nat) (w : Words) : Option Words :=
  if p.c ≤ start then some w
  else
    let cnt := if p.c < count then p.c else count
    let cnt := if p.c < start + cnt then p.c - start else cnt
    reserveLoop fuel (start / 64) (start % 64) cnt w

end Params

/-! ## Bits -/

theorem eq_word_iff {id i b : Nat} (hb : b < 64) : id = 64 * i + b ↔ id / 64 = i ∧ id % 64 = b := by omega

theorem getLsbD_one_shiftLeft {b k : Nat} (hk : k < 64) : (1#64 <<< b).getLsbD k = decide (k = b) := by
  rw [← BitVec.twoPow_eq, BitVec.getLsbD_twoPow]
  by_cases h : k = b
  · simp [h, h ▸ hk]
  · simp [h, Ne.symm h]

theorem bit_update (w : Words) (i id : Nat) (x : BitVec 64) :
    bit (Function.update w i x) id = if id / 64 = i then x.getLsbD (id % 64) else bit w id := by
  by_cases h : id / 64 = i
  · rw [if_pos h, bit, h, Function.update_self]
  · rw [if_neg h, bit, Function.update_of_ne h, bit]

theorem bit_setBit (w : Words) (i id : Nat) {b : Nat} (hb : b < 64) :
    bit (setBit w i b) id = (bit w id || decide (id = 64 * i + b)) := by
  have hk : id % 64 < 64 := Nat.mod_lt _ (by decide)
  rw [setBit, bit_update]
  by_cases h : id / 64 = i
  · rw [if_pos h, BitVec.getLsbD_or, getLsbD_one_shiftLeft hk, bit, h]
    congr 1
    exact decide_eq_decide.mpr (by omega)
  · rw [if_neg h, decide_eq_false (fun heq => h ((eq_word_iff hb).mp heq).1), Bool.or_false]

theorem bit_clrBit (w : Words) (i id : Nat) {b : Nat} (hb : b < 64) :
    bit (clrBit w i b) id = (bit w id && decide (id ≠ 64 * i + b)) := by
  have hk : id % 64 < 64 := Nat.mod_lt _ (by decide)
  rw [clrBit, bit_update]
  by_cases h : id / 64 = i
  · have hiff : id % 64 = b ↔ id = 64 * i + b := by omega
    rw [if_pos h, BitVec.getLsbD_and, BitVec.getLsbD_not, getLsbD_one_shiftLeft hk, bit, h, decide_eq_true hk,
      Bool.true_and, decide_not, decide_eq_decide.mpr hiff]
  · have hne : id ≠ 64 * i + b := fun heq => h ((eq_word_iff hb).mp heq).1
    rw [if_neg h, decide_eq_true hne, Bool.and_true]

/-! ## Reserving -/

theorem getLsbD_ones {bc k : Nat} (hbc : bc < 64) : ((1#64 <<< bc) - 1#64).getLsbD k = decide (k < bc) := by
  have hone : (1#64 <<< bc).toNat = 2 ^ bc := by
    rw [← BitVec.twoPow_eq, BitVec.toNat_twoPow, Nat.mod_eq_of_lt (Nat.pow_lt_pow_right (by decide) hbc)]
  have hle : 1#64 ≤ 1#64 <<< bc := by
    rw [BitVec.le_def, hone]
    exact Nat.one_le_two_pow
  rw [BitVec.getLsbD, BitVec.toNat_sub_of_le hle, hone]
  exact Nat.testBit_two_pow_sub_one bc k

theorem bit_turn (w : Words) (i id : Nat) {b bc : Nat} (hbc : b + bc ≤ 64) :
    bit (if w i ≠ BitVec.allOnes 64 then
        Function.update w i (if 64 ≤ bc then BitVec.allOnes 64 else w i ||| ((1#64 <<< bc) - 1#64) <<< b) else w) id =
      (bit w id || decide (64 * i + b ≤ id ∧ id < 64 * i + b + bc)) := by
  have hk : id % 64 < 64 := Nat.mod_lt _ (by decide)
  by_cases hfull : w i = BitVec.allOnes 64
  · rw [if_neg (not_not.mpr hfull)]
    by_cases h : id / 64 = i
    · have hset : bit w id = true := by
        rw [bit, h, hfull, BitVec.getLsbD_allOnes, decide_eq_true hk]
      rw [hset, Bool.true_or]
    · rw [decide_eq_false (by omega), Bool.or_false]
  · rw [if_pos hfull, bit_update]
    by_cases h : id / 64 = i
    · rw [if_pos h]
      by_cases hall : 64 ≤ bc
      · rw [if_pos hall, decide_eq_true (by omega), Bool.or_true, BitVec.getLsbD_allOnes, decide_eq_true hk]
      · rw [if_neg hall, BitVec.getLsbD_or, BitVec.getLsbD_shiftLeft, getLsbD_ones (not_le.mp hall), bit, h]
        congr 1
        rw [decide_eq_true hk, Bool.true_and, ← decide_not, ← Bool.decide_and]
        exact decide_eq_decide.mpr (by omega)
    · rw [if_neg h, decide_eq_false (by omega), Bool.or_false]

theorem reserveLoop_spec {fuel : Nat} (i b cnt : Nat) (w : Words) (hb : b < 64) (hfuel : cnt < fuel) :
    ∃ w', Params.reserveLoop fuel i b cnt w = some w' ∧
      ∀ id, bit w' id = (bit w id || decide (64 * i + b ≤ id ∧ id < 64 * i + b + cnt)) := by
  induction fuel generalizing i b cnt w with
  | zero => exact absurd hfuel (Nat.not_lt_zero _)
  | succ fuel ih =>
    rw [Params.reserveLoop]
    by_cases h0 : cnt = 0
    · refine ⟨w, if_pos h0, fun id => ?_⟩
      rw [decide_eq_false (by omega), Bool.or_false]
    · rw [if_neg h0]
      dsimp only
      obtain ⟨bc, hbc⟩ : ∃ bc, (if 64 - b < if 64 < cnt then 64 else cnt then 64 - b
        else if 64 < cnt then 64 else cnt) = bc := ⟨_, rfl⟩
      have hpos : 0 < bc ∧ bc ≤ cnt ∧ b + bc ≤ 64 ∧ (bc = cnt ∨ b + bc = 64) := by
        split_ifs at hbc <;> omega
      obtain ⟨hbc0, hle, hword, hend⟩ := hpos
      rw [hbc]
      obtain ⟨w', hw', hbits⟩ := ih (i + 1) 0 (cnt - bc) _ (by decide) (by omega)
      refine ⟨w', hw', fun id => ?_⟩
      rw [hbits, bit_turn w i id hword, Bool.or_assoc, ← Bool.decide_or]
      congr 1
      exact decide_eq_decide.mpr (by omega)

theorem reserve_spec (p : Params) (start count : Nat) (w : Words) :
    ∃ w', p.reserve (p.c + 1) start count w = some w' ∧
      ∀ id, bit w' id = (bit w id || decide (start ≤ id ∧ id < min (start + count) p.c)) := by
  unfold Params.reserve
  by_cases hstart : p.c ≤ start
  · refine ⟨w, if_pos hstart, fun id => ?_⟩
    rw [decide_eq_false (by omega), Bool.or_false]
  · rw [if_neg hstart]
    dsimp only
    obtain ⟨cnt, hcnt⟩ : ∃ cnt, (if p.c < start + (if p.c < count then p.c else count) then p.c - start
      else if p.c < count then p.c else count) = cnt := ⟨_, rfl⟩
    have hmin : start + cnt = min (start + count) p.c := by
      split_ifs at hcnt <;> omega
    rw [hcnt]
    obtain ⟨w', hw', hbits⟩ := reserveLoop_spec (start / 64) (start % 64) cnt w (Nat.mod_lt _ (by decide))
      (show cnt < p.c + 1 by omega)
    refine ⟨w', hw', fun id => ?_⟩
    rw [hbits, Nat.div_add_mod, hmin]

end Tukija.Ids
