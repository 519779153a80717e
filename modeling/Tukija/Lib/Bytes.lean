import Tukija.Lib.Word

/-! Memory as bytes, with little-endian words of eight bytes in it. -/
namespace Tukija.Lib.Bytes

open Tukija.Lib.Word

abbrev Mem := Nat → BitVec 8

variable {m m' : Mem} {a b n : Nat} {v : Mword}

def load (m : Mem) (a : Nat) : Mword :=
  m (a + 7) ++ m (a + 6) ++ m (a + 5) ++ m (a + 4) ++ m (a + 3) ++ m (a + 2) ++ m (a + 1) ++ m a

def store (m : Mem) (a : Nat) (v : Mword) : Mem :=
  fun b => if a ≤ b ∧ b < a + 8 then v.extractLsb' (8 * (b - a)) 8 else m b

/-- `n` bytes from `a` on have nothing in common with `k` bytes from `b` on. -/
def Apart (a n b k : Nat) : Prop := a + n ≤ b ∨ b + k ≤ a

theorem Apart.symm {k : Nat} (h : Apart a n b k) : Apart b k a n := Or.symm h

theorem Apart.mono {k n' k' : Nat} (h : Apart a n b k) (hn : n' ≤ n) (hk : k' ≤ k) : Apart a n' b k' := by
  unfold Apart at *
  omega

theorem load_congr (h : ∀ i < 8, m' (a + i) = m (a + i)) : load m' a = load m a := by
  have h0 := h 0 (by decide)
  unfold load
  rw [h 7 (by decide), h 6 (by decide), h 5 (by decide), h 4 (by decide), h 3 (by decide), h 2 (by decide),
    h 1 (by decide)]
  exact congrArg _ h0

@[simp] theorem load_store : load (store m a v) a = v := by
  have hbyte : ∀ i < 8, store m a v (a + i) = v.extractLsb' (8 * i) 8 := by
    intro i hi
    rw [store, if_pos (by omega), Nat.add_sub_cancel_left]
  have h0 := hbyte 0 (by decide)
  rw [Nat.add_zero] at h0
  unfold load
  rw [hbyte 7 (by decide), hbyte 6 (by decide), hbyte 5 (by decide), hbyte 4 (by decide), hbyte 3 (by decide),
    hbyte 2 (by decide), hbyte 1 (by decide), h0]
  ext i hi
  simp only [BitVec.getElem_append, BitVec.getElem_extractLsb']
  grind

theorem load_store_of_apart (h : Apart a 8 b 8) : load (store m a v) b = load m b := by
  refine load_congr fun i hi => ?_
  unfold Apart at h
  rw [store, if_neg (by omega)]

theorem load_update (x : BitVec 8) (h : Apart a 1 b 8) : load (Function.update m a x) b = load m b := by
  refine load_congr fun i hi => ?_
  unfold Apart at h
  exact Function.update_of_ne (by omega) ..

end Tukija.Lib.Bytes
