import Tukija.Lib.Word

/-! Computations on machine words that remember whether one of their steps
wrapped around. -/
namespace Tukija.Lib.Checked

open Tukija.Lib.Word

structure Calc (α : Type) where
  val : α
  wraps : Bool

variable {α β : Type}

instance : Monad Calc where
  pure a := ⟨a, false⟩
  bind x f := ⟨(f x.val).val, x.wraps || (f x.val).wraps⟩

@[simp] theorem pure_val (a : α) : (pure a : Calc α).val = a := rfl

@[simp] theorem pure_wraps (a : α) : (pure a : Calc α).wraps = false := rfl

@[simp] theorem bind_val (x : Calc α) (f : α → Calc β) : (x >>= f).val = (f x.val).val := rfl

@[simp] theorem bind_wraps (x : Calc α) (f : α → Calc β) :
    (x >>= f).wraps = (x.wraps || (f x.val).wraps) := rfl

def add (x y : Mword) : Calc Mword := ⟨x + y, decide (2 ^ 64 ≤ x.toNat + y.toNat)⟩

def sub (x y : Mword) : Calc Mword := ⟨x - y, decide (x.toNat < y.toNat)⟩

@[simp] theorem add_wraps (x y : Mword) :
    (add x y).wraps = false ↔ x.toNat + y.toNat < 2 ^ 64 := by
  simp [add]

@[simp] theorem sub_wraps (x y : Mword) : (sub x y).wraps = false ↔ y.toNat ≤ x.toNat := by
  simp [sub]

theorem add_toNat {x y : Mword} (h : x.toNat + y.toNat < 2 ^ 64) :
    (add x y).val.toNat = x.toNat + y.toNat := by
  simp only [add, BitVec.toNat_add]
  exact Nat.mod_eq_of_lt h

theorem sub_toNat {x y : Mword} (h : y.toNat ≤ x.toNat) :
    (sub x y).val.toNat = x.toNat - y.toNat :=
  BitVec.toNat_sub_of_le (BitVec.le_def.mpr h)

def sub64 (x y : Nat) : Calc Nat := ⟨(x + (2 ^ 64 - y)) % 2 ^ 64, decide (x < y)⟩

theorem sub64_eq {x y : Nat} (h : y ≤ x) (hx : x < 2 ^ 64) : sub64 x y = pure (x - y) := by
  unfold sub64
  rw [show x + (2 ^ 64 - y) = x - y + 2 ^ 64 by omega, Nat.add_mod_right, Nat.mod_eq_of_lt (by omega),
    decide_eq_false (by omega)]
  rfl

@[simp] theorem pure_bind (a : α) (f : α → Calc β) : pure a >>= f = f a := rfl

theorem sub64_bind_wraps {x y : Nat} (h : x < y) (f : Nat → Calc β) : (sub64 x y >>= f).wraps = true := by
  rw [bind_wraps, sub64, decide_eq_true h]
  rfl

end Tukija.Lib.Checked
