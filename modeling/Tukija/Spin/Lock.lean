import Mathlib.Data.BitVec
import Mathlib.Data.Fintype.Card
import Mathlib.Logic.Function.Basic

/-! `Spinlock`, one instruction of one contender after the other. -/
namespace Tukija.Spin

def low (w : BitVec 16) : BitVec 8 := w.extractLsb' 0 8

def high (w : BitVec 16) : BitVec 8 := w.extractLsb' 8 8

def withLow (w : BitVec 16) (b : BitVec 8) : BitVec 16 := high w ++ b

/-- Where a contender is: outside, in `lock` before `cmpb` or before `movb` with
`tmp` in its register, behind a completed `lock`, or in `incb` with the byte that
it has read. -/
inductive Pc where
  | out
  | cmpb (tmp : BitVec 16)
  | movb (tmp : BitVec 16)
  | locked
  | incb (b : BitVec 8)
  deriving DecidableEq, Repr

/-- `drawn` and `granted` are the contenders in the order in which they got their
tickets and the lock. -/
structure Lock (ι : Type) where
  val : BitVec 16
  pc : ι → Pc
  drawn : List ι
  granted : List ι

def Lock.init {ι : Type} : Lock ι := ⟨0, fun _ => .out, [], []⟩

inductive Act (ι : Type) where
  | lock (i : ι)
  | next (i : ι)
  | unlock (i : ι)

namespace Lock

variable {ι : Type} [DecidableEq ι] (s : Lock ι) (i : ι)

def goto (pc : Pc) : Lock ι := { s with pc := Function.update s.pc i pc }

def xadd : Lock ι := { s.goto i (.cmpb s.val) with val := s.val + 0x100, drawn := s.drawn ++ [i] }

/-- The end of `lock`. -/
def grant : Lock ι := { s.goto i .locked with granted := s.granted ++ [i] }

/-- `cmpb %h0, %b0` and `je 2f`. -/
def compare (tmp : BitVec 16) : Lock ι :=
  if high tmp = low tmp then s.grant i else s.goto i (.movb tmp)

/-- `movb %1, %b0`. -/
def load (tmp : BitVec 16) : Lock ι := s.goto i (.cmpb (withLow tmp (low s.val)))

/-- The write of `incb`, which is not one instruction with its read. -/
def increment (b : BitVec 8) : Lock ι := { s.goto i .out with val := withLow s.val (b + 1) }

theorem xadd_pc : (s.xadd i).pc = Function.update s.pc i (.cmpb s.val) := rfl

theorem grant_pc : (s.grant i).pc = Function.update s.pc i .locked := rfl

theorem increment_pc (b : BitVec 8) : (s.increment i b).pc = Function.update s.pc i .out := rfl

def step : Act ι → Option (Lock ι)
  | .lock i => if s.pc i = .out then some (s.xadd i) else none
  | .unlock i => if s.pc i = .locked then some (s.goto i (.incb (low s.val))) else none
  | .next i =>
    match s.pc i with
    | .cmpb tmp => some (s.compare i tmp)
    | .movb tmp => some (s.load i tmp)
    | .incb b => some (s.increment i b)
    | .out | .locked => none

def run : Lock ι → List (Act ι) → Option (Lock ι)
  | s, [] => some s
  | s, a :: as => (s.step a).bind fun s => run s as

end Lock

/-- From the end of `lock` to the end of `unlock`. -/
def Pc.Inside : Pc → Prop
  | .locked => True
  | .incb _ => True
  | _ => False

/-! ## Bytes -/

@[simp] theorem high_withLow (w : BitVec 16) (b : BitVec 8) : high (withLow w b) = high w := by
  unfold withLow high
  exact BitVec.extractLsb'_append_eq_left

@[simp] theorem low_withLow (w : BitVec 16) (b : BitVec 8) : low (withLow w b) = b := by
  unfold withLow low
  exact BitVec.extractLsb'_append_eq_right

theorem high_zero : high 0 = 0 := by decide

theorem low_zero : low 0 = 0 := by decide

theorem high_add (w : BitVec 16) : high (w + 0x100) = high w + 1 := by
  apply BitVec.eq_of_toNat_eq
  simp [high, BitVec.extractLsb'_toNat, BitVec.toNat_add, Nat.shiftRight_eq_div_pow]
  omega

theorem low_add (w : BitVec 16) : low (w + 0x100) = low w := by
  apply BitVec.eq_of_toNat_eq
  simp [low, BitVec.extractLsb'_toNat, BitVec.toNat_add]

end Tukija.Spin
