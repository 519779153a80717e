import Mathlib.Data.BitVec
import Mathlib.Logic.Function.Basic
import Tukija.Clock.Div64

/-! `Utcb::for_each_word`: operations are taken from the message words, and their
results are stored in the same words. -/
namespace Tukija

/-- The bits of an `mword`. -/
def Clock.Arch.bits : Clock.Arch → Nat
  | .i386 => 32
  | .x86_64 => 64

/-- `extra_inc`: two words make 64 bits. -/
def Clock.Arch.extraInc (a : Clock.Arch) : Bool := a.bits / 8 == 4

structure Utcb (a : Clock.Arch) where
  items : BitVec a.bits
  mr : Nat → BitVec a.bits

namespace Utcb

variable {a : Clock.Arch}

/-- A page less `Utcb_head`, which is four words long. -/
def words (a : Clock.Arch) : Nat := (4096 - 4 * (a.bits / 8)) / (a.bits / 8)

def ucnt (u : Utcb a) : Nat := u.items.toNat % 2 ^ 16

def ui (u : Utcb a) : Nat := min (words a) u.ucnt

/-- `max`: the mask has no more bits than that. -/
def maxWord (u : Utcb a) : Nat := min u.ui (a.bits - 1)

def writeBit : Nat := 29

def isWrite (op : BitVec a.bits) : Bool := op.setWidth 64 &&& (1#64 <<< writeBit) ≠ 0#64

def msrOf (op : BitVec a.bits) : BitVec 64 := op.setWidth 64 &&& (~~~(1#a.bits <<< writeBit)).setWidth 64

/-- The 64 bits from word `i` on. -/
def valueAt (mr : Nat → BitVec a.bits) (i : Nat) : BitVec 64 :=
  (mr i).setWidth 64 + if a.extraInc then (mr (i + 1)).setWidth 64 <<< 32 else 0#64

/-- The result of a read operation is stored from word `i` on. -/
def store (mr : Nat → BitVec a.bits) (i : Nat) (inOut : BitVec 64) : Nat → BitVec a.bits :=
  let mr := Function.update mr i (inOut.setWidth a.bits)
  if a.extraInc then Function.update mr (i + 1) ((inOut >>> 32).setWidth a.bits) else mr

/-- An operation, with the word it is taken from; `cut` is a write without its value. -/
inductive Op where
  | read (i : Nat) (msr : BitVec 64)
  | write (i : Nat) (msr value : BitVec 64)
  | cut (i : Nat)
  deriving DecidableEq

/-- A message word is taken as an operation or as a part of a value, or a part of a
result is stored in it. -/
inductive Access where
  | op (i : Nat)
  | value (i : Nat)
  | result (i : Nat)
  deriving DecidableEq

def Access.word : Access → Nat
  | op i | value i | result i => i

/-- The state at the end, with the operations and whether they succeeded, and the
accesses in their order. -/
structure Outcome (a : Clock.Arch) (σ : Type) where
  mr : Nat → BitVec a.bits
  success : BitVec a.bits
  sys : σ
  ops : List (Op × Bool)
  accesses : List Access

def Outcome.after {σ : Type} (op : Op × Bool) (l : List Access) (r : Outcome a σ) : Outcome a σ :=
  { r with ops := op :: r.ops, accesses := l ++ r.accesses }

/-- `success |= 1ul << id_op`. -/
def mark (success : BitVec a.bits) (idOp : Nat) (ok : Bool) : BitVec a.bits :=
  if ok then success ||| 1#a.bits <<< idOp else success

section Loop

variable {σ : Type} (fnRead : σ → BitVec 64 → Bool × BitVec 64 × σ) (fnWrite : σ → BitVec 64 → BitVec 64 → Bool × σ)

/-- The loop of `for_each_word` from word `i` on. -/
def forEachWordLoop (max : Nat) : Nat → Nat → Nat → (Nat → BitVec a.bits) → BitVec a.bits → σ → Option (Outcome a σ)
  | 0, _, _, _, _, _ => none
  | fuel + 1, i, idOp, mr, success, s =>
    if i + (if a.extraInc then 1 else 0) < max then
      if isWrite (mr i) then
        let j := if a.extraInc then i + 1 else i
        if max ≤ j + (if a.extraInc then 2 else 1) then
          some ⟨mr, success, s, [(.cut i, false)], [.op i]⟩
        else
          let value := valueAt mr (j + 1)
          let r := fnWrite s (msrOf (mr i)) value
          (forEachWordLoop max fuel (j + (if a.extraInc then 2 else 1) + 1) (idOp + 1) mr
              (mark success idOp r.1) r.2).map
            (·.after (.write i (msrOf (mr i)) value, r.1)
              (if a.extraInc then [.op i, .value (j + 1), .value (j + 2)] else [.op i, .value (j + 1)]))
      else
        let r := fnRead s ((mr i).setWidth 64)
        (forEachWordLoop max fuel (i + 1) (idOp + 1) (if r.1 then store mr i r.2.1 else mr)
            (mark success idOp r.1) r.2.2).map
          (·.after (.read i ((mr i).setWidth 64), r.1)
            (if r.1 then if a.extraInc then [.op i, .result i, .result (i + 1)] else [.op i, .result i] else [.op i]))
    else some ⟨mr, success, s, [], []⟩

/-- `Utcb::for_each_word`; `items` becomes the mask. -/
def forEachWord (fuel : Nat) (u : Utcb a) (s : σ) : Option (Utcb a × Outcome a σ) :=
  (forEachWordLoop fnRead fnWrite u.maxWord fuel 0 0 u.mr 0 s).map fun r => (⟨r.success, r.mr⟩, r)

end Loop

end Utcb

end Tukija
