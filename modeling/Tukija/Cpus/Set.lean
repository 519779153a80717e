import Mathlib.Data.BitVec
import Mathlib.Data.List.Infix
import Mathlib.Data.List.Range

/-! `Cpuset`: the functions that look at all CPUs of a set. -/
namespace Tukija.Cpus

/-- `NUM_CPU`, and the words of the memory from `raw` on; what is behind the array
belongs to something else. CPUs have `unsigned` numbers. -/
structure Cpuset where
  numCpu : Nat
  numCpu_pos : 0 < numCpu
  numCpu_le : numCpu ≤ 2 ^ 32
  raw : Nat → BitVec 64

/-- `bit_scan_forward`; `none` is -1. -/
def bitScanForward (val : BitVec 64) : Option Nat := (List.range 64).find? fun i => val.getLsbD i

def popcount (val : BitVec 64) : Nat := (List.range 64).countP fun i => val.getLsbD i

/-- `clr_mask` with `1UL << bit_cpu (cpu)`. -/
def clrMask (val : BitVec 64) (cpu : Nat) : BitVec 64 := val &&& ~~~(1#64 <<< (cpu % 64))

namespace Cpuset

variable (t : Cpuset)

def values : Nat := 1 + (t.numCpu - 1) / 64

/-- `sizeof (raw)`. -/
def sizeofRaw : Nat := 8 * t.values

def chk (cpu : Nat) : Bool := t.raw (cpu / 64) &&& (1#64 <<< (cpu % 64)) ≠ 0

/-- `Cpuset::count`, with the indices of the words that are read. -/
def count : Nat × List Nat :=
  ((List.range t.sizeofRaw).foldl (fun count i => (count + popcount (t.raw i)) % 2 ^ 32) 0, List.range t.sizeofRaw)

/-- The loop of `Cpuset::first_cpu`, from `i` on, with the indices. -/
def firstCpuLoop : Nat → Nat → Option (Nat × List Nat)
  | 0, _ => none
  | fuel + 1, i =>
    if t.values ≠ 0 then
      match bitScanForward (t.raw i) with
      | some cpu => some (cpu, [i])
      | none => (firstCpuLoop fuel ((i + 1) % 2 ^ 32)).map fun p => (p.1, i :: p.2)
    else some (2 ^ 32 - 1, [])

def firstCpu (fuel : Nat) : Option (Nat × List Nat) := t.firstCpuLoop fuel 0

section Loops

variable {σ : Type} (fn : σ → Nat → σ) (cond : σ → Bool)

/-- The inner loop of `for_each_until`, on what is left of word `i`: the last state,
and the CPUs that `fn` was called with. -/
def visitWord (i : Nat) : Nat → BitVec 64 → σ → Option (σ × List Nat)
  | 0, _, _ => none
  | fuel + 1, subset, s =>
    match bitScanForward subset with
    | none => some (s, [])
    | some cpu =>
      if cond s then some (s, [])
      else (visitWord i fuel (clrMask subset cpu) (fn s (cpu + i * 64))).map fun p => (p.1, (cpu + i * 64) :: p.2)

def visitWords (fuel : Nat) : List Nat → σ → Option (σ × List Nat)
  | [], s => some (s, [])
  | i :: is, s =>
    if cond s then some (s, [])
    else (visitWord fn cond i fuel (t.raw i) s).bind fun p =>
      (visitWords fuel is p.1).map fun q => (q.1, p.2 ++ q.2)

def forEachUntil (fuel : Nat) (s : σ) : Option (σ × List Nat) :=
  t.visitWords fn cond fuel (List.range t.values) s

def forEach (fuel : Nat) (s : σ) : Option (σ × List Nat) := t.forEachUntil fn (fun _ => false) fuel s

end Loops

end Cpuset

end Tukija.Cpus
