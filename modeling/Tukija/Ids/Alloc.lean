import Tukija.Ids.Bits

/-! `Bit_alloc::alloc` and `release`, one access of one CPU after the other. -/
namespace Tukija.Ids

open Tukija.Cpus

/-- Where a CPU is.  In `alloc`: before it reads `last`, before the look at word `i`
with `j` words behind it, before it looks for a bit of the word and before it sets
this bit; with the bit set it still looks after `last`.  In `release`: before the
look at the bit, which it may have cleared already, and before it clears it. -/
inductive Pc where
  | out
  | start
  | scan (i j : Nat)
  | probe (i j : Nat)
  | set (i j b : Nat)
  | claimed (i b : Nat)
  | hint (i b : Nat)
  | store (i b : Nat)
  | look (id : Nat) (cleared : Bool)
  | clear (id : Nat)
  deriving DecidableEq

/-- `full`: the CPU sees all bits of the word set. -/
inductive Event (ι : Type) where
  | called (k : ι)
  | full (k : ι) (i : Nat)
  | returned (k : ι) (id : Nat)
  | released (id : Nat)
  deriving DecidableEq

inductive Act where
  | alloc
  | release (id : Nat)
  | step
  deriving DecidableEq

/-- The id has been returned and not released since; the latest event comes first. -/
def held {ι : Type} (id : Nat) : List (Event ι) → Bool
  | [] => false
  | .returned _ n :: log => if n = id then true else held id log
  | .released n :: log => if n = id then false else held id log
  | .called _ :: log | .full _ _ :: log => held id log

structure Machine (ι : Type) where
  words : Words
  last : Nat
  pc : ι → Pc
  log : List (Event ι)

namespace Machine

variable {ι : Type} [DecidableEq ι] (p : Params) (s : Machine ι) (k : ι)

def boot (w : Words) : Machine ι := ⟨w, 0, fun _ => .out, []⟩

def goto (pc : Pc) : Machine ι := { s with pc := Function.update s.pc k pc }

def note (e : Event ι) : Machine ι := { s with log := e :: s.log }

def ret (id : Nat) : Machine ι := (s.goto k .out).note (.returned k id)

/-- `j--` and `i--` before a `continue` make the loop look at the same word again. -/
def step : Machine ι :=
  match s.pc k with
  | .out => s
  | .start => s.goto k (.scan s.last 0)
  | .scan i j =>
    if j < p.max then
      if s.words (i % p.max) = BitVec.allOnes 64 then
        (s.goto k (.scan (i % p.max + 1) (j + 1))).note (.full k (i % p.max))
      else s.goto k (.probe (i % p.max) j)
    else s.ret k p.inv
  | .probe i j =>
    match bitScanForward (~~~s.words i) with
    | none => s.goto k (.scan i j)
    | some b => s.goto k (.set i j b)
  | .set i j b =>
    if bit s.words (64 * i + b) then s.goto k (.scan i j)
    else { s.goto k (.claimed i b) with words := setBit s.words i b }
  | .claimed i b => if s.words i ≠ BitVec.allOnes 64 then s.goto k (.hint i b) else s.ret k (64 * i + b)
  | .hint i b => if s.last ≠ i then s.goto k (.store i b) else s.ret k (64 * i + b)
  | .store i b => { s.ret k (64 * i + b) with last := i }
  | .look id _ => if bit s.words id then s.goto k (.clear id) else s.goto k .out
  | .clear id => { s.goto k (.look id true) with words := clrBit s.words (id / 64) (id % 64) }

def act : Act → Machine ι
  | .alloc => if s.pc k = .out then (s.goto k .start).note (.called k) else s
  | .release id =>
    if s.pc k = .out ∧ id ≠ p.inv ∧ id < p.c ∧ held id s.log = true then
      (s.goto k (.look id false)).note (.released id)
    else s
  | .step => s.step p k

def after (s : Machine ι) (acts : List (ι × Act)) : Machine ι := acts.foldl (fun s x => s.act p x.1 x.2) s

/-- A release that has cleared its bit does not see it set when it looks again. -/
def Settled (x : ι × Act) : Prop := x.2 = .step → ∀ id, s.pc x.1 = .look id true → bit s.words id = false

instance (x : ι × Act) : Decidable (s.Settled x) :=
  match hpc : s.pc x.1 with
  | .look id true => decidable_of_iff (x.2 = .step → bit s.words id = false) <| by simp [Settled, hpc]
  | .look id false | .clear id => isTrue fun _ n h => by simp [hpc] at h
  | .out | .start | .scan _ _ | .probe _ _ | .set _ _ _ | .claimed _ _ | .hint _ _ | .store _ _ =>
    isTrue fun _ n h => by simp [hpc] at h

/-- Each step of the run finds releases settled. -/
def Undisturbed : Machine ι → List (ι × Act) → Prop
  | _, [] => True
  | s, x :: acts => s.Settled x ∧ Undisturbed (s.act p x.1 x.2) acts

instance decUndisturbed : (s : Machine ι) → (acts : List (ι × Act)) → Decidable (s.Undisturbed p acts)
  | _, [] => isTrue trivial
  | s, x :: acts =>
    haveI := decUndisturbed (s.act p x.1 x.2) acts
    inferInstanceAs (Decidable (s.Settled x ∧ (s.act p x.1 x.2).Undisturbed p acts))

end Machine

/-- The words after some calls of `reserve`. -/
def Params.reserved (p : Params) (calls : List (Nat × Nat)) : Option Words :=
  calls.foldlM (fun w x => p.reserve (p.c + 1) x.1 x.2 w) p.init

theorem foldlM_reserve (p : Params) (calls : List (Nat × Nat)) (w : Words) :
    ∃ w', calls.foldlM (fun w x => p.reserve (p.c + 1) x.1 x.2 w) w = some w' ∧
      ∀ id, bit w' id = true ↔ bit w id = true ∨ ∃ x ∈ calls, x.1 ≤ id ∧ id < min (x.1 + x.2) p.c := by
  induction calls generalizing w with
  | nil => exact ⟨w, rfl, by simp⟩
  | cons x calls ih =>
    obtain ⟨w₁, hw₁, hbits₁⟩ := reserve_spec p x.1 x.2 w
    obtain ⟨w', hw', hbits⟩ := ih w₁
    refine ⟨w', by rw [List.foldlM_cons, hw₁]; exact hw', fun id => ?_⟩
    rw [hbits, hbits₁, Bool.or_eq_true, decide_eq_true_iff, List.exists_mem_cons_iff, or_assoc]

theorem reserved_spec (p : Params) (calls : List (Nat × Nat)) :
    ∃ w, p.reserved calls = some w ∧
      ∀ id, bit w id = true ↔ id = p.inv ∨ ∃ x ∈ calls, x.1 ≤ id ∧ id < min (x.1 + x.2) p.c := by
  obtain ⟨w, hw, hbits⟩ := foldlM_reserve p calls p.init
  refine ⟨w, hw, fun id => ?_⟩
  rw [hbits, Params.init, bit_setBit _ _ _ (Nat.mod_lt _ (by decide)), Nat.div_add_mod]
  simp [bit]

end Tukija.Ids
