import Mathlib.Logic.Function.Basic
import Mathlib.Tactic.Common

/-! The TLBs of the CPUs under PCIDs, the page tables of the protection domains, and the sets that
tell which CPU has to flush before it runs a domain again. -/
namespace Tukija.Tlb

abbrev PdId := Nat

/-- `NO_PCID`: for domains that `did_alloc` has no number for. -/
def noPcid : Nat := 2

/-- A translation that a CPU has cached.  `src`, a mark of the model, is the domain whose tables it is
from. -/
structure Entry (β τ : Type) where
  pcid : Nat
  page : β
  trans : τ
  src : PdId

inductive Life where
  | fresh
  | alive
  | gone
  deriving DecidableEq, Repr

/-- A domain's `Space_mem`.  `dirty`, `loose` and `seen` are marks of the model: pages whose entry has
been changed and `cpus` not yet merged into `htlb`, pages that a UTCB has been put at or taken from
without that, and CPUs that have loaded the tables at least once. -/
structure Pd (κ β τ : Type) where
  life : Life
  did : Nat
  table : β → Option τ
  cpus : κ → Bool
  htlb : κ → Bool
  dirty : β → Bool
  loose : β → Bool
  seen : κ → Bool

/-- `busy` is a call of `Pd::make_current` that has looked at `htlb`, and whether bit 63 will be clear
in what it loads into CR3. -/
structure Core (β τ : Type) where
  current : PdId
  cr3 : PdId
  tlb : List (Entry β τ)
  busy : Option (PdId × Bool)

/-- `pcids` is `FEAT_PCID`. -/
structure Machine (κ β τ : Type) where
  pcids : Bool
  pd : PdId → Pd κ β τ
  core : κ → Core β τ

namespace Machine

variable {κ β τ : Type} [DecidableEq κ] [DecidableEq β] (m : Machine κ β τ)

def setPd (p : PdId) (f : Pd κ β τ → Pd κ β τ) : Machine κ β τ := { m with pd := Function.update m.pd p (f (m.pd p)) }

def setCore (c : κ) (f : Core β τ → Core β τ) : Machine κ β τ :=
  { m with core := Function.update m.core c (f (m.core c)) }

/-- The PCID that is in CR3 with the tables of `p`. -/
def pcid (p : PdId) : Nat := if m.pcids then (m.pd p).did else 0

/-- `Pd::make_current` up to the assignment of `current`. -/
def start (c : κ) (p : PdId) : Machine κ β τ :=
  if (m.pd p).htlb c then
    (m.setPd p fun x => { x with htlb := Function.update x.htlb c false }).setCore c fun k =>
      { k with busy := some (p, true) }
  else if (m.core c).current = p then m
  else m.setCore c fun k => { k with busy := some (p, (m.pd p).did == noPcid) }

/-- `current = this`. -/
def assign (c : κ) (p : PdId) : Machine κ β τ := m.setCore c fun k => { k with current := p }

/-- The load of CR3: with bit 63 the translations under the PCID stay. -/
def load (c : κ) (p : PdId) (flush : Bool) : Machine κ β τ :=
  (m.setCore c fun k =>
    { k with
      cr3 := p
      tlb := if flush || !m.pcids then k.tlb.filter fun x => x.pcid != m.pcid p else k.tlb
      busy := none }).setPd p fun x => { x with seen := Function.update x.seen c true }

end Machine

/-- What happens next.  `map`, `write` and `merge` are the parts of `Space_mem::update`, and `utcb` is what
`Ec::Ec` and `Ec::pre_free` do to the page of a UTCB, whatever is there. -/
inductive Act (κ β τ : Type) where
  | create (p : PdId) (did : Nat)
  | init (p : PdId) (c : κ)
  | destroy (p : PdId)
  | map (p : PdId) (page : β) (t : τ)
  | write (p : PdId) (page : β) (t : Option τ)
  | merge (p : PdId) (page : β)
  | utcb (p : PdId) (page : β) (t : Option τ)
  | fill (c : κ) (page : β) (t : τ)
  | evict (c : κ) (keep : Entry β τ → Bool)
  | start (c : κ) (p : PdId)
  | assign (c : κ) (p : PdId) (flush : Bool)
  | load (c : κ) (p : PdId) (flush : Bool)

namespace Machine

variable {κ β τ : Type} [DecidableEq κ] [DecidableEq β] (m : Machine κ β τ)

/-- When it can happen.  `did_alloc` gives no number that a domain still has, a domain goes when no CPU refers to it, and
an EC of a domain has called `Space_mem::init` before a CPU runs it. -/
def Ready : Act κ β τ → Prop
  | .create p did => (m.pd p).life = .fresh ∧ (did = noPcid ∨ ∀ q, (m.pd q).life = .alive → (m.pd q).did ≠ did)
  | .init p _ => (m.pd p).life = .alive
  | .destroy p => (m.pd p).life = .alive ∧
      ∀ c, (m.core c).current ≠ p ∧ (m.core c).cr3 ≠ p ∧ ∀ b, (m.core c).busy ≠ some (p, b)
  | .map p page _ => (m.pd p).life = .alive ∧ (m.pd p).table page = none
  | .write p _ _ => (m.pd p).life = .alive
  | .merge p _ => (m.pd p).life = .alive
  | .utcb p _ _ => (m.pd p).life = .alive
  | .fill c page t => (m.pd (m.core c).cr3).table page = some t
  | .evict _ _ => True
  | .start c p => (m.core c).busy = none ∧ (m.pd p).life = .alive ∧ (m.pd p).cpus c = true
  | .assign c p b => (m.core c).busy = some (p, b)
  | .load c p b => (m.core c).busy = some (p, b) ∧ (m.core c).current = p

def step : Act κ β τ → Machine κ β τ
  | .create p did => m.setPd p fun _ =>
      ⟨.alive, did, fun _ => none, fun _ => false, fun _ => true, fun _ => false, fun _ => false, fun _ => false⟩
  | .init p c => m.setPd p fun x => { x with cpus := Function.update x.cpus c true }
  | .destroy p => m.setPd p fun x => { x with life := .gone }
  | .map p page t => m.setPd p fun x => { x with table := Function.update x.table page (some t) }
  | .write p page t => m.setPd p fun x =>
      { x with table := Function.update x.table page t, dirty := Function.update x.dirty page true }
  | .merge p page => m.setPd p fun x =>
      { x with htlb := fun c => x.htlb c || x.cpus c, dirty := Function.update x.dirty page false }
  | .utcb p page t => m.setPd p fun x =>
      { x with table := Function.update x.table page t, loose := Function.update x.loose page true }
  | .fill c page t => m.setCore c fun k => { k with tlb := ⟨m.pcid k.cr3, page, t, k.cr3⟩ :: k.tlb }
  | .evict c keep => m.setCore c fun k => { k with tlb := k.tlb.filter keep }
  | .start c p => m.start c p
  | .assign c p _ => m.assign c p
  | .load c p flush => m.load c p flush

end Machine

/-- Every CPU runs one domain, which is the only one, and has nothing in its TLB. -/
structure Boot {κ β τ : Type} (m : Machine κ β τ) (kern : PdId) : Prop where
  only : ∀ p, (m.pd p).life = if p = kern then .alive else .fresh
  runs : ∀ c, (m.core c).current = kern ∧ (m.core c).cr3 = kern ∧ (m.core c).busy = none ∧ (m.core c).tlb = []
  cpus : ∀ c, (m.pd kern).cpus c = true
  seen : ∀ c, (m.pd kern).seen c = true

inductive Run {κ β τ : Type} [DecidableEq κ] [DecidableEq β] (m : Machine κ β τ) : Machine κ β τ → Prop where
  | refl : Run m m
  | step {m' : Machine κ β τ} {a : Act κ β τ} : Run m m' → m'.Ready a → Run m (m'.step a)

def allReady {κ β τ : Type} [DecidableEq κ] [DecidableEq β] (m : Machine κ β τ) : List (Act κ β τ) → Prop
  | [] => True
  | a :: acts => m.Ready a ∧ allReady (m.step a) acts

theorem run_foldl {κ β τ : Type} [DecidableEq κ] [DecidableEq β] {m m' : Machine κ β τ} (acts : List (Act κ β τ))
    (run : Run m m') (h : allReady m' acts) : Run m (acts.foldl Machine.step m') := by
  induction acts generalizing m' with
  | nil => exact run
  | cons a acts ih => exact ih (.step run h.1) h.2

end Tukija.Tlb
