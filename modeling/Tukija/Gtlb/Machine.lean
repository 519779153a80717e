import Mathlib.Data.Bool.Basic
import Mathlib.Logic.Function.Basic
import Mathlib.Tactic.Common
import Tukija.Tlb.Machine

/-! What a guest may find in the TLB of its CPU: `gtlb` tells which CPU has to flush before it enters
a guest of the domain again. -/
namespace Tukija.Gtlb

open Tukija.Tlb (PdId Life)

/-- A translation is under the root of the nested page tables that the processor has walked, or under
the number of the vCPU whose shadow page tables it has walked. -/
inductive Tag (V : Type) where
  | root (r : Nat)
  | vcpu (v : V)

/-- A translation that a CPU has cached, of the guest-physical page `page`.  `src`, a mark of the model,
is the domain whose tables it comes from. -/
structure Entry (V β τ : Type) where
  tag : Tag V
  src : PdId
  page : β
  trans : τ

/-- A domain's `Space_mem` with its nested page tables, which are at `root`.  `dirty` and `seen` are
marks of the model: pages whose entry has been changed and `cpus` not yet merged into `gtlb`, and CPUs
that have entered a guest under these tables. -/
structure Pd (κ β τ : Type) where
  life : Life
  root : Nat
  table : β → Option τ
  cpus : κ → Bool
  gtlb : κ → Bool
  dirty : β → Bool
  seen : κ → Bool

/-- `nested` is `nst_on`; without, the guest runs on `shadow`, what is present in its `Vtlb`. -/
structure Vcpu (κ β τ : Type) where
  pd : PdId
  cpu : κ
  nested : Bool
  shadow : β → Option τ

/-- `guest` is the guest that runs, and `busy` a call of `ret_user_vmresume` that has looked at `gtlb`,
with what it has found. -/
structure Core (V β τ : Type) where
  current : PdId
  guest : Option V
  busy : Option (V × Bool)
  tlb : List (Entry V β τ)

/-- `vpids` is whether VPIDs are in use. -/
structure Machine (κ V β τ : Type) where
  vpids : Bool
  pd : PdId → Pd κ β τ
  vcpu : V → Vcpu κ β τ
  core : κ → Core V β τ

namespace Machine

variable {κ V β τ : Type} [DecidableEq κ] [DecidableEq V] [DecidableEq β] (m : Machine κ V β τ)

def setPd (p : PdId) (f : Pd κ β τ → Pd κ β τ) : Machine κ V β τ :=
  { m with pd := Function.update m.pd p (f (m.pd p)) }

def setVcpu (v : V) (f : Vcpu κ β τ → Vcpu κ β τ) : Machine κ V β τ :=
  { m with vcpu := Function.update m.vcpu v (f (m.vcpu v)) }

def setCore (c : κ) (f : Core V β τ → Core V β τ) : Machine κ V β τ :=
  { m with core := Function.update m.core c (f (m.core c)) }

/-- What the translations of `v`'s guest are under. -/
def tag (v : V) : Tag V := if (m.vcpu v).nested then .root (m.pd (m.vcpu v).pd).root else .vcpu v

/-- `ret_user_vmresume`: the test of `gtlb`. -/
def check (c : κ) (v : V) : Machine κ V β τ :=
  (m.setPd (m.core c).current fun x => { x with gtlb := Function.update x.gtlb c false }).setCore c fun k =>
    { k with busy := some (v, (m.pd (m.core c).current).gtlb c) }

/-- What is left of the TLB behind `Ept::flush` for the tables at `root`, and behind the entry into the
guest, which drops what is not under the tables when there are no VPIDs. -/
def keeps (root : Nat) (flush : Bool) (x : Entry V β τ) : Bool :=
  match x.tag with
  | .root r => !(flush && r == root)
  | .vcpu _ => m.vpids

/-- `ret_user_vmresume` behind the test. -/
def resume (c : κ) (v : V) (flush : Bool) : Machine κ V β τ :=
  let x := m.vcpu v
  let m' := m.setCore c fun k =>
    { k with guest := some v, busy := none, tlb := k.tlb.filter (m.keeps (m.pd k.current).root (flush && x.nested)) }
  if x.nested then m'.setPd (m.core c).current fun y => { y with seen := Function.update y.seen c true }
  else if flush then m'.setVcpu v fun y => { y with shadow := fun _ => none }
  else m'

end Machine

/-- What happens next.  `map`, `write` and `merge` are the parts of `Space_mem::update`, `miss` is
`Vtlb::miss` and `nested` is `nst_ctrl`. -/
inductive Act (κ V β τ : Type) where
  | create (p : PdId) (root : Nat)
  | init (p : PdId) (c : κ)
  | destroy (p : PdId)
  | map (p : PdId) (page : β) (t : τ)
  | write (p : PdId) (page : β) (t : Option τ)
  | merge (p : PdId) (page : β)
  | switch (c : κ) (p : PdId)
  | nested (c : κ) (v : V) (on : Bool)
  | miss (c : κ) (v : V) (page : β) (t : τ)
  | check (c : κ) (v : V)
  | resume (c : κ) (v : V) (flush : Bool)
  | fill (c : κ) (v : V) (page : β) (t : τ)
  | evict (c : κ) (keep : Entry V β τ → Bool)
  | exit (c : κ)

namespace Machine

variable {κ V β τ : Type} [DecidableEq κ] [DecidableEq V] [DecidableEq β] (m : Machine κ V β τ)

/-- The CPU is in the kernel, on behalf of `v`. -/
def Handles (c : κ) (v : V) : Prop :=
  (m.core c).guest = none ∧ (m.core c).busy = none ∧ (m.vcpu v).cpu = c ∧ (m.vcpu v).pd = (m.core c).current

/-- When it can happen.  No two domains have their tables in the same memory, a domain goes when no CPU
is in it, and an EC of a domain has called `Space_mem::init` before a CPU runs it. -/
def Ready : Act κ V β τ → Prop
  | .create p root => (m.pd p).life = .fresh ∧ ∀ q, (m.pd q).life = .alive → (m.pd q).root ≠ root
  | .init p _ => (m.pd p).life = .alive
  | .destroy p => (m.pd p).life = .alive ∧ ∀ c, (m.core c).current ≠ p
  | .map p page _ => (m.pd p).life = .alive ∧ (m.pd p).table page = none
  | .write p _ _ => (m.pd p).life = .alive
  | .merge p _ => (m.pd p).life = .alive
  | .switch c p =>
      (m.core c).guest = none ∧ (m.core c).busy = none ∧ (m.pd p).life = .alive ∧ (m.pd p).cpus c = true
  | .nested c v _ => m.Handles c v
  | .miss c v page t => m.Handles c v ∧ (m.pd (m.core c).current).table page = some t
  | .check c v => m.Handles c v
  | .resume c v b => (m.core c).busy = some (v, b)
  | .fill c v page t => (m.core c).guest = some v ∧
      if (m.vcpu v).nested then (m.pd (m.core c).current).table page = some t else (m.vcpu v).shadow page = some t
  | .evict _ _ => True
  | .exit _ => True

def step : Act κ V β τ → Machine κ V β τ
  | .create p root => m.setPd p fun _ =>
      ⟨.alive, root, fun _ => none, fun _ => false, fun _ => true, fun _ => false, fun _ => false⟩
  | .init p c => m.setPd p fun x => { x with cpus := Function.update x.cpus c true }
  | .destroy p => m.setPd p fun x => { x with life := .gone }
  | .map p page t => m.setPd p fun x => { x with table := Function.update x.table page (some t) }
  | .write p page t => m.setPd p fun x =>
      { x with table := Function.update x.table page t, dirty := Function.update x.dirty page true }
  | .merge p page => m.setPd p fun x =>
      { x with gtlb := fun c => x.gtlb c || x.cpus c, dirty := Function.update x.dirty page false }
  | .switch c p => m.setCore c fun k => { k with current := p }
  | .nested _ v on => m.setVcpu v fun x => { x with nested := on }
  | .miss _ v page t => m.setVcpu v fun x => { x with shadow := Function.update x.shadow page (some t) }
  | .check c v => m.check c v
  | .resume c v flush => m.resume c v flush
  | .fill c v page t => m.setCore c fun k => { k with tlb := ⟨m.tag v, (m.vcpu v).pd, page, t⟩ :: k.tlb }
  | .evict c keep => m.setCore c fun k => { k with tlb := k.tlb.filter keep }
  | .exit c => m.setCore c fun k => { k with guest := none }

/-- On each CPU the guests of a domain either all run on nested page tables, or there is one, which runs
on shadow page tables, and no VPIDs are in use. -/
def Uniform (way : PdId → κ → Option V) : Act κ V β τ → Prop
  | .check c v => match way (m.vcpu v).pd c with
    | none => (m.vcpu v).nested = true
    | some w => v = w ∧ (m.vcpu v).nested = false ∧ m.vpids = false
  | _ => True

end Machine

structure Boot {κ V β τ : Type} (m : Machine κ V β τ) (kern : PdId) : Prop where
  only : ∀ p, (m.pd p).life = if p = kern then .alive else .fresh
  runs : ∀ c, (m.core c).current = kern ∧ (m.core c).guest = none ∧ (m.core c).busy = none ∧ (m.core c).tlb = []
  cpus : ∀ c, (m.pd kern).cpus c = true ∧ (m.pd kern).gtlb c = true
  shadow : ∀ v page, (m.vcpu v).shadow page = none

inductive Run {κ V β τ : Type} [DecidableEq κ] [DecidableEq V] [DecidableEq β] (way : PdId → κ → Option V)
    (m : Machine κ V β τ) : Machine κ V β τ → Prop where
  | refl : Run way m m
  | step {m' : Machine κ V β τ} {a : Act κ V β τ} :
    Run way m m' → m'.Ready a → m'.Uniform way a → Run way m (m'.step a)

end Tukija.Gtlb
