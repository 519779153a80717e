import Mathlib.Data.BitVec
import Mathlib.Data.Bool.Basic
import Mathlib.Logic.Function.Basic
import Mathlib.Tactic.Common

/-! The hazards of an EC: what has to be done for it before it leaves the kernel.  Other ECs ask for a
recall, and a switch of ECs leaves the TSC offset and the `TSC_AUX` register to be written later.  An EC
stays on its CPU: migrations are left out. -/
namespace Tukija.Hazard

/-- `recalled`, `tsc` and `tscAux` are bits of `hazard`, `loaded` is the TSC offset in the VMCS or VMCB, and
`since` the `tsc` of the EC's SC.  The other fields are marks of the model: when the SC became ready, if it
is, for how long it was ready and did not run, what the VMM has added to the offset, and how often a recall
was asked for, came to the call of `send_msg`, and was taken back. -/
structure Ec (κ : Type) where
  cpu : κ
  vcpu : Bool
  aux : BitVec 64
  offset : BitVec 64
  loaded : BitVec 64
  recalled : Bool
  tsc : Bool
  tscAux : Bool
  since : BitVec 64
  ready : Option (BitVec 64)
  stolen : BitVec 64
  added : BitVec 64
  asked : Nat
  served : Nat
  waived : Nat

/-- A CPU is in the kernel, has called a recall portal, has looked at the hazards on its way out, or is in
user space or a guest. -/
inductive Stage where
  | kernel
  | portal
  | checked
  | user
  deriving DecidableEq

/-- `aux` is `IA32_TSC_AUX` and `ipi` a pending `VEC_IPI_RKE`.  In `sys_ec_ctrl` the CPU has found the
recall bit of `looks` clear, and has set that of `asks` and not yet looked at its CPU. -/
structure Core (E : Type) where
  current : E
  stage : Stage
  aux : BitVec 64
  ipi : Bool
  looks : Option E
  asks : Option E

/-- `now` is the TSC. -/
structure Machine (κ E : Type) where
  id : κ → BitVec 64
  now : BitVec 64
  ec : E → Ec κ
  core : κ → Core E

/-- What happens next.  `look`, `ask` and `test` are the parts of a recall, `hold` is the one of
`EC_GET_VCPU_STATE` and `waive` what `EC_SET_VCPU_STATE` does to it.  `wait` and `go` are `ready_enqueue`
and `ready_dequeue`, `setAux` and `addOffset` what `Utcb::save_vmx` and `save_svm` do, and `wake` is
`Cpu::init` after a sleep. -/
inductive Act (κ E : Type) where
  | tick (t : BitVec 64)
  | switch (c : κ) (e : E)
  | check (c : κ)
  | enter (c : κ)
  | exit (c : κ)
  | interrupt (c : κ)
  | look (c : κ) (e : E)
  | ask (c : κ) (e : E)
  | test (c : κ) (e : E)
  | hold (e : E)
  | waive (e : E)
  | wait (e : E)
  | go (e : E)
  | setAux (e : E) (v : BitVec 64)
  | addOffset (e : E) (v : BitVec 64)
  | wake (c : κ)

namespace Machine

variable {κ E : Type} [DecidableEq κ] [DecidableEq E] (m : Machine κ E)

def setEc (e : E) (f : Ec κ → Ec κ) : Machine κ E := { m with ec := Function.update m.ec e (f (m.ec e)) }

def setCore (c : κ) (f : Core E → Core E) : Machine κ E :=
  { m with core := Function.update m.core c (f (m.core c)) }

/-- `Ec::check_hazard_tsc_aux`, of `next`. -/
def checkHazardTscAux (c : κ) (current next : Ec κ) : Bool :=
  if !current.vcpu && !next.vcpu then false
  else if current.vcpu && !next.vcpu then current.aux != m.id c
  else if !current.vcpu && next.vcpu then m.id c != next.aux
  else current.aux != next.aux

/-- `Ec::make_current`. -/
def switch (c : κ) (e : E) : Machine κ E :=
  (m.setEc e fun x =>
    { x with tscAux := x.tscAux || m.checkHazardTscAux c (m.ec (m.core c).current) x }).setCore c fun k =>
    { k with current := e, stage := .kernel }

/-- `Ec::handle_hazard` for the recall: the bit is cleared and the portal called. -/
def portal (c : κ) : Machine κ E :=
  (m.setEc (m.core c).current fun x => { x with recalled := false, served := x.served + 1 }).setCore c fun k =>
    { k with stage := .portal }

/-- What `Ec::handle_hazard` writes to `IA32_TSC_AUX`. -/
def wants (c : κ) (e : E) : BitVec 64 := if (m.ec e).vcpu then (m.ec e).aux else m.id c

/-- `Ec::handle_hazard` for the TSC offset and `TSC_AUX`. -/
def load (c : κ) : Machine κ E :=
  let e := (m.core c).current
  (m.setEc e fun x =>
    { x with
      loaded := if x.tsc && x.vcpu then x.offset else x.loaded
      tsc := x.tsc && !x.vcpu
      tscAux := false }).setCore c fun k =>
    { k with aux := if (m.ec e).tscAux then m.wants c e else k.aux, stage := .checked }

/-- The check of the hazards in `ret_user_sysexit`, `ret_user_iret`, `ret_user_vmresume` and
`ret_user_vmrun`. -/
def check (c : κ) : Machine κ E := if (m.ec (m.core c).current).recalled then m.portal c else m.load c

/-- The CPU of the EC is in the kernel and runs another one. -/
def Aside (e : E) : Prop := (m.core (m.ec e).cpu).stage = .kernel ∧ (m.core (m.ec e).cpu).current ≠ e

def Free (c : κ) : Prop := (m.core c).looks = none ∧ (m.core c).asks = none

/-- When it can happen.  An EC runs on its CPU, and in the kernel a CPU takes no interrupt once it has
looked at the hazards.  What becomes ready was not, and only what is ready is taken off its list. -/
def Ready : Act κ E → Prop
  | .tick _ => True
  | .switch c e => ((m.core c).stage = .kernel ∨ (m.core c).stage = .portal) ∧ m.Free c ∧ (m.ec e).cpu = c
  | .check c => (m.core c).stage = .kernel ∧ m.Free c
  | .enter c => (m.core c).stage = .checked
  | .exit c => (m.core c).stage = .user
  | .interrupt c => (m.core c).ipi = true ∧ ((m.core c).stage = .kernel ∨ (m.core c).stage = .user)
  | .look c _ => (m.core c).stage = .kernel ∧ m.Free c
  | .ask c e => (m.core c).looks = some e
  | .test c e => (m.core c).asks = some e
  | .hold e => m.Aside e
  | .waive e => m.Aside e
  | .wait e => (m.core (m.ec e).cpu).stage = .kernel ∧ (m.ec e).ready = none
  | .go e => (m.core (m.ec e).cpu).stage = .kernel ∧ (m.ec e).ready ≠ none
  | .setAux e _ => m.Aside e
  | .addOffset e _ => m.Aside e
  | .wake c => (m.core c).stage = .kernel

def step : Act κ E → Machine κ E
  | .tick t => { m with now := t }
  | .switch c e => m.switch c e
  | .check c => m.check c
  | .enter c => m.setCore c fun k => { k with stage := .user }
  | .exit c => m.setCore c fun k => { k with stage := .kernel }
  | .interrupt c => m.setCore c fun k => { k with stage := .kernel, ipi := false }
  | .look c e => if (m.ec e).recalled then m else m.setCore c fun k => { k with looks := some e }
  | .ask c e =>
    (m.setEc e fun x => { x with recalled := true, asked := x.asked + (!x.recalled).toNat }).setCore c fun k =>
      { k with looks := none, asks := some e }
  | .test c e =>
    let d := (m.ec e).cpu
    let m' := m.setCore c fun k => { k with asks := none }
    if c ≠ d ∧ (m.core d).current = e then m'.setCore d fun k => { k with ipi := true } else m'
  | .hold e => m.setEc e fun x => { x with recalled := true, asked := x.asked + (!x.recalled).toNat }
  | .waive e => m.setEc e fun x => { x with recalled := false, waived := x.waived + x.recalled.toNat }
  | .wait e => m.setEc e fun x => { x with since := m.now, ready := some m.now }
  | .go e => m.setEc e fun x =>
    { x with
      offset := x.offset + (x.since - m.now), tsc := true, since := m.now
      ready := none, stolen := x.stolen + (m.now - x.ready.getD m.now) }
  | .setAux e v => m.setEc e fun x => { x with aux := v }
  | .addOffset e v => m.setEc e fun x => { x with offset := x.offset + v, tsc := true, added := x.added + v }
  | .wake c => m.setCore c fun k => { k with aux := m.id c }

/-- No EC for which `TSC_AUX` is still to be written gives way to one with the same value, and a CPU sleeps
only in an EC that wants the CPU's number there, or for which it is still to be written. -/
def Calm : Act κ E → Prop
  | .switch c e => (m.ec (m.core c).current).tscAux = true → m.wants c e ≠ m.wants c (m.core c).current
  | .wake c => m.wants c (m.core c).current = m.id c ∨ (m.ec (m.core c).current).tscAux = true
  | _ => True

instance (c : κ) : Decidable (m.Free c) := inferInstanceAs (Decidable (_ ∧ _))

instance (e : E) : Decidable (m.Aside e) := inferInstanceAs (Decidable (_ ∧ _))

instance : (a : Act κ E) → Decidable (m.Ready a)
  | .tick _ => .isTrue trivial
  | .switch c e =>
    inferInstanceAs
      (Decidable (((m.core c).stage = .kernel ∨ (m.core c).stage = .portal) ∧ m.Free c ∧ (m.ec e).cpu = c))
  | .check c => inferInstanceAs (Decidable ((m.core c).stage = .kernel ∧ m.Free c))
  | .wake c => inferInstanceAs (Decidable ((m.core c).stage = .kernel))
  | .enter c => inferInstanceAs (Decidable ((m.core c).stage = .checked))
  | .exit c => inferInstanceAs (Decidable ((m.core c).stage = .user))
  | .interrupt c =>
    inferInstanceAs (Decidable ((m.core c).ipi = true ∧ ((m.core c).stage = .kernel ∨ (m.core c).stage = .user)))
  | .look c _ => inferInstanceAs (Decidable ((m.core c).stage = .kernel ∧ m.Free c))
  | .ask c e => inferInstanceAs (Decidable ((m.core c).looks = some e))
  | .test c e => inferInstanceAs (Decidable ((m.core c).asks = some e))
  | .hold e | .waive e | .setAux e _ | .addOffset e _ => inferInstanceAs (Decidable (m.Aside e))
  | .wait e =>
    inferInstanceAs (Decidable ((m.core (m.ec e).cpu).stage = .kernel ∧ (m.ec e).ready = none))
  | .go e =>
    inferInstanceAs (Decidable ((m.core (m.ec e).cpu).stage = .kernel ∧ (m.ec e).ready ≠ none))

instance : (a : Act κ E) → Decidable (m.Calm a)
  | .switch c e =>
    inferInstanceAs (Decidable ((m.ec (m.core c).current).tscAux = true →
      m.wants c e ≠ m.wants c (m.core c).current))
  | .wake c =>
    inferInstanceAs (Decidable (m.wants c (m.core c).current = m.id c ∨ (m.ec (m.core c).current).tscAux = true))
  | .tick _ | .check _ | .enter _ | .exit _ | .interrupt _ | .look _ _ | .ask _ _ | .test _ _ | .hold _
  | .waive _ | .wait _ | .go _ | .setAux _ _ | .addOffset _ _ => .isTrue trivial

/-- The TSC as the guest on `c` reads it. -/
def guestTsc (c : κ) : BitVec 64 := m.now + (m.ec (m.core c).current).loaded

end Machine

/-- Every CPU runs its idle EC, and nothing is pending. -/
structure Boot {κ E : Type} (m : Machine κ E) : Prop where
  core : ∀ c, (m.ec (m.core c).current).cpu = c ∧ (m.ec (m.core c).current).vcpu = false ∧
    (m.core c).stage = .kernel ∧ (m.core c).aux = m.id c ∧ (m.core c).ipi = false ∧ m.Free c
  ec : ∀ e, (m.ec e).recalled = false ∧ (m.ec e).tsc = false ∧ (m.ec e).tscAux = false
  offset : ∀ e, (m.ec e).loaded = (m.ec e).offset ∧ (m.ec e).offset = 0 ∧
    (m.ec e).stolen = 0 ∧ (m.ec e).added = 0 ∧ (m.ec e).ready = none
  marks : ∀ e, (m.ec e).asked = 0 ∧ (m.ec e).served = 0 ∧ (m.ec e).waived = 0

section
variable {κ E : Type} [DecidableEq κ] [DecidableEq E]

inductive Run (m : Machine κ E) : Machine κ E → Prop where
  | refl : Run m m
  | step {m' : Machine κ E} {a : Act κ E} : Run m m' → m'.Ready a → Run m (m'.step a)

inductive CalmRun (m : Machine κ E) : Machine κ E → Prop where
  | refl : CalmRun m m
  | step {m' : Machine κ E} {a : Act κ E} : CalmRun m m' → m'.Ready a → m'.Calm a → CalmRun m (m'.step a)

end

end Tukija.Hazard
