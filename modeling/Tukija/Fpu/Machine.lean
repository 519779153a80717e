import Mathlib.Data.Bool.Basic
import Mathlib.Logic.Function.Basic
import Mathlib.Tactic.Common

/-! The FPU of every CPU and the execution contexts that share it: what is in the registers,
what lies in the areas of the contexts, and who may use the registers without a fault. -/
namespace Tukija.Fpu

abbrev EcId := Nat

/-- `XSAVE`, and `XRSTOR`, which faults on an image that is not well formed; `start` is what
the image `empty` stands for. -/
structure Xsave (ι ρ : Type) where
  save : ρ → ι
  restore : ι → Option ρ
  empty : ι
  start : ρ
  restore_save : ∀ r, restore (save r) = some r
  restore_empty : restore empty = some start

/-- `Fpu::load`: on a fault it is `Fpu::init`, which loads `empty`. -/
def Xsave.load {ι ρ : Type} (X : Xsave ι ρ) (i : ι) : ρ := (X.restore i).getD X.start

@[simp] theorem Xsave.load_save {ι ρ : Type} (X : Xsave ι ρ) (r : ρ) : X.load (X.save r) = r := by
  simp [load, X.restore_save]

@[simp] theorem Xsave.load_empty {ι ρ : Type} (X : Xsave ι ρ) : X.load X.empty = X.start := by
  simp [load, X.restore_empty]

inductive Kind where
  | absent
  | idle
  | thread
  | vcpu
  deriving DecidableEq, Repr

@[ext] structure Ec (κ ι : Type) where
  kind : Kind
  cpu : κ
  fpu : Option ι
  fpuOn : Bool
  dead : Bool

/-- `user` tells that the program of `current` runs; `hzd` is the bit `HZD_FPU`. -/
structure Core (ρ : Type) where
  live : ρ
  ts : Bool
  hzd : Bool
  owner : Option EcId
  current : EcId
  user : Bool

/-- `lazy` is `Cmdline::fpu_lazy`, `vmx` that guests run under VMX and not SVM. -/
structure Machine (κ ι ρ : Type) where
  lazy : Bool
  vmx : Bool
  ec : EcId → Ec κ ι
  core : κ → Core ρ

namespace Machine

variable {κ ι ρ : Type} [DecidableEq κ] (X : Xsave ι ρ) (m : Machine κ ι ρ) (c : κ) (e : EcId)

def setEc (f : Ec κ ι → Ec κ ι) : Machine κ ι ρ := { m with ec := Function.update m.ec e (f (m.ec e)) }

def setCore (f : Core ρ → Core ρ) : Machine κ ι ρ := { m with core := Function.update m.core c (f (m.core c)) }

def enable : Machine κ ι ρ := m.setCore c fun k => { k with ts := false, hzd := true }

def disable : Machine κ ι ρ := m.setCore c fun k => { k with ts := true, hzd := false }

def fpuCtrl (on : Bool) : Machine κ ι ρ := m.setEc e fun x => { x with fpuOn := on }

def isVcpu : Bool := (m.ec e).kind == .vcpu

def idleEc : Bool := (m.ec e).kind == .idle

/-- `Ec::load_fpu` on the CPU `c`. -/
def loadFpu : Machine κ ι ρ :=
  let m := if m.lazy && m.isVcpu e then m.fpuCtrl e true else m
  match (m.ec e).fpu with
  | none =>
    let m := if !m.lazy && m.isVcpu e then m.fpuCtrl e true else m
    m.setCore c fun k => { k with live := X.start }
  | some i => m.setCore c fun k => { k with live := X.load i }

/-- `Ec::save_fpu` on the CPU `c`. -/
def saveFpu : Machine κ ι ρ :=
  let m := if m.lazy && m.isVcpu e then m.fpuCtrl e false else m
  m.setEc e fun x => { x with fpu := some (X.save (m.core c).live) }

def claimFpu : Machine κ ι ρ :=
  if m.lazy then m
  else
    let m := m.setCore c fun k => { k with ts := false, hzd := false }
    let cur := (m.core c).current
    let m := if !m.idleEc cur && !(m.ec cur).dead then m.saveFpu X c cur else m
    let m := if !m.idleEc e then m.loadFpu X c e else m
    m.setCore c fun k => { k with owner := some e }

def makeCurrent : Machine κ ι ρ :=
  (m.claimFpu X c e).setCore c fun k => { k with current := e }

/-- `new Fpu`, unless there is an area. -/
def allocFpu : Machine κ ι ρ := m.setEc e fun x => { x with fpu := some (x.fpu.getD X.empty) }

def importFpuData (data : ι) : Machine κ ι ρ :=
  let m := (m.allocFpu X e).setEc e fun x => { x with fpu := some data }
  if m.lazy && (m.core c).owner == some e then ((m.enable c).loadFpu X c e).disable c else m

/-- `Ec::export_fpu_data`; the data is what then lies in the area. -/
def exportFpuData : Machine κ ι ρ :=
  let m := if m.lazy && (m.core c).owner == some e then ((m.enable c).saveFpu X c e).disable c else m
  m.allocFpu X e

def flushFpu : Machine κ ι ρ :=
  match (m.core c).owner with
  | none => m
  | some o => (((m.enable c).saveFpu X c o).disable c).setCore c fun k => { k with owner := none }

/-- `Ec::flush_from_cpu`, called on the CPU `c`. -/
def flushFromCpu : Machine κ ι ρ :=
  if (m.ec e).cpu = c ∧ (m.core c).owner = some e then
    let m := m.setCore c fun k => { k with owner := none }
    if m.lazy then m.disable c else m
  else m

def die : Machine κ ι ρ := m.setEc e fun x => { x with dead := true }

def handleExcNm : Machine κ ι ρ :=
  let cur := (m.core c).current
  if !m.lazy then m.die cur
  else
    let m := m.enable c
    if (m.core c).owner = some cur then
      if m.isVcpu cur && !(m.ec cur).fpuOn then m.fpuCtrl cur true else m
    else
      let m := match (m.core c).owner with
        | none => m
        | some o => m.saveFpu X c o
      (m.loadFpu X c cur).setCore c fun k => { k with owner := some cur }

/-- A trap, an interrupt or a VM exit.  `HOST_CR0` has TS, and `handle_vmx` clears the
hazard. -/
def enter : Machine κ ι ρ :=
  let m := if m.vmx && m.isVcpu (m.core c).current then m.disable c else m
  m.setCore c fun k => { k with user := false }

/-- The end of `handle_hazard`, which only the ways back to a thread look at, and the return. -/
def resume : Machine κ ι ρ :=
  let cur := (m.core c).current
  if !m.isVcpu cur && (m.core c).hzd then
    if !m.lazy then m.die cur
    else (if (m.core c).owner = some cur then m else m.disable c).setCore c fun k => { k with user := true }
  else m.setCore c fun k => { k with user := true }

def permitted : Bool :=
  let cur := (m.core c).current
  if m.isVcpu cur then (m.ec cur).fpuOn else !(m.core c).ts

/-- `Ec::Ec` with a clone and a portal, as `Ec::migrate` calls it on the CPU of the clone. -/
def clone (e' : EcId) (cpu' : κ) : Machine κ ι ρ :=
  let own := m.lazy && (m.core c).owner == some e && (m.ec e).fpu.isSome
  let m := m.setEc e' fun _ => { m.ec e with cpu := cpu' }
  let m := if own then ((m.enable c).saveFpu X c e').disable c else m
  m.setEc e fun x => { x with fpu := none }

/-- `Acpi::suspend` or the halt that it asks of the other CPUs, and `bootstrap` afterwards: the
registers have lost what they held. -/
def sleep (power : ρ) : Machine κ ι ρ :=
  let m := (m.flushFpu X c).setCore c fun k => { k with live := power, ts := true }
  m.makeCurrent X c e

end Machine

/-- What a CPU does next.  An instruction of `e`'s program is what it makes of the registers. -/
inductive Act (κ ι ρ : Type) where
  | create (e : EcId) (kind : Kind) (cpu : κ)
  | switch (c : κ) (e : EcId)
  | resume (c : κ)
  | enter (c : κ)
  | use (c : κ) (e : EcId) (f : ρ → ρ)
  | fault (c : κ)
  | exportData (c : κ) (e : EcId)
  | importData (c : κ) (e : EcId) (data : ι)
  | die (c : κ) (e : EcId)
  | flush (c : κ) (e : EcId)
  | migrate (c : κ) (e e' : EcId) (cpu' : κ)
  | sleep (c : κ) (power : ρ) (e : EcId)

namespace Machine

variable {κ ι ρ : Type} [DecidableEq κ] (X : Xsave ι ρ) (m : Machine κ ι ρ)

/-- A context that `c` may run or look after. -/
def Here (c : κ) (e : EcId) : Prop := (m.ec e).kind ≠ .absent ∧ (m.ec e).cpu = c

instance (c : κ) (e : EcId) : Decidable (m.Here c e) := inferInstanceAs (Decidable (_ ∧ _))

/-- The kernel runs on `c`, and not the program of its current context. -/
def Kernel (c : κ) : Prop := (m.core c).user = false

instance (c : κ) : Decidable (m.Kernel c) := inferInstanceAs (Decidable (_ = _))

/-- When the code comes to do this: system calls look after contexts of their own CPU other
than the current one, and only a thread can be migrated. -/
def Ready : Act κ ι ρ → Prop
  | .create e kind _ => (m.ec e).kind = .absent ∧ (kind = .thread ∨ kind = .vcpu)
  | .switch c e => m.Kernel c ∧ m.Here c e
  | .resume c => m.Kernel c ∧ (m.ec (m.core c).current).kind ≠ .idle ∧ (m.ec (m.core c).current).dead = false
  | .enter c => ¬m.Kernel c
  | .use c e _ => ¬m.Kernel c ∧ (m.core c).current = e ∧ m.permitted c = true
  | .fault c => ¬m.Kernel c ∧ m.permitted c = false
  | .exportData c e => m.Kernel c ∧ m.Here c e ∧ (m.core c).current ≠ e
  | .importData c e _ => m.Kernel c ∧ m.Here c e ∧ (m.core c).current ≠ e
  | .die c e => m.Kernel c ∧ m.Here c e
  | .flush c _ => m.Kernel c
  | .migrate c e e' _ =>
    m.Kernel c ∧ (m.ec e).kind = .thread ∧ (m.ec e).cpu = c ∧ (m.core c).current ≠ e ∧ (m.ec e').kind = .absent
  | .sleep c _ e => m.Kernel c ∧ m.Here c e

instance decidableReady : ∀ a : Act κ ι ρ, Decidable (m.Ready a)
  | .create _ _ _ => inferInstanceAs (Decidable (_ ∧ _))
  | .switch _ _ | .resume _ | .fault _ | .exportData _ _ | .importData _ _ _ | .die _ _ | .sleep _ _ _ =>
    inferInstanceAs (Decidable (_ ∧ _))
  | .enter _ => inferInstanceAs (Decidable (¬_))
  | .use _ _ _ => inferInstanceAs (Decidable (_ ∧ _ ∧ _))
  | .flush c _ => inferInstanceAs (Decidable (m.Kernel c))
  | .migrate _ _ _ _ => inferInstanceAs (Decidable (_ ∧ _ ∧ _ ∧ _ ∧ _))

def step : Act κ ι ρ → Machine κ ι ρ
  | .create e kind cpu => m.setEc e fun _ => ⟨kind, cpu, none, kind == .vcpu && !m.lazy, false⟩
  | .switch c e => m.makeCurrent X c e
  | .resume c => m.resume c
  | .enter c => m.enter c
  | .use c _ f => m.setCore c fun k => { k with live := f k.live }
  | .fault c => (m.enter c).handleExcNm X c
  | .exportData c e => m.exportFpuData X c e
  | .importData c e data => m.importFpuData X c e data
  | .die _ e => m.die e
  | .flush c e => m.flushFromCpu c e
  | .migrate c e e' cpu' => m.clone X c e e' cpu'
  | .sleep c power e => m.sleep X c e power

end Machine

/-- The machine once the CPUs have come up: each runs its idle context. -/
structure Boot {κ ι ρ : Type} (m : Machine κ ι ρ) : Prop where
  idle : ∀ c, (m.ec (m.core c).current).kind = .idle ∧ (m.ec (m.core c).current).cpu = c
  kinds : ∀ e, (m.ec e).kind = .idle ∨ (m.ec e).kind = .absent
  areas : ∀ e, (m.ec e).fpu = none
  alive : ∀ e, (m.ec e).dead = false
  kernel : ∀ c, (m.core c).user = false ∧ (m.core c).owner = none ∧ (m.core c).ts = true ∧ (m.core c).hzd = false

end Tukija.Fpu
