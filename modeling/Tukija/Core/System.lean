import Tukija.Core.Ops
import Tukija.Lib.Interleave

/-! The machine: every CPU executes the system calls of the cells that run on it,
and they meet in the memory.  The kernel does not preempt itself, so a CPU is in
one call at a time. -/
namespace Tukija.Core

open Tukija.Lib.Threads

inductive Call where
  | alloc (quantity : Nat) (c : CellId) (patience : Cpu → Nat)
  | release (r : ReleaseOp) (c : CellId)
  | ctrl (c : CellId) (patience : Cpu → Nat) (me : Option CellId)
  | createCell (c : CellId)
  | createEc (c : CellId) (k : Cpu)
  | destroy (d : Demise) (c : CellId) (me : Option CellId)
  | write (c : CellId) (t : CoreSet) (k : Cpu) (v : Bool)

/-- The call, on the CPU `i`. -/
def Call.code (i : Cpu) : Call → Code Unit
  | .alloc quantity c patience => sysAlloc quantity c patience
  | .release r c => sysRelease r c i
  | .ctrl c patience me => sysCellCtrl c patience me
  | .createCell c => sysCreateCell c
  | .createEc c k => sysCreateEc c k
  | .destroy d c me => demise d c me
  | .write c t k v => userWrite c t k v

/-- The calls that contend for a CPU: those of its owner, its borrower and
others that allocate. -/
def Call.Contends : Call → Prop
  | .alloc _ _ _ => True
  | .release _ _ => True
  | _ => False

/-- The operations of the allocator: all calls but the destruction of a cell. -/
def Call.Allocates : Call → Prop
  | .destroy _ _ _ => False
  | _ => True

namespace Call

def cell : Call → Option CellId
  | .alloc _ c _ => some c
  | .release _ c => some c
  | .ctrl _ _ me => me
  | _ => none

def allocates : Call → Option CellId
  | .alloc _ c _ => some c
  | _ => none

def controls : Call → Bool
  | .ctrl _ _ _ => true
  | _ => false

end Call

abbrev Machine := Conf Cpu Call State Access Fault

abbrev Step := Event Cpu Call

def Contends : Step → Prop
  | .start _ call => call.Contends
  | .access _ => True

def Allocates : Step → Prop
  | .start _ call => call.Allocates
  | .access _ => True

namespace Machine

def step (m : Machine) (e : Step) : Machine := Conf.step Access.run Call.code m e

def after (m : Machine) (es : List Step) : Machine := Conf.after Access.run Call.code m es

def Meets (P : Machine → Step → Prop) (m : Machine) (es : List Step) : Prop :=
  Conf.Meets Access.run Call.code P m es

instance (P : Machine → Step → Prop) [∀ m e, Decidable (P m e)] (m : Machine) (es : List Step) :
    Decidable (m.Meets P es) :=
  inferInstanceAs (Decidable (Conf.Meets Access.run Call.code P m es))

theorem step_cases (m : Machine) (e : Step) :
    (∃ i call, e = .start i call ∧ m.thread i = .pure () ∧
      m.step e =
        { m with
          call := Function.update m.call i (some call)
          thread := Function.update m.thread i (call.code i) }) ∨
    (∃ i, e = .access i ∧ ∃ (β : Type) (a : Access β) (f : β → Code Unit), m.thread i = .step a f ∧
      m.step e =
        { m with
          mem := (a.run m.mem).2
          thread := Function.update m.thread i (f (a.run m.mem).1) }) ∨
    m.step e = m :=
  Conf.step_cases m e

theorem step_access {m : Machine} {i : Cpu} {β : Type} {a : Access β} {f : β → Code Unit}
    (h : m.thread i = .step a f) :
    m.step (.access i) =
      { m with
        mem := (a.run m.mem).2
        thread := Function.update m.thread i (f (a.run m.mem).1) } := by
  simp [step, Conf.step, h]

section Runs

variable {P : Machine → Step → Prop} {m : Machine}

theorem after_cons (e : Step) (es : List Step) : m.after (e :: es) = (m.step e).after es := rfl

theorem after_append (es fs : List Step) : m.after (es ++ fs) = (m.after es).after fs :=
  Conf.after_append es fs

theorem meets_append {es fs : List Step} :
    m.Meets P (es ++ fs) ↔ m.Meets P es ∧ (m.after es).Meets P fs :=
  Conf.meets_append

theorem meets_and_forall {C : Step → Prop} {es : List Step} (h : m.Meets P es) (hC : ∀ e ∈ es, C e) :
    m.Meets (fun m e => P m e ∧ C e) es :=
  Conf.meets_and.mpr ⟨h, Conf.meets_of_forall hC⟩

theorem after_invariant {J : Machine → Prop} (hstep : ∀ m e, J m → P m e → J (m.step e))
    {es : List Step} (h : J m) (hes : m.Meets P es) : J (m.after es) :=
  Conf.after_invariant hstep h hes

end Runs

def next {γ : Type} (m : Machine) (f : {β : Type} → Access β → Option γ) (i : Cpu) : Option γ :=
  match m.thread i with
  | .step a _ => f a
  | _ => none

def place (m : Machine) (i : Cpu) : Option Place := m.next (fun a => some a.place) i

end Machine

end Tukija.Core
