import Mathlib.Data.Bool.Basic
import Mathlib.Data.List.Basic
import Mathlib.Logic.Function.Basic
import Mathlib.Tactic.Common

/-! A level-triggered pin of an I/O APIC and the kernel's semaphore of its GSI: the handler masks the
pin, and the driver's call unmasks it.  Edge-triggered pins and that of the keyboard are not masked, and
are left out, as are semaphores that signal others. -/
namespace Tukija.Gsi

/-- Where the interrupt is: at the local APIC, or in `Gsi::vector`, which then has masked the pin
(`quiet`).  Unless it is `idle`, the pin's remote IRR is set. -/
inductive Stage where
  | idle
  | sent
  | entered
  | quiet
  deriving DecidableEq

/-- A thread is in user space, in `sys_sm_ctrl` behind `Gsi::unmask`, or in the semaphore's queue. -/
inductive Doing where
  | user
  | acked (zero : Bool)
  | blocked
  deriving DecidableEq

/-- `line` is what the device signals, `masked` the mask bit of the redirection entry, and `saved` the
mask bit that `Ioapic::suspend` has saved.  `submits` are the calls of `Sm::up` that are not yet done, and
the queue holds the last reference to a thread that is `dead`.  The other fields are marks of the model:
who has got a count and not called again, and how often each thing has happened. -/
structure Pin (T : Type) where
  line : Bool
  masked : Bool
  stage : Stage
  saved : Option Bool
  counter : Nat
  queue : List T
  submits : Nat
  doing : T → Doing
  dead : T → Bool
  holds : T → Bool
  handled : Nat
  given : Nat
  acks : Nat
  ups : Nat
  wakes : Nat

/-- What happens next.  `unmask` and `down` are the two parts of `sys_sm_ctrl`, `mask`, `eoi` and the
first `submit` those of `Gsi::vector`; each `submit` is a pass of the loop in `Sm::up`.  `assign` is
`Gsi::set`, and `save` is `Ioapic::suspend`, with the other CPUs still running. -/
inductive Act (T : Type) where
  | signal (on : Bool)
  | send
  | enter
  | mask
  | eoi
  | submit
  | up
  | unmask (t : T) (zero : Bool)
  | down (t : T)
  | timeout (t : T)
  | die (t : T)
  | assign
  | save
  | sleep

def Act.kernel {T : Type} : Act T → Bool
  | .send | .enter | .mask | .eoi | .submit => true
  | _ => false

namespace Pin

variable {T : Type} [DecidableEq T] (s : Pin T)

/-- A pass of the loop in `Sm::up`. -/
def submit : Pin T :=
  match s.queue with
  | [] => { s with submits := s.submits - 1, counter := s.counter + 1 }
  | t :: ts =>
    if s.dead t then { s with queue := ts, doing := Function.update s.doing t .user }
    else
      { s with
        submits := s.submits - 1, queue := ts, doing := Function.update s.doing t .user
        holds := Function.update s.holds t true, given := s.given + 1 }

/-- `Sm::dn`. -/
def down (t : T) : Pin T :=
  match s.doing t with
  | .acked zero =>
    if s.counter = 0 then { s with queue := s.queue ++ [t], doing := Function.update s.doing t .blocked }
    else
      { s with
        counter := if zero then 0 else s.counter - 1, doing := Function.update s.doing t .user
        holds := Function.update s.holds t true, given := s.given + 1 }
  | _ => s

/-- When it can happen.  A CPU does not stop in the middle of what it does for an interrupt. -/
def Ready : Act T → Prop
  | .signal _ | .up | .assign | .save => True
  | .send => s.line = true ∧ s.masked = false ∧ s.stage = .idle
  | .enter => s.stage = .sent
  | .mask => s.stage = .entered
  | .eoi => s.stage = .quiet
  | .submit => 0 < s.submits
  | .unmask t _ => s.doing t = .user ∧ s.dead t = false
  | .down t => ∃ zero, s.doing t = .acked zero
  | .timeout t => s.doing t = .blocked
  | .die t => s.doing t = .blocked
  | .sleep => s.saved ≠ none ∧ (s.stage = .idle ∨ s.stage = .sent) ∧ s.submits = 0

/-- `last` is whether the pin is the last one of its I/O APIC: the loops of `Ioapic::suspend` and `resume`
run to the number of that entry and not behind it. -/
def step (last : Bool) : Act T → Pin T
  | .signal on => { s with line := on }
  | .send => { s with stage := .sent }
  | .enter => { s with stage := .entered, handled := s.handled + 1 }
  | .mask => { s with stage := .quiet, masked := true }
  | .eoi => { s with stage := .idle, submits := s.submits + 1 }
  | .submit => s.submit
  | .up => { s with submits := s.submits + 1, ups := s.ups + 1 }
  | .unmask t zero =>
    { s with
      masked := false, doing := Function.update s.doing t (.acked zero)
      holds := Function.update s.holds t false, acks := s.acks + 1 }
  | .down t => s.down t
  | .timeout t => { s with queue := s.queue.filter (· ≠ t), doing := Function.update s.doing t .user }
  | .die t => { s with dead := Function.update s.dead t true }
  | .assign => { s with masked := false, acks := s.acks + 1 }
  | .save => { s with saved := some s.masked }
  | .sleep =>
    { s with stage := .idle, masked := last || s.saved.getD s.masked, saved := none, wakes := s.wakes + 1 }

/-- The entry that is written back is saved, and none has it masked that has been unmasked since. -/
def Calm (last : Bool) : Act T → Prop
  | .sleep => last = false ∧ (s.saved = some true → s.masked = true)
  | _ => True

/-- The thread that has waited for longest of those that are still there. -/
def first : Option T := s.queue.find? fun t => !s.dead t

/-- Nothing more happens without a thread or the device. -/
def Still : Prop := ∀ a : Act T, a.kernel = true → ¬ s.Ready a

end Pin

/-- No thread has called, and no interrupt has been handled. -/
structure Boot {T : Type} (s : Pin T) : Prop where
  stage : s.stage = .idle
  saved : s.saved = none
  counter : s.counter = 0
  queue : s.queue = []
  submits : s.submits = 0
  user : ∀ t, s.doing t = .user
  holds : ∀ t, s.holds t = false
  marks : s.handled = 0 ∧ s.given = 0 ∧ s.acks = 0 ∧ s.ups = 0 ∧ s.wakes = 0

def reset (T : Type) : Pin T where
  line := false
  masked := true
  stage := .idle
  saved := none
  counter := 0
  queue := []
  submits := 0
  doing := fun _ => .user
  dead := fun _ => false
  holds := fun _ => false
  handled := 0
  given := 0
  acks := 0
  ups := 0
  wakes := 0

theorem boot_reset (T : Type) : Boot (reset T) := by
  constructor <;> simp [reset]

section
variable {T : Type} [DecidableEq T] (last : Bool)

inductive Run (s : Pin T) : Pin T → Prop where
  | refl : Run s s
  | step {s' : Pin T} {a : Act T} : Run s s' → s'.Ready a → Run s (s'.step last a)

inductive CalmRun (s : Pin T) : Pin T → Prop where
  | refl : CalmRun s s
  | step {s' : Pin T} {a : Act T} : CalmRun s s' → s'.Ready a → s'.Calm last a → CalmRun s (s'.step last a)

/-- A number of steps of the hardware and of the handler. -/
inductive Handles (s : Pin T) : Nat → Pin T → Prop where
  | refl : Handles s 0 s
  | step {s' : Pin T} {n : Nat} {a : Act T} :
    Handles s n s' → a.kernel = true → s'.Ready a → Handles s (n + 1) (s'.step last a)

end

end Tukija.Gsi
