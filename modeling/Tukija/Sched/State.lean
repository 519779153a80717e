import Tukija.Lib.Rings
import Tukija.Lib.Word
import Tukija.Sm.Queue

/-! `Sc`: every CPU has a ring of ready SCs for each priority and a ring of SCs that
other CPUs have sent to it.  One pair of pointers in the SC serves both.  `remote_enqueue`
and every pass of the loop in `rrq_handler` are one step: the lock of the queue is held,
but what is not under it may change between two passes. -/
namespace Tukija.Sched

open Tukija.Lib.Word Tukija.Lib.Ring Tukija.Sm

/-- Whether `partner` and `rcap` are set, and the TSC offset of the registers. -/
structure Ec where
  partner : Bool
  rcap : Bool
  tscOffset : Mword

structure Sc (ι E : Type) where
  ec : E
  cpu : ι
  prio : Nat
  disable : Bool
  budget : Mword
  time : Mword
  left : Mword
  tsc : Mword
  ref : BitVec 32

/-- What is local to a CPU.  `hazard` is `HZD_SCHED`; `handler` has `t` and `ptr` while
`rrq_handler` runs, and with it the lock. -/
structure Cpu (S : Type) where
  list : Nat → Option S
  prioTop : Nat
  queue : Option S
  handler : Option (Mword × Option S)
  current : S
  hazard : Bool

inductive Event (ι S : Type) where
  | sent (c : ι) (x : S)
  | ipi (c : ι)
  | took (c : ι) (x : S)
  | ready (c : ι) (x : S) (first : Bool)
  | unready (c : ι) (x : S)
  | dropped (c : ι) (x : S)
  | call (x : S)
  deriving DecidableEq

structure Machine (ι S E : Type) where
  sc : S → Sc ι E
  ec : E → Ec
  cpu : ι → Cpu S
  links : Links S
  log : List (Event ι S)

inductive Slot (ι : Type) where
  | queue (c : ι)
  | ready (c : ι) (p : Nat)
  deriving DecidableEq

/-- Some CPU calls one of the functions, or a CPU goes on in `rrq_handler`, or other
parts of the kernel write the fields that the functions read. -/
inductive Act (ι S E : Type) where
  | remoteEnqueue (i : ι) (x : S) (incRef : Bool) (t : Mword)
  | rrqEnter (c : ι) (t : Mword)
  | rrqNext (c : ι)
  | rrqLeave (c : ι)
  | readyEnqueue (c : ι) (x : S) (t : Mword) (incRef useLeft : Bool)
  | readyDequeue (c : ι) (x : S) (t : Mword)
  | schedule (c : ι) (t d : Mword) (own suspend useLeft : Bool)
  | disable (x : S) (b : Bool)
  | refs (x : S) (r : BitVec 32)
  | ec (e : E) (v : Ec)
  | clone (x : S) (prio : Nat) (budget left : Mword) (cpu : ι)
  | links (k : Links S)

/-- The neighbours of `x` are made to point at each other. -/
def unlink {S : Type} [DecidableEq S] (k : Links S) (x : S) : Links S :=
  match k.next x, k.prev x with
  | some n, some p => (k.setPrev n (some p)).setNext p (some n)
  | _, _ => k

/-- `while (!list[prio_top] && prio_top) prio_top--`. -/
def lower {S : Type} (list : Nat → Option S) : Nat → Nat
  | 0 => 0
  | p + 1 => if list (p + 1) = none then lower list p else p + 1

namespace Machine

variable {ι S E : Type} [DecidableEq ι] [DecidableEq S] [DecidableEq E]

def putSc (s : Machine ι S E) (x : S) (v : Sc ι E) : Machine ι S E :=
  { s with sc := Function.update s.sc x v }

def putEc (s : Machine ι S E) (e : E) (v : Ec) : Machine ι S E :=
  { s with ec := Function.update s.ec e v }

def putCpu (s : Machine ι S E) (c : ι) (v : Cpu S) : Machine ι S E :=
  { s with cpu := Function.update s.cpu c v }

def putLinks (s : Machine ι S E) (k : Links S) : Machine ι S E := { s with links := k }

def note (s : Machine ι S E) (e : Event ι S) : Machine ι S E := { s with log := s.log ++ [e] }

/-- `if (inc_ref)` and `add_ref`, which fails for an SC without references. -/
def addRef (s : Machine ι S E) (x : S) (incRef : Bool) : Option (Machine ι S E) :=
  if incRef then
    if (s.sc x).ref = 0 then none else some (s.putSc x { s.sc x with ref := (s.sc x).ref + 1 })
  else some s

/-- `if (sc->del_rcu()) Rcu::call (sc)`. -/
def drop (s : Machine ι S E) (x : S) : Machine ι S E :=
  if (s.sc x).ref = 1 then s.note (.call x)
  else if (s.sc x).ref - 1 = 0 then (s.putSc x { s.sc x with ref := 1 }).note (.call x)
  else s.putSc x { s.sc x with ref := (s.sc x).ref - 1 }

/-- The SC goes to the front: `use_left && left`. -/
def front (s : Machine ι S E) (x : S) (useLeft : Bool) : Bool := useLeft && (s.sc x).left != 0

/-- `ready_enqueue` behind `add_ref`, on CPU `c`. -/
def link (s : Machine ι S E) (c : ι) (x : S) (t : Mword) (useLeft : Bool) : Machine ι S E :=
  let v := s.sc x
  let o := s.cpu c
  let cur := s.sc o.current
  let q := enqueue (o.list v.prio) s.links x
  let head := if (o.list v.prio).isSome && s.front x useLeft then some x else q.1
  let raise := v.prio > cur.prio || (x != o.current && v.prio == cur.prio && s.front x useLeft)
  ((s.putLinks q.2).putCpu c { o with
      prioTop := if v.prio > o.prioTop then v.prio else o.prioTop
      list := Function.update o.list v.prio head
      hazard := o.hazard || raise }).putSc x
    { v with left := if v.left = 0 then v.budget else v.left, tsc := t } |>.note (.ready c x (useLeft && v.left != 0))

def readyEnqueue (s : Machine ι S E) (c : ι) (x : S) (t : Mword) (incRef useLeft : Bool) :
    Machine ι S E :=
  match s.addRef x incRef with
  | none => s
  | some s => s.link c x t useLeft

def readyDequeue (s : Machine ι S E) (c : ι) (x : S) (t : Mword) : Machine ι S E :=
  let v := s.sc x
  let o := s.cpu c
  match s.links.next x, s.links.prev x with
  | some n, some _ =>
    let list := if o.list v.prio = some x
      then Function.update o.list v.prio (if n = x then none else some n) else o.list
    let e := s.ec v.ec
    (((s.putLinks (((unlink s.links x).setPrev x none).setNext x none)).putCpu c
      { o with list := list, prioTop := lower list o.prioTop }).putEc v.ec
        { e with tscOffset := e.tscOffset + (v.tsc - t) }).putSc x { v with tsc := t } |>.note (.unready c x)
  -- `assert (prev && next)`
  | _, _ => s

/-- The second half of a pass of `schedule_wo_activate`. -/
def pick (s : Machine ι S E) (c : ι) (t : Mword) : Machine ι S E :=
  match (s.cpu c).list (s.cpu c).prioTop with
  -- `assert (sc)`
  | none => s
  | some y => (s.putCpu c { s.cpu c with current := y }).readyDequeue c y t

/-- The time that the SC has used; `d` is the deadline of the budget. -/
def charge (s : Machine ι S E) (c : ι) (t d : Mword) : Machine ι S E :=
  let x := (s.cpu c).current
  let v := s.sc x
  (s.putSc x { v with time := v.time + (t - v.tsc), left := if d > t then d - t else 0 }).putCpu c
    { s.cpu c with hazard := false }

/-- The first half: `own` says whether `current->ec` is `Ec::current`. -/
def requeue (s : Machine ι S E) (c : ι) (t d : Mword) (own suspend useLeft : Bool) : Machine ι S E :=
  let x := (s.cpu c).current
  if suspend || ((s.sc x).disable && own) then (s.charge c t d).drop x
  else (s.charge c t d).readyEnqueue c x t false useLeft

/-- One pass of the loop in `schedule_wo_activate`. -/
def schedule (s : Machine ι S E) (c : ι) (t d : Mword) (own suspend useLeft : Bool) :
    Machine ι S E :=
  (s.requeue c t d own suspend useLeft).pick c t

/-- What `remote_enqueue` does with the lock of the queue of `c`. -/
def send (s : Machine ι S E) (c : ι) (x : S) : Machine ι S E :=
  let o := s.cpu c
  let q := enqueue o.queue s.links x
  let s := ((s.putLinks q.2).putCpu c { o with queue := q.1 }).note (.sent c x)
  if o.queue = none then s.note (.ipi c) else s

/-- On CPU `i`; it spins while the handler of the other CPU has the lock. -/
def remoteEnqueue (s : Machine ι S E) (i : ι) (x : S) (incRef : Bool) (t : Mword) :
    Machine ι S E :=
  let c := (s.sc x).cpu
  if i = c then s.readyEnqueue i x t incRef true
  else match (s.cpu c).handler with
  | some _ => s
  | none =>
    match s.addRef x incRef with
    | none => s
    | some s => s.send c x

def rrqEnter (s : Machine ι S E) (c : ι) (t : Mword) : Machine ι S E :=
  let o := s.cpu c
  match o.handler with
  | none => s.putCpu c { o with handler := some (t, o.queue) }
  | some _ => s

/-- `rrq_handler` takes `ptr` out and goes on to the next. -/
def take (s : Machine ι S E) (c : ι) (t : Mword) (x : S) : Machine ι S E :=
  let k := unlink s.links x
  ((s.putLinks k).putCpu c { s.cpu c with
    handler := some (t, if k.next x = some x then none else k.next x) }).note (.took c x)

/-- The drop path of `rrq_handler` is for SCs that nobody waits for. -/
def drops (s : Machine ι S E) (x : S) : Bool :=
  (s.sc x).disable && !(s.ec (s.sc x).ec).partner && !(s.ec (s.sc x).ec).rcap

/-- One pass of the loop in `rrq_handler`. -/
def rrqNext (s : Machine ι S E) (c : ι) : Machine ι S E :=
  match (s.cpu c).handler with
  | some (t, some x) =>
    let s := s.take c t x
    if s.drops x then (s.note (.dropped c x)).drop x
    else s.readyEnqueue c x t false true
  | _ => s

def rrqLeave (s : Machine ι S E) (c : ι) : Machine ι S E :=
  let o := s.cpu c
  match o.handler with
  | some (_, none) => s.putCpu c { o with queue := none, handler := none }
  | _ => s

def step (s : Machine ι S E) : Act ι S E → Machine ι S E
  | .remoteEnqueue i x incRef t => s.remoteEnqueue i x incRef t
  | .rrqEnter c t => s.rrqEnter c t
  | .rrqNext c => s.rrqNext c
  | .rrqLeave c => s.rrqLeave c
  | .readyEnqueue c x t incRef useLeft => s.readyEnqueue c x t incRef useLeft
  | .readyDequeue c x t => s.readyDequeue c x t
  | .schedule c t d own suspend useLeft => s.schedule c t d own suspend useLeft
  | .disable x b => s.putSc x { s.sc x with disable := b }
  | .refs x r => s.putSc x { s.sc x with ref := r }
  | .ec e v => s.putEc e v
  | .clone x prio budget left cpu => s.putSc x
      { s.sc x with prio, budget, left, cpu, disable := false, time := 0, tsc := 0 }
  | .links k => s.putLinks k

def after (s : Machine ι S E) (acts : List (Act ι S E)) : Machine ι S E := acts.foldl step s

/-- The head of a list.  In `rrq_handler` the list is what is not yet taken. -/
def head (s : Machine ι S E) : Slot ι → Option S
  | .queue c => match (s.cpu c).handler with
    | some (_, ptr) => ptr
    | none => (s.cpu c).queue
  | .ready c p => (s.cpu c).list p

/-- The SC is in the list: its head leads to it. -/
def InList (s : Machine ι S E) (k : Slot ι) (x : S) : Prop := Reached s.head s.links.nextOf k x

/-- What the callers see to: an SC is made ready when it is in no list, and by its own
CPU; only what is in a list is taken out; an SC that goes on is in no list; an SC is
cloned when nobody uses it; other queues leave what is in a list alone. -/
def Proper (s : Machine ι S E) : Act ι S E → Prop
  | .remoteEnqueue _ x _ _ => ∀ k, ¬ s.InList k x
  | .readyEnqueue c x _ _ _ => (∀ k, ¬ s.InList k x) ∧ (s.sc x).cpu = c
  | .readyDequeue c x _ => s.InList (.ready c (s.sc x).prio) x
  | .schedule c _ _ _ suspend _ => suspend = false → ∀ k, ¬ s.InList k (s.cpu c).current
  | .clone x _ _ _ _ => (∀ k, ¬ s.InList k x) ∧ ∀ c, (s.cpu c).current ≠ x
  | .links k => ∀ j x, s.InList j x → k.next x = s.links.next x ∧ k.prev x = s.links.prev x
  | _ => True

/-- Every act of the run is proper where it happens. -/
def Meets : Machine ι S E → List (Act ι S E) → Prop
  | _, [] => True
  | s, a :: acts => s.Proper a ∧ (s.step a).Meets acts

structure Start (s : Machine ι S E) : Prop where
  list : ∀ c p, (s.cpu c).list p = none
  prioTop : ∀ c, (s.cpu c).prioTop = 0
  queue : ∀ c, (s.cpu c).queue = none
  handler : ∀ c, (s.cpu c).handler = none
  current : ∀ c, (s.sc (s.cpu c).current).cpu = c
  links : s.links = .null
  log : s.log = []

end Machine

namespace Machine

variable {ι S E : Type} (s : Machine ι S E)

@[simp] theorem note_sc (e : Event ι S) : (s.note e).sc = s.sc := rfl

@[simp] theorem note_ec (e : Event ι S) : (s.note e).ec = s.ec := rfl

@[simp] theorem note_cpu (e : Event ι S) : (s.note e).cpu = s.cpu := rfl

@[simp] theorem note_links (e : Event ι S) : (s.note e).links = s.links := rfl

@[simp] theorem note_log (e : Event ι S) : (s.note e).log = s.log ++ [e] := rfl

@[simp] theorem note_head (e : Event ι S) : (s.note e).head = s.head := rfl

section Put

variable [DecidableEq S]

@[simp] theorem putSc_sc (x : S) (v : Sc ι E) : (s.putSc x v).sc = Function.update s.sc x v := rfl

@[simp] theorem putSc_ec (x : S) (v : Sc ι E) : (s.putSc x v).ec = s.ec := rfl

@[simp] theorem putSc_cpu (x : S) (v : Sc ι E) : (s.putSc x v).cpu = s.cpu := rfl

@[simp] theorem putSc_links (x : S) (v : Sc ι E) : (s.putSc x v).links = s.links := rfl

@[simp] theorem putSc_log (x : S) (v : Sc ι E) : (s.putSc x v).log = s.log := rfl

@[simp] theorem putSc_head (x : S) (v : Sc ι E) : (s.putSc x v).head = s.head := rfl

end Put

variable [DecidableEq ι]

@[simp] theorem putCpu_sc (c : ι) (v : Cpu S) : (s.putCpu c v).sc = s.sc := rfl

@[simp] theorem putCpu_ec (c : ι) (v : Cpu S) : (s.putCpu c v).ec = s.ec := rfl

@[simp] theorem putCpu_cpu (c : ι) (v : Cpu S) : (s.putCpu c v).cpu = Function.update s.cpu c v := rfl

@[simp] theorem putCpu_links (c : ι) (v : Cpu S) : (s.putCpu c v).links = s.links := rfl

@[simp] theorem putCpu_log (c : ι) (v : Cpu S) : (s.putCpu c v).log = s.log := rfl

end Machine

end Tukija.Sched
