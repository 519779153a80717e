import Tukija.Lib.Word
import Tukija.Sm.Queue

/-! `Sm`: a semaphore with a queue of ECs that wait and a queue of signal sources.
CPUs call it at the same time.  A section under the lock of the semaphore is one step,
and so is every access to the counter of a source: `dn` reads and clears it under the
lock of the receiver only. -/
namespace Tukija.Sm

open Tukija.Lib.Word

/-- Who called `up`. -/
inductive Caller where
  | sys
  | dtor
  deriving DecidableEq

/-- Where a CPU is: what it executes next.  `woke` are the ECs that this `up` has woken
for good. -/
inductive Pc (E S : Type) where
  | out
  | dn (zero : Bool) (e : E)
  | read (e : E) (x : S)
  | write (e : E) (x : S) (c : Mword)
  | submit (x : S)
  | up (b : Caller) (si : Option S) (woke : List E)
  | reset (b : Caller) (x : S) (woke : List E) (e : E)
  | release (b : Caller) (si : Option S) (woke : List E) (e : E) (c : Mword)
  | dtor
  | timeout (e : E)
  deriving DecidableEq

/-- Where `up` returns to. -/
def Caller.pc {E S : Type} : Caller → Pc E S
  | .sys => .out
  | .dtor => .dtor

/-- An `up` is over: the ECs it has woken, and what it has added to the counter. -/
structure Done (E S : Type) where
  si : Option S
  woke : List E
  inc : Nat

/-- The semaphore, the fields of the ECs and sources that it uses, and the CPUs.
`source` are the counters of the sources, `lock` is the CPU inside of `reset` in `dn`.
The rest counts what has happened. -/
structure Machine (ι E S : Type) where
  counter : Mword
  ecHead : Option E
  ecLinks : Links E
  siHead : Option S
  siLinks : Links S
  source : S → Mword
  value : S → Mword
  ref : E → BitVec 32
  regs : E → Mword × Mword
  lock : Option ι
  pc : ι → Pc E S
  ups : Nat
  downs : Nat
  dropped : Nat
  log : List (Done E S)
  submits : S → Nat
  delivered : S → Nat
  dead : S → Nat

/-- What a CPU begins, that the other references of an EC change, or that the CPU takes
its next step. -/
inductive Act (E S : Type) where
  | dn (zero : Bool) (e : E)
  | up
  | submit (x : S)
  | timeout (e : E)
  | destroy
  | refs (e : E) (r : BitVec 32)
  | step

namespace Machine

variable {ι E S : Type}

/-- The constructors: nobody waits, and the counter of a source is 0. -/
def create (cnt : Mword) (value : S → Mword) (regs : E → Mword × Mword) : Machine ι E S where
  counter := cnt
  ecHead := none
  ecLinks := .null
  siHead := none
  siLinks := .null
  source := fun _ => 0
  value := value
  ref := fun _ => 1
  regs := regs
  lock := none
  pc := fun _ => .out
  ups := 0
  downs := 0
  dropped := 0
  log := []
  submits := fun _ => 0
  delivered := fun _ => 0
  dead := fun _ => 0

variable [DecidableEq ι] [DecidableEq E] [DecidableEq S]

def goto (s : Machine ι E S) (i : ι) (p : Pc E S) : Machine ι E S :=
  { s with pc := Function.update s.pc i p }

/-- `up` returns. -/
def leave (s : Machine ι E S) (i : ι) (b : Caller) (d : Done E S) : Machine ι E S :=
  { s with log := d :: s.log }.goto i b.pc

/-- `set_si_regs` with what `reset` has found. -/
def deliver (s : Machine ι E S) (e : E) (x : S) (c : Mword) : Machine ι E S :=
  { s with
    source := Function.update s.source x 0
    regs := Function.update s.regs e (s.value x, c)
    delivered := Function.update s.delivered x (s.delivered x + c.toNat) }

/-- `dn` takes its token, in zero mode all of them. -/
def taken (s : Machine ι E S) (zero : Bool) : Machine ι E S :=
  { s with
    counter := if zero then 0 else s.counter - 1
    downs := s.downs + 1
    dropped := s.dropped + if zero then s.counter.toNat - 1 else 0 }

/-- `up` adds a token. -/
def counted (s : Machine ι E S) : Machine ι E S :=
  { s with counter := s.counter + 1, ups := s.ups + 1 }

def stepDn (i : ι) (zero : Bool) (e : E) (s : Machine ι E S) : Machine ι E S :=
  if s.lock ≠ none then s
  else if s.counter ≠ 0 then
    match s.siHead, dequeue s.siHead s.siLinks s.siHead with
    | some x, (true, h, k) =>
      { s.taken zero with siHead := h, siLinks := k, lock := some i }.goto i (.read e x)
    | _, _ => (s.taken zero).goto i .out
  -- An EC that runs has the reference of `make_current`, so this is not taken; the code
  -- would go to `Sc::schedule` with the lock held.
  else if s.ref e = 0 then s.goto i .out
  else
    let (h, k) := enqueue s.ecHead s.ecLinks e
    { s with ref := Function.update s.ref e (s.ref e + 1), ecHead := h, ecLinks := k }.goto i .out

/-- The section of `up` under the lock. -/
def stepUp (i : ι) (b : Caller) (si : Option S) (woke : List E) (s : Machine ι E S) :
    Machine ι E S :=
  if s.lock ≠ none then s
  else
    match s.ecHead, dequeue s.ecHead s.ecLinks s.ecHead with
    | some e, (true, h, k) =>
      { s with ecHead := h, ecLinks := k }.goto i (match si with
        | some x => .reset b x woke e
        | none => .release b none woke e 0)
    | _, _ =>
      match si with
      | some x =>
        if s.siLinks.next x ≠ none then s.leave i b ⟨si, woke, 0⟩
        else
          let (h, k) := enqueue s.siHead s.siLinks x
          { s.counted with siHead := h, siLinks := k }.leave i b ⟨si, woke, 1⟩
      | none => s.counted.leave i b ⟨si, woke, 1⟩

/-- `del_rcu` behind `release`: the EC is dying when the reference of the queue was the
last one. -/
def stepRelease (i : ι) (b : Caller) (si : Option S) (woke : List E) (e : E) (c : Mword)
    (s : Machine ι E S) : Machine ι E S :=
  if s.ref e = 1 then
    match si with
    | some x =>
      { s with dead := Function.update s.dead x (s.dead x + c.toNat) }.goto i (.up b si woke)
    | none => s.goto i (.up b si woke)
  else
    { s with
      ref := Function.update s.ref e (s.ref e - 1), ups := s.ups + 1, downs := s.downs + 1 }.leave i b
      ⟨si, woke ++ [e], 0⟩

def step (i : ι) (s : Machine ι E S) : Machine ι E S :=
  match s.pc i with
  | .out => s
  | .dn zero e => s.stepDn i zero e
  | .read e x => s.goto i (.write e x (s.source x))
  | .write e x c => { s.deliver e x c with lock := none }.goto i .out
  | .submit x =>
    { s with
      source := Function.update s.source x (s.source x + 1)
      submits := Function.update s.submits x (s.submits x + 1) }.goto i (.up .sys (some x) [])
  | .up b si woke => s.stepUp i b si woke
  | .reset b x woke e =>
    (s.deliver e x (s.source x)).goto i (.release b (some x) woke e (s.source x))
  | .release b si woke e c => s.stepRelease i b si woke e c
  | .dtor => s.goto i (if s.counter ≠ 0 then .out else .up .dtor none [])
  | .timeout e =>
    if s.lock ≠ none then s
    else
      let (_, h, k) := dequeue s.ecHead s.ecLinks (some e)
      { s with ecHead := h, ecLinks := k }.goto i .out

def act (i : ι) (a : Act E S) (s : Machine ι E S) : Machine ι E S :=
  match s.pc i, a with
  | _, .step => s.step i
  | _, .refs e r => { s with ref := Function.update s.ref e r }
  | .out, .dn zero e => s.goto i (.dn zero e)
  | .out, .up => s.goto i (.up .sys none [])
  | .out, .submit x => s.goto i (.submit x)
  | .out, .timeout e => s.goto i (.timeout e)
  | .out, .destroy => s.goto i .dtor
  | _, _ => s

/-- A run: one CPU after the other begins something or takes a step. -/
def after (s : Machine ι E S) (acts : List (ι × Act E S)) : Machine ι E S :=
  acts.foldl (fun s x => s.act x.1 x.2) s

/-- Every step of the run is taken in a state that meets the condition. -/
def Meets (C : Machine ι E S → ι → Act E S → Bool) : Machine ι E S → List (ι × Act E S) → Prop
  | _, [] => True
  | s, x :: acts => C s x.1 x.2 = true ∧ Meets C (s.act x.1 x.2) acts

instance decidableMeets (C : Machine ι E S → ι → Act E S → Bool) :
    (s : Machine ι E S) → (acts : List (ι × Act E S)) → Decidable (Meets C s acts)
  | _, [] => .isTrue trivial
  | s, x :: acts =>
    have := decidableMeets C (s.act x.1 x.2) acts
    inferInstanceAs (Decidable (_ ∧ _))

theorem Meets.after {C : Machine ι E S → ι → Act E S → Bool} {J : Machine ι E S → Prop}
    (hJ : ∀ s i a, J s → C s i a = true → J (s.act i a)) {s : Machine ι E S} {acts : List (ι × Act E S)}
    (h : Meets C s acts) (hs : J s) : J (s.after acts) := by
  induction acts generalizing s with
  | nil => exact hs
  | cons x acts ih => exact ih h.2 (hJ s x.1 x.2 hs h.1)

end Machine

end Tukija.Sm
