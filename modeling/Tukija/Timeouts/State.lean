import Tukija.Lib.Chain

/-! `Timeout`: every EC has one, and every CPU has a list of those that are due
in the future.  The operations find the list of the CPU that runs them. -/
namespace Tukija.Timeouts

abbrev Id := Nat

/-- `class Timeout`.  `gone` says that the owner has been destroyed. -/
structure Timeout where
  prev : Option Id
  next : Option Id
  time : Nat
  gone : Bool
  deriving DecidableEq, Repr

structure Machine (Cpu : Type) where
  timeout : Id → Timeout
  list : Cpu → Option Id

namespace Machine

variable {Cpu : Type} (m : Machine Cpu) (k : Cpu) (t : Id)

def prev : Option Id := (m.timeout t).prev
def next : Option Id := (m.timeout t).next
def time : Nat := (m.timeout t).time
def gone : Bool := (m.timeout t).gone

def set (f : Timeout → Timeout) : Machine Cpu :=
  { m with timeout := Function.update m.timeout t (f (m.timeout t)) }

@[simp] theorem next_set (f : Timeout → Timeout) (u : Id) :
    (m.set t f).next u = if u = t then (f (m.timeout t)).next else m.next u := by
  by_cases h : u = t <;> simp [set, next, h]

@[simp] theorem prev_set (f : Timeout → Timeout) (u : Id) :
    (m.set t f).prev u = if u = t then (f (m.timeout t)).prev else m.prev u := by
  by_cases h : u = t <;> simp [set, prev, h]

@[simp] theorem time_set (f : Timeout → Timeout) (u : Id) :
    (m.set t f).time u = if u = t then (f (m.timeout t)).time else m.time u := by
  by_cases h : u = t <;> simp [set, time, h]

@[simp] theorem gone_set (f : Timeout → Timeout) (u : Id) :
    (m.set t f).gone u = if u = t then (f (m.timeout t)).gone else m.gone u := by
  by_cases h : u = t <;> simp [set, gone, h]

@[simp] theorem list_set (f : Timeout → Timeout) : (m.set t f).list = m.list := rfl

@[simp] theorem timeout_prev : (m.timeout t).prev = m.prev t := rfl
@[simp] theorem timeout_next : (m.timeout t).next = m.next t := rfl
@[simp] theorem timeout_time : (m.timeout t).time = m.time t := rfl
@[simp] theorem timeout_gone : (m.timeout t).gone = m.gone t := rfl

variable [DecidableEq Cpu]

def setList (n : Option Id) : Machine Cpu := { m with list := Function.update m.list k n }

@[simp] theorem next_setList (n : Option Id) : (m.setList k n).next = m.next := rfl
@[simp] theorem prev_setList (n : Option Id) : (m.setList k n).prev = m.prev := rfl
@[simp] theorem time_setList (n : Option Id) : (m.setList k n).time = m.time := rfl
@[simp] theorem gone_setList (n : Option Id) : (m.setList k n).gone = m.gone := rfl

@[simp] theorem list_setList (n : Option Id) : (m.setList k n).list = Function.update m.list k n := rfl

def boot : Machine Cpu := ⟨fun _ => ⟨none, none, 0, true⟩, fun _ => none⟩

/-- `Timeout::active`, asked on `k`. -/
def active : Bool := (m.prev t).isSome || m.list k == some t

/-- The loop of `Timeout::enqueue`, from `n` on: the last one that is due before
`time`, if there is one. -/
def seek (time : Nat) : Nat → Option Id → Option Id → Option (Option Id)
  | 0, _, _ => none
  | _ + 1, p, none => some p
  | fuel + 1, p, some n =>
    if time ≤ m.time n then some p else seek time fuel (some n) (m.next n)

/-- What `Timeout::enqueue` does behind the loop. -/
def place (p : Option Id) : Machine Cpu :=
  let m := m.set t fun x => { x with prev := p }
  let m :=
    match p with
    | none =>
      let first := m.list k
      (m.set t fun x => { x with next := first }).setList k (some t)
    | some p =>
      let n := m.next p
      (m.set t fun x => { x with next := n }).set p fun x => { x with next := some t }
  match m.next t with
  | none => m
  | some n => m.set n fun x => { x with prev := some t }

def enqueue (fuel time : Nat) : Option (Machine Cpu) :=
  let m := m.set t fun x => { x with time := time }
  (m.seek time fuel none (m.list k)).map (m.place k t)

def dequeue : Machine Cpu :=
  let m :=
    if m.active k t then
      let m :=
        match m.next t with
        | none => m
        | some n => let p := m.prev t; m.set n fun x => { x with prev := p }
      match m.prev t with
      | none => m.setList k (m.next t)
      | some p => let n := m.next t; m.set p fun x => { x with next := n }
    else m
  m.set t fun x => { x with prev := none, next := none }

/-- `Ec::clr_timeout`. -/
def clear : Machine Cpu := if m.active k t then m.dequeue k t else m

def destroy : Machine Cpu := (m.clear k t).set t fun x => { x with gone := true }

def create : Machine Cpu := m.set t fun _ => ⟨none, none, 0, false⟩

/-- The loop of `Timeout::check`, with the time at each turn.  What the owners
of the timeouts are woken up for does not concern the lists. -/
def check : List Nat → Machine Cpu → Machine Cpu
  | [], m => m
  | now :: rest, m =>
    match m.list k with
    | none => m
    | some t => if m.time t ≤ now then check rest (m.dequeue k t) else m

end Machine

inductive Act where
  | create (t : Id)
  | enqueue (t : Id) (time : Nat)
  | dequeue (t : Id)
  | clear (t : Id)
  | destroy (t : Id)
  | check (now : List Nat)
  deriving DecidableEq, Repr

def Act.takesOut : Act → Option Id
  | .dequeue t | .clear t | .destroy t => some t
  | _ => none

section Runs

variable {Cpu : Type} [DecidableEq Cpu]

def act (fuel : Nat) (k : Cpu) : Act → Machine Cpu → Option (Machine Cpu)
  | .create t, m => some (m.create t)
  | .enqueue t time, m => m.enqueue k t fuel time
  | .dequeue t, m => some (m.dequeue k t)
  | .clear t, m => some (m.clear k t)
  | .destroy t, m => some (m.destroy k t)
  | .check now, m => some (m.check k now)

def after (fuel : Nat) : List (Cpu × Act) → Machine Cpu → Option (Machine Cpu)
  | [], m => some m
  | (k, a) :: run, m => (act fuel k a m).bind (after fuel run)

/-- `P` holds of every step of the run. -/
def Along (P : Machine Cpu → Cpu → Act → Prop) (fuel : Nat) : List (Cpu × Act) → Machine Cpu → Prop
  | [], _ => True
  | (k, a) :: run, m =>
    P m k a ∧
      match act fuel k a m with
      | none => True
      | some m => Along P fuel run m

instance alongDecidable (P : Machine Cpu → Cpu → Act → Prop) [∀ m k a, Decidable (P m k a)] (fuel : Nat) :
    ∀ run m, Decidable (Along P fuel run m)
  | [], _ => isTrue trivial
  | (k, a) :: run, m =>
    match h : act fuel k a m with
    | none => decidable_of_iff (P m k a) (by simp [Along, h])
    | some m' =>
      have := alongDecidable P fuel run m'
      decidable_of_iff (P m k a ∧ Along P fuel run m') (by simp [Along, h])

/-- What the callers see to: memory is free when a timeout is made in it, a
timeout is put into a list when it is in none, as the assertions say, and none
is used after its owner. -/
def Legal (m : Machine Cpu) : Act → Prop
  | .create t => m.gone t = true
  | .enqueue t _ => m.gone t = false ∧ m.prev t = none ∧ m.next t = none ∧ ∀ c, m.list c ≠ some t
  | .dequeue t | .clear t | .destroy t => m.gone t = false
  | .check _ => True

/-- The timeout to be taken out is not the first one of another CPU. -/
def AtHome (m : Machine Cpu) (k : Cpu) (a : Act) : Prop :=
  ∀ t ∈ a.takesOut, ∀ c, c ≠ k → m.list c ≠ some t

instance [Fintype Cpu] (m : Machine Cpu) (a : Act) : Decidable (Legal m a) := by
  unfold Legal
  cases a <;> infer_instance

omit [DecidableEq Cpu] in
theorem atHome_iff (m : Machine Cpu) (k : Cpu) (a : Act) :
    AtHome m k a ↔ ∀ c, c ≠ k → ∀ t ∈ a.takesOut, m.list c ≠ some t :=
  ⟨fun h c hc t ht => h t ht c hc, fun h t ht c hc => h c hc t ht⟩

instance [Fintype Cpu] (m : Machine Cpu) (k : Cpu) (a : Act) : Decidable (AtHome m k a) :=
  decidable_of_iff _ (atHome_iff m k a).symm

end Runs

end Tukija.Timeouts
