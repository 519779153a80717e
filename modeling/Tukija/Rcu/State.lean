import Mathlib
import Tukija.Lib.Word

/-! `Rcu`: callbacks that wait for all processors.  Each CPU has its own lists;
the processors meet in the state word, in the countdown and in the links of the
elements.  A step is one access to what they share, with what the CPU then does on
its own. -/
namespace Tukija.Rcu

open Tukija.Lib.Word

abbrev ElemId := Nat

/-- `Rcu_elem::next`; `inUse` is the pointer of value 1. -/
inductive Link where
  | null
  | inUse
  | elem (e : ElemId)
  deriving DecidableEq

/-- What the tail of a list points at: its own head, or the link of an element. -/
inductive Slot where
  | head
  | next (e : ElemId)
  deriving DecidableEq

structure RcuList where
  head : Link
  tail : Slot
  count : Mword
  deriving DecidableEq

abbrev Links := ElemId → Link

namespace RcuList

def clear : RcuList := ⟨.null, .head, 0⟩

def empty (l : RcuList) : Bool := l.tail == .head || l.head == .null

/-- `*tail`. -/
def deref (l : RcuList) (h : Links) : Link :=
  match l.tail with
  | .head => l.head
  | .next e => h e

/-- `*tail = x`. -/
def assign (l : RcuList) (x : Link) (h : Links) : RcuList × Links :=
  match l.tail with
  | .head => ({ l with head := x }, h)
  | .next e => (l, Function.update h e x)

/-- `Rcu_list::append`; the caller clears `m`. -/
def append (l m : RcuList) (h : Links) : RcuList × Links :=
  let (l, h) := l.assign m.head h
  let l := { l with tail := m.tail }
  let (l, h) := l.assign l.head h
  ({ l with count := l.count + m.count }, h)

end RcuList

/-- `Rcu::State`. -/
inductive Flag where
  | cmp
  | pnd
  deriving DecidableEq

def Flag.bit : Flag → Mword
  | .cmp => 1
  | .pnd => 2

/-- Who called `start_batch`. -/
inductive Caller where
  | quiet
  | update
  deriving DecidableEq

/-- Where a CPU is in `quiet` and `update`: what it executes next. -/
inductive Pc where
  | out
  | batch
  | again
  | complete
  | advance
  | read (f : Flag) (b : Caller)
  | cas (f : Flag) (b : Caller) (v : Mword)
  | count (b : Caller)
  | load (b : Caller)
  | store (b : Caller) (w : Mword)
  | dispatch
  | invoke (e : Link)
  | callback (n : Link)
  deriving DecidableEq

/-- Where a CPU is in `Rcu_list::enqueue`: in its tests of `e->next`, each of them a
read of its own, at the mark, or at the tail of the list. -/
inductive Calling where
  | other (e : ElemId)
  | test (e : ElemId)
  | fresh (e : ElemId)
  | mark (e : ElemId)
  | peek (e : ElemId)
  | link (e : ElemId) (old : Link)
  deriving DecidableEq

/-- `hazard` is `HZD_RCU` in `Cpu::hazard`. -/
structure Cpu where
  lBatch : Mword
  cBatch : Mword
  hazard : Bool
  next : RcuList
  curr : RcuList
  done : RcuList
  pc : Pc
  call : Option Calling
  deriving DecidableEq

/-- What has happened: a call that put `e` into a list, `quiet` on a CPU, the
callback of `e`. -/
inductive Event (ι : Type) where
  | call (e : ElemId)
  | quiet (i : ι)
  | invoke (e : ElemId)
  deriving DecidableEq

/-- `log` is what has happened so far, the last first. -/
structure Machine (ι : Type) where
  state : Mword
  count : Mword
  link : Links
  cpu : ι → Cpu
  log : List (Event ι)

/-- `Rcu::complete`, of the state word `v`. -/
def completes (v b : Mword) : Bool := decide (0 < ((v &&& ~~~Flag.pnd.bit) - b <<< 2).toInt)

/-- The way back from `start_batch`. -/
def Caller.pc : Caller → Pc
  | .quiet => .out
  | .update => .dispatch

/-- `start_batch` behind its loop: whether `v` says that this CPU starts the batch. -/
def Flag.behind (f : Flag) (b : Caller) (v : Mword) : Pc :=
  if (v ^^^ ~~~f.bit) &&& (Flag.cmp.bit ||| Flag.pnd.bit) ≠ 0 then b.pc else .count b

/-- `Rcu::call` runs on its own and in callbacks. -/
def Pc.calls : Pc → Bool
  | .out => true
  | .callback _ => true
  | _ => false

namespace Machine

variable {ι : Type} [DecidableEq ι]

def put (s : Machine ι) (i : ι) (c : Cpu) : Machine ι :=
  { s with cpu := Function.update s.cpu i c }

/-- The way into `Rcu_list::enqueue`, with the first read. -/
def startCall (i : ι) (e : ElemId) (s : Machine ι) : Machine ι :=
  s.put i { s.cpu i with call := some (if s.link e = .null then .test e else .other e) }

def stepCall (i : ι) (k : Calling) (s : Machine ι) : Machine ι :=
  let c := s.cpu i
  match k with
  | .other e => s.put i { c with call := if s.link e = .inUse then some (.test e) else none }
  | .test e =>
    if s.link e = .inUse ∧ c.next.tail ≠ .next e then s.put i { c with call := none }
    else s.put i { c with call := some (.fresh e) }
  | .fresh e => s.put i { c with call := some (if s.link e = .null then .mark e else .peek e) }
  | .mark e =>
    if s.link e = .null then
      { s with link := Function.update s.link e .inUse }.put i { c with call := some (.peek e) }
    else s.put i { c with call := none }
  | .peek e => s.put i { c with call := some (.link e (c.next.deref s.link)) }
  | .link e old =>
    if c.next.deref s.link = old then
      let (l, h) := c.next.assign (.elem e) s.link
      { s with link := h, log := .call e :: s.log }.put i
        { c with next := ⟨l.head, .next e, l.count + 1⟩, call := none }
    else s.put i { c with call := none }

variable [Fintype ι]

/-- `Cpu::online`, an `unsigned`. -/
def online (ι : Type) [Fintype ι] : Mword := (BitVec.ofNat 32 (Fintype.card ι)).setWidth 64

def stepPc (i : ι) (s : Machine ι) : Machine ι :=
  let c := s.cpu i
  match c.pc with
  | .out => s
  | .batch => s.put i { c with pc := if c.lBatch = s.state >>> 2 then .complete else .again }
  | .again => s.put i { c with lBatch := s.state >>> 2, hazard := true, pc := .complete }
  | .complete =>
    if !c.curr.empty && completes s.state c.cBatch then
      let (l, h) := c.done.append c.curr s.link
      { s with link := h }.put i { c with done := l, curr := .clear, pc := .advance }
    else s.put i { c with pc := .advance }
  | .advance =>
    if c.curr.empty && !c.next.empty then
      let (l, h) := c.curr.append c.next s.link
      { s with link := h }.put i
        { c with curr := l, next := .clear, cBatch := c.lBatch + 1, pc := .read .pnd .update }
    else s.put i { c with pc := .dispatch }
  | .read f b =>
    s.put i { c with
      pc :=
        if s.state >>> 2 ≠ c.lBatch then b.pc
        else if s.state &&& f.bit ≠ 0 then f.behind b s.state
        else .cas f b s.state }
  | .cas f b v =>
    if s.state = v then { s with state := v ||| f.bit }.put i { c with pc := f.behind b v }
    else s.put i { c with pc := .read f b }
  | .count b => { s with count := online ι }.put i { c with pc := .load b }
  | .load b => s.put i { c with pc := .store b s.state }
  | .store b w => { s with state := w + 1 }.put i { c with pc := b.pc }
  | .dispatch => s.put i { c with pc := if c.done.empty then .out else .invoke c.done.head }
  | .invoke (.elem e) =>
    { s with link := Function.update s.link e .null, log := .invoke e :: s.log }.put i
      { c with pc := .callback (s.link e) }
  | .invoke _ => s
  | .callback n =>
    if n = c.done.head then s.put i { c with done := .clear, pc := .out }
    else s.put i { c with pc := .invoke n }

end Machine

inductive Act where
  | call (e : ElemId)
  | quiet
  | update
  | step

namespace Machine

/-- No other CPU has set `e->next` between the tests: the last of them finds it empty,
or the mark of the last element of the CPU's own list. -/
def unraced {ι : Type} (s : Machine ι) (i : ι) (a : Act) : Bool :=
  match a, (s.cpu i).call with
  | .step, some (.fresh e) => s.link e == .null || (s.cpu i).next.tail == .next e
  | _, _ => true

variable {ι : Type} [DecidableEq ι] [Fintype ι]

/-- `handle_hazard` calls `quiet` when `HZD_RCU` is set, and at no other time.  What
is not possible changes nothing. -/
def act (i : ι) (a : Act) (s : Machine ι) : Machine ι :=
  let c := s.cpu i
  match c.call, a with
  | some k, .step => s.stepCall i k
  | none, .step => s.stepPc i
  | none, .call e => if c.pc.calls then s.startCall i e else s
  | none, .update => if c.pc = .out then s.put i { c with pc := .batch } else s
  | none, .quiet =>
    if c.pc = .out ∧ c.hazard = true then
      { s with count := s.count - 1, log := .quiet i :: s.log }.put i
        { c with hazard := false, pc := if s.count - 1 = 0 then .read .cmp .quiet else .out }
    else s
  | some _, _ => s

/-- A run: one CPU after the other begins something or takes a step. -/
def after (s : Machine ι) (acts : List (ι × Act)) : Machine ι :=
  acts.foldl (fun s x => s.act x.1 x.2) s

/-- Every step of the run is taken in a state that meets the condition. -/
def Meets (C : Machine ι → ι → Act → Bool) : Machine ι → List (ι × Act) → Prop
  | _, [] => True
  | s, x :: acts => C s x.1 x.2 = true ∧ Meets C (s.act x.1 x.2) acts

instance decidableMeets (C : Machine ι → ι → Act → Bool) : (s : Machine ι) → (acts : List (ι × Act)) →
    Decidable (Meets C s acts)
  | _, [] => .isTrue trivial
  | s, x :: acts =>
    have := decidableMeets C (s.act x.1 x.2) acts
    inferInstanceAs (Decidable (_ ∧ _))

end Machine

def Cpu.boot : Cpu := ⟨0, 0, false, .clear, .clear, .clear, .out, none⟩

def Machine.boot (ι : Type) : Machine ι := ⟨1, 0, fun _ => .null, fun _ => .boot, []⟩

end Tukija.Rcu
