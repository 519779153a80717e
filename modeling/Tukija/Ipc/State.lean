import Mathlib.Logic.Function.Basic
import Mathlib.Tactic.Common

/-! The ECs of one CPU: whom each of them has called (`partner`), who has called it
(`rcap`), and where it goes on when it runs again (`cont`). -/
namespace Tukija.Ipc

abbrev Id := Nat

inductive Syscall where
  | sys_call
  | sys_reply
  | other (n : Nat)
  deriving DecidableEq

/-- The arguments of `send_msg`. -/
inductive Exit where
  | ret_user_iret
  | ret_user_vmresume
  | ret_user_vmrun
  deriving DecidableEq

inductive Cont where
  | dead
  | idle
  | sys (f : Syscall)
  | sys_finish
  | ret_user_sysexit
  | exit (C : Exit)
  | xcpu_return
  | recv_kern
  | recv_user
  | send_msg (C : Exit)
  | other (n : Nat)
  deriving DecidableEq

/-- `queued`: the EC is in the queue of a semaphore.  `pc` is the `cont` that the
current EC has been entered with, and `sc` the EC of `Sc::current`. -/
structure State where
  glb : Id → Bool
  cont : Id → Option Cont
  partner : Id → Option Id
  rcap : Id → Option Id
  queued : Id → Bool
  current : Id
  pc : Cont
  sc : Id
  ctr : BitVec 32

namespace State

def boot (glb : Id → Bool) (cont : Id → Option Cont) : State where
  glb := Function.update glb 0 true
  cont := Function.update cont 0 (some .idle)
  partner := fun _ => none
  rcap := fun _ => none
  queued := fun _ => false
  current := 0
  pc := .idle
  sc := 0
  ctr := 0

variable (s : State)

def setCont (e : Id) (c : Option Cont) : State := { s with cont := Function.update s.cont e c }

def setQueued (e : Id) (q : Bool) : State := { s with queued := Function.update s.queued e q }

def setPartner (e p : Id) : State :=
  { s with
    partner := Function.update s.partner e (some p)
    rcap := Function.update s.rcap p (some e)
    ctr := s.ctr + 1 }

def clrPartner (e : Id) : State :=
  match s.partner e with
  | some p =>
    { s with
      partner := Function.update s.partner e none
      rcap := Function.update s.rcap p none
      ctr := s.ctr - 1 }
  | none => s

def blocked (e : Id) : Bool := s.queued e || (s.cont e).isNone

def makeCurrent (e : Id) : Option State := (s.cont e).map fun c => { s with current := e, pc := c }

/-- The loop of `activate`. -/
def walk : Nat → Id → BitVec 32 → Option (Id × BitVec 32)
  | 0, _, _ => none
  | fuel + 1, e, n =>
    match s.partner e with
    | some p => walk fuel p (n + 1)
    | none => some (e, n)

/-- `activate`, where nothing blocks. -/
def activate (fuel : Nat) (e : Id) : Option State :=
  (s.walk fuel e 0).bind fun x => if s.blocked x.1 then none else makeCurrent { s with ctr := x.2 } x.1

/-- `Sc::schedule` comes to an Sc that nothing blocks. -/
def schedule (fuel : Nat) (sc : Id) : Option State :=
  if s.glb sc then activate { s with sc := sc } fuel sc else none

/-- `activate`, or the Sc that runs because this is blocked or preempted. -/
def resume (fuel : Nat) (e : Id) (next : Option Id) : Option State :=
  match next with
  | none => s.activate fuel e
  | some sc => s.schedule fuel sc

/-- `ec->help (c)`; it returns to `k` where the EC is dead. -/
def help (fuel : Nat) (c : Option Cont) (ec : Id) (next : Option Id) (k : Option State) : Option State :=
  if s.cont ec = some .dead then k else (s.setCont s.current c).resume fuel ec next

/-- `ec` waits for a call, and gets it from the current EC. -/
def enter (ec : Id) (back entry : Cont) : Option State :=
  (((s.setCont s.current (some back)).setPartner s.current ec).setCont ec (some entry)).makeCurrent ec

/-- `Ec::reply`; `sm`: the caller has to wait for the semaphore. -/
def reply (fuel : Nat) (c : Option Cont) (sm : Bool) (next : Option Id) : Option State :=
  let s₁ := s.setCont s.current c
  if s.glb s.current then next.bind (s₁.schedule fuel)
  else
    match s.rcap s.current with
    | none => s₁.resume fuel s.sc next
    | some ec =>
      let s₂ := s₁.clrPartner ec
      match next with
      | some sc => (if sm then s₂.setQueued ec true else s₂).schedule fuel sc
      | none => if sm then none else if s.ctr = 0 then s₂.activate fuel s.sc else s₂.makeCurrent ec

/-- What `die` leaves to the caller. -/
def abort (c : Option Cont) : Cont :=
  if c = some .ret_user_sysexit ∨ c = some .xcpu_return then .sys_finish else .dead

def die (fuel : Nat) (next : Option Id) : Option State :=
  ((s.rcap s.current).elim s fun ec => s.setCont ec (some (abort (s.cont ec)))).reply fuel (some .dead) false next

/-! ## System calls and exceptions -/

def sysCall (fuel : Nat) (xcpu blocking : Bool) (ec : Id) (next : Option Id) : Option State :=
  if s.cont ec = none then s.enter ec (if xcpu then .xcpu_return else .ret_user_sysexit) .recv_user
  else if blocking then s.help fuel (some (.sys .sys_call)) ec next (some s)
  else some s

def sendMsg (fuel : Nat) (C : Exit) (ec : Id) (next : Option Id) : Option State :=
  if s.cont ec = none then s.enter ec (.exit C) .recv_kern
  else s.help fuel (some (.send_msg C)) ec next (s.die fuel next)

/-- `sm`: the reply names a semaphore, and whether the caller has to wait for it. -/
def sysReply (fuel : Nat) (sm : Option Bool) (next : Option Id) : Option State :=
  match s.rcap s.current, sm with
  | some ec, some wait =>
    if s.cont ec = some (.sys .sys_reply) then s.reply fuel none false next
    else if s.cont ec = some .ret_user_sysexit then
      (s.setCont ec (some (.sys .sys_call))).reply fuel none wait next
    else s.reply fuel none wait next
  | _, _ => s.reply fuel none false next

/-! ## Out of memory -/

/-- `e->oom_call`, for a portal to `ec`. -/
def oomCall (fuel : Nat) (e ec : Id) (cc h : Option Cont) (next : Option Id) : Option State :=
  if e = ec then (s.setCont ec (some .ret_user_sysexit)).makeCurrent ec
  else
    let s₁ := s.setCont e cc
    let k := ((s₁.setPartner e ec).setCont ec (some .ret_user_sysexit)).makeCurrent ec
    if s₁.cont ec = none then k else s₁.help fuel h ec next k

/-- `oom_delegate` of a called EC, for what its caller has sent. -/
def oomSend (fuel : Nat) (ec : Id) (next : Option Id) : Option State :=
  match s.rcap s.current with
  | none => none
  | some rep =>
    if s.current = ec then
      (s.setCont rep (some (.sys .sys_call))).oomCall fuel s.current ec none none next
    else
      ((s.clrPartner rep).setCont s.current none).oomCall fuel rep ec (some (.sys .sys_call)) none next

/-- `delegate<false>` in `sys_reply`, with `sm` if the reply names a semaphore: by then
the caller has been told to call again. -/
def oomReply (fuel : Nat) (sm : Bool) (ec : Id) (next : Option Id) : Option State :=
  match s.rcap s.current, sm with
  | some rep, true =>
    if s.cont rep = some (.sys .sys_reply) then none
    else if s.cont rep = some .ret_user_sysexit then
      (s.setCont rep (some (.sys .sys_call))).oomCall fuel s.current ec (some (.sys .sys_reply))
        (some (.sys .sys_reply)) next
    else s.oomCall fuel s.current ec (some (.sys .sys_reply)) (some (.sys .sys_reply)) next
  | some _, false => s.oomCall fuel s.current ec (some (.sys .sys_reply)) (some (.sys .sys_reply)) next
  | none, _ => none

end State

/-- What the current EC does, and `wake`, which comes from a semaphore or a timeout. -/
inductive Act where
  | sysCall (xcpu blocking : Bool) (ec : Id) (next : Option Id)
  | sendMsg (C : Exit) (ec : Id) (next : Option Id)
  | sysReply (sm : Option Bool) (next : Option Id)
  | die (next : Option Id)
  | oomCall (C : Syscall) (ec : Id) (next : Option Id)
  | oomSend (ec : Id) (next : Option Id)
  | oomReply (sm : Bool) (ec : Id) (next : Option Id)
  | yield (c : Cont) (sc : Id)
  | wait (c : Cont) (sc : Id)
  | donate (ec : Id)
  | wake (e : Id) (c : Option Cont)

namespace State

variable (s : State)

def live (fuel : Nat) : Act → Option State
  | .sysCall xcpu blocking ec next => if s.glb ec then none else s.sysCall fuel xcpu blocking ec next
  | .sendMsg C ec next => if s.glb ec then none else s.sendMsg fuel C ec next
  | .sysReply sm next => s.sysReply fuel sm next
  | .die next => s.die fuel next
  | .oomCall C ec next =>
    if s.glb ec then none else s.oomCall fuel s.current ec (some (.sys C)) (some (.sys C)) next
  | .oomSend ec next => if s.glb ec then none else s.oomSend fuel ec next
  | .oomReply sm ec next => if s.glb ec then none else s.oomReply fuel sm ec next
  | .yield c sc => if c = .dead then none else (s.setCont s.current (some c)).schedule fuel sc
  | .wait c sc =>
    if c = .dead then none else ((s.setCont s.current (some c)).setQueued s.current true).schedule fuel sc
  | .donate ec =>
    if s.blocked ec || (s.partner ec).isSome then none
    else (s.setCont s.current (some .sys_finish)).makeCurrent ec
  | .wake _ _ => none

/-- `Ec::dead` does nothing but `die`. -/
def act (fuel : Nat) : Act → Option State
  | .wake e c =>
    if s.queued e = true ∧ c ≠ some .dead then
      some ((c.elim s fun c => s.setCont e (some c)).setQueued e false)
    else none
  | .die next => s.die fuel next
  | a => if s.pc = .dead then none else s.live fuel a

def after (fuel : Nat) (acts : List Act) : State := acts.foldl (fun s a => (s.act fuel a).getD s) s

def Fits : Act → Prop
  | .oomCall _ ec _ | .oomReply _ ec _ => ec ≠ s.current → s.cont ec ≠ some .dead
  | .oomSend ec _ => ec ≠ s.current → s.rcap s.current ≠ some ec → s.cont ec ≠ some .dead
  | _ => True

def Fitting (fuel : Nat) : State → List Act → Prop
  | _, [] => True
  | s, a :: acts => s.Fits a ∧ Fitting fuel ((s.act fuel a).getD s) acts

end State

end Tukija.Ipc
