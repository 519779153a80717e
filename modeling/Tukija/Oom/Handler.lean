import Mathlib.Tactic

/-! What a protection domain that has run out of kernel memory sets off: the EC of
the OOM portal is entered, from the CPU of the interrupted EC or, by an EC made for
it, on the CPU of the portal. -/
namespace Tukija.Oom

abbrev Id := Nat

/-- The operations that can run out of memory; `other` is any further one. -/
inductive Syscall where
  | sys_call
  | sys_reply
  | sys_misc
  | sys_sm_ctrl
  | sys_ec_ctrl
  | sys_sc_ctrl
  | sys_pt_ctrl
  | sys_pd_ctrl
  | sys_assign_gsi
  | sys_assign_pci
  | other (n : Nat)
  deriving DecidableEq, Repr

inductive Cont where
  | sys (f : Syscall)
  | recv_user
  | ret_user_sysexit
  | xcpu_return
  | ret_xcpu_reply
  | dead
  | ret_xcpu_reply_oom (C : Syscall)
  | oom_xcpu_return (C : Cont)
  | sys_xcpu_call_oom (C : Syscall)
  | other (n : Nat)
  deriving DecidableEq, Repr

/-- `Ec`, with `ARG_1` to `ARG_3` and `ARG_IP` of its registers. -/
structure Ec where
  cont : Option Cont
  partner : Option Id
  rcap : Option Id
  cpu : Nat
  glb : Bool
  arg₁ : Nat
  arg₂ : Nat
  arg₃ : Nat
  ip : Nat
  xcpu_sm : Option Id
  pt_oom : Option Id
  pd : Id
  deriving DecidableEq, Repr

/-- The union of `cpu` and `glb`. -/
def Ec.xcpu (e : Ec) : Nat := e.cpu + if e.glb then 2 ^ 16 else 0

structure Pt where
  id : Nat
  ip : Nat
  ec : Id
  deriving DecidableEq, Repr

/-- `current` is the EC of the CPU that is looked at, and `waiting` has the EC that
a semaphore was made for and that is, or will be, asleep on it. -/
structure World where
  ec : Id → Ec
  pt : Id → Pt
  current : Id
  waiting : Id → Option Id

inductive Outcome where
  /-- The handler is entered. -/
  | entered (w : World)
  /-- The handler is busy: the CPU goes on with that. -/
  | helping (w : World)
  /-- `x` has been sent to the CPU of the handler. -/
  | remote (x : Id) (w : World)
  /-- The system call of the interrupted EC is over, with an error. -/
  | failed
  | died

def OOM_SEND : Nat := 1
def OOM_REPLY : Nat := 2
def OOM_SELF : Nat := 4

namespace World

variable (w : World)

def set (e : Id) (f : Ec → Ec) : World := { w with ec := Function.update w.ec e (f (w.ec e)) }

theorem ec_set (e : Id) (f : Ec → Ec) (d : Id) : (w.set e f).ec d = if d = e then f (w.ec e) else w.ec d := by
  by_cases h : d = e
  · subst h
    simp [set]
  · simp [set, h]

@[simp] theorem ec_set_self (e : Id) (f : Ec → Ec) : (w.set e f).ec e = f (w.ec e) := by simp [set]

@[simp] theorem ec_set_of_ne {e d : Id} (f : Ec → Ec) (h : d ≠ e) : (w.set e f).ec d = w.ec d := by
  simp [set, h]

@[simp] theorem pt_set (e : Id) (f : Ec → Ec) : (w.set e f).pt = w.pt := rfl
@[simp] theorem current_set (e : Id) (f : Ec → Ec) : (w.set e f).current = w.current := rfl
@[simp] theorem waiting_set (e : Id) (f : Ec → Ec) : (w.set e f).waiting = w.waiting := rfl

/-- The end of `Ec::oom_call`. -/
def enter (pt src state : Nat) : World :=
  let p := w.pt pt
  { w.set p.ec fun e =>
      { e with cont := some .ret_user_sysexit, arg₁ := p.id, arg₂ := src, arg₃ := state, ip := p.ip } with
    current := p.ec }

def set_partner (this p : Id) : World :=
  (w.set this fun e => { e with partner := some p }).set p fun e => { e with rcap := some this }

/-- `Ec::clr_partner` of an EC whose partner is `current`. -/
def clr_partner (this : Id) : World :=
  (w.set w.current fun e => { e with rcap := none }).set this fun e => { e with partner := none }

@[simp] theorem pt_set_partner (this p : Id) : (w.set_partner this p).pt = w.pt := rfl
@[simp] theorem waiting_set_partner (this p : Id) : (w.set_partner this p).waiting = w.waiting := rfl
@[simp] theorem pt_clr_partner (this : Id) : (w.clr_partner this).pt = w.pt := rfl
@[simp] theorem current_clr_partner (this : Id) : (w.clr_partner this).current = w.current := rfl
@[simp] theorem waiting_clr_partner (this : Id) : (w.clr_partner this).waiting = w.waiting := rfl
@[simp] theorem waiting_enter (pt src state : Nat) : (w.enter pt src state).waiting = w.waiting := rfl

/-- `Ec::oom_call`.  From a handler that is dead `Ec::help` comes back. -/
def oom_call (this pt src state : Nat) (CC HELP : Option Cont) : Outcome :=
  let ec := (w.pt pt).ec
  if this = ec then .entered (w.enter pt src state)
  else
    let w := w.set this fun e => { e with cont := CC }
    if (w.ec ec).cont ≠ none ∧ (w.ec ec).cont ≠ some .dead then
      .helping (w.set w.current fun e => { e with cont := HELP })
    else .entered ((w.set_partner this ec).enter pt src state)

/-- `Ec::oom_xcpu<C>` of `current`.  The new EC is `x` and the new semaphore `sm`;
`held` is whether a reference to `current` was to be had. -/
def oom_xcpu (pt src state : Nat) (C : Syscall) (x sm : Id) (held : Bool) : Outcome :=
  let this := w.current
  let w := w.set this fun e => { e with xcpu_sm := some sm }
  let e : Ec :=
    { w.ec this with
      cont := some (.sys_xcpu_call_oom C)
      partner := none
      rcap := if held then some this else none
      cpu := (w.ec (w.pt pt).ec).cpu
      glb := true
      arg₁ := pt
      arg₂ := src
      arg₃ := state }
  if e.rcap = none then .failed
  else
    let w := (w.set x fun _ => e).set this fun e => { e with cont := some (.ret_xcpu_reply_oom C) }
    .remote x { w with waiting := Function.update w.waiting sm (some this) }

/-- `Ec::sys_xcpu_call_oom<C>`. -/
def sys_xcpu_call_oom (C : Syscall) : Outcome :=
  let s := w.ec w.current
  w.oom_call w.current s.arg₁ s.arg₂ s.arg₃ (some (.oom_xcpu_return (.ret_xcpu_reply_oom C)))
    (some (.sys_xcpu_call_oom C))

/-- The operations that `Ec::oom_call_cpu` knows. -/
def known : List Syscall :=
  [.sys_call, .sys_misc, .sys_sm_ctrl, .sys_ec_ctrl, .sys_sc_ctrl, .sys_pt_ctrl, .sys_pd_ctrl,
    .sys_assign_gsi, .sys_assign_pci]

/-- `Ec::oom_call_cpu` of `current`.  The condition of the first line is all of
`OOM_SEND | (this == pt->ec)`. -/
def oom_call_cpu (pt src : Nat) (CC : Syscall) (x sm : Id) (held : Bool) : Outcome :=
  let ec := (w.pt pt).ec
  let s := if OOM_SEND ||| (if w.current = ec then 1 else 0) ≠ 0 then OOM_SELF else 0
  if (w.ec w.current).cpu ≠ (w.ec ec).xcpu then
    if CC ∈ known then w.oom_xcpu pt src s CC x sm held else .died
  else w.oom_call w.current pt src s (some (.sys CC)) (some (.sys CC))

def src_pd_id (src_pt : Option Id) (dst_pt : Id) : Nat :=
  match src_pt with
  | none => 2 ^ 64 - 1
  | some p => if (w.ec (w.pt p).ec).pd = (w.ec (w.pt dst_pt).ec).pd then (w.pt p).id else 0

/-- `Ec::oom_delegate`, as `Ec::delegate<C>` calls it when it has run out of memory. -/
def oom_delegate (C : Bool) (x sm : Id) (held : Bool) : Outcome :=
  match (w.ec w.current).rcap with
  | none => .died
  | some rep =>
    let dst := if C then w.current else rep
    let src := if C then rep else w.current
    match (w.ec dst).pt_oom with
    | none => .died
    | some dst_pt =>
      let src_pd_id := w.src_pd_id (w.ec src).pt_oom dst_pt
      let ec := (w.pt dst_pt).ec
      let oom_state := (if C then OOM_SEND else OOM_REPLY) + if w.current = ec then OOM_SELF else 0
      let cur := w.ec w.current
      if C = false ∧ cur.cpu ≠ (w.ec ec).xcpu then
        w.oom_xcpu dst_pt src_pd_id oom_state .sys_reply x sm held
      else if cur.cpu ≠ (w.ec ec).xcpu ∨ cur.cont = some .xcpu_return ∨ cur.cont = some .ret_xcpu_reply then
        .died
      else if C ∧ w.current = ec then
        (w.set rep fun e => { e with cont := some (.sys .sys_call) }).oom_call w.current dst_pt src_pd_id
          oom_state none none
      else if C then
        let w := (w.clr_partner rep).set w.current fun e => { e with cont := none }
        w.oom_call rep dst_pt src_pd_id oom_state (some (.sys .sys_call)) (w.ec w.current).cont
      else
        w.oom_call w.current dst_pt src_pd_id oom_state (some (.sys .sys_reply)) (some (.sys .sys_reply))

/-- `Ec::reply` of the handler, when it is done.  Without an EC to reply to the
scheduler has its turn, which is not followed further. -/
def reply : World :=
  let rcap := (w.ec w.current).rcap
  let v := w.set w.current fun e => { e with cont := none }
  match rcap with
  | none => v
  | some ec => { v.clr_partner ec with current := ec }

/-- What `current` does next, if it has been through `oom_xcpu`: `oom_xcpu_return`
wakes up the interrupted EC, and that takes up its operation in
`ret_xcpu_reply_oom`. -/
def goOn : World :=
  let e := w.ec w.current
  match e.cont with
  | some (.oom_xcpu_return C) =>
    let v := w.set w.current fun e => { e with xcpu_sm := none, cont := some .dead }
    match e.xcpu_sm.bind w.waiting with
    | none => v
    | some y => { v.set y fun e => { e with cont := some C } with current := y }
  | some (.ret_xcpu_reply_oom C) =>
    w.set w.current fun e => { e with xcpu_sm := none, cont := some (.sys C) }
  | _ => w

end World

/-- How the handler gets to be called: in the delegation of a call (`C`) or of a
reply, or in the system call `CC`. -/
inductive Call where
  | delegate (C : Bool)
  | cpu (CC : Syscall)
  deriving DecidableEq, Repr

namespace Call

variable (p : Call) (w : World)

def retrier : Option Id :=
  match p with
  | delegate true => (w.ec w.current).rcap
  | delegate false => some w.current
  | cpu _ => some w.current

def operation : Syscall :=
  match p with
  | delegate true => .sys_call
  | delegate false => .sys_reply
  | cpu CC => CC

/-- The OOM portal: of the receiver of a delegation, or of the caller. -/
def portal : Option Id :=
  match p with
  | delegate true => (w.ec w.current).pt_oom
  | delegate false => (w.ec w.current).rcap.bind fun rep => (w.ec rep).pt_oom
  | cpu _ => (w.ec w.current).pt_oom

def handler : Option Id := (p.portal w).map fun pt => (w.pt pt).ec

def source : Nat :=
  match p, p.portal w with
  | _, none => 0
  | delegate true, some pt => w.src_pd_id ((w.ec w.current).rcap.bind fun rep => (w.ec rep).pt_oom) pt
  | delegate false, some pt => w.src_pd_id (w.ec w.current).pt_oom pt
  | cpu _, some pt => (w.pt pt).id

/-- The bit of the direction: all but the delegation of a reply are on the way to
somebody. -/
def direction : Nat :=
  match p with
  | delegate false => OOM_REPLY
  | _ => OOM_SEND

def state : Nat := p.direction + if p.handler w = some w.current then OOM_SELF else 0

def invoke (x sm : Id) (held : Bool) : Outcome :=
  match p with
  | delegate C => w.oom_delegate C x sm held
  | cpu CC =>
    match (w.ec w.current).pt_oom with
    | none => .failed
    | some pt => w.oom_call_cpu pt (w.pt pt).id CC x sm held

end Call

/-- The CPU of the handler has come to `x`, which did not run in between, nor did
the EC that sleeps. -/
structure Arrived (w v : World) (x : Id) : Prop where
  current : v.current = x
  new : v.ec x = w.ec x
  asleep : v.ec w.current = w.ec w.current
  pt : v.pt = w.pt
  waiting : v.waiting = w.waiting

/-- The handler is entered, at once or on its own CPU. -/
inductive Enters (w : World) (p : Call) (x sm : Id) (held : Bool) : World → Prop where
  | here {v : World} : p.invoke w x sm held = .entered v → Enters w p x sm held v
  | there {w₁ w₂ v : World} {C : Syscall} :
    p.invoke w x sm held = .remote x w₁ → Arrived w₁ w₂ x →
    (w₂.ec x).cont = some (.sys_xcpu_call_oom C) → w₂.sys_xcpu_call_oom C = .entered v →
    Enters w p x sm held v

/-- The handler `h` has done its work and is about to reply; the EC that it is to
reply to has not run in between, nor has `this`. -/
structure Served (w v : World) (h this : Id) : Prop where
  current : v.current = h
  rcap : (v.ec h).rcap = (w.ec h).rcap
  caller : ∀ e, (w.ec h).rcap = some e → e ≠ h → v.ec e = w.ec e
  this : this ≠ h → v.ec this = w.ec this
  waiting : v.waiting = w.waiting

/-- From the reply of `h` on, `this` is back at its operation. -/
def Retried (w : World) (h this : Id) (op : Syscall) : Prop :=
  ∀ v, Served w v h this →
    v.reply.goOn.goOn.current = this ∧ (v.reply.goOn.goOn.ec this).cont = some (.sys op)

/-- `v`, in which the handler has been entered, is as it should be. -/
structure Right (w : World) (p : Call) (h this : Id) (v : World) : Prop where
  current : v.current = h
  cont : (v.ec h).cont = some .ret_user_sysexit
  portal : ∀ pt, p.portal w = some pt → (v.ec h).arg₁ = (w.pt pt).id ∧ (v.ec h).ip = (w.pt pt).ip
  source : (v.ec h).arg₂ = p.source w
  state : (v.ec h).arg₃ = p.state w
  retried : Retried v h this p.operation

/-- What holds of ECs anyway: none is its own caller, one that runs or waits for a
reply is not asleep on a semaphore, the ECs of portals are local, and a new EC is
none of those there are. -/
structure Proper (w : World) (x : Id) : Prop where
  rcap : (w.ec w.current).rcap ≠ some w.current
  current : ∀ sm, w.waiting sm ≠ some w.current
  caller : ∀ sm e, (w.ec w.current).rcap = some e → w.waiting sm ≠ some e
  portal : ∀ pt, (w.ec (w.pt pt).ec).glb = false
  new : x ≠ w.current ∧ ∀ pt, x ≠ (w.pt pt).ec

section Enter

variable {w v : World} {p : Call} {h this x sm pt src state : Id} {op : Syscall} {held : Bool}

theorem enter_ec (w : World) (pt src state : Nat) :
    (w.enter pt src state).ec (w.pt pt).ec =
      { w.ec (w.pt pt).ec with
        cont := some .ret_user_sysexit, arg₁ := (w.pt pt).id, arg₂ := src, arg₃ := state, ip := (w.pt pt).ip } := by
  simp [World.enter]

theorem enter_ec_of_ne {e : Id} (he : e ≠ (w.pt pt).ec) : (w.enter pt src state).ec e = w.ec e := by
  simp [World.enter, he]

theorem oom_call_cases {CC HELP : Option Cont} (he : w.oom_call this pt src state CC HELP = .entered v) :
    this = (w.pt pt).ec ∧ v = w.enter pt src state ∨
      this ≠ (w.pt pt).ec ∧
        v = ((w.set this fun e => { e with cont := CC }).set_partner this (w.pt pt).ec).enter pt src state := by
  unfold World.oom_call at he
  dsimp only at he
  split at he
  · rename_i hself
    exact .inl ⟨hself, (Outcome.entered.inj he).symm⟩
  · rename_i hself
    split at he
    · exact Outcome.noConfusion he
    · exact .inr ⟨hself, (Outcome.entered.inj he).symm⟩

end Enter

section Retry

variable {w v : World} {h this x sm : Id} {op : Syscall}

theorem goOn_sys (hc : (w.ec w.current).cont = some (.sys op)) : w.goOn = w := by
  simp [World.goOn, hc]

theorem reply_some {e : Id} (hr : (w.ec w.current).rcap = some e) (he : e ≠ w.current) :
    w.reply.current = e ∧ w.reply.ec e = { w.ec e with partner := none } ∧ w.reply.waiting = w.waiting ∧
      ∀ d, d ≠ e → d ≠ w.current → w.reply.ec d = w.ec d := by
  simp only [World.reply, hr, World.clr_partner]
  refine ⟨trivial, by simp [he], rfl, fun d hd hd' => ?_⟩
  simp [hd, hd']

theorem retried_linked (hr : (v.ec h).rcap = some this) (hne : this ≠ h)
    (hc : (v.ec this).cont = some (.sys op)) : Retried v h this op := by
  intro u hu
  have hrcap : (u.ec u.current).rcap = some this := by rw [hu.current, hu.rcap, hr]
  obtain ⟨hcur, hec, -, -⟩ := reply_some hrcap (hu.current ▸ hne)
  have hcont : (u.reply.ec this).cont = some (.sys op) := by rw [hec, hu.this hne, hc]
  have hgo : u.reply.goOn = u.reply := goOn_sys (hcur.symm ▸ hcont)
  rw [hgo, hgo]
  exact ⟨hcur, hcont⟩

theorem retried_remote (hr : (v.ec h).rcap = some x) (hx : x ≠ h) (hne : this ≠ h) (hnew : this ≠ x)
    (hc : (v.ec x).cont = some (.oom_xcpu_return (.ret_xcpu_reply_oom op)))
    (hsm : (v.ec x).xcpu_sm = some sm) (hw : v.waiting sm = some this) : Retried v h this op := by
  intro u hu
  have hrcap : (u.ec u.current).rcap = some x := by rw [hu.current, hu.rcap, hr]
  obtain ⟨hcur, hec, hwait, hother⟩ := reply_some hrcap (hu.current ▸ hx)
  have hxec : u.ec x = v.ec x := hu.caller x hr hx
  have hthis : u.reply.ec this = v.ec this := by
    rw [hother this hnew (hu.current ▸ hne), hu.this hne]
  -- the interrupted EC is woken up
  have hwoken : u.reply.goOn.current = this ∧
      (u.reply.goOn.ec this).cont = some (.ret_xcpu_reply_oom op) := by
    have hwaiting : u.reply.waiting sm = some this := by rw [hwait, hu.waiting, hw]
    simp [World.goOn, hcur, hec, hxec, hc, hsm, hwaiting]
  obtain ⟨hcur', hcont'⟩ := hwoken
  generalize u.reply.goOn = t at hcur' hcont'
  subst hcur'
  simp [World.goOn, hcont']

theorem not_retried_self (hw : ∀ sm, v.waiting sm ≠ some h) (hcur : v.current = h) : ¬Retried v h h op := by
  intro hall
  have hstep : ∀ u : World, (u.ec h).cont = none → (∀ sm, u.waiting sm ≠ some h) →
      (u.goOn.ec h).cont = none ∧ ∀ sm, u.goOn.waiting sm ≠ some h := by
    intro u hc hu
    have hne : ∀ {k}, (u.ec u.current).cont = some k → h ≠ u.current := by
      rintro k hk rfl
      simp [hc] at hk
    unfold World.goOn
    dsimp only
    split
    · rename_i C hk
      split
      · exact ⟨by rw [World.ec_set_of_ne _ _ (hne hk), hc], hu⟩
      · rename_i y hy
        have hhy : h ≠ y := by
          rintro rfl
          obtain ⟨sm, -, hsm⟩ := Option.bind_eq_some_iff.mp hy
          exact hu sm hsm
        exact ⟨by simp [hhy, hne hk, hc], hu⟩
    · rename_i C hk
      exact ⟨by rw [World.ec_set_of_ne _ _ (hne hk), hc], hu⟩
    · exact ⟨hc, hu⟩
  have hreply : (v.reply.ec h).cont = none ∧ ∀ sm, v.reply.waiting sm ≠ some h := by
    unfold World.reply
    dsimp only
    cases (v.ec v.current).rcap with
    | none => exact ⟨by simp [hcur], hw⟩
    | some e =>
      refine ⟨?_, hw⟩
      by_cases he : h = e
      · subst he
        simp [World.clr_partner, hcur]
      · simp [World.clr_partner, hcur, he]
  obtain ⟨hc₁, hw₁⟩ := hstep _ hreply.1 hreply.2
  obtain ⟨hc₂, -⟩ := hstep _ hc₁ hw₁
  have hback := (hall v ⟨hcur, rfl, fun _ _ _ => rfl, fun hne => absurd rfl hne, rfl⟩).2
  simp [hc₂] at hback

end Retry

section Paths

variable {w v : World} {p : Call} {x sm pt : Id} {held : Bool}

theorem right_of_enter {u : World} {this : Id} (hu : u.pt = w.pt) (hp : p.portal w = some pt)
    (hr : Retried (u.enter pt (p.source w) (p.state w)) (w.pt pt).ec this p.operation) :
    Right w p (w.pt pt).ec this (u.enter pt (p.source w) (p.state w)) := by
  have hec := enter_ec u pt (p.source w) (p.state w)
  rw [hu] at hec
  constructor
  case current => rw [World.enter, hu]
  case cont => rw [hec]
  case portal =>
    intro q hq
    obtain rfl := Option.some.inj (hp.symm.trans hq)
    exact ⟨by rw [hec], by rw [hec]⟩
  case source => rw [hec]
  case state => rw [hec]
  case retried => exact hr

theorem oom_call_retried {this src state : Nat} {op : Syscall} {HELP : Option Cont}
    (he : w.oom_call this pt src state (some (.sys op)) HELP = .entered v)
    (hw : ∀ sm, w.waiting sm ≠ some this) :
    ∃ u : World, v = u.enter pt src state ∧ u.pt = w.pt ∧
      (Retried v (w.pt pt).ec this op ↔ this ≠ (w.pt pt).ec) := by
  rcases oom_call_cases he with ⟨rfl, rfl⟩ | ⟨hne, rfl⟩
  · refine ⟨w, rfl, rfl, iff_of_false (not_retried_self hw rfl) (not_not_intro rfl)⟩
  · refine ⟨_, rfl, rfl, iff_of_true ?_ hne⟩
    generalize hu : (w.set this fun e => { e with cont := some (.sys op) }).set_partner this (w.pt pt).ec = u
    have hupt : u.pt = w.pt := by rw [← hu]; rfl
    have hentered := enter_ec u pt src state
    rw [hupt] at hentered
    have hkept : (u.enter pt src state).ec this = u.ec this := enter_ec_of_ne (by rwa [hupt])
    refine retried_linked ?_ hne ?_
    · rw [hentered, ← hu]
      simp [World.set_partner]
    · rw [hkept, ← hu]
      simp [World.set_partner, hne]

theorem oom_call_ne_remote {this src state : Nat} {CC HELP : Option Cont} {w₁ : World} :
    w.oom_call this pt src state CC HELP ≠ .remote x w₁ := by
  unfold World.oom_call
  dsimp only
  split
  · exact Outcome.noConfusion
  · split <;> exact Outcome.noConfusion

/-- The delegation of a call: either `current` handles it itself and `rep`, still
waiting for it, is to call again, or `rep` does not wait for it any more. -/
theorem delegate_call {rep : Id} (hrep : (w.ec w.current).rcap = some rep) (hpt : (w.ec w.current).pt_oom = some pt)
    (he : w.oom_delegate true x sm held = .entered v) :
    w.current = (w.pt pt).ec ∧
        v = (w.set rep fun e => { e with cont := some (.sys .sys_call) }).enter pt
          (Call.source (.delegate true) w) (Call.state (.delegate true) w) ∨
      w.current ≠ (w.pt pt).ec ∧
        ((w.clr_partner rep).set w.current fun e => { e with cont := none }).oom_call rep pt
          (Call.source (.delegate true) w) (Call.state (.delegate true) w) (some (.sys .sys_call)) none =
            .entered v := by
  have hsource : Call.source (.delegate true) w = w.src_pd_id (w.ec rep).pt_oom pt := by
    simp [Call.source, Call.portal, hpt, hrep]
  have hstate : Call.state (.delegate true) w =
      OOM_SEND + if w.current = (w.pt pt).ec then OOM_SELF else 0 := by
    simp [Call.state, Call.handler, Call.portal, Call.direction, hpt, eq_comm]
  rw [hsource, hstate]
  simp only [World.oom_delegate, hrep, hpt, if_true, reduceCtorEq, false_and, if_false, true_and] at he
  split at he
  · exact Outcome.noConfusion he
  · split at he
    · rename_i hself
      rcases oom_call_cases he with ⟨-, rfl⟩ | ⟨hne, -⟩
      · exact .inl ⟨hself, by rw [if_pos hself]⟩
      · exact absurd hself hne
    · rename_i hself
      refine .inr ⟨hself, ?_⟩
      rw [if_neg hself]
      simpa using he

/-- The delegation of a reply, and what `current` does in a system call: the
handler is called here, or `x` is made for it. -/
theorem delegate_reply {rep : Id} {o : Outcome} (hrep : (w.ec w.current).rcap = some rep)
    (hpt : (w.ec rep).pt_oom = some pt) (ho : w.oom_delegate false x sm held = o) :
    o = .died ∨
      o = w.oom_xcpu pt (Call.source (.delegate false) w) (Call.state (.delegate false) w) .sys_reply x sm held ∧
        (w.ec w.current).cpu ≠ (w.ec (w.pt pt).ec).xcpu ∨
      o = w.oom_call w.current pt (Call.source (.delegate false) w) (Call.state (.delegate false) w)
        (some (.sys .sys_reply)) (some (.sys .sys_reply)) := by
  have hsource : Call.source (.delegate false) w = w.src_pd_id (w.ec w.current).pt_oom pt := by
    simp [Call.source, Call.portal, hpt, hrep]
  have hstate : Call.state (.delegate false) w =
      OOM_REPLY + if w.current = (w.pt pt).ec then OOM_SELF else 0 := by
    simp [Call.state, Call.handler, Call.portal, Call.direction, hpt, hrep, eq_comm]
  rw [hsource, hstate, ← ho]
  simp only [World.oom_delegate, hrep, hpt, Bool.false_eq_true, if_false, true_and, false_and]
  split
  · rename_i hfar
    exact .inr (.inl ⟨rfl, hfar⟩)
  · split
    · exact .inl rfl
    · exact .inr (.inr rfl)

theorem oom_xcpu_remote {src state : Nat} {C : Syscall} {w₁ : World}
    (hx : w.oom_xcpu pt src state C x sm held = .remote x w₁) (hnew : x ≠ w.current) :
    w₁.pt = w.pt ∧ w₁.waiting sm = some w.current ∧ (w₁.ec x).cont = some (.sys_xcpu_call_oom C) ∧
      (w₁.ec x).arg₁ = pt ∧ (w₁.ec x).arg₂ = src ∧ (w₁.ec x).arg₃ = state ∧ (w₁.ec x).xcpu_sm = some sm := by
  cases held with
  | false => simp [World.oom_xcpu] at hx
  | true =>
    simp only [World.oom_xcpu, if_true, reduceCtorEq, if_false] at hx
    obtain ⟨-, rfl⟩ := Outcome.remote.inj hx
    simp [hnew]

theorem xcpu_cases {src state : Nat} {C C' : Syscall} {w₁ w₂ : World} (hw : Proper w x)
    (hx : w.oom_xcpu pt src state C x sm held = .remote x w₁) (ha : Arrived w₁ w₂ x)
    (hcont : (w₂.ec x).cont = some (.sys_xcpu_call_oom C')) (he : w₂.sys_xcpu_call_oom C' = .entered v) :
    ∃ u : World, v = u.enter pt src state ∧ u.pt = w.pt ∧
      (w.current ≠ (w.pt pt).ec → Retried (u.enter pt src state) (w.pt pt).ec w.current C) := by
  obtain ⟨hpt, hwait, hc, h₁, h₂, h₃, hsm⟩ := oom_xcpu_remote hx hw.new.1
  rw [← ha.new] at hc h₁ h₂ h₃ hsm
  obtain rfl : C' = C := by simpa [hc] using hcont.symm
  have hpt₂ : w₂.pt = w.pt := ha.pt.trans hpt
  have hne : x ≠ (w.pt pt).ec := hw.new.2 pt
  unfold World.sys_xcpu_call_oom at he
  dsimp only at he
  rw [ha.current, h₁, h₂, h₃] at he
  rcases oom_call_cases he with ⟨hself, -⟩ | ⟨-, rfl⟩
  · exact absurd (hself.trans (by rw [hpt₂])) hne
  · rw [hpt₂]
    refine ⟨_, rfl, hpt₂, fun hcur => ?_⟩
    generalize hu : (w₂.set x fun e =>
      { e with cont := some (.oom_xcpu_return (.ret_xcpu_reply_oom C')) }).set_partner x (w.pt pt).ec = u
    have hupt : u.pt = w.pt := by rw [← hu]; exact hpt₂
    have hecx : u.ec x = { w₂.ec x with
        cont := some (.oom_xcpu_return (.ret_xcpu_reply_oom C')), partner := some (w.pt pt).ec } := by
      rw [← hu]
      simp [World.set_partner, hne]
    have hentered := enter_ec u pt src state
    rw [hupt] at hentered
    have hkept : (u.enter pt src state).ec x = u.ec x := enter_ec_of_ne (by rwa [hupt])
    have hsm' : ((u.enter pt src state).ec x).xcpu_sm = some sm := by
      rw [hkept, hecx]
      exact hsm
    refine retried_remote ?_ hne hcur hw.new.1.symm ?_ hsm' ?_
    · rw [hentered, ← hu]
      simp [World.set_partner]
    · rw [hkept, hecx]
    · rw [World.waiting_enter, ← hu]
      exact (congrFun ha.waiting sm).trans hwait

theorem oom_xcpu_ne_entered {src state : Nat} {C : Syscall} :
    w.oom_xcpu pt src state C x sm held ≠ .entered v := by
  unfold World.oom_xcpu
  dsimp only
  split <;> exact Outcome.noConfusion

theorem delegate_call_ne_remote {w₁ : World} : w.oom_delegate true x sm held ≠ .remote x w₁ := by
  unfold World.oom_delegate
  split
  · exact Outcome.noConfusion
  · dsimp only
    split
    · exact Outcome.noConfusion
    · rw [if_neg (by simp)]
      split
      · exact Outcome.noConfusion
      · split
        · exact oom_call_ne_remote
        · exact oom_call_ne_remote

theorem oom_call_cpu_cases {CC : Syscall} {o : Outcome} (ho : w.oom_call_cpu pt (w.pt pt).id CC x sm held = o) :
    o = .died ∨ o = w.oom_xcpu pt (w.pt pt).id OOM_SELF CC x sm held ∨
      o = w.oom_call w.current pt (w.pt pt).id OOM_SELF (some (.sys CC)) (some (.sys CC)) := by
  have hstate : OOM_SEND ||| (if w.current = (w.pt pt).ec then 1 else 0) ≠ 0 := by
    split <;> decide
  unfold World.oom_call_cpu at ho
  dsimp only at ho
  rw [if_pos hstate] at ho
  split at ho
  · split at ho
    · exact .inr (.inl ho.symm)
    · exact .inl ho.symm
  · exact .inr (.inr ho.symm)

end Paths

section Main

variable {w v : World} {p : Call} {h this x sm : Id} {held : Bool}

theorem right_iff_call (hw : Proper w x) (he : Enters w (.delegate true) x sm held v)
    (hh : Call.handler (.delegate true) w = some h) (ht : Call.retrier (.delegate true) w = some this) :
    Right w (.delegate true) h this v ↔ this ≠ h := by
  obtain ⟨pt, hpt, rfl⟩ := Option.map_eq_some_iff.mp hh
  have hrep : (w.ec w.current).rcap = some this := ht
  have hne : this ≠ w.current := by
    rintro rfl
    exact hw.rcap hrep
  cases he with
  | there hx => exact absurd hx delegate_call_ne_remote
  | here he =>
    rcases delegate_call hrep hpt he with ⟨hself, rfl⟩ | ⟨-, he⟩
    · -- `current` is the handler, and is still to reply to `this`
      rw [hself] at hne
      refine iff_of_true ?_ hne
      refine right_of_enter rfl hpt (retried_linked ?_ hne ?_)
      · have hkept := enter_ec (w.set this fun e => { e with cont := some (.sys .sys_call) }) pt
          (Call.source (.delegate true) w) (Call.state (.delegate true) w)
        rw [World.pt_set] at hkept
        rw [hkept, World.ec_set_of_ne _ _ hne.symm, ← hself, hrep]
      · rw [enter_ec_of_ne (by simpa using hne), World.ec_set_self]
        rfl
    · obtain ⟨u, rfl, hu, hiff⟩ := oom_call_retried he (hw.caller · this hrep)
      exact ⟨fun hr => hiff.mp hr.retried, fun hr => right_of_enter hu hpt (hiff.mpr hr)⟩

theorem right_iff_reply (hw : Proper w x) (he : Enters w (.delegate false) x sm held v)
    (hh : Call.handler (.delegate false) w = some h) (ht : Call.retrier (.delegate false) w = some this) :
    Right w (.delegate false) h this v ↔ this ≠ h := by
  obtain ⟨pt, hportal, rfl⟩ := Option.map_eq_some_iff.mp hh
  obtain ⟨rep, hrep, hpt⟩ := Option.bind_eq_some_iff.mp hportal
  obtain rfl := Option.some.inj ht
  cases he with
  | here he =>
    rcases delegate_reply hrep hpt he with ho | ⟨ho, -⟩ | ho
    · exact Outcome.noConfusion ho
    · exact absurd ho.symm oom_xcpu_ne_entered
    · obtain ⟨u, rfl, hu, hiff⟩ := oom_call_retried ho.symm hw.current
      exact ⟨fun hr => hiff.mp hr.retried, fun hr => right_of_enter hu hportal (hiff.mpr hr)⟩
  | there hx ha hc he =>
    rcases delegate_reply hrep hpt hx with ho | ⟨ho, hfar⟩ | ho
    · exact Outcome.noConfusion ho
    · have hne : w.current ≠ (w.pt pt).ec := by
        intro hself
        rw [← hself, Ec.xcpu, hself, hw.portal pt] at hfar
        exact hfar rfl
      obtain ⟨u, rfl, hu, hback⟩ := xcpu_cases hw ho.symm ha hc he
      exact iff_of_true (right_of_enter hu hportal (hback hne)) hne
    · exact absurd ho.symm oom_call_ne_remote

theorem not_right_cpu {CC : Syscall} (hw : Proper w x) (he : Enters w (.cpu CC) x sm held v)
    (hh : Call.handler (.cpu CC) w = some h) : ¬Right w (.cpu CC) h this v := by
  obtain ⟨pt, hpt, rfl⟩ := Option.map_eq_some_iff.mp hh
  have hpt' : (w.ec w.current).pt_oom = some pt := hpt
  intro hr
  have hstate := hr.state
  -- the state word that arrives
  have hself : ∃ u src, v = World.enter u pt src OOM_SELF ∧ u.pt = w.pt := by
    cases he with
    | here he =>
      simp only [Call.invoke, hpt'] at he
      rcases oom_call_cpu_cases he with ho | ho | ho
      · exact Outcome.noConfusion ho
      · exact absurd ho.symm oom_xcpu_ne_entered
      · obtain ⟨u, hv, hu, -⟩ := oom_call_retried ho.symm hw.current
        exact ⟨u, _, hv, hu⟩
    | there hx ha hc he =>
      simp only [Call.invoke, hpt'] at hx
      rcases oom_call_cpu_cases hx with ho | ho | ho
      · exact Outcome.noConfusion ho
      · obtain ⟨u, hv, hu, -⟩ := xcpu_cases hw ho.symm ha hc he
        exact ⟨u, _, hv, hu⟩
      · exact absurd ho.symm oom_call_ne_remote
  obtain ⟨u, src, rfl, hu⟩ := hself
  have hentered := enter_ec u pt src OOM_SELF
  rw [hu] at hentered
  rw [hentered, Call.state] at hstate
  simp only [Call.direction, OOM_SEND, OOM_SELF] at hstate
  split at hstate <;> omega

/-- EC 1 has called EC 0, which is current; EC 2 is the one of the OOM portal. -/
def calling : World where
  ec e :=
    match e with
    | 0 => ⟨some .recv_user, none, some 1, 0, false, 0, 0, 0, 0, none, some 0, 0⟩
    | 1 => ⟨some .ret_user_sysexit, some 0, none, 0, false, 0, 0, 0, 0, none, some 0, 0⟩
    | _ => ⟨none, none, none, 0, false, 0, 0, 0, 0, none, none, 0⟩
  pt _ := ⟨7, 4096, 2⟩
  current := 0
  waiting _ := none

theorem calling_proper : Proper calling 9 where
  rcap := by decide
  current sm := by simp [calling]
  caller sm e _ := by simp [calling]
  portal pt := by simp [calling]
  new := ⟨by decide, fun pt => by simp [calling]⟩

end Main

end Tukija.Oom
