import Mathlib.Tactic

/-! The EC and the SC that stand for a caller on another CPU: made by the first
`sys_xcpu_call` of the caller, used again by the next ones. -/
namespace Tukija.Xcpu

/-- Kernel objects and the memory blocks of an EC are told apart by numbers. -/
abbrev Id := Nat

/-- The continuations that matter here; `other` is any of the rest. -/
inductive Cont where
  | sys_call
  | ret_user_sysexit
  | ret_xcpu_reply
  | xcpu_return
  | dead
  | other (n : Nat)
  deriving DecidableEq, Repr

/-- `Cpu_regs`; `exc` is the part that it has from `Exc_regs`, and `vmcs_state`
shares its memory with `vmcb_state`. -/
structure Regs (X : Type) where
  exc : X
  hzd : Nat
  vmcs_state : Option Id
  vtlb : Option Id
  tsc_offset : Nat
  tsc_aux : Nat
  mtd : Nat
  gst_xsv : Nat
  deriving DecidableEq, Repr

structure Ec (X : Type) where
  cont : Cont
  regs : Regs X
  rcap : Option Id
  utcb : Option Id
  fpu : Option Id
  cpu : Nat
  glb : Bool
  evt : Nat
  user_utcb : Nat
  xcpu_sm : Option Id
  pt_oom : Option Id
  deriving DecidableEq, Repr

structure Sc where
  cpu : Nat
  prio : Nat
  disable : Bool
  budget : Nat
  time : Nat
  time_m : Nat
  left : Nat
  tsc : Nat
  deriving DecidableEq, Repr

/-- What a system call returns with; `none` is that it goes on on the other CPU. -/
inductive Status where
  | BAD_PAR
  | COM_TIM
  deriving DecidableEq, Repr

/-- The caller `current`, which is the object `self`, and what belongs to it: `ref`
counts the references to the caller, `ptRef` those to its OOM portal, and `scRef`
those to `sc_xcpu`. -/
structure World (X : Type) where
  self : Id
  current : Ec X
  ref : Nat
  ptRef : Nat
  ec_xcpu : Option (Ec X)
  sc_xcpu : Option Sc
  scRef : Nat
  deriving DecidableEq, Repr

variable {X : Type}

/-- `Refcount::add_ref`: what it answers, and the count afterwards. -/
def add_ref (ref : Nat) : Bool × Nat := if ref = 0 then (false, 0) else (true, ref + 1)

def Regs.bare (r : Regs X) : Regs X := { r with vtlb := none, vmcs_state := none }

/-- `Ec::Ec` for the EC on CPU `c` that stands for `clone`, with continuation `f`. -/
def Ec.construct (f : Cont) (c : Nat) (self : Id) (clone : Ec X) (held heldPt : Bool) : Ec X where
  cont := f
  regs := clone.regs.bare
  rcap := if held then some self else none
  utcb := clone.utcb
  fpu := clone.fpu
  cpu := c
  glb := true
  evt := clone.evt
  user_utcb := 0
  xcpu_sm := clone.xcpu_sm
  pt_oom := if heldPt then clone.pt_oom else none

/-- `Sc::Sc` for an EC that stands for a caller on SC `x`. -/
def Sc.construct (c : Nat) (x : Sc) : Sc where
  cpu := c
  prio := if x.prio + 32 > 127 then 127 else x.prio + 32
  disable := false
  budget := x.budget
  time := 0
  time_m := 0
  left := x.left
  tsc := 0

def Ec.xcpu_clone (e : Ec X) (source : Ec X) (tcpu : Nat) : Ec X :=
  { e with
    cont := .sys_call
    cpu := tcpu
    regs := source.regs.bare
    utcb := source.utcb
    xcpu_sm := source.xcpu_sm }

def Sc.xcpu_clone (_ sc : Sc) (tcpu : Nat) : Sc where
  prio := sc.prio
  budget := sc.budget
  left := sc.left
  disable := false
  cpu := tcpu
  time := 0
  time_m := 0
  tsc := 0

/-- `Ec::xcpu_revert` on the EC that stands for `rcap`. -/
def Ec.xcpu_revert (e rcap : Ec X) : Ec X :=
  { e with
    fpu := if rcap.fpu = e.fpu then none else e.fpu
    utcb := none
    xcpu_sm := none
    cont := .dead }

namespace World

/-- `Ec::sys_xcpu_call` to a portal of an EC on `cpu`, behind the checks of the
portal, up to the call of `remote_enqueue`: `sc` is `Sc::current` and `sm` the new
semaphore.  Of the two references that `sc_xcpu` gets, the second is the one that
`remote_enqueue` takes. -/
def sys_xcpu_call (w : World X) (sc : Sc) (sm : Id) (cpu : Nat) : World X × Option Status :=
  let current := { w.current with xcpu_sm := some sm }
  match w.sc_xcpu with
  | none =>
    let (held, ref) := add_ref w.ref
    let (heldPt, ptRef) := add_ref w.ptRef
    let e := Ec.construct .sys_call cpu w.self current held heldPt
    if e.rcap = none then
      ({ w with current := { w.current with xcpu_sm := none }, ec_xcpu := none }, some .BAD_PAR)
    else
      ({ w with
          current := { current with cont := .ret_xcpu_reply }
          ref := ref
          ptRef := if w.current.pt_oom = none then w.ptRef else ptRef
          ec_xcpu := some e
          sc_xcpu := some (Sc.construct cpu sc)
          scRef := 3 }, none)
  | some s =>
    if w.scRef ≠ 1 then (w, some .COM_TIM)
    else
      ({ w with
          current := { current with cont := .ret_xcpu_reply }
          ec_xcpu := w.ec_xcpu.map fun e => e.xcpu_clone current cpu
          sc_xcpu := some (s.xcpu_clone sc cpu)
          scRef := w.scRef + 2 }, none)

/-- `Ec::xcpu_return`, on the other CPU: the registers go back to the caller, and
the SC loses two references. -/
def xcpu_return (w : World X) : World X :=
  match w.ec_xcpu with
  | none => w
  | some e =>
    { w with
      current :=
        { w.current with regs := { w.current.regs with exc := e.regs.exc, mtd := e.regs.mtd } }
      ec_xcpu := some (e.xcpu_revert w.current)
      scRef := w.scRef - 2 }

end World

/-- The calls of the caller, and what happens between them: the caller goes on with
other registers, another UTCB, another FPU state; so does the EC that stands for it;
and others take and drop references. -/
inductive Act (X : Type) where
  | call (sc : Sc) (sm : Id) (cpu : Nat)
  | caller (cont : Cont) (regs : Regs X) (utcb fpu xcpu_sm : Option Id) (cpu : Nat)
  | remote (cont : Cont) (regs : Regs X) (fpu : Option Id) (s : Sc)
  | xcpu_return
  | others (ref ptRef : Nat)
  deriving DecidableEq, Repr

def act : Act X → World X → World X
  | .call sc sm cpu, w => (w.sys_xcpu_call sc sm cpu).1
  | .caller cont regs utcb fpu xcpu_sm cpu, w =>
    { w with current := { w.current with cont, regs, utcb, fpu, xcpu_sm, cpu } }
  | .remote cont regs fpu s, w =>
    { w with
      ec_xcpu := w.ec_xcpu.map fun e => { e with cont, regs, fpu }
      sc_xcpu := w.sc_xcpu.map fun _ => s }
  | .xcpu_return, w => w.xcpu_return
  | .others ref ptRef, w => { w with ref, ptRef }

/-- The caller is there, and so is its OOM portal, whatever others do with theirs. -/
def Legal (w : World X) : Act X → Prop
  | .others ref ptRef => 0 < ref ∧ (w.current.pt_oom ≠ none → 0 < ptRef)
  | _ => True

instance (w : World X) (a : Act X) : Decidable (Legal w a) := by
  unfold Legal
  cases a <;> infer_instance

def after : List (Act X) → World X → World X
  | [], w => w
  | a :: run, w => after run (act a w)

def LegalRun : List (Act X) → World X → Prop
  | [], _ => True
  | a :: run, w => Legal w a ∧ LegalRun run (act a w)

instance legalRunDecidable : ∀ (run : List (Act X)) (w : World X), Decidable (LegalRun run w)
  | [], _ => isTrue trivial
  | a :: run, w =>
    have := legalRunDecidable run (act a w)
    inferInstanceAs (Decidable (_ ∧ _))

def World.Fresh (w : World X) : Prop :=
  w.ec_xcpu = none ∧ w.sc_xcpu = none ∧ 0 < w.ref ∧ (w.current.pt_oom ≠ none → 0 < w.ptRef)

instance (w : World X) [DecidableEq X] : Decidable w.Fresh := inferInstanceAs (Decidable (_ ∧ _))

/-- The same world, but without anything made by an earlier call. -/
def World.unmade (w : World X) : World X := { w with ec_xcpu := none, sc_xcpu := none }

/-- What stands for the caller stays its own. -/
structure Kept (w : World X) : Prop where
  ref : 0 < w.ref
  ptRef : w.current.pt_oom ≠ none → 0 < w.ptRef
  both : w.ec_xcpu.isSome = w.sc_xcpu.isSome
  mine : ∀ e, w.ec_xcpu = some e → e.rcap = some w.self ∧ e.pt_oom = w.current.pt_oom ∧
    e.evt = w.current.evt ∧ e.glb = true ∧ e.user_utcb = 0

theorem Kept.of_fresh {w : World X} (h : w.Fresh) : Kept w where
  ref := h.2.2.1
  ptRef := h.2.2.2
  both := by rw [h.1, h.2.1]; rfl
  mine e he := by simp [h.1] at he

namespace Kept

variable {w : World X} {sc : Sc} {sm : Id} {cpu : Nat}

theorem first (h : Kept w) (hs : w.sc_xcpu = none) :
    w.sys_xcpu_call sc sm cpu =
      ({ w with
          current := { w.current with xcpu_sm := some sm, cont := .ret_xcpu_reply }
          ref := w.ref + 1
          ptRef := if w.current.pt_oom = none then w.ptRef else w.ptRef + 1
          ec_xcpu := some
            { Ec.construct .sys_call cpu w.self { w.current with xcpu_sm := some sm } true true with
              pt_oom := w.current.pt_oom }
          sc_xcpu := some (Sc.construct cpu sc)
          scRef := 3 }, none) := by
  have href : w.ref ≠ 0 := h.ref.ne'
  unfold World.sys_xcpu_call
  rw [hs]
  cases hp : w.current.pt_oom with
  | none => simp [add_ref, href, Ec.construct, hp]
  | some p =>
    have hpt : w.ptRef ≠ 0 := (h.ptRef (by simp [hp])).ne'
    simp [add_ref, href, hpt, Ec.construct, hp]

theorem call (h : Kept w) : Kept (w.sys_xcpu_call sc sm cpu).1 := by
  cases hs : w.sc_xcpu with
  | none =>
    rw [h.first hs]
    constructor
    case ref => exact Nat.succ_pos _
    case ptRef =>
      intro hp
      have hp' : w.current.pt_oom ≠ none := hp
      dsimp only
      rw [if_neg hp']
      exact Nat.succ_pos _
    case both => rfl
    case mine =>
      intro e he
      obtain rfl := Option.some.inj he
      exact ⟨rfl, rfl, rfl, rfl, rfl⟩
  | some s =>
    unfold World.sys_xcpu_call
    rw [hs]
    dsimp only
    split
    · exact h
    · constructor
      case ref => exact h.ref
      case ptRef => exact h.ptRef
      case both => simpa [hs] using h.both
      case mine =>
        intro e he
        obtain ⟨e, hold, rfl⟩ := Option.map_eq_some_iff.mp he
        exact h.mine e hold

theorem xcpu_return (h : Kept w) : Kept w.xcpu_return := by
  unfold World.xcpu_return
  cases hold : w.ec_xcpu with
  | none => exact h
  | some e =>
    constructor
    case ref => exact h.ref
    case ptRef => exact h.ptRef
    case both => simpa [hold] using h.both
    case mine =>
      intro e' he
      obtain rfl := Option.some.inj he
      exact h.mine e hold

theorem act {a : Act X} (h : Kept w) (hl : Legal w a) : Kept (act a w) := by
  cases a with
  | call sc sm cpu => exact h.call
  | caller cont regs utcb fpu xcpu_sm cpu => exact ⟨h.ref, h.ptRef, h.both, h.mine⟩
  | remote cont regs fpu s =>
    constructor
    case ref => exact h.ref
    case ptRef => exact h.ptRef
    case both => simpa [Xcpu.act] using h.both
    case mine =>
      intro e he
      obtain ⟨e, hold, rfl⟩ := Option.map_eq_some_iff.mp he
      exact h.mine e hold
  | xcpu_return => exact h.xcpu_return
  | others ref ptRef => exact ⟨hl.1, hl.2, h.both, h.mine⟩

theorem after {run : List (Act X)} (h : Kept w) (hr : LegalRun run w) : Kept (after run w) := by
  induction run generalizing w with
  | nil => exact h
  | cons a run ih => exact ih (h.act hr.1) hr.2

end Kept

theorem xcpu_clone_eq_iff (s sc : Sc) (c : Nat) : s.xcpu_clone sc c = Sc.construct c sc ↔ sc.prio = 127 := by
  simp only [Sc.xcpu_clone, Sc.construct, Sc.mk.injEq, true_and, and_true]
  split <;> omega

/-- A call that uses the EC and the SC of an earlier one leaves them as the first
call would make them if and only if the caller has the highest priority, and the
FPU state that has been left in the EC is still the one of the caller. -/
theorem reused_eq_made_iff {w : World X} {run : List (Act X)} {e : Ec X} (h : w.Fresh) (hr : LegalRun run w)
    (he : (after run w).ec_xcpu = some e) (hlast : (after run w).scRef = 1) (sc : Sc) (sm : Id) (cpu : Nat) :
    ((after run w).sys_xcpu_call sc sm cpu).1.ec_xcpu =
          ((after run w).unmade.sys_xcpu_call sc sm cpu).1.ec_xcpu ∧
        ((after run w).sys_xcpu_call sc sm cpu).1.sc_xcpu =
          ((after run w).unmade.sys_xcpu_call sc sm cpu).1.sc_xcpu ↔
      sc.prio = 127 ∧ e.fpu = (after run w).current.fpu := by
  have hk : Kept (after run w) := (Kept.of_fresh h).after hr
  generalize after run w = v at *
  have hv : Kept v.unmade := ⟨hk.ref, hk.ptRef, rfl, fun e he => by simp [World.unmade] at he⟩
  obtain ⟨s, hs⟩ : ∃ s, v.sc_xcpu = some s := by
    rw [← Option.isSome_iff_exists, ← hk.both, he]
    rfl
  obtain ⟨hrcap, hpt, hevt, hglb, huser⟩ := hk.mine e he
  have hreused : v.sys_xcpu_call sc sm cpu =
      ({ v with
          current := { v.current with xcpu_sm := some sm, cont := .ret_xcpu_reply }
          ec_xcpu := some (e.xcpu_clone { v.current with xcpu_sm := some sm } cpu)
          sc_xcpu := some (s.xcpu_clone sc cpu)
          scRef := v.scRef + 2 }, none) := by
    simp [World.sys_xcpu_call, hs, he, hlast]
  rw [hv.first rfl, hreused]
  simp only [Option.some.injEq, xcpu_clone_eq_iff]
  rw [and_comm]
  refine and_congr_right fun _ => ⟨fun hec => ?_, fun hfpu => ?_⟩
  · have hfpu : (e.xcpu_clone { v.current with xcpu_sm := some sm } cpu).fpu = v.current.fpu := by
      rw [hec]
      rfl
    exact hfpu
  · simp [Ec.xcpu_clone, Ec.construct, World.unmade, hrcap, hpt, hevt, hglb, huser, hfpu]

section Example

/-- A caller with an FPU state and a portal for the case of no memory. -/
def caller : World Unit :=
  { self := 1
    current := ⟨.sys_call, ⟨(), 0, none, none, 0, 0, 0, 0⟩, none, some 2, some 3, 0, false, 0, 4096, none, some 4⟩
    ref := 1
    ptRef := 1
    ec_xcpu := none
    sc_xcpu := none
    scRef := 0 }

def sc (prio : Nat) : Sc := ⟨0, prio, false, 10000, 0, 0, 500, 0⟩

/-- A call and its return; from then on the caller has no FPU state. -/
def onceCalled : List (Act Unit) :=
  [.call (sc 127) 5 1, .xcpu_return,
    .caller .sys_call ⟨(), 0, none, none, 0, 0, 0, 0⟩ (some 2) none none 0]

theorem reused_eq_made_onceCalled :
    ((after onceCalled caller).sys_xcpu_call (sc 127) 6 1).1.ec_xcpu =
          ((after onceCalled caller).unmade.sys_xcpu_call (sc 127) 6 1).1.ec_xcpu ∧
        ((after onceCalled caller).sys_xcpu_call (sc 127) 6 1).1.sc_xcpu =
          ((after onceCalled caller).unmade.sys_xcpu_call (sc 127) 6 1).1.sc_xcpu ↔
      (sc 127).prio = 127 ∧ none = (after onceCalled caller).current.fpu :=
  reused_eq_made_iff (e := { (Ec.construct .sys_call 1 1 caller.current true true) with
      fpu := none, utcb := none, xcpu_sm := none, cont := .dead })
    (by decide) (by decide) rfl rfl (sc 127) 6 1

/-- The second call of a caller with priority 1 that has kept its FPU state. -/
theorem secondCall_differs :
    LegalRun [.call (sc 1) 5 1, .xcpu_return] caller ∧
      ∃ made reused,
        ((after [.call (sc 1) 5 1, .xcpu_return] caller).unmade.sys_xcpu_call (sc 1) 6 1).1 = made ∧
          ((after [.call (sc 1) 5 1, .xcpu_return] caller).sys_xcpu_call (sc 1) 6 1) = (reused, none) ∧
          made.sc_xcpu.map Sc.prio = some 33 ∧ reused.sc_xcpu.map Sc.prio = some 1 ∧
          made.ec_xcpu.map Ec.fpu = some (some 3) ∧ reused.ec_xcpu.map Ec.fpu = some none :=
  ⟨by decide, _, _, rfl, rfl, by decide, by decide, by decide, by decide⟩

end Example

end Tukija.Xcpu
