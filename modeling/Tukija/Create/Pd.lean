import Tukija.Kmem.Quota
import Tukija.Pd.Teardown
import Tukija.Slabs.Runs

/-! `sys_create_pd`: a protection domain is made of the memory of the one that
asks for it, and gets a limit out of the quota of a donor. -/
namespace Tukija.Create

open Tukija.Lib.Word Tukija.Mapdb Tukija.Pd

/-- What the spaces share: the quota of each protection domain, the number of
pages that its tables and caches hold, and the cache that the domains are made
in.  The slots and the page tables are a part of `rest`. -/
structure Store (ρ : Type) where
  quota : PdId → Kmem.Quota
  holds : PdId → Nat
  cache : Slabs.Cache
  rest : ρ

inductive Stop where
  | fuel
  | fault (f : Slabs.Fault)

def liftFuel {α : Type} : Option α → Except Stop α
  | none => .error .fuel
  | some a => .ok a

def liftFault {α : Type} : Except Slabs.Fault α → Except Stop α
  | .error f => .error (.fault f)
  | .ok a => .ok a

inductive Status where
  | success
  | badCap
  | badPar
  | quoOom
  deriving DecidableEq, Repr

/-- A capability for a protection domain, in a slot of the caller. -/
structure Cap where
  pd : PdId
  val : Mword

def Cap.prm (c : Cap) : Mword := c.val &&& 0x1f

/-- `Sys_create_pd`. -/
structure Args where
  sel : Mword
  pd : Mword
  crd : Crd
  limits : Mword

def Args.limitLower (r : Args) : Mword := r.limits &&& 0xffffffff
def Args.limitUpper (r : Args) : Mword := shr r.limits 32

/-- The spaces as the caller `cur` finds them, with the domains that its slots
refer to.  The next domain is made at `next` and the next slab at `page`, where
nothing is yet; `tip` is the frame of the topology pages. -/
structure Kernel (ρ : Type) where
  spaces : Spaces (Store ρ)
  cur : PdId
  caps : Mword → Option Cap
  next : PdId
  page : Slabs.SlabId
  tip : Mword
  cur_ne : cur ≠ next
  caps_ne : ∀ i c, caps i = some c → c.pd ≠ next
  next_free : spaces.mem.tree next = [] ∧ spaces.pio.tree next = [] ∧ spaces.obj.tree next = []
  page_free : page ∉ spaces.obj.space.cache.pages
  elem_pos : 1 ≤ spaces.obj.space.cache.elem
  cache : ∃ A B, spaces.obj.space.cache.Lists A B
  wf : Wf spaces.obj

def modify {σ : Type} (f : σ → σ) (s : Spaces σ) : Spaces σ := s.setObj { s.obj with space := f s.obj.space }

def embedded {σ : Type} (S : SpaceOps σ) : SpaceOps σ :=
  { S with alloc := fun _ s => s, destroy := fun _ s => s }

namespace Store

variable {ρ : Type} (x : Store ρ)

def setQuota (pd : PdId) (q : Kmem.Quota) : Store ρ := { x with quota := Function.update x.quota pd q }

/-- `Buddy::alloc` of a page. -/
def charge (pd : PdId) : Store ρ := x.setQuota pd ((x.quota pd).alloc 1).val

/-- `Buddy::free` of a page. -/
def refund (pd : PdId) : Store ρ := x.setQuota pd ((x.quota pd).free 1).val

/-- `new (Pd::current->quota) Pd (Pd::current, ..)`. -/
def newPd (cur pd : PdId) (page : Slabs.SlabId) : Except Slabs.Fault (Slabs.Obj × Store ρ) :=
  (x.cache.alloc page).map fun (o, c, grows) =>
    let x := { x with cache := c }
    let x := if grows then x.charge cur else x
    (o, { x.setQuota pd .zero with holds := Function.update x.holds pd 0 })

def setLimit (pd donor : PdId) (l h : Mword) : Option (Store ρ) :=
  match ((x.quota donor).transferOut h true).val with
  | none => none
  | some (q, o) =>
    let x := x.setQuota donor q
    some (x.setQuota pd { ((x.quota pd).transferIn h o).val with notr := l })

/-- What `Pd::~Pd` does once nothing is delegated any more: the pages of the
tables and of the caches go back. -/
def clear (pd : PdId) : Store ρ :=
  { (fun x => x.refund pd)^[x.holds pd] x with holds := Function.update x.holds pd 0 }

def freeUp (pd recv : PdId) : Store ρ :=
  let q := x.quota pd
  let x := x.setQuota pd q.freeUpOut
  x.setQuota recv ((x.quota recv).freeUpIn q.upli q.used q.ovr).val

/-- `Pd::operator delete`. -/
def deletePd (pd recv : PdId) (o : Slabs.Obj) : Except Slabs.Fault (Store ρ) :=
  let x := x.freeUp pd recv
  (x.cache.free o).map fun (c, gone) =>
    let x := { x with cache := c }
    if gone then x.refund recv else x

end Store

section Call

variable {ρ : Type} (M P O : SpaceOps (Store ρ)) (fuel : Nat)

/-- `delete pd`. -/
def delete (pd cur : PdId) (o : Slabs.Obj) (s : Spaces (Store ρ)) : Except Stop (Spaces (Store ρ)) := do
  let s ← liftFuel (preFree M P O fuel pd s)
  let x ← liftFault ((s.obj.space.clear pd).deletePd pd cur o)
  return modify (fun _ => x) s

/-- `Space_obj::insert_root` for the domain `pd`. -/
def insertPd (cur pd : PdId) (sel attr : Mword) (st : State (Store ρ)) : State (Store ρ) × Bool :=
  let (st', ok) := insertRoot (embedded O) cur (BitVec.ofNat 64 pd) sel 0 attr 0 st
  if ok && cur != kern then ((st'.update O st.fresh 0).1, true) else (st', ok)

/-- `Cpu::hazard &= ~HZD_OOM`. -/
def clearOom (s : Spaces (Store ρ)) : Spaces (Store ρ) := s.setObj { s.obj with oom := false }

/-- `Pd::del_crd` and `Tip::delegate_to_userspace` for the new domain. -/
def populate (cur pd : PdId) (crd : Crd) (tip : Mword) (s : Spaces (Store ρ)) : Option (Spaces (Store ρ)) := do
  let (s, _) ← delCrd M P O fuel pd cur (Crd.ofType Crd.OBJ) crd 0 0 s
  let t ← execAll M fuel (delegateToUserspace kern pd tip) s.mem
  return s.setMem t

def sysCreatePd (k : Kernel ρ) (r : Args) : Except Stop (Status × Spaces (Store ρ)) := do
  let s := k.spaces
  let pd := k.next
  if ((s.obj.space.quota k.cur).hitLimit 0).val then return (.quoOom, s)
  match k.caps r.pd with
  | none => return (.badCap, s)
  | some cap =>
    if cap.prm &&& 1 = 0 then return (.badCap, s)
    if r.limitUpper < r.limitLower then return (.badPar, s)
    if ((s.obj.space.quota cap.pd).hitLimit 1).val then return (.quoOom, s)
    let (o, x) ← liftFault (s.obj.space.newPd k.cur pd k.page)
    match x.setLimit pd cap.pd r.limitLower r.limitUpper with
    | none => return (.badPar, ← delete M P O fuel pd k.cur o (modify (fun _ => x) s))
    | some x =>
      let s := modify (fun _ => x) s
      let (t, ok) := insertPd O k.cur pd r.sel cap.prm s.obj
      let s := s.setObj t
      if !ok then return (.badCap, ← delete M P O fuel pd k.cur o s)
      if s.obj.oom then return (.quoOom, ← delete M P O fuel pd k.cur o (clearOom s))
      let s ← liftFuel (populate M P O fuel k.cur pd r.crd k.tip s)
      if s.obj.oom then return (.quoOom, ← delete M P O fuel pd k.cur o (clearOom s))
      return (.success, s)

end Call

end Tukija.Create
