import Tukija.Lib.Checked

/-! `Quota` and `Quota_guard`: the accounts that kernel memory is charged to.  A
function that takes two locks in turn is split where it lets go of the first:
what it moves is on its way in between. -/
namespace Tukija.Kmem

open Tukija.Lib.Word Tukija.Lib.Checked

/-- Pages in use, pages freed here that were charged elsewhere (`over` in the
source), the limit, and the part of it that is not for transfer. -/
structure Quota where
  used : Mword
  ovr : Mword
  upli : Mword
  notr : Mword
  deriving DecidableEq

/-- `Quota::Quota`. -/
def Quota.zero : Quota := ⟨0, 0, 0, 0⟩

namespace Quota

def alloc (p : Mword) (q : Quota) : Calc Quota := do
  let used ← add q.used p
  return { q with used := used }

def free (p : Mword) (q : Quota) : Calc Quota :=
  if p ≤ q.used then do
    let used ← sub q.used p
    return { q with used := used }
  else do
    let d ← sub p q.used
    let ovr ← add q.ovr d
    let upli ← add q.upli d
    return { q with ovr := ovr, upli := upli, used := 0 }

def hitLimit (freeSpace : Mword) (q : Quota) : Calc Bool :=
  if q.upli < freeSpace then pure true
  else do
    let room ← sub q.upli freeSpace
    return decide (room < q.used)

/-- `Quota::transfer_to` on the account that gives: refused, or the account
with the amount taken out and the part of `over` that goes along. -/
def transferOut (transfer : Mword) (checkNotr : Bool) (q : Quota) : Calc (Option (Quota × Mword)) := do
  let hit ← q.hitLimit 0
  if hit then return none
  else
    let notForTransfer := if checkNotr then q.notr else 0
    let need ← add q.used transfer
    let room ← sub q.upli notForTransfer
    if room < need then return none
    else
      let upli ← sub q.upli transfer
      let o := wmin q.ovr transfer
      let ovr ← sub q.ovr o
      return some ({ q with upli := upli, ovr := ovr }, o)

/-- `Quota::transfer_to` on the account that gets the amount. -/
def transferIn (transfer o : Mword) (q : Quota) : Calc Quota := do
  let upli ← add q.upli transfer
  if q.used ≠ 0 ∧ o ≠ 0 then
    let u := wmin q.used o
    let used ← sub q.used u
    let upli ← sub upli u
    let d ← sub o u
    let ovr ← add q.ovr d
    return { q with used := used, upli := upli, ovr := ovr }
  else return { q with upli := upli }

/-- `Quota::free_up` on the account that is closed. -/
def freeUpOut (q : Quota) : Quota := { q with upli := 0, ovr := 0, used := 0 }

/-- `Quota::free_up` on the account that gets everything. -/
def freeUpIn (l u o : Mword) (q : Quota) : Calc Quota := do
  let used ← add q.used u
  let upli ← add q.upli l
  let ovr ← add q.ovr o
  if ovr ≠ 0 ∧ used ≠ 0 then
    let s := wmin used ovr
    let used ← sub used s
    let ovr ← sub ovr s
    let upli ← sub upli s
    return { q with used := used, ovr := ovr, upli := upli }
  else return { q with used := used, ovr := ovr, upli := upli }

/-- `Quota_guard::check` up to its transfer: nothing to do, or the amount to ask
for. -/
def checkReq (req : Mword) (q : Quota) : Calc (Option Mword) := do
  let hit ← q.hitLimit req
  if !hit then return none
  else if q.upli ≤ q.used then
    let d ← sub q.used q.upli
    let req ← add req d
    return some req
  else
    let d ← sub q.upli q.used
    let req ← sub req d
    return some req

end Quota

/-- What is on its way to the account `dst`. -/
inductive Parcel (ι : Type) where
  | transfer (dst : ι) (amount o : Mword)
  | freeUp (dst : ι) (l u o : Mword)
  deriving DecidableEq

/-- The accounts and what is on its way; `wrapped` tells whether a computation
has wrapped around so far. -/
structure Books (ι : Type) where
  quota : ι → Quota
  parcels : List (Parcel ι)
  wrapped : Bool

/-- The steps: a function of `Quota` or a half of one.  `transfer` and `check`
of `Quota_guard` end with a parcel on its way, `setNotr` is the end of
`set_limit`. -/
inductive Op (ι : Type) where
  | alloc (i : ι) (p : Mword)
  | free (i : ι) (p : Mword)
  | transfer (src dst : ι) (amount : Mword) (checkNotr : Bool)
  | setNotr (i : ι) (l : Mword)
  | check (guard ref : ι) (req : Mword)
  | freeUp (src dst : ι)
  | deliver (n : Nat)

variable {ι : Type} [DecidableEq ι]

namespace Books

def start : Books ι := ⟨fun _ => .zero, [], false⟩

def put (s : Books ι) (i : ι) (c : Calc Quota) : Books ι :=
  { s with quota := Function.update s.quota i c.val, wrapped := s.wrapped || c.wraps }

def note (s : Books ι) (w : Bool) : Books ι := { s with wrapped := s.wrapped || w }

def send (s : Books ι) (src dst : ι) (amount : Mword) (checkNotr : Bool) : Books ι :=
  let c := (s.quota src).transferOut amount checkNotr
  match c.val with
  | none => s.note c.wraps
  | some (q, o) =>
    { s with
      quota := Function.update s.quota src q
      parcels := .transfer dst amount o :: s.parcels
      wrapped := s.wrapped || c.wraps }

end Books

def exec (op : Op ι) (s : Books ι) : Books ι :=
  match op with
  | .alloc i p => s.put i ((s.quota i).alloc p)
  | .free i p => s.put i ((s.quota i).free p)
  | .transfer src dst amount checkNotr => s.send src dst amount checkNotr
  | .setNotr i l => { s with quota := Function.update s.quota i { s.quota i with notr := l } }
  | .check guard ref req =>
    let c := (s.quota guard).checkReq req
    match c.val with
    | none => s.note c.wraps
    | some req => (s.note c.wraps).send ref guard req false
  | .freeUp src dst =>
    let q := s.quota src
    { s with
      quota := Function.update s.quota src q.freeUpOut
      parcels := .freeUp dst q.upli q.used q.ovr :: s.parcels }
  | .deliver n =>
    match s.parcels[n]? with
    | none => s
    | some (.transfer dst amount o) =>
      { s with parcels := s.parcels.eraseIdx n }.put dst ((s.quota dst).transferIn amount o)
    | some (.freeUp dst l u o) =>
      { s with parcels := s.parcels.eraseIdx n }.put dst ((s.quota dst).freeUpIn l u o)

def run (ops : List (Op ι)) (s : Books ι) : Books ι := ops.foldl (fun s op => exec op s) s

end Tukija.Kmem
