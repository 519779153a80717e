import Tukija.Pte.Table
import Tukija.Vtlb.Table

/-! `Vtlb::miss`: the guest's page tables, then the host's. -/
namespace Tukija.Vtlb

open Tukija.Lib.Word Tukija.Pte

/-- The registers as the guest sees them: `cr0_shadow`, `cr3_shadow` and `cr4_shadow`. -/
structure Regs where
  cr0 : Mword
  cr3 : Mword
  cr4 : Mword
  deriving DecidableEq

namespace Regs

def wp (r : Regs) : Bool := r.cr0.getLsbD 16

def pg (r : Regs) : Bool := r.cr0.getLsbD 31

def pse (r : Regs) : Bool := r.cr4.getLsbD 4

def pae (r : Regs) : Bool := r.cr4.getLsbD 5

def pge (r : Regs) : Bool := r.cr4.getLsbD 7

end Regs

/-- The guest's memory, by the addresses of its words, as far as the kernel can read it. -/
structure Guest where
  peek : Mword → Option (BitVec 32)
  writable : Mword → Bool

namespace Guest

def cmpSwap (g : Guest) (addr : Mword) (old new : BitVec 32) : Guest :=
  if g.peek addr = some old ∧ g.writable addr then
    { g with peek := Function.update g.peek addr (some new) }
  else g

def markPte (g : Guest) (pte : Mword) (old bits : BitVec 32) : Guest :=
  if old &&& bits = bits then g else g.cmpSwap pte old (old ||| bits)

end Guest

def errP : Mword := 1
def errW : Mword := 2
def errU : Mword := 4

/-- What `Vtlb::gwalk` returns and leaves. -/
structure Walked where
  size : Mword
  gpa : Mword
  attr : Mword
  error : Mword
  guest : Guest

def entryAt (gla : Mword) (lev : Nat) (base : Mword) : Mword := base + 4 * (gla >>> (lev * 10 + 12) &&& 0x3ff)

/-- `e & ~PAGE_MASK`. -/
def frameOf (e : BitVec 32) : Mword := e.setWidth 64 &&& frameMask 12

section Gwalk

variable (r : Regs) (gla : Mword)

/-- Without `CR0_WP`, the guest's kernel may write everywhere; its programs must not find
that translation. -/
def grant (attr error : Mword) : Mword :=
  if !r.wp && error == errW then (attr &&& ~~~bit tlbU) ||| bit tlbW else attr

/-- A page that is not dirty can be written only after another miss. -/
def lend (e : BitVec 32) (attr error : Mword) : Mword :=
  if !error.getLsbD tlbW && !e.getLsbD tlbD then attr &&& ~~~bit tlbW else attr

def adopt (e : BitVec 32) (attr : Mword) : Mword :=
  let attr := attr ||| (e.setWidth 64 &&& bit tlbUc)
  if r.pge && e.getLsbD tlbG then attr ||| bit tlbM else attr

/-- The end of the loop of `Vtlb::gwalk`, at the entry `e` that `pte` points to. -/
def finish (lev : Nat) (pte : Mword) (e : BitVec 32) (attr error : Mword) (g : Guest) : Walked :=
  let attr := grant r attr error
  if attr &&& error ≠ error then ⟨0, 0, attr, error ||| errP, g⟩
  else
    let attr := lend e attr error
    let size := bit (lev * 10 + 12)
    ⟨size, frameOf e ||| (gla &&& (size - 1)), adopt r e attr, error,
      g.markPte pte e (((attr &&& 3) <<< 5).setWidth 32)⟩

/-- The loop of `Vtlb::gwalk`, where `lev` has been decremented. -/
def scan (error : Mword) : Nat → Mword → Mword → Guest → Walked
  | lev, base, attr, g =>
    let pte := entryAt gla lev base
    match g.peek pte with
    | none => ⟨ones, pte, attr, error, g⟩
    | some e =>
      if !e.getLsbD tlbP then ⟨0, 0, attr, error, g⟩
      else
        let attr := attr &&& (e.setWidth 64 &&& 0xfff)
        match lev with
        | 0 => finish r gla 0 pte e attr error g
        | lev + 1 =>
          if !(r.pse || r.pae) || !e.getLsbD tlbS then
            scan error lev (frameOf e) attr (g.markPte pte e (BitVec.twoPow 32 tlbA))
          else finish r gla (lev + 1) pte e attr error g

def gwalk (attr error : Mword) (g : Guest) : Walked :=
  if !r.pg then ⟨ones, gla, attr, error, g⟩
  else scan r gla error 1 (r.cr3 &&& frameMask 12) attr g

end Gwalk

/-- What `Vtlb::hwalk` returns. -/
structure Hosted where
  size : Mword
  hpa : Mword
  attr : Mword
  error : Mword
  deriving DecidableEq

def eptR : Nat := 0
def eptW : Nat := 1

def limit (a attr : Mword) : Mword := if !a.getLsbD eptW then attr &&& ~~~bit tlbW else attr

def hwalk (ept : Mem Format.ept) (gpa attr error : Mword) : Hosted :=
  match ept.lookup gpa 4 .root with
  | none => ⟨0, 0, attr, error⟩
  | some f =>
    let attr := limit f.a attr
    if attr &&& error ≠ error then
      ⟨0, f.p, attr, (f.a &&& 7) <<< 3 ||| (if error.getLsbD tlbW then 2 else 1)⟩
    else ⟨f.size, f.p, attr, error⟩

inductive Reason where
  | success
  | glaGpa
  | gpaHpa
  deriving DecidableEq

/-- What `Vtlb::miss` returns and leaves: `nst` holds `nst_fault` and `nst_error`. -/
structure Missed where
  reason : Reason
  error : Mword
  vtlb : Table
  guest : Guest
  nst : Option (Mword × Mword)

/-- The guest's page, told by the size that `Vtlb::gwalk` returns. -/
def pageShift (size : Mword) : Nat := if size = bit 22 then 22 else 12

def miss (r : Regs) (g : Guest) (ept : Mem Format.ept) (time : Nat) (virt error : Mword) (t : Table) : Missed :=
  let error := error &&& (errU ||| errW)
  let w := gwalk r virt (bit tlbU ||| bit tlbW ||| bit tlbP) error g
  if w.size = 0 then ⟨.glaGpa, w.error, t, w.guest, none⟩
  else
    let h := hwalk ept w.gpa w.attr w.error
    if h.size = 0 then ⟨.gpaHpa, h.error, t, w.guest, some (w.gpa, h.error)⟩
    else
      let size := wmin w.size h.size
      let attr := if h.size < w.size then h.attr ||| bit tlbF else h.attr
      ⟨.success, h.error, fill virt size h.hpa attr ⟨time, pageShift w.size⟩ 2 t, w.guest, none⟩

end Tukija.Vtlb
