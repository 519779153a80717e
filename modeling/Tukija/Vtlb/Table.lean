import Tukija.Lib.Word

/-! The shadow page table of a vCPU, as `Vtlb` keeps it on a processor of 64 bits. -/
namespace Tukija.Vtlb

open Tukija.Lib.Word

/-- `1UL << n`. -/
abbrev bit (n : Nat) : Mword := BitVec.twoPow 64 n

def tlbP : Nat := 0
def tlbW : Nat := 1
def tlbU : Nat := 2
def tlbUc : Nat := 4
def tlbA : Nat := 5
def tlbD : Nat := 6
def tlbS : Nat := 7
def tlbG : Nat := 8
def tlbF : Nat := 9
def tlbM : Nat := 10

/-- Where a translation comes from.  The code does not keep this. -/
structure Origin where
  time : Nat
  /-- The guest's page has `2 ^ shift` bytes. -/
  shift : Nat
  deriving DecidableEq

/-- An entry: one with `TLB_S`, or on the lowest level, or one with a table behind it. -/
inductive Tlb where
  | leaf (val : Mword) (origin : Origin)
  | dir (val : Mword) (tab : Nat → Tlb)

abbrev Table := Nat → Tlb

structure Hit where
  shift : Nat
  val : Mword
  origin : Origin
  deriving DecidableEq

namespace Tlb

def val : Tlb → Mword
  | leaf v _ => v
  | dir v _ => v

def mapVal (f : Mword → Mword) : Tlb → Tlb
  | leaf v o => leaf (f v) o
  | dir v tab => dir (f v) tab

def present (e : Tlb) : Bool := e.val.getLsbD tlbP

/-- `e->val |= TLB_M; e->val &= ~TLB_P`. -/
def drop (e : Tlb) : Tlb := e.mapVal fun v => (v ||| bit tlbM) &&& ~~~bit tlbP

end Tlb

def index (virt : Mword) (lev : Nat) : Nat := (virt >>> (lev * 9 + 12) &&& 0x1ff).toNat

/-- `Vtlb::Vtlb`. -/
def blank : Table := fun _ => .leaf (bit tlbS) ⟨0, 12⟩

/-- What `Vtlb::flush_ptab` does to the value of an entry. -/
def quench (full : Bool) (v : Mword) : Mword :=
  if !v.getLsbD tlbP then v
  else if full then (v ||| bit tlbM) &&& ~~~bit tlbP
  else if v.getLsbD tlbM then v
  else v &&& ~~~bit tlbP

def flushPtab (full : Bool) (t : Table) : Table := fun i => (t i).mapVal (quench full)

/-- The end of `Vtlb::flush` at an entry: one that is not present is left as it is. -/
def dropAt (i : Nat) (t : Table) : Table := if (t i).present then Function.update t i (t i).drop else t

/-- `Vtlb::flush` for an address, from a table on level `lev` on. -/
def flushPage (virt : Mword) : Nat → Table → Table
  | 0, t => dropAt (index virt 0) t
  | lev + 1, t =>
    let i := index virt (lev + 1)
    match t i with
    | .leaf _ _ => dropAt i t
    | .dir v tab =>
      if v.getLsbD tlbP && !v.getLsbD tlbF then Function.update t i (.dir v (flushPage virt lev tab))
      else dropAt i t

/-- `~((1UL << shift) - 1)`. -/
def frameMask (shift : Nat) : Mword := ~~~(bit shift - 1)

/-- The table behind an entry, as `Vtlb::miss` makes it on its way: an entry that is not
present may have a table that has yet to be flushed. -/
def behind (v : Mword) (tab : Table) : Table := if v.getLsbD tlbP then tab else flushPtab (v.getLsbD tlbM) tab

/-- The value of an entry that leads to a table and the table, as `Vtlb::miss` makes them. -/
def enter (lev : Nat) : Tlb → Mword × Table
  | .leaf _ _ =>
    ((if lev = 2 then 0 else bit tlbA ||| bit tlbU ||| bit tlbW) ||| bit tlbM ||| bit tlbP, blank)
  | .dir v tab => (if v.getLsbD tlbP then v else v ||| bit tlbM ||| bit tlbP, behind v tab)

/-- The loop of `Vtlb::miss` from a table on level `lev` on. -/
def fill (virt size host attr : Mword) (o : Origin) : Nat → Table → Table
  | 0, t =>
    Function.update t (index virt 0)
      (.leaf ((host &&& frameMask 12) ||| attr ||| bit tlbD ||| bit tlbA) o)
  | lev + 1, t =>
    let shift := (lev + 1) * 9 + 12
    let i := index virt (lev + 1)
    if lev + 1 = 2 ∨ size < bit shift then
      let (v, tab) := enter (lev + 1) (t i)
      Function.update t i
        (.dir ((v &&& (attr ||| ~~~bit tlbM)) ||| (attr &&& bit tlbF)) (fill virt size host attr o lev tab))
    else
      Function.update t i
        (.leaf ((host &&& frameMask shift) ||| (attr ||| bit tlbS) ||| bit tlbD ||| bit tlbA) o)

/-- What the processor finds in an entry that ends its walk on level `lev`. -/
def hit (lev : Nat) (v : Mword) (o : Origin) : Option Hit :=
  if v.getLsbD tlbP then some ⟨lev * 9 + 12, v, o⟩ else none

/-- The walk of the processor from a table on level `lev` on. -/
def walk (virt : Mword) : Nat → Table → Option Hit
  | 0, t =>
    match t (index virt 0) with
    | .leaf v o => hit 0 v o
    | .dir _ _ => none
  | lev + 1, t =>
    match t (index virt (lev + 1)) with
    | .leaf v o => hit (lev + 1) v o
    | .dir v tab => if v.getLsbD tlbP then walk virt lev tab else none

/-- What a walk can come to find without a new translation for the address: `Vtlb::miss`
makes the tables on its way present again. -/
def latent (virt : Mword) : Nat → Table → Option Hit
  | 0, t =>
    match t (index virt 0) with
    | .leaf v o => hit 0 v o
    | .dir _ _ => none
  | lev + 1, t =>
    match t (index virt (lev + 1)) with
    | .leaf v o => hit (lev + 1) v o
    | .dir v tab => latent virt lev (behind v tab)

end Tukija.Vtlb
