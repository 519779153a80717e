import Tukija.Pd.Delegate
import Tukija.Pd.Revoke
import Tukija.Pd.Root

/-! Capability range descriptors, and the operations of a protection domain
that take them apart and hand them to one of its three spaces. -/
namespace Tukija.Pd

open Tukija.Lib.Word Tukija.Mapdb

variable {σ : Type}

/-- `Crd`: base, order, rights and type packed into a word. -/
structure Crd where
  val : Mword
  deriving DecidableEq

namespace Crd

def MEM : Mword := 1
def PIO : Mword := 2
def OBJ : Mword := 3

def make (t b o a : Mword) : Crd := ⟨shl b 12 ||| shl o 7 ||| shl a 2 ||| t⟩

def ofType (t : Mword) : Crd := make t 0 0x1f 0x1f

def type (c : Crd) : Mword := c.val &&& 0x3
def attr (c : Crd) : Mword := shr c.val 2 &&& 0x1f
def order (c : Crd) : Mword := shr c.val 7 &&& 0x1f
def base (c : Crd) : Mword := shr c.val 12

theorem order_lt (c : Crd) : c.order.toNat < 32 := by
  unfold order
  rw [BitVec.toNat_and]
  exact Nat.and_lt_two_pow _ (show (0x1f : Mword).toNat < 2 ^ 5 by decide)

theorem base_lt (c : Crd) : c.base.toNat < 2 ^ 52 := by
  unfold base shr
  rw [BitVec.toNat_ushiftRight, Nat.shiftRight_eq_div_pow]
  have := c.val.isLt
  exact Nat.div_lt_of_lt_mul (by simpa using this)

theorem ofType_eq {t : Mword} (ht : t ∈ [MEM, PIO, OBJ]) :
    (ofType t).base = 0 ∧ (ofType t).order = 0x1f ∧ (ofType t).attr = 0x1f := by
  simp only [List.mem_cons, List.not_mem_nil, or_false] at ht
  rcases ht with rfl | rfl | rfl
  · decide
  · decide
  · decide

end Crd

/-- The three spaces of all protection domains.  They share the quotas, the
page tables and the hazards of the CPU. -/
structure Spaces (σ : Type) where
  mem : State σ
  pio : State σ
  obj : State σ

/-- `st` with what it shares with `t` taken from there. -/
def State.follow (st t : State σ) : State σ :=
  { st with space := t.space, oom := t.oom, iommu := t.iommu, preemption := t.preemption }

namespace Spaces

def setMem (s : Spaces σ) (t : State σ) : Spaces σ := ⟨t, s.pio.follow t, s.obj.follow t⟩
def setPio (s : Spaces σ) (t : State σ) : Spaces σ := ⟨s.mem.follow t, t, s.obj.follow t⟩
def setObj (s : Spaces σ) (t : State σ) : Spaces σ := ⟨s.mem.follow t, s.pio.follow t, t⟩

end Spaces

/-- `Pd::clamp` with a hotspot: the smaller order, and both bases aligned and
moved to where the hotspot says. -/
def clampHot (sndBase rcvBase sndOrd rcvOrd h : Mword) : Mword × Mword × Mword :=
  let s := shl 1 sndOrd - 1
  let r := shl 1 rcvOrd - 1
  let sndBase := sndBase &&& ~~~s
  let rcvBase := rcvBase &&& ~~~r
  if s < r then (sndOrd, sndBase, rcvBase ||| (h &&& r &&& ~~~s))
  else (rcvOrd, sndBase ||| (h &&& s &&& ~~~r), rcvBase)

section Operations

variable (M P O : SpaceOps σ) (fuel : Nat)

/-- `Pd::del_crd`, less the flushes at its end.  The result holds the
descriptor that the receiver is told. -/
def delCrd (this pd : PdId) (del crd : Crd) (sub hot : Mword) (s : Spaces σ) :
    Option (Spaces σ × Crd) :=
  let a := crd.attr &&& del.attr
  if crd.type ≠ del.type ∨ a = 0 then some (s, ⟨0⟩)
  else if del.type = Crd.MEM then
    let (o, sb, rb) := clampHot crd.base del.base crd.order del.order hot
    match delegate M fuel this pd sb rb o a sub s.mem with
    | none => none
    | some (t, _) => some (s.setMem t, Crd.make del.type rb o a)
  else if del.type = Crd.PIO then
    let (o, rb) := clamp crd.base del.base crd.order del.order
    match delegate P fuel this pd rb rb o a sub s.pio with
    | none => none
    | some (t, _) => some (s.setPio t, Crd.make del.type rb o a)
  else if del.type = Crd.OBJ then
    let (o, sb, rb) := clampHot crd.base del.base crd.order del.order hot
    match delegate O fuel this pd sb rb o a 0 s.obj with
    | none => none
    | some (t, _) => some (s.setObj t, Crd.make del.type rb o a)
  else some (s, Crd.make del.type del.base 0 a)

/-- `Pd::pre_free`: every space is revoked as far as a descriptor reaches. -/
def preFree (pd : PdId) (s : Spaces σ) : Option (Spaces σ) :=
  let crd := Crd.ofType Crd.MEM
  match revoke M fuel pd crd.base crd.order crd.attr true false s.mem with
  | none => none
  | some t =>
    let s := s.setMem t
    let crd := Crd.ofType Crd.PIO
    match revoke P fuel pd crd.base crd.order crd.attr true false s.pio with
    | none => none
    | some t =>
      let s := s.setPio t
      let crd := Crd.ofType Crd.OBJ
      match revoke O fuel pd crd.base crd.order crd.attr true false s.obj with
      | none => none
      | some t => some (s.setObj t)

end Operations

end Tukija.Pd
