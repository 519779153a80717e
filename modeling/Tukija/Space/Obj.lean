import Tukija.Pd.Runs

/-! `Space_obj`: the capabilities of a protection domain, in a window of its
address space that gets its pages on first use. -/
namespace Tukija.Space

open Tukija.Lib.Word Tukija.Mapdb Tukija.Pd

/-- What a page of the window is: nothing, the frame of zeros that a read
access brings in, or a page of its own. -/
inductive Backing where
  | absent
  | frame0
  | page
  deriving DecidableEq

/-- The accounting of memory, which the spaces only go through.  `junk` stands
for the value of a variable that is read before it is set. -/
structure Quotas (θ : Type) where
  hitLimit : PdId → θ → Bool
  alloc : PdId → θ → θ
  destroy : PdId → θ → θ
  check : PdId → θ → Bool
  allocPage : PdId → θ → θ
  junk : θ → Bool

structure ObjState (θ : Type) where
  quota : θ
  backing : PdId → Mword → Backing
  word : PdId → Mword → Mword

def caps : Mword := 0x4000000

def SPC_LOCAL_OBJ : Mword := 0 - 0x20000000

def idxToVirt (idx : Mword) : Mword := SPC_LOCAL_OBJ + idx % caps * 8

/-- `Capability (o, a)`. -/
def capability (o a : Mword) : Mword := if a = 0 then 0 else o ||| (a &&& 0x1f)

variable {θ : Type} (Q : Quotas θ)

namespace ObjState

/-- `Space_obj::walk`: make sure that the slot has a page of its own. -/
def walk (pd : PdId) (idx : Mword) (s : ObjState θ) : ObjState θ × Bool :=
  let page := shr (idxToVirt idx) 12
  match s.backing pd page with
  | .page => (s, false)
  | b =>
    ({ s with
        quota := Q.allocPage pd s.quota
        backing := Function.update s.backing pd (Function.update (s.backing pd) page .page)
        word := Function.update s.word pd fun v => if shr v 12 = page then 0 else s.word pd v },
      b == .frame0 || (b == .absent && Q.junk s.quota))

/-- `Space_obj::update` of a single slot. -/
def write (pd : PdId) (idx cap : Mword) (s : ObjState θ) : ObjState θ × Bool :=
  let w := s.walk Q pd idx
  ({ w.1 with word := Function.update w.1.word pd (Function.update (w.1.word pd) (idxToVirt idx) cap) },
    w.2)

/-- `Space_obj::lookup`.  Where the window has no page, a read finds zeros. -/
def slot (s : ObjState θ) (pd : PdId) (idx : Mword) : Mword :=
  match s.backing pd (shr (idxToVirt idx) 12) with
  | .page => s.word pd (idxToVirt idx)
  | _ => 0

end ObjState

def objSpace : SpaceOps (ObjState θ) where
  stickySub _ := 0
  update mdb r s :=
    let u := s.write Q mdb.space mdb.nodeBase (capability mdb.nodePhys (mdb.nodeAttr &&& ~~~r))
    (u.1, u.2, false)
  hitLimit pd s := Q.hitLimit pd s.quota
  alloc pd s := { s with quota := Q.alloc pd s.quota }
  destroy pd s := { s with quota := Q.destroy pd s.quota }
  check pd s := Q.check pd s.quota

/-- `Space_obj::insert_root`, for a kernel object at `obj` with the selector
`sel`.  The kernel itself has no window. -/
def createObj (pd : PdId) (obj sel attr : Mword) (st : State (ObjState θ)) :
    State (ObjState θ) × Bool :=
  let (st', ok) := insertRoot (objSpace Q) pd obj sel 0 attr 0 st
  if ok && pd != kern then ((st'.update (objSpace Q) st.fresh 0).1, true) else (st', ok)

section Slots

variable {Q} {s : ObjState θ}

theorem toNat_mod_caps (i : Mword) : (i % caps).toNat = i.toNat % 2 ^ 26 := by
  rw [BitVec.toNat_umod]
  rfl

theorem idxToVirt_inj_iff (i j : Mword) :
    idxToVirt i = idxToVirt j ↔ i.toNat % 2 ^ 26 = j.toNat % 2 ^ 26 := by
  unfold idxToVirt
  constructor
  · intro h
    have h8 : i % caps * 8 = j % caps * 8 := (BitVec.add_right_inj _).mp h
    have := congrArg BitVec.toNat h8
    rw [BitVec.toNat_mul, BitVec.toNat_mul, toNat_mod_caps, toNat_mod_caps] at this
    simp at this
    omega
  · intro h
    rw [show i % caps = j % caps from BitVec.eq_of_toNat_eq (by rw [toNat_mod_caps, toNat_mod_caps, h])]

theorem slot_walk (pd q : PdId) (idx i : Mword) : (s.walk Q pd idx).1.slot q i = s.slot q i := by
  unfold ObjState.walk
  dsimp only
  split
  · rfl
  · rename_i b hb
    unfold ObjState.slot
    dsimp only
    by_cases hq : q = pd
    · subst hq
      rw [Function.update_self, Function.update_self]
      by_cases hp : shr (idxToVirt i) 12 = shr (idxToVirt idx) 12
      · -- a fresh page holds zeros
        rw [hp, Function.update_self]
        cases hs : s.backing q (shr (idxToVirt idx) 12) with
        | absent => exact if_pos rfl
        | frame0 => exact if_pos rfl
        | page => exact absurd hs hb
      · rw [Function.update_of_ne hp, if_neg hp]
    · rw [Function.update_of_ne hq, Function.update_of_ne hq]

theorem backing_walk (pd : PdId) (idx : Mword) :
    (s.walk Q pd idx).1.backing pd (shr (idxToVirt idx) 12) = .page := by
  unfold ObjState.walk
  dsimp only
  split
  · assumption
  · simp

theorem slot_write (pd q : PdId) (idx i cap : Mword) :
    (s.write Q pd idx cap).1.slot q i =
      if q = pd ∧ idxToVirt i = idxToVirt idx then cap else s.slot q i := by
  have hw : (s.walk Q pd idx).1.slot q i = s.slot q i := slot_walk pd q idx i
  have hb : (s.walk Q pd idx).1.backing pd (shr (idxToVirt idx) 12) = .page := backing_walk pd idx
  rw [← hw]
  unfold ObjState.write
  generalize s.walk Q pd idx = w at hb
  unfold ObjState.slot
  dsimp only
  by_cases hq : q = pd
  · subst hq
    rw [Function.update_self]
    by_cases hv : idxToVirt i = idxToVirt idx
    · rw [hv, hb, Function.update_self, if_pos ⟨rfl, rfl⟩]
    · rw [Function.update_of_ne hv, if_neg fun h => hv h.2]
  · rw [Function.update_of_ne hq, if_neg fun h => hq h.1]

end Slots

end Tukija.Space
