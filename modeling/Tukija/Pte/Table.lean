import Tukija.Pte.Format

/-! `Pte`: a page table of any of the formats, in memory.  A table is named by
the physical address of its page. -/
namespace Tukija.Pte

variable (F : Format)

/-- A page that `Buddy` has handed out for a table, or got back. -/
inductive Event (F : Format) where
  | alloc (q : F.Word)
  | free (q : F.Word)

/-- A pointer to an entry: the object itself, or an entry of a table. -/
inductive Loc (F : Format) where
  | root
  | slot (q : F.Word) (i : Nat)
  deriving DecidableEq

/-- The object with all its tables.  `log` begins with the latest event. -/
structure Mem (F : Format) where
  val : F.Word
  page : F.Word → Nat → F.Word
  log : List (Event F)

/-- `Pte::Type`. -/
inductive Kind where
  | up
  | dn
  | df
  deriving DecidableEq

/-- What `Pte::lookup` returns for an address that is mapped. -/
structure Found (F : Format) where
  size : F.Word
  p : F.Word
  a : F.Word
  deriving DecidableEq

variable {F}

def taken : List (Event F) → List F.Word
  | [] => []
  | .alloc q :: log => q :: taken log
  | .free q :: log => (taken log).erase q

/-- `e[i]`; there is nothing behind the object itself. -/
def Loc.add : Loc F → Nat → Loc F
  | .root, _ => .root
  | .slot q j, i => .slot q (j + i)

namespace Mem

def read (m : Mem F) : Loc F → F.Word
  | .root => m.val
  | .slot q i => m.page q i

def write (m : Mem F) (e : Loc F) (w : F.Word) : Mem F :=
  match e with
  | .root => { m with val := w }
  | .slot q i => { m with page := Function.update m.page q (Function.update (m.page q) i w) }

def destroy (m : Mem F) (q : F.Word) : Mem F := { m with log := .free q :: m.log }

/-- The part of an address that selects an entry on level `l`. -/
def index (v : F.Word) (l : Nat) : Nat :=
  (v >>> (l * F.B + pageBits) &&& BitVec.ofNat F.w (2 ^ F.B - 1)).toNat

/-- The entry on level `l` that the table `w` has for `v`. -/
def child (w v : F.Word) (l : Nat) : Loc F := .slot (F.addr w) (index v l)

/-- The body of the loop of `Pte::walk` for an entry that is not there, with a page
full of zeros that `Buddy` has handed out. -/
def grow (m : Mem F) (q : F.Word) (e : Loc F) (l : Nat) : Mem F :=
  { m with page := Function.update m.page q fun _ => 0, log := .alloc q :: m.log }.write e
    (F.pointer q l)

-- What `Buddy::alloc` returns next; `none` where it panics.
variable (alloc : List (Event F) → Option F.Word)

/-- `Pte::walk` from an entry on level `l` down to level `n`, which is not above it. -/
def walk (v : F.Word) (n : Nat) (a : Bool) : Nat → Loc F → Mem F → Option (Option (Loc F) × Mem F)
  | 0, e, m => some (some e, m)
  | l + 1, e, m =>
    if l + 1 = n then some (some e, m)
    else if m.read e = 0 then
      if a then do
        let q ← alloc m.log
        let m := m.grow q e (l + 1)
        walk v n a l (child (m.read e) v l) m
      else some (none, m)
    else walk v n a l (child (m.read e) v l) m

/-- The answer of `Pte::lookup` from an entry on level `l`. -/
def found (w v : F.Word) (l : Nat) : Found F :=
  let s := (1 : F.Word) <<< (l * F.B + F.order w)
  ⟨s, F.addr w ||| (v &&& (s - 1)), w &&& BitVec.ofNat F.w (2 ^ pageBits - 1)⟩

/-- `Pte::lookup`, from an entry on level `l`. -/
def lookup (m : Mem F) (v : F.Word) : Nat → Loc F → Option (Found F)
  | 0, e => if m.read e = 0 then none else some (found (m.read e) v 0)
  | l + 1, e =>
    if m.read e = 0 then none
    else if F.super (m.read e) (l + 1) then some (found (m.read e) v (l + 1))
    else lookup m v l (child (m.read e) v l)

/-- A table that is replaced, and not by `TYPE_DF`, is given back. -/
def drops (w : F.Word) (l : Nat) (t : Kind) : Bool := w != 0 && t != .df && l != 0 && !F.super w l

/-- One round of the loop of `Pte::update`: whether it asks for a flush. -/
def overwrite (l : Nat) (t : Kind) (e : Loc F) (p : F.Word) (m : Mem F) : Bool × Mem F :=
  let w := m.read e
  ((w != 0 && l != 0 && w != p) || drops w l t,
    (if drops w l t then m.destroy (F.addr w) else m).write e p)

/-- The loop of `Pte::update` over `n` entries from `e[i]` on. -/
def fill (l : Nat) (e : Loc F) (t : Kind) (s : F.Word) :
    Nat → Nat → F.Word → Bool → Mem F → Bool × Mem F
  | 0, _, _, flush, m => (flush, m)
  | n + 1, i, p, flush, m =>
    let (f, m) := m.overwrite l t (e.add i) p
    fill l e t s n (i + 1) (p + s) (flush || f) m

/-- `Pte::update`: whether a translation has to be flushed. -/
def update (v : F.Word) (o : Nat) (p a : F.Word) (t : Kind) (m : Mem F) : Option (Bool × Mem F) :=
  let l := o / F.B
  let n := 2 ^ (o % F.B)
  match walk alloc v l (t == .up) F.L .root m with
  | none => none
  | some (none, m) => some (false, m)
  | some (some e, m) =>
    if a ≠ 0 then
      let s := (1 : F.Word) <<< (l * F.B + pageBits)
      some (fill l e t s n 0 (p ||| F.flags a l (o % F.B)) false m)
    else some (fill l e t 0 n 0 0 false m)

section Clear

variable (d : Option (F.Word → F.Word → Nat → Bool)) (il : Option (Nat → F.Word → Bool))

-- The call of `free_up` for a table that is found.
variable (below : F.Word → F.Word → Mem F → Mem F)

/-- The body of the loop of `Pte::free_up`. -/
def freeEntry (l : Nat) (e v : F.Word) (i : Nat) (m : Mem F) : Mem F :=
  let w := m.page e i
  if w = 0 || F.super w l then m
  else
    let p := F.addr w
    let virt := v + BitVec.ofNat F.w i <<< (l * F.B + pageBits)
    let m := if (il.elim (decide (1 < l)) fun il => il l virt) then below p virt m else m
    if d.elim true fun d => d p virt l then m.destroy p else m

/-- The loop of `Pte::free_up` over `n` entries from `i` on. -/
def freeLoop (l : Nat) (e v : F.Word) : Nat → Nat → Mem F → Mem F
  | 0, _, m => m
  | n + 1, i, m => freeLoop l e v n (i + 1) (freeEntry d il below l e v i m)

def freeUp : Nat → F.Word → F.Word → Mem F → Mem F
  | 0, e, v, m => freeLoop d il (fun _ _ m => m) 0 e v (2 ^ F.B) 0 m
  | l + 1, e, v, m => freeLoop d il (freeUp l) (l + 1) e v (2 ^ F.B) 0 m

def clear (m : Mem F) : Mem F :=
  if m.val = 0 then m
  else
    let e := F.addr m.val
    (freeUp d il (F.L - 1) e 0 m).destroy e

end Clear

end Mem

end Tukija.Pte
