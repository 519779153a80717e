import Tukija.Pd.Authority
import Tukija.Pd.Exact
import Tukija.Pd.PortNodes

/-! `Pd::xlt_crd`: what a sender names, in terms of the receiver's own nodes. -/
namespace Tukija.Pd

open Tukija.Lib.Word Tukija.Lib.Ring Tukija.Mapdb

variable {σ : Type} {S : SpaceOps σ} {E : σ → σ → Prop} {st st' : State σ}
  {G L U : State σ → NodeId → Prop}

namespace Spaces

def subspace (s : Spaces σ) (t : Mword) : Option (State σ) :=
  if t = Crd.MEM then some s.mem
  else if t = Crd.PIO then some s.pio
  else if t = Crd.OBJ then some s.obj
  else none

end Spaces

/-- The loop of `xlt_crd` from `node` upwards.  `rb` and `ro` are passed on, so
that `ro` is all ones behind a node that `clamp` has refused. -/
def climb (st : State σ) (rcv : PdId) (mdb : NodeId) :
    Nat → Option NodeId → Mword → Mword → Option (Option NodeId × Mword × Mword)
  | 0, _, _, _ => none
  | _ + 1, none, rb, ro => some (none, rb, ro)
  | fuel + 1, some n, rb, ro =>
    if (st.mdb n).space = rcv ∧ n ≠ mdb then
      let c := clamp (st.mdb n).nodeBase rb (st.mdb n).nodeOrder ro
      if c.1 ≠ ones then some (some n, c.2, c.1)
      else climb st rcv mdb fuel (st.mdb n).prnt c.2 c.1
    else climb st rcv mdb fuel (st.mdb n).prnt rb ro

/-- The special handling behind the loop: the very same item, if it is the
receiver's own. -/
def sameItem (st : State σ) (rcv : PdId) (mdb : NodeId) (xlt : Crd) (r : Option NodeId × Mword × Mword) :
    Option NodeId × Mword × Mword :=
  match r with
  | (some n, rb, ro) => (some n, rb, ro)
  | (none, rb, ro) =>
    if (st.mdb mdb).space = rcv then
      let c := clamp (st.mdb mdb).nodeBase xlt.base (st.mdb mdb).nodeOrder xlt.order
      if c.1 ≠ ones then (some mdb, c.2, c.1) else (none, c.2, c.1)
    else (none, rb, ro)

/-- The base `sb` of the sender's node `x` in terms of the node `y`. -/
def rebase (x y : Mdb) (sb : Mword) : Mword :=
  (sb - x.nodeBase) + (x.nodePhys - y.nodePhys) + y.nodeBase

/-- The rest of `xlt_crd`, once a node is found. -/
def xltNode (x y : Mdb) (crd : Crd) (rb ro : Mword) : Crd :=
  let c := clamp x.nodeBase crd.base x.nodeOrder crd.order
  let sb := rebase x y c.2
  let d := clamp sb rb c.1 ro
  if d.1 ≠ ones then Crd.make crd.type d.2 d.1 x.nodeAttr else ⟨0⟩

/-- `Pd::xlt_crd` within one kind of space. -/
def xltSpace (st : State σ) (fuel : Nat) (this pd : PdId) (xlt crd : Crd) : Option Crd :=
  match st.lookup pd crd.base false with
  | none => some ⟨0⟩
  | some mdb =>
    match climb st this mdb fuel (some mdb) xlt.base xlt.order with
    | none => none
    | some r =>
      match sameItem st this mdb xlt r with
      | (none, _, _) => some ⟨0⟩
      | (some n, rb, ro) => some (xltNode (st.mdb mdb) (st.mdb n) crd rb ro)

def xltCrd (s : Spaces σ) (fuel : Nat) (this pd : PdId) (xlt crd : Crd) : Option Crd :=
  if xlt.type ≠ 0 ∧ xlt.type = crd.type then
    match s.subspace xlt.type with
    | none => some ⟨0⟩
    | some st => xltSpace st fuel this pd xlt crd
  else some ⟨0⟩

/-- All of `r` lies in the window and in `y`, and has the physical indices of a
part of `crd` in `x`. -/
def Matches (x y : Mdb) (xlt crd r : Crd) : Prop :=
  ∀ i, r.Has i → xlt.Has i ∧ (y.nodeBase.toNat ≤ i ∧ i < y.top) ∧
    ∃ j, crd.Has j ∧ (x.nodeBase.toNat ≤ j ∧ j < x.top) ∧
      i - y.nodeBase.toNat + y.nodePhys.toNat = j - x.nodeBase.toNat + x.nodePhys.toNat

/-- What `r` names in the space of `this` is what a part of `crd` names in that
of `pd`: it lies in the window `xlt` and in one node, which the node of the
sender was derived from or is. -/
def Faithful (st : State σ) (this pd : PdId) (xlt crd r : Crd) : Prop :=
  ∃ m n, st.lookup pd crd.base false = some m ∧ n ∈ st.tree this ∧ (n = m ∨ PrntChain st m n) ∧
    Matches (st.mdb m) (st.mdb n) xlt crd r

/-- The database that `xlt_crd` reads: parents are live and as the derivation
has them, and every node that was delegated from ends below the largest base of
a descriptor. -/
structure Charted (st : State σ) : Prop where
  wf : Wf st
  tidy : Tidy st
  fiveBits : FiveBits st
  parent_top : ∀ x p, st.Live x → (st.mdb x).prnt = some p → (st.mdb p).top ≤ 2 ^ 52

/-- The nodes above `n`, from its parent on. -/
def lineage (st : State σ) : Nat → NodeId → List NodeId
  | 0, _ => []
  | fuel + 1, n =>
    match (st.mdb n).prnt with
    | none => []
    | some p => p :: lineage st fuel p

/-- Those of them that `pd` has. -/
def owned (st : State σ) (fuel : Nat) (pd : PdId) (n : NodeId) : List NodeId :=
  (lineage st fuel n).filter fun p => (st.mdb p).space = pd ∧ p ≠ n

/-- The order that the range of the node `n` is cut down to by the window, all
ones if they are apart. -/
def cut (st : State σ) (n : NodeId) (xlt : Crd) : Mword :=
  (clamp (st.mdb n).nodeBase xlt.base (st.mdb n).nodeOrder xlt.order).1

def itself (st : State σ) (this : PdId) (m : NodeId) (xlt : Crd) : Option (NodeId × Mword) :=
  if (st.mdb m).space = this ∧ cut st m xlt ≠ ones then some (m, cut st m xlt) else none

/-- The node that the result is given in, and the order that its range is cut
down to: the nearest node of `this` above `m` if it meets the window, else the
next one, whole; without such nodes `m` itself. -/
def landing (st : State σ) (fuel : Nat) (this : PdId) (m : NodeId) (xlt : Crd) :
    Option (NodeId × Mword) :=
  match owned st fuel this m with
  | [] => itself st this m xlt
  | n :: rest =>
    if cut st n xlt ≠ ones then some (n, cut st n xlt)
    else
      match rest with
      | [] => itself st this m xlt
      | p :: _ => some (p, (st.mdb p).nodeOrder)

/-- The sent part, moved to the node `y`, and the window are apart, or what `|`
makes of their bases ends before both of them do. -/
def Nests (x y : Mdb) (ro : Mword) (xlt crd : Crd) : Prop :=
  let s := rebase x y crd.base
  let so := min x.nodeOrder.toNat crd.order.toNat
  ¬SameBlock (max so ro.toNat) s (xlt.base ||| y.nodeBase) ∨
    (xlt.base ||| s).toNat + 2 ^ min so ro.toNat ≤
      min (xlt.base.toNat + 2 ^ xlt.order.toNat)
        (s.toNat + min (2 ^ crd.order.toNat) (x.top - crd.base.toNat))

instance (x y : Mdb) (ro : Mword) (xlt crd : Crd) : Decidable (Nests x y ro xlt crd) :=
  inferInstanceAs (Decidable (_ ∨ _))

/-- The same for ports, which keep their indices, but whose nodes need not be aligned: all
four bases are joined by `|`, and what comes out ends before the window, `crd` and the
node of the sender do, and lies in a node of the receiver. -/
def Keeps (st : State σ) (this : PdId) (m n : NodeId) (ro : Mword) (xlt crd : Crd) : Prop :=
  let x := st.mdb m
  let s := crd.base ||| x.nodeBase
  let w := xlt.base ||| (st.mdb n).nodeBase
  let so := min x.nodeOrder.toNat crd.order.toNat
  let last := (w ||| s).toNat + 2 ^ min so ro.toNat
  ¬SameBlock (max so ro.toNat) s w ∨
    last ≤ xlt.base.toNat + 2 ^ xlt.order.toNat ∧ last ≤ crd.base.toNat + 2 ^ crd.order.toNat ∧
      last ≤ x.top ∧ ∃ p ∈ st.tree this, (p = m ∨ PrntChain st m p) ∧
        (st.mdb p).nodeBase.toNat ≤ (w ||| s).toNat ∧ last ≤ (st.mdb p).top

section Climb

variable {this pd : PdId} {m n : Nat} {xlt crd : Crd}

theorem Charted.live_lt (hc : Charted st) {p : Nat} (hn : st.Live n)
    (hp : (st.mdb n).prnt = some p) : st.Live p ∧ p < n :=
  ⟨hc.tidy.parent.live n p hn hp, hc.tidy.forest.lt (hc.tidy.parent.derived n p hn hp)⟩

theorem Charted.mem_lineage (hc : Charted st) (hn : st.Live n) {fuel p : Nat}
    (hp : p ∈ lineage st fuel n) : st.Live p ∧ PrntChain st n p ∧ (st.mdb p).top ≤ 2 ^ 52 := by
  induction fuel generalizing n with
  | zero => simp [lineage] at hp
  | succ fuel ih =>
    cases hq : (st.mdb n).prnt with
    | none => simp [lineage, hq] at hp
    | some q =>
      obtain ⟨hl, -⟩ := hc.live_lt hn hq
      simp only [lineage, hq, List.mem_cons] at hp
      rcases hp with rfl | hp
      · exact ⟨hl, .single hq, hc.parent_top n p hn hq⟩
      · obtain ⟨h1, h2, h3⟩ := ih hl hp
        exact ⟨h1, .head hq h2, h3⟩

def pick (st : State σ) (rb ro : Mword) : List NodeId → Option NodeId × Mword × Mword
  | [] => (none, rb, ro)
  | n :: ns =>
    let c := clamp (st.mdb n).nodeBase rb (st.mdb n).nodeOrder ro
    if c.1 ≠ ones then (some n, c.2, c.1) else pick st c.2 c.1 ns

theorem climb_eq {fuel k : Nat} {rb ro : Mword} {r : Option NodeId × Mword × Mword} (hk : fuel ≤ k)
    (h : climb st this m (fuel + 1) (some n) rb ro = some r) :
    r = pick st rb ro ((n :: lineage st k n).filter fun p => (st.mdb p).space = this ∧ p ≠ m) := by
  induction fuel generalizing n rb ro k with
  | zero =>
    simp only [climb] at h
    split at h
    · rename_i hs
      split at h
      · rename_i hc
        obtain rfl := Option.some.inj h
        simp [hs.1, hs.2, pick, hc]
      · simp at h
    · simp at h
  | succ fuel ih =>
    obtain ⟨k, rfl⟩ := Nat.exists_eq_succ_of_ne_zero (show k ≠ 0 by omega)
    have htail : ∀ rb ro, climb st this m (fuel + 1) (st.mdb n).prnt rb ro = some r →
        r = pick st rb ro ((lineage st (k + 1) n).filter fun p => (st.mdb p).space = this ∧ p ≠ m) := by
      intro rb ro h
      cases hp : (st.mdb n).prnt with
      | none =>
        rw [hp] at h
        obtain rfl := Option.some.inj h
        simp [lineage, hp, pick]
      | some p =>
        rw [hp] at h
        simp only [lineage, hp]
        exact ih (by omega) h
    unfold climb at h
    by_cases hs : (st.mdb n).space = this ∧ n ≠ m
    · rw [if_pos hs] at h
      rw [List.filter_cons_of_pos (by simpa using hs)]
      simp only [pick]
      dsimp only at h
      split at h
      · rename_i hc
        rw [if_pos hc]
        exact (Option.some.inj h).symm
      · rename_i hc
        rw [if_neg hc]
        exact htail _ _ h
    · rw [if_neg hs] at h
      rw [List.filter_cons_of_neg (by simpa using hs)]
      exact htail _ _ h

theorem climb_sender {fuel : Nat} {rb ro : Mword} {r : Option NodeId × Mword × Mword}
    (h : climb st this m fuel (some m) rb ro = some r) : r = pick st rb ro (owned st fuel this m) := by
  cases fuel with
  | zero => simp [climb] at h
  | succ fuel =>
    have := climb_eq (Nat.le_succ fuel) h
    rwa [List.filter_cons_of_neg (by simp)] at this

theorem Charted.climb_isSome (this : PdId) (hc : Charted st) (hn : st.Live n) {fuel : Nat} (hf : n + 1 < fuel)
    (rb ro : Mword) : (climb st this m fuel (some n) rb ro).isSome := by
  induction fuel generalizing n rb ro with
  | zero => exact absurd hf (Nat.not_lt_zero _)
  | succ fuel ih =>
    have htail : ∀ rb ro, (climb st this m fuel (st.mdb n).prnt rb ro).isSome := by
      intro rb ro
      cases hp : (st.mdb n).prnt with
      | none =>
        obtain ⟨fuel, rfl⟩ := Nat.exists_eq_succ_of_ne_zero (show fuel ≠ 0 by omega)
        rfl
      | some p =>
        obtain ⟨hl, hlt⟩ := hc.live_lt hn hp
        exact ih hl (by omega) rb ro
    unfold climb
    dsimp only
    split
    · split
      · rfl
      · exact htail _ _
    · exact htail _ _

end Climb

section Clamp

variable {x y : Mdb} {rb ro w : Mword}

theorem clamp_of_ne_ones {sb so : Mword} (h : (clamp sb rb so ro).1 ≠ ones) :
    (clamp sb rb so ro).2 = rb ||| sb ∧ (clamp sb rb so ro).1 = wmin so ro := by
  unfold clamp at h ⊢
  split
  · rename_i hne
    rw [if_pos hne] at h
    exact absurd rfl h
  · exact ⟨rfl, rfl⟩

theorem clamp_of_eq_ones {sb so : Mword} (hso : so.toNat < 64) (h : (clamp sb rb so ro).1 = ones) :
    clamp sb rb so ro = (ones, rb) := by
  unfold clamp at h ⊢
  split
  · rfl
  · rename_i hne
    rw [if_neg hne] at h
    exact absurd h (wmin_ne_ones hso)

theorem clamp_ones (sb rb : Mword) {so : Mword} (hso : so.toNat < 64) (hs : sb.toNat < 2 ^ 63) (hr : rb.toNat < 2 ^ 63) :
    clamp sb rb so ones = (so, rb ||| sb) := by
  have hones : ones.toNat = 2 ^ 64 - 1 := by decide
  have hmax : (wmax so ones).toNat % 64 = 63 := by
    rw [toNat_wmax, hones]
    omega
  have hmin : wmin so ones = so := by
    apply BitVec.eq_of_toNat_eq
    rw [toNat_wmin, hones]
    omega
  have hz : shr (sb ^^^ rb) (wmax so ones) = 0 := by
    rw [shr_xor_eq_zero, hmax]
    unfold SameBlock
    rw [Nat.div_eq_of_lt hs, Nat.div_eq_of_lt hr]
  simp [clamp, hz, hmin]

end Clamp

section Landing

variable {this pd : PdId} {m n : NodeId} {xlt crd : Crd} {ro : Mword}

theorem sameItem_none {rb : Mword} :
    (∀ n ro', itself st this m xlt = some (n, ro') →
      sameItem st this m xlt (none, rb, ro) = (some n, xlt.base ||| (st.mdb n).nodeBase, ro')) ∧
    (itself st this m xlt = none → (sameItem st this m xlt (none, rb, ro)).1 = none) := by
  unfold itself sameItem cut
  dsimp only
  by_cases hs : (st.mdb m).space = this
  · by_cases hc : (clamp (st.mdb m).nodeBase xlt.base (st.mdb m).nodeOrder xlt.order).1 = ones
    · simp [hs, hc]
    · obtain ⟨h2, -⟩ := clamp_of_ne_ones hc
      simp only [hs, hc, ne_eq, not_false_eq_true, and_self, if_true, Option.some.injEq, Prod.mk.injEq]
      refine ⟨?_, fun h => absurd h (by simp)⟩
      rintro n ro' ⟨rfl, rfl⟩
      exact ⟨rfl, h2, rfl⟩
  · simp [hs]

theorem search {fuel : Nat} (this : PdId) (xlt : Crd)
    (hown : ∀ n ∈ owned st fuel this m, (st.mdb n).nodeOrder.toNat < 64 ∧ (st.mdb n).nodeBase.toNat < 2 ^ 52) :
    (∀ n ro, landing st fuel this m xlt = some (n, ro) →
      sameItem st this m xlt (pick st xlt.base xlt.order (owned st fuel this m)) =
        (some n, xlt.base ||| (st.mdb n).nodeBase, ro)) ∧
    (landing st fuel this m xlt = none →
      (sameItem st this m xlt (pick st xlt.base xlt.order (owned st fuel this m))).1 = none) := by
  unfold landing
  cases ho : owned st fuel this m with
  | nil => exact sameItem_none
  | cons n rest =>
    have hn := (hown n (by simp [ho])).1
    by_cases hcut : cut st n xlt = ones
    · -- the nearest one is refused, and the order is all ones from here on
      have hcl := clamp_of_eq_ones hn hcut
      simp only [hcut, ne_eq, not_true_eq_false, if_false, pick, hcl]
      cases rest with
      | nil => exact sameItem_none
      | cons p rest =>
        obtain ⟨hp, hpb⟩ := hown p (by simp [ho])
        have hxb := xlt.base_lt
        have hones := clamp_ones (st.mdb p).nodeBase xlt.base hp (by omega) (by omega)
        have hne : (st.mdb p).nodeOrder ≠ ones := by
          intro h
          rw [h] at hp
          exact absurd hp (by decide)
        simp [pick, hones, hne, sameItem]
    · obtain ⟨h2, -⟩ := clamp_of_ne_ones hcut
      have hne : (clamp (st.mdb n).nodeBase xlt.base (st.mdb n).nodeOrder xlt.order).1 ≠ ones := hcut
      simp [pick, hne, sameItem, h2, cut]

theorem cut_le (h : cut st n xlt ≠ ones) : (cut st n xlt).toNat ≤ (st.mdb n).nodeOrder.toNat := by
  have heq : cut st n xlt = wmin (st.mdb n).nodeOrder xlt.order := (clamp_of_ne_ones h).2
  rw [heq, toNat_wmin]
  exact Nat.min_le_left _ _

theorem landing_spec {fuel : Nat} (h : landing st fuel this m xlt = some (n, ro)) :
    ro.toNat ≤ (st.mdb n).nodeOrder.toNat ∧
      (n = m ∧ (st.mdb m).space = this ∨ n ∈ owned st fuel this m) := by
  have hitself : itself st this m xlt = some (n, ro) → ro.toNat ≤ (st.mdb n).nodeOrder.toNat ∧
      (n = m ∧ (st.mdb m).space = this ∨ n ∈ owned st fuel this m) := by
    intro h
    unfold itself at h
    split at h
    · rename_i hs
      obtain ⟨rfl, rfl⟩ := Prod.mk.inj (Option.some.inj h)
      exact ⟨cut_le hs.2, .inl ⟨rfl, hs.1⟩⟩
    · simp at h
  unfold landing at h
  cases ho : owned st fuel this m with
  | nil =>
    rw [ho] at h hitself
    exact hitself h
  | cons p rest =>
    rw [ho] at h hitself
    dsimp only at h
    split at h
    · rename_i hne
      obtain ⟨rfl, rfl⟩ := Prod.mk.inj (Option.some.inj h)
      exact ⟨cut_le hne, .inr List.mem_cons_self⟩
    · split at h
      · exact hitself h
      · rename_i q _
        obtain ⟨rfl, rfl⟩ := Prod.mk.inj (Option.some.inj h)
        exact ⟨le_rfl, .inr (by simp)⟩

theorem Charted.mem_owned {fuel : Nat} (hc : Charted st) (hm : st.Live m) (hn : n ∈ owned st fuel this m) :
    n ∈ st.tree this ∧ PrntChain st m n ∧ (st.mdb n).top ≤ 2 ^ 52 := by
  obtain ⟨h1, h2, h3⟩ := hc.mem_lineage hm (List.mem_of_mem_filter hn)
  have hs : (st.mdb n).space = this ∧ n ≠ m := by simpa using (List.mem_filter.mp hn).2
  refine ⟨?_, h2, h3⟩
  rw [← hs.1]
  exact h1

end Landing

namespace Crd

variable {t b o a : Mword}

theorem toNat_make (ht : t.toNat < 4) (hb : b.toNat < 2 ^ 52) (ho : o.toNat < 32) (ha : a.toNat < 32) :
    (make t b o a).val.toNat = 2 ^ 12 * b.toNat + 2 ^ 7 * o.toNat + 2 ^ 2 * a.toNat + t.toNat := by
  have hshl : ∀ (x : Mword) (k : Nat), k < 64 → x.toNat * 2 ^ k < 2 ^ 64 →
      (shl x (BitVec.ofNat 64 k)).toNat = 2 ^ k * x.toNat := by
    intro x k hk hlt
    have hk' : (BitVec.ofNat 64 k).toNat % 64 = k := by
      rw [BitVec.toNat_ofNat]
      omega
    rw [shl, hk', BitVec.toNat_shiftLeft, Nat.shiftLeft_eq, Nat.mod_eq_of_lt hlt, Nat.mul_comm]
  have h12 : (shl b 12).toNat = 2 ^ 12 * b.toNat := hshl b 12 (by decide) (by omega)
  have h7 : (shl o 7).toNat = 2 ^ 7 * o.toNat := hshl o 7 (by decide) (by omega)
  have h2 : (shl a 2).toNat = 2 ^ 2 * a.toNat := hshl a 2 (by decide) (by omega)
  unfold make
  simp only [BitVec.toNat_or, h12, h7, h2]
  rw [← Nat.two_pow_add_eq_or_of_lt (show 2 ^ 7 * o.toNat < 2 ^ 12 by omega),
    show 2 ^ 12 * b.toNat + 2 ^ 7 * o.toNat = 2 ^ 7 * (2 ^ 5 * b.toNat + o.toNat) by ring,
    ← Nat.two_pow_add_eq_or_of_lt (show 2 ^ 2 * a.toNat < 2 ^ 7 by omega),
    show 2 ^ 7 * (2 ^ 5 * b.toNat + o.toNat) + 2 ^ 2 * a.toNat =
      2 ^ 2 * (2 ^ 10 * b.toNat + 2 ^ 5 * o.toNat + a.toNat) by ring,
    ← Nat.two_pow_add_eq_or_of_lt (show t.toNat < 2 ^ 2 from ht)]

theorem make_fields (ht : t.toNat < 4) (hb : b.toNat < 2 ^ 52) (ho : o.toNat < 32) (ha : a.toNat < 32) :
    (make t b o a).base = b ∧ (make t b o a).order = o := by
  have hval := toNat_make ht hb ho ha
  constructor
  · apply BitVec.eq_of_toNat_eq
    unfold base shr
    rw [BitVec.toNat_ushiftRight, Nat.shiftRight_eq_div_pow, hval,
      show (12 : Mword).toNat % 64 = 12 from rfl]
    omega
  · apply BitVec.eq_of_toNat_eq
    unfold order shr
    rw [BitVec.toNat_and, BitVec.toNat_ushiftRight, Nat.shiftRight_eq_div_pow, hval,
      show (0x1f : Mword).toNat = 2 ^ 5 - 1 from rfl, Nat.and_two_pow_sub_one_eq_mod,
      show (7 : Mword).toNat % 64 = 7 from rfl]
    omega

end Crd

section Rebase

variable {x y : Mdb} {xlt crd r : Crd} {ro b : Mword}

theorem rebase_spec (hx : x.Natural) (hy : y.Natural) (hw : Within x y)
    (hlo : x.nodeBase.toNat ≤ b.toNat) (hhi : b.toNat < x.top) :
    (rebase x y b).toNat = b.toNat - x.nodeBase.toNat + (x.nodePhys.toNat - y.nodePhys.toNat) + y.nodeBase.toNat ∧
      y.nodePhys.toNat ≤ x.nodePhys.toNat ∧
        x.nodePhys.toNat + 2 ^ x.nodeOrder.toNat ≤ y.nodePhys.toNat + 2 ^ y.nodeOrder.toNat := by
  obtain ⟨hord, hblock⟩ := hw
  obtain ⟨hle, hlt⟩ := (sameBlock_iff_of_aligned hy.phys).mp hblock.symm
  have hylt := hy.order_lt
  have hdvd : 2 ^ x.nodeOrder.toNat ∣ y.nodePhys.toNat + 2 ^ y.nodeOrder.toNat :=
    Nat.dvd_add (hy.phys.mono hord) (Nat.pow_dvd_pow 2 hord)
  have hend := add_le_of_dvd_of_lt hx.phys hdvd hlt
  have hroom := hy.base.add_le (by omega)
  have htop : x.top = x.nodeBase.toNat + 2 ^ x.nodeOrder.toNat := rfl
  refine ⟨?_, hle, hend⟩
  have h1 : (b - x.nodeBase).toNat = b.toNat - x.nodeBase.toNat :=
    BitVec.toNat_sub_of_le (BitVec.le_def.mpr hlo)
  have h2 : (x.nodePhys - y.nodePhys).toNat = x.nodePhys.toNat - y.nodePhys.toNat :=
    BitVec.toNat_sub_of_le (BitVec.le_def.mpr hle)
  unfold rebase
  rw [BitVec.toNat_add, BitVec.toNat_add, h1, h2]
  omega

theorem sameBlock_or {k : Nat} {x y : Mword} (h : SameBlock k x y) : SameBlock k x (y ||| x) := by
  unfold SameBlock at h ⊢
  rw [BitVec.toNat_or, ← Nat.shiftRight_eq_div_pow, ← Nat.shiftRight_eq_div_pow,
    Nat.shiftRight_or_distrib, Nat.shiftRight_eq_div_pow, Nat.shiftRight_eq_div_pow, ← h, Nat.or_self]

theorem le_or_left (x y : Mword) : x.toNat ≤ (x ||| y).toNat := by
  rw [BitVec.toNat_or]
  exact Nat.left_le_or

theorem le_or_right (x y : Mword) : y.toNat ≤ (x ||| y).toNat := by
  rw [BitVec.toNat_or]
  exact Nat.right_le_or

theorem rebase_in (hx : x.Natural) (hy : y.Natural) (hw : Within x y)
    (hlo : x.nodeBase.toNat ≤ b.toNat) (hhi : b.toNat < x.top) :
    SameBlock y.nodeOrder.toNat y.nodeBase (rebase x y b) := by
  obtain ⟨hs, hle, hend⟩ := rebase_spec hx hy hw hlo hhi
  have htop : x.top = x.nodeBase.toNat + 2 ^ x.nodeOrder.toNat := rfl
  exact (sameBlock_iff_of_aligned hy.base).mpr ⟨by omega, by omega⟩

theorem or_rebase {w s : Mword} (hy : y.Natural) (h : SameBlock y.nodeOrder.toNat y.nodeBase s) :
    w ||| y.nodeBase ||| s = w ||| s := by
  rw [BitVec.or_assoc, BitVec.or_comm y.nodeBase, or_of_sameBlock hy.base h]

theorem xltNode_eq (hx : x.Natural) (hy : y.Natural) (hw : Within x y)
    (hlo : x.nodeBase.toNat ≤ crd.base.toNat) (hhi : crd.base.toNat < x.top)
    (hro : ro.toNat ≤ y.nodeOrder.toNat) :
    xltNode x y crd (xlt.base ||| y.nodeBase) ro =
      if SameBlock (max (min x.nodeOrder.toNat crd.order.toNat) ro.toNat) (rebase x y crd.base)
          (xlt.base ||| y.nodeBase) then
        Crd.make crd.type (xlt.base ||| rebase x y crd.base) (wmin (wmin x.nodeOrder crd.order) ro) x.nodeAttr
      else ⟨0⟩ := by
  have hxlt := hx.order_lt
  have hylt := hy.order_lt
  have hin : SameBlock x.nodeOrder.toNat x.nodeBase crd.base :=
    (sameBlock_iff_of_aligned hx.base).mpr ⟨hlo, hhi⟩
  -- the first `clamp` leaves the base as it is
  have hfirst : clamp x.nodeBase crd.base x.nodeOrder crd.order = (wmin x.nodeOrder crd.order, crd.base) := by
    have hne : (clamp x.nodeBase crd.base x.nodeOrder crd.order).1 ≠ ones := by
      rw [ne_eq, clamp_eq_ones_iff hxlt (by have := crd.order_lt; omega), not_not]
      exact hin.mono (Nat.le_max_left _ _)
    obtain ⟨h2, h1⟩ := clamp_of_ne_ones hne
    exact Prod.ext h1 (h2.trans (or_of_sameBlock hx.base hin))
  have hor := or_rebase hy (w := xlt.base) (rebase_in hx hy hw hlo hhi)
  have hso : (wmin x.nodeOrder crd.order).toNat < 64 := by
    rw [toNat_wmin]
    omega
  have hiff := clamp_eq_ones_iff (x := rebase x y crd.base) (b := xlt.base ||| y.nodeBase) hso
    (show ro.toNat < 64 by omega)
  rw [toNat_wmin] at hiff
  simp only [xltNode, hfirst]
  by_cases hb : SameBlock (max (min x.nodeOrder.toNat crd.order.toNat) ro.toNat) (rebase x y crd.base)
      (xlt.base ||| y.nodeBase)
  · have hne : (clamp (rebase x y crd.base) (xlt.base ||| y.nodeBase) (wmin x.nodeOrder crd.order) ro).1 ≠ ones :=
      fun h => hiff.mp h hb
    obtain ⟨h2, h1⟩ := clamp_of_ne_ones hne
    rw [if_pos hne, if_pos hb, h2, h1, hor]
  · rw [if_neg (not_not.mpr (hiff.mpr hb)), if_neg hb]

/-- The result fits exactly if it ends before the window, the sent part and the
node of the sender do. -/
theorem matches_iff (hx : x.Natural) (hy : y.Natural) (hw : Within x y)
    (hlo : x.nodeBase.toNat ≤ crd.base.toNat) (hhi : crd.base.toNat < x.top)
    (hr : r.base = xlt.base ||| rebase x y crd.base) :
    Matches x y xlt crd r ↔ r.base.toNat + 2 ^ r.order.toNat ≤
      min (xlt.base.toNat + 2 ^ xlt.order.toNat)
        ((rebase x y crd.base).toNat + min (2 ^ crd.order.toNat) (x.top - crd.base.toNat)) := by
  obtain ⟨hs, hle, hend⟩ := rebase_spec hx hy hw hlo hhi
  have hxtop : x.top = x.nodeBase.toNat + 2 ^ x.nodeOrder.toNat := rfl
  have hytop : y.top = y.nodeBase.toNat + 2 ^ y.nodeOrder.toNat := rfl
  have h1 := le_or_left xlt.base (rebase x y crd.base)
  have h2 := le_or_right xlt.base (rebase x y crd.base)
  rw [← hr] at h1 h2
  have hpos := Nat.two_pow_pos r.order.toNat
  unfold Matches Crd.Has
  constructor
  · intro h
    obtain ⟨hwin, hin, j, hj, hjx, hphys⟩ := h (r.base.toNat + 2 ^ r.order.toNat - 1) ⟨by omega, by omega⟩
    omega
  · intro h i hi
    exact ⟨by omega, by omega, i - (rebase x y crd.base).toNat + crd.base.toNat, by omega, by omega, by omega⟩

end Rebase

section Charted

variable {n : NodeId}

theorem SameNode.top {x y : Mdb} (h : SameNode x y) : x.top = y.top := by
  unfold Mdb.top
  rw [h.base, h.order]

theorem Effect.parent_top (h : Effect S E G L U st st') (hG : ∀ st m, G st m → (st.mdb m).top ≤ 2 ^ 52)
    (hw : Wf st) (ht : Tidy st)
    (hp : ∀ x p, st.Live x → (st.mdb x).prnt = some p → (st.mdb p).top ≤ 2 ^ 52) :
    ∀ x p, st'.Live x → (st'.mdb x).prnt = some p → (st'.mdb p).top ≤ 2 ^ 52 := by
  have hlt : ∀ x p, st.Live x → (st.mdb x).prnt = some p → p < st.fresh := fun x p hx hxp =>
    hw.lt (ht.parent.live x p hx hxp)
  have hdem : ∀ {n r}, Demoted st st' n r →
      ∀ x p, st'.Live x → (st'.mdb x).prnt = some p → (st'.mdb p).top ≤ 2 ^ 52 := by
    intro n r h x p hx hxp
    rw [(h.node x).2.2.2] at hxp
    rw [(h.node p).1.top]
    exact hp x p ((h.live_iff x).mp hx) hxp
  have hdrop : ∀ {leaf n}, Dropped leaf st st' n →
      ∀ x p, st'.Live x → (st'.mdb x).prnt = some p → (st'.mdb p).top ≤ 2 ^ 52 := by
    intro leaf n h x p hx hxp
    rw [h.prnt x] at hxp
    rw [(h.node p).1.top]
    split at hxp
    · exact hp n p h.live hxp
    · exact hp x p ((h.live_iff hw x).mp hx).2 hxp
  cases h with
  | quiet h =>
    intro x p hx hxp
    have hx := (h.live hw x).mp hx
    rw [h.mdb x (hw.lt hx)] at hxp
    rw [h.mdb p (hlt x p hx hxp)]
    exact hp x p hx hxp
  | granted m n hg h =>
    intro x p hx hxp
    rcases (h.live hw x).mp hx with rfl | hx
    · rw [h.prnt] at hxp
      obtain rfl := Option.some.inj hxp
      rw [(h.old m (hw.lt h.live_m)).1.top]
      exact hG st m hg
    · rw [(h.old x (hw.lt hx)).2.2] at hxp
      rw [(h.old p (hlt x p hx hxp)).1.top]
      exact hp x p hx hxp
  | rooted n h =>
    intro x p hx hxp
    rcases (h.live hw x).mp hx with rfl | hx
    · rw [h.prnt] at hxp
      exact absurd hxp (by simp)
    · rw [(h.old x (hw.lt hx)).2.2] at hxp
      rw [(h.old p (hlt x p hx hxp)).1.top]
      exact hp x p hx hxp
  | demoted n r h hs => exact hdem h
  | stripped n hu h hs => exact hdem h
  | unlinked n h => exact hdrop h
  | lifted n hd hl h => exact hdrop h

/-- Histories in which depths do not wrap, lifted nodes have one child and
nothing is delegated beyond the largest base of a descriptor. -/
theorem Reach.charted (hE : S.Frame E) (hL : Stable L) (hG : ∀ st m, G st m → NoWrap st m)
    (hG' : ∀ st m, G st m → (st.mdb m).top ≤ 2 ^ 52) (hL' : ∀ st m, L st m → OneChild st m)
    (h : Reach S E G L U st) : Charted st := by
  obtain ⟨hw, ht, h5, hp⟩ := h.invariant (I := fun st => Tidy st ∧ FiveBits st ∧
      ∀ x p, st.Live x → (st.mdb x).prnt = some p → (st.mdb p).top ≤ 2 ^ 52) hE hL
    (fun space => ⟨Tidy.boot space, fun n hn => by simp [State.Live, Pd.boot] at hn,
      fun x p hx => by simp [State.Live, Pd.boot] at hx⟩)
    (fun st st' hw hi he => ⟨he.tidy hG hL' hi.1 hw, he.fiveBits hi.2.1 hw,
      he.parent_top hG' hw hi.1 hi.2.2⟩)
  exact ⟨hw, ht, h5, hp⟩

end Charted

section Sound

variable {this pd : PdId} {m n : NodeId} {xlt crd : Crd} {ro : Mword}

def Translated (s : Spaces σ) (this pd : PdId) (xlt crd r : Crd) : Prop :=
  r = ⟨0⟩ ∨ ∃ st, s.subspace crd.type = some st ∧ Faithful st this pd xlt crd r

/-- Wherever the search ends, the result fits. -/
def Lands (s : Spaces σ) (fuel : Nat) (this pd : PdId) (xlt crd : Crd) : Prop :=
  xlt.type = crd.type → ∀ st, s.subspace crd.type = some st → ∀ m n ro,
    st.lookup pd crd.base false = some m → landing st fuel this m xlt = some (n, ro) →
      if crd.type = Crd.PIO then Keeps st this m n ro xlt crd
      else Nests (st.mdb m) (st.mdb n) ro xlt crd

theorem Wf.eq_of_mem {i : Nat} {n m : NodeId} (hw : Wf st) (hn : n ∈ st.tree pd) (hm : m ∈ st.tree pd)
    (hni : (st.mdb n).nodeBase.toNat ≤ i ∧ i < (st.mdb n).top)
    (hmi : (st.mdb m).nodeBase.toNat ≤ i ∧ i < (st.mdb m).top) : n = m := by
  have ho := hw.ordered pd
  rcases Nat.lt_trichotomy (st.mdb n).nodeBase.toNat (st.mdb m).nodeBase.toNat with h | h | h
  · have := ho.top_le hw.natural_of_mem hn hm h
    omega
  · exact ho.base_inj hn hm (BitVec.eq_of_toNat_eq h)
  · have := ho.top_le hw.natural_of_mem hm hn h
    omega

theorem Crd.type_lt (c : Crd) : c.type.toNat < 4 := by
  unfold Crd.type
  rw [BitVec.toNat_and]
  exact Nat.and_lt_two_pow _ (show (0x3 : Mword).toNat < 2 ^ 2 by decide)

theorem toNat_lt_32 {a : Mword} (h : a &&& ~~~0x1f = 0) : a.toNat < 32 := by
  rw [← and_eq_self_of_and_not h, BitVec.toNat_and]
  exact Nat.and_lt_two_pow _ (show (0x1f : Mword).toNat < 2 ^ 5 by decide)

theorem Charted.faithful_iff {fuel : Nat} (hc : Charted st) (ht : crd.type ≠ 0)
    (hl : st.lookup pd crd.base false = some m) (hland : landing st fuel this m xlt = some (n, ro)) :
    xltNode (st.mdb m) (st.mdb n) crd (xlt.base ||| (st.mdb n).nodeBase) ro = ⟨0⟩ ∨
        Faithful st this pd xlt crd
          (xltNode (st.mdb m) (st.mdb n) crd (xlt.base ||| (st.mdb n).nodeBase) ro) ↔
      Nests (st.mdb m) (st.mdb n) ro xlt crd := by
  have hmem := lookup_mem hl
  have hm := hc.wf.live_of_mem hmem
  obtain ⟨hro, hor⟩ := landing_spec hland
  obtain ⟨hn, habove⟩ : n ∈ st.tree this ∧ (n = m ∨ PrntChain st m n ∧ (st.mdb n).top ≤ 2 ^ 52) := by
    rcases hor with ⟨rfl, hs⟩ | hmem
    · refine ⟨?_, .inl rfl⟩
      rw [← hs]
      exact hm
    · obtain ⟨h1, h2⟩ := hc.mem_owned hm hmem
      exact ⟨h1, .inr h2⟩
  have hx := hc.wf.natural m hm
  have hy := hc.wf.natural n (hc.wf.live_of_mem hn)
  obtain ⟨-, hlo, hhi⟩ := hc.wf.lookup_iff.mp hl
  have hw : Within (st.mdb m) (st.mdb n) := by
    rcases habove with rfl | ⟨hchain, -⟩
    · exact Within.refl _
    · exact hc.tidy.forest.within_of_derived
        ((hc.tidy.parent.chain_iff hc.tidy.forest hm (hc.wf.live_of_mem hn)).mp hchain)
  obtain ⟨hs, hle, hend⟩ := rebase_spec hx hy hw hlo hhi
  have hxtop : (st.mdb m).top = (st.mdb m).nodeBase.toNat + 2 ^ (st.mdb m).nodeOrder.toNat := rfl
  have hytop : (st.mdb n).top = (st.mdb n).nodeBase.toNat + 2 ^ (st.mdb n).nodeOrder.toNat := rfl
  rw [xltNode_eq hx hy hw hlo hhi hro]
  unfold Nests
  dsimp only
  set s := rebase (st.mdb m) (st.mdb n) crd.base with hsdef
  split
  · rename_i hb
    -- the fields fit their places
    have hs52 : s.toNat < 2 ^ 52 := by
      have hcb := crd.base_lt
      rcases habove with rfl | ⟨-, htop⟩ <;> omega
    have hT52 : (xlt.base ||| s).toNat < 2 ^ 52 := by
      rw [BitVec.toNat_or]
      exact Nat.or_lt_two_pow xlt.base_lt hs52
    have hO : (wmin (wmin (st.mdb m).nodeOrder crd.order) ro).toNat =
        min (min (st.mdb m).nodeOrder.toNat crd.order.toNat) ro.toNat := by
      rw [toNat_wmin, toNat_wmin]
    have hO32 : (wmin (wmin (st.mdb m).nodeOrder crd.order) ro).toNat < 32 := by
      have := crd.order_lt
      omega
    have ha := toNat_lt_32 (hc.fiveBits m hm)
    obtain ⟨hbase, horder⟩ := Crd.make_fields (Crd.type_lt crd) hT52 hO32 ha
    have hne : Crd.make crd.type (xlt.base ||| s) (wmin (wmin (st.mdb m).nodeOrder crd.order) ro)
        (st.mdb m).nodeAttr ≠ ⟨0⟩ := by
      intro h
      have hval := Crd.toNat_make (Crd.type_lt crd) hT52 hO32 ha
      rw [h, show (0 : Mword).toNat = 0 from rfl] at hval
      exact ht (BitVec.eq_of_toNat_eq (show crd.type.toNat = 0 by omega))
    set r := Crd.make crd.type (xlt.base ||| s) (wmin (wmin (st.mdb m).nodeOrder crd.order) ro)
        (st.mdb m).nodeAttr with hr
    have hmatch := matches_iff hx hy hw hlo hhi (show r.base = xlt.base ||| _ from hbase)
    rw [hbase, horder, hO] at hmatch
    rw [or_iff_right hne, or_iff_right (not_not.mpr hb), ← hsdef] at *
    rw [← hmatch]
    constructor
    · -- the first index of the result is in one node of the receiver only
      rintro ⟨m', n', hl', hn', -, hfit⟩
      obtain rfl := Option.some.inj (hl.symm.trans hl')
      have hfirst : r.Has (xlt.base ||| s).toNat := by
        unfold Crd.Has
        rw [hbase]
        have := Nat.two_pow_pos r.order.toNat
        omega
      have hiny := rebase_in hx hy hw hlo hhi
      have hT : SameBlock (st.mdb n).nodeOrder.toNat s (xlt.base ||| s) := by
        have hord := hw.1
        have := sameBlock_or (hb.mono (show _ ≤ (st.mdb n).nodeOrder.toNat by omega))
        rwa [or_rebase hy hiny] at this
      have hin := (sameBlock_iff_of_aligned hy.base).mp (hiny.trans hT)
      rwa [hc.wf.eq_of_mem hn hn' hin (hfit _ hfirst).2.1]
    · intro h
      refine ⟨m, n, hl, hn, ?_, h⟩
      rcases habove with h | h
      · exact .inl h
      · exact .inr h.1
  · rename_i hb
    exact ⟨fun _ => .inl hb, fun _ => .inl rfl⟩

theorem rebase_self {x y : Mdb} (hx : x.nodePhys = x.nodeBase) (hy : y.nodePhys = y.nodeBase) (sb : Mword) :
    rebase x y sb = sb := by
  unfold rebase
  rw [hx, hy]
  ring

theorem xltNode_ports {x y : Mdb} (hx : x.nodePhys = x.nodeBase) (hy : y.nodePhys = y.nodeBase)
    (hxo : x.nodeOrder.toNat < 64) (hro : ro.toNat < 64) (hcov : x.covers crd.base = true) (w : Mword) :
    xltNode x y crd w ro =
      if SameBlock (max (min x.nodeOrder.toNat crd.order.toNat) ro.toNat) (crd.base ||| x.nodeBase) w then
        Crd.make crd.type (w ||| (crd.base ||| x.nodeBase)) (wmin (wmin x.nodeOrder crd.order) ro) x.nodeAttr
      else ⟨0⟩ := by
  have hco := crd.order_lt
  have hin : SameBlock x.nodeOrder.toNat x.nodeBase crd.base := by
    unfold Mdb.covers at hcov
    rwa [beq_iff_eq, shr_xor_eq_zero, mod_64_eq hxo] at hcov
  have hfirst : clamp x.nodeBase crd.base x.nodeOrder crd.order =
      (wmin x.nodeOrder crd.order, crd.base ||| x.nodeBase) := by
    have hne : (clamp x.nodeBase crd.base x.nodeOrder crd.order).1 ≠ ones := by
      rw [ne_eq, clamp_eq_ones_iff hxo (by omega), not_not]
      exact hin.mono (Nat.le_max_left _ _)
    obtain ⟨h2, h1⟩ := clamp_of_ne_ones hne
    exact Prod.ext h1 h2
  have hso : (wmin x.nodeOrder crd.order).toNat < 64 := by
    rw [toNat_wmin]
    omega
  have hiff := clamp_eq_ones_iff (x := crd.base ||| x.nodeBase) (b := w) hso hro
  rw [toNat_wmin] at hiff
  simp only [xltNode, hfirst, rebase_self hx hy]
  by_cases hb : SameBlock (max (min x.nodeOrder.toNat crd.order.toNat) ro.toNat) (crd.base ||| x.nodeBase) w
  · have hne : (clamp (crd.base ||| x.nodeBase) w (wmin x.nodeOrder crd.order) ro).1 ≠ ones :=
      fun h => hiff.mp h hb
    obtain ⟨h2, h1⟩ := clamp_of_ne_ones hne
    rw [if_pos hne, if_pos hb, h2, h1]
  · rw [if_neg (not_not.mpr (hiff.mpr hb)), if_neg hb]

theorem matches_ports {x y : Mdb} {r : Crd} (hx : x.nodePhys = x.nodeBase) (hy : y.nodePhys = y.nodeBase)
    (hxr : x.nodeBase.toNat ≤ r.base.toNat) (hcr : crd.base.toNat ≤ r.base.toNat)
    (hwr : xlt.base.toNat ≤ r.base.toNat) :
    Matches x y xlt crd r ↔ r.base.toNat + 2 ^ r.order.toNat ≤ xlt.base.toNat + 2 ^ xlt.order.toNat ∧
      r.base.toNat + 2 ^ r.order.toNat ≤ crd.base.toNat + 2 ^ crd.order.toNat ∧
      r.base.toNat + 2 ^ r.order.toNat ≤ x.top ∧ y.nodeBase.toNat ≤ r.base.toNat ∧
      r.base.toNat + 2 ^ r.order.toNat ≤ y.top := by
  have hpos := Nat.two_pow_pos r.order.toNat
  unfold Matches Crd.Has
  rw [hx, hy]
  constructor
  · intro h
    obtain ⟨h1, h2, j, h3, h4, h5⟩ := h r.base.toNat ⟨le_rfl, by omega⟩
    obtain ⟨h1', h2', j', h3', h4', h5'⟩ := h (r.base.toNat + 2 ^ r.order.toNat - 1) ⟨by omega, by omega⟩
    omega
  · rintro ⟨h1, h2, h3, h4, h5⟩ i hi
    exact ⟨by omega, by omega, i, by omega, by omega, by omega⟩

theorem Ports.faithful_iff {fuel : Nat} (hp : Ports st) (ht : crd.type ≠ 0)
    (hl : st.lookup pd crd.base false = some m) (hland : landing st fuel this m xlt = some (n, ro)) :
    xltNode (st.mdb m) (st.mdb n) crd (xlt.base ||| (st.mdb n).nodeBase) ro = ⟨0⟩ ∨
        Faithful st this pd xlt crd
          (xltNode (st.mdb m) (st.mdb n) crd (xlt.base ||| (st.mdb n).nodeBase) ro) ↔
      Keeps st this m n ro xlt crd := by
  obtain ⟨hro, -⟩ := landing_spec hland
  have hm := (hp m).small
  have hn := (hp n).small
  have hmo : (st.mdb m).nodeOrder.toNat < 32 := hm.2
  have hno : (st.mdb n).nodeOrder.toNat < 32 := hn.2
  have hcov : (st.mdb m).covers crd.base = true := by
    unfold State.lookup lookup at hl
    simp only [Bool.false_eq_true, if_false] at hl
    split at hl
    · rename_i k hk
      obtain rfl := Option.some.inj hl
      simpa using List.find?_some hk
    · simp at hl
  rw [xltNode_ports ((hp m).phys) ((hp n).phys) (by omega) (by omega) hcov]
  unfold Keeps
  dsimp only
  set w := xlt.base ||| (st.mdb n).nodeBase with hw
  set s := crd.base ||| (st.mdb m).nodeBase with hs
  split
  · rename_i hb
    have hT52 : (w ||| s).toNat < 2 ^ 52 := by
      rw [BitVec.toNat_or, hw, hs, BitVec.toNat_or, BitVec.toNat_or]
      exact Nat.or_lt_two_pow (Nat.or_lt_two_pow xlt.base_lt hn.1) (Nat.or_lt_two_pow crd.base_lt hm.1)
    have hO : (wmin (wmin (st.mdb m).nodeOrder crd.order) ro).toNat =
        min (min (st.mdb m).nodeOrder.toNat crd.order.toNat) ro.toNat := by
      rw [toNat_wmin, toNat_wmin]
    have hO32 : (wmin (wmin (st.mdb m).nodeOrder crd.order) ro).toNat < 32 := by
      have := crd.order_lt
      omega
    have ha := toNat_lt_32 ((hp m).rights)
    obtain ⟨hbase, horder⟩ := Crd.make_fields (Crd.type_lt crd) hT52 hO32 ha
    have hne : Crd.make crd.type (w ||| s) (wmin (wmin (st.mdb m).nodeOrder crd.order) ro)
        (st.mdb m).nodeAttr ≠ ⟨0⟩ := by
      intro h
      have hval := Crd.toNat_make (Crd.type_lt crd) hT52 hO32 ha
      rw [h, show (0 : Mword).toNat = 0 from rfl] at hval
      exact ht (BitVec.eq_of_toNat_eq (show crd.type.toNat = 0 by omega))
    set r := Crd.make crd.type (w ||| s) (wmin (wmin (st.mdb m).nodeOrder crd.order) ro)
        (st.mdb m).nodeAttr with hr
    have h1 := (le_or_left xlt.base (st.mdb n).nodeBase).trans (le_or_left w s)
    have h2 := (le_or_left crd.base (st.mdb m).nodeBase).trans (le_or_right w s)
    have h3 := (le_or_right crd.base (st.mdb m).nodeBase).trans (le_or_right w s)
    have hmatch : ∀ p, Matches (st.mdb m) (st.mdb p) xlt crd r ↔ _ := fun p =>
      matches_ports ((hp m).phys) ((hp p).phys) (by rw [hbase]; exact h3) (by rw [hbase]; exact h2)
        (by rw [hbase]; exact h1)
    simp only [hbase, horder, hO] at hmatch
    rw [or_iff_right hne, or_iff_right (not_not.mpr hb)]
    constructor
    · rintro ⟨m', p, hl', hpt, hrel, hfit⟩
      obtain rfl := Option.some.inj (hl.symm.trans hl')
      obtain ⟨h1, h2, h3, h4, h5⟩ := (hmatch p).mp hfit
      exact ⟨h1, h2, h3, p, hpt, hrel, h4, h5⟩
    · rintro ⟨h1, h2, h3, p, hpt, hrel, h4, h5⟩
      exact ⟨m, p, hl, hpt, hrel, (hmatch p).mpr ⟨h1, h2, h3, h4, h5⟩⟩
  · rename_i hb
    exact ⟨fun _ => .inl hb, fun _ => .inl rfl⟩

theorem xltSpace_iff {fuel : Nat} {Q : NodeId → NodeId → Mword → Prop}
    (hown : ∀ m, st.lookup pd crd.base false = some m → ∀ n ∈ owned st fuel this m,
      (st.mdb n).nodeOrder.toNat < 64 ∧ (st.mdb n).nodeBase.toNat < 2 ^ 52)
    (hQ : ∀ m n ro, st.lookup pd crd.base false = some m → landing st fuel this m xlt = some (n, ro) →
      (xltNode (st.mdb m) (st.mdb n) crd (xlt.base ||| (st.mdb n).nodeBase) ro = ⟨0⟩ ∨
        Faithful st this pd xlt crd
          (xltNode (st.mdb m) (st.mdb n) crd (xlt.base ||| (st.mdb n).nodeBase) ro) ↔ Q m n ro))
    {r : Crd} (h : xltSpace st fuel this pd xlt crd = some r) :
    (r = ⟨0⟩ ∨ Faithful st this pd xlt crd r) ↔ ∀ m n ro, st.lookup pd crd.base false = some m →
      landing st fuel this m xlt = some (n, ro) → Q m n ro := by
  unfold xltSpace at h
  cases hl : st.lookup pd crd.base false with
  | none =>
    rw [hl] at h
    obtain rfl := Option.some.inj h
    simp
  | some m =>
    rw [hl] at h
    dsimp only at h
    split at h
    · simp at h
    · rename_i q hq
      obtain rfl := climb_sender hq
      obtain ⟨hsome, hnone⟩ := search this xlt (hown m hl)
      cases hland : landing st fuel this m xlt with
      | none =>
        have h1 := hnone hland
        split at h
        · obtain rfl := Option.some.inj h
          refine iff_of_true (.inl rfl) ?_
          rintro m' n ro hm' hla
          obtain rfl := Option.some.inj hm'
          rw [hland] at hla
          simp at hla
        · rename_i heq
          rw [heq] at h1
          simp at h1
      | some q =>
        obtain ⟨n, ro⟩ := q
        rw [hsome n ro hland] at h
        obtain rfl := Option.some.inj h
        rw [hQ m n ro hl hland]
        constructor
        · rintro hq m' n' ro' hm' hla
          obtain rfl := Option.some.inj hm'
          rw [hland] at hla
          obtain ⟨rfl, rfl⟩ := Prod.mk.inj (Option.some.inj hla)
          exact hq
        · exact fun hall => hall m n ro rfl hland

theorem Charted.xltSpace_isSome (hc : Charted st) {fuel : Nat} (hf : st.fresh < fuel) :
    (xltSpace st fuel this pd xlt crd).isSome := by
  unfold xltSpace
  cases hl : st.lookup pd crd.base false with
  | none => rfl
  | some m =>
    have hm := hc.wf.live_of_mem (lookup_mem hl)
    have hlt : (m : Nat) < st.fresh := hc.wf.lt hm
    obtain ⟨r, hr⟩ := Option.isSome_iff_exists.mp
      (hc.climb_isSome this (m := m) hm ((Nat.succ_le_of_lt hlt).trans_lt hf) xlt.base xlt.order)
    dsimp only
    rw [hr]
    dsimp only
    split <;> rfl

end Sound

section Examples

/-- Sixteen pages go from domain 1 to 2, back to 1 at another place and on to 3. -/
def backAndOn : List Op :=
  [.insertRoot 1 0x100 0x100 4 0x1f 0, .delegate 2 1 0x100 0x200 4 0x1f 0,
    .delegate 1 2 0x200 0x300 4 0x1f 0, .delegate 3 1 0x300 0x400 4 0x1f 0]

/-- Delegations that `Charted` allows. -/
def Addressable (st : State σ) (m : NodeId) : Prop := NoWrap st m ∧ (st.mdb m).top ≤ 2 ^ 52

instance (st : State σ) (m : NodeId) : Decidable (Addressable st m) := inferInstanceAs (Decidable (_ ∧ _))

theorem backAndOn_charted {st : State Unit} (h : execAll bareSpace 10 backAndOn (boot ()) = some st) :
    Charted st := by
  have hmeets : MeetsAll bareSpace Addressable OneChild (fun _ _ => True) 10 backAndOn (boot ()) := by
    decide +kernel
  have hreach : Reach bareSpace (fun _ _ => True) Addressable OneChild (fun _ _ => True) st :=
    (Reach.boot ()).execAll hmeets h
  exact hreach.charted bareSpace_frame stable_oneChild (fun _ _ h => h.1) (fun _ _ h => h.2) fun _ _ h => h

end Examples

end Tukija.Pd
