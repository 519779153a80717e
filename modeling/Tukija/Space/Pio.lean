import Tukija.Ids.Bits
import Tukija.Pd.Shown
import Tukija.Space.Obj

/-! `Space_pio`: the I/O ports of a protection domain, in a bitmap that the processor reads when the
domain runs and one that it reads for the guests of the domain.  What the processor has cached of the
translation to a bitmap is left out. -/
namespace Tukija.Space.Pio

open Tukija.Lib.Word Tukija.Mapdb Tukija.Pd
open Tukija.Ids (Words bit setBit clrBit bit_setBit bit_clrBit)

/-- `bmp pd true` is `hbmp` and `bmp pd false` is `gbmp`.  Where a domain has none, the processor finds
the frame of ones, or no guest. -/
structure PioState (θ : Type) where
  quota : θ
  bmp : PdId → Bool → Option Words

def SPC_LOCAL_IOP : Mword := 0xffffffffc0000000

def idxToVirt (idx : Mword) : Mword := SPC_LOCAL_IOP + idx / 8 / 8 * 8

/-- The word of a bitmap that `walk` finds, and the bit of `idx_to_mask`. -/
def word (idx : Mword) : Nat := (idxToVirt idx &&& 0x1fff).toNat / 8

def mask (idx : Mword) : Nat := (idx % 64).toNat

def port (idx : Mword) : Nat := 64 * word idx + mask idx

variable {θ : Type} (Q : Quotas θ)

namespace PioState

/-- `Space_pio::walk`: a bitmap is made on first use, with all ports closed. -/
def walk (pd : PdId) (host : Bool) (s : PioState θ) : PioState θ × Words :=
  match s.bmp pd host with
  | some w => (s, w)
  | none => ({ s with quota := Q.allocPage pd s.quota }, fun _ => BitVec.allOnes 64)

/-- `Space_pio::update` of a single port: it is opened if there are rights. -/
def write (pd : PdId) (host : Bool) (idx attr : Mword) (s : PioState θ) : PioState θ :=
  let (s, w) := s.walk Q pd host
  let w := if attr ≠ 0 then clrBit w (word idx) (mask idx) else setBit w (word idx) (mask idx)
  { s with bmp := Function.update s.bmp pd (Function.update (s.bmp pd) host (some w)) }

/-- The loop of `Space_pio::update` over the ports of a node. -/
def writeRange (pd : PdId) (host : Bool) (base attr : Mword) : Nat → PioState θ → PioState θ
  | 0, s => s
  | n + 1, s => (writeRange pd host base attr n s).write Q pd host (base + BitVec.ofNat 64 n) attr

def isOpen (s : PioState θ) (pd : PdId) (host : Bool) (p : Nat) : Bool :=
  match s.bmp pd host with
  | some w => !bit w p
  | none => false

end PioState

/-- `node_sub & 2`: the ports are for the guests as well. -/
def forGuests (x : Mdb) : Bool := x.nodeSub &&& 2 != 0

def pioSpace : SpaceOps (PioState θ) where
  stickySub _ := 0
  update x r s :=
    let n := (shl 1 x.nodeOrder).toNat
    let a := x.nodeAttr &&& ~~~r
    let s := if forGuests x then s.writeRange Q x.space false x.nodeBase a n else s
    (s.writeRange Q x.space true x.nodeBase a n, false, false)
  hitLimit pd s := Q.hitLimit pd s.quota
  alloc pd s := { s with quota := Q.alloc pd s.quota }
  destroy pd s := { s with quota := Q.destroy pd s.quota }
  check pd s := Q.check pd s.quota

section Ports

variable {Q} {s : PioState θ} {pd q : PdId} {host g : Bool} {idx attr base : Mword}

theorem mask_lt (idx : Mword) : mask idx < 64 := by
  unfold mask
  rw [BitVec.toNat_umod]
  exact Nat.mod_lt _ (by decide)

theorem port_eq (idx : Mword) : port idx = idx.toNat % 2 ^ 16 := by
  have hvirt : (idxToVirt idx &&& 0x1fff).toNat = (idxToVirt idx).toNat % 2 ^ 13 := by
    rw [BitVec.toNat_and]
    exact Nat.and_two_pow_sub_one_eq_mod _ 13
  have hdiv : (idx / 8 / 8 * 8).toNat = idx.toNat / 64 * 8 := by
    have hlt := idx.isLt
    rw [BitVec.toNat_mul, BitVec.toNat_udiv, BitVec.toNat_udiv, show (8 : Mword).toNat = 8 from rfl,
      Nat.div_div_eq_div_mul, Nat.mod_eq_of_lt (by omega)]
  have hmask : mask idx = idx.toNat % 64 := BitVec.toNat_umod
  have hlt := idx.isLt
  rw [port, word, hvirt, hmask, idxToVirt, BitVec.toNat_add, hdiv,
    show SPC_LOCAL_IOP.toNat = 0xffffffffc0000000 from rfl]
  omega

theorem walk_closed (p : Nat) : (!bit (s.walk Q pd host).2 p) = s.isOpen pd host p := by
  unfold PioState.walk PioState.isOpen
  split
  · rfl
  · rw [bit, BitVec.getLsbD_allOnes, decide_eq_true (Nat.mod_lt _ (by decide))]
    rfl

theorem walk_bmp : (s.walk Q pd host).1.bmp = s.bmp := by
  unfold PioState.walk
  split <;> rfl

theorem isOpen_write (p : Nat) : (s.write Q pd host idx attr).isOpen q g p =
    if q = pd ∧ g = host ∧ p = port idx then decide (attr ≠ 0) else s.isOpen q g p := by
  by_cases hq : q = pd ∧ g = host
  · obtain ⟨rfl, rfl⟩ := hq
    have hclosed : (!bit (s.walk Q q g).2 p) = s.isOpen q g p := walk_closed p
    have hnew : (s.write Q q g idx attr).isOpen q g p =
        !bit (if attr ≠ 0 then clrBit (s.walk Q q g).2 (word idx) (mask idx)
          else setBit (s.walk Q q g).2 (word idx) (mask idx)) p := by
      simp only [PioState.write, PioState.isOpen, Function.update_self]
    rw [hnew, ← hclosed]
    by_cases ha : attr = 0
    · rw [if_neg (not_not.mpr ha), bit_setBit _ _ _ (mask_lt idx)]
      by_cases hp : p = port idx
      · simp [hp, ha, port]
      · simp [show p ≠ 64 * word idx + mask idx from hp, hp]
    · rw [if_pos ha, bit_clrBit _ _ _ (mask_lt idx)]
      by_cases hp : p = port idx
      · simpa [hp, port] using ha
      · simp [show p ≠ 64 * word idx + mask idx from hp, hp]
  · have hsame : (s.write Q pd host idx attr).bmp q g = s.bmp q g := by
      simp only [PioState.write, walk_bmp]
      by_cases hpd : q = pd
      · subst hpd
        rw [Function.update_self, Function.update_of_ne (fun hg => hq ⟨rfl, hg⟩)]
      · rw [Function.update_of_ne hpd]
    rw [if_neg fun h => hq ⟨h.1, h.2.1⟩]
    simp only [PioState.isOpen, hsame]

theorem isOpen_writeRange (n p : Nat) : (s.writeRange Q pd host base attr n).isOpen q g p =
    if q = pd ∧ g = host ∧ ∃ k < n, p = port (base + BitVec.ofNat 64 k) then decide (attr ≠ 0)
    else s.isOpen q g p := by
  induction n with
  | zero => simp [PioState.writeRange]
  | succ n ih =>
    rw [PioState.writeRange, isOpen_write, ih]
    by_cases hn : q = pd ∧ g = host ∧ p = port (base + BitVec.ofNat 64 n)
    · rw [if_pos hn, if_pos ⟨hn.1, hn.2.1, n, Nat.lt_succ_self n, hn.2.2⟩]
    · rw [if_neg hn]
      refine if_congr ⟨?_, ?_⟩ rfl rfl
      · rintro ⟨hq, hg, k, hk, hp⟩
        exact ⟨hq, hg, k, by omega, hp⟩
      · rintro ⟨hq, hg, k, hk, hp⟩
        refine ⟨hq, hg, k, ?_, hp⟩
        have hne : k ≠ n := by
          rintro rfl
          exact hn ⟨hq, hg, hp⟩
        omega

end Ports

/-! ### Ports against nodes -/

/-- Changes of memory that open or close no port. -/
def SamePorts (s s' : PioState θ) : Prop := ∀ pd g p, s'.isOpen pd g p = s.isOpen pd g p

def pioView : View (PioState θ) (Bool × Bool) where
  see s pd i := (s.isOpen pd true (port i), s.isOpen pd false (port i))
  nothing := (false, false)
  grant x a _ := (decide (a ≠ 0), decide (a ≠ 0) && forGuests x)
  index i := i.toNat < 2 ^ 16

section Coherent

variable {Q} {st st' : State (PioState θ)} {x : Mdb} {s : PioState θ}

theorem pioSpace_frame : (pioSpace Q).Frame SamePorts where
  refl _ _ _ _ := rfl
  trans _ _ _ h h' pd g p := (h' pd g p).trans (h pd g p)
  alloc _ _ _ _ _ := rfl
  destroy _ _ _ _ _ := rfl

theorem covers_iff_port (hx : x.Natural) (hlow : ∀ j, x.covers j = true → pioView (θ := θ).index j) {i : Mword}
    (hi : i.toNat < 2 ^ 16) :
    (∃ k < (shl 1 x.nodeOrder).toNat, port i = port (x.nodeBase + BitVec.ofNat 64 k)) ↔ x.covers i = true := by
  have htop : x.top ≤ 2 ^ 16 := by
    have hpos := Nat.two_pow_pos x.nodeOrder.toNat
    have hle : x.top ≤ 2 ^ 64 := hx.base.add_le hx.order_lt.le
    have hlast : x.covers (BitVec.ofNat 64 (x.top - 1)) = true := by
      rw [hx.covers_iff, BitVec.toNat_ofNat, Nat.mod_eq_of_lt (by omega)]
      unfold Mdb.top
      omega
    have hlt : (BitVec.ofNat 64 (x.top - 1)).toNat < 2 ^ 16 := hlow _ hlast
    rw [BitVec.toNat_ofNat, Nat.mod_eq_of_lt (by omega)] at hlt
    omega
  rw [hx.covers_iff, toNat_shl_one hx.order_lt, port_eq i, Nat.mod_eq_of_lt hi]
  unfold Mdb.top at htop ⊢
  have hport : ∀ k < 2 ^ x.nodeOrder.toNat, port (x.nodeBase + BitVec.ofNat 64 k) = x.nodeBase.toNat + k := by
    intro k hk
    rw [port_eq, BitVec.toNat_add, BitVec.toNat_ofNat]
    omega
  constructor
  · rintro ⟨k, hk, hik⟩
    rw [hport k hk] at hik
    omega
  · rintro ⟨hle, hlt⟩
    exact ⟨i.toNat - x.nodeBase.toNat, by omega, by rw [hport _ (by omega)]; omega⟩

theorem pioView_lawful : (pioView (θ := θ)).Lawful (pioSpace Q) SamePorts where
  frame s s' h := by
    funext pd i
    exact Prod.ext (h pd true _) (h pd false _)
  zero x i := by simp [pioView]
  same x y a i h := by simp only [pioView, forGuests, h.sub]
  update x r s hx hlow hsee pd i hpd hi := by
    have hcov := covers_iff_port hx hlow hi
    have hhost : ((pioSpace Q).update x r s).1.isOpen pd true (port i) =
        if pd = x.space ∧ x.covers i = true then decide (x.nodeAttr &&& ~~~r ≠ 0) else s.isOpen pd true (port i) := by
      simp only [pioSpace, isOpen_writeRange, hcov, true_and]
      split
      · rfl
      · split
        · rw [isOpen_writeRange, if_neg (by simp)]
        · rfl
    have hguest : ((pioSpace Q).update x r s).1.isOpen pd false (port i) =
        if pd = x.space ∧ x.covers i = true then decide (x.nodeAttr &&& ~~~r ≠ 0) && forGuests x
        else s.isOpen pd false (port i) := by
      have hfirst : ((pioSpace Q).update x r s).1.isOpen pd false (port i) =
          (if forGuests x then s.writeRange Q x.space false x.nodeBase (x.nodeAttr &&& ~~~r)
            (shl 1 x.nodeOrder).toNat else s).isOpen pd false (port i) := by
        simp only [pioSpace]
        rw [isOpen_writeRange, if_neg (by simp)]
      rw [hfirst]
      cases hg : forGuests x with
      | true => simp only [if_true, isOpen_writeRange, hcov, true_and, Bool.and_true]
      | false =>
        simp only [Bool.false_eq_true, if_false, Bool.and_false]
        split
        · rename_i hc
          obtain ⟨rfl, hc⟩ := hc
          have hclosed : (s.isOpen x.space false (port i)) = false := by
            rcases hsee hpd i hc with h | h
            · exact congrArg Prod.snd h
            · have hsnd := congrArg Prod.snd h
              simpa [pioView, hg] using hsnd
          exact hclosed
        · rfl
    simp only [pioView, hhost, hguest]
    split <;> rfl

end Coherent

/-- The states that delegations of ports and revocations lead to, with all ranges naturally aligned.  In
between, memory may change as long as no port does. -/
inductive PortReach (Q : Quotas θ) : State (PioState θ) → Prop where
  | boot (space : PioState θ) (h : ∀ pd g, space.bmp pd g = none) : PortReach Q (boot space)
  | env {st : State (PioState θ)} {space : PioState θ} (oom iommu preemption : Bool) (h : PortReach Q st)
      (he : SamePorts st.space space) :
      PortReach Q { st with space := space, oom := oom, iommu := iommu, preemption := preemption }
  | region {st : State (PioState θ)} (base order attr : Mword) (h : PortReach Q st) (ho : order.toNat < 64)
      (hb : Aligned order.toNat base) (ha : attr &&& ~~~0x1f = 0) (htop : base.toNat + 2 ^ order.toNat ≤ 2 ^ 16) :
      PortReach Q (insertRoot (pioSpace Q) kern base base order attr 0 st).1
  | delegate {st : State (PioState θ)} {r : State (PioState θ) × Bool} (fuel : Nat) (this snd : PdId)
      (base ord attr sub : Mword) (h : PortReach Q st) (ho : ord.toNat < 64) (hb : Aligned ord.toNat base)
      (hd : delegate (pioSpace Q) fuel this snd base base ord attr sub st = some r) : PortReach Q r.1
  | revoke {st st' : State (PioState θ)} (fuel : Nat) (pd : PdId) (base ord attr : Mword) (self kim : Bool)
      (h : PortReach Q st) (hr : revoke (pioSpace Q) fuel pd base ord attr self kim st = some st') : PortReach Q st'

section Reach

variable {Q} {st : State (PioState θ)}

theorem PortReach.shown (h : PortReach Q st) : Wf st ∧ Shown pioView st := by
  have hW : (pioView (θ := θ)).Lawful (pioSpace Q) SamePorts := pioView_lawful
  induction h with
  | boot space h =>
    refine ⟨Wf.boot space, Shown.boot pioView space fun pd i => ?_⟩
    simp only [pioView, PioState.isOpen, h]
  | @env st space oom iommu preemption _ he ih =>
    have hq : Quiet SamePorts st
        { st with space := space, oom := oom, iommu := iommu, preemption := preemption } :=
      ⟨he, fun _ _ => rfl, le_rfl, rfl, rfl⟩
    exact ⟨hq.wf ih.1, ih.2.quiet hW ih.1 hq⟩
  | @region st base order attr _ ho hb ha htop ih =>
    refine ih.2.region hW pioSpace_frame ih.1 ho hb hb ha fun i hi => ?_
    have hnat : (rootNode kern st.fresh base base order attr 0).Natural := ⟨ho, hb, hb⟩
    exact ((hnat.covers_iff i).mp hi).2.trans_le htop
  | delegate fuel this snd base ord attr sub _ ho hb hd ih =>
    exact ih.2.delegate hW pioSpace_frame ih.1 ho hb hd
  | revoke fuel pd base ord attr self kim _ hr ih => exact ih.2.revoke hW ih.1 hr

/-- After every history of delegations and revocations, an access of a domain to a port passes exactly if
a node of the domain covers the port and has rights, and one of its guests passes exactly if the node is
for guests as well. -/
theorem ports_shown {pd : PdId} {p : Mword} (h : PortReach Q st) (hpd : pd ≠ kern) (hp : p.toNat < 2 ^ 16) :
    (st.space.isOpen pd true p.toNat = true ↔
        ∃ n, st.lookup pd p false = some n ∧ (st.mdb n).nodeAttr ≠ 0) ∧
      (st.space.isOpen pd false p.toNat = true ↔
        ∃ n, st.lookup pd p false = some n ∧ (st.mdb n).nodeAttr ≠ 0 ∧ forGuests (st.mdb n) = true) := by
  obtain ⟨hw, hs⟩ := h.shown
  have hsee := hs.see hw hpd (show pioView.index p from hp)
  have hport : port p = p.toNat := by rw [port_eq, Nat.mod_eq_of_lt hp]
  simp only [pioView, hport] at hsee
  cases hl : st.lookup pd p false with
  | none =>
    rw [hl] at hsee
    simp [(Prod.mk.inj hsee).1, (Prod.mk.inj hsee).2]
  | some n =>
    rw [hl] at hsee
    simp [(Prod.mk.inj hsee).1, (Prod.mk.inj hsee).2]

end Reach

section Examples

def unlimited : Quotas Unit where
  hitLimit _ _ := false
  alloc _ s := s
  destroy _ s := s
  check _ _ := true
  allocPage _ s := s
  junk _ := false

def fourPorts : State (PioState Unit) :=
  (insertRoot (pioSpace unlimited) kern 0 0 2 7 0 (boot ⟨(), fun _ _ => none⟩)).1

theorem reach_fourPorts : PortReach unlimited fourPorts :=
  .region 0 2 7 (.boot _ fun _ _ => rfl) (by decide) (by decide) (by decide) (by decide)

/-- Domain 1 gets the upper two, for its guests as well. -/
theorem ports_shown_fourPorts : ∃ r, delegate (pioSpace unlimited) 3 1 kern 2 2 1 1 2 fourPorts = some r ∧
    r.1.space.isOpen 1 false 3 = true ∧ ∃ n, r.1.lookup 1 3 false = some n ∧ (r.1.mdb n).nodeAttr ≠ 0 ∧
      forGuests (r.1.mdb n) = true := by
  have hrun : (delegate (pioSpace unlimited) 3 1 kern 2 2 1 1 2 fourPorts).map
      (fun r => r.1.space.isOpen 1 false 3) = some true := by decide +kernel
  obtain ⟨r, hr, hopen⟩ := Option.map_eq_some_iff.mp hrun
  have hreach : PortReach unlimited r.1 :=
    .delegate 3 1 kern 2 1 1 2 reach_fourPorts (by decide) (by decide) hr
  exact ⟨r, hr, hopen, ((ports_shown hreach (by decide) (show (3 : Mword).toNat < 2 ^ 16 by decide)).2.mp hopen)⟩

/-- A range that is not aligned: domain 1 may access port 2, which no node of it covers. -/
theorem unaligned_open : ∃ r, delegate (pioSpace unlimited) 3 1 kern 1 1 1 1 0 fourPorts = some r ∧
    r.1.space.isOpen 1 true 2 = true ∧ r.1.lookup 1 2 false = none := by
  have hrun : (delegate (pioSpace unlimited) 3 1 kern 1 1 1 1 0 fourPorts).map
      (fun r => (r.1.space.isOpen 1 true 2, r.1.lookup 1 2 false)) = some (true, none) := by decide +kernel
  obtain ⟨r, hr, heq⟩ := Option.map_eq_some_iff.mp hrun
  exact ⟨r, hr, (Prod.mk.inj heq).1, (Prod.mk.inj heq).2⟩

end Examples

end Tukija.Space.Pio
