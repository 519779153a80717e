import Tukija.Space.Walks

/-! The calls that change page tables, cells included: what they must heed so that
no walk comes to the frame of a larger page. -/
namespace Tukija.Space

open Tukija.Lib.Word Tukija.Lib.Radix Tukija.Mapdb Tukija.Pd

variable {θ : Type} {G : Gear θ}

/-- Each larger page is there for a node, in all tables, and no walk has come to one. -/
structure Tame (G : Gear θ) (st : State (MemState (Backed θ))) : Prop where
  host : Backs G.hostKind st.space.hpt st
  device : Backs G.deviceKind st.space.quota.device st
  guest : Backs G.guestKind st.space.quota.guest st
  wild : st.space.wild = false
  trees_wild : st.space.quota.wild = false
  reach : ∀ n, st.Live n → G.InReach (st.mdb n)

namespace Tame

variable {st st' : State (MemState (Backed θ))} {m n : NodeId} {r : Mword} {leaf : Bool}

theorem quiet (h : Tame G st) (hw : Wf st) (hq : Quiet SameWalks st st') : Tame G st' := by
  have htrees := hq.space.trees
  have htables := hq.space.host
  refine ⟨?_, ?_, ?_, htables.2.trans h.wild, htrees.wild.trans h.trees_wild, ?_⟩
  · rw [htables.1]
    exact h.host.quiet hw hq
  · rw [htrees.device]
    exact h.device.quiet hw hq
  · rw [htrees.guest]
    exact h.guest.quiet hw hq
  · intro x hx
    have hlive := (hq.live hw x).mp hx
    rw [hq.mdb x (hw.lt hlive)]
    exact h.reach x hlive

theorem added_reach (h : Tame G st) (hw : Wf st) (ha : Added st st' n)
    (hn : G.InReach (st'.mdb n)) (x : NodeId) (hx : st'.Live x) : G.InReach (st'.mdb x) := by
  rcases (ha.live hw x).mp hx with rfl | hlive
  · exact hn
  · exact (h.reach x hlive).of_same (ha.old x (hw.lt hlive)).1

theorem rooted (h : Tame G st) (hw : Wf st) (hr : Rooted SameWalks st st' n) : Tame G st' := by
  have htrees := hr.space.trees
  have htables := hr.space.host
  refine ⟨?_, ?_, ?_, htables.2.trans h.wild, htrees.wild.trans h.trees_wild, ?_⟩
  · rw [htables.1]
    exact h.host.added hw hr.toAdded
  · rw [htrees.device]
    exact h.device.added hw hr.toAdded
  · rw [htrees.guest]
    exact h.guest.added hw hr.toAdded
  · apply h.added_reach hw hr.toAdded
    intro hsub
    rw [hr.sub] at hsub
    simp at hsub

theorem granted (h : Tame G st) (hw : Wf st) (hg : Granted (memSpace G.tables) SameWalks st st' m n)
    (hn : G.InReach (st'.mdb n)) : Tame G st' := by
  obtain ⟨s, hs, hsp⟩ := hg.space
  have hw' := hg.wf hw
  have hlive : st'.Live n := (hg.live hw n).mpr (Or.inl rfl)
  -- the tables that the update finds
  have hhost : Fits G.hostKind (st'.mdb n) s.hpt := by
    rw [hs.host.1]
    exact (h.host.added hw hg.toAdded).fits hw' hlive
  have hdevice : Fits G.deviceKind (st'.mdb n) s.quota.device := by
    rw [hs.trees.device]
    exact (h.device.added hw hg.toAdded).fits hw' hlive
  have hguest : Fits G.guestKind (st'.mdb n) s.quota.guest := by
    rw [hs.trees.guest]
    exact (h.guest.added hw hg.toAdded).fits hw' hlive
  have hup := Gear.update_updated (r := 0) (hw'.natural n hlive) hn hhost hdevice hguest
  have heq : st'.space = (MemState.update G.tables (st'.mdb n) 0 s).1 := hsp
  rw [← heq] at hup
  refine ⟨?_, ?_, ?_, hup.wild.trans (hs.host.2.trans h.wild),
    hup.trees_wild.trans (hs.trees.wild.trans h.trees_wild), h.added_reach hw hg.toAdded hn⟩
  · have hr := hup.host
    rw [hs.host.1] at hr
    exact h.host.granted hw hg hr
  · have hr := hup.device
    rw [hs.trees.device] at hr
    exact h.device.granted hw hg hr
  · have hr := hup.guest
    rw [hs.trees.guest] at hr
    exact h.guest.granted hw hg hr

theorem demoted (h : Tame G st) (hw : Wf st) (hd : Demoted st st' n r)
    (hs : st'.space = (MemState.update G.tables (st.mdb n) r st.space).1) : Tame G st' := by
  have hup := Gear.update_updated (r := r) (hw.natural n hd.live) (h.reach n hd.live)
    (h.host.fits hw hd.live) (h.device.fits hw hd.live) (h.guest.fits hw hd.live)
  rw [← hs] at hup
  refine ⟨h.host.demoted hw hd hup.host, h.device.demoted hw hd hup.device,
    h.guest.demoted hw hd hup.guest, hup.wild.trans h.wild, hup.trees_wild.trans h.trees_wild, ?_⟩
  intro x hx
  exact (h.reach x ((hd.live_iff x).mp hx)).of_same (hd.node x).1

theorem dropped (h : Tame G st) (hw : Wf st) (hd : Dropped leaf st st' n) : Tame G st' := by
  have hsp := hd.space
  refine ⟨?_, ?_, ?_, ?_, ?_, ?_⟩
  · rw [hsp]
    exact h.host.dropped hw hd
  · rw [hsp]
    exact h.device.dropped hw hd
  · rw [hsp]
    exact h.guest.dropped hw hd
  · rw [hsp]
    exact h.wild
  · rw [hsp]
    exact h.trees_wild
  · intro x hx
    exact (h.reach x ((hd.live_iff hw x).mp hx).2).of_same (hd.node x).1

theorem effect {L : State (MemState (Backed θ)) → NodeId → Prop} (hw : Wf st) (h : Tame G st)
    (he : Effect (memSpace G.tables) SameWalks (fun _ _ => False) L (fun _ _ => False) st st') :
    Tame G st' := by
  cases he with
  | quiet hq => exact h.quiet hw hq
  | granted m n hG _ => exact hG.elim
  | rooted n hr => exact h.rooted hw hr
  | demoted n r hd hs => exact h.demoted hw hd hs
  | stripped n hu _ _ => exact hu.elim
  | unlinked n hd => exact h.dropped hw hd
  | lifted n _ _ hd => exact h.dropped hw hd

end Tame

/-- A window whose nodes are in reach when they are delegated with `sub`. -/
def Gear.Covers (G : Gear θ) (rcvBase ord sub : Mword) : Prop :=
  ¬(sub &&& 0x1 = 0 ∨ G.iommu = .none) ∨ sub &&& 0x2 ≠ 0 → rcvBase.toNat + 2 ^ ord.toNat ≤ 512 ^ 4

theorem sticky_and {old sub b : Mword} (hb : 0x4 &&& b = 0) :
    (old &&& 0x4 ||| sub) &&& b = sub &&& b := by
  rw [BitVec.and_or_distrib_right, BitVec.and_assoc, hb]
  simp

theorem received_inReach {this : PdId} {rcvBase ord sub old : Mword} {x : Mdb}
    (h : Received (memSpace G.tables) this rcvBase ord sub old x) (hc : G.Covers rcvBase ord sub) :
    G.InReach x := by
  intro hsub
  apply h.high.trans
  apply hc
  have hs : x.nodeSub = old &&& 0x4 ||| sub := h.sub
  rwa [hs, sticky_and (by decide), sticky_and (by decide)] at hsub

section Calls

variable {st st' : State (MemState (Backed θ))} {fuel : Nat}

def Gear.Heeds (G : Gear θ) : Op → Prop
  | .delegate _ _ _ rcvBase ord _ sub => G.Covers rcvBase ord sub
  | _ => True

theorem Tame.exec {op : Op} (h : Tame G st) (hw : Wf st) (hop : isMemOp op = true)
    (hnat : op.Natural) (hG : G.Heeds op) (he : exec (memSpace G.tables) fuel op st = some st') :
    Wf st' ∧ Tame G st' := by
  cases op with
  | delegate this snd sndBase rcvBase ord attr sub =>
    obtain ⟨r, hr, rfl⟩ := Option.map_eq_some_iff.mp he
    apply delegate_invariant Gear.walks_frame _ _ hnat.1 hnat.2.1 hnat.2.2 hw h hr
    · exact fun _ _ hw h he => Tame.effect hw h he
    · intro st st' m hw h hg hrec
      exact h.granted hw hg (received_inReach hrec hG)
  | revoke pd base ord attr self kim =>
    have hm : Meets (memSpace G.tables) (fun _ _ => False) (fun _ _ => True) (fun _ _ => False)
        fuel (.revoke pd base ord attr self kim) st :=
      walkAll_of_forall (fun _ _ _ _ _ => trivial) _ _ _
    have hsteps := revoke_steps Gear.walks_frame (fun _ _ _ _ _ _ h => h) hw hm he
    exact hsteps.invariant (fun _ _ hw h he => Tame.effect hw h he) hw h
  | insertRoot pd phys base order attr type =>
    obtain rfl := Option.some.inj he
    have hm : Meets (memSpace G.tables) (fun _ _ => False) (fun _ _ => True) (fun _ _ => False)
        fuel (.insertRoot pd phys base order attr type) st := hnat
    have hsteps := insertRoot_steps Gear.walks_frame hw hm
    exact hsteps.invariant (fun _ _ hw h he => Tame.effect hw h he) hw h
  | removeUtcb pd b => simp [isMemOp] at hop

end Calls

section Pages

variable {T : Tables θ} {s s' s'' : MemState θ} {pd : PdId}

/-- At most pages of the smallest size were put in or taken out. -/
structure Patched (s s' : MemState θ) : Prop where
  wild : s'.wild = s.wild
  page : ∀ pd q l y, find 512 4 (s'.hpt pd) q = some (l, y) →
    l = 0 ∨ find 512 4 (s.hpt pd) q = some (l, y)

theorem Patched.trans (h : Patched s s') (h' : Patched s' s'') : Patched s s'' := by
  refine ⟨h'.wild.trans h.wild, ?_⟩
  intro pd q l y hf
  rcases h'.page pd q l y hf with h0 | hf
  · exact .inl h0
  · exact h.page pd q l y hf

theorem hptUpdate_patched {v p a : Mword} {o : Nat} {up : Bool} (ho : o < 9)
    (hv : ∀ l x, find 512 4 (s.hpt pd) v.toNat = some (l, x) → l = 0) :
    Patched s (s.hptUpdate T pd v o p a up).1 := by
  have h0 : o / 9 = 0 := Nat.div_eq_of_lt ho
  unfold MemState.hptUpdate
  dsimp only
  rw [h0]
  split
  · exact ⟨rfl, fun _ _ _ _ hf => .inr hf⟩
  · rename_i hput
    obtain ⟨m, x, hf, hm⟩ := find_of_broken _ hput
    have := hv m x hf
    omega
  · rename_i e hput
    refine ⟨rfl, ?_⟩
    intro pd' q l y hf
    dsimp only at hf
    by_cases hpd : pd' = pd
    · subst hpd
      rw [Function.update_self, find_put _ hput q] at hf
      split at hf
      · left
        by_cases ha : a = 0
        · simp [ha] at hf
        · simp only [ne_eq, ha, not_false_eq_true, if_true, find_leaf, Option.some.injEq] at hf
          exact (Prod.mk.inj hf).1.symm
      · exact .inr hf
    · rw [Function.update_of_ne hpd] at hf
      exact .inr hf

end Pages

def cipAddr : Mword := 0x7fffbffd3000

/-- `Cip::map` as far as it puts pages into tables; its delegations are calls that
follow.  The eight entries run over the end of a table when they do not fit
into it, into memory that is none of it. -/
def createCell (T : Tables θ) (self parent : PdId) (va frame : Mword) (s : Machine θ) : Machine θ :=
  let m := (s.pds.space.hptUpdate T self (shr cipAddr 12) 3 frame 0x7 true).1
  let m := (m.hptUpdate T parent (shr va 12) 3 frame 0x7 true).1
  let past := decide (512 < digit 512 0 (shr va 12).toNat + 8)
  { s with pds := { s.pds with space := { m with wild := m.wild || past } } }

inductive Deed where
  | call (op : Op)
  | create (e : Ec)
  | destroy (e : Ec)
  | cell (self parent : PdId) (va frame : Mword)

namespace Deed

def run (T : Tables θ) (fuel : Nat) : Deed → Machine θ → Option (Machine θ)
  | .call op, s => (exec (memSpace T) fuel op s.pds).map fun st => { s with pds := st }
  | .create e, s => some (createEc T e s)
  | .destroy e, s => some (destroyEc T e s)
  | .cell self parent va frame, s => some (createCell T self parent va frame s)

/-- What can be asked of the kernel at all: calls about memory with aligned windows,
and the destruction of what exists. -/
def Fair : Deed → Machine θ → Prop
  | .call op, _ => isMemOp op = true ∧ op.Natural
  | .destroy e, s => e ∈ s.ecs
  | _, _ => True

end Deed

section Machine

variable {st : State (MemState (Backed θ))} {s s' : Machine (Backed θ)}

/-- No page of `x` is part of a larger page. -/
def Loose (K : Kind) (x : Mdb) (tree : PdId → Entry Pte) : Prop :=
  ∀ q l y, q < K.limit → x.nodeBase.toNat ≤ q → q < x.top →
    find 512 4 (tree x.space) q = some (l, y) → l = 0

structure Scattered (G : Gear θ) (x : Mdb) (s : MemState (Backed θ)) : Prop where
  host : Loose G.hostKind x s.hpt
  device : Loose G.deviceKind x s.quota.device
  guest : Loose G.guestKind x s.quota.guest

/-- What a caller must heed.  Windows for devices and guests are in reach; no larger
page is in the way of what the kernel maps and unmaps; the node that `remove_utcb`
strips has rights left or no larger pages; and the pages of a cell fit into one table. -/
def Careful (G : Gear θ) : Deed → Machine (Backed θ) → Prop
  | .call op, _ => G.Heeds op
  | .create e, s => CreatesSafely s e
  | .destroy e, s => e.utcb ≠ 0 → NoSuperpage s.pds e.pd e.utcb ∧
    ∀ n, s.pds.lookup e.pd (shr e.utcb 12) false = some n →
      (s.pds.mdb n).nodeAttr &&& ~~~0x3 ≠ 0 ∨ Scattered G (s.pds.mdb n) s.pds.space
  | .cell self parent va _, s => NoSuperpage s.pds self cipAddr ∧ NoSuperpage s.pds parent va ∧
    digit 512 0 (shr va 12).toNat + 8 ≤ 512

/-- The states that deeds lead to which meet `ok`.  At first only single pages are
mapped; in between, memory may change as long as no table does. -/
inductive WalkReach (G : Gear θ) (ok : Deed → Machine (Backed θ) → Prop) :
    Machine (Backed θ) → Prop where
  | boot (space : MemState (Backed θ)) (hwild : space.wild = false)
      (htrees : space.quota.wild = false)
      (hhost : ∀ pd q l y, q < userPages.toNat → find 512 4 (space.hpt pd) q = some (l, y) → l = 0)
      (hdevice : ∀ pd q l y, find 512 4 (space.quota.device pd) q = some (l, y) → l = 0)
      (hguest : ∀ pd q l y, find 512 4 (space.quota.guest pd) q = some (l, y) → l = 0) :
      WalkReach G ok ⟨boot space, [], []⟩
  | env {s : Machine (Backed θ)} {space : MemState (Backed θ)} (oom iommu preemption : Bool)
      (h : WalkReach G ok s) (he : SameWalks s.pds.space space) :
      WalkReach G ok { s with pds := { s.pds with
        space := space, oom := oom, iommu := iommu, preemption := preemption } }
  | deed {s s' : Machine (Backed θ)} (d : Deed) (fuel : Nat) (h : WalkReach G ok s)
      (hfair : d.Fair s) (hok : ok d s) (he : d.run G.tables fuel s = some s') : WalkReach G ok s'

/-- A walk has taken the frame of a larger page for a table. -/
def Machine.Wild (s : Machine (Backed θ)) : Prop :=
  s.pds.space.wild = true ∨ s.pds.space.quota.wild = true

theorem Backs.stripped {σ : Type} {K : Kind} {tree : PdId → Entry Pte} {st st' : State σ} {n : NodeId}
    {r : Mword} (h : Backs K tree st) (hw : Wf st) (hd : Demoted st st' n r)
    (hc : (st.mdb n).nodeAttr &&& ~~~r ≠ 0 ∨ Loose K (st.mdb n) tree) : Backs K tree st' := by
  intro pd q hlt l y hf
  rcases h pd q hlt l y hf with h0 | ⟨m, hm, hat⟩
  · exact .inl h0
  · have hattr := hd.attr m
    by_cases hmn : m = n
    · subst hmn
      rcases hc with hne | hloose
      · refine .inr ⟨m, by rw [hd.tree]; exact hm, hat.of_same (hd.node m).1 ?_⟩
        rw [hattr, if_pos rfl]
        exact hne
      · rw [← (hw.mem pd m hm).1] at hf
        exact .inl (hloose q l y hlt hat.low hat.high hf)
    · refine .inr ⟨m, by rw [hd.tree]; exact hm, hat.of_same (hd.node m).1 ?_⟩
      rw [hattr, if_neg hmn]
      exact hat.attr

theorem Tame.stripped {st' : State (MemState (Backed θ))} {n : NodeId} (h : Tame G st) (hw : Wf st)
    (hd : Demoted st st' n 0x3) (hs : st'.space = st.space)
    (hc : (st.mdb n).nodeAttr &&& ~~~0x3 ≠ 0 ∨ Scattered G (st.mdb n) st.space) : Tame G st' := by
  refine ⟨?_, ?_, ?_, ?_, ?_, ?_⟩
  · rw [hs]
    exact h.host.stripped hw hd (hc.imp_right fun hl => hl.host)
  · rw [hs]
    exact h.device.stripped hw hd (hc.imp_right fun hl => hl.device)
  · rw [hs]
    exact h.guest.stripped hw hd (hc.imp_right fun hl => hl.guest)
  · rw [hs]
    exact h.wild
  · rw [hs]
    exact h.trees_wild
  · intro x hx
    exact (h.reach x ((hd.live_iff x).mp hx)).of_same (hd.node x).1

theorem Tame.removeUtcb {pd : PdId} {u : Mword} (h : Tame G st) (hw : Wf st) (hu : u ≠ 0)
    (hc : ∀ n, st.lookup pd (shr u 12) false = some n →
      (st.mdb n).nodeAttr &&& ~~~0x3 ≠ 0 ∨ Scattered G (st.mdb n) st.space) :
    (removeUtcb pd u st).space = st.space ∧ Wf (removeUtcb pd u st) ∧
      Tame G (removeUtcb pd u st) := by
  unfold Pd.removeUtcb
  rw [if_neg hu]
  split
  · exact ⟨rfl, hw, h⟩
  · rename_i n hn
    have hlive := hw.live_of_mem (lookup_mem hn)
    have hd : Demoted st { st with mdb := demoteNode st.mdb n 0x3 } n 0x3 := strip_demoted hlive
    have h1 := h.stripped hw hd rfl (hc n hn)
    have hw1 := hd.wf hw
    have hlive1 := (hd.live_iff n).mpr hlive
    have hsp : ({ st with mdb := demoteNode st.mdb n 0x3 } : State (MemState (Backed θ))).space =
      st.space := rfl
    generalize ({ st with mdb := demoteNode st.mdb n 0x3 } : State (MemState (Backed θ))) = st1
      at h1 hw1 hlive1 hsp
    by_cases hgone : (st1.mdb n).nodeAttr = 0 ∧
        (true = true → (st1.mdb (st1.mdb.next n)).dpth ≤ (st1.mdb n).dpth)
    · have hdrop := remove_dropped hw1 hlive1 hgone.1 hgone.2
      exact ⟨hdrop.space.trans hsp, hdrop.wf hw1, h1.dropped hw1 hdrop⟩
    · rw [remove_eq_self hgone]
      exact ⟨hsp, hw1, h1⟩

theorem Tame.patched {space : MemState (Backed θ)} (h : Tame G st) (hp : Patched st.space space)
    (ht : SameTrees st.space.quota space.quota) : Tame G { st with space := space } := by
  refine ⟨?_, ?_, ?_, hp.wild.trans h.wild, ht.wild.trans h.trees_wild, h.reach⟩
  · intro pd q hlt l y hf
    rcases hp.page pd q l y hf with h0 | hf
    · exact .inl h0
    · exact h.host pd q hlt l y hf
  · intro pd q hlt l y hf
    dsimp only at hf
    rw [ht.device] at hf
    exact h.device pd q hlt l y hf
  · intro pd q hlt l y hf
    dsimp only at hf
    rw [ht.guest] at hf
    exact h.guest pd q hlt l y hf

theorem Tame.insertPage {pd : PdId} {u p a : Mword} (h : Tame G st) (hu : NoSuperpage st pd u) :
    Tame G (insertPage G.tables pd u p a st) :=
  h.patched (hptUpdate_patched (by decide) hu) (Gear.hptUpdate_trees _ _ _ _ _ _)

theorem Tame.createEc {e : Ec} (h : Tame G s.pds) (hw : Wf s.pds) (hC : CreatesSafely s e) :
    Wf (createEc G.tables e s).pds ∧ Tame G (createEc G.tables e s).pds := by
  unfold Space.createEc
  split
  · exact ⟨hw, h⟩
  · rename_i hval
    split
    · exact ⟨hw, h⟩
    · rename_i hu0
      have h1 := h.insertPage (p := e.frame) (a := 0x7) (hC (by simpa using hval) hu0)
      have hw1 : Wf (Space.insertPage G.tables e.pd e.utcb e.frame 0x7 s.pds) := hw.withSpace _
      dsimp only
      generalize Space.insertPage G.tables e.pd e.utcb e.frame 0x7 s.pds = st at h1 hw1
      split
      · have hnat : (Op.insertRoot kern e.frame (shr e.utcb 12) 0 0x3 0).Natural :=
          ⟨by decide, aligned_zero _, aligned_zero _, by decide⟩
        have hm : Meets (memSpace G.tables) (fun _ _ => False) (fun _ _ => True)
            (fun _ _ => False) 0 (.insertRoot e.pd e.frame (shr e.utcb 12) 0 0x3 0) st := hnat
        have hsteps := insertRoot_steps Gear.walks_frame hw1 hm
        exact hsteps.invariant (fun _ _ hw h he => Tame.effect hw h he) hw1 h1
      · exact ⟨hw1, h1⟩

theorem Tame.destroyEc {e : Ec} (h : Tame G s.pds) (hw : Wf s.pds) (hD : Careful G (.destroy e) s) :
    Wf (destroyEc G.tables e s).pds ∧ Tame G (destroyEc G.tables e s).pds := by
  unfold Space.destroyEc
  split
  · exact ⟨hw, h⟩
  · rename_i hu0
    obtain ⟨hpage, hnode⟩ := hD hu0
    obtain ⟨hsp, hw1, h1⟩ := h.removeUtcb hw hu0 hnode
    refine ⟨hw1.withSpace _, h1.insertPage ?_⟩
    unfold NoSuperpage
    rw [hsp]
    exact hpage

theorem Tame.createCell {self parent : PdId} {va frame : Mword} (h : Tame G s.pds)
    (hC : Careful G (.cell self parent va frame) s) :
    Tame G (createCell G.tables self parent va frame s).pds := by
  obtain ⟨hself, hparent, hfit⟩ := hC
  unfold Space.createCell
  dsimp only
  have h1 : Patched s.pds.space
      (s.pds.space.hptUpdate G.tables self (shr cipAddr 12) 3 frame 0x7 true).1 :=
    hptUpdate_patched (by decide) hself
  have ht1 := Gear.hptUpdate_trees (G := G) (s := s.pds.space) self (shr cipAddr 12) 3 frame 0x7 true
  generalize MemState.hptUpdate G.tables self _ 3 frame 0x7 true s.pds.space = m1 at h1 ht1 ⊢
  have hstill : ∀ l x, find 512 4 (m1.1.hpt parent) (shr va 12).toNat = some (l, x) → l = 0 := by
    intro l x hf
    rcases h1.page parent _ l x hf with h0 | hf
    · exact h0
    · exact hparent l x hf
  have h2 : Patched m1.1 (m1.1.hptUpdate G.tables parent (shr va 12) 3 frame 0x7 true).1 :=
    hptUpdate_patched (by decide) hstill
  have ht2 := Gear.hptUpdate_trees (G := G) (s := m1.1) parent (shr va 12) 3 frame 0x7 true
  generalize MemState.hptUpdate G.tables parent _ 3 frame 0x7 true m1.1 = m2 at h2 ht2 ⊢
  have hpast : (m2.1.wild || decide (512 < digit 512 0 (shr va 12).toNat + 8)) = m2.1.wild := by
    rw [decide_eq_false (by omega), Bool.or_false]
  rw [hpast]
  exact h.patched (h1.trans h2) (ht1.trans ht2)

theorem WalkReach.tame (h : WalkReach G (Careful G) s) : Wf s.pds ∧ Tame G s.pds := by
  induction h with
  | boot space hwild htrees hhost hdevice hguest =>
    refine ⟨Wf.boot space, ?_, ?_, ?_, hwild, htrees, ?_⟩
    · exact fun pd q hlt l y hf => .inl (hhost pd q l y hlt hf)
    · exact fun pd q _ l y hf => .inl (hdevice pd q l y hf)
    · exact fun pd q _ l y hf => .inl (hguest pd q l y hf)
    · intro n hn
      simp [Pd.boot, State.Live] at hn
  | @env s space oom iommu preemption _ he ih =>
    have hq : Quiet SameWalks s.pds { s.pds with
        space := space, oom := oom, iommu := iommu, preemption := preemption } :=
      ⟨he, fun _ _ => rfl, le_rfl, rfl, rfl⟩
    exact ⟨hq.wf ih.1, ih.2.quiet ih.1 hq⟩
  | deed d fuel _ hfair hok he ih =>
    cases d with
    | call op =>
      obtain ⟨st, hst, rfl⟩ := Option.map_eq_some_iff.mp he
      exact ih.2.exec ih.1 hfair.1 hfair.2 hok hst
    | create e =>
      obtain rfl := Option.some.inj he
      exact ih.2.createEc ih.1 hok
    | destroy e =>
      obtain rfl := Option.some.inj he
      exact ih.2.destroyEc ih.1 hok
    | cell self parent va frame =>
      obtain rfl := Option.some.inj he
      exact ⟨ih.1.withSpace _, ih.2.createCell hok⟩

/-- Where all deeds are careful no walk comes to the frame of a larger page, in any
page table. -/
theorem careful_notWild (h : WalkReach G (Careful G) s) : ¬s.Wild := by
  have htame := h.tame.2
  rintro (hw | hw)
  · rw [htame.wild] at hw
    simp at hw
  · rw [htame.trees_wild] at hw
    simp at hw

theorem WalkReach.calls {ok : Deed → Machine (Backed θ) → Prop} {fuel : Nat} {ops : List Op}
    (h : WalkReach G ok s) (hops : ∀ op ∈ ops, isMemOp op = true ∧ op.Natural)
    (hok : ∀ op ∈ ops, ∀ s, ok (.call op) s)
    (he : execAll (memSpace G.tables) fuel ops s.pds = some st) :
    WalkReach G ok { s with pds := st } := by
  induction ops generalizing s with
  | nil =>
    obtain rfl := Option.some.inj he
    exact h
  | cons op ops ih =>
    unfold Pd.execAll at he
    cases hop : Pd.exec (memSpace G.tables) fuel op s.pds with
    | none => simp [hop] at he
    | some st1 =>
      simp only [hop] at he
      have hcall : WalkReach G ok { s with pds := st1 } :=
        .deed (.call op) fuel h (hops op (by simp)) (hok op (by simp) s) (by simp [Deed.run, hop])
      exact @ih { s with pds := st1 } hcall (fun op' h' => hops op' (by simp [h']))
        (fun op' h' => hok op' (by simp [h'])) he

end Machine

section Examples

/-- Tables that never run out of memory, with those of devices as well. -/
def plainGear : Gear Unit where
  host := plainTables
  iommu := .intel
  forceFlush := false
  deviceOrd := 26
  device_le := superOrd_le
  npt := false
  eptOrd := 26
  ept_le := superOrd_le

def emptyWalks : MemState (Backed Unit) :=
  ⟨⟨(), fun _ => .empty, fun _ => .empty, false⟩, fun _ => .empty, false⟩

/-- A page of two megabytes delegated to domain 2, for its processes and its devices. -/
def largePage : List Op :=
  [.insertRoot kern 0 0 20 0x7 0, .delegate 2 kern 0x200 0x200 9 0x3 0x1]

def largePages : Option (State (MemState (Backed Unit))) :=
  execAll (memSpace plainGear.tables) 10 largePage (boot emptyWalks)

theorem largePages_reach {ok : Deed → Machine (Backed Unit) → Prop}
    {st : State (MemState (Backed Unit))} (hok : ∀ op ∈ largePage, ∀ s, ok (.call op) s)
    (h : largePages = some st) : WalkReach plainGear ok ⟨st, [], []⟩ := by
  have hboot : WalkReach plainGear ok ⟨boot emptyWalks, [], []⟩ := by
    apply WalkReach.boot
    · rfl
    · rfl
    · intro pd q l y _ hf
      simp [emptyWalks] at hf
    · intro pd q l y hf
      simp [emptyWalks] at hf
    · intro pd q l y hf
      simp [emptyWalks] at hf
  exact hboot.calls (by decide) hok h

/-- An execution context whose UTCB is beside that page, and one whose UTCB is in it. -/
def besideEc : Ec := ⟨2, 0x400000, 0x5000⟩

def withinEc : Ec := ⟨2, 0x201000, 0x5000⟩

theorem careful_notWild_besideEc :
    ∃ st, largePages = some st ∧
      find 512 4 (st.space.quota.device 2) 0x3ff = some (1, ⟨0x200, 0x3⟩) ∧
        ¬(createEc plainGear.tables besideEc ⟨st, [], []⟩).Wild := by
  have heval : (largePages.map fun st => (find 512 4 (st.space.hpt 2) 0x400,
      find 512 4 (st.space.quota.device 2) 0x3ff)) = some (none, some (1, ⟨0x200, 0x3⟩)) := by
    decide +kernel
  obtain ⟨st, hst, hval⟩ := Option.map_eq_some_iff.mp heval
  obtain ⟨hnone, hpage⟩ := Prod.mk.inj hval
  have hcareful : ∀ op ∈ largePage, ∀ s, Careful plainGear (.call op) s := by
    intro op hop s
    simp only [largePage, List.mem_cons, List.not_mem_nil, or_false] at hop
    rcases hop with rfl | rfl
    · trivial
    · exact fun _ => by decide
  refine ⟨st, hst, hpage, careful_notWild (.deed (.create besideEc) 0
    (largePages_reach hcareful hst) trivial ?_ rfl)⟩
  intro _ _ l x hf
  have hf' : find 512 4 (st.space.hpt 2) 0x400 = some (l, x) := hf
  simp [hnone] at hf'

/-- The second one sends the walk into the large page. -/
theorem withinEc_wild :
    ¬∀ s : Machine (Backed Unit), WalkReach plainGear (fun _ _ => True) s → ¬s.Wild := by
  intro hall
  have heval : (largePages.map fun st =>
      (createEc plainGear.tables withinEc ⟨st, [], []⟩).pds.space.wild) = some true := by
    decide +kernel
  obtain ⟨st, hst, hwild⟩ := Option.map_eq_some_iff.mp heval
  have hreach := @largePages_reach (fun _ _ => True) st (fun _ _ _ => trivial) hst
  exact hall _ (.deed (.create withinEc) 0 hreach trivial trivial rfl) (Or.inl hwild)

end Examples

end Tukija.Space
