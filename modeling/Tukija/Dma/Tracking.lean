import Tukija.Dma.Assign

/-! Which entries point to the page tables of which PDs, in all runs that fit. -/
namespace Tukija.Dma

variable {m : Machine} {s s' : State} {p q : PdId} {rid : Rid} {t : Table} {l : Nat}

/-! ## References -/

theorem foldl_delRcu (rids : List Rid) {n : Nat} (h : rids.length < n) :
    rids.foldl (fun n _ => delRcu n) n = n - rids.length := by
  induction rids generalizing n with
  | nil => rfl
  | cons r rids ih =>
    have hlen : rids.length + 1 < n := h
    have hdel : delRcu n = n - 1 := if_neg (by omega)
    rw [List.foldl_cons, hdel, ih (by omega), List.length_cons]
    omega

structure Pd.Fair (x : Pd) : Prop where
  ref : x.ref = x.outside + x.queued + x.rids.length + x.pins
  gone : x.life ≠ .alive → x.ref = 0

namespace Pd.Fair

variable {x : Pd}

theorem ref_pos (h : x.Fair) (hn : x.Named) : 0 < x.ref := by
  have href := h.ref
  have hpos : 0 < x.outside + x.queued := hn
  omega

theorem alive (h : x.Fair) (hpos : 0 < x.ref) : x.life = .alive := by
  by_contra hlife
  exact absurd (h.gone hlife) (Nat.pos_iff_ne_zero.mp hpos)

theorem assignRid (h : x.Fair) (hn : x.Named) (r : Rid) : (x.assignRid r).Fair := by
  have hpos := h.ref_pos hn
  have hadd : x.addRef = x.ref + 1 := if_neg (Nat.pos_iff_ne_zero.mp hpos)
  have href := h.ref
  have halive := h.alive hpos
  unfold Pd.assignRid
  split
  · exact h
  · split
    · refine ⟨?_, fun hlife => absurd halive hlife⟩
      show x.addRef = x.outside + x.queued + (x.rids ++ [r]).length + x.pins
      rw [hadd, List.length_append, List.length_singleton, href]
      omega
    · refine ⟨?_, fun hlife => absurd halive hlife⟩
      show x.addRef = x.outside + x.queued + x.rids.length + (x.pins + 1)
      rw [hadd, href]
      omega

theorem releaseRid_ref (h : x.Fair) (hn : x.Named) : x.releaseRid.ref = x.outside + x.queued + x.pins := by
  have href := h.ref
  have hpos : 0 < x.outside + x.queued := hn
  have hlt : x.rids.length < x.ref := by omega
  have hfold : x.releaseRid.ref = x.ref - x.rids.length := foldl_delRcu x.rids hlt
  omega

theorem delRef (h : x.Fair) (hq : 0 < x.queued) : x.delRef.Fair := by
  have href := h.ref
  have halive := h.alive (show 0 < x.ref by omega)
  refine ⟨?_, fun hlife => absurd halive hlife⟩
  show x.ref - 1 = x.outside + (x.queued - 1) + x.rids.length + x.pins
  omega

theorem releaseRid_of_ref (h : x.Fair) (h0 : x.ref = 0) : x.releaseRid = x := by
  have href := h.ref
  have hrids : x.rids = [] := List.eq_nil_of_length_eq_zero (by omega)
  obtain ⟨dom, rids, _, ref, outside, queued, pins, life⟩ := x
  subst hrids
  rfl

theorem update (h : ∀ q, (s.pd q).Fair) {x : Pd} (hx : x.Fair) (p q : PdId) : (Function.update s.pd p x q).Fair := by
  by_cases hq : q = p
  · rwa [hq, Function.update_self]
  · rw [Function.update_of_ne hq]
    exact h q

theorem releaseRid (h : x.Fair) (hn : x.Named) : x.releaseRid.Fair :=
  ⟨h.releaseRid_ref hn, fun hlife => absurd (h.alive (h.ref_pos hn)) hlife⟩

end Pd.Fair

/-! ## Entries -/

namespace Machine

def owns (m : Machine) (p : PdId) (rid : Rid) (e : Entry) : Bool :=
  m.units.any fun u => m.usable u rid && e == .root p (m.level u)

theorem owns_zero : m.owns p rid .zero = false := by
  rw [owns, List.any_eq_false]
  intro u _
  simp

theorem release_eq (m : Machine) (p : PdId) (t : Table) (rid : Rid) :
    m.release p t rid = if m.owns p rid (t rid) then Function.update t rid .zero else t := by
  unfold release owns
  generalize m.units = units
  induction units generalizing t with
  | nil => rfl
  | cons u units ih =>
    rw [List.foldl_cons, ih, List.any_cons]
    by_cases hu : (m.usable u rid && t rid == .root p (m.level u)) = true
    · have hzero : (units.any fun u => m.usable u rid && Entry.zero == .root p (m.level u)) = false := by
        rw [List.any_eq_false]
        intro u _
        simp
      rw [if_pos hu, Function.update_self, hzero, hu, Bool.true_or, if_neg Bool.false_ne_true, if_pos rfl]
    · rw [if_neg hu, Bool.eq_false_iff.mpr hu, Bool.false_or]

theorem foldl_release (m : Machine) (p : PdId) (rids : List Rid) (t : Table) (r : Rid) :
    rids.foldl (m.release p) t r = if r ∈ rids ∧ m.owns p r (t r) = true then .zero else t r := by
  induction rids generalizing t with
  | nil => simp
  | cons rid rids ih =>
    rw [List.foldl_cons, ih, release_eq]
    by_cases hr : r = rid
    · subst hr
      by_cases hown : m.owns p r (t r) = true
      · simp [hown, owns_zero]
      · simp [hown]
    · have hsame : (if m.owns p rid (t rid) = true then Function.update t rid .zero else t) r = t r := by
        split
        · exact Function.update_of_ne hr _ _
        · rfl
      simp [hsame, hr]

end Machine

/-- The invariant: an entry is of a device that its PD has recorded. -/
structure Inv (m : Machine) (s : State) : Prop where
  fair : ∀ p, (s.pd p).Fair
  recorded : ∀ rid p l, s.table rid = .root p l → rid ∈ (s.pd p).rids
  owned : ∀ rid p l, s.table rid = .root p l → m.owns p rid (.root p l) = true
  found : ∀ rid p l, s.table rid = .root p l → (m.find rid).isSome = true

namespace Inv

theorem tracked (h : Inv m s) : s.Tracked m := by
  refine ⟨fun rid p l he => .inl (h.recorded rid p l he), fun rid p l he => ?_, fun rid p l he => ?_⟩
  · have hmem := List.length_pos_of_mem (h.recorded rid p l he)
    have href := (h.fair p).ref
    exact (h.fair p).alive (by omega)
  · obtain ⟨u, hu⟩ := Option.isSome_iff_exists.mp (h.found rid p l he)
    exact ⟨u, List.mem_filterMap.mpr ⟨rid, h.recorded rid p l he, hu⟩, hu⟩

theorem setPd (h : Inv m s) {x : Pd} (hx : x.Fair) (hrids : x.rids = (s.pd p).rids) : Inv m (s.setPd p x) := by
  have hpd : ∀ q, (Function.update s.pd p x q).rids = (s.pd q).rids := by
    intro q
    by_cases hq : q = p
    · rw [hq, Function.update_self, hrids]
    · rw [Function.update_of_ne hq]
  refine ⟨Pd.Fair.update h.fair hx p, fun rid q l he => ?_, h.owned, h.found⟩
  show rid ∈ (Function.update s.pd p x q).rids
  exact (hpd q).symm ▸ h.recorded rid q l he

theorem preFree (h : Inv m s) (hx : (s.pd p).releaseRid.Fair) : Inv m (s.preFree m p) := by
  have hback : ∀ rid q l, (s.preFree m p).table rid = .root q l → s.table rid = .root q l ∧ q ≠ p := by
    intro rid q l he
    have he : (s.pd p).rids.foldl (m.release p) s.table rid = .root q l := he
    rw [Machine.foldl_release] at he
    split at he
    · cases he
    · next hkept =>
      have hold : s.table rid = .root q l := he
      refine ⟨hold, fun hq => hkept ?_⟩
      subst hq
      exact ⟨h.recorded rid q l hold, hold ▸ h.owned rid q l hold⟩
  refine ⟨Pd.Fair.update h.fair hx p, fun rid q l he => ?_, fun rid q l he => ?_, fun rid q l he => ?_⟩
  · obtain ⟨hold, hq⟩ := hback rid q l he
    show rid ∈ (Function.update s.pd p (s.pd p).releaseRid q).rids
    rw [Function.update_of_ne hq]
    exact h.recorded rid q l hold
  · exact h.owned rid q l (hback rid q l he).1
  · exact h.found rid q l (hback rid q l he).1

theorem assign (h : Inv m s) {x : Pd} (hx : x.Fair) (hmem : rid ∈ x.rids)
    (hothers : ∀ r l, r ≠ rid → s.table r = .root p l → r ∈ x.rids) (hown : m.owns p rid (.root p l) = true)
    (hfound : (m.find rid).isSome = true) :
    Inv m { s.setPd p x with table := Function.update s.table rid (.root p l) } := by
  have hback : ∀ r q k, Function.update s.table rid (.root p l) r = .root q k →
      r = rid ∧ q = p ∧ k = l ∨ r ≠ rid ∧ s.table r = .root q k := by
    intro r q k he
    by_cases hr : r = rid
    · rw [hr, Function.update_self] at he
      obtain ⟨hq, hk⟩ := Entry.root.inj he
      exact .inl ⟨hr, hq.symm, hk.symm⟩
    · rw [Function.update_of_ne hr] at he
      exact .inr ⟨hr, he⟩
  refine ⟨Pd.Fair.update h.fair hx p, fun r q k he => ?_, fun r q k he => ?_, fun r q k he => ?_⟩
  · show r ∈ (Function.update s.pd p x q).rids
    rcases hback r q k he with ⟨rfl, rfl, -⟩ | ⟨hr, hold⟩
    · rwa [Function.update_self]
    · by_cases hq : q = p
      · subst hq
        rw [Function.update_self]
        exact hothers r k hr hold
      · rw [Function.update_of_ne hq]
        exact h.recorded r q k hold
  · rcases hback r q k he with ⟨rfl, rfl, rfl⟩ | ⟨-, hold⟩
    · exact hown
    · exact h.owned r q k hold
  · rcases hback r q k he with ⟨rfl, -, -⟩ | ⟨-, hold⟩
    · exact hfound
    · exact h.found r q k hold

theorem call (h : Inv m s) (ho : 0 < (s.pd p).outside) : Inv m (s.call m p) := by
  have hnamed : (s.pd p).Named := Nat.add_pos_left ho _
  have hfair := (h.fair p).releaseRid hnamed
  have href := (h.fair p).releaseRid_ref hnamed
  have hself : (s.preFree m p).pd p = (s.pd p).releaseRid := Function.update_self _ _ _
  unfold State.call
  refine (h.preFree hfair).setPd ?_ rfl
  rw [hself]
  refine ⟨?_, hfair.gone⟩
  show (s.pd p).releaseRid.ref = (s.pd p).outside - 1 + ((s.pd p).queued + 1) + 0 + (s.pd p).pins
  omega

theorem free (h : Inv m s) (hq : 0 < (s.pd p).queued) : Inv m (s.free m p) := by
  have hfair := (h.fair p).delRef hq
  have hkeep : Inv m (s.setPd p (s.pd p).delRef) := h.setPd hfair rfl
  have hself : (s.setPd p (s.pd p).delRef).pd p = (s.pd p).delRef := Function.update_self _ _ _
  unfold State.free
  dsimp only
  rw [hself]
  split
  · next hlast =>
    have hsame := hfair.releaseRid_of_ref hlast
    have hpre : Inv m ((s.setPd p (s.pd p).delRef).preFree m p) :=
      hkeep.preFree (hself.symm ▸ hsame.symm ▸ hfair)
    have hgone : ((s.setPd p (s.pd p).delRef).preFree m p).pd p = (s.pd p).delRef := by
      show Function.update (s.setPd p (s.pd p).delRef).pd p ((s.setPd p (s.pd p).delRef).pd p).releaseRid p = _
      rw [Function.update_self, hself, hsame]
    refine hpre.setPd ⟨?_, fun _ => ?_⟩ rfl
    · exact (hpre.fair p).ref
    · exact (congrArg Pd.ref hgone).trans hlast
  · exact hkeep

theorem drop (h : Inv m s) (ho : 0 < (s.pd p).outside) : Inv m (s.drop m p) := by
  have href := (h.fair p).ref
  unfold State.drop
  split
  · exact h.call ho
  · next hmany =>
    have hdel : delRcu (s.pd p).ref = (s.pd p).ref - 1 := if_neg hmany
    have halive := (h.fair p).alive (show 0 < (s.pd p).ref by omega)
    refine h.setPd ⟨?_, fun hlife => absurd halive hlife⟩ rfl
    show delRcu (s.pd p).ref = (s.pd p).outside - 1 + (s.pd p).queued + (s.pd p).rids.length + (s.pd p).pins
    omega

end Inv

/-! ## Assignments -/

theorem Pd.mem_assignRid_of_mem (x : Pd) {r : Rid} (h : r ∈ x.rids) : r ∈ (x.assignRid rid).rids := by
  unfold Pd.assignRid
  split
  · exact h
  · split
    · exact List.mem_append_left _ h
    · exact h

theorem Pd.mem_assignRid_self (x : Pd) (h : rid ∈ x.rids ∨ x.rids.length < 7) : rid ∈ (x.assignRid rid).rids := by
  unfold Pd.assignRid
  split
  · assumption
  · next hnew =>
    rw [dif_pos (h.resolve_left hnew)]
    exact List.mem_append_right _ (List.mem_singleton_self rid)

theorem Pd.fair_none : Pd.none.Fair := ⟨rfl, fun _ => rfl⟩

theorem Pd.fair_new (dom : Bool) : (Pd.new dom).Fair := ⟨rfl, fun hlife => absurd rfl hlife⟩

namespace Inv

theorem create (h : Inv m s) (hborn : (s.pd p).life = .unborn) (dom : Bool) : Inv m (s.setPd p (.new dom)) := by
  have hgone : (s.pd p).life ≠ .alive := by
    rw [hborn]
    decide
  have href := (h.fair p).ref
  have hzero := (h.fair p).gone hgone
  exact h.setPd (Pd.fair_new dom) (List.eq_nil_of_length_eq_zero (by omega)).symm

theorem grab (h : Inv m s) (hn : (s.pd p).Named) :
    Inv m (s.setPd p { s.pd p with ref := (s.pd p).addRef, outside := (s.pd p).outside + 1 }) := by
  have hpos := (h.fair p).ref_pos hn
  have halive := (h.fair p).alive hpos
  have hadd : (s.pd p).addRef = (s.pd p).ref + 1 := if_neg (Nat.pos_iff_ne_zero.mp hpos)
  have href := (h.fair p).ref
  refine h.setPd ⟨?_, fun hlife => absurd halive hlife⟩ rfl
  show (s.pd p).addRef = (s.pd p).outside + 1 + (s.pd p).queued + (s.pd p).rids.length + (s.pd p).pins
  omega

theorem owns_level {u : UnitId} (hu : u ∈ m.units) (huse : m.usable u rid = true) :
    m.owns p rid (.root p (m.level u)) = true :=
  List.any_eq_true.mpr ⟨u, hu, by rw [huse, Bool.true_and, beq_self_eq_true]⟩

theorem dmarAssign (h : Inv m s) {u : UnitId} (hu : u ∈ m.units) (hn : (s.pd p).Named)
    (hfit : m.usable u rid = true → (m.find rid).isSome = true ∧
      (rid ∈ (s.pd p).rids ∨ (s.pd p).rids.length < 7)) : Inv m (s.dmarAssign m u rid p) := by
  unfold State.dmarAssign
  split
  · next huse =>
    obtain ⟨hfound, hroom⟩ := hfit huse
    exact h.assign ((h.fair p).assignRid hn rid) ((s.pd p).mem_assignRid_self hroom)
      (fun r l _ he => (s.pd p).mem_assignRid_of_mem (h.recorded r p l he)) (owns_level hu huse) hfound
  · exact h

theorem amdAssign (h : Inv m s) {u : UnitId} (hu : u ∈ m.units) (hn : (s.pd p).Named)
    (hfit : m.usable u rid = true → (∀ r, s.table rid ≠ .hint r) → (m.find rid).isSome = true ∧
      ∀ r l, r ≠ rid → s.table r ≠ .root p l) : Inv m (s.amdAssign m u rid p) := by
  unfold State.amdAssign
  split
  · next hpass =>
    obtain ⟨huse, -⟩ := (Bool.and_eq_true _ _).mp hpass
    split
    · exact h
    · next hplain =>
      split
      · exact h
      · obtain ⟨hfound, halone⟩ := hfit huse hplain
        have hfair := (h.fair p).releaseRid hn
        have hroom : (s.pd p).releaseRid.rids.length < 7 := Nat.zero_lt_succ 6
        exact h.assign (hfair.assignRid hn rid) ((s.pd p).releaseRid.mem_assignRid_self (.inr hroom))
          (fun r l hr he => absurd he (halone r l hr)) (owns_level hu huse) hfound
  · exact h

theorem guard (h : Inv m s) {g : Prop} [Decidable g] (hg : g → Inv m s') : Inv m (if g then s' else s) := by
  split
  · next hyes => exact hg hyes
  · exact h

theorem act (h : Inv m s) (a : Act) (hfit : s.Fits m a) : Inv m (s.act m a) := by
  cases a with
  | create p dom => exact h.guard fun hborn => h.create hborn dom
  | grab p => exact h.guard h.grab
  | drop p => exact h.guard h.drop
  | revoke p => exact h.guard h.call
  | expire p => exact h.guard h.free
  | assign u rid p =>
    refine h.guard fun hcall => ?_
    obtain ⟨hu, hn, hdom⟩ := hcall
    split
    · next hamd =>
      refine h.amdAssign hu hn fun huse hplain => ?_
      obtain ⟨hfound, halone⟩ := hfit hu hn hdom huse fun _ => hplain
      rw [if_pos hamd] at halone
      exact ⟨hfound, halone⟩
    · next hintel =>
      refine h.dmarAssign hu hn fun huse => ?_
      obtain ⟨hfound, hroom⟩ := hfit hu hn hdom huse fun hamd => absurd hamd hintel
      rw [if_neg hintel] at hroom
      exact ⟨hfound, hroom⟩

theorem after (h : Inv m s) {acts : List Act} (hfit : s.Fitting m acts) : Inv m (s.after m acts) := by
  induction acts generalizing s with
  | nil => exact h
  | cons a acts ih => exact ih (h.act a hfit.1) hfit.2

theorem boot (m : Machine) (hint : Rid → Option Rid) : Inv m (State.boot hint) := by
  have hnone : ∀ rid p l, (State.boot hint).table rid ≠ .root p l := by
    intro rid p l he
    have he : (hint rid).elim .zero State.aliasEntry = Entry.root p l := he
    cases hh : hint rid with
    | none =>
      rw [hh] at he
      cases he
    | some r =>
      rw [hh, Option.elim_some, State.aliasEntry] at he
      split at he <;> cases he
  refine ⟨fun p => ?_, fun rid p l he => absurd he (hnone rid p l), fun rid p l he => absurd he (hnone rid p l),
    fun rid p l he => absurd he (hnone rid p l)⟩
  show (if p < 2 then Pd.new true else Pd.none).Fair
  split
  · exact Pd.fair_new true
  · exact Pd.fair_none

end Inv

/-- On each machine, all runs that fit track the devices. -/
theorem after_tracked (m : Machine) (hint : Rid → Option Rid) (acts : List Act)
    (hfit : (State.boot hint).Fitting m acts) : ((State.boot hint).after m acts).Tracked m :=
  ((Inv.boot m hint).after hfit).tracked

def oneUnit (amd : Bool) : Machine := ⟨amd, [0], fun _ _ => true, fun _ => 3, fun _ => some 0⟩

def twoDevices : List Act :=
  [Act.create 2 true, Act.assign 0 5 2, Act.assign 0 6 2, Act.revoke 2, Act.expire 2]

theorem after_tracked_twoDevices :
    ((State.boot fun _ => none).after (oneUnit false) twoDevices).Tracked (oneUnit false) := by
  refine after_tracked (oneUnit false) (fun _ => none) twoDevices
    ⟨trivial, fun _ _ _ _ _ => ⟨rfl, ?_⟩, fun _ _ _ _ _ => ⟨rfl, ?_⟩, trivial, trivial, trivial⟩
  · rw [if_neg (by decide)]
    exact .inr (by decide)
  · rw [if_neg (by decide)]
    exact .inr (by decide)

/-- On AMD the first device still reads the page table when the PD is freed. -/
theorem twoDevices_not_tracked :
    ((State.boot fun _ => none).after (oneUnit true) twoDevices).table 5 = .root 2 0 ∧
      (((State.boot fun _ => none).after (oneUnit true) twoDevices).pd 2).life = .freed ∧
      ¬ ∀ m hint acts, ((State.boot hint).after m acts).Tracked m := by
  have hentry : ((State.boot fun _ => none).after (oneUnit true) twoDevices).table 5 = .root 2 0 := by decide +kernel
  have hfreed : (((State.boot fun _ => none).after (oneUnit true) twoDevices).pd 2).life = .freed := by decide +kernel
  refine ⟨hentry, hfreed, fun hall => ?_⟩
  have halive := (hall (oneUnit true) (fun _ => none) twoDevices).alive 5 2 0 hentry
  exact absurd (halive.symm.trans hfreed) (by decide)

end Tukija.Dma
