import Mathlib.Tactic.IntervalCases
import Tukija.Iommu.Ivhd

/-! Ranges of device entries against the single entries they stand for. -/
namespace Tukija.Iommu

open Tukija.Lib.Masks

/-! ## What a range stands for -/

inductive Kind where
  | start
  | ext
  | aliasOf (source : BitVec 16)
  deriving DecidableEq

structure Range where
  first : BitVec 16
  kind : Kind
  setting : BitVec 8
  deriving DecidableEq

namespace Range

variable (g : Range)

def source : Option Nat :=
  match g.kind with
  | .aliasOf source => some source.toNat
  | _ => none

def single (r : Nat) : Entry :=
  match g.kind with
  | .start => ⟨dteOne, .ofNat 16 r, g.setting, 0, 0, 0⟩
  | .ext => ⟨dteExtOne, .ofNat 16 r, g.setting, 0, 0, 0⟩
  | .aliasOf source => ⟨dteAliasOne, .ofNat 16 r, g.setting, 0, source, 0⟩

end Range

def Entry.begin (e : Entry) (g : Option Range) : Option Range :=
  if e.type = dteStart then some ⟨e.devid, .start, e.setting⟩
  else if e.type = dteExtStart then some ⟨e.devid, .ext, e.setting⟩
  else if e.type = dteAliasStart then some ⟨e.devid, .aliasOf e.pdevid, e.setting⟩
  else if e.type = dteEnd then none
  else g

def pending (es : List Entry) : Option Range := es.foldl (fun g e => e.begin g) none

/-- The single entries for a range that ends with `devid`, if there is one. -/
def singles (g : Option Range) (devid : Nat) : List Entry :=
  match g with
  | none => []
  | some g => (List.range' g.first.toNat (devid + 1 - g.first.toNat)).map g.single

/-- Each end of a range does what the single entries do. -/
def Expands (room : Bool) (me : Nat) (t : Tables) (es : List Entry) : Prop :=
  ∀ u e v, es = u ++ e :: v → (∀ x ∈ u, x.type < 128) → e.type = dteEnd →
    ((State.init t).forEachEntry room me (u ++ [e])).tables =
      ((singles (pending u) e.devid.toNat).foldl (fun s x => s.entry room me x)
        ((State.init t).forEachEntry room me u)).tables

/-! ## When it does -/

/-- The first device with this id, if any, belongs to the unit. -/
def ClaimedIn (me : Nat) (pci : List Pci) (r : Nat) : Prop := ∀ d ∈ pci.find? (·.rid = r), d.iommu = some me

/-- What must hold before an end of a range at `devid`, with the range `g` begun
and not ended, when the variables of `parse` say that one is open. -/
structure Meets (room : Bool) (me : Nat) (s : State) (g : Option Range) (devid : Nat) : Prop where
  /-- The last id is claimed already, as the loop leaves it out. -/
  last : g ≠ none → ClaimedIn me s.tables.pci devid
  /-- All but the first id are aliases already, and the first one too if it is the last. -/
  aliased : ∀ dtb ∈ s.tables.table room, ∀ src ∈ g.bind Range.source, ∀ r, s.rid ≤ r → r ≤ devid →
    r ≠ s.rid ∨ s.rid = devid → (dtb r).hptrp = Dte.hint src
  /-- A source that is left over from an earlier range is that of the first id already. -/
  leftOver : g.bind Range.source = none → s.rid < devid → s.ridEff < 2 ^ 16 →
    ∀ dtb ∈ s.tables.table room, (dtb s.rid).hptrp = Dte.hint s.ridEff
  /-- A range that is left open behind its end was set up and claimed already. -/
  ended : g = none → s.tables.dtb = s.tables.table room ∧
    (∀ dtb ∈ s.tables.table room, ∀ r, s.rid ≤ r → r ≤ devid → (dtb r).setup s.setting = dtb r) ∧
    ∀ r, s.rid ≤ r → r < devid → ClaimedIn me s.tables.pci r

/-! ## Entries of the device table -/
namespace Dte

variable {dev : Dte} {setting : BitVec 8} {src : Nat}

theorem or_one_hptrp (x : BitVec 64) : (x ||| 1) &&& pMask = x &&& pMask := by
  have h : (1 : BitVec 64) &&& pMask = 0#64 := by decide
  rw [BitVec.and_or_distrib_right, h, BitVec.or_zero]

theorem hint_and (h : src < 2 ^ 16) : hint src &&& pMask = hint src := by
  refine within_iff.mpr fun i hi => ?_
  rw [hint, BitVec.getLsbD_shiftLeft, BitVec.getLsbD_ofNat] at hi
  simp only [Bool.and_eq_true, decide_eq_true_eq, Bool.not_eq_true', decide_eq_false_iff_not] at hi
  obtain ⟨⟨-, h12⟩, -, hbit⟩ := hi
  have h16 : i - 12 < 16 := by
    by_contra hge
    rw [Nat.testBit_lt_two_pow (h.trans_le (Nat.pow_le_pow_right (by decide) (by omega)))] at hbit
    cases hbit
  have : 12 ≤ i ∧ i < 28 := by omega
  obtain ⟨h₁, h₂⟩ := this
  interval_cases i <;> decide

theorem setup_x0 : (dev.setup setting).x0 = dev.x0 ||| 1 := rfl

@[simp] theorem setup_hptrp : (dev.setup setting).hptrp = dev.hptrp := or_one_hptrp _

theorem setAlias_hptrp : (dev.setAlias src).hptrp = hint src &&& pMask := by
  unfold hptrp setAlias enable setHptrp
  rw [or_one_hptrp, merge_and]

theorem setAlias_setAlias : (dev.setAlias src).setAlias src = dev.setAlias src := by
  have h : (dev.setAlias src).x0 &&& pMask = hint src &&& pMask := setAlias_hptrp
  unfold setAlias setHptrp enable at h ⊢
  simp only at h ⊢
  rw [merge_of_and h, BitVec.or_assoc, BitVec.or_self]

theorem setAlias_setup_eq_iff (h : src < 2 ^ 16) :
    (dev.setup setting).setAlias src = dev.setup setting ↔ dev.hptrp = hint src := by
  constructor
  · intro he
    have hp : (dev.setup setting).hptrp = hint src := by rw [← he, setAlias_hptrp, hint_and h]
    rwa [setup_hptrp] at hp
  · intro he
    have hm : (dev.setup setting).x0 &&& pMask = hint src &&& pMask := by
      rw [hint_and h, ← he]
      exact setup_hptrp
    unfold setAlias setHptrp enable
    rw [merge_of_and hm, setup_x0, BitVec.or_assoc, BitVec.or_self]
    rfl

theorem setAlias_setup_eq_self_iff (h : src < 2 ^ 16) :
    (dev.setup setting).setAlias src = dev ↔ dev.setup setting = dev ∧ dev.hptrp = hint src := by
  constructor
  · intro he
    have h0 : dev.x0 ||| 1 = dev.x0 := by
      conv_lhs => rw [← he]
      conv_rhs => rw [← he]
      exact BitVec.or_assoc ..▸ congrArg _ BitVec.or_self
    have hs : dev.setup setting = dev := by
      have h1 := congrArg Dte.x1 he
      have h2 := congrArg Dte.x2 he
      exact Dte.ext h0 h1 h2
    exact ⟨hs, (setAlias_setup_eq_iff h).mp (he.trans hs.symm)⟩
  · rintro ⟨hs, hp⟩
    rw [(setAlias_setup_eq_iff h).mpr hp, hs]

end Dte

/-! ## The loops -/

theorem foldl_update {α : Type} (g : α → α) {l : List Nat} (hl : l.Nodup) (f : Nat → α) :
    l.foldl (fun f r => Function.update f r (g (f r))) f = fun r => if r ∈ l then g (f r) else f r := by
  induction l generalizing f with
  | nil => simp
  | cons x l ih =>
    rw [List.nodup_cons] at hl
    rw [List.foldl_cons, ih hl.2]
    funext r
    by_cases hr : r = x
    · subst hr
      simp [hl.1]
    · simp [hr]

namespace Tables

variable {room : Bool} {me : Nat} {t : Tables} {setting : BitVec 8} {s e r : Nat}

theorem setupRange_eq (dtb : Nat → Dte) :
    setupRange s e setting dtb = fun r => if s ≤ r ∧ r ≤ e then (dtb r).setup setting else dtb r := by
  refine (foldl_update (fun dev : Dte => dev.setup setting) List.nodup_range' dtb).trans ?_
  funext r
  congr 1
  simp only [List.mem_range'_1, eq_iff_iff]
  omega

/-- `claim_dev_single`, on the list of devices. -/
def claim (me : Nat) (pci : List Pci) (r : Nat) : List Pci :=
  onFirst (·.rid = r) (fun pci => { pci with iommu := some me }) pci

/-- What is written for one id of a range that is an alias of `src`. -/
def written (setting : BitVec 8) (src : Option Nat) (dev : Dte) : Dte :=
  match src with
  | none => dev.setup setting
  | some src => (dev.setup setting).setAlias src

def handle (room : Bool) (me : Nat) (setting : BitVec 8) (src : Option Nat) (t : Tables) (r : Nat) : Tables :=
  let t := (t.allocDtb room r r setting).claimDevSingle me r
  match src with
  | none => t
  | some src => t.setAlias r src

theorem table_table : ({ t with dtb := t.table room } : Tables).table room = t.table room := by
  unfold table
  cases t.dtb <;> cases room <;> rfl

theorem table_of_dtb {dtb : Nat → Dte} (h : t.dtb = some dtb) : t.table room = some dtb := by
  unfold table
  rw [h]
  rfl

theorem handle_eq (src : Option Nat) :
    t.handle room me setting src r =
      { t with
        dtb := (t.table room).map fun dtb => Function.update dtb r (written setting src (dtb r))
        pci := claim me t.pci r } := by
  have h : setupRange r r setting = fun dtb => Function.update dtb r ((dtb r).setup setting) := by
    funext dtb
    unfold setupRange
    rw [show r + 1 - r = 1 by omega]
    rfl
  cases src with
  | none =>
    unfold handle allocDtb
    rw [h]
    rfl
  | some src =>
    unfold handle allocDtb setAlias
    rw [h]
    unfold claimDevSingle
    simp only [Option.map_map]
    congr 2
    funext dtb
    simp [written]

/-- The device table is there, or there is no room for one. -/
def Settled (room : Bool) (t : Tables) : Prop := t.table room = t.dtb

theorem Settled.map (h : t.Settled room) (fn : (Nat → Dte) → Nat → Dte) (pci : List Pci) :
    ({ t with dtb := t.dtb.map fn, pci := pci } : Tables).Settled room := by
  unfold Settled table at h ⊢
  cases hd : t.dtb with
  | some dtb => rfl
  | none => rwa [hd] at h

theorem foldl_handle (h : t.Settled room) (src : Option Nat) {l : List Nat} (hl : l.Nodup) :
    l.foldl (handle room me setting src) t =
      { t with
        dtb := t.dtb.map fun dtb r => if r ∈ l then written setting src (dtb r) else dtb r
        pci := l.foldl (claim me) t.pci } := by
  induction l generalizing t with
  | nil => simp
  | cons x l ih =>
    rw [List.nodup_cons] at hl
    rw [List.foldl_cons, handle_eq, h, ih (h.map _ _) hl.2]
    simp only [Option.map_map, List.foldl_cons]
    congr 2
    funext dtb r
    by_cases hr : r = x
    · subst hr
      simp [hl.1]
    · simp [hr]

theorem foldl_handle_range (src : Option Nat) (hse : s ≤ e) :
    (List.range' s (e + 1 - s)).foldl (handle room me setting src) t =
      { t with
        dtb := (t.table room).map fun dtb r => if s ≤ r ∧ r ≤ e then written setting src (dtb r) else dtb r
        pci := (List.range' s (e + 1 - s)).foldl (claim me) t.pci } := by
  have hfirst : (List.range' s (e + 1 - s)).foldl (handle room me setting src) t =
      (List.range' s (e + 1 - s)).foldl (handle room me setting src) { t with dtb := t.table room } := by
    rw [show e + 1 - s = e - s + 1 by omega, List.range'_succ, List.foldl_cons, List.foldl_cons, handle_eq, handle_eq,
      table_table]
  rw [hfirst, foldl_handle table_table src List.nodup_range']
  congr 2
  funext dtb r
  congr 1
  simp only [List.mem_range'_1, eq_iff_iff]
  omega

theorem foldl_claimDevSingle {l : List Nat} :
    l.foldl (fun t r => t.claimDevSingle me r) t = { t with pci := l.foldl (claim me) t.pci } := by
  induction l generalizing t with
  | nil => rfl
  | cons x l ih =>
    rw [List.foldl_cons, ih]
    rfl

theorem foldl_claim_setAlias {a b : Nat} {l : List Nat} (hne : l ≠ []) :
    l.foldl (fun t r => (t.claimDevSingle me r).setAlias a b) t =
      { t with
        dtb := t.dtb.map fun dtb => Function.update dtb a ((dtb a).setAlias b)
        pci := l.foldl (claim me) t.pci } := by
  induction l generalizing t with
  | nil => exact absurd rfl hne
  | cons x l ih =>
    rw [List.foldl_cons]
    cases l with
    | nil => rfl
    | cons y l =>
      rw [ih (List.cons_ne_nil y l)]
      have htwice : ∀ dtb : Option (Nat → Dte),
          (dtb.map fun dtb => Function.update dtb a ((dtb a).setAlias b)).map
            (fun dtb => Function.update dtb a ((dtb a).setAlias b)) =
          dtb.map fun dtb => Function.update dtb a ((dtb a).setAlias b) := by
        intro dtb
        cases dtb <;> simp [Dte.setAlias_setAlias]
      unfold setAlias
      rw [htwice]
      rfl

end Tables

/-! ## The devices -/

section Claims

variable {me r r' : Nat} {pci : List Pci} {l : List Nat}

theorem find?_claim (pci : List Pci) (r r' : Nat) : (Tables.claim me pci r').find? (·.rid = r) =
    if r = r' then (pci.find? (·.rid = r)).map fun d => { d with iommu := some me } else pci.find? (·.rid = r) := by
  unfold Tables.claim
  induction pci with
  | nil => simp [onFirst]
  | cons d pci ih =>
    rw [onFirst]
    by_cases hd : d.rid = r'
    · by_cases hr : r = r'
      · subst hr
        simp [hd]
      · have : d.rid ≠ r := fun h => hr (h.symm.trans hd)
        simp [hd, hr, Ne.symm hr]
    · by_cases hr : d.rid = r
      · have : r ≠ r' := fun h => hd (hr.trans h)
        simp [hr, this]
      · simp only [hd, decide_false, Bool.false_eq_true, if_false, List.find?_cons, hr]
        exact ih

theorem claimedIn_claim : ClaimedIn me (Tables.claim me pci r') r ↔ r = r' ∨ ClaimedIn me pci r := by
  unfold ClaimedIn
  rw [find?_claim]
  by_cases h : r = r'
  · simp [h]
  · simp [h]

theorem claim_eq_self_iff : Tables.claim me pci r = pci ↔ ClaimedIn me pci r := by
  constructor
  · intro h
    rw [← h]
    exact claimedIn_claim.mpr (.inl rfl)
  · intro h
    unfold Tables.claim
    induction pci with
    | nil => rfl
    | cons d pci ih =>
      rw [onFirst]
      by_cases hd : d.rid = r
      · have := h d (by simp [hd])
        rw [if_pos (by simpa using hd), ← this]
      · rw [if_neg (by simpa using hd), ih]
        intro x hx
        exact h x (by simpa [hd] using hx)

theorem claimedIn_foldl (hr : r ∉ l) : ClaimedIn me (l.foldl (Tables.claim me) pci) r ↔ ClaimedIn me pci r := by
  induction l generalizing pci with
  | nil => rfl
  | cons x l ih =>
    rw [List.mem_cons, not_or] at hr
    rw [List.foldl_cons, ih hr.2, claimedIn_claim]
    exact or_iff_right hr.1

theorem foldl_claim_eq_self_iff (hl : l.Nodup) :
    l.foldl (Tables.claim me) pci = pci ↔ ∀ r ∈ l, ClaimedIn me pci r := by
  induction l generalizing pci with
  | nil => simp
  | cons x l ih =>
    rw [List.nodup_cons] at hl
    rw [List.foldl_cons, List.forall_mem_cons]
    constructor
    · intro h
      have hx : ClaimedIn me pci x := by
        rw [← h, claimedIn_foldl hl.1, claimedIn_claim]
        exact .inl rfl
      rw [claim_eq_self_iff.mpr hx] at h
      exact ⟨hx, (ih hl.2).mp h⟩
    · rintro ⟨hx, h⟩
      rw [claim_eq_self_iff.mpr hx]
      exact (ih hl.2).mpr h

end Claims

/-! ## One end of a range -/

section Step

variable {room : Bool} {me devid r : Nat} {s : State} {g : Option Range}

def State.given (s : State) (devid r : Nat) : Option Nat :=
  if r = s.rid ∧ s.rid < devid ∧ s.ridEff < 2 ^ 16 then some s.ridEff else none

theorem close_tables (hr : s.rid ≤ devid) (hd : devid < 2 ^ 16) :
    (s.close room me devid).tables =
      { s.tables with
        dtb := (s.tables.table room).map fun dtb r =>
          if s.rid ≤ r ∧ r ≤ devid then Tables.written s.setting (s.given devid r) (dtb r) else dtb r
        pci := (List.range' s.rid (devid - s.rid)).foldl (Tables.claim me) s.tables.pci } := by
  unfold State.close
  rw [if_neg (by omega), if_neg (by omega)]
  unfold State.init State.closeRange Tables.allocDtb
  -- without an alias, each entry is only set up
  have hplain (h : ∀ r, s.given devid r = none) : Tables.setupRange s.rid devid s.setting = fun dtb r =>
      if s.rid ≤ r ∧ r ≤ devid then Tables.written s.setting (s.given devid r) (dtb r) else dtb r := by
    funext dtb r
    rw [Tables.setupRange_eq, h]
    rfl
  by_cases hsrc : s.ridEff < 2 ^ 16
  · simp only [if_pos hsrc]
    by_cases hlt : s.rid < devid
    · rw [Tables.foldl_claim_setAlias (by simp; omega)]
      simp only [Option.map_map]
      congr 2
      funext dtb r
      rw [Function.comp_apply, Tables.setupRange_eq]
      by_cases he : r = s.rid
      · have hg : s.given devid r = some s.ridEff := if_pos ⟨he, hlt, hsrc⟩
        rw [hg, he, Function.update_self]
        simp only [le_refl, hr, and_self, if_true]
        rfl
      · have hg : s.given devid r = none := if_neg fun h => he h.1
        rw [hg, Function.update_of_ne he]
        rfl
    · rw [show devid - s.rid = 0 by omega, hplain fun r => if_neg (by omega)]
      rfl
  · simp only [if_neg hsrc]
    rw [Tables.foldl_claimDevSingle, hplain fun r => if_neg (by omega)]

theorem entry_single (x : Range) (hr : r < 2 ^ 16) :
    s.entry room me (x.single r) = { s with tables := s.tables.handle room me x.setting x.source r } := by
  have hmod : (BitVec.ofNat 16 r).toNat = r := by rw [BitVec.toNat_ofNat, Nat.mod_eq_of_lt hr]
  obtain ⟨first, kind, setting⟩ := x
  cases kind with
  | start =>
    unfold State.entry Range.single Range.source Tables.one Tables.handle
    simp [hmod]
  | ext =>
    unfold State.entry Range.single Range.source Tables.one Tables.handle
    simp [hmod, dteOne, dteExtOne, dteAll, dteStart, dteEnd, dteSpecial, dteAliasOne]
  | aliasOf source =>
    unfold State.entry Range.single Range.source Tables.aliasOne Tables.one Tables.handle
    simp [hmod, dteOne, dteAll, dteStart, dteEnd, dteSpecial, dteAliasOne]

theorem singles_tables (x : Range) (hd : devid < 2 ^ 16) (hr : x.first.toNat ≤ devid) :
    ((singles (some x) devid).foldl (fun s e => s.entry room me e) s).tables =
      { s.tables with
        dtb := (s.tables.table room).map fun dtb r =>
          if x.first.toNat ≤ r ∧ r ≤ devid then Tables.written x.setting x.source (dtb r) else dtb r
        pci := (List.range' x.first.toNat (devid + 1 - x.first.toNat)).foldl (Tables.claim me) s.tables.pci } := by
  have h : ∀ l : List Nat, (∀ r ∈ l, r < 2 ^ 16) → ∀ s : State,
      ((l.map x.single).foldl (fun s e => s.entry room me e) s).tables =
        l.foldl (Tables.handle room me x.setting x.source) s.tables := by
    intro l
    induction l with
    | nil => exact fun _ _ => rfl
    | cons r l ih =>
      intro hl s
      rw [List.map_cons, List.foldl_cons, List.foldl_cons, entry_single x (hl r (by simp)),
        ih (fun r hr => hl r (by simp [hr]))]
  rw [singles, h _ (fun r hr => by simp only [List.mem_range'_1] at hr; omega), Tables.foldl_handle_range x.source hr]

/-- What the variables of `parse` say about the range that is begun. -/
structure Tracks (s : State) (g : Option Range) : Prop where
  first : ∀ x ∈ g, s.rid = x.first.toNat
  setting : ∀ x ∈ g, s.setting = x.setting
  start : ∀ x ∈ g, x.kind = .start → s.ridEff = 2 ^ 16
  source : ∀ x ∈ g, ∀ src ∈ x.source, s.ridEff = src ∧ src < 2 ^ 16

theorem entry_start {e : Entry} (h : e.type = dteStart) :
    s.entry room me e = { s with rid := e.devid.toNat, ridEff := 2 ^ 16, setting := e.setting } := by
  rw [State.entry, h]
  rfl

theorem entry_extStart {e : Entry} (h : e.type = dteExtStart) :
    s.entry room me e = { s with rid := e.devid.toNat, setting := e.setting } := by
  rw [State.entry, h]
  rfl

theorem entry_aliasStart {e : Entry} (h : e.type = dteAliasStart) :
    s.entry room me e = { s with rid := e.devid.toNat, ridEff := e.pdevid.toNat, setting := e.setting } := by
  rw [State.entry, h]
  rfl

theorem entry_end {e : Entry} (h : e.type = dteEnd) : s.entry room me e = s.close room me e.devid.toNat := by
  rw [State.entry, h]
  rfl

theorem entry_other {e : Entry} (h₁ : e.type ≠ dteStart) (h₂ : e.type ≠ dteExtStart) (h₃ : e.type ≠ dteAliasStart)
    (h₄ : e.type ≠ dteEnd) : ∃ t, s.entry room me e = { s with tables := t } := by
  unfold State.entry
  rw [if_neg h₁, if_neg h₂, if_neg h₃, if_neg h₄]
  split_ifs
  · exact ⟨_, rfl⟩
  · exact ⟨_, rfl⟩
  · exact ⟨_, rfl⟩
  · exact ⟨_, rfl⟩
  · exact ⟨_, rfl⟩
  · exact ⟨_, rfl⟩

theorem tracks_none : Tracks s none := ⟨nofun, nofun, nofun, nofun⟩

theorem Tracks.entry (h : Tracks s g) (e : Entry) : Tracks (s.entry room me e) (e.begin g) := by
  unfold Entry.begin
  split_ifs with h₁ h₂ h₃ h₄
  · rw [entry_start h₁]
    exact ⟨by rintro x ⟨⟩; rfl, by rintro x ⟨⟩; rfl, by rintro x ⟨⟩ -; rfl, by rintro x ⟨⟩ src ⟨⟩⟩
  · rw [entry_extStart h₂]
    exact ⟨by rintro x ⟨⟩; rfl, by rintro x ⟨⟩; rfl, by rintro x ⟨⟩ ⟨⟩, by rintro x ⟨⟩ src ⟨⟩⟩
  · rw [entry_aliasStart h₃]
    exact ⟨by rintro x ⟨⟩; rfl, by rintro x ⟨⟩; rfl, by rintro x ⟨⟩ ⟨⟩,
      by rintro x ⟨⟩ src ⟨⟩; exact ⟨rfl, e.pdevid.isLt⟩⟩
  · exact tracks_none
  · obtain ⟨t, ht⟩ : ∃ t, s.entry room me e = { s with tables := t } := entry_other h₁ h₂ h₃ h₄
    rw [ht]
    exact ⟨h.first, h.setting, h.start, h.source⟩

theorem forEachEntry_append {u : List Entry} (hu : ∀ x ∈ u, x.type < 128) (e : Entry) :
    s.forEachEntry room me u = u.foldl (fun s x => s.entry room me x) s ∧
      s.forEachEntry room me (u ++ [e]) = (s.forEachEntry room me u).entry room me e := by
  induction u generalizing s with
  | nil =>
    constructor
    · rfl
    · rw [List.nil_append, State.forEachEntry, State.forEachEntry]
      exact ite_self _
  | cons x u ih =>
    rw [List.forall_mem_cons] at hu
    rw [List.cons_append, State.forEachEntry, State.forEachEntry, if_neg (by omega), if_neg (by omega)]
    exact ih hu.2

theorem Tracks.foldl (h : Tracks s g) (u : List Entry) :
    Tracks (u.foldl (fun s x => s.entry room me x) s) (u.foldl (fun g x => x.begin g) g) := by
  induction u generalizing s g with
  | nil => exact h
  | cons x u ih => exact ih (h.entry x)

theorem map_range_eq_iff {o : Option (Nat → Dte)} {a b : Nat} {f₁ f₂ : Nat → Dte → Dte} :
    (o.map fun dtb r => if a ≤ r ∧ r ≤ b then f₁ r (dtb r) else dtb r) =
        (o.map fun dtb r => if a ≤ r ∧ r ≤ b then f₂ r (dtb r) else dtb r) ↔
      ∀ dtb ∈ o, ∀ r, a ≤ r → r ≤ b → f₁ r (dtb r) = f₂ r (dtb r) := by
  cases o with
  | none => simp
  | some dtb =>
    simp only [Option.map_some, Option.some.injEq, Option.mem_some_iff, forall_eq']
    rw [funext_iff]
    refine forall_congr' fun r => ?_
    by_cases h : a ≤ r ∧ r ≤ b
    · simp [h]
    · rw [if_neg h, if_neg h]
      exact iff_of_true rfl fun h₁ h₂ => absurd ⟨h₁, h₂⟩ h

theorem close_some_iff {x : Range} (ht : Tracks s (some x)) (hr : s.rid ≤ devid) (hd : devid < 2 ^ 16) :
    (s.close room me devid).tables = ((singles (some x) devid).foldl (fun s e => s.entry room me e) s).tables ↔
      Meets room me s (some x) devid := by
  have hfirst := ht.first x rfl
  have hset := ht.setting x rfl
  rw [close_tables hr hd, singles_tables x hd (hfirst ▸ hr), ← hfirst, ← hset]
  simp only [Tables.mk.injEq, and_true]
  rw [map_range_eq_iff, show devid + 1 - s.rid = devid - s.rid + 1 by omega, List.range'_1_concat, List.foldl_append,
    List.foldl_cons, List.foldl_nil, show s.rid + (devid - s.rid) = devid by omega, eq_comm (b := Tables.claim ..),
    claim_eq_self_iff, claimedIn_foldl (by simp only [List.mem_range'_1]; omega)]
  constructor
  · rintro ⟨hw, hc⟩
    refine ⟨fun _ => hc, ?_, ?_, nofun⟩
    · intro dtb hdtb src hsrc r h₁ h₂ hne
      have hg : s.given devid r = none := if_neg (by omega)
      have he := hw dtb hdtb r h₁ h₂
      rw [hg, show x.source = some src from hsrc] at he
      exact (Dte.setAlias_setup_eq_iff (ht.source x rfl src hsrc).2).mp he.symm
    · intro hnone hlt heff dtb hdtb
      have hg : s.given devid s.rid = some s.ridEff := if_pos ⟨rfl, hlt, heff⟩
      have he := hw dtb hdtb s.rid le_rfl hr
      rw [hg, show x.source = none from hnone] at he
      exact (Dte.setAlias_setup_eq_iff heff).mp he
  · intro h
    refine ⟨fun dtb hdtb r h₁ h₂ => ?_, h.last nofun⟩
    cases hsrc : x.source with
    | none =>
      by_cases hgiven : r = s.rid ∧ s.rid < devid ∧ s.ridEff < 2 ^ 16
      · obtain ⟨rfl, hlt, heff⟩ := hgiven
        have hg : s.given devid s.rid = some s.ridEff := if_pos ⟨rfl, hlt, heff⟩
        rw [hg]
        exact (Dte.setAlias_setup_eq_iff heff).mpr (h.leftOver hsrc hlt heff dtb hdtb)
      · have hg : s.given devid r = none := if_neg hgiven
        rw [hg]
    | some src =>
      obtain ⟨heff, hlt⟩ := ht.source x rfl src hsrc
      by_cases hgiven : r = s.rid ∧ s.rid < devid
      · have hg : s.given devid r = some s.ridEff := if_pos ⟨hgiven.1, hgiven.2, heff ▸ hlt⟩
        rw [hg, heff]
      · have hg : s.given devid r = none := if_neg fun h => hgiven ⟨h.1, h.2.1⟩
        rw [hg]
        exact ((Dte.setAlias_setup_eq_iff hlt).mpr (h.aliased dtb hdtb src hsrc r h₁ h₂ (by omega))).symm

theorem given_lt : ∀ src ∈ s.given devid r, src < 2 ^ 16 := by
  unfold State.given
  split_ifs with h
  · rintro src ⟨⟩
    exact h.2.2
  · exact nofun

theorem written_eq_self_iff {setting : BitVec 8} {o : Option Nat} {dev : Dte} (ho : ∀ src ∈ o, src < 2 ^ 16) :
    Tables.written setting o dev = dev ↔ dev.setup setting = dev ∧ ∀ src ∈ o, dev.hptrp = Dte.hint src := by
  cases o with
  | none => exact (and_iff_left nofun).symm
  | some src =>
    refine (Dte.setAlias_setup_eq_self_iff (ho src rfl)).trans (and_congr_right' ?_)
    exact ⟨fun h x hx => Option.some.inj hx ▸ h, fun h => h src rfl⟩

theorem eq_table_of_map {t : Tables} {fn : (Nat → Dte) → Nat → Dte} (h : (t.table room).map fn = t.dtb) :
    t.dtb = t.table room := by
  cases hd : t.dtb with
  | some dtb => exact (Tables.table_of_dtb hd).symm
  | none =>
    rw [hd] at h
    exact (Option.map_eq_none_iff.mp h).symm

theorem close_none_iff (hr : s.rid ≤ devid) (hd : devid < 2 ^ 16) :
    (s.close room me devid).tables = ((singles none devid).foldl (fun s e => s.entry room me e) s).tables ↔
      Meets room me s none devid := by
  rw [close_tables hr hd, singles, List.foldl_nil]
  constructor
  · intro he
    have hmap := congrArg Tables.dtb he
    have hpci := (foldl_claim_eq_self_iff List.nodup_range').mp (congrArg Tables.pci he)
    have hdtb := eq_table_of_map hmap
    have hwritten : ∀ dtb ∈ s.tables.table room, ∀ r, s.rid ≤ r → r ≤ devid →
        (dtb r).setup s.setting = dtb r ∧ ∀ src ∈ s.given devid r, (dtb r).hptrp = Dte.hint src := by
      intro dtb hmem r h₁ h₂
      simp only at hmap
      rw [hdtb, Option.mem_def.mp hmem, Option.map_some, Option.some.injEq] at hmap
      have := congrFun hmap r
      rw [if_pos ⟨h₁, h₂⟩] at this
      exact (written_eq_self_iff given_lt).mp this
    refine ⟨fun h => absurd rfl h, nofun, ?_, fun _ => ⟨hdtb, ?_, ?_⟩⟩
    · intro _ hlt heff dtb hmem
      exact (hwritten dtb hmem s.rid le_rfl hr).2 _ (if_pos ⟨rfl, hlt, heff⟩)
    · exact fun dtb hmem r h₁ h₂ => (hwritten dtb hmem r h₁ h₂).1
    · intro r h₁ h₂
      exact hpci r (by simp only [List.mem_range'_1]; omega)
  · intro h
    obtain ⟨hdtb, hset, hclaim⟩ := h.ended rfl
    have hpci : (List.range' s.rid (devid - s.rid)).foldl (Tables.claim me) s.tables.pci = s.tables.pci := by
      refine (foldl_claim_eq_self_iff List.nodup_range').mpr fun r hmem => ?_
      simp only [List.mem_range'_1] at hmem
      exact hclaim r hmem.1 (by omega)
    have hmap : (s.tables.table room).map (fun dtb r =>
        if s.rid ≤ r ∧ r ≤ devid then Tables.written s.setting (s.given devid r) (dtb r) else dtb r) = s.tables.dtb := by
      rw [hdtb]
      cases ht : s.tables.table room with
      | none => rfl
      | some dtb =>
        rw [Option.map_some]
        congr 1
        funext r
        split_ifs with hin
        · refine (written_eq_self_iff given_lt).mpr ⟨hset dtb ht r hin.1 hin.2, fun src hsrc => ?_⟩
          by_cases hgiven : r = s.rid ∧ s.rid < devid ∧ s.ridEff < 2 ^ 16
          · obtain ⟨rfl, hlt, heff⟩ := hgiven
            have hg : s.given devid s.rid = some s.ridEff := if_pos ⟨rfl, hlt, heff⟩
            rw [hg, Option.mem_some_iff] at hsrc
            exact hsrc ▸ h.leftOver rfl hlt heff dtb ht
          · have hg : s.given devid r = none := if_neg hgiven
            rw [hg] at hsrc
            cases hsrc
        · rfl
    rw [hmap, hpci]

theorem close_iff (ht : Tracks s g) (hd : devid < 2 ^ 16) :
    (s.close room me devid).tables = ((singles g devid).foldl (fun s e => s.entry room me e) s).tables ↔
      (s.rid ≤ devid → Meets room me s g devid) := by
  by_cases hr : s.rid ≤ devid
  · rw [imp_iff_right hr]
    cases g with
    | none => exact close_none_iff hr hd
    | some x => exact close_some_iff ht hr hd
  · refine iff_of_true ?_ fun h => absurd h hr
    have hs : singles g devid = [] := by
      cases g with
      | none => rfl
      | some x =>
        have := ht.first x rfl
        rw [singles, show devid + 1 - x.first.toNat = 0 by omega]
        rfl
    rw [hs, State.close, if_pos (by omega)]
    rfl

end Step

/-- When each end of a range does what the single entries do. -/
theorem expands_iff (room : Bool) (me : Nat) (t : Tables) (es : List Entry) :
    Expands room me t es ↔
      ∀ u e v, es = u ++ e :: v → (∀ x ∈ u, x.type < 128) → e.type = dteEnd →
        ((State.init t).forEachEntry room me u).rid ≤ e.devid.toNat →
          Meets room me ((State.init t).forEachEntry room me u) (pending u) e.devid.toNat := by
  refine forall₃_congr fun u e v => forall₃_congr fun _ hu he => ?_
  obtain ⟨hfold, happ⟩ : (State.init t).forEachEntry room me u = _ ∧ _ := forEachEntry_append hu e
  have ht : Tracks ((State.init t).forEachEntry room me u) (pending u) := by
    rw [hfold]
    exact tracks_none.foldl u
  rw [happ, entry_end he]
  exact close_iff ht e.devid.isLt

def twoIds : List Entry := [⟨dteStart, 8, 0, 0, 0, 0⟩, ⟨dteEnd, 9, 0, 0, 0, 0⟩]

def twoDevices : Tables := ⟨none, [⟨8, none⟩, ⟨9, none⟩], [], []⟩

/-- The second device is not claimed. -/
theorem twoIds_not_expands : ¬Expands true 0 twoDevices twoIds := by
  intro h
  have hend := congrArg Tables.pci (h [⟨dteStart, 8, 0, 0, 0, 0⟩] ⟨dteEnd, 9, 0, 0, 0, 0⟩ [] rfl (by decide) rfl)
  exact absurd hend (by decide +kernel)

end Tukija.Iommu
