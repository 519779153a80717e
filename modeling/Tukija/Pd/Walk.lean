import Tukija.Pd.Clamp
import Tukija.Pd.Effect

/-! Rules for the loop over an index range. -/
namespace Tukija.Pd

open Tukija.Lib.Word Tukija.Mapdb

variable {σ τ : Type} {get : τ → State σ} {pd : PdId} {base ord : Mword}
  {body : NodeId → Mword → Mword → τ → Option (Ctl τ)}

/-- `P` holds whenever the loop is about to work on a node. -/
def walkAll (get : τ → State σ) (pd : PdId) (base ord : Mword)
    (body : NodeId → Mword → Mword → τ → Option (Ctl τ))
    (P : NodeId → Mword → Mword → τ → Prop) : Nat → Mword → τ → Prop
  | 0, _, _ => True
  | fuel + 1, addr, t =>
    match (get t).lookup pd addr true with
    | none => True
    | some m =>
      let mdb := (get t).mdb m
      let c := clamp mdb.nodeBase base mdb.nodeOrder ord
      if c.1 = ones then True
      else
        P m c.2 c.1 t ∧
          match body m c.2 c.1 t with
          | some (.next t) => walkAll get pd base ord body P fuel mdb.last t
          | _ => True

instance walkAllDecidable (get : τ → State σ) (pd : PdId) (base ord : Mword)
    (body : NodeId → Mword → Mword → τ → Option (Ctl τ))
    (P : NodeId → Mword → Mword → τ → Prop) [∀ m b o t, Decidable (P m b o t)] :
    ∀ fuel addr t, Decidable (walkAll get pd base ord body P fuel addr t)
  | 0, _, _ => isTrue trivial
  | fuel + 1, addr, t =>
    match hl : (get t).lookup pd addr true with
    | none => isTrue (by simp [walkAll, hl])
    | some m =>
      let c := clamp ((get t).mdb m).nodeBase base ((get t).mdb m).nodeOrder ord
      if hc : c.1 = ones then isTrue (by simp [walkAll, hl, c, hc])
      else
        match hb : body m c.2 c.1 t with
        | some (.next t') =>
          have := walkAllDecidable get pd base ord body P fuel ((get t).mdb m).last t'
          decidable_of_iff (P m c.2 c.1 t ∧ walkAll get pd base ord body P fuel ((get t).mdb m).last t')
            (by simp [walkAll, hl, c, hc, hb])
        | some (.ret _) => decidable_of_iff (P m c.2 c.1 t) (by simp [walkAll, hl, c, hc, hb])
        | none => decidable_of_iff (P m c.2 c.1 t) (by simp [walkAll, hl, c, hc, hb])

/-- The loop stops in front of the state `t`. -/
def Stops (get : τ → State σ) (pd : PdId) (base ord addr : Mword) (t : τ) : Prop :=
  ∀ m, (get t).lookup pd addr true = some m →
    (clamp ((get t).mdb m).nodeBase base ((get t).mdb m).nodeOrder ord).1 = ones

/-- The loop is about to work on the part `(b, o)` of the node `m`. -/
structure Visits (get : τ → State σ) (pd : PdId) (base ord addr : Mword) (t : τ) (m : NodeId)
    (b o : Mword) : Prop where
  lookup : (get t).lookup pd addr true = some m
  clamp : clamp ((get t).mdb m).nodeBase base ((get t).mdb m).nodeOrder ord = (o, b)
  order : o ≠ ones

theorem walkRange_rule {P : NodeId → Mword → Mword → τ → Prop} (Inv : Mword → τ → Prop)
    (Q : Ctl τ → Prop)
    (hexit : ∀ addr t, Inv addr t → Stops get pd base ord addr t → Q (.next t))
    (hret : ∀ addr t m b o t', Inv addr t → Visits get pd base ord addr t m b o → P m b o t →
      body m b o t = some (.ret t') → Q (.ret t'))
    (hnext : ∀ addr t m b o t', Inv addr t → Visits get pd base ord addr t m b o → P m b o t →
      body m b o t = some (.next t') → Inv ((get t).mdb m).last t')
    {fuel : Nat} {addr : Mword} {t : τ} {r : Ctl τ} (hinv : Inv addr t)
    (hall : walkAll get pd base ord body P fuel addr t)
    (h : walkRange get pd base ord body fuel addr t = some r) : Q r := by
  induction fuel generalizing addr t with
  | zero => simp [walkRange] at h
  | succ fuel ih =>
    unfold walkRange at h
    unfold walkAll at hall
    cases hl : (get t).lookup pd addr true with
    | none =>
      rw [hl] at h
      obtain rfl := Option.some.inj h
      exact hexit addr t hinv (fun m hm => by simp [hl] at hm)
    | some m =>
      simp only [hl] at h hall
      by_cases hc : (clamp ((get t).mdb m).nodeBase base ((get t).mdb m).nodeOrder ord).1 = ones
      · rw [if_pos hc] at h
        obtain rfl := Option.some.inj h
        apply hexit addr t hinv
        intro m' hm'
        rw [hl] at hm'
        obtain rfl := Option.some.inj hm'
        exact hc
      · rw [if_neg hc] at h hall
        have hv : Visits get pd base ord addr t m _ _ := ⟨hl, rfl, hc⟩
        obtain ⟨hP, hrest⟩ := hall
        generalize hb : body m _ _ t = c at h hrest
        cases c with
        | none => simp at h
        | some c =>
          cases c with
          | ret t' =>
            obtain rfl := Option.some.inj h
            exact hret addr t m _ _ t' hinv hv hP hb
          | next t' => exact ih (hnext addr t m _ _ t' hinv hv hP hb) hrest h

theorem walkAll_of_forall {P : NodeId → Mword → Mword → τ → Prop} (hP : ∀ m b o t, P m b o t)
    (fuel : Nat) (addr : Mword) (t : τ) : walkAll get pd base ord body P fuel addr t := by
  induction fuel generalizing addr t with
  | zero => trivial
  | succ fuel ih =>
    unfold walkAll
    split
    · trivial
    · dsimp only
      split
      · trivial
      · refine ⟨hP _ _ _ _, ?_⟩
        split
        · exact ih _ _
        · trivial

section Cover

variable {node : NodeId → Mdb} {T : NodeId → Prop} {D : NodeId → τ → Prop} {J : τ → Prop}

/-- What the loop relies on while it covers the nodes `T` of `pd`: ranges do
not move, and `T` takes in all nodes that the range meets. -/
structure Covers (get : τ → State σ) (pd : PdId) (base ord : Mword) (node : NodeId → Mdb)
    (T : NodeId → Prop) (t : τ) : Prop where
  wf : Wf (get t)
  nodeBase : ∀ x, T x → ((get t).mdb x).nodeBase = (node x).nodeBase
  nodeOrder : ∀ x, T x → ((get t).mdb x).nodeOrder = (node x).nodeOrder
  mem : ∀ y, T y → y ∈ (get t).tree pd → Meeting (node y) base ord

theorem Covers.top {t : τ} (hc : Covers get pd base ord node T t) {x : NodeId} (hx : T x) :
    ((get t).mdb x).top = (node x).top := by
  unfold Mdb.top
  rw [hc.nodeBase x hx, hc.nodeOrder x hx]

theorem Covers.stops {t : τ} {addr : Mword} (hc : Covers get pd base ord node T t)
    (ho : ord.toNat < 64) (hb : Aligned ord.toNat base) (hs : Stops get pd base ord addr t)
    (hle : base.toNat ≤ addr.toNat) {y : NodeId} (hy : T y) (hmem : y ∈ (get t).tree pd) :
    (node y).top ≤ addr.toNat := by
  by_contra hlt
  have hlt := Nat.lt_of_not_le hlt
  have hnat : ∀ n ∈ (get t).tree pd, ((get t).mdb n).Natural := hc.wf.natural_of_mem
  rw [← hc.top hy] at hlt
  cases hl : (get t).lookup pd addr true with
  | none => exact absurd hlt (Nat.not_lt.mpr (lookup_next_none hnat hl y hmem))
  | some m =>
    obtain ⟨hm, hmt, hfirst⟩ := lookup_next_some (hc.wf.ordered pd) hnat hl
    have hmy := hfirst y hmem hlt
    -- the range starts in front of the end of `m` and meets a node behind it
    have hmeet : Meeting ((get t).mdb m) base ord := by
      obtain ⟨i, hi, hri⟩ := hc.mem y hy hmem
      have hbt := ((get t).mdb m).base_lt_top
      rw [← hc.nodeBase y hy] at hi
      by_cases hcase : ((get t).mdb m).nodeBase.toNat ≤ base.toNat
      · exact ⟨base.toNat, ⟨hcase, by omega⟩, le_rfl, by omega⟩
      · exact ⟨((get t).mdb m).nodeBase.toNat, ⟨le_rfl, hbt⟩, by omega, by omega⟩
    exact (clamp_ne_ones_iff (hnat m hm) ho hb).mpr hmeet (hs m hl)

theorem walkRange_covers {P : NodeId → Mword → Mword → τ → Prop} {Q : Ctl τ → Prop}
    (ho : ord.toNat < 64) (hb : Aligned ord.toNat base)
    (hJ : ∀ t, J t → Covers get pd base ord node T t)
    (hexit : ∀ t, J t → (∀ y, T y → D y t) → Q (.next t))
    (hret : ∀ addr t m b o t', J t → Visits get pd base ord addr t m b o → P m b o t →
      body m b o t = some (.ret t') → Q (.ret t'))
    (hnext : ∀ addr t m b o t', J t → Visits get pd base ord addr t m b o → P m b o t →
      body m b o t = some (.next t') → J t' ∧ D m t' ∧ (∀ y, T y → D y t → D y t') ∧
        ∀ y, T y → y ∈ (get t).tree pd → y ∈ (get t').tree pd ∨ D y t')
    {fuel : Nat} {t : τ} {r : Ctl τ} (hinit : J t) (hT : ∀ y, T y → y ∈ (get t).tree pd)
    (hall : walkAll get pd base ord body P fuel base t)
    (h : walkRange get pd base ord body fuel base t = some r) : Q r := by
  -- what is not done yet ends behind `addr`
  let Inv : Mword → τ → Prop := fun addr t =>
    J t ∧ (∀ y, T y → D y t ∨ y ∈ (get t).tree pd ∧ addr.toNat < (node y).top) ∧
      (base.toNat ≤ addr.toNat ∨ ∀ y, T y → D y t)
  apply walkRange_rule Inv Q _ _ _ _ hall h
  · rintro addr t ⟨hj, hpend, hle⟩ hs
    apply hexit t hj
    intro y hy
    rcases hle with hle | hdone
    · rcases hpend y hy with hd | ⟨hmem, hlt⟩
      · exact hd
      · exact absurd hlt (Nat.not_lt.mpr ((hJ t hj).stops ho hb hs hle hy hmem))
    · exact hdone y hy
  · rintro addr t m b o t' ⟨hj, -, -⟩ hv hP hbody
    exact hret addr t m b o t' hj hv hP hbody
  · rintro addr t m b o t' ⟨hj, hpend, hle⟩ hv hP hbody
    obtain ⟨hj', hdm, hkeep, hstay⟩ := hnext addr t m b o t' hj hv hP hbody
    have hc := hJ t hj
    have hnat : ∀ n ∈ (get t).tree pd, ((get t).mdb n).Natural := hc.wf.natural_of_mem
    obtain ⟨hm, hmt, hfirst⟩ := lookup_next_some (hc.wf.ordered pd) hnat hv.lookup
    have hlast := (hnat m hm).last_eq
    have hend : ((get t).mdb m).top ≤ 2 ^ 64 := (hnat m hm).base.add_le (hnat m hm).order_lt.le
    -- the nodes still to come lie behind `m`
    have hbehind : ∀ y, T y → D y t' ∨
        y ∈ (get t').tree pd ∧ ((get t).mdb m).top ≤ (node y).nodeBase.toNat := by
      intro y hy
      rcases hpend y hy with hd | ⟨hmem, hlt⟩
      · exact Or.inl (hkeep y hy hd)
      · rcases hstay y hy hmem with hmem' | hd
        · by_cases hym : y = m
          · rw [hym]
            exact Or.inl hdm
          · refine Or.inr ⟨hmem', ?_⟩
            rw [← hc.top hy] at hlt
            have hle := hfirst y hmem hlt
            have hne : ((get t).mdb m).nodeBase.toNat ≠ ((get t).mdb y).nodeBase.toNat := by
              intro heq
              exact hym ((hc.wf.ordered pd).base_inj hmem hm (BitVec.eq_of_toNat_eq heq.symm))
            rw [← hc.nodeBase y hy]
            exact (hc.wf.ordered pd).top_le hnat hm hmem (lt_of_le_of_ne hle hne)
        · exact Or.inl hd
    by_cases htop : ((get t).mdb m).top = 2 ^ 64
    · -- nothing can lie behind the end of the index space
      have hdone : ∀ y, T y → D y t' := by
        intro y hy
        rcases hbehind y hy with hd | ⟨-, hle'⟩
        · exact hd
        · have := (node y).nodeBase.isLt
          omega
      exact ⟨hj', fun y hy => Or.inl (hdone y hy), Or.inr hdone⟩
    · have haddr : ((get t).mdb m).last.toNat = ((get t).mdb m).top := by
        rw [hlast]
        exact Nat.mod_eq_of_lt (by omega)
      refine ⟨hj', fun y hy => ?_, ?_⟩
      · rcases hbehind y hy with hd | ⟨hmem, hle'⟩
        · exact Or.inl hd
        · have := (node y).base_lt_top
          exact Or.inr ⟨hmem, by omega⟩
      · rcases hle with hle | hdone
        · exact Or.inl (by omega)
        · exact Or.inr fun y hy => hkeep y hy (hdone y hy)
  · refine ⟨hinit, fun y hy => ?_, Or.inl le_rfl⟩
    obtain ⟨i, hi, hri⟩ := (hJ t hinit).mem y hy (hT y hy)
    exact Or.inr ⟨hT y hy, by omega⟩

end Cover

section Termination

theorem walkRange_of_stops {fuel : Nat} {addr : Mword} {t : τ}
    (hs : Stops get pd base ord addr t) :
    walkRange get pd base ord body (fuel + 1) addr t = some (.next t) := by
  unfold walkRange
  cases hl : (get t).lookup pd addr true with
  | none => rfl
  | some m => simp [hs m hl]

theorem walkRange_of_visits {fuel : Nat} {addr b o : Mword} {t : τ} {m : NodeId}
    (hv : Visits get pd base ord addr t m b o) :
    walkRange get pd base ord body (fuel + 1) addr t =
      match body m b o t with
      | none => none
      | some (.ret t) => some (.ret t)
      | some (.next t') => walkRange get pd base ord body fuel ((get t).mdb m).last t' := by
  cases hb : body m b o t with
  | none => simp [walkRange, hv.lookup, hv.clamp, hv.order, hb]
  | some c =>
    cases c with
    | ret t' => simp [walkRange, hv.lookup, hv.clamp, hv.order, hb]
    | next t' => simp [walkRange, hv.lookup, hv.clamp, hv.order, hb]

theorem stops_or_visits (addr : Mword) (t : τ) :
    Stops get pd base ord addr t ∨ ∃ m b o, Visits get pd base ord addr t m b o := by
  cases hl : (get t).lookup pd addr true with
  | none => exact Or.inl fun m hm => by simp [hl] at hm
  | some m =>
    by_cases hc : (clamp ((get t).mdb m).nodeBase base ((get t).mdb m).nodeOrder ord).1 = ones
    · left
      intro m' hm'
      rw [hl] at hm'
      obtain rfl := Option.some.inj hm'
      exact hc
    · exact Or.inr ⟨m, _, _, hl, rfl, hc⟩

/-- The loop ends, as every pass leaves fewer nodes of `T` behind `addr`, unless
it gets to the end of the index space and starts over. -/
theorem walkRange_isSome {J : τ → Prop} (T : List NodeId) (node : NodeId → Mdb)
    (hwf : ∀ t, J t → Wf (get t))
    (hT : ∀ addr t m b o, J t → Visits get pd base ord addr t m b o →
      m ∈ T ∧ ((get t).mdb m).top = (node m).top)
    (hbody : ∀ addr t m b o, J t → Visits get pd base ord addr t m b o → ∃ c, body m b o t = some c)
    (hnext : ∀ addr t m b o t', J t → Visits get pd base ord addr t m b o →
      body m b o t = some (.next t') → J t' ∧ ((node m).top = 2 ^ 64 → Stops get pd base ord 0 t'))
    {fuel : Nat} {addr : Mword} {t : τ} (hJ : J t)
    (hfuel : (T.filter fun y => decide (addr.toNat < (node y).top)).length + 1 < fuel) :
    (walkRange get pd base ord body fuel addr t).isSome := by
  induction fuel generalizing addr t with
  | zero => simp at hfuel
  | succ fuel ih =>
    have hcases : Stops get pd base ord addr t ∨ ∃ m b o, Visits get pd base ord addr t m b o :=
      stops_or_visits addr t
    rcases hcases with hs | ⟨m, b, o, hv⟩
    · rw [walkRange_of_stops hs]
      rfl
    · rw [walkRange_of_visits hv]
      obtain ⟨c, hc⟩ := hbody addr t m b o hJ hv
      rw [hc]
      cases c with
      | ret t' => rfl
      | next t' =>
        obtain ⟨hJ', hwrap⟩ := hnext addr t m b o t' hJ hv hc
        have hw := hwf t hJ
        have hnat : ∀ n ∈ (get t).tree pd, ((get t).mdb n).Natural := hw.natural_of_mem
        obtain ⟨hm, hmt, -⟩ := lookup_next_some (hw.ordered pd) hnat hv.lookup
        obtain ⟨hmT, htm⟩ := hT addr t m b o hJ hv
        have hend := (hnat m hm).base.add_le (hnat m hm).order_lt.le
        have hlast := (hnat m hm).last_eq
        -- `m` itself is behind `addr` no longer
        have hmem : m ∈ T.filter fun y => decide (addr.toNat < (node y).top) :=
          List.mem_filter.mpr ⟨hmT, by simpa [← htm] using hmt⟩
        by_cases h64 : (node m).top = 2 ^ 64
        · have hzero : ((get t).mdb m).last = 0 := by
            apply BitVec.eq_of_toNat_eq
            rw [hlast, htm, h64]
            rfl
          have hpos := List.length_pos_of_mem hmem
          obtain ⟨f, rfl⟩ : ∃ f, fuel = f + 1 := ⟨fuel - 1, by omega⟩
          simp only [hzero]
          rw [walkRange_of_stops (hwrap h64)]
          rfl
        · have haddr : ((get t).mdb m).last.toNat = (node m).top := by
            rw [hlast, ← htm]
            apply Nat.mod_eq_of_lt
            rw [← htm] at h64
            unfold Mdb.top at h64 ⊢
            omega
          apply ih hJ'
          rw [haddr]
          have hlt : (T.filter fun y => decide ((node m).top < (node y).top)).length <
              (T.filter fun y => decide (addr.toNat < (node y).top)).length := by
            have hsub : (T.filter fun y => decide ((node m).top < (node y).top)).Sublist
                (T.filter fun y => decide (addr.toNat < (node y).top)) := by
              apply List.monotone_filter_right
              intro y hy
              simp only [decide_eq_true_eq] at hy ⊢
              omega
            apply lt_of_le_of_ne hsub.length_le
            intro heq
            rw [← hsub.eq_of_length heq] at hmem
            simp at hmem
          omega

theorem walkRange_eq_none {J : τ → Prop} {addr : Mword}
    (hJ : ∀ t, J t → ∃ m b o t', Visits get pd base ord addr t m b o ∧
      body m b o t = some (.next t') ∧ ((get t).mdb m).last = addr ∧ J t')
    (fuel : Nat) (t : τ) (ht : J t) : walkRange get pd base ord body fuel addr t = none := by
  induction fuel generalizing t with
  | zero => rfl
  | succ fuel ih =>
    obtain ⟨m, b, o, t', hv, hbody, hlast, ht'⟩ := hJ t ht
    rw [walkRange_of_visits hv, hbody, hlast]
    exact ih t' ht'

end Termination

end Tukija.Pd
