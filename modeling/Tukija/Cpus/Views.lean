import Tukija.Cpus.Set

/-! What the functions of `Cpuset` say about the members of the set. -/
namespace Tukija.Cpus

/-! ## One word -/

def bits (val : BitVec 64) : List Nat := (List.range 64).filter fun i => val.getLsbD i

theorem bits_eq_nil {val : BitVec 64} (h : bitScanForward val = none) : bits val = [] :=
  List.filter_eq_nil_iff.mpr (List.find?_eq_none.mp h)

theorem getLsbD_clrMask (val : BitVec 64) {cpu i : Nat} (hc : cpu < 64) :
    (clrMask val cpu).getLsbD i = (val.getLsbD i && decide (i ≠ cpu)) := by
  rw [clrMask, Nat.mod_eq_of_lt hc]
  by_cases hi : i < 64
  · by_cases heq : i = cpu
    · simp [heq, hc]
    · have : ¬ (cpu ≤ i ∧ i - cpu = 0) := by omega
      simp [hi, heq]
      omega
  · simp [BitVec.getLsbD_of_ge _ _ (not_lt.mp hi)]

theorem bits_cons {val : BitVec 64} {cpu : Nat} (h : bitScanForward val = some cpu) :
    cpu < 64 ∧ bits val = cpu :: bits (clrMask val cpu) := by
  obtain ⟨hset, u, v, huv, hu⟩ := List.find?_eq_some_iff_append.mp h
  have hc : cpu < 64 := List.mem_range.mp (huv ▸ by simp)
  have hnodup : (u ++ cpu :: v).Nodup := huv ▸ List.nodup_range
  have hcv : cpu ∉ v := (List.nodup_cons.mp (List.nodup_append.mp hnodup).2.1).1
  have hclr : ∀ i, (clrMask val cpu).getLsbD i = (val.getLsbD i && decide (i ≠ cpu)) := fun i =>
    getLsbD_clrMask val hc
  have hu0 : ∀ i ∈ u, val.getLsbD i = false := fun i hi => by simpa using hu i hi
  refine ⟨hc, ?_⟩
  rw [bits, bits, huv, List.filter_append, List.filter_append, List.filter_cons_of_pos hset,
    List.filter_cons_of_neg (by rw [hclr]; simp)]
  have hfront : (u.filter fun i => val.getLsbD i) = [] := List.filter_eq_nil_iff.mpr fun i hi => by simp [hu0 i hi]
  have hfront' : (u.filter fun i => (clrMask val cpu).getLsbD i) = [] :=
    List.filter_eq_nil_iff.mpr fun i hi => by simp [hclr, hu0 i hi]
  have hback : (v.filter fun i => (clrMask val cpu).getLsbD i) = v.filter fun i => val.getLsbD i := by
    apply List.filter_congr
    intro i hi
    have hne : i ≠ cpu := fun heq => hcv (heq ▸ hi)
    simp [hclr, hne]
  rw [hfront, hfront', hback]
  rfl

/-! ## Calls -/

section Calls

variable {σ : Type} (fn : σ → Nat → σ) (cond : σ → Bool)

/-- `fn` is called with one CPU after the other until `cond` holds. -/
def calls : List Nat → σ → σ × List Nat
  | [], s => (s, [])
  | c :: l, s =>
    if cond s then (s, [])
    else ((calls l (fn s c)).1, c :: (calls l (fn s c)).2)

theorem calls_of_cond {s : σ} (h : cond s = true) (l : List Nat) : calls fn cond l s = (s, []) := by
  cases l with
  | nil => rfl
  | cons c l => exact if_pos h

theorem calls_append (l m : List Nat) (s : σ) :
    calls fn cond (l ++ m) s =
      ((calls fn cond m (calls fn cond l s).1).1, (calls fn cond l s).2 ++ (calls fn cond m (calls fn cond l s).1).2) := by
  induction l generalizing s with
  | nil => rfl
  | cons c l ih =>
    by_cases hs : cond s = true
    · rw [List.cons_append, calls_of_cond fn cond hs, calls_of_cond fn cond hs, calls_of_cond fn cond hs]
      rfl
    · rw [List.cons_append, calls, calls, if_neg hs, if_neg hs, ih]
      rfl

theorem calls_prefix (l : List Nat) (s : σ) : (calls fn cond l s).2 <+: l := by
  induction l generalizing s with
  | nil => exact List.prefix_rfl
  | cons c l ih =>
    by_cases hs : cond s = true
    · rw [calls_of_cond fn cond hs]
      exact List.nil_prefix
    · rw [calls, if_neg hs]
      exact List.prefix_cons_inj c |>.mpr (ih _)

theorem calls_all (l : List Nat) (s : σ) : (calls fn (fun _ => false) l s).2 = l := by
  induction l generalizing s with
  | nil => rfl
  | cons c l ih => exact congrArg (c :: ·) (ih _)

end Calls

/-! ## Members -/

namespace Cpuset

variable (t : Cpuset)

def members : List Nat := (List.range (64 * t.values)).filter t.chk

theorem chk_eq (cpu : Nat) : t.chk cpu = (t.raw (cpu / 64)).getLsbD (cpu % 64) := by
  have hmask := BitVec.and_twoPow (t.raw (cpu / 64)) (cpu % 64)
  rw [BitVec.twoPow_eq] at hmask
  have hone : 1#64 <<< (cpu % 64) ≠ 0 := by
    intro h0
    have hbit := congrArg (·.getLsbD (cpu % 64)) h0
    have hlt : cpu % 64 < 64 := Nat.mod_lt _ (by decide)
    simp [hlt] at hbit
  rw [chk, hmask]
  cases (t.raw (cpu / 64)).getLsbD (cpu % 64) with
  | false => simp
  | true => exact decide_eq_true hone

theorem chk_word (n : Nat) {j : Nat} (hj : j < 64) : t.chk (64 * n + j) = (t.raw n).getLsbD j := by
  rw [chk_eq, show (64 * n + j) / 64 = n by omega, show (64 * n + j) % 64 = j by omega]

def wordMembers (i : Nat) : List Nat := (bits (t.raw i)).map (· + i * 64)

theorem filter_chk (n : Nat) : (List.range (64 * n)).filter t.chk = (List.range n).flatMap t.wordMembers := by
  induction n with
  | zero => rfl
  | succ n ih =>
    have hword : ((List.range 64).map (64 * n + ·)).filter t.chk = t.wordMembers n := by
      rw [List.filter_map, wordMembers, bits]
      have hchk : (List.range 64).filter (t.chk ∘ (64 * n + ·)) = (List.range 64).filter fun i => (t.raw n).getLsbD i :=
        List.filter_congr fun j hj => t.chk_word n (List.mem_range.mp hj)
      rw [hchk]
      exact List.map_congr_left fun j _ => by omega
    rw [show 64 * (n + 1) = 64 * n + 64 by omega, List.range_add, List.filter_append, ih, hword, List.range_succ,
      List.flatMap_append, List.flatMap_singleton]

theorem members_eq : t.members = (List.range t.values).flatMap t.wordMembers := t.filter_chk t.values

theorem mem_members {cpu : Nat} : cpu ∈ t.members ↔ cpu < 64 * t.values ∧ t.chk cpu = true := by
  rw [members, List.mem_filter, List.mem_range]

theorem members_sorted : t.members.Pairwise (· < ·) := List.pairwise_lt_range.filter _

/-! ## The loops -/

section Loops

variable {σ : Type} (fn : σ → Nat → σ) (cond : σ → Bool)

theorem visitWord_eq (i fuel : Nat) (subset : BitVec 64) (s : σ) (hfuel : (bits subset).length < fuel) :
    visitWord fn cond i fuel subset s = some (calls fn cond ((bits subset).map (· + i * 64)) s) := by
  induction fuel generalizing subset s with
  | zero => exact absurd hfuel (Nat.not_lt_zero _)
  | succ fuel ih =>
    rw [visitWord]
    cases hscan : bitScanForward subset with
    | none =>
      rw [bits_eq_nil hscan]
      rfl
    | some cpu =>
      obtain ⟨-, hbits⟩ := bits_cons hscan
      rw [hbits, List.map_cons]
      by_cases hs : cond s = true
      · rw [calls_of_cond fn cond hs]
        exact if_pos hs
      · have hless : (bits (clrMask subset cpu)).length < fuel := by
          rw [hbits, List.length_cons] at hfuel
          omega
        simp only [if_neg hs, calls]
        rw [ih _ _ hless]
        rfl

theorem visitWords_eq {fuel : Nat} (hfuel : 64 < fuel) (is : List Nat) (s : σ) :
    t.visitWords fn cond fuel is s = some (calls fn cond (is.flatMap t.wordMembers) s) := by
  induction is generalizing s with
  | nil => rfl
  | cons i is ih =>
    rw [visitWords, List.flatMap_cons]
    by_cases hs : cond s = true
    · rw [if_pos hs, calls_of_cond fn cond hs]
    · have hlen : (bits (t.raw i)).length < fuel := by
        have := List.length_filter_le (fun j => (t.raw i).getLsbD j) (List.range 64)
        rw [List.length_range] at this
        exact lt_of_le_of_lt this hfuel
      rw [if_neg hs, visitWord_eq fn cond i fuel _ s hlen, calls_append, Option.bind_some, ih]
      rfl

theorem forEachUntil_eq {fuel : Nat} (hfuel : 64 < fuel) (s : σ) :
    t.forEachUntil fn cond fuel s = some (calls fn cond t.members s) := by
  rw [members_eq]
  exact t.visitWords_eq fn cond hfuel _ s

end Loops

/-! ## Count -/

/-- The bits in the words that `count` reads behind the array. -/
def behind : Nat := ((List.range (7 * t.values)).map fun i => popcount (t.raw (t.values + i))).sum

theorem length_bits (val : BitVec 64) : (bits val).length = popcount val := (List.countP_eq_length_filter).symm

theorem length_members : t.members.length = ((List.range t.values).map fun i => popcount (t.raw i)).sum := by
  rw [members_eq, List.length_flatMap]
  congr 1
  exact List.map_congr_left fun i _ => by rw [wordMembers, List.length_map, length_bits]

theorem foldl_count (l : List Nat) (count : Nat) :
    l.foldl (fun count i => (count + popcount (t.raw i)) % 2 ^ 32) (count % 2 ^ 32) =
      (count + (l.map fun i => popcount (t.raw i)).sum) % 2 ^ 32 := by
  induction l generalizing count with
  | nil => rfl
  | cons i l ih =>
    rw [List.foldl_cons, Nat.mod_add_mod, ih, List.map_cons, List.sum_cons, Nat.add_assoc]

theorem count_eq : t.count.1 = (t.members.length + t.behind) % 2 ^ 32 := by
  have hsum := t.foldl_count (List.range t.sizeofRaw) 0
  rw [Nat.zero_mod, Nat.zero_add] at hsum
  rw [count, hsum, length_members, behind, sizeofRaw, show 8 * t.values = t.values + 7 * t.values by omega,
    List.range_add, List.map_append, List.sum_append, List.map_map]
  rfl

theorem values_pos : 0 < t.values := by
  rw [values]
  omega

theorem values_mem_count : t.values ∈ t.count.2 := by
  have hpos := t.values_pos
  rw [count, List.mem_range, sizeofRaw]
  omega

/-! ## The first CPU -/

theorem firstCpuLoop_found {fuel i : Nat} {r : Nat × List Nat} (h : t.firstCpuLoop fuel i = some r) :
    ∃ j ∈ r.2, bitScanForward (t.raw j) = some r.1 := by
  induction fuel generalizing i r with
  | zero => cases h
  | succ fuel ih =>
    rw [firstCpuLoop, if_pos t.values_pos.ne'] at h
    cases hscan : bitScanForward (t.raw i) with
    | some cpu =>
      simp only [hscan, Option.some.injEq] at h
      exact h ▸ ⟨i, List.mem_singleton_self i, hscan⟩
    | none =>
      simp only [hscan, Option.map_eq_some_iff] at h
      obtain ⟨p, hp, rfl⟩ := h
      obtain ⟨j, hj, hcpu⟩ := ih hp
      exact ⟨j, List.mem_cons_of_mem i hj, hcpu⟩

theorem members_head {cpu : Nat} (h : bitScanForward (t.raw 0) = some cpu) : t.members.head? = some cpu := by
  obtain ⟨n, hn⟩ := Nat.exists_eq_add_of_lt t.values_pos
  obtain ⟨-, hbits⟩ := bits_cons h
  rw [members_eq, hn, show 0 + n + 1 = n + 1 by omega, List.range_succ_eq_map, List.flatMap_cons, wordMembers, hbits]
  rfl

theorem scan_mem {j cpu : Nat} (hj : j < t.values) (h : bitScanForward (t.raw j) = some cpu) :
    cpu < 64 ∧ cpu + j * 64 ∈ t.members := by
  obtain ⟨hcpu, hbits⟩ := bits_cons h
  refine ⟨hcpu, ?_⟩
  rw [members_eq, List.mem_flatMap]
  refine ⟨j, List.mem_range.mpr hj, ?_⟩
  rw [wordMembers, hbits]
  exact List.mem_cons_self

/-- `first_cpu` returns, has read the array only, and returns the least member if there
is one. -/
def FirstOk : Prop :=
  ∃ fuel r, t.firstCpu fuel = some r ∧ (∀ j ∈ r.2, j < t.values) ∧ ∀ cpu ∈ t.members.head?, r.1 = cpu

/-- The word that the search ends at is inside the array, and makes the set nonempty;
its members are below 64 only in the first word. -/
theorem firstOk_iff : t.FirstOk ↔ t.raw 0 ≠ 0#64 := by
  constructor
  · rintro ⟨fuel, r, hrun, hinside, hleast⟩ h0
    obtain ⟨j, hj, hscan⟩ := t.firstCpuLoop_found hrun
    obtain ⟨hlt, hmem⟩ := t.scan_mem (hinside j hj) hscan
    cases hhead : t.members.head? with
    | none =>
      rw [List.head?_eq_none_iff] at hhead
      exact absurd (hhead ▸ hmem) List.not_mem_nil
    | some cpu =>
      have hcpu := hleast cpu (by rw [hhead]; rfl)
      have hchk := (t.mem_members.mp (List.mem_of_mem_head? (by rw [hhead]; rfl))).2
      rw [← hcpu, chk_eq, Nat.div_eq_of_lt hlt, h0] at hchk
      simp at hchk
  · intro h0
    cases hscan : bitScanForward (t.raw 0) with
    | none =>
      have hzero : t.raw 0 = 0#64 := by
        apply BitVec.eq_of_getLsbD_eq
        intro i hi
        have := List.find?_eq_none.mp hscan i (List.mem_range.mpr hi)
        simpa using this
      exact absurd hzero h0
    | some cpu =>
      refine ⟨1, (cpu, [0]), ?_, ?_, ?_⟩
      · rw [firstCpu, firstCpuLoop, if_pos t.values_pos.ne', hscan]
      · intro j hj
        rw [List.mem_singleton.mp hj]
        exact t.values_pos
      · intro c hc
        rw [t.members_head hscan] at hc
        exact Option.some.inj hc

structure Agree : Prop where
  first : t.FirstOk
  count : t.count.1 = t.members.length ∧ ∀ i ∈ t.count.2, i < t.values
  each : ∀ {σ : Type} (fn : σ → Nat → σ) s, ∃ fuel r, t.forEach fn fuel s = some r ∧ r.2 = t.members
  eachUntil : ∀ {σ : Type} (fn : σ → Nat → σ) cond s, ∃ fuel r, t.forEachUntil fn cond fuel s = some r ∧ r.2 <+: t.members

/-- `count` reads eight times as many words as there are, for every set; `first_cpu` is
right for the sets with a member in the first word; the loops are right for all. -/
theorem views :
    ¬ t.Agree ∧ t.values ∈ t.count.2 ∧ t.count.1 = (t.members.length + t.behind) % 2 ^ 32 ∧
      (t.FirstOk ↔ t.raw 0 ≠ 0#64) ∧ t.members.Pairwise (· < ·) ∧
      (∀ cpu, cpu ∈ t.members ↔ cpu < 64 * t.values ∧ t.chk cpu = true) ∧
      (∀ (σ : Type) (fn : σ → Nat → σ) s, ∃ fuel r, t.forEach fn fuel s = some r ∧ r.2 = t.members) ∧
      ∀ (σ : Type) (fn : σ → Nat → σ) cond s, ∃ fuel r, t.forEachUntil fn cond fuel s = some r ∧ r.2 <+: t.members := by
  refine ⟨?_, t.values_mem_count, t.count_eq, t.firstOk_iff, t.members_sorted, fun _ => t.mem_members, ?_, ?_⟩
  · intro hagree
    exact absurd (hagree.count.2 t.values t.values_mem_count) (lt_irrefl _)
  · intro σ fn s
    exact ⟨65, _, t.forEachUntil_eq fn _ (by decide) s, calls_all fn _ s⟩
  · intro σ fn cond s
    exact ⟨65, _, t.forEachUntil_eq fn cond (by decide) s, calls_prefix fn cond _ s⟩

def second : Cpuset := ⟨256, by decide, by decide, fun i => if i = 1 then 1#64 else 0#64⟩

theorem second_not_agree :
    second.members.head? = some 64 ∧ second.firstCpu 2 = some (0, [0, 1]) ∧ second.count.2 = List.range 32 ∧
      ¬ second.Agree := by
  have hcount : second.count.2 = List.range 32 := rfl
  refine ⟨by decide +kernel, by decide +kernel, hcount, fun h => ?_⟩
  exact absurd (h.count.2 4 (by rw [hcount]; decide)) (by decide)

end Cpuset

end Tukija.Cpus
