import Tukija.Core.Turns

/-! The number that `alloc` returns: the CPUs that the cell has got, and those
that it has asked another cell for. -/
namespace Tukija.Core

open Tukija.Lib.Threads

variable {c : CellId} {s s₁ s₂ : State} {T A : Finset Cpu} {quantity n : Nat} {l : List Cpu}

/-- Since `s`, the cell has got the CPUs of `T`, and has asked for those of `A`. -/
structure Tally (c : CellId) (s s₁ : State) (T A : Finset Cpu) : Prop where
  owner : ∀ k, s₁.owner k = s.owner k
  workers : ∀ d k, (s₁.workers d k).length = (s.workers d k).length
  got : ∀ k ∈ T, s.current k ≠ some c ∧ s₁.current k = some c
  current : ∀ k, k ∉ T → s₁.current k = s.current k
  idle : ∀ k, k ∉ T → s₁.idleCpus k = s.idleCpus k
  asked : ∀ k ∈ A, ∃ d, d ≠ c ∧ s.flag d k = 0 ∧ s₁.flag d k = 1
  flag : ∀ k, k ∉ A → ∀ d, s₁.flag d k = s.flag d k ∨ k ∈ T ∧ s₁.flag d k = 0
  disjoint : Disjoint T A

namespace Tally

theorem refl (c : CellId) (s : State) : Tally c s s ∅ ∅ := by
  constructor <;> simp

theorem same (h : Tally c s s₁ T A) (hs : Same s₁ s₂) : Tally c s s₂ T A where
  owner k := (hs.owner k).trans (h.owner k)
  workers d k := (hs.workers d k).trans (h.workers d k)
  got k hk := ⟨(h.got k hk).1, (hs.current k).trans (h.got k hk).2⟩
  current k hk := (hs.current k).trans (h.current k hk)
  idle k hk := (hs.idle k).trans (h.idle k hk)
  asked k hk := by simpa [hs.flag] using h.asked k hk
  flag k hk d := by simpa [hs.flag] using h.flag k hk d
  disjoint := h.disjoint

theorem insert_got {k : Cpu} (h : Tally c s s₁ T A) (hT : k ∉ T) (hA : k ∉ A) (hc : s₁.current k ≠ some c)
    (hg : Got c k s₁ s₂) : Tally c s s₂ (insert k T) A where
  owner j := (hg.owner j).trans (h.owner j)
  workers d j := (hg.workers d j).trans (h.workers d j)
  got j hj := by
    rw [hg.current]
    rcases Finset.mem_insert.mp hj with rfl | hj
    · exact ⟨by rwa [← h.current j hT], if_pos rfl⟩
    · rw [(h.got j hj).2, ite_self]
      exact ⟨(h.got j hj).1, rfl⟩
  current j hj := by
    rw [Finset.mem_insert, not_or] at hj
    rw [hg.current, if_neg hj.1, h.current j hj.2]
  idle j hj := by
    rw [Finset.mem_insert, not_or] at hj
    rw [hg.idle j hj.1, h.idle j hj.2]
  asked j hj := by
    have hjk : j ≠ k := by
      rintro rfl
      exact hA hj
    obtain ⟨d, hd, h0, h1⟩ := h.asked j hj
    refine ⟨d, hd, h0, ?_⟩
    rw [(hg.flag d j).resolve_right fun e => hjk e.1, h1]
  flag j hj d := by
    rcases hg.flag d j with hf | ⟨rfl, hf⟩
    · rw [hf]
      exact (h.flag j hj d).imp_right fun e => ⟨Finset.mem_insert_of_mem e.1, e.2⟩
    · exact .inr ⟨Finset.mem_insert_self _ _, hf⟩
  disjoint := Finset.disjoint_insert_left.mpr ⟨hA, h.disjoint⟩

theorem insert_asked {k : Cpu} {d : CellId} (h : Tally c s s₁ T A) (hT : k ∉ T) (hd : d ≠ c)
    (hf : ∀ e, s₁.flag e k = s.flag e k) (h0 : s₁.flag d k = 0) (ha : Asked d k s₁ s₂) :
    Tally c s s₂ T (insert k A) where
  owner j := (ha.owner j).trans (h.owner j)
  workers e j := (ha.workers e j).trans (h.workers e j)
  got j hj := ⟨(h.got j hj).1, (ha.current j).trans (h.got j hj).2⟩
  current j hj := (ha.current j).trans (h.current j hj)
  idle j hj := (ha.idle j).trans (h.idle j hj)
  asked j hj := by
    by_cases hjk : j = k
    · subst hjk
      exact ⟨d, hd, by rw [← hf, h0], by rw [ha.flag, if_pos ⟨rfl, rfl⟩]⟩
    · obtain ⟨e, he⟩ := h.asked j (Finset.mem_of_mem_insert_of_ne hj hjk)
      exact ⟨e, by simpa [ha.flag, hjk] using he⟩
  flag j hj e := by
    rw [Finset.mem_insert, not_or] at hj
    rw [ha.flag, if_neg fun h => hj.1 h.2]
    exact h.flag j hj.2 e
  disjoint := Finset.disjoint_insert_right.mpr ⟨hT, h.disjoint⟩

theorem got_eq (h : Tally c s s₁ T A) : {k | s.current k ≠ some c ∧ s₁.current k = some c} = (T : Set Cpu) := by
  ext k
  refine ⟨fun hk => ?_, h.got k⟩
  by_contra hT
  exact hk.1 (by rw [← h.current k hT, hk.2])

theorem asked_eq (h : Tally c s s₁ T A) :
    {k | ∃ d, d ≠ c ∧ s.flag d k = 0 ∧ s₁.flag d k = 1} = (A : Set Cpu) := by
  ext k
  refine ⟨?_, h.asked k⟩
  rintro ⟨d, -, h0, h1⟩
  by_contra hA
  rcases h.flag k hA d with hf | ⟨-, hf⟩
  · simp [h1, h0] at hf
  · simp [h1] at hf

end Tally

/-- The first loop of `alloc`, and the second one for a word of `_idle_cpus`:
up to the quantity, the cell gets those CPUs of the list that nobody holds. -/
theorem ends_occupyEach (h : Tally c s s₁ T ∅) (hn : T.card ≤ quantity) (hl : l.Nodup) :
    Ends c (eachUntil quantity (fun k => Resource.occupy k (some c)) l T.card) s₁ fun n s₂ =>
      ∃ T', Tally c s s₂ T' ∅ ∧ (∀ d k, s₂.flag d k = s₁.flag d k) ∧ n = T'.card ∧ n ≤ quantity ∧
        (∀ k ∈ T', k ∈ T ∨ k ∈ l ∧ s.current k = none) ∧
        (n < quantity → ∀ k, k ∈ T' ↔ k ∈ T ∨ k ∈ l ∧ s.current k = none) := by
  refine (ends_eachUntil (I := fun l' n s₂ => ∃ T', Tally c s s₂ T' ∅ ∧ (∀ d k, s₂.flag d k = s₁.flag d k) ∧ n = T'.card ∧ n ≤ quantity ∧ l'.Nodup ∧ l' ⊆ l ∧
    ∀ k, k ∈ T' ↔ k ∈ T ∨ k ∈ l ∧ k ∉ l' ∧ s.current k = none) ?_ ?_).mono ?_
  · rintro k l' n s₂ hlt ⟨T', h', hflag, rfl, hle, hnd, hsub, hmem⟩
    rw [List.nodup_cons] at hnd
    have hk : k ∈ T' ↔ k ∈ T := by simp [hmem]
    refine (ends_occupy _ _ _ _).mono ?_
    rintro ok s₃ ⟨rfl, hflag', h₃⟩
    have hflag := fun d j => (hflag' d j).trans (hflag d j)
    by_cases hfree : s₂.current k = none
    · have hT : k ∉ T' := fun hT => by simp [(h'.got k hT).2] at hfree
      rw [if_pos hfree] at h₃
      refine ⟨insert k T', h'.insert_got hT (by simp) (by simp [hfree]) h₃, hflag, by simp [hfree, hT], by simpa [hfree] using hlt,
        hnd.2, List.subset_of_cons_subset hsub, fun j => ?_⟩
      rw [h'.current k hT] at hfree
      rw [Finset.mem_insert, hmem, List.mem_cons]
      by_cases hjk : j = k
      · subst hjk
        simp [hnd.1, hfree, hsub (List.mem_cons_self)]
      · simp [hjk]
    · rw [if_neg hfree] at h₃
      refine ⟨T', h'.same h₃, hflag, by simp [hfree], by simpa [hfree] using hle, hnd.2, List.subset_of_cons_subset hsub, fun j => ?_⟩
      rw [hmem, List.mem_cons]
      by_cases hjk : j = k
      · subst hjk
        by_cases hT : j ∈ T
        · simp [hT]
        · simp [hT, ← h'.current j (mt hk.mp hT), hfree]
      · simp [hjk]
  · exact ⟨T, h, fun _ _ => rfl, rfl, hn, hl, List.Subset.refl l, fun k => by tauto⟩
  · rintro n s₂ ⟨l', ⟨T', h', hflag, rfl, hle, -, -, hmem⟩, hend⟩
    refine ⟨T', h', hflag, rfl, hle, fun k hk => ?_, fun hlt k => ?_⟩
    · have := (hmem k).mp hk
      tauto
    · obtain rfl := hend.resolve_right (by omega)
      simpa using hmem k

theorem nodup_word (i : Fin 4) : (word i).Nodup := (List.nodup_finRange 256).filter _

theorem ends_borrowIdle (is : List (Fin 4)) (h : Tally c s s₁ T ∅) (hn : T.card ≤ quantity) :
    Ends c (Allocator.borrowIdle quantity c is T.card) s₁ fun n s₂ =>
      ∃ T', Tally c s s₂ T' ∅ ∧ (∀ d k, s₂.flag d k = s₁.flag d k) ∧ n = T'.card ∧ n ≤ quantity ∧
        (∀ k ∈ T', k ∈ T ∨ s.idleCpus k = true ∧ s.current k = none) ∧
        (n < quantity → ∀ k, k ∈ T' ↔ k ∈ T ∨ (∃ i ∈ is, k ∈ word i) ∧ s.idleCpus k = true ∧ s.current k = none) := by
  induction is generalizing s₁ T with
  | nil => exact ⟨T, h, fun _ _ => rfl, rfl, hn, fun k => .inl, fun _ k => by simp⟩
  | cons i is ih =>
    unfold Allocator.borrowIdle
    rw [ends_ite]
    constructor
    · exact fun hq => ⟨T, h, fun _ _ => rfl, rfl, hn, fun k => .inl, fun hlt => (Nat.not_lt.mpr hq hlt).elim⟩
    · intro hq
      simp only [ends_bind, ends_op, Instr.run]
      refine ⟨by simp, (ends_occupyEach h hn ((nodup_word i).filter _)).mono ?_⟩
      rintro n s₂ ⟨T', h', hflag, rfl, hle, hsub, hmem⟩
      -- an idle CPU that the cell has not got was idle before
      have hidle : ∀ k, k ∉ T → s₁.idleCpus k = s.idleCpus k := h.idle
      refine (ih h' hle).mono ?_
      rintro n s₃ ⟨T'', h'', hflag', rfl, hle', hsub', hmem'⟩
      refine ⟨T'', h'', fun d k => (hflag' d k).trans (hflag d k), rfl, hle', fun k hk => ?_, fun hlt k => ?_⟩
      · rcases hsub' k hk with hk | hk
        · by_cases hT : k ∈ T
          · exact .inl hT
          · have := (hsub k hk).resolve_left hT
            rw [List.mem_filter, hidle k hT] at this
            exact .inr ⟨this.1.2, this.2⟩
        · exact .inr hk
      · have hgrow : T' ⊆ T'' := fun j hj => (hmem' hlt j).mpr (.inl hj)
        have hlt' := (Finset.card_le_card hgrow).trans_lt hlt
        rw [hmem' hlt, hmem hlt', List.mem_filter, List.exists_mem_cons_iff]
        by_cases hT : k ∈ T
        · simp [hT]
        · rw [hidle k hT]
          tauto

section Reclaims

variable (c s)

/-- The CPUs that `alloc` looks at first: those reserved and not in use. -/
def reservedUnused : List Cpu :=
  (words.flatMap word).filter fun k => s.lists c .reserved k && !s.lists c .current k

def unheld : Finset Cpu :=
  Finset.univ.filter fun k => s.current k = none ∧ (k ∈ reservedUnused c s ∨ s.idleCpus k = true)

/-- `k` is the cell's, and in the hands of another one that has not been asked
for it or cannot be asked. -/
def Lent (k : Cpu) : Prop :=
  s.owner k = some c ∧ ∃ d ∈ s.current k, d ≠ c ∧ (s.workers d k = [] ∨ s.flag d k = 0)

instance (k : Cpu) : Decidable (Lent c s k) :=
  decidable_of_iff (s.owner k = some c ∧ ((s.current k).any fun d => d ≠ c ∧ (s.workers d k = [] ∨ s.flag d k = 0)) = true)
    (by cases h : s.current k <;> simp [Lent, h])

/-- With the count `n` and `l` still to go: as long as the quantity is not
reached, each CPU that the third loop comes to is the cell's own, or held by
whoever owns it. -/
def Proper (quantity n : Nat) (l : List Cpu) : Prop :=
  ∀ u k v, l = u ++ k :: v → n + u.countP (Lent c s) < quantity →
    s.owner k = some c ∨ s.current k ≠ none ∧ s.owner k = s.current k

variable {c s}

/-- Within the third loop, with `l` to go. -/
def Midway (c : CellId) (s : State) (quantity : Nat) (l : List Cpu) (n : Nat) (s₁ : State) : Prop :=
  ∃ T A, Tally c s s₁ T A ∧ n = T.card + A.card ∧ n ≤ quantity ∧ l.Nodup ∧
    ∀ k ∈ l, k ∉ A ∧ (k ∈ T ↔ s.current k = none) ∧ ∀ d, s₁.flag d k = s.flag d k

theorem lent_iff {k : Cpu} {d : CellId} (hd : s.current k = some d) :
    Lent c s k ↔ s.owner k = some c ∧ d ≠ c ∧ (s.workers d k = [] ∨ s.flag d k = 0) := by
  simp [Lent, hd]

theorem ends_reclaimTurn {patience : Cpu → Nat} {k : Cpu} (h : Midway c s quantity (k :: l) n s₁) (hn : n < quantity)
    (hk : s.owner k = some c ∨ s.current k ≠ none ∧ s.owner k = s.current k) :
    Ends c (Allocator.reclaimLent patience (some c) k) s₁ fun ok s₂ =>
      ok = decide (Lent c s k) ∧ Midway c s quantity l (if ok then n + 1 else n) s₂ := by
  obtain ⟨T, A, ht, rfl, -, hnd, hl⟩ := h
  obtain ⟨hA, hT, hf⟩ := hl k (List.mem_cons_self)
  rw [List.nodup_cons] at hnd
  have hne : ∀ j ∈ l, j ≠ k := by
    rintro j hj rfl
    exact hnd.1 hj
  have hskip : s₁.current k = s₁.owner k → ¬Lent c s k →
      Ends c (Allocator.reclaimLent patience (some c) k) s₁ fun ok s₂ =>
        ok = decide (Lent c s k) ∧ Midway c s quantity l (if ok then T.card + A.card + 1 else T.card + A.card) s₂ := by
    intro hsame hlent
    refine (ends_reclaimLent_skip (.inl hsame)).mono ?_
    rintro ok s₂ ⟨rfl, rfl⟩
    exact ⟨by simp [hlent], T, A, ht, rfl, hn.le, hnd.2, fun j hj => hl j (List.mem_cons_of_mem k hj)⟩
  cases hd : s.current k with
  | none =>
    have ho : s.owner k = some c := hk.resolve_right (by simp [hd])
    apply hskip
    · rw [(ht.got k (hT.mpr hd)).2, ht.owner, ho]
    · simp [Lent, hd]
  | some d =>
    have hkT : k ∉ T := by simp [hT, hd]
    have hd₁ : s₁.current k = some d := by rw [ht.current k hkT, hd]
    by_cases hown : s.owner k = some d
    · apply hskip
      · rw [hd₁, ht.owner, hown]
      · rw [lent_iff hd, hown]
        rintro ⟨e, hne, -⟩
        exact hne (Option.some.inj e)
    · have ho : s.owner k = some c := hk.resolve_right (by simp [hd, hown])
      have hdc : d ≠ c := by
        rintro rfl
        exact hown ho
      have hw : s₁.workers d k = [] ↔ s.workers d k = [] := by
        rw [← List.length_eq_zero_iff, ht.workers, List.length_eq_zero_iff]
      refine (ends_reclaimLent hd₁ (by rw [ht.owner, ho]) hdc).mono ?_
      rintro ok s₂ ha
      have hlent : Lent c s k ↔ s₁.workers d k = [] ∨ s₁.flag d k = 0 := by
        rw [lent_iff hd, hw, hf]
        simp [ho, hdc]
      cases ha with
      | gave hw₁ hg =>
        refine ⟨by simp [hlent, hw₁], insert k T, A, ht.insert_got hkT hA (by simp [hd₁, hdc]) hg, ?_, hn, hnd.2, ?_⟩
        · simp [hkT]
          omega
        · intro j hj
          obtain ⟨h1, h2, h3⟩ := hl j (List.mem_cons_of_mem k hj)
          refine ⟨h1, by simpa [hne j hj] using h2, fun e => ?_⟩
          rw [(hg.flag e j).resolve_right fun e => hne j hj e.1, h3]
      | asked hw₁ hf₁ ha =>
        refine ⟨by simp [hlent, hf₁], T, insert k A, ht.insert_asked hkT hdc hf hf₁ ha, ?_, hn, hnd.2, ?_⟩
        · simp [hA]
          omega
        · intro j hj
          obtain ⟨h1, h2, h3⟩ := hl j (List.mem_cons_of_mem k hj)
          refine ⟨by simpa [hne j hj] using h1, h2, fun e => ?_⟩
          rw [ha.flag, if_neg fun e => hne j hj e.2, h3]
      | pending hw₁ hf₁ hs =>
        refine ⟨by simp [hlent, hw₁, hf₁], T, A, ht.same hs, rfl, hn.le, hnd.2, ?_⟩
        intro j hj
        obtain ⟨h1, h2, h3⟩ := hl j (List.mem_cons_of_mem k hj)
        exact ⟨h1, h2, fun e => (hs.flag e j).trans (h3 e)⟩

theorem proper_cons {k : Cpu} (hn : n < quantity) :
    Proper c s quantity n (k :: l) ↔ (s.owner k = some c ∨ s.current k ≠ none ∧ s.owner k = s.current k) ∧
      Proper c s quantity (if Lent c s k then n + 1 else n) l := by
  constructor
  · intro h
    refine ⟨h [] k l rfl (by simpa using hn), fun u j v hl hlt => h (k :: u) j v (by rw [hl]; rfl) ?_⟩
    rw [List.countP_cons]
    by_cases hk : Lent c s k <;> simp [hk] at hlt ⊢ <;> omega
  · rintro ⟨h1, h2⟩ u j v hl hlt
    cases u with
    | nil =>
      obtain ⟨rfl, rfl⟩ := List.cons.inj hl
      exact h1
    | cons i u =>
      obtain ⟨rfl, rfl⟩ := List.cons.inj hl
      refine h2 u j v rfl ?_
      rw [List.countP_cons] at hlt
      by_cases hk : Lent c s k <;> simp [hk] at hlt ⊢ <;> omega

theorem proper_of_le (h : quantity ≤ n) : Proper c s quantity n l := fun _ _ _ _ hlt => by omega

theorem ends_reclaimEach_iff {patience : Cpu → Nat} {Q : Nat → State → Prop} (h : Midway c s quantity l n s₁)
    (hQ : ∀ l n s₂, Midway c s quantity l n s₂ → Q n s₂) :
    Ends c (eachUntil quantity (Allocator.reclaimLent patience (some c)) l n) s₁ Q ↔ Proper c s quantity n l := by
  induction l generalizing n s₁ with
  | nil =>
    refine iff_of_true (hQ _ _ _ h) ?_
    rintro u k v hl
    simp at hl
  | cons k l ih =>
    unfold eachUntil
    by_cases hn : quantity ≤ n
    · rw [if_pos hn]
      exact iff_of_true (hQ _ _ _ h) (proper_of_le hn)
    · rw [if_neg hn, proper_cons (Nat.lt_of_not_le hn)]
      by_cases hk : s.owner k = some c ∨ s.current k ≠ none ∧ s.owner k = s.current k
      · obtain ⟨ok, s₂, ⟨rfl, h₂⟩, hiff⟩ := (ends_reclaimTurn h (Nat.lt_of_not_le hn) hk).bind_iff (β := Nat)
        rw [hiff, and_iff_right hk]
        simpa using ih (by simpa using h₂)
      · refine iff_of_false ?_ fun hp => hk hp.1
        rw [ends_bind]
        obtain ⟨T, A, ht, -, -, -, hl⟩ := h
        have hT := (hl k (List.mem_cons_self)).2.1
        rw [not_or, not_and] at hk
        by_cases hfree : s.current k = none
        · -- got from its owner in the first loop
          have hgot := (ht.got k (hT.mpr hfree)).2
          exact not_ends_reclaimLent (by rw [ht.owner]; exact hk.1) (by simp [hgot])
            (by rw [ht.owner, hgot]; exact hk.1)
        · have hsame := ht.current k (mt hT.mp hfree)
          exact not_ends_reclaimLent (by rw [ht.owner]; exact hk.1) (by rwa [hsame])
            (by rw [ht.owner, hsame]; exact hk.2 hfree)

end Reclaims

section Alloc

/-- `alloc` counts right: at most the quantity, and what it has got and what it
has asked other cells for, each once.  It takes back only CPUs of the cell, and
follows no null pointer. -/
def CountsCores (quantity : Nat) (c : CellId) (patience : Cpu → Nat) (s : State) : Prop :=
  Ends c (Allocator.alloc quantity c patience (some c)) s fun n s' =>
    let got := {k | s.current k ≠ some c ∧ s'.current k = some c}
    let asked := {k | ∃ d, d ≠ c ∧ s.flag d k = 0 ∧ s'.flag d k = 1}
    n ≤ quantity ∧ n = got.ncard + asked.ncard ∧ Disjoint got asked

theorem Midway.counts (h : Midway c s quantity l n s₁) :
    n ≤ quantity ∧ n = {k | s.current k ≠ some c ∧ s₁.current k = some c}.ncard +
        {k | ∃ d, d ≠ c ∧ s.flag d k = 0 ∧ s₁.flag d k = 1}.ncard ∧
      Disjoint {k | s.current k ≠ some c ∧ s₁.current k = some c}
        {k | ∃ d, d ≠ c ∧ s.flag d k = 0 ∧ s₁.flag d k = 1} := by
  obtain ⟨T, A, ht, rfl, hle, -, -⟩ := h
  rw [ht.got_eq, ht.asked_eq, Set.ncard_coe_finset, Set.ncard_coe_finset, Finset.disjoint_coe]
  exact ⟨hle, rfl, ht.disjoint⟩

theorem ends_coresZero (c d : CellId) (s : State) :
    Ends c (each words fun i => op .alloc (.coresZero d .new i)) s fun _ s' =>
      Same s s' ∧ ∀ e k, s'.lists e .reserved k = s.lists e .reserved k ∧ s'.lists e .current k = s.lists e .current k := by
  refine ends_each (I := fun _ s' => Same s s' ∧ ∀ e k, s'.lists e .reserved k = s.lists e .reserved k ∧
    s'.lists e .current k = s.lists e .current k) ?_ ⟨.refl s, by simp⟩
  rintro i l s' ⟨hs, hl⟩
  rw [ends_op]
  refine ⟨by simp, hs.trans ?_, by simpa [Instr.run] using hl⟩
  exact same_setCores d .new fun f k => if k ∈ word i then false else f k

theorem ends_readCores (c d : CellId) (t : CoreSet) (is : List (Fin 4)) (s : State) :
    Ends c (readCores .alloc d t is) s fun l s' =>
      l = (is.flatMap word).filter (s.lists d t) ∧ Same s s' ∧ ∀ e u k, s'.lists e u k = s.lists e u k := by
  induction is generalizing s with
  | nil => exact ⟨rfl, .refl s, by simp⟩
  | cons i is ih =>
    unfold readCores
    simp only [ends_bind, ends_op, Instr.run, ends_pure]
    refine ⟨by simp, (ih _).mono ?_⟩
    rintro l s' ⟨rfl, hs, hl⟩
    refine ⟨?_, (same_useCip d).trans hs, by simpa using hl⟩
    rw [List.flatMap_cons, List.filter_append]
    congr 1
    exact List.filter_congr fun k _ => by simp

theorem mem_words (k : Cpu) : ∃ i ∈ words, k ∈ word i := by
  refine ⟨⟨k.val / 64, by omega⟩, ?_, by simp [word]⟩
  generalize (⟨k.val / 64, _⟩ : Fin 4) = i
  revert i
  decide

theorem nodup_words : (words.flatMap word).Nodup := by
  refine List.nodup_flatMap.mpr ⟨fun i _ => (List.nodup_finRange 256).filter _, ?_⟩
  have hwords : words.Nodup := by decide
  refine hwords.imp fun hij k hi hj => hij ?_
  have hi := of_decide_eq_true (List.mem_filter.mp hi).2
  have hj := of_decide_eq_true (List.mem_filter.mp hj).2
  exact Fin.ext (hi.symm.trans hj)

/-- Cell 1 has the first CPU in its reserved set, which nobody owns; every other
CPU is in use. -/
def neverConferred : State where
  resources k := if k = 0 then ⟨none, none, 0⟩ else ⟨some 2, some 2, 0⟩
  idleCpus k := k = 0
  cells c := { Cell.new with cip := ⟨fun t k => t = .reserved ∧ c = 1 ∧ k = 0, fun _ => 0⟩ }

end Alloc

end Tukija.Core
