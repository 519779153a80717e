import Tukija.Ids.Alloc

/-! Who has an id: `alloc` gives it to one at a time, as long as no release clears its
bit a second time. -/
namespace Tukija.Ids

open Tukija.Cpus

variable {ι : Type} {p : Params} {s s' : Machine ι} {k : ι} {a : Act} {w : Words}

/-! ## Owners -/

def Pc.owns : Pc → Option Nat
  | .claimed i b | .hint i b | .store i b => some (64 * i + b)
  | .look id false | .clear id => some id
  | _ => none

inductive Owner (ι : Type) where
  | reserved
  | holder
  | cpu (k : ι)

/-- `w` are the words that the run begins with. -/
def Machine.Owns (p : Params) (w : Words) (s : Machine ι) : Owner ι → Nat → Prop
  | .reserved, id => bit w id = true
  | .holder, id => held id s.log = true ∧ id ≠ p.inv
  | .cpu k, id => (s.pc k).owns = some id

/-- What has an owner is set, and has one owner. -/
structure Owned (p : Params) (w : Words) (s : Machine ι) : Prop where
  set : ∀ o id, s.Owns p w o id → bit s.words id = true
  unique : ∀ o o' id, s.Owns p w o id → s.Owns p w o' id → o = o'

namespace Owned

variable {id : Nat} {o₁ : Owner ι}

theorem keep (h : Owned p w s) (hw : s'.words = s.words) (ho : ∀ o x, s'.Owns p w o x → s.Owns p w o x) :
    Owned p w s' :=
  ⟨fun o x hx => hw ▸ h.set o x (ho o x hx), fun o o' x hx hx' => h.unique o o' x (ho o x hx) (ho o' x hx')⟩

theorem gain (h : Owned p w s) (o₁ : Owner ι) (hfree : bit s.words id = false)
    (hw : ∀ x, bit s'.words x = (bit s.words x || decide (x = id)))
    (ho : ∀ o x, s'.Owns p w o x → s.Owns p w o x ∨ o = o₁ ∧ x = id) : Owned p w s' := by
  have hnone : ∀ o, ¬ s.Owns p w o id := fun o hown => Bool.false_ne_true (hfree.symm.trans (h.set o id hown))
  constructor
  · intro o x hx
    rw [hw]
    rcases ho o x hx with hold | ⟨-, rfl⟩
    · rw [h.set o x hold, Bool.true_or]
    · rw [decide_eq_true rfl, Bool.or_true]
  · intro o o' x hx hx'
    rcases ho o x hx with hold | ⟨rfl, rfl⟩
    · rcases ho o' x hx' with hold' | ⟨rfl, rfl⟩
      · exact h.unique o o' x hold hold'
      · exact absurd hold (hnone o)
    · rcases ho o' x hx' with hold' | ⟨rfl, -⟩
      · exact absurd hold' (hnone o')
      · rfl

theorem pass (h : Owned p w s) (o₂ : Owner ι) (hw : s'.words = s.words) (hown : s.Owns p w o₁ id)
    (ho : ∀ o x, s'.Owns p w o x → s.Owns p w o x ∧ (x = id → o ≠ o₁) ∨ o = o₂ ∧ x = id) : Owned p w s' := by
  have hother : ∀ o, s.Owns p w o id → (id = id → o ≠ o₁) → False := fun o hold hne =>
    hne rfl (h.unique o o₁ id hold hown)
  constructor
  · intro o x hx
    rw [hw]
    rcases ho o x hx with ⟨hold, -⟩ | ⟨-, rfl⟩
    · exact h.set o x hold
    · exact h.set o₁ x hown
  · intro o o' x hx hx'
    rcases ho o x hx with ⟨hold, hne⟩ | ⟨rfl, rfl⟩
    · rcases ho o' x hx' with ⟨hold', -⟩ | ⟨rfl, rfl⟩
      · exact h.unique o o' x hold hold'
      · exact (hother o hold hne).elim
    · rcases ho o' x hx' with ⟨hold', hne'⟩ | ⟨rfl, -⟩
      · exact (hother o' hold' hne').elim
      · rfl

theorem drop (h : Owned p w s) (hown : s.Owns p w o₁ id)
    (hw : ∀ x, bit s'.words x = (bit s.words x && decide (x ≠ id)))
    (ho : ∀ o x, s'.Owns p w o x → s.Owns p w o x ∧ (x = id → o ≠ o₁)) : Owned p w s' := by
  constructor
  · intro o x hx
    obtain ⟨hold, hne⟩ := ho o x hx
    have hx' : x ≠ id := fun heq => hne heq (h.unique o o₁ id (heq ▸ hold) hown)
    rw [hw, h.set o x hold, decide_eq_true hx', Bool.true_and]
  · exact fun o o' x hx hx' => h.unique o o' x (ho o x hx).1 (ho o' x hx').1

end Owned

/-- An id is not held or reserved when it is returned. -/
def Exclusive (p : Params) (w : Words) (log : List (Event ι)) : Prop :=
  ∀ k id l, .returned k id :: l <:+ log → id ≠ p.inv → held id l = false ∧ bit w id = false

structure Shared (p : Params) (w : Words) (s : Machine ι) : Prop where
  owned : Owned p w s
  exclusive : Exclusive p w s.log

theorem exclusive_cons {log : List (Event ι)} {e : Event ι} (h : Exclusive p w log)
    (he : ∀ k id, e = .returned k id → id ≠ p.inv → held id log = false ∧ bit w id = false) :
    Exclusive p w (e :: log) := by
  intro k id l hl
  rcases List.suffix_cons_iff.mp hl with heq | hl
  · obtain ⟨hlast, rfl⟩ := List.cons.inj heq
    exact he k id hlast.symm
  · exact h k id l hl

theorem owns_note {e : Event ι} (he : ∀ x, held x (e :: s.log) = held x s.log) {o : Owner ι} {x : Nat}
    (h : (s.note e).Owns p w o x) : s.Owns p w o x := by
  cases o with
  | reserved => exact h
  | holder => exact ⟨(he x).symm.trans h.1, h.2⟩
  | cpu j => exact h

variable [DecidableEq ι]

/-! ## Steps -/

/-- What a step of `k` can do. -/
inductive Step (p : Params) (s : Machine ι) (k : ι) : Act → Machine ι → Prop where
  | idle {x} : Step p s k x s
  | call : s.pc k = .out → Step p s k .alloc ((s.goto k .start).note (.called k))
  | release {id} : s.pc k = .out → id ≠ p.inv → held id s.log = true →
      Step p s k (.release id) ((s.goto k (.look id false)).note (.released id))
  | start : s.pc k = .start → Step p s k .step (s.goto k (.scan s.last 0))
  | full {i j} : s.pc k = .scan i j → j < p.max → s.words (i % p.max) = BitVec.allOnes 64 →
      Step p s k .step ((s.goto k (.scan (i % p.max + 1) (j + 1))).note (.full k (i % p.max)))
  | probe {i j} : s.pc k = .scan i j → j < p.max → Step p s k .step (s.goto k (.probe (i % p.max) j))
  | fail {i j} : s.pc k = .scan i j → p.max ≤ j → Step p s k .step (s.ret k p.inv)
  | miss {i j} : s.pc k = .probe i j → Step p s k .step (s.goto k (.scan i j))
  | found {i j b} : s.pc k = .probe i j → b < 64 → Step p s k .step (s.goto k (.set i j b))
  | lost {i j b} : s.pc k = .set i j b → Step p s k .step (s.goto k (.scan i j))
  | claim {i j b} : s.pc k = .set i j b → bit s.words (64 * i + b) = false →
      Step p s k .step { s.goto k (.claimed i b) with words := setBit s.words i b }
  | hint {i b} : s.pc k = .claimed i b → Step p s k .step (s.goto k (.hint i b))
  | stale {i b} : s.pc k = .hint i b → Step p s k .step (s.goto k (.store i b))
  | done {i b} : s.pc k = .claimed i b ∨ s.pc k = .hint i b → Step p s k .step (s.ret k (64 * i + b))
  | store {i b} : s.pc k = .store i b → Step p s k .step { s.ret k (64 * i + b) with last := i }
  | again {id f} : s.pc k = .look id f → bit s.words id = true → Step p s k .step (s.goto k (.clear id))
  | leave {id f} : s.pc k = .look id f → Step p s k .step (s.goto k .out)
  | clear {id} : s.pc k = .clear id →
      Step p s k .step { s.goto k (.look id true) with words := clrBit s.words (id / 64) (id % 64) }

theorem step_cases (p : Params) (s : Machine ι) (k : ι) : Step p s k .step (s.step p k) := by
  unfold Machine.step
  cases hpc : s.pc k with
  | out => exact .idle
  | start => exact .start hpc
  | scan i j =>
    by_cases hj : j < p.max
    · by_cases hfull : s.words (i % p.max) = BitVec.allOnes 64
      · simpa only [if_pos hj, if_pos hfull] using .full hpc hj hfull
      · simpa only [if_pos hj, if_neg hfull] using .probe hpc hj
    · simpa only [if_neg hj] using .fail hpc (not_lt.mp hj)
  | probe i j =>
    cases hscan : bitScanForward (~~~s.words i) with
    | none => simpa only [hscan] using .miss hpc
    | some b => simpa only [hscan] using .found hpc (List.mem_range.mp (List.mem_of_find?_eq_some hscan))
  | set i j b =>
    cases hbit : bit s.words (64 * i + b) with
    | true => simpa only [hbit, if_true] using .lost hpc
    | false => simpa only [hbit, Bool.false_eq_true, if_false] using .claim hpc hbit
  | claimed i b =>
    by_cases hfull : s.words i = BitVec.allOnes 64
    · simpa only [hfull, ne_eq, not_true_eq_false, if_false] using .done (.inl hpc)
    · simpa only [ne_eq, hfull, not_false_eq_true, if_true] using .hint hpc
  | hint i b =>
    by_cases hlast : s.last = i
    · simpa only [hlast, ne_eq, not_true_eq_false, if_false] using .done (.inr hpc)
    · simpa only [ne_eq, hlast, not_false_eq_true, if_true] using .stale hpc
  | store i b => exact .store hpc
  | look id f =>
    cases hbit : bit s.words id with
    | true => simpa only [hbit, if_true] using .again hpc hbit
    | false => simpa only [hbit, Bool.false_eq_true, if_false] using .leave hpc
  | clear id => exact .clear hpc

theorem act_cases (p : Params) (s : Machine ι) (k : ι) (a : Act) : Step p s k a (s.act p k a) := by
  cases a with
  | alloc =>
    by_cases h : s.pc k = .out
    · simpa only [Machine.act, if_pos h] using .call h
    · simpa only [Machine.act, if_neg h] using .idle
  | release id =>
    by_cases h : s.pc k = .out ∧ id ≠ p.inv ∧ id < p.c ∧ held id s.log = true
    · simpa only [Machine.act, if_pos h] using .release h.1 h.2.1 h.2.2.2
    · simpa only [Machine.act, if_neg h] using .idle
  | step => exact step_cases p s k

theorem forall_update {P : ι → Pc → Prop} {pcs : ι → Pc} {pc : Pc} (h : ∀ j, P j (pcs j)) (hk : P k pc) :
    ∀ j, P j (Function.update pcs k pc j) := by
  intro j
  by_cases hj : j = k
  · subst hj
    rwa [Function.update_self]
  · rw [Function.update_of_ne hj]
    exact h j

/-! ## The invalid id -/

/-- The invalid id is neither claimed nor released. -/
def Pc.Fine (p : Params) : Pc → Prop
  | .set _ _ b => b < 64
  | .claimed i b | .hint i b | .store i b => b < 64 ∧ 64 * i + b ≠ p.inv
  | .look id _ | .clear id => id ≠ p.inv
  | _ => True

structure Basic (p : Params) (s : Machine ι) : Prop where
  inv : bit s.words p.inv = true
  fine : ∀ k, (s.pc k).Fine p

theorem Basic.step (h : Basic p s) (hs : Step p s k a s') : Basic p s' := by
  have hmine := h.fine k
  have put {pc : Pc} (hpc : pc.Fine p) : ∀ j, (Function.update s.pc k pc j).Fine p :=
    forall_update (P := fun _ pc => pc.Fine p) h.fine hpc
  cases hs with
  | idle => exact h
  | call _ => exact ⟨h.inv, put trivial⟩
  | release _ hne _ => exact ⟨h.inv, put hne⟩
  | start _ => exact ⟨h.inv, put trivial⟩
  | full _ _ _ => exact ⟨h.inv, put trivial⟩
  | probe _ _ => exact ⟨h.inv, put trivial⟩
  | fail _ _ => exact ⟨h.inv, put trivial⟩
  | miss _ => exact ⟨h.inv, put trivial⟩
  | found _ hb => exact ⟨h.inv, put hb⟩
  | lost _ => exact ⟨h.inv, put trivial⟩
  | claim hpc hfree =>
    rw [hpc] at hmine
    refine ⟨?_, put ⟨hmine, fun heq => ?_⟩⟩
    · exact (bit_setBit _ _ _ hmine).trans (by rw [h.inv, Bool.true_or])
    · rw [heq, h.inv] at hfree
      cases hfree
  | hint hpc =>
    rw [hpc] at hmine
    exact ⟨h.inv, put hmine⟩
  | stale hpc =>
    rw [hpc] at hmine
    exact ⟨h.inv, put hmine⟩
  | done _ => exact ⟨h.inv, put trivial⟩
  | store _ => exact ⟨h.inv, put trivial⟩
  | again hpc _ =>
    rw [hpc] at hmine
    exact ⟨h.inv, put hmine⟩
  | leave _ => exact ⟨h.inv, put trivial⟩
  | @clear id hpc =>
    rw [hpc] at hmine
    refine ⟨?_, put hmine⟩
    have hne : p.inv ≠ id := Ne.symm hmine
    have hclr := bit_clrBit s.words (id / 64) p.inv (Nat.mod_lt id (by decide : 0 < 64))
    rwa [h.inv, Nat.div_add_mod, decide_eq_true hne, Bool.true_and] at hclr

/-! ## Full words -/

/-- What has happened since `k` called `alloc`. -/
def since (k : ι) (log : List (Event ι)) : List (Event ι) := log.takeWhile fun e => decide (e ≠ .called k)

theorem since_cons {e : Event ι} {log : List (Event ι)} (h : e ≠ .called k) :
    since k (e :: log) = e :: since k log :=
  List.takeWhile_cons_of_pos (decide_eq_true h)

/-- In the call that `k` is in, it has seen the `j` words before word `i` full. -/
def Passed (p : Params) (log : List (Event ι)) (k : ι) (i j : Nat) : Prop :=
  j ≤ p.max ∧ ∃ m, i % p.max = (m + j) % p.max ∧ ∀ n < j, .full k ((m + n) % p.max) ∈ since k log

def Scanned (p : Params) (log : List (Event ι)) (k : ι) : Pc → Prop
  | .scan i j | .probe i j | .set i j _ => Passed p log k i j
  | _ => True

/-- A call returns the invalid id after it has seen every word full. -/
def FullOnFailure (p : Params) (log : List (Event ι)) : Prop :=
  ∀ k l, .returned k p.inv :: l <:+ log → ∀ i < p.max, .full k i ∈ since k l

structure Searched (p : Params) (s : Machine ι) : Prop where
  scanned : ∀ k, Scanned p s.log k (s.pc k)
  full : FullOnFailure p s.log

theorem Passed.cons {log : List (Event ι)} {i j : Nat} {e : Event ι} (h : Passed p log k i j) (he : e ≠ .called k) :
    Passed p (e :: log) k i j := by
  obtain ⟨hj, m, hi, hseen⟩ := h
  refine ⟨hj, m, hi, fun n hn => ?_⟩
  rw [since_cons he]
  exact List.mem_cons_of_mem e (hseen n hn)

theorem Scanned.cons {log : List (Event ι)} {pc : Pc} {e : Event ι} (h : Scanned p log k pc) (he : e ≠ .called k) :
    Scanned p (e :: log) k pc := by
  cases pc with
  | scan => exact Passed.cons h he
  | probe => exact Passed.cons h he
  | set => exact Passed.cons h he
  | _ => trivial

theorem Passed.all {log : List (Event ι)} {i : Nat} (h : Passed p log k i p.max) {n : Nat} (hn : n < p.max) :
    .full k n ∈ since k log := by
  obtain ⟨-, m, -, hseen⟩ := h
  have hm : m % p.max < p.max := Nat.mod_lt _ (by omega)
  have hdist : (m + (n + (p.max - m % p.max)) % p.max) % p.max = n := by
    have hsplit := Nat.div_add_mod m p.max
    rw [Nat.add_mod_mod, show m + (n + (p.max - m % p.max)) = n + p.max * (m / p.max + 1) by
      rw [Nat.mul_add, Nat.mul_one]
      omega, Nat.add_mul_mod_self_left, Nat.mod_eq_of_lt hn]
  exact hdist ▸ hseen _ (Nat.mod_lt _ (by omega))

theorem fullOnFailure_cons {log : List (Event ι)} {e : Event ι} (h : FullOnFailure p log)
    (he : ∀ k, e = .returned k p.inv → ∀ i < p.max, .full k i ∈ since k log) : FullOnFailure p (e :: log) := by
  intro k l hl
  rcases List.suffix_cons_iff.mp hl with heq | hl
  · obtain ⟨hlast, rfl⟩ := List.cons.inj heq
    exact he k hlast.symm
  · exact h k l hl

theorem Searched.goto (h : Searched p s) (pc : Pc) (hpc : Scanned p s.log k pc) : Searched p (s.goto k pc) :=
  ⟨forall_update (P := Scanned p s.log) h.scanned hpc, h.full⟩

theorem Searched.note (h : Searched p s) {e : Event ι} (hcall : ∀ k, e ≠ .called k)
    (hret : ∀ k, e ≠ .returned k p.inv) : Searched p (s.note e) :=
  ⟨fun k => (h.scanned k).cons (hcall k), fullOnFailure_cons h.full fun k heq => absurd heq (hret k)⟩

theorem Searched.words (h : Searched p s) (w : Words) (last : Nat) : Searched p { s with words := w, last := last } :=
  ⟨h.scanned, h.full⟩

theorem Searched.step (hb : Basic p s) (h : Searched p s) (hs : Step p s k a s') : Searched p s' := by
  have hmine := h.scanned k
  have hfine := hb.fine k
  cases hs with
  | idle => exact h
  | call _ =>
    refine ⟨fun j => ?_, fullOnFailure_cons h.full nofun⟩
    by_cases hj : j = k
    · subst hj
      have hpc : ((s.goto j .start).note (.called j)).pc j = .start := Function.update_self _ _ _
      rw [hpc]
      trivial
    · have hother : Scanned p (.called k :: s.log) j (s.pc j) :=
        (h.scanned j).cons fun heq => hj (Event.called.inj heq).symm
      rwa [← Function.update_of_ne hj .start s.pc] at hother
  | release _ _ _ => exact (h.goto (.look _ false) trivial).note nofun nofun
  | start _ => exact h.goto (.scan _ _) ⟨Nat.zero_le _, s.last, rfl, fun n hn => absurd hn (Nat.not_lt_zero n)⟩
  | @full i j hpc hj _ =>
    rw [hpc] at hmine
    obtain ⟨-, m, hi, hseen⟩ := hmine
    refine ⟨fun j' => ?_, fullOnFailure_cons h.full nofun⟩
    refine forall_update (P := Scanned p (.full k (i % p.max) :: s.log)) (fun j' => (h.scanned j').cons nofun) ?_ j'
    refine ⟨hj, m, ?_, fun n hn => ?_⟩
    · rw [Nat.mod_add_mod, ← Nat.mod_add_mod, hi, Nat.mod_add_mod, Nat.add_assoc]
    · have hlog : since k (.full k (i % p.max) :: s.log) = .full k (i % p.max) :: since k s.log := since_cons nofun
      rw [hlog]
      rcases Nat.lt_succ_iff_lt_or_eq.mp hn with hlt | rfl
      · exact List.mem_cons_of_mem _ (hseen n hlt)
      · rw [hi]
        exact List.mem_cons_self
  | @probe i j hpc hj =>
    rw [hpc] at hmine
    obtain ⟨hle, m, hi, hseen⟩ := hmine
    exact h.goto (.probe _ _) ⟨hle, m, (Nat.mod_mod _ _).trans hi, hseen⟩
  | fail hpc hj =>
    rw [hpc] at hmine
    have hall := (le_antisymm hmine.1 hj) ▸ hmine
    refine ⟨fun j' => ?_, fullOnFailure_cons h.full fun k' heq => ?_⟩
    · refine forall_update (P := Scanned p (.returned k p.inv :: s.log)) (fun j' => (h.scanned j').cons nofun) ?_ j'
      trivial
    · obtain ⟨rfl, -⟩ := Event.returned.inj heq
      exact fun i hi => Passed.all hall hi
  | miss hpc =>
    rw [hpc] at hmine
    exact h.goto _ hmine
  | found hpc _ =>
    rw [hpc] at hmine
    exact h.goto _ hmine
  | lost hpc =>
    rw [hpc] at hmine
    exact h.goto _ hmine
  | claim _ _ => exact (h.goto (.claimed _ _) trivial).words _ _
  | hint _ => exact h.goto _ trivial
  | stale _ => exact h.goto _ trivial
  | done hpc =>
    refine (h.goto .out trivial).note nofun fun _ heq => ?_
    rcases hpc with hpc | hpc
    · rw [hpc] at hfine
      exact hfine.2 (Event.returned.inj heq).2
    · rw [hpc] at hfine
      exact hfine.2 (Event.returned.inj heq).2
  | @store i b hpc =>
    rw [hpc] at hfine
    have hret : Searched p (s.ret k (64 * i + b)) :=
      (h.goto .out trivial).note nofun fun _ heq => hfine.2 (Event.returned.inj heq).2
    exact hret.words _ _
  | again _ _ => exact h.goto _ trivial
  | leave _ => exact h.goto _ trivial
  | clear _ => exact (h.goto (.look _ true) trivial).words _ _

/-! ## One owner -/

theorem owns_goto (p : Params) (w : Words) (s : Machine ι) (k : ι) (pc : Pc) {o : Owner ι} {x : Nat}
    (h : (s.goto k pc).Owns p w o x) : s.Owns p w o x ∧ o ≠ .cpu k ∨ o = .cpu k ∧ pc.owns = some x := by
  cases o with
  | reserved => exact .inl ⟨h, nofun⟩
  | holder => exact .inl ⟨h, nofun⟩
  | cpu j =>
    by_cases hj : j = k
    · subst hj
      have hpc : (s.goto j pc).pc j = pc := Function.update_self _ _ _
      exact .inr ⟨rfl, hpc ▸ h⟩
    · have hpc : (s.goto k pc).pc j = s.pc j := Function.update_of_ne hj _ _
      have h : ((s.goto k pc).pc j).owns = some x := h
      rw [hpc] at h
      exact .inl ⟨h, fun heq => hj (Owner.cpu.inj heq)⟩

theorem Owned.goto (h : Owned p w s) {pc : Pc} (hpc : ∀ x, pc.owns = some x → (s.pc k).owns = some x) :
    Owned p w (s.goto k pc) := by
  refine h.keep rfl fun o x hx => ?_
  rcases owns_goto p w s k pc hx with ⟨hold, -⟩ | ⟨rfl, hid⟩
  · exact hold
  · exact hpc x hid

theorem Shared.ret (h : Shared p w s) {id : Nat} (hown : (s.pc k).owns = some id) : Shared p w (s.ret k id) := by
  have hcpu : s.Owns p w (.cpu k) id := hown
  constructor
  · refine h.owned.pass .holder rfl hcpu fun o x hx => ?_
    cases o with
    | reserved => exact .inl ⟨hx, nofun⟩
    | holder =>
      obtain ⟨hheld, hne⟩ := hx
      by_cases heq : id = x
      · exact .inr ⟨rfl, heq.symm⟩
      · have hheld : (if id = x then true else held x s.log) = true := hheld
        rw [if_neg heq] at hheld
        exact .inl ⟨⟨hheld, hne⟩, nofun⟩
    | cpu j =>
      have hx : (s.goto k .out).Owns p w (.cpu j) x := hx
      rcases owns_goto p w s k .out hx with ⟨hold, hne⟩ | ⟨-, hnone⟩
      · exact .inl ⟨hold, fun _ => hne⟩
      · cases hnone
  · refine exclusive_cons h.exclusive fun k' id' heq hinv => ?_
    obtain ⟨-, rfl⟩ := Event.returned.inj heq
    constructor
    · rw [Bool.eq_false_iff]
      intro hheld
      have hholder : s.Owns p w .holder id := ⟨hheld, hinv⟩
      cases h.owned.unique _ _ id hholder hcpu
    · rw [Bool.eq_false_iff]
      intro hbit
      have hreserved : s.Owns p w .reserved id := hbit
      cases h.owned.unique _ _ id hreserved hcpu

theorem Shared.step (hb : Basic p s) (h : Shared p w s) (hs : Step p s k a s') (hset : s.Settled (k, a)) :
    Shared p w s' := by
  have hfine := hb.fine k
  have hlog : ∀ {e : Event ι}, (∀ k id, e ≠ .returned k id) → Exclusive p w (e :: s.log) := fun he =>
    exclusive_cons h.exclusive fun k id heq => absurd heq (he k id)
  cases hs with
  | idle => exact h
  | call _ =>
    have hgoto : Owned p w (s.goto k .start) := h.owned.goto nofun
    exact ⟨hgoto.keep rfl fun o x => owns_note fun _ => rfl, hlog nofun⟩
  | @release id hpc hne hheld =>
    refine ⟨?_, hlog nofun⟩
    have hholder : s.Owns p w .holder id := ⟨hheld, hne⟩
    refine h.owned.pass (.cpu k) rfl hholder fun o x hx => ?_
    cases o with
    | reserved => exact .inl ⟨hx, nofun⟩
    | holder =>
      obtain ⟨hx, hinv⟩ := hx
      have hx : (if id = x then false else held x s.log) = true := hx
      by_cases heq : id = x
      · rw [if_pos heq] at hx
        cases hx
      · rw [if_neg heq] at hx
        exact .inl ⟨⟨hx, hinv⟩, fun heq' => absurd heq'.symm heq⟩
    | cpu j =>
      have hx : (s.goto k (.look id false)).Owns p w (.cpu j) x := hx
      rcases owns_goto p w s k (.look id false) hx with ⟨hold, -⟩ | ⟨heq, hid⟩
      · exact .inl ⟨hold, nofun⟩
      · exact .inr ⟨heq, (Option.some.inj hid).symm⟩
  | start _ => exact ⟨h.owned.goto nofun, h.exclusive⟩
  | @full i j _ _ _ =>
    have hgoto : Owned p w (s.goto k (.scan (i % p.max + 1) (j + 1))) := h.owned.goto nofun
    exact ⟨hgoto.keep rfl fun o x => owns_note fun _ => rfl, hlog nofun⟩
  | probe _ _ => exact ⟨h.owned.goto nofun, h.exclusive⟩
  | fail _ _ =>
    have hgoto : Owned p w (s.goto k .out) := h.owned.goto nofun
    refine ⟨hgoto.keep rfl fun o x hx => ?_, exclusive_cons h.exclusive fun k' id heq hne => ?_⟩
    · cases o with
      | reserved => exact hx
      | holder =>
        obtain ⟨hx, hinv⟩ := hx
        have hx : (if p.inv = x then true else held x s.log) = true := hx
        rw [if_neg (Ne.symm hinv)] at hx
        exact ⟨hx, hinv⟩
      | cpu j => exact hx
    · exact absurd (Event.returned.inj heq).2.symm hne
  | miss _ => exact ⟨h.owned.goto nofun, h.exclusive⟩
  | found _ _ => exact ⟨h.owned.goto nofun, h.exclusive⟩
  | lost _ => exact ⟨h.owned.goto nofun, h.exclusive⟩
  | @claim i j b hpc hfree =>
    rw [hpc] at hfine
    refine ⟨h.owned.gain (.cpu k) hfree (fun x => bit_setBit _ _ _ hfine) fun o x hx => ?_, h.exclusive⟩
    rcases owns_goto p w s k (.claimed i b) hx with ⟨hold, -⟩ | ⟨heq, hid⟩
    · exact .inl hold
    · exact .inr ⟨heq, (Option.some.inj hid).symm⟩
  | hint hpc => exact ⟨h.owned.goto fun x hx => hpc ▸ hx, h.exclusive⟩
  | stale hpc => exact ⟨h.owned.goto fun x hx => hpc ▸ hx, h.exclusive⟩
  | done hpc =>
    rcases hpc with hpc | hpc
    · exact h.ret (by rw [hpc]; rfl)
    · exact h.ret (by rw [hpc]; rfl)
  | @store i b hpc =>
    have hret : Shared p w (s.ret k (64 * i + b)) := h.ret (by rw [hpc]; rfl)
    exact ⟨hret.owned.keep rfl fun o x hx => by cases o <;> exact hx, hret.exclusive⟩
  | @again id f hpc hbit =>
    cases f with
    | true => exact absurd (hbit.symm.trans (hset rfl id hpc)) (by decide)
    | false => exact ⟨h.owned.goto fun x hx => hpc ▸ hx, h.exclusive⟩
  | leave _ => exact ⟨h.owned.goto nofun, h.exclusive⟩
  | @clear id hpc =>
    have hcpu : s.Owns p w (.cpu k) id := by
      show (s.pc k).owns = some id
      rw [hpc]
      rfl
    refine ⟨h.owned.drop hcpu (fun x => ?_) fun o x hx => ?_, h.exclusive⟩
    · exact (bit_clrBit _ _ _ (Nat.mod_lt _ (by decide))).trans (by rw [Nat.div_add_mod])
    · rcases owns_goto p w s k (.look id true) hx with ⟨hold, hne⟩ | ⟨-, hnone⟩
      · exact ⟨hold, fun _ => hne⟩
      · cases hnone

/-! ## Runs -/

namespace Machine

omit [DecidableEq ι] in
theorem basic_boot (hw : bit w p.inv = true) : Basic p (boot w : Machine ι) := ⟨hw, fun _ => trivial⟩

theorem searched_boot : Searched p (boot w : Machine ι) :=
  ⟨fun _ => trivial, fun _ _ hl => by simp [boot] at hl⟩

omit [DecidableEq ι] in
theorem shared_boot : Shared p w (boot w : Machine ι) := by
  refine ⟨⟨fun o id hown => ?_, fun o o' id hown hown' => ?_⟩, fun _ _ _ hl => by simp [boot] at hl⟩
  · cases o with
    | reserved => exact hown
    | holder => cases hown.1
    | cpu j => cases hown
  · cases o with
    | holder => cases hown.1
    | cpu j => cases hown
    | reserved =>
      cases o' with
      | reserved => rfl
      | holder => cases hown'.1
      | cpu j => cases hown'

theorem after_basic (hb : Basic p s) (acts : List (ι × Act)) : Basic p (s.after p acts) := by
  induction acts generalizing s with
  | nil => exact hb
  | cons x acts ih => exact ih (hb.step (act_cases p s x.1 x.2))

theorem after_searched (hb : Basic p s) (h : Searched p s) (acts : List (ι × Act)) : Searched p (s.after p acts) := by
  induction acts generalizing s with
  | nil => exact h
  | cons x acts ih =>
    have hstep := act_cases p s x.1 x.2
    exact ih (hb.step hstep) (h.step hb hstep)

theorem after_shared (hb : Basic p s) (h : Shared p w s) {acts : List (ι × Act)} (hu : s.Undisturbed p acts) :
    Shared p w (s.after p acts) := by
  induction acts generalizing s with
  | nil => exact h
  | cons x acts ih =>
    have hstep := act_cases p s x.1 x.2
    exact ih (hb.step hstep) (h.step hb hstep hu.1) hu.2

end Machine

/-- The id that a CPU in `alloc` has set the bit of. -/
def Pc.claims : Pc → Option Nat
  | .claimed i b | .hint i b | .store i b => some (64 * i + b)
  | _ => none

/-- `reserve` marks what it is asked to.  After it, whatever the CPUs do: the bit of
the invalid id stays set, nobody claims it, and it is returned when all words have
been seen full; and if no release clears a bit twice, nobody gets an id that another
one has or that is reserved. -/
theorem alloc_exclusive (p : Params) (calls : List (Nat × Nat)) :
    ∃ w, p.reserved calls = some w ∧
      (∀ id, bit w id = true ↔ id = p.inv ∨ ∃ x ∈ calls, x.1 ≤ id ∧ id < min (x.1 + x.2) p.c) ∧
      ∀ acts : List (ι × Act),
        bit ((Machine.boot w).after p acts).words p.inv = true ∧
        (∀ k, (((Machine.boot w).after p acts).pc k).claims ≠ some p.inv) ∧
        FullOnFailure p ((Machine.boot w).after p acts).log ∧
        ((Machine.boot w).Undisturbed p acts → Exclusive p w ((Machine.boot w).after p acts).log) := by
  obtain ⟨w, hw, hbits⟩ := reserved_spec p calls
  refine ⟨w, hw, hbits, fun acts => ?_⟩
  have hinv : bit w p.inv = true := (hbits p.inv).mpr (.inl rfl)
  have hboot : Basic p (Machine.boot w : Machine ι) := Machine.basic_boot hinv
  have hafter := Machine.after_basic hboot acts
  refine ⟨hafter.inv, fun k hk => ?_, (Machine.after_searched hboot Machine.searched_boot acts).full, fun hu => ?_⟩
  · have hfine := hafter.fine k
    cases hpc : ((Machine.boot w).after p acts).pc k with
    | claimed i b =>
      rw [hpc] at hfine hk
      exact hfine.2 (Option.some.inj hk)
    | hint i b =>
      rw [hpc] at hfine hk
      exact hfine.2 (Option.some.inj hk)
    | store i b =>
      rw [hpc] at hfine hk
      exact hfine.2 (Option.some.inj hk)
    | _ =>
      rw [hpc] at hk
      cases hk
  · exact (Machine.after_shared hboot Machine.shared_boot hu).exclusive

def pcids : Params := ⟨64, 2, by decide⟩

/-- Each CPU gets an id; one of them releases its id, and the other one gets that, too. -/
def handedOn : List (Bool × Act) :=
  (false, Act.alloc) :: List.replicate 6 (false, Act.step) ++
  (true, Act.alloc) :: List.replicate 6 (true, Act.step) ++
  (false, Act.release 0) :: List.replicate 3 (false, Act.step) ++
  (true, Act.alloc) :: List.replicate 6 (true, Act.step)

example : (Machine.boot pcids.init).Undisturbed pcids handedOn ∧
    ((Machine.boot pcids.init).after pcids handedOn).log =
      [.returned true 0, .called true, .released 0, .returned true 1, .called true, .returned false 0,
        .called false] := by
  decide +kernel

/-- One CPU gets id 0 and releases it; when it has cleared the bit, the other one gets
id 0; the first one sees the bit set, clears it once more, and gets id 0, too. -/
def clearedTwice : List (Bool × Act) :=
  (false, Act.alloc) :: List.replicate 6 (false, Act.step) ++
  (false, Act.release 0) :: List.replicate 2 (false, Act.step) ++
  (true, Act.alloc) :: List.replicate 6 (true, Act.step) ++
  List.replicate 3 (false, Act.step) ++
  (false, Act.alloc) :: List.replicate 6 (false, Act.step)

theorem clearedTwice_not_exclusive :
    ((Machine.boot pcids.init).after pcids clearedTwice).log =
        [.returned false 0, .called false, .returned true 0, .called true, .released 0, .returned false 0,
          .called false] ∧
      ¬ ∀ acts : List (Bool × Act), Exclusive pcids pcids.init ((Machine.boot pcids.init).after pcids acts).log := by
  have hlog : ((Machine.boot pcids.init).after pcids clearedTwice).log =
      [.returned false 0, .called false, .returned true 0, .called true, .released 0, .returned false 0,
        .called false] := by
    decide +kernel
  refine ⟨hlog, fun hall => ?_⟩
  have hfirst := hall clearedTwice false 0
  rw [hlog] at hfirst
  exact absurd (hfirst _ (List.suffix_refl _) (by decide)).1 (by decide)

end Tukija.Ids
