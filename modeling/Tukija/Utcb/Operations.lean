import Mathlib.Data.List.Pairwise
import Tukija.Utcb.Words

/-! The operations that `for_each_word` takes from the message words. -/
namespace Tukija

def Clock.Arch.slot (a : Clock.Arch) : Nat := if a.extraInc then 2 else 1

theorem Clock.Arch.slot_pos (a : Clock.Arch) : 0 < a.slot := by
  rw [slot]
  split <;> decide

/-! The arithmetic of the loop, for both sizes. -/

theorem Clock.Arch.extra_one (a : Clock.Arch) : (if a.extraInc then 1 else 0) = a.slot - 1 := by
  cases a <;> rfl

theorem Clock.Arch.extra_two (a : Clock.Arch) : (if a.extraInc then 2 else 1) = a.slot := rfl

theorem Clock.Arch.high (a : Clock.Arch) (i : Nat) : (if a.extraInc then i + 1 else i) = i + (a.slot - 1) := by
  cases a <;> rfl

namespace Utcb

variable {a : Clock.Arch} {σ : Type}

/-! ## The format -/

def Op.word : Op → Nat
  | read i _ | write i _ _ | cut i => i

/-- The operations from word `k` on: a read has one slot, a write two, and all of them
lie before `max`. A write that does not is the last operation. -/
inductive Parses (mr : Nat → BitVec a.bits) (max : Nat) : Nat → List Op → Prop where
  | stop {k} : max < k + a.slot → Parses mr max k []
  | cut {k} : k + a.slot ≤ max → isWrite (mr k) = true → max < k + 2 * a.slot → Parses mr max k [.cut k]
  | write {k l} : isWrite (mr k) = true → k + 2 * a.slot ≤ max → Parses mr max (k + 2 * a.slot) l →
      Parses mr max k (.write k (msrOf (mr k)) (valueAt mr (k + a.slot)) :: l)
  | read {k l} : k + a.slot ≤ max → isWrite (mr k) = false → Parses mr max (k + a.slot) l →
      Parses mr max k (.read k ((mr k).setWidth 64) :: l)

theorem valueAt_congr {mr mr' : Nat → BitVec a.bits} {k : Nat} (h : ∀ i, k ≤ i → mr i = mr' i) :
    valueAt mr k = valueAt mr' k := by
  rw [valueAt, valueAt, h k le_rfl, h (k + 1) (Nat.le_succ k)]

theorem Parses.first {mr : Nat → BitVec a.bits} {max k : Nat} {op : Op} {l : List Op}
    (h : Parses mr max k (op :: l)) : op.word = k := by
  cases h with
  | cut _ _ _ => rfl
  | write _ _ _ => rfl
  | read _ _ _ => rfl

theorem Parses.congr {mr mr' : Nat → BitVec a.bits} {max k : Nat} {l : List Op} (hp : Parses mr max k l)
    (h : ∀ i, k ≤ i → mr i = mr' i) : Parses mr' max k l := by
  induction hp with
  | stop hlt => exact .stop hlt
  | cut hle hw hlt => exact .cut hle (h _ le_rfl ▸ hw) hlt
  | @write k l hw hle _ ih =>
    rw [h k le_rfl, valueAt_congr fun i hi => h i (by omega)]
    exact .write (h k le_rfl ▸ hw) hle (ih fun i hi => h i (by omega))
  | @read k l hle hw _ ih =>
    rw [h k le_rfl]
    exact .read hle (h k le_rfl ▸ hw) (ih fun i hi => h i (by omega))

/-- On the 32-bit machine there is no word behind the slot of the first read. -/
def ReadsLast (mr : Nat → BitVec a.bits) (max k : Nat) : Prop :=
  a = .i386 → ∀ j, (∀ n < j, isWrite (mr (k + 4 * n)) = true) → isWrite (mr (k + 4 * j)) = false →
    max ≤ k + 4 * j + 2

theorem ReadsLast.behind {mr : Nat → BitVec a.bits} {max k : Nat} (h : ReadsLast mr max k)
    (hw : isWrite (mr k) = true) : ReadsLast mr max (k + 2 * a.slot) := by
  rintro rfl j hwrites hr
  have hshift : ∀ n, k + 2 * Clock.Arch.i386.slot + 4 * n = k + 4 * (n + 1) := fun n =>
    show k + 2 * 2 + 4 * n = k + 4 * (n + 1) by omega
  rw [hshift] at hr ⊢
  refine h rfl (j + 1) (fun n hn => ?_) hr
  cases n with
  | zero => exact hw
  | succ n => exact hshift n ▸ hwrites n (by omega)

theorem ReadsLast.of_behind {mr : Nat → BitVec a.bits} {max k : Nat} (hw : isWrite (mr k) = true)
    (h : ReadsLast mr max (k + 2 * a.slot)) : ReadsLast mr max k := by
  rintro rfl j hwrites hr
  have hshift : ∀ n, k + 2 * Clock.Arch.i386.slot + 4 * n = k + 4 * (n + 1) := fun n =>
    show k + 2 * 2 + 4 * n = k + 4 * (n + 1) by omega
  cases j with
  | zero => exact absurd (hr.symm.trans hw) Bool.false_ne_true
  | succ j =>
    have := h rfl j (fun n hn => hshift n ▸ hwrites (n + 1) (by omega)) (hshift j ▸ hr)
    rwa [hshift] at this

/-! ## Runs of the loop -/

section Runs

variable (fnRead : σ → BitVec 64 → Bool × BitVec 64 × σ) (fnWrite : σ → BitVec 64 → BitVec 64 → Bool × σ) (max : Nat)

/-- The words that the value of a write at `i` is taken from. -/
def valueWords (a : Clock.Arch) (i : Nat) : List Access := (List.range a.slot).map fun n => .value (i + a.slot + n)

/-- The words that the result of a read at `i` is stored in. -/
def resultWords (a : Clock.Arch) (i : Nat) : List Access := (List.range a.slot).map fun n => .result (i + n)

/-- What the loop does from word `i` on: a write takes two slots, a read takes a slot,
but the loop goes on with the next word. -/
inductive Runs : Nat → Nat → (Nat → BitVec a.bits) → BitVec a.bits → σ → Outcome a σ → Prop where
  | stop {i idOp mr success s} : max < i + a.slot → Runs i idOp mr success s ⟨mr, success, s, [], []⟩
  | cut {i idOp mr success s} : i + a.slot ≤ max → isWrite (mr i) = true → max < i + 2 * a.slot →
      Runs i idOp mr success s ⟨mr, success, s, [(.cut i, false)], [.op i]⟩
  | write {i idOp mr success s ok s' r} : isWrite (mr i) = true → i + 2 * a.slot ≤ max →
      fnWrite s (msrOf (mr i)) (valueAt mr (i + a.slot)) = (ok, s') →
      Runs (i + 2 * a.slot) (idOp + 1) mr (mark success idOp ok) s' r →
      Runs i idOp mr success s
        (r.after (.write i (msrOf (mr i)) (valueAt mr (i + a.slot)), ok) (.op i :: valueWords a i))
  | read {i idOp mr success s ok inOut s' r} : i + a.slot ≤ max → isWrite (mr i) = false →
      fnRead s ((mr i).setWidth 64) = (ok, inOut, s') →
      Runs (i + 1) (idOp + 1) (if ok then store mr i inOut else mr) (mark success idOp ok) s' r →
      Runs i idOp mr success s
        (r.after (.read i ((mr i).setWidth 64), ok) (.op i :: if ok then resultWords a i else []))

variable {fnRead fnWrite max}

theorem value_accesses (i : Nat) :
    (if a.extraInc then [Access.op i, .value (i + a.slot), .value (i + (a.slot - 1) + 2)]
      else [.op i, .value (i + a.slot)]) = .op i :: valueWords a i := by
  cases a <;> rfl

theorem result_accesses (i : Nat) (ok : Bool) :
    (if ok then if a.extraInc then [Access.op i, .result i, .result (i + 1)] else [.op i, .result i] else [.op i]) =
      .op i :: if ok then resultWords a i else [] := by
  cases ok <;> cases a <;> rfl

section Equations

variable {i : Nat} (fuel idOp : Nat) {mr : Nat → BitVec a.bits} (success : BitVec a.bits) (s : σ)

theorem loop_stop (h : max < i + a.slot) :
    forEachWordLoop fnRead fnWrite max (fuel + 1) i idOp mr success s = some ⟨mr, success, s, [], []⟩ := by
  have hpos := a.slot_pos
  rw [forEachWordLoop, a.extra_one, if_neg (by omega)]

theorem loop_cut (h : i + a.slot ≤ max) (hw : isWrite (mr i) = true) (hm : max < i + 2 * a.slot) :
    forEachWordLoop fnRead fnWrite max (fuel + 1) i idOp mr success s =
      some ⟨mr, success, s, [(.cut i, false)], [.op i]⟩ := by
  have hpos := a.slot_pos
  rw [forEachWordLoop, a.extra_one, a.extra_two, a.high, if_pos (by omega), if_pos hw, if_pos (by omega)]

theorem loop_write {ok : Bool} {s' : σ} (hw : isWrite (mr i) = true) (hm : i + 2 * a.slot ≤ max)
    (hfn : fnWrite s (msrOf (mr i)) (valueAt mr (i + a.slot)) = (ok, s')) :
    forEachWordLoop fnRead fnWrite max (fuel + 1) i idOp mr success s =
      (forEachWordLoop fnRead fnWrite max fuel (i + 2 * a.slot) (idOp + 1) mr (mark success idOp ok) s').map
        (·.after (.write i (msrOf (mr i)) (valueAt mr (i + a.slot)), ok) (.op i :: valueWords a i)) := by
  have hpos := a.slot_pos
  have hvalue : i + (a.slot - 1) + 1 = i + a.slot := by omega
  have hnext : i + (a.slot - 1) + a.slot + 1 = i + 2 * a.slot := by omega
  rw [forEachWordLoop, a.extra_one, a.extra_two, a.high, if_pos (by omega), if_pos hw, if_neg (by omega)]
  simp only [hvalue, hnext, hfn, value_accesses]

theorem loop_read {ok : Bool} {inOut : BitVec 64} {s' : σ} (h : i + a.slot ≤ max) (hw : isWrite (mr i) = false)
    (hfn : fnRead s ((mr i).setWidth 64) = (ok, inOut, s')) :
    forEachWordLoop fnRead fnWrite max (fuel + 1) i idOp mr success s =
      (forEachWordLoop fnRead fnWrite max fuel (i + 1) (idOp + 1) (if ok then store mr i inOut else mr)
          (mark success idOp ok) s').map
        (·.after (.read i ((mr i).setWidth 64), ok) (.op i :: if ok then resultWords a i else [])) := by
  have hpos := a.slot_pos
  rw [forEachWordLoop, a.extra_one, if_pos (by omega), if_neg (by simp [hw])]
  simp only [hfn, result_accesses]

end Equations

theorem runs_of_loop {fuel i idOp : Nat} {mr : Nat → BitVec a.bits} {success : BitVec a.bits} {s : σ}
    {r : Outcome a σ} (h : forEachWordLoop fnRead fnWrite max fuel i idOp mr success s = some r) :
    Runs fnRead fnWrite max i idOp mr success s r := by
  induction fuel generalizing i idOp mr success s r with
  | zero => cases h
  | succ fuel ih =>
    by_cases hle : i + a.slot ≤ max
    · cases hw : isWrite (mr i) with
      | true =>
        by_cases hm : i + 2 * a.slot ≤ max
        · rw [loop_write fuel idOp success s hw hm rfl, Option.map_eq_some_iff] at h
          obtain ⟨r', hr', rfl⟩ := h
          exact .write hw hm rfl (ih hr')
        · rw [loop_cut fuel idOp success s hle hw (not_le.mp hm)] at h
          exact Option.some.inj h ▸ .cut hle hw (not_le.mp hm)
      | false =>
        rw [loop_read fuel idOp success s hle hw rfl, Option.map_eq_some_iff] at h
        obtain ⟨r', hr', rfl⟩ := h
        exact .read hle hw rfl (ih hr')
    · rw [loop_stop fuel idOp success s (not_le.mp hle)] at h
      exact Option.some.inj h ▸ .stop (not_le.mp hle)

theorem loop_total {fuel i : Nat} (idOp : Nat) (mr : Nat → BitVec a.bits) (success : BitVec a.bits) (s : σ)
    (h : max ≤ i + fuel) : ∃ r, forEachWordLoop fnRead fnWrite max (fuel + 1) i idOp mr success s = some r := by
  have hpos := a.slot_pos
  induction fuel generalizing i idOp mr success s with
  | zero => exact ⟨_, loop_stop 0 idOp success s (by omega)⟩
  | succ fuel ih =>
    by_cases hle : i + a.slot ≤ max
    · cases hw : isWrite (mr i) with
      | true =>
        by_cases hm : i + 2 * a.slot ≤ max
        · rw [loop_write (fuel + 1) idOp success s hw hm rfl]
          obtain ⟨r, hr⟩ := ih (idOp + 1) mr _ _ (show max ≤ i + 2 * a.slot + fuel by omega)
          exact ⟨_, by rw [hr]; rfl⟩
        · exact ⟨_, loop_cut (fuel + 1) idOp success s hle hw (not_le.mp hm)⟩
      | false =>
        rw [loop_read (fuel + 1) idOp success s hle hw rfl]
        obtain ⟨r, hr⟩ := ih (idOp + 1) _ _ _ (show max ≤ i + 1 + fuel by omega)
        exact ⟨_, by rw [hr]; rfl⟩
    · exact ⟨_, loop_stop (fuel + 1) idOp success s (not_le.mp hle)⟩

namespace Runs

variable {i idOp : Nat} {mr : Nat → BitVec a.bits} {success : BitVec a.bits} {s : σ} {r : Outcome a σ}

theorem mem_valueWords {e : Access} : e ∈ valueWords a i ↔ ∃ n < a.slot, e = .value (i + a.slot + n) := by
  simp [valueWords, eq_comm]

theorem mem_resultWords {e : Access} : e ∈ resultWords a i ↔ ∃ n < a.slot, e = .result (i + n) := by
  simp [resultWords, eq_comm]

theorem inside (h : Runs fnRead fnWrite max i idOp mr success s r) : ∀ e ∈ r.accesses, i ≤ e.word ∧ e.word < max := by
  have hpos := a.slot_pos
  induction h with
  | stop _ => exact fun e he => absurd he List.not_mem_nil
  | @cut i _ _ _ _ hle _ _ =>
    intro e he
    rw [List.mem_singleton.mp he]
    exact ⟨le_rfl, show i < max by omega⟩
  | @write i _ _ _ _ _ _ _ _ hm _ _ ih =>
    intro e he
    rcases List.mem_append.mp he with hnew | hold
    · rcases List.mem_cons.mp hnew with rfl | hvalue
      · exact ⟨le_rfl, show i < max by omega⟩
      · obtain ⟨n, hn, rfl⟩ := mem_valueWords.mp hvalue
        exact ⟨show i ≤ i + a.slot + n by omega, show i + a.slot + n < max by omega⟩
    · have := ih e hold
      omega
  | @read i _ _ _ _ ok _ _ _ hle _ _ _ ih =>
    intro e he
    rcases List.mem_append.mp he with hnew | hold
    · rcases List.mem_cons.mp hnew with rfl | hresult
      · exact ⟨le_rfl, show i < max by omega⟩
      · cases ok with
        | false => exact absurd hresult List.not_mem_nil
        | true =>
          obtain ⟨n, hn, rfl⟩ := mem_resultWords.mp hresult
          exact ⟨Nat.le_add_right i n, show i + n < max by omega⟩
    · have := ih e hold
      omega

theorem store_of_ne (inOut : BitVec 64) {k : Nat} (h : ∀ n < a.slot, k ≠ i + n) : store mr i inOut k = mr k := by
  cases a with
  | i386 =>
    rw [store, if_pos (show Clock.Arch.i386.extraInc = true from rfl), Function.update_of_ne (h 1 (by decide))]
    exact Function.update_of_ne (h 0 (by decide)) _ _
  | x86_64 => exact Function.update_of_ne (h 0 (by decide)) _ _

theorem kept (h : Runs fnRead fnWrite max i idOp mr success s r) {k : Nat} (hk : .result k ∉ r.accesses) :
    r.mr k = mr k := by
  induction h with
  | stop _ => rfl
  | cut _ _ _ => rfl
  | write _ _ _ _ ih => exact ih fun hmem => hk (List.mem_append_right _ hmem)
  | @read i _ mr _ _ ok inOut _ _ _ _ _ _ ih =>
    refine (ih fun hmem => hk (List.mem_append_right _ hmem)).trans ?_
    cases ok with
    | false => rfl
    | true =>
      refine store_of_ne inOut fun n hn heq => hk (List.mem_append_left _ (List.mem_cons_of_mem _ ?_))
      exact mem_resultWords.mpr ⟨n, hn, by rw [heq]⟩

theorem length_ops (h : Runs fnRead fnWrite max i idOp mr success s r) : r.ops.length ≤ max - i := by
  have hpos := a.slot_pos
  induction h with
  | stop _ => exact Nat.zero_le _
  | cut _ _ _ =>
    rw [List.length_singleton]
    omega
  | write _ _ _ _ ih =>
    rw [Outcome.after, List.length_cons]
    omega
  | read _ _ _ _ ih =>
    rw [Outcome.after, List.length_cons]
    omega

theorem getLsbD_mark (success : BitVec a.bits) (idOp : Nat) (ok : Bool) {j : Nat} (hj : j < a.bits) :
    (mark success idOp ok).getLsbD j = true ↔ success.getLsbD j = true ∨ j = idOp ∧ ok = true := by
  cases ok with
  | false => simp [mark]
  | true =>
    have hbit : (1#a.bits <<< idOp).getLsbD j = true ↔ j = idOp := by
      rw [← BitVec.twoPow_eq, BitVec.getLsbD_twoPow]
      simp only [Bool.and_eq_true, decide_eq_true_iff]
      omega
    rw [mark, if_pos rfl, BitVec.getLsbD_or, Bool.or_eq_true, hbit, and_iff_left rfl]

/-- Bit `j` is set, or is the one of an operation that succeeded. -/
def MaskBit (success : BitVec a.bits) (idOp : Nat) (ops : List (Op × Bool)) (j : Nat) : Prop :=
  success.getLsbD j = true ∨ ∃ n op, j = idOp + n ∧ ops[n]? = some (op, true)

theorem maskBit_cons (success : BitVec a.bits) (idOp : Nat) (op : Op) (ok : Bool) (ops : List (Op × Bool)) {j : Nat}
    (hj : j < a.bits) : MaskBit (mark success idOp ok) (idOp + 1) ops j ↔ MaskBit success idOp ((op, ok) :: ops) j := by
  rw [MaskBit, MaskBit, getLsbD_mark success idOp ok hj, or_assoc]
  refine or_congr_right ⟨?_, ?_⟩
  · rintro (⟨rfl, rfl⟩ | ⟨n, op', rfl, hop⟩)
    · exact ⟨0, op, rfl, rfl⟩
    · exact ⟨n + 1, op', by omega, hop⟩
  · rintro ⟨n, op', rfl, hop⟩
    cases n with
    | zero => exact .inl ⟨rfl, congrArg Prod.snd (Option.some.inj hop)⟩
    | succ n => exact .inr ⟨n, op', by omega, hop⟩

theorem maskBit_nil (success : BitVec a.bits) (idOp j : Nat) :
    MaskBit success idOp [] j ↔ success.getLsbD j = true := by
  simp [MaskBit]

theorem mask (h : Runs fnRead fnWrite max i idOp mr success s r) {j : Nat} (hj : j < a.bits) :
    r.success.getLsbD j = true ↔ MaskBit success idOp r.ops j := by
  induction h with
  | stop _ => exact (maskBit_nil _ _ j).symm
  | @cut i idOp mr success s _ _ _ =>
    rw [← maskBit_cons success idOp (.cut i) false [] hj, maskBit_nil]
    rfl
  | write _ _ _ _ ih => exact ih.trans (maskBit_cons _ _ _ _ _ hj)
  | read _ _ _ _ ih => exact ih.trans (maskBit_cons _ _ _ _ _ hj)

/-! ## The two sizes -/

/-- No word is taken as an operation after a result was stored in it, or after it was
taken as a part of a value. -/
def Apart (l : List Access) : Prop :=
  l.Pairwise fun x y => ∀ k, y = .op k → x ≠ .result k ∧ x ≠ .value k

theorem apart_step (k : Nat) {l m : List Access} (hl : ∀ e ∈ l, ∀ n, e ≠ .op n) (hm : Apart m)
    (hbefore : ∀ e ∈ l, ∀ e' ∈ m, e.word < e'.word) : Apart (.op k :: l ++ m) := by
  have hfront : Apart (.op k :: l) := by
    refine List.pairwise_cons.mpr ⟨fun y hy n heq => absurd heq (hl y hy n), ?_⟩
    exact List.pairwise_of_forall_mem_list fun x _ y hy n heq => absurd heq (hl y hy n)
  refine List.pairwise_append.mpr ⟨hfront, hm, ?_⟩
  rintro x hx y hy n rfl
  rcases List.mem_cons.mp hx with rfl | hx
  · exact ⟨fun h => (nomatch h), fun h => (nomatch h)⟩
  · have hlt := hbefore x hx _ hy
    constructor
    · rintro rfl
      exact lt_irrefl n hlt
    · rintro rfl
      exact lt_irrefl n hlt

theorem eq_nil_of_lt (h : Runs fnRead fnWrite max i idOp mr success s r) (hlt : max < i + a.slot) :
    r.ops = [] ∧ r.accesses = [] := by
  have hpos := a.slot_pos
  cases h with
  | stop _ => exact ⟨rfl, rfl⟩
  | cut hle _ _ => omega
  | write _ hm _ _ => omega
  | read hle _ _ _ => omega

theorem first (h : Runs fnRead fnWrite max i idOp mr success s r) (hle : i + a.slot ≤ max) :
    ∃ op l, r.ops.map Prod.fst = op :: l ∧ op.word = i := by
  cases h with
  | stop hlt => omega
  | cut _ _ _ => exact ⟨_, _, rfl, rfl⟩
  | write _ _ _ _ => exact ⟨_, _, rfl, rfl⟩
  | read _ _ _ _ => exact ⟨_, _, rfl, rfl⟩

/-- With nothing behind the first read, or with slots of one word, the loop goes on
where the next operation is. -/
theorem sound (h : Runs fnRead fnWrite max i idOp mr success s r) (hlast : ReadsLast mr max i) :
    Parses mr max i (r.ops.map Prod.fst) ∧ Apart r.accesses := by
  induction h with
  | stop hlt => exact ⟨.stop hlt, List.Pairwise.nil⟩
  | cut hle hw hlt => exact ⟨.cut hle hw hlt, List.pairwise_singleton _ _⟩
  | @write i _ _ _ _ _ _ _ hw hm _ hrest ih =>
    obtain ⟨hparses, hapart⟩ := ih (hlast.behind hw)
    refine ⟨.write hw hm hparses, apart_step i ?_ hapart ?_⟩
    · intro e he n heq
      obtain ⟨_, _, rfl⟩ := mem_valueWords.mp he
      cases heq
    · intro e he e' he'
      obtain ⟨n, hn, rfl⟩ := mem_valueWords.mp he
      have := (hrest.inside e' he').1
      exact show i + a.slot + n < e'.word by omega
  | @read i _ mr _ _ ok inOut _ _ hle hw _ hrest ih =>
    have hresult : ∀ e ∈ (if ok then resultWords a i else []), ∃ n < a.slot, e = .result (i + n) := by
      intro e he
      cases ok with
      | false => exact absurd he List.not_mem_nil
      | true => exact mem_resultWords.mp he
    have hnop : ∀ e ∈ (if ok then resultWords a i else []), ∀ n, e ≠ .op n := by
      intro e he n heq
      obtain ⟨_, _, rfl⟩ := hresult e he
      cases heq
    cases a with
    | i386 =>
      have hmax : max ≤ i + 2 := hlast rfl 0 (fun n hn => absurd hn (Nat.not_lt_zero n)) hw
      obtain ⟨hops, hacc⟩ := hrest.eq_nil_of_lt (show max < i + 1 + 2 by omega)
      rw [Outcome.after, List.map_cons, hops, hacc]
      refine ⟨.read hle hw (.stop (show max < i + 2 + 2 by omega)), apart_step i hnop List.Pairwise.nil ?_⟩
      exact fun e _ e' he' => absurd he' List.not_mem_nil
    | x86_64 =>
      obtain ⟨hparses, hapart⟩ := ih fun ha => nomatch ha
      refine ⟨.read hle hw (hparses.congr fun k hk => ?_), apart_step i hnop hapart ?_⟩
      · have hk : i < k := hk
        cases ok with
        | false => rfl
        | true =>
          rw [if_pos rfl]
          refine store_of_ne inOut fun n hn heq => ?_
          have hn : n < 1 := hn
          omega
      · intro e he e' he'
        obtain ⟨n, hn, rfl⟩ := hresult e he
        have hn : n < 1 := hn
        have := (hrest.inside e' he').1
        exact show i + n < e'.word by omega

theorem readsLast (h : Runs fnRead fnWrite max i idOp mr success s r)
    (hp : Parses mr max i (r.ops.map Prod.fst)) : ReadsLast mr max i := by
  induction h with
  | @stop i _ _ _ _ hlt =>
    rintro rfl j - -
    have hlt : max < i + 2 := hlt
    omega
  | @cut i _ mr _ _ _ hw hlt =>
    rintro rfl j - hr
    have hlt : max < i + 2 * 2 := hlt
    cases j with
    | zero => exact absurd (hr.symm.trans hw) Bool.false_ne_true
    | succ j => omega
  | @write i _ mr _ _ _ _ _ hw _ _ _ ih =>
    cases hp with
    | write _ _ hrest => exact .of_behind hw (ih hrest)
  | @read i _ mr _ _ _ _ _ _ _ hw _ hrest _ =>
    rintro rfl j hwrites -
    cases j with
    | succ j => exact absurd ((hwrites 0 (Nat.succ_pos j)).symm.trans hw) (Ne.symm Bool.false_ne_true)
    | zero =>
      by_contra hmax
      have hmore : i + 1 + 2 ≤ max := by omega
      obtain ⟨op, l, hops, hat⟩ := hrest.first hmore
      cases hp with
      | read _ _ hparses =>
        have hnext := Parses.first (hops ▸ hparses)
        have hnext : op.word = i + 2 := hnext
        omega

end Runs

end Runs

/-! ## The whole function -/

/-- What holds for every run: the words below `max` alone are accessed, the others keep
what they hold, each operation has a bit, and the bits of the successful ones are set. -/
structure Bounded (u u' : Utcb a) (r : Outcome a σ) : Prop where
  inside : ∀ e ∈ r.accesses, e.word < u.maxWord
  kept : ∀ k, .result k ∉ r.accesses → u'.mr k = u.mr k
  room : r.ops.length < a.bits
  mask : ∀ j < a.bits, u'.items.getLsbD j = true ↔ ∃ op, r.ops[j]? = some (op, true)

/-- The words are taken apart as they came in. -/
structure Sound (u u' : Utcb a) (r : Outcome a σ) : Prop extends Bounded u u' r where
  parsed : Parses u.mr u.maxWord 0 (r.ops.map Prod.fst)
  apart : Runs.Apart r.accesses

section Whole

variable (fnRead : σ → BitVec 64 → Bool × BitVec 64 × σ) (fnWrite : σ → BitVec 64 → BitVec 64 → Bool × σ)
  {u u' : Utcb a} {s : σ} {fuel : Nat} {r : Outcome a σ}

variable {fnRead fnWrite}

theorem runs_of_forEachWord (h : forEachWord fnRead fnWrite fuel u s = some (u', r)) :
    Runs fnRead fnWrite u.maxWord 0 0 u.mr 0 s r ∧ u' = ⟨r.success, r.mr⟩ := by
  obtain ⟨r', hr', heq⟩ := Option.map_eq_some_iff.mp h
  cases heq
  exact ⟨runs_of_loop hr', rfl⟩

theorem maxWord_lt (u : Utcb a) : u.maxWord < a.bits := by
  have hle : u.maxWord ≤ a.bits - 1 := Nat.min_le_right _ _
  have hbits : 0 < a.bits := by cases a <;> decide
  omega

theorem forEachWord_bounded (h : forEachWord fnRead fnWrite fuel u s = some (u', r)) : Bounded u u' r := by
  obtain ⟨hruns, rfl⟩ := runs_of_forEachWord h
  refine ⟨fun e he => (hruns.inside e he).2, fun k hk => hruns.kept hk, ?_, fun j hj => ?_⟩
  · exact lt_of_le_of_lt (hruns.length_ops.trans (Nat.sub_le _ _)) u.maxWord_lt
  · rw [hruns.mask hj, Runs.MaskBit]
    simp

variable (fnRead fnWrite)

/-- The loop ends and stays inside for all words, in both sizes. The operations are those
that the words make up if and only if the machine has 64 bits or the first read is the
last operation. -/
theorem forEachWord_sound_iff (u : Utcb a) (s : σ) :
    ((∃ fuel u' r, forEachWord fnRead fnWrite fuel u s = some (u', r) ∧ Sound u u' r) ↔ ReadsLast u.mr u.maxWord 0) ∧
      (∃ u' r, forEachWord fnRead fnWrite (u.maxWord + 1) u s = some (u', r)) ∧
      ∀ fuel u' r, forEachWord fnRead fnWrite fuel u s = some (u', r) → Bounded u u' r := by
  have htotal : ∃ u' r, forEachWord fnRead fnWrite (u.maxWord + 1) u s = some (u', r) := by
    have hloop : ∃ r, forEachWordLoop fnRead fnWrite u.maxWord (u.maxWord + 1) 0 0 u.mr 0 s = some r :=
      loop_total 0 u.mr 0 s (Nat.zero_add u.maxWord).ge
    obtain ⟨r, hr⟩ := hloop
    exact ⟨_, r, by rw [forEachWord, hr]; rfl⟩
  refine ⟨⟨?_, fun hlast => ?_⟩, htotal, fun fuel u' r h => forEachWord_bounded h⟩
  · rintro ⟨fuel, u', r, hrun, hsound⟩
    exact (runs_of_forEachWord hrun).1.readsLast hsound.parsed
  · obtain ⟨u', r, hrun⟩ := htotal
    obtain ⟨hparsed, hapart⟩ := (runs_of_forEachWord hrun).1.sound hlast
    exact ⟨_, u', r, hrun, forEachWord_bounded hrun, hparsed, hapart⟩

end Whole

def twoReads : Utcb .i386 := ⟨4#32, fun i => if i = 0 then 0xe8#32 else if i = 2 then 0xe7#32 else 0#32⟩

def readSeven (s : Unit) (msr : BitVec 64) : Bool × BitVec 64 × Unit :=
  (msr == 0xe7#64 || msr == 0xe8#64, 7#64, s)

/-- The words hold two operations; the loop sees three, and the second one fails. -/
theorem twoReads_not_sound :
    Parses twoReads.mr 4 0 [.read 0 0xe8#64, .read 2 0xe7#64] ∧
      (forEachWord readSeven (fun s _ _ => (false, s)) 5 twoReads ()).map (fun p => (p.1.items.toNat, p.2.ops)) =
        some (5, [(.read 0 0xe8#64, true), (.read 1 0#64, false), (.read 2 0xe7#64, true)]) ∧
      ¬ ∃ fuel u' r, forEachWord readSeven (fun s _ _ => (false, s)) fuel twoReads () = some (u', r) ∧
        Sound twoReads u' r := by
  refine ⟨?_, by decide +kernel, ?_⟩
  · exact .read (by decide) (by decide) (.read (by decide) (by decide) (.stop (by decide)))
  · rintro ⟨fuel, u', r, hrun, hsound⟩
    have hlast := (runs_of_forEachWord hrun).1.readsLast hsound.parsed
    have hmax : 4 ≤ 2 := hlast rfl 0 (fun n hn => absurd hn (Nat.not_lt_zero n)) (by decide)
    exact absurd hmax (by decide)

end Utcb

end Tukija
