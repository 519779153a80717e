import Tukija.Sm.State

/-! What a semaphore counts: every `up` wakes one EC or leaves a token, and every token
is taken once. -/
namespace Tukija.Sm

open Tukija.Lib.Word

variable {ι E S : Type}

/-- The CPU is inside of `reset` in `dn`. -/
def Pc.locks : Pc E S → Bool
  | .read _ _ => true
  | .write _ _ _ => true
  | _ => false

/-- `Q` are the ECs that wait and `P` the sources in the queue. -/
structure Kept (s : Machine ι E S) (Q : List E) (P : List S) : Prop where
  ec : Queued s.ecHead s.ecLinks Q
  si : Queued s.siHead s.siLinks P
  idle : s.counter ≠ 0 → Q = []
  lock : ∀ i, s.lock = some i ↔ (s.pc i).locks = true

section Turns

variable [DecidableEq ι] {s t : Machine ι E S} {Q Q' : List E} {P P' : List S} {i : ι} {p : Pc E S}

theorem Kept.goto (hk : Kept s Q P)
    (hpc : t.pc = Function.update s.pc i p) (hl : t.lock = s.lock) (hp : p.locks = (s.pc i).locks)
    (hec : Queued t.ecHead t.ecLinks Q') (hsi : Queued t.siHead t.siLinks P')
    (hidle : t.counter ≠ 0 → Q' = []) : Kept t Q' P' := by
  refine ⟨hec, hsi, hidle, ?_⟩
  rw [hpc, hl]
  apply (Function.forall_update_iff s.pc fun j q => s.lock = some j ↔ q.locks = true).mpr
  refine ⟨?_, fun j _ => hk.lock j⟩
  rw [hp]
  exact hk.lock i

theorem Kept.turn (hk : Kept s Q P)
    (hpc : t.pc = Function.update s.pc i p) (hs : s.lock = none ∨ s.lock = some i)
    (hl : t.lock = if p.locks then some i else none) (hec : Queued t.ecHead t.ecLinks Q')
    (hsi : Queued t.siHead t.siLinks P') (hidle : t.counter ≠ 0 → Q' = []) : Kept t Q' P' := by
  refine ⟨hec, hsi, hidle, ?_⟩
  rw [hpc]
  apply (Function.forall_update_iff s.pc fun j q => t.lock = some j ↔ q.locks = true).mpr
  constructor
  · rw [hl]
    split
    · simpa
    · rename_i hp
      simpa using hp
  · intro j hj
    have hother : s.lock ≠ some j := by
      rcases hs with hs | hs
      · simp [hs]
      · rw [hs]
        exact fun h => hj (Option.some.inj h).symm
    have hpj : (s.pc j).locks ≠ true := fun h => hother ((hk.lock j).mpr h)
    constructor
    · intro h
      rw [hl] at h
      split at h
      · exact absurd (Option.some.inj h).symm hj
      · simp at h
    · exact fun h => absurd h hpj

theorem Kept.leave (hk : Kept s Q P) {b : Caller} {d : Done E S} (hpc : t.pc = s.pc) (hl : t.lock = s.lock) (hp : (s.pc i).locks = false)
    (hec : Queued t.ecHead t.ecLinks Q') (hsi : Queued t.siHead t.siLinks P')
    (hidle : t.counter ≠ 0 → Q' = []) : Kept (t.leave i b d) Q' P' := by
  refine hk.goto (i := i) (p := b.pc) ?_ hl ?_ hec hsi hidle
  · rw [← hpc]
    rfl
  · rw [hp]
    cases b <;> rfl

end Turns

namespace Machine

def fresh (s : Machine ι E S) (i : ι) (a : Act E S) : Bool :=
  match a, s.pc i with
  | .step, .dn _ e =>
    s.lock.isSome || s.counter != 0 || s.ref e == 0 || (s.ecLinks.next e).isNone
  | _, _ => true

def bounded (s : Machine ι E S) (i : ι) (a : Act E S) : Bool :=
  match a, s.pc i with
  | .step, .up _ si _ =>
    s.lock.isSome || s.ecHead.isSome || si.any (fun x => (s.siLinks.next x).isSome) ||
      s.counter != BitVec.allOnes 64
  | _, _ => true

theorem fresh_dn {s : Machine ι E S} {i : ι} {zero : Bool} {e : E} (h : s.fresh i .step = true)
    (hp : s.pc i = .dn zero e) (hl : s.lock = none) (hc : s.counter = 0) (hr : s.ref e ≠ 0) :
    s.ecLinks.next e = none := by
  unfold fresh at h
  simp only [hp] at h
  have h' : s.ref e = 0 ∨ s.ecLinks.next e = none := by simpa [hl, hc] using h
  exact h'.resolve_left hr

theorem bounded_up {s : Machine ι E S} {i : ι} {b : Caller} {si : Option S} {woke : List E}
    (h : s.bounded i .step = true) (hp : s.pc i = .up b si woke) (hl : s.lock = none)
    (hh : s.ecHead = none) (hsi : ∀ x, si = some x → s.siLinks.next x = none) :
    s.counter ≠ BitVec.allOnes 64 := by
  unfold bounded at h
  simp only [hp] at h
  cases si with
  | none => simpa [hl, hh] using h
  | some x => simpa [hl, hh, hsi x rfl] using h

end Machine

section Steps

variable [DecidableEq ι] [DecidableEq E] [DecidableEq S] {s : Machine ι E S} {Q : List E} {P : List S} {i : ι}

theorem Kept.stepDn_cases (hk : Kept s Q P) (zero : Bool) {e : E}
    (hfit : s.lock = none → s.counter = 0 → s.ref e ≠ 0 → s.ecLinks.next e = none) :
    s.lock ≠ none ∧ s.stepDn i zero e = s ∨
    s.lock = none ∧ s.counter ≠ 0 ∧ P = [] ∧ s.stepDn i zero e = (s.taken zero).goto i .out ∨
    (s.lock = none ∧ s.counter ≠ 0 ∧ ∃ x P' h k, P = x :: P' ∧ Queued h k P' ∧ s.stepDn i zero e =
      { s.taken zero with siHead := h, siLinks := k, lock := some i }.goto i (.read e x)) ∨
    s.lock = none ∧ s.counter = 0 ∧ s.stepDn i zero e = s.goto i .out ∨
    (s.lock = none ∧ s.counter = 0 ∧ ∃ h k, Queued h k (Q ++ [e]) ∧ s.stepDn i zero e =
      { s with ref := Function.update s.ref e (s.ref e + 1), ecHead := h, ecLinks := k }.goto i
        .out) := by
  unfold Machine.stepDn
  by_cases hl : s.lock = none
  · rw [if_neg (not_not.mpr hl)]
    by_cases hc : s.counter = 0
    · rw [if_neg (not_not.mpr hc)]
      by_cases hr : s.ref e = 0
      · rw [if_pos hr]
        exact .inr (.inr (.inr (.inl ⟨hl, hc, rfl⟩)))
      · rw [if_neg hr]
        exact .inr (.inr (.inr (.inr ⟨hl, hc, _, _, hk.ec.enqueue (hk.ec.notMem (hfit hl hc hr)), rfl⟩)))
    · rw [if_pos hc]
      cases P with
      | nil =>
        rw [show s.siHead = none from hk.si.head]
        exact .inr (.inl ⟨hl, hc, rfl, rfl⟩)
      | cons x P =>
        obtain ⟨hh, h, k, hd, hq⟩ := hk.si.dequeue_head
        rw [hd, hh]
        exact .inr (.inr (.inl ⟨hl, hc, x, P, h, k, rfl, hq, rfl⟩))
  · exact .inl ⟨hl, if_pos hl⟩

theorem Kept.stepUp_cases (hk : Kept s Q P) (b : Caller) (si : Option S) (woke : List E) :
    s.lock ≠ none ∧ s.stepUp i b si woke = s ∨
    (s.lock = none ∧ ∃ e Q' h k, Q = e :: Q' ∧ Queued h k Q' ∧ s.stepUp i b si woke =
      { s with ecHead := h, ecLinks := k }.goto i (match si with
        | some x => .reset b x woke e
        | none => .release b none woke e 0)) ∨
    (s.lock = none ∧ Q = [] ∧ ∃ x, si = some x ∧ x ∈ P ∧
      s.stepUp i b si woke = s.leave i b ⟨si, woke, 0⟩) ∨
    (s.lock = none ∧ Q = [] ∧ ∃ x h k, si = some x ∧ x ∉ P ∧ s.siLinks.next x = none ∧
      Queued h k (P ++ [x]) ∧ s.stepUp i b si woke =
        { s.counted with siHead := h, siLinks := k }.leave i b ⟨si, woke, 1⟩) ∨
    s.lock = none ∧ Q = [] ∧ si = none ∧ s.stepUp i b si woke = s.counted.leave i b ⟨si, woke, 1⟩ := by
  unfold Machine.stepUp
  by_cases hl : s.lock = none
  · rw [if_neg (not_not.mpr hl)]
    cases Q with
    | nil =>
      rw [show s.ecHead = none from hk.ec.head]
      cases si with
      | none => exact .inr (.inr (.inr (.inr ⟨hl, rfl, rfl, rfl⟩)))
      | some x =>
        dsimp only
        by_cases hx : x ∈ P
        · rw [if_pos (hk.si.linked x hx).1]
          exact .inr (.inr (.inl ⟨hl, rfl, x, rfl, hx, rfl⟩))
        · have hn := (hk.si.free x hx).1
          rw [if_neg (not_not.mpr hn)]
          exact .inr (.inr (.inr (.inl ⟨hl, rfl, x, _, _, rfl, hx, hn, hk.si.enqueue hx, rfl⟩)))
    | cons e Q =>
      obtain ⟨hh, h, k, hd, hq⟩ := hk.ec.dequeue_head
      rw [hd, hh]
      exact .inr (.inl ⟨hl, e, Q, h, k, rfl, hq, rfl⟩)
  · exact .inl ⟨hl, if_pos hl⟩

theorem Kept.step (hk : Kept s Q P) (hfresh : s.fresh i .step = true) : ∃ Q' P', Kept (s.step i) Q' P' := by
  unfold Machine.step
  cases hp : s.pc i with
  | out => exact ⟨Q, P, hk⟩
  | dn zero e =>
    rcases hk.stepDn_cases (i := i) zero (Machine.fresh_dn hfresh hp) with ⟨-, h⟩ | ⟨hl, hc, -, h⟩ |
      ⟨hl, hc, x, P', l, k, rfl, hq, h⟩ | ⟨hl, hc, h⟩ | ⟨hl, hc, l, k, hq, h⟩
    · dsimp only
      rw [h]
      exact ⟨Q, P, hk⟩
    · dsimp only
      rw [h]
      exact ⟨Q, P, hk.goto rfl rfl (by rw [hp]; rfl) hk.ec hk.si fun _ => hk.idle hc⟩
    · dsimp only
      rw [h]
      exact ⟨Q, P', hk.turn rfl (.inl hl) rfl hk.ec hq fun _ => hk.idle hc⟩
    · dsimp only
      rw [h]
      exact ⟨Q, P, hk.goto rfl rfl (by rw [hp]; rfl) hk.ec hk.si hk.idle⟩
    · dsimp only
      rw [h]
      exact ⟨Q ++ [e], P, hk.goto rfl rfl (by rw [hp]; rfl) hq hk.si fun h => absurd hc h⟩
  | read e x => exact ⟨Q, P, hk.goto rfl rfl (by rw [hp]; rfl) hk.ec hk.si hk.idle⟩
  | write e x c =>
    have hl : s.lock = some i := (hk.lock i).mpr (by rw [hp]; rfl)
    exact ⟨Q, P, hk.turn rfl (.inr hl) rfl hk.ec hk.si hk.idle⟩
  | submit x => exact ⟨Q, P, hk.goto rfl rfl (by rw [hp]; rfl) hk.ec hk.si hk.idle⟩
  | up b si woke =>
    have hpl : (s.pc i).locks = false := by rw [hp]; rfl
    rcases hk.stepUp_cases (i := i) b si woke with ⟨-, h⟩ | ⟨-, e, Q', l, k, rfl, hq, h⟩ |
      ⟨-, -, x, -, -, h⟩ | ⟨-, rfl, x, l, k, -, -, -, hq, h⟩ | ⟨-, rfl, -, h⟩
    · dsimp only
      rw [h]
      exact ⟨Q, P, hk⟩
    · dsimp only
      rw [h]
      refine ⟨Q', P, hk.goto rfl rfl ?_ hq hk.si fun hc => absurd (hk.idle hc) (by simp)⟩
      rw [hpl]
      cases si <;> rfl
    · dsimp only
      rw [h]
      exact ⟨Q, P, hk.leave rfl rfl hpl hk.ec hk.si hk.idle⟩
    · dsimp only
      rw [h]
      exact ⟨[], P ++ [x], hk.leave rfl rfl hpl hk.ec hq fun _ => rfl⟩
    · dsimp only
      rw [h]
      exact ⟨[], P, hk.leave rfl rfl hpl hk.ec hk.si fun _ => rfl⟩
  | reset b x woke e => exact ⟨Q, P, hk.goto rfl rfl (by rw [hp]; rfl) hk.ec hk.si hk.idle⟩
  | release b si woke e c =>
    dsimp only
    unfold Machine.stepRelease
    split
    · cases si with
      | none => exact ⟨Q, P, hk.goto rfl rfl (by rw [hp]; rfl) hk.ec hk.si hk.idle⟩
      | some x => exact ⟨Q, P, hk.goto rfl rfl (by rw [hp]; rfl) hk.ec hk.si hk.idle⟩
    · exact ⟨Q, P, hk.leave rfl rfl (by rw [hp]; rfl) hk.ec hk.si hk.idle⟩
  | dtor =>
    refine ⟨Q, P, hk.goto rfl rfl ?_ hk.ec hk.si hk.idle⟩
    rw [hp]
    split <;> rfl
  | timeout e =>
    dsimp only
    split
    · exact ⟨Q, P, hk⟩
    · by_cases he : e ∈ Q
      · obtain ⟨-, hq⟩ := hk.ec.dequeue he
        refine ⟨Q.erase e, P, hk.goto rfl rfl (by rw [hp]; rfl) hq hk.si fun hc => ?_⟩
        rw [hk.idle hc]
        rfl
      · rw [hk.ec.dequeue_none he]
        exact ⟨Q, P, hk.goto rfl rfl (by rw [hp]; rfl) hk.ec hk.si hk.idle⟩

theorem act_cases (s : Machine ι E S) (i : ι) (a : Act E S) :
    a = .step ∧ s.act i a = s.step i ∨
    (∃ e r, s.act i a = { s with ref := Function.update s.ref e r }) ∨
    (s.pc i = .out ∧ ∃ p, s.act i a = s.goto i p ∧
      (p = .up .sys none [] ∨ p = .dtor ∨ (∃ zero e, p = .dn zero e) ∨ (∃ x, p = .submit x) ∨
        ∃ e, p = .timeout e)) ∨
    s.act i a = s := by
  unfold Machine.act
  split
  · exact .inl ⟨rfl, rfl⟩
  · exact .inr (.inl ⟨_, _, rfl⟩)
  · exact .inr (.inr (.inl ⟨‹_›, _, rfl, .inr (.inr (.inl ⟨_, _, rfl⟩))⟩))
  · exact .inr (.inr (.inl ⟨‹_›, _, rfl, .inl rfl⟩))
  · exact .inr (.inr (.inl ⟨‹_›, _, rfl, .inr (.inr (.inr (.inl ⟨_, rfl⟩)))⟩))
  · exact .inr (.inr (.inl ⟨‹_›, _, rfl, .inr (.inr (.inr (.inr ⟨_, rfl⟩)))⟩))
  · exact .inr (.inr (.inl ⟨‹_›, _, rfl, .inr (.inl rfl)⟩))
  · exact .inr (.inr (.inr rfl))

theorem Kept.act {a : Act E S} (hk : Kept s Q P) (hfresh : s.fresh i a = true) :
    ∃ Q' P', Kept (s.act i a) Q' P' := by
  rcases act_cases s i a with ⟨rfl, h⟩ | ⟨e, r, h⟩ | ⟨hp, p, h, hcases⟩ | h
  · rw [h]
    exact hk.step hfresh
  · rw [h]
    exact ⟨Q, P, hk.ec, hk.si, hk.idle, hk.lock⟩
  · rw [h]
    refine ⟨Q, P, hk.goto rfl rfl ?_ hk.ec hk.si hk.idle⟩
    rw [hp]
    rcases hcases with rfl | rfl | ⟨_, _, rfl⟩ | ⟨_, rfl⟩ | ⟨_, rfl⟩ <;> rfl
  · rw [h]
    exact ⟨Q, P, hk⟩

end Steps

/-- The ECs that the running `up` of a CPU has woken. -/
def Pc.woke : Pc E S → List E
  | .up _ _ woke => woke
  | .reset _ _ woke _ => woke
  | .release _ _ woke _ _ => woke
  | _ => []

/-- What has come into the semaphore is what has gone out and what is left. -/
structure Tally (cnt : Mword) (s : Machine ι E S) : Prop where
  total : cnt.toNat + s.ups = s.downs + s.dropped + s.counter.toNat
  log : ∀ d ∈ s.log, d.si = none →
    (∃ e, d.woke = [e]) ∧ d.inc = 0 ∨ d.woke = [] ∧ d.inc = 1
  woke : ∀ i, (s.pc i).woke = []

section Tally

variable {cnt : Mword} {s t : Machine ι E S} {Q : List E} {P : List S} {i : ι} {p : Pc E S}

theorem toNat_add_one {v : Mword} (h : v ≠ BitVec.allOnes 64) : (v + 1).toNat = v.toNat + 1 := by
  have hlt := v.isLt
  have hne : v.toNat ≠ 2 ^ 64 - 1 := by
    intro heq
    apply h
    apply BitVec.eq_of_toNat_eq
    rw [heq, BitVec.toNat_allOnes]
  rw [BitVec.toNat_add, show (1 : Mword).toNat = 1 from rfl]
  omega

theorem toNat_sub_one {v : Mword} (h : v ≠ 0) : (v - 1).toNat = v.toNat - 1 ∧ 0 < v.toNat := by
  have hlt := v.isLt
  have hpos : v.toNat ≠ 0 := fun heq => h (BitVec.eq_of_toNat_eq heq)
  rw [BitVec.toNat_sub, show (1 : Mword).toNat = 1 from rfl]
  omega

theorem Tally.taken (ht : Tally cnt s) (hc : s.counter ≠ 0) (zero : Bool) :
    cnt.toNat + (s.taken zero).ups =
      (s.taken zero).downs + (s.taken zero).dropped + (s.taken zero).counter.toNat := by
  obtain ⟨hsub, hpos⟩ := toNat_sub_one hc
  have htotal := ht.total
  cases zero with
  | false =>
    show cnt.toNat + s.ups = s.downs + 1 + (s.dropped + 0) + (s.counter - 1).toNat
    omega
  | true =>
    show cnt.toNat + s.ups = s.downs + 1 + (s.dropped + (s.counter.toNat - 1)) + 0
    omega

theorem Tally.counted (ht : Tally cnt s) (hc : s.counter ≠ BitVec.allOnes 64) :
    cnt.toNat + s.counted.ups = s.counted.downs + s.counted.dropped + s.counted.counter.toNat := by
  have htotal := ht.total
  show cnt.toNat + (s.ups + 1) = s.downs + s.dropped + (s.counter + 1).toNat
  rw [toNat_add_one hc]
  omega

variable [DecidableEq ι]

theorem Tally.goto (ht : Tally cnt s) (hpc : t.pc = Function.update s.pc i p) (hp : p.woke = [])
    (hlog : t.log = s.log) (htotal : cnt.toNat + t.ups = t.downs + t.dropped + t.counter.toNat) :
    Tally cnt t := by
  refine ⟨htotal, by rw [hlog]; exact ht.log, ?_⟩
  rw [hpc]
  exact (Function.forall_update_iff s.pc fun _ q => q.woke = []).mpr ⟨hp, fun j _ => ht.woke j⟩

theorem Tally.leave {b : Caller} {d : Done E S} (ht : Tally cnt s) (hpc : t.pc = s.pc)
    (hlog : t.log = s.log) (htotal : cnt.toNat + t.ups = t.downs + t.dropped + t.counter.toNat)
    (hd : d.si = none → (∃ e, d.woke = [e]) ∧ d.inc = 0 ∨ d.woke = [] ∧ d.inc = 1) :
    Tally cnt (t.leave i b d) := by
  refine ⟨htotal, ?_, ?_⟩
  · intro d' hd'
    rcases List.mem_cons.mp hd' with rfl | hd'
    · exact hd
    · rw [hlog] at hd'
      exact ht.log d' hd'
  · show ∀ j, (Function.update t.pc i b.pc j).woke = []
    rw [hpc]
    apply (Function.forall_update_iff s.pc fun _ q => q.woke = []).mpr
    refine ⟨?_, fun j _ => ht.woke j⟩
    cases b <;> rfl

variable [DecidableEq E] [DecidableEq S]

theorem Tally.step (ht : Tally cnt s) (hk : Kept s Q P) (hfresh : s.fresh i .step = true)
    (hbound : s.bounded i .step = true) : Tally cnt (s.step i) := by
  unfold Machine.step
  have hwoke := ht.woke i
  cases hp : s.pc i with
  | out => exact ht
  | dn zero e =>
    dsimp only
    rcases hk.stepDn_cases (i := i) zero (Machine.fresh_dn hfresh hp) with ⟨-, h⟩ | ⟨-, hc, -, h⟩ |
      ⟨-, hc, x, P', l, k, -, -, h⟩ | ⟨-, -, h⟩ | ⟨-, -, l, k, -, h⟩
    · rw [h]
      exact ht
    · rw [h]
      exact ht.goto rfl rfl rfl (ht.taken hc zero)
    · rw [h]
      exact ht.goto rfl rfl rfl (ht.taken hc zero)
    · rw [h]
      exact ht.goto rfl rfl rfl ht.total
    · rw [h]
      exact ht.goto rfl rfl rfl ht.total
  | read e x => exact ht.goto rfl rfl rfl ht.total
  | write e x c => exact ht.goto rfl rfl rfl ht.total
  | submit x => exact ht.goto rfl rfl rfl ht.total
  | up b si woke =>
    rw [hp] at hwoke
    obtain rfl : woke = [] := hwoke
    dsimp only
    rcases hk.stepUp_cases (i := i) b si [] with ⟨-, h⟩ | ⟨-, e, Q', l, k, -, -, h⟩ |
      ⟨-, -, x, rfl, -, h⟩ | ⟨hl, rfl, x, l, k, rfl, -, hn, -, h⟩ | ⟨hl, rfl, rfl, h⟩
    · rw [h]
      exact ht
    · rw [h]
      refine ht.goto rfl ?_ rfl ht.total
      cases si <;> rfl
    · rw [h]
      exact ht.leave rfl rfl ht.total (by simp)
    · have hc := Machine.bounded_up hbound hp hl hk.ec.head fun y hy => by
        rw [← Option.some.inj hy]
        exact hn
      rw [h]
      exact ht.leave rfl rfl (ht.counted hc) (by simp)
    · have hc := Machine.bounded_up hbound hp hl hk.ec.head (by simp)
      rw [h]
      exact ht.leave rfl rfl (ht.counted hc) fun _ => .inr ⟨rfl, rfl⟩
  | reset b x woke e =>
    rw [hp] at hwoke
    exact ht.goto rfl hwoke rfl ht.total
  | release b si woke e c =>
    rw [hp] at hwoke
    obtain rfl : woke = [] := hwoke
    dsimp only
    unfold Machine.stepRelease
    split
    · cases si with
      | none => exact ht.goto rfl rfl rfl ht.total
      | some x => exact ht.goto rfl rfl rfl ht.total
    · have htotal := ht.total
      refine ht.leave rfl rfl ?_ fun _ => .inl ⟨⟨e, rfl⟩, rfl⟩
      show cnt.toNat + (s.ups + 1) = s.downs + 1 + s.dropped + s.counter.toNat
      omega
  | dtor =>
    refine ht.goto rfl ?_ rfl ht.total
    split <;> rfl
  | timeout e =>
    dsimp only
    split
    · exact ht
    · exact ht.goto rfl rfl rfl ht.total

theorem Tally.act {a : Act E S} (ht : Tally cnt s) (hk : Kept s Q P) (hfresh : s.fresh i a = true)
    (hbound : s.bounded i a = true) : Tally cnt (s.act i a) := by
  rcases act_cases s i a with ⟨rfl, h⟩ | ⟨e, r, h⟩ | ⟨-, p, h, hcases⟩ | h
  · rw [h]
    exact ht.step hk hfresh hbound
  · rw [h]
    exact ⟨ht.total, ht.log, ht.woke⟩
  · rw [h]
    refine ht.goto rfl ?_ rfl ht.total
    rcases hcases with rfl | rfl | ⟨_, _, rfl⟩ | ⟨_, rfl⟩ | ⟨_, rfl⟩ <;> rfl
  · rw [h]
    exact ht

end Tally

section Runs

theorem kept_create (cnt : Mword) (value : S → Mword) (regs : E → Mword × Mword) :
    Kept (Machine.create cnt value regs : Machine ι E S) [] [] := by
  refine ⟨queued_null, queued_null, fun _ => rfl, ?_⟩
  simp [Machine.create, Pc.locks]

theorem tally_create (cnt : Mword) (value : S → Mword) (regs : E → Mword × Mword) :
    Tally cnt (Machine.create cnt value regs : Machine ι E S) := by
  refine ⟨?_, ?_, ?_⟩ <;> simp [Machine.create, Pc.woke]

variable [DecidableEq ι] [DecidableEq E] [DecidableEq S]

/-- The CPU, alone, comes to the end of the destructor, and nobody waits then. -/
def Drains (s : Machine ι E S) (i : ι) : Prop :=
  ∃ n, (s.after (List.replicate n (i, .step))).pc i = .out ∧
    (s.after (List.replicate n (i, .step))).ecHead = none

variable {s : Machine ι E S} {Q : List E} {P : List S} {i : ι}

theorem act_step (s : Machine ι E S) (i : ι) : s.act i .step = s.step i := by
  unfold Machine.act
  split <;> simp_all

theorem Drains.step (h : Drains (s.step i) i) : Drains s i := by
  obtain ⟨n, h⟩ := h
  refine ⟨n + 1, ?_⟩
  rw [List.replicate_succ]
  show ((s.act i .step).after _).pc i = .out ∧ ((s.act i .step).after _).ecHead = none
  rw [act_step]
  exact h

theorem drains_out (hp : s.pc i = .out) (hh : s.ecHead = none) : Drains s i := ⟨0, hp, hh⟩

theorem step_dtor (hp : s.pc i = .dtor) :
    s.step i = s.goto i (if s.counter ≠ 0 then .out else .up .dtor none []) := by
  unfold Machine.step
  rw [hp]

theorem Kept.drains_up {woke : List E} (hk : Kept s Q P) (hl : s.lock = none)
    (hp : s.pc i = .up .dtor none woke) (hc : s.counter = 0) : Drains s i := by
  induction Q generalizing s woke with
  | nil =>
    have hup : s.step i = s.counted.leave i .dtor ⟨none, woke, 1⟩ := by
      unfold Machine.step
      rw [hp]
      rcases hk.stepUp_cases (i := i) .dtor none woke with ⟨h, -⟩ | ⟨-, e, Q', l, k, hQ, -⟩ |
        ⟨-, -, x, hx, -⟩ | ⟨-, -, x, l, k, hx, -⟩ | ⟨-, -, -, h⟩
      · exact absurd hl h
      · simp at hQ
      · simp at hx
      · simp at hx
      · exact h
    -- the token that is left ends the loop
    apply Drains.step
    rw [hup]
    apply Drains.step
    have hpc : (s.counted.leave i .dtor ⟨none, woke, 1⟩).pc i = .dtor := Function.update_self _ _ _
    rw [step_dtor hpc]
    have hcount : (s.counted.leave i .dtor ⟨none, woke, 1⟩).counter = 1 := by
      show s.counter + 1 = 1
      rw [hc]
      rfl
    rw [hcount, if_pos (by decide)]
    exact drains_out (Function.update_self _ _ _) hk.ec.head
  | cons e Q ih =>
    obtain ⟨h, k, hq, hup⟩ : ∃ h k, Queued h k Q ∧
        s.step i = { s with ecHead := h, ecLinks := k }.goto i (.release .dtor none woke e 0) := by
      unfold Machine.step
      rw [hp]
      rcases hk.stepUp_cases (i := i) .dtor none woke with ⟨h, -⟩ | ⟨-, e', Q', l, k, hQ, hq, h⟩ |
        ⟨-, hQ, -⟩ | ⟨-, hQ, -⟩ | ⟨-, hQ, -⟩
      · exact absurd hl h
      · obtain ⟨rfl, rfl⟩ := List.cons.inj hQ
        exact ⟨l, k, hq, h⟩
      · simp at hQ
      · simp at hQ
      · simp at hQ
    apply Drains.step
    rw [hup]
    set t := { s with ecHead := h, ecLinks := k }.goto i (.release .dtor none woke e 0)
    have hkt : Kept t Q P := hk.goto rfl rfl (by rw [hp]; rfl) hq hk.si fun h => absurd hc h
    have hpt : t.pc i = .release .dtor none woke e 0 := Function.update_self _ _ _
    have hlt : t.lock = none := hl
    have hct : t.counter = 0 := hc
    apply Drains.step
    have hrel : t.step i = t.stepRelease i .dtor none woke e 0 := by
      unfold Machine.step
      rw [hpt]
    rw [hrel]
    unfold Machine.stepRelease
    split
    · exact ih (hkt.goto rfl rfl (by rw [hpt]; rfl) hkt.ec hkt.si hkt.idle) hlt (Function.update_self _ _ _) hct
    · set u := { t with
        ref := Function.update t.ref e (t.ref e - 1), ups := t.ups + 1, downs := t.downs + 1 }.leave i
          .dtor ⟨none, woke ++ [e], 0⟩
      have hku : Kept u Q P := hkt.leave rfl rfl (by rw [hpt]; rfl) hkt.ec hkt.si hkt.idle
      have hpu : u.pc i = .dtor := Function.update_self _ _ _
      have hcu : u.counter = 0 := hc
      apply Drains.step
      rw [step_dtor hpu, hcu, if_neg (by simp)]
      exact ih (hku.goto rfl rfl (by rw [hpu]; rfl) hku.ec hku.si hku.idle) hl (Function.update_self _ _ _) hcu

theorem Kept.drains (hk : Kept s Q P) (hl : s.lock = none) (hp : s.pc i = .dtor) : Drains s i := by
  apply Drains.step
  rw [step_dtor hp]
  by_cases hc : s.counter = 0
  · rw [if_neg (not_not.mpr hc)]
    exact Kept.drains_up (hk.goto rfl rfl (by rw [hp]; rfl) hk.ec hk.si hk.idle) hl
      (Function.update_self _ _ _) hc
  · rw [if_pos hc]
    refine drains_out (Function.update_self _ _ _) ?_
    have hh := hk.ec.head
    rw [hk.idle hc] at hh
    exact hh

structure Counting (cnt : Mword) (s : Machine ι E S) : Prop where
  idle : s.counter ≠ 0 → s.ecHead = none ∧ ∀ e, s.ecLinks.next e = none
  up : ∀ d ∈ s.log, d.si = none → (∃ e, d.woke = [e]) ∧ d.inc = 0 ∨ d.woke = [] ∧ d.inc = 1
  total : cnt.toNat + s.ups = s.downs + s.dropped + s.counter.toNat
  dtor : ∀ i, s.pc i = .dtor → (∀ j, j ≠ i → s.pc j = .out) → Drains s i

theorem Kept.counting {cnt : Mword} (hk : Kept s Q P) (ht : Tally cnt s) : Counting cnt s := by
  refine ⟨fun hc => ?_, ht.log, ht.total, fun i hp hout => hk.drains ?_ hp⟩
  · obtain rfl := hk.idle hc
    exact ⟨hk.ec.head, fun e => (hk.ec.free e (by simp)).1⟩
  · by_contra hl
    obtain ⟨j, hj⟩ := Option.ne_none_iff_exists'.mp hl
    have hlocks := (hk.lock j).mp hj
    by_cases hji : j = i
    · subst hji
      rw [hp] at hlocks
      simp [Pc.locks] at hlocks
    · rw [hout j hji] at hlocks
      simp [Pc.locks] at hlocks

/-- In every run in which nobody waits twice and no full counter gets a token, the
semaphore counts. -/
theorem meets_counting (cnt : Mword) (value : S → Mword) (regs : E → Mword × Mword)
    (acts : List (ι × Act E S))
    (h : Machine.Meets (fun s i a => s.fresh i a && s.bounded i a) (.create cnt value regs) acts) :
    Counting cnt ((Machine.create cnt value regs).after acts) := by
  obtain ⟨⟨Q, P, hk⟩, ht⟩ : (∃ Q P, Kept ((Machine.create cnt value regs).after acts) Q P) ∧
      Tally cnt ((Machine.create cnt value regs).after acts) := by
    refine h.after (J := fun s => (∃ Q P, Kept s Q P) ∧ Tally cnt s) ?_
      ⟨⟨[], [], kept_create _ _ _⟩, tally_create _ _ _⟩
    rintro s i a ⟨⟨Q, P, hk⟩, ht⟩ hC
    obtain ⟨hfresh, hbound⟩ := Bool.and_eq_true_iff.mp hC
    exact ⟨hk.act hfresh, ht.act hk hfresh hbound⟩
  exact hk.counting ht

/-- EC 0 takes the token, then both wait; EC 0 is dying when the `up` comes, and EC 1
gets it. -/
def oneDies : List (Fin 1 × Act (Fin 2) (Fin 1)) :=
  [(0, .dn true 0), (0, .step), (0, .dn false 0), (0, .step), (0, .dn false 1), (0, .step),
    (0, .refs 0 1), (0, .up), (0, .step), (0, .step), (0, .step), (0, .step)]

theorem oneDies_counting :
    Machine.Meets (fun s i a => s.fresh i a && s.bounded i a)
        (.create 2 (fun _ => 0) (fun _ => (0, 0))) oneDies ∧
      Counting 2 ((Machine.create 2 (fun _ => 0) (fun _ => (0, 0))).after oneDies) := by
  have h : Machine.Meets (fun s i a => s.fresh i a && s.bounded i a)
      (.create 2 (fun _ => 0) (fun _ => (0, 0))) oneDies := by
    decide +kernel
  exact ⟨h, meets_counting 2 _ _ oneDies h⟩

/-- `sys_create_sm` takes any count, also the largest, and the next `up` wraps it. -/
theorem full_not_counting :
    ¬Counting (BitVec.allOnes 64) ((Machine.create (BitVec.allOnes 64) (fun _ : Fin 1 => 0)
      (fun _ : Fin 1 => (0, 0)) : Machine (Fin 1) (Fin 1) (Fin 1)).after [(0, .up), (0, .step)]) := by
  intro h
  have htotal := h.total
  revert htotal
  decide +kernel

end Runs

end Tukija.Sm
