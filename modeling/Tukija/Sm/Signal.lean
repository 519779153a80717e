import Tukija.Sm.Count

/-! Signals: a source that is in the queue of a semaphore has a token there, and what is
submitted is delivered once. -/
namespace Tukija.Sm

open Tukija.Lib.Word

variable {ι E S : Type}

namespace Machine

variable [DecidableEq S]

/-- `dn` in zero mode discards no token of a source that stays in the queue. -/
def lone (s : Machine ι E S) (i : ι) (a : Act E S) : Bool :=
  match a, s.pc i with
  | .step, .dn true _ =>
    s.lock.isSome || s.counter == 0 || s.siHead.all fun x => s.siLinks.next x == some x
  | _, _ => true

/-- No CPU is between reading the counter of the source in `dn` and clearing it. -/
def unread (s : Machine ι E S) (x : S) : Bool :=
  match s.lock with
  | none => true
  | some j =>
    match s.pc j with
    | .write _ y _ => y != x
    | _ => true

/-- No step comes between those two, no counter of a source overflows, and no signal is
delivered to an EC that is dying. -/
def apart (s : Machine ι E S) (i : ι) (a : Act E S) : Bool :=
  match a, s.pc i with
  | .step, .submit x => s.unread x && s.source x != BitVec.allOnes 64
  | .step, .reset _ x _ _ => s.unread x
  | .step, .release _ si _ e c => si.isNone || c == 0 || s.ref e != 1
  | _, _ => true

theorem lone_dn {s : Machine ι E S} {i : ι} {e : E} {x : S} (h : s.lone i .step = true)
    (hp : s.pc i = .dn true e) (hl : s.lock = none) (hc : s.counter ≠ 0) (hx : s.siHead = some x) :
    s.siLinks.next x = some x := by
  unfold lone at h
  simp only [hp] at h
  have h' : s.counter = 0 ∨ s.siLinks.next x = some x := by simpa [hl, hx] using h
  exact h'.resolve_left hc

theorem unread_write {s : Machine ι E S} {x : S} (h : s.unread x = true) {j : ι} {e : E} {y : S}
    {c : Mword} (hl : s.lock = some j) (hp : s.pc j = .write e y c) : y ≠ x := by
  unfold unread at h
  simp only [hl, hp] at h
  simpa using h

end Machine

/-- The CPU is about to deliver what is in the source, or to put it into the queue. -/
def Pc.carries (x : S) : Pc E S → Prop
  | .read _ y => y = x
  | .write _ y _ => y = x
  | .up _ si _ => si = some x
  | .reset _ y _ _ => y = x
  | _ => False

/-- Every source in the queue has a token, and a source with signals is in the queue or
on its way. -/
structure Signals (s : Machine ι E S) (P : List S) : Prop where
  tokens : P.length ≤ s.counter.toNat
  pending : ∀ x, s.source x ≠ 0 → x ∈ P ∨ ∃ i, (s.pc i).carries x

section Signals

variable [DecidableEq ι] {s t : Machine ι E S} {Q : List E} {P P' : List S} {i : ι} {p : Pc E S}

/-- A CPU goes on.  What it carried and does not carry any more is in the queue, or the
source is empty. -/
theorem Signals.goto (hs : Signals s P) (hpc : t.pc = Function.update s.pc i p)
    (htokens : P'.length ≤ t.counter.toNat)
    (hsource : ∀ x, t.source x ≠ 0 → s.source x ≠ 0 ∨ p.carries x)
    (hP : ∀ x ∈ P, x ∈ P' ∨ p.carries x)
    (hcarry : ∀ x, (s.pc i).carries x → p.carries x ∨ x ∈ P' ∨ t.source x = 0) : Signals t P' := by
  refine ⟨htokens, fun x hx => ?_⟩
  have hi : p.carries x → ∃ j, (t.pc j).carries x := by
    intro h
    refine ⟨i, ?_⟩
    rw [hpc, Function.update_self]
    exact h
  rcases hsource x hx with h | h
  · rcases hs.pending x h with hmem | ⟨j, hj⟩
    · exact (hP x hmem).imp_right hi
    · by_cases hji : j = i
      · subst hji
        rcases hcarry x hj with h | h | h
        · exact .inr (hi h)
        · exact .inl h
        · exact absurd h hx
      · refine .inr ⟨j, ?_⟩
        rw [hpc, Function.update_of_ne hji]
        exact hj
  · exact .inr (hi h)

theorem Signals.emptied [DecidableEq S] {x : S} (hs : Signals s P) (hpc : t.pc = Function.update s.pc i p)
    (hc : t.counter = s.counter) (hsource : t.source = Function.update s.source x 0)
    (hcarry : ∀ y, (s.pc i).carries y → x = y) : Signals t P := by
  refine hs.goto hpc (hc ▸ hs.tokens) (fun y hy => .inl ?_) (fun _ h => .inl h) fun y hy => ?_
  · rw [hsource] at hy
    by_cases hyx : y = x
    · subst hyx
      exact absurd (Function.update_self _ _ _) hy
    · rwa [Function.update_of_ne hyx] at hy
  · obtain rfl := hcarry y hy
    rw [hsource]
    exact .inr (.inr (Function.update_self _ _ _))

variable [DecidableEq E] [DecidableEq S]

theorem Signals.stepDn {zero : Bool} {e : E} (hs : Signals s P) (hk : Kept s Q P) (hp : s.pc i = .dn zero e)
    (hfresh : s.fresh i .step = true) (hlone : s.lone i .step = true) :
    ∃ P', Queued (s.stepDn i zero e).siHead (s.stepDn i zero e).siLinks P' ∧ Signals (s.stepDn i zero e) P' := by
  have hsi := hk.si
  have hcarry : ∀ x, ¬(s.pc i).carries x := by simp [hp, Pc.carries]
  have hnone : ∀ {y : S} {R : Prop}, (s.pc i).carries y → R := fun h => absurd h (hcarry _)
  rcases hk.stepDn_cases (i := i) zero (Machine.fresh_dn hfresh hp) with ⟨-, h⟩ |
    ⟨-, hc, rfl, h⟩ | ⟨hl, hc, x, P', l, k, rfl, hq, h⟩ | ⟨-, -, h⟩ | ⟨-, -, l, k, -, h⟩
  · rw [h]
    exact ⟨P, hsi, hs⟩
  · rw [h]
    exact ⟨[], hsi, hs.goto rfl (Nat.zero_le _) (fun _ hx => .inl hx) (by simp) fun _ => hnone⟩
  · rw [h]
    refine ⟨P', hq, hs.goto rfl ?_ (fun _ hx => .inl hx) ?_ fun _ => hnone⟩
    · obtain ⟨hsub, hpos⟩ := toNat_sub_one hc
      have htokens := hs.tokens
      rw [List.length_cons] at htokens
      cases zero with
      | false =>
        show P'.length ≤ (s.counter - 1).toNat
        omega
      | true =>
        -- the source was the only one
        have hx := Machine.lone_dn hlone hp hl hc hsi.head
        have hring := hsi.ring x P' rfl
        cases P' with
        | nil => exact Nat.zero_le _
        | cons y P' =>
          have hy : x = y := (nextOf_eq hx).symm.trans hring.path.1.1
          have hnd := hring.nodup
          rw [hy] at hnd
          simp at hnd
    · intro y hy
      rcases List.mem_cons.mp hy with rfl | hy
      · exact .inr rfl
      · exact .inl hy
  · rw [h]
    exact ⟨P, hsi, hs.goto rfl hs.tokens (fun _ hx => .inl hx) (fun _ h => .inl h) fun _ => hnone⟩
  · rw [h]
    exact ⟨P, hsi, hs.goto rfl hs.tokens (fun _ hx => .inl hx) (fun _ h => .inl h) fun _ => hnone⟩

theorem Signals.stepUp {b : Caller} {si : Option S} {woke : List E} (hs : Signals s P) (hk : Kept s Q P)
    (hp : s.pc i = .up b si woke) (hbound : s.bounded i .step = true) :
    ∃ P', Queued (s.stepUp i b si woke).siHead (s.stepUp i b si woke).siLinks P' ∧
      Signals (s.stepUp i b si woke) P' := by
  have hsi := hk.si
  have hcarry : ∀ y, (s.pc i).carries y → si = some y := fun y hy => by rwa [hp] at hy
  have htokens := hs.tokens
  rcases hk.stepUp_cases (i := i) b si woke with ⟨-, h⟩ | ⟨-, e, Q', l, k, -, -, h⟩ |
    ⟨-, -, x, rfl, hx, h⟩ | ⟨hl, rfl, x, l, k, rfl, hx, hn, hq, h⟩ | ⟨hl, rfl, rfl, h⟩
  · rw [h]
    exact ⟨P, hsi, hs⟩
  · rw [h]
    refine ⟨P, hsi, hs.goto rfl hs.tokens (fun _ hx => .inl hx) (fun _ h => .inl h) fun y hy => ?_⟩
    obtain rfl := hcarry y hy
    exact .inl rfl
  · rw [h]
    refine ⟨P, hsi, hs.goto (i := i) (p := b.pc) rfl hs.tokens (fun _ hx => .inl hx)
      (fun _ h => .inl h) fun y hy => ?_⟩
    obtain rfl := Option.some.inj (hcarry y hy)
    exact .inr (.inl hx)
  · rw [h]
    refine ⟨P ++ [x], hq, hs.goto (i := i) (p := b.pc) rfl ?_ (fun _ hx => .inl hx)
      (fun y hy => .inl (List.mem_append_left _ hy)) fun y hy => ?_⟩
    · have hc := toNat_add_one (Machine.bounded_up hbound hp hl hk.ec.head fun y hy => by
        rw [← Option.some.inj hy]
        exact hn)
      show (P ++ [x]).length ≤ (s.counter + 1).toNat
      rw [List.length_append, List.length_singleton, hc]
      omega
    · obtain rfl := Option.some.inj (hcarry y hy)
      exact .inr (.inl (by simp))
  · rw [h]
    refine ⟨P, hsi, hs.goto (i := i) (p := b.pc) rfl ?_ (fun _ hx => .inl hx) (fun _ h => .inl h)
      fun y hy => ?_⟩
    · have hc := toNat_add_one (Machine.bounded_up hbound hp hl hk.ec.head (by simp))
      show P.length ≤ (s.counter + 1).toNat
      omega
    · exact absurd (hcarry y hy) (by simp)

theorem Signals.step (hs : Signals s P) (hk : Kept s Q P) (hfresh : s.fresh i .step = true)
    (hbound : s.bounded i .step = true) (hlone : s.lone i .step = true) :
    ∃ P', Queued (s.step i).siHead (s.step i).siLinks P' ∧ Signals (s.step i) P' := by
  have hsi := hk.si
  unfold Machine.step
  cases hp : s.pc i with
  | out => exact ⟨P, hsi, hs⟩
  | dn zero e => exact hs.stepDn hk hp hfresh hlone
  | read e x =>
    refine ⟨P, hsi, hs.goto rfl hs.tokens (fun _ hx => .inl hx) (fun _ h => .inl h) fun y hy => ?_⟩
    rw [hp] at hy
    exact .inl hy
  | write e x c => exact ⟨P, hsi, hs.emptied rfl rfl rfl fun y hy => by rwa [hp] at hy⟩
  | submit x =>
    refine ⟨P, hsi, hs.goto rfl hs.tokens (fun y hy => ?_) (fun _ h => .inl h) fun y hy => ?_⟩
    · by_cases hyx : y = x
      · exact .inr (congrArg some hyx.symm)
      · have heq : Function.update s.source x (s.source x + 1) y = s.source y :=
          Function.update_of_ne hyx _ _
        rw [← heq]
        exact .inl hy
    · rw [hp] at hy
      exact absurd hy (by simp [Pc.carries])
  | up b si woke => exact hs.stepUp hk hp hbound
  | reset b x woke e => exact ⟨P, hsi, hs.emptied rfl rfl rfl fun y hy => by rwa [hp] at hy⟩
  | release b si woke e c =>
    have hnone : ∀ {y : S} {R : Prop}, (s.pc i).carries y → R := fun h => by
      rw [hp] at h
      exact absurd h (by simp [Pc.carries])
    dsimp only
    unfold Machine.stepRelease
    split
    · cases si with
      | none =>
        exact ⟨P, hsi, hs.goto rfl hs.tokens (fun _ hx => .inl hx) (fun _ h => .inl h) fun _ => hnone⟩
      | some x =>
        exact ⟨P, hsi, hs.goto rfl hs.tokens (fun _ hx => .inl hx) (fun _ h => .inl h) fun _ => hnone⟩
    · exact ⟨P, hsi, hs.goto (i := i) (p := b.pc) rfl hs.tokens (fun _ hx => .inl hx)
        (fun _ h => .inl h) fun _ => hnone⟩
  | dtor =>
    refine ⟨P, hsi, hs.goto rfl hs.tokens (fun _ hx => .inl hx) (fun _ h => .inl h) fun y hy => ?_⟩
    rw [hp] at hy
    exact absurd hy (by simp [Pc.carries])
  | timeout e =>
    dsimp only
    split
    · exact ⟨P, hsi, hs⟩
    · refine ⟨P, hsi, hs.goto rfl hs.tokens (fun _ hx => .inl hx) (fun _ h => .inl h) fun y hy => ?_⟩
      rw [hp] at hy
      exact absurd hy (by simp [Pc.carries])

theorem Signals.act {a : Act E S} (hs : Signals s P) (hk : Kept s Q P) (hfresh : s.fresh i a = true)
    (hbound : s.bounded i a = true) (hlone : s.lone i a = true) :
    ∃ Q' P', Kept (s.act i a) Q' P' ∧ Signals (s.act i a) P' := by
  obtain ⟨Q', P', hk'⟩ := hk.act hfresh
  suffices h : ∃ P', Queued (s.act i a).siHead (s.act i a).siLinks P' ∧ Signals (s.act i a) P' by
    obtain ⟨P'', hq, hs'⟩ := h
    rw [hq.unique hk'.si] at hs'
    exact ⟨Q', P', hk', hs'⟩
  rcases act_cases s i a with ⟨rfl, h⟩ | ⟨e, r, h⟩ | ⟨hp, p, h, -⟩ | h
  · rw [h]
    exact hs.step hk hfresh hbound hlone
  · rw [h]
    exact ⟨P, hk.si, hs.tokens, hs.pending⟩
  · rw [h]
    refine ⟨P, hk.si, hs.goto rfl hs.tokens (fun _ hx => .inl hx) (fun _ h => .inl h) fun y hy => ?_⟩
    rw [hp] at hy
    exact absurd hy (by simp [Pc.carries])
  · rw [h]
    exact ⟨P, hk.si, hs⟩

end Signals

theorem signals_create (cnt : Mword) (value : S → Mword) (regs : E → Mword × Mword) :
    Signals (Machine.create cnt value regs : Machine ι E S) [] :=
  ⟨Nat.zero_le _, fun _ hx => absurd rfl hx⟩

/-- No signal is stuck: a source in the queue has a token, the next `dn` takes it, and
when all calls are over and a `dn` would block, no source has a signal. -/
structure Live [DecidableEq ι] [DecidableEq E] [DecidableEq S] (s : Machine ι E S) : Prop where
  token : s.siHead ≠ none → s.counter ≠ 0
  next : ∀ i zero e x, s.siHead = some x → s.lock = none → s.pc i = .dn zero e →
    (s.step i).pc i = .read e x
  empty : (∀ i, s.pc i = .out) → s.counter = 0 → ∀ x, s.source x = 0

section Live

variable [DecidableEq ι] [DecidableEq E] [DecidableEq S] {s : Machine ι E S} {Q : List E} {P : List S}

theorem Signals.live (hs : Signals s P) (hk : Kept s Q P) : Live s := by
  have htoken : s.siHead ≠ none → s.counter ≠ 0 := by
    intro hne hc
    have htokens := hs.tokens
    rw [hc] at htokens
    exact hne (hk.si.headptr_eq_none.mpr (List.length_eq_zero_iff.mp (Nat.le_zero.mp htokens)))
  refine ⟨htoken, fun i zero e x hx hl hp => ?_, fun hout hc x => ?_⟩
  · have hc := htoken (by simp [hx])
    have hstep : s.step i = s.stepDn i zero e := by
      unfold Machine.step
      rw [hp]
    rw [hstep]
    rcases hk.stepDn_cases (i := i) (e := e) zero (fun _ h => absurd h hc) with ⟨h, -⟩ |
      ⟨-, -, rfl, -⟩ | ⟨-, -, y, P', l, k, rfl, -, h⟩ | ⟨-, h, -⟩ | ⟨-, h, -⟩
    · exact absurd hl h
    · have := hk.si.head
      rw [hx] at this
      simp at this
    · have := hk.si.head
      rw [hx] at this
      obtain rfl : x = y := by simpa using this
      rw [h]
      exact Function.update_self _ _ _
    · exact absurd h hc
    · exact absurd h hc
  · by_contra hx
    rcases hs.pending x hx with hmem | ⟨i, hi⟩
    · have := List.length_pos_of_mem hmem
      have htokens := hs.tokens
      rw [hc] at htokens
      exact absurd htokens (by simpa using List.ne_nil_of_mem hmem)
    · rw [hout i] at hi
      exact hi

/-- In every run in which `dn` in zero mode finds one source at most, no signal is
stuck. -/
theorem meets_live (cnt : Mword) (value : S → Mword) (regs : E → Mword × Mword)
    (acts : List (ι × Act E S))
    (h : Machine.Meets (fun s i a => s.fresh i a && s.bounded i a && s.lone i a)
      (.create cnt value regs) acts) : Live ((Machine.create cnt value regs).after acts) := by
  obtain ⟨Q, P, hk, hs⟩ : ∃ Q P, Kept ((Machine.create cnt value regs).after acts) Q P ∧
      Signals ((Machine.create cnt value regs).after acts) P := by
    refine h.after (J := fun s => ∃ Q P, Kept s Q P ∧ Signals s P) ?_
      ⟨[], [], kept_create _ _ _, signals_create _ _ _⟩
    rintro s i a ⟨Q, P, hk, hs⟩ hC
    obtain ⟨hC, hlone⟩ := Bool.and_eq_true_iff.mp hC
    obtain ⟨hfresh, hbound⟩ := Bool.and_eq_true_iff.mp hC
    exact hs.act hk hfresh hbound hlone
  exact hs.live hk

/-- Both sources signal, and the receiver takes one after the other. -/
def bothSignal : List (Fin 1 × Act (Fin 1) (Fin 2)) :=
  [(0, .submit 0), (0, .step), (0, .step), (0, .submit 1), (0, .step), (0, .step),
    (0, .dn false 0), (0, .step), (0, .step), (0, .step), (0, .dn true 0), (0, .step), (0, .step),
    (0, .step)]

theorem bothSignal_live :
    Machine.Meets (fun s i a => s.fresh i a && s.bounded i a && s.lone i a)
        (.create 0 (fun _ => 0) (fun _ => (0, 0))) bothSignal ∧
      Live ((Machine.create 0 (fun _ => 0) (fun _ => (0, 0))).after bothSignal) := by
  have h : Machine.Meets (fun s i a => s.fresh i a && s.bounded i a && s.lone i a)
      (.create 0 (fun _ => 0) (fun _ => (0, 0))) bothSignal := by
    decide +kernel
  exact ⟨h, meets_live 0 _ _ bothSignal h⟩

/-- Two sources signal, and a `dn` in zero mode takes both tokens and one source. -/
theorem zeroDn_not_live :
    ¬Live ((Machine.create 0 (fun _ : Fin 2 => 0) (fun _ : Fin 1 => (0, 0)) :
      Machine (Fin 1) (Fin 1) (Fin 2)).after
        [(0, .submit 0), (0, .step), (0, .step), (0, .submit 1), (0, .step), (0, .step),
          (0, .dn true 0), (0, .step), (0, .step), (0, .step)]) := by
  intro h
  have htoken := h.token
  revert htoken
  decide +kernel

end Live

/-- What was submitted has been delivered or is still in the source, and a `dn` that has
read the counter of a source clears what it has read. -/
structure Conserved (s : Machine ι E S) : Prop where
  lock : ∀ i, (s.pc i).locks = true → s.lock = some i
  write : ∀ i e x c, s.pc i = .write e x c → s.source x = c
  total : ∀ x, s.submits x = s.delivered x + (s.source x).toNat
  dead : ∀ x, s.dead x = 0

theorem Conserved.unread [DecidableEq S] {s : Machine ι E S} {x : S} (h : Conserved s) (hx : s.unread x = true) {j : ι} {e : E} {y : S}
    {c : Mword} (hp : s.pc j = .write e y c) : y ≠ x :=
  Machine.unread_write hx (h.lock j (by rw [hp]; rfl)) hp

theorem Caller.pc_locks (b : Caller) : (b.pc : Pc E S).locks = false := by cases b <;> rfl

theorem Conserved.total_deliver [DecidableEq E] [DecidableEq S] {s : Machine ι E S}
    (h : Conserved s) (e : E) (x y : S) :
    s.submits y = (s.deliver e x (s.source x)).delivered y + ((s.deliver e x (s.source x)).source y).toNat := by
  have htotal := h.total y
  show s.submits y = Function.update s.delivered x (s.delivered x + (s.source x).toNat) y +
    (Function.update s.source x 0 y).toNat
  by_cases hyx : y = x
  · subst hyx
    rw [Function.update_self, Function.update_self]
    simpa using htotal
  · rw [Function.update_of_ne hyx, Function.update_of_ne hyx]
    exact htotal

section Conserved

variable [DecidableEq ι] {s t : Machine ι E S} {i : ι} {p : Pc E S}

theorem Conserved.goto (h : Conserved s) (hpc : t.pc = Function.update s.pc i p)
    (hl : t.lock = s.lock ∨ s.lock = none ∧ t.lock = some i)
    (hp : p.locks = true → t.lock = some i) (hw : ∀ e x c, p = .write e x c → s.source x = c)
    (hsource : t.source = s.source) (hsub : t.submits = s.submits) (hdel : t.delivered = s.delivered)
    (hdead : t.dead = s.dead) : Conserved t := by
  refine ⟨?_, ?_, ?_, ?_⟩
  · rw [hpc]
    apply (Function.forall_update_iff s.pc fun j q => q.locks = true → t.lock = some j).mpr
    refine ⟨hp, fun j _ hj => ?_⟩
    rcases hl with hl | ⟨hl, -⟩
    · rw [hl]
      exact h.lock j hj
    · have := h.lock j hj
      rw [hl] at this
      simp at this
  · rw [hpc, hsource]
    exact (Function.forall_update_iff s.pc fun _ q => ∀ e x c, q = .write e x c → s.source x = c).mpr
      ⟨hw, fun j _ => h.write j⟩
  · rw [hsub, hdel, hsource]
    exact h.total
  · rw [hdead]
    exact h.dead

theorem Conserved.change {x : S} [DecidableEq S] (h : Conserved s)
    (hpc : t.pc = Function.update s.pc i p) (hp : p.locks = false)
    (hl : ∀ j, j ≠ i → s.lock = some j → t.lock = some j)
    (hread : ∀ j e y c, j ≠ i → s.pc j = .write e y c → y ≠ x)
    (hsource : ∀ y, y ≠ x → t.source y = s.source y)
    (htotal : ∀ y, t.submits y = t.delivered y + (t.source y).toNat) (hdead : t.dead = s.dead) :
    Conserved t := by
  refine ⟨?_, ?_, htotal, by rw [hdead]; exact h.dead⟩
  · rw [hpc]
    apply (Function.forall_update_iff s.pc fun j q => q.locks = true → t.lock = some j).mpr
    exact ⟨fun hlocks => by simp [hp] at hlocks, fun j hj hlocks => hl j hj (h.lock j hlocks)⟩
  · rw [hpc]
    apply (Function.forall_update_iff s.pc fun _ q => ∀ e y c, q = .write e y c → t.source y = c).mpr
    refine ⟨?_, fun j hj e y c hjp => ?_⟩
    · rintro e y c rfl
      simp [Pc.locks] at hp
    · rw [hsource y (hread j e y c hj hjp)]
      exact h.write j e y c hjp

variable [DecidableEq S]

theorem Conserved.submit {x : S} (h : Conserved s) (hunread : s.unread x = true)
    (hfull : s.source x ≠ BitVec.allOnes 64) :
    Conserved ({ s with
      source := Function.update s.source x (s.source x + 1)
      submits := Function.update s.submits x (s.submits x + 1) }.goto i (.up .sys (some x) [])) := by
  refine h.change (x := x) rfl rfl (fun _ _ hl => hl) (fun j e y c _ hj => h.unread hunread hj) ?_
    (fun y => ?_) rfl
  · exact fun y hy => Function.update_of_ne hy _ _
  · have htotal := h.total y
    show Function.update s.submits x (s.submits x + 1) y =
      s.delivered y + (Function.update s.source x (s.source x + 1) y).toNat
    by_cases hyx : y = x
    · subst hyx
      rw [Function.update_self, Function.update_self, toNat_add_one hfull]
      omega
    · rw [Function.update_of_ne hyx, Function.update_of_ne hyx]
      exact htotal

variable [DecidableEq E]

theorem Conserved.stepDn (h : Conserved s) (zero : Bool) (e : E) : Conserved (s.stepDn i zero e) := by
  unfold Machine.stepDn
  split
  · exact h
  rename_i hl
  have hl' : s.lock = none := not_not.mp hl
  split
  · split
    · exact h.goto rfl (.inr ⟨hl', rfl⟩) (fun _ => rfl) (by simp) rfl rfl rfl rfl
    · exact h.goto rfl (.inl rfl) (by simp [Pc.locks]) (by simp) rfl rfl rfl rfl
  · split
    · exact h.goto rfl (.inl rfl) (by simp [Pc.locks]) (by simp) rfl rfl rfl rfl
    · exact h.goto rfl (.inl rfl) (by simp [Pc.locks]) (by simp) rfl rfl rfl rfl

theorem Conserved.write_back {e : E} {x : S} {c : Mword} (h : Conserved s) (hp : s.pc i = .write e x c) :
    Conserved ({ s.deliver e x c with lock := none }.goto i .out) := by
  have hlock := h.lock i (by rw [hp]; rfl)
  have hother : ∀ j, j ≠ i → s.lock ≠ some j := by
    intro j hj heq
    rw [hlock] at heq
    exact hj (Option.some.inj heq).symm
  obtain rfl := h.write i e x c hp
  refine h.change (x := x) rfl rfl (fun j hj hl => absurd hl (hother j hj)) ?_ ?_ (h.total_deliver e x) rfl
  · intro j e' y c' hj hjp
    exact absurd (h.lock j (by rw [hjp]; rfl)) (hother j hj)
  · exact fun y hy => Function.update_of_ne hy _ _

theorem Conserved.stepUp (h : Conserved s) (b : Caller) (si : Option S) (woke : List E) :
    Conserved (s.stepUp i b si woke) := by
  unfold Machine.stepUp
  split
  · exact h
  split
  · refine h.goto rfl (.inl rfl) ?_ ?_ rfl rfl rfl rfl
    · cases si <;> simp [Pc.locks]
    · cases si <;> simp
  · cases si with
    | none =>
      refine h.goto (i := i) (p := b.pc) rfl (.inl rfl) (by simp [b.pc_locks]) ?_ rfl rfl rfl rfl
      cases b <;> simp [Caller.pc]
    | some x =>
      dsimp only
      split
      · refine h.goto (i := i) (p := b.pc) rfl (.inl rfl) (by simp [b.pc_locks]) ?_ rfl rfl rfl rfl
        cases b <;> simp [Caller.pc]
      · refine h.goto (i := i) (p := b.pc) rfl (.inl rfl) (by simp [b.pc_locks]) ?_ rfl rfl rfl rfl
        cases b <;> simp [Caller.pc]

theorem Conserved.stepRelease {b : Caller} {si : Option S} {woke : List E} {e : E} {c : Mword} (h : Conserved s)
    (hlost : si = none ∨ c = 0 ∨ s.ref e ≠ 1) : Conserved (s.stepRelease i b si woke e c) := by
  unfold Machine.stepRelease
  split
  · rename_i hr
    cases si with
    | none => exact h.goto rfl (.inl rfl) (by simp [Pc.locks]) (by simp) rfl rfl rfl rfl
    | some x =>
      obtain rfl : c = 0 := by simpa [hr] using hlost
      refine h.goto rfl (.inl rfl) (by simp [Pc.locks]) (by simp) rfl rfl rfl ?_
      exact (congrArg (Function.update s.dead x) (Nat.add_zero _)).trans (Function.update_eq_self _ _)
  · refine h.goto (i := i) (p := b.pc) rfl (.inl rfl) (by simp [b.pc_locks]) ?_ rfl rfl rfl rfl
    cases b <;> simp [Caller.pc]

theorem Conserved.step (h : Conserved s) (hapart : s.apart i .step = true) :
    Conserved (s.step i) := by
  unfold Machine.apart at hapart
  unfold Machine.step
  cases hp : s.pc i with
  | out => exact h
  | dn zero e => exact h.stepDn zero e
  | read e x =>
    refine h.goto rfl (.inl rfl) (fun _ => h.lock i (by rw [hp]; rfl)) ?_ rfl rfl rfl rfl
    intro e' x' c' heq
    obtain ⟨-, rfl, rfl⟩ := Pc.write.inj heq
    rfl
  | write e x c => exact h.write_back hp
  | submit x =>
    simp only [hp, Bool.and_eq_true, bne_iff_ne] at hapart
    exact h.submit hapart.1 hapart.2
  | up b si woke => exact h.stepUp b si woke
  | reset b x woke e =>
    simp only [hp] at hapart
    exact h.change (x := x) rfl rfl (fun _ _ hl => hl) (fun j e y c _ hj => h.unread hapart hj)
      (fun y hy => Function.update_of_ne hy _ _) (h.total_deliver e x) rfl
  | release b si woke e c =>
    simp only [hp, Bool.or_eq_true, Option.isNone_iff_eq_none, beq_iff_eq, bne_iff_ne, or_assoc] at hapart
    exact h.stepRelease hapart
  | dtor =>
    refine h.goto rfl (.inl rfl) ?_ ?_ rfl rfl rfl rfl
    · split <;> simp [Pc.locks]
    · split <;> simp
  | timeout e =>
    dsimp only
    split
    · exact h
    · exact h.goto rfl (.inl rfl) (by simp [Pc.locks]) (by simp) rfl rfl rfl rfl

theorem Conserved.act {a : Act E S} (h : Conserved s) (hapart : s.apart i a = true) :
    Conserved (s.act i a) := by
  rcases act_cases s i a with ⟨rfl, ha⟩ | ⟨e, r, ha⟩ | ⟨-, p, ha, hcases⟩ | ha
  · rw [ha]
    exact h.step hapart
  · rw [ha]
    exact ⟨h.lock, h.write, h.total, h.dead⟩
  · rw [ha]
    refine h.goto rfl (.inl rfl) ?_ ?_ rfl rfl rfl rfl
    · rcases hcases with rfl | rfl | ⟨_, _, rfl⟩ | ⟨_, rfl⟩ | ⟨_, rfl⟩ <;> simp [Pc.locks]
    · rcases hcases with rfl | rfl | ⟨_, _, rfl⟩ | ⟨_, rfl⟩ | ⟨_, rfl⟩ <;> simp
  · rw [ha]
    exact h

/-- In every run in which nothing comes between the two halves of `reset` in `dn`, each
signal is delivered once. -/
theorem meets_conserved (cnt : Mword) (value : S → Mword) (regs : E → Mword × Mword)
    (acts : List (ι × Act E S))
    (h : Machine.Meets (fun s i a => s.apart i a) (.create cnt value regs) acts) (x : S) :
    ((Machine.create cnt value regs).after acts).submits x =
        ((Machine.create cnt value regs).after acts).delivered x +
          (((Machine.create cnt value regs).after acts).source x).toNat ∧
      ((Machine.create cnt value regs).after acts).dead x = 0 := by
  have hc : Conserved ((Machine.create cnt value regs).after acts) := by
    refine h.after (J := Conserved) (fun s i a hs hC => hs.act hC) ⟨?_, ?_, fun _ => rfl, fun _ => rfl⟩
    · simp [Machine.create, Pc.locks]
    · simp [Machine.create]
  exact ⟨hc.total x, hc.dead x⟩

/-- A second signal comes after the receiver has taken the first. -/
def twice : List (Fin 2 × Act (Fin 1) (Fin 1)) :=
  [(0, .submit 0), (0, .step), (0, .step), (1, .dn false 0), (1, .step), (1, .step), (1, .step),
    (0, .submit 0), (0, .step), (0, .step)]

theorem twice_conserved :
    Machine.Meets (fun s i a => s.apart i a) (.create 0 (fun _ => 0) (fun _ => (0, 0))) twice ∧
      ((Machine.create 0 (fun _ => 0) (fun _ => (0, 0))).after twice).submits 0 =
        ((Machine.create 0 (fun _ => 0) (fun _ => (0, 0))).after twice).delivered 0 +
          (((Machine.create 0 (fun _ => 0) (fun _ => (0, 0))).after twice).source 0).toNat ∧
        ((Machine.create 0 (fun _ => 0) (fun _ => (0, 0))).after twice).dead 0 = 0 := by
  have h : Machine.Meets (fun s i a => s.apart i a) (.create 0 (fun _ => 0) (fun _ => (0, 0))) twice := by
    decide +kernel
  exact ⟨h, meets_conserved 0 _ _ twice h 0⟩

/-- The second signal comes after `dn` has read the counter and before it clears it. -/
theorem between_not_conserved :
    ¬ (let s := (Machine.create 0 (fun _ : Fin 1 => 0) (fun _ : Fin 1 => (0, 0)) :
        Machine (Fin 2) (Fin 1) (Fin 1)).after
          [(0, .submit 0), (0, .step), (0, .step), (1, .dn false 0), (1, .step), (1, .step),
            (0, .submit 0), (0, .step), (1, .step), (0, .step)]
      s.submits 0 = s.delivered 0 + (s.source 0).toNat) := by
  decide +kernel

end Conserved

end Tukija.Sm
