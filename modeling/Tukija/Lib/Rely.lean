import Tukija.Lib.Interleave

/-! Proof outlines for threads that share a memory: what a thread knows before
each of its instructions, on what it relies there, and what it has put out of
order and still has to repair. -/
namespace Tukija.Lib.Threads

/-- The terms on which a thread runs: what is granted when it executes an
instruction, and what the others may do while the instruction is its next one. -/
structure Terms (I : Type → Type) (σ : Type) where
  own : {β : Type} → I β → σ → Prop
  rely : {β : Type} → I β → σ → σ → Prop

/-- What the threads are to achieve: each instruction is executed only where it
is `ok`, and at the end nothing is `bad`. -/
structure Goal (I : Type → Type) (σ X : Type) where
  run : {β : Type} → I β → σ → β × σ
  ok : {β : Type} → I β → σ → Prop
  bad : X → σ → Prop

namespace Prog

variable {I : Type → Type} {E α β σ X : Type}

/-- From a memory as `A` says, with the debts `D`, the program ends with a
memory as `Q` says and at most the debts `D'`. -/
def Sat (g : Goal I σ X) (w : Terms I σ) (Q : α → σ → Prop) (D' : Set X) :
    Prog I E α → (σ → Prop) → Set X → Prop
  | .pure a, A, D => (∀ s, A s → Q a s) ∧ D ⊆ D'
  | .fault _, _, _ => True
  | .step i k, A, D =>
    ∃ B : σ → Prop, (∀ s, A s → B s) ∧ (∀ s s', B s → w.rely i s s' → B s') ∧
      (∀ s, B s → w.own i s → g.ok i s) ∧
      ∀ b, ∃ D1 : Set X,
        (∀ s, B s → w.own i s → (g.run i s).1 = b →
          ∀ x, g.bad x (g.run i s).2 → x ∈ D1 ∨ g.bad x s ∧ x ∉ D) ∧
        Sat g w Q D' (k b) (fun s' => ∃ s, B s ∧ w.own i s ∧ g.run i s = (b, s')) D1

variable {g : Goal I σ X} {w : Terms I σ} {Q Q' : α → σ → Prop} {A A' : σ → Prop} {D D' D1 : Set X}

theorem Sat.mono {p : Prog I E α} (h : p.Sat g w Q D' A D) (hA : ∀ s, A' s → A s) (hD : D1 ⊆ D) :
    p.Sat g w Q D' A' D1 := by
  cases p with
  | pure a => exact ⟨fun s hs => h.1 s (hA s hs), hD.trans h.2⟩
  | fault e => trivial
  | step i k =>
    obtain ⟨B, hB, hstable, hok, hrest⟩ := h
    refine ⟨B, fun s hs => hB s (hA s hs), hstable, hok, fun b => ?_⟩
    obtain ⟨D2, hbad, hk⟩ := hrest b
    refine ⟨D2, fun s hs ho hb x hx => ?_, hk⟩
    exact (hbad s hs ho hb x hx).imp_right fun h => ⟨h.1, fun hx => h.2 (hD hx)⟩

theorem Sat.post {p : Prog I E α} (h : p.Sat g w Q D' A D) (hQ : ∀ a s, Q a s → Q' a s) :
    p.Sat g w Q' D' A D := by
  induction p generalizing A D with
  | pure a => exact ⟨fun s hs => hQ a s (h.1 s hs), h.2⟩
  | fault e => trivial
  | step i k ih =>
    obtain ⟨B, hB, hstable, hok, hrest⟩ := h
    refine ⟨B, hB, hstable, hok, fun b => ?_⟩
    obtain ⟨D2, hbad, hk⟩ := hrest b
    exact ⟨D2, hbad, ih b hk⟩

theorem Sat.bind {p : Prog I E α} {f : α → Prog I E β} {R : β → σ → Prop}
    (h : p.Sat g w Q D1 A D) (hf : ∀ a, (f a).Sat g w R D' (Q a) D1) :
    (p >>= f).Sat g w R D' A D := by
  induction p generalizing A D with
  | pure a => exact (hf a).mono h.1 h.2
  | fault e => trivial
  | step i k ih =>
    obtain ⟨B, hB, hstable, hok, hrest⟩ := h
    refine ⟨B, hB, hstable, hok, fun b => ?_⟩
    obtain ⟨D2, hbad, hk⟩ := hrest b
    exact ⟨D2, hbad, ih b hk⟩

/-- One instruction: `A` is stable, the instruction is in order, and it leaves
`B` of its answer. -/
theorem Sat.next {γ : Type} {i : I γ} {f : γ → Prog I E α} {B : γ → σ → Prop} {R : γ → Set X}
    (hstable : ∀ s s', A s → w.rely i s s' → A s') (hok : ∀ s, A s → w.own i s → g.ok i s)
    (hrun : ∀ s, A s → w.own i s → B (g.run i s).1 (g.run i s).2)
    (hbad : ∀ s, A s → w.own i s → ∀ x, g.bad x (g.run i s).2 →
      x ∈ R (g.run i s).1 ∨ g.bad x s ∧ x ∉ D)
    (hf : ∀ b, (f b).Sat g w Q D' (B b) (R b)) :
    (lift i >>= f : Prog I E α).Sat g w Q D' A D := by
  refine ⟨A, fun _ h => h, hstable, hok, fun b => ⟨R b, ?_, ?_⟩⟩
  · rintro s hs ho rfl
    exact hbad s hs ho
  · refine (hf b).mono ?_ subset_rfl
    rintro s' ⟨s, hs, ho, hb⟩
    have := hrun s hs ho
    rw [hb] at this
    exact this

theorem Sat.unreached (p : Prog I E α) (hD : D ⊆ D') : p.Sat g w Q D' (fun _ => False) D := by
  suffices h : ∀ A : σ → Prop, (∀ s, ¬A s) → p.Sat g w Q D' A D from h _ fun _ h => h
  induction p with
  | pure a => exact fun A hA => ⟨fun s hs => (hA s hs).elim, hD⟩
  | fault e => exact fun _ _ => trivial
  | step i k ih =>
    intro A hA
    refine ⟨A, fun _ h => h, fun s _ hs => (hA s hs).elim, fun s hs => (hA s hs).elim, fun b => ?_⟩
    exact ⟨D, fun s hs => (hA s hs).elim, ih b _ fun _ h => by
      obtain ⟨s, hs, -⟩ := h
      exact hA s hs⟩

end Prog

namespace Conf

variable {ι κ σ X : Type} {I : Type → Type} {E : Type}

/-- Every thread follows its outline, and what is bad is a debt of one of them. -/
def Owing (g : Goal I σ X) (w : ι → Option κ → Terms I σ) (c : Conf ι κ σ I E) : Prop :=
  ∃ (A : ι → σ → Prop) (D : ι → Set X), (∀ i, A i c.mem) ∧
    (∀ i, (c.thread i).Sat g (w i (c.call i)) (fun _ _ => True) ∅ (A i) (D i)) ∧
    ∀ x, g.bad x c.mem → ∃ i, x ∈ D i

variable {g : Goal I σ X} {w : ι → Option κ → Terms I σ} {c : Conf ι κ σ I E}

theorem owing_idle {s : σ} (hs : ∀ x, ¬g.bad x s) :
    Owing g w (.idle s : Conf ι κ σ I E) :=
  ⟨fun _ _ => True, fun _ => ∅, fun _ => trivial, fun _ => ⟨fun _ _ => trivial, subset_rfl⟩,
    fun x hx => (hs x hx).elim⟩

theorem Owing.quiescent (h : Owing g w c) (hq : c.Quiescent) (x : X) : ¬g.bad x c.mem := by
  obtain ⟨A, D, -, hsat, hbad⟩ := h
  intro hx
  obtain ⟨i, hi⟩ := hbad x hx
  have := hsat i
  rw [hq i] at this
  exact this.2 hi

theorem Owing.ok (h : Owing g w c) {i : ι} {β : Type} {a : I β} {f : β → Prog I E Unit}
    (hi : c.thread i = .step a f) (ho : (w i (c.call i)).own a c.mem) : g.ok a c.mem := by
  obtain ⟨A, D, hA, hsat, -⟩ := h
  have := hsat i
  rw [hi] at this
  obtain ⟨B, hB, -, hok, -⟩ := this
  exact hok _ (hB _ (hA i)) ho

theorem Owing.stable (h : Owing g w c) : ∃ (A : ι → σ → Prop) (D : ι → Set X), (∀ i, A i c.mem) ∧
    (∀ i, (c.thread i).Sat g (w i (c.call i)) (fun _ _ => True) ∅ (A i) (D i)) ∧
    (∀ x, g.bad x c.mem → ∃ i, x ∈ D i) ∧
    ∀ i s', (∀ (β : Type) (a : I β) (f : β → Prog I E Unit), c.thread i = .step a f →
      (w i (c.call i)).rely a c.mem s') → A i s' := by
  obtain ⟨A, D, hA, hsat, hbad⟩ := h
  -- Only what stands before an instruction has to be stable.
  have hB : ∀ i, ∃ B : σ → Prop, B c.mem ∧
      (c.thread i).Sat g (w i (c.call i)) (fun _ _ => True) ∅ B (D i) ∧
      ∀ s', (∀ (β : Type) (a : I β) (f : β → Prog I E Unit), c.thread i = .step a f →
        (w i (c.call i)).rely a c.mem s') → B s' := by
    intro i
    have hi := hsat i
    cases ht : c.thread i with
    | pure u =>
      rw [ht] at hi
      exact ⟨fun _ => True, trivial, ⟨fun _ _ => trivial, hi.2⟩, fun _ _ => trivial⟩
    | fault e => exact ⟨fun _ => True, trivial, trivial, fun _ _ => trivial⟩
    | step a f =>
      rw [ht] at hi
      obtain ⟨B, hB, hstable, hok, hrest⟩ := hi
      have hmem := hB _ (hA i)
      exact ⟨B, hmem, ⟨B, fun _ h => h, hstable, hok, hrest⟩, fun s' hr => hstable _ _ hmem (hr _ a f rfl)⟩
  choose B hmem hsatB hrely using hB
  exact ⟨B, D, hmem, hsatB, hbad, hrely⟩

section Step

variable [DecidableEq ι] {code : ι → κ → Prog I E Unit}

theorem Owing.start (h : Owing g w c) {i : ι} {call : κ} {B : σ → Prop} (hi : c.thread i = .pure ())
    (hB : B c.mem) (hcode : (code i call).Sat g (w i (some call)) (fun _ _ => True) ∅ B ∅) :
    Owing g w { c with
      call := Function.update c.call i (some call)
      thread := Function.update c.thread i (code i call) } := by
  obtain ⟨A, D, hA, hsat, hbad⟩ := h
  have hDi : D i ⊆ ∅ := by
    have := hsat i
    rw [hi] at this
    exact this.2
  refine ⟨Function.update A i B, D, fun j => ?_, fun j => ?_, hbad⟩
  · by_cases hj : j = i
    · subst hj
      simpa using hB
    · simpa [hj] using hA j
  · by_cases hj : j = i
    · subst hj
      simpa using hcode.mono (fun _ h => h) hDi
    · simpa [hj] using hsat j

theorem Owing.access (h : Owing g w c) {i : ι} {β : Type} {a : I β} {f : β → Prog I E Unit}
    (hi : c.thread i = .step a f) (ho : (w i (c.call i)).own a c.mem)
    (hr : ∀ j, j ≠ i → ∀ (γ : Type) (b : I γ) (k : γ → Prog I E Unit), c.thread j = .step b k →
      (w j (c.call j)).rely b c.mem (g.run a c.mem).2) :
    Owing g w { c with
      mem := (g.run a c.mem).2
      thread := Function.update c.thread i (f (g.run a c.mem).1) } := by
  obtain ⟨A, D, hA, hsat, hbad, hstable⟩ := h.stable
  have hsi := hsat i
  rw [hi] at hsi
  obtain ⟨B, hB, -, -, hrest⟩ := hsi
  obtain ⟨D1, hbad1, hk⟩ := hrest (g.run a c.mem).1
  refine ⟨Function.update A i fun s' => ∃ s, B s ∧ (w i (c.call i)).own a s ∧
    g.run a s = ((g.run a c.mem).1, s'), Function.update D i D1, fun j => ?_, fun j => ?_, fun x hx => ?_⟩
  · by_cases hj : j = i
    · subst hj
      simpa using ⟨c.mem, hB _ (hA j), ho, rfl⟩
    · simpa [hj] using hstable j _ (hr j hj)
  · by_cases hj : j = i
    · subst hj
      simpa using hk
    · simpa [hj] using hsat j
  · obtain hx | ⟨hx, hnot⟩ := hbad1 _ (hB _ (hA i)) ho rfl x hx
    · exact ⟨i, by simpa using hx⟩
    · obtain ⟨j, hj⟩ := hbad x hx
      refine ⟨j, ?_⟩
      by_cases hji : j = i
      · subst hji
        exact (hnot hj).elim
      · simpa [hji] using hj

end Step

end Conf

end Tukija.Lib.Threads
