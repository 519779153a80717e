import Tukija.Lib.Threads

/-! Threads that share a memory.  Each runs one program at a time, and the memory
sees one instruction of one thread after the other. -/
namespace Tukija.Lib.Threads

/-- The memory, and for each thread the call it made last and what is left of
it. -/
structure Conf (ι κ σ : Type) (I : Type → Type) (E : Type) where
  mem : σ
  call : ι → Option κ
  thread : ι → Prog I E Unit

inductive Event (ι κ : Type) where
  | start (i : ι) (call : κ)
  | access (i : ι)

namespace Conf

variable {ι κ σ : Type} {I : Type → Type} {E : Type}

def idle (s : σ) : Conf ι κ σ I E := ⟨s, fun _ => none, fun _ => .pure ()⟩

def Quiescent (c : Conf ι κ σ I E) : Prop := ∀ i, c.thread i = .pure ()

instance (p : Prog I E Unit) : Decidable (p = .pure ()) :=
  match p with
  | .pure _ => .isTrue rfl
  | .fault _ => .isFalse nofun
  | .step _ _ => .isFalse nofun

instance [Fintype ι] (c : Conf ι κ σ I E) : Decidable c.Quiescent :=
  inferInstanceAs (Decidable (∀ i, c.thread i = .pure ()))

section Step

variable [DecidableEq ι]
variable (run : {β : Type} → I β → σ → β × σ) (code : ι → κ → Prog I E Unit)

def step (c : Conf ι κ σ I E) : Event ι κ → Conf ι κ σ I E
  | .start i call =>
    match c.thread i with
    | .pure _ =>
      { c with
        call := Function.update c.call i (some call)
        thread := Function.update c.thread i (code i call) }
    | _ => c
  | .access i =>
    match c.thread i with
    | .step a f =>
      { c with
        mem := (run a c.mem).2
        thread := Function.update c.thread i (f (run a c.mem).1) }
    | _ => c

def after (c : Conf ι κ σ I E) (es : List (Event ι κ)) : Conf ι κ σ I E :=
  es.foldl (step run code) c

/-- Every event of a run meets `P`, in the state that it finds. -/
def Meets (P : Conf ι κ σ I E → Event ι κ → Prop) : Conf ι κ σ I E → List (Event ι κ) → Prop
  | _, [] => True
  | c, e :: es => P c e ∧ Meets P (step run code c e) es

instance decidableMeets (P : Conf ι κ σ I E → Event ι κ → Prop) [∀ c e, Decidable (P c e)] :
    (c : Conf ι κ σ I E) → (es : List (Event ι κ)) → Decidable (Meets run code P c es)
  | _, [] => .isTrue trivial
  | c, e :: es => @instDecidableAnd _ _ _ (decidableMeets P (step run code c e) es)

variable {run code} {P Q : Conf ι κ σ I E → Event ι κ → Prop} {c : Conf ι κ σ I E}

@[simp] theorem after_nil : after run code c [] = c := rfl

@[simp] theorem after_cons (e : Event ι κ) (es : List (Event ι κ)) :
    after run code c (e :: es) = after run code (step run code c e) es := rfl

@[simp] theorem after_append (es fs : List (Event ι κ)) :
    after run code c (es ++ fs) = after run code (after run code c es) fs :=
  List.foldl_append

theorem meets_append {es fs : List (Event ι κ)} :
    Meets run code P c (es ++ fs) ↔
      Meets run code P c es ∧ Meets run code P (after run code c es) fs := by
  induction es generalizing c with
  | nil => simp [Meets]
  | cons e es ih => simp [Meets, ih, and_assoc]

theorem meets_of_forall {C : Event ι κ → Prop} {es : List (Event ι κ)} (h : ∀ e ∈ es, C e) :
    Meets run code (fun _ e => C e) c es := by
  induction es generalizing c with
  | nil => trivial
  | cons e es ih => exact ⟨h e (by simp), ih fun e he => h e (by simp [he])⟩

theorem meets_and {es : List (Event ι κ)} :
    Meets run code (fun c e => P c e ∧ Q c e) c es ↔
      Meets run code P c es ∧ Meets run code Q c es := by
  induction es generalizing c with
  | nil => simp [Meets]
  | cons e es ih =>
    simp only [Meets, ih]
    tauto

theorem after_invariant {J : Conf ι κ σ I E → Prop}
    (hstep : ∀ c e, J c → P c e → J (step run code c e)) {es : List (Event ι κ)} (h : J c)
    (hes : Meets run code P c es) : J (after run code c es) := by
  induction es generalizing c with
  | nil => exact h
  | cons e es ih => exact ih (hstep c e h hes.1) hes.2

/-- What an event does: a thread starts its call, or one of them executes an
instruction, or nothing happens. -/
theorem step_cases (c : Conf ι κ σ I E) (e : Event ι κ) :
    (∃ i call, e = .start i call ∧ c.thread i = .pure () ∧
      step run code c e =
        { c with
          call := Function.update c.call i (some call)
          thread := Function.update c.thread i (code i call) }) ∨
    (∃ i, e = .access i ∧ ∃ (β : Type) (a : I β) (f : β → Prog I E Unit), c.thread i = .step a f ∧
      step run code c e =
        { c with
          mem := (run a c.mem).2
          thread := Function.update c.thread i (f (run a c.mem).1) }) ∨
    step run code c e = c := by
  cases e with
  | start i call =>
    cases hi : c.thread i with
    | pure u => exact .inl ⟨i, call, rfl, hi, by simp [step, hi]⟩
    | fault e => exact .inr (.inr (by simp [step, hi]))
    | step a f => exact .inr (.inr (by simp [step, hi]))
  | access i =>
    cases hi : c.thread i with
    | pure u => exact .inr (.inr (by simp [step, hi]))
    | fault e => exact .inr (.inr (by simp [step, hi]))
    | step a f => exact .inr (.inl ⟨i, rfl, _, a, f, hi, by simp [step, hi]⟩)

end Step

end Conf

namespace Prog

variable {I : Type → Type} {E α β : Type}

/-- Every instruction is `ok` as long as the answers are as `ans` says, up to a
point at which the rest of the program is as `T` says. -/
def Unless (ans : {γ : Type} → I γ → γ → Prop) (ok : {γ : Type} → I γ → Prop)
    (T : {γ : Type} → Prog I E γ → Prop) : Prog I E α → Prop
  | .pure _ => True
  | .fault _ => True
  | .step i k => T (.step i k) ∨ ok i ∧ ∀ b, ans i b → (k b).Unless ans ok T

/-- The program executes an instruction of the kind `done`, and only those of
the kind `ok` before that. -/
def Leads (ans : {γ : Type} → I γ → γ → Prop) (ok done : {γ : Type} → I γ → Prop) :
    Prog I E α → Prop
  | .pure _ => False
  | .fault _ => True
  | .step i k => done i ∨ ok i ∧ ∀ b, ans i b → (k b).Leads ans ok done

/-- At every point of the program the next instruction is `ok`, and it is of
the kind `danger` or the rest of the program is as `P` says. -/
def Tame (ans : {γ : Type} → I γ → γ → Prop) (ok danger : {γ : Type} → I γ → Prop)
    (P : {γ : Type} → Prog I E γ → Prop) : Prog I E α → Prop
  | .pure _ => True
  | .fault _ => True
  | .step i k => ok i ∧ (danger i ∨ P (.step i k)) ∧ ∀ b, ans i b → (k b).Tame ans ok danger P

variable {ans : {γ : Type} → I γ → γ → Prop} {ok done danger : {γ : Type} → I γ → Prop}
variable {T P : {γ : Type} → Prog I E γ → Prop}

theorem Unless.bind {p : Prog I E α} {f : α → Prog I E β} (h : p.Unless ans ok T)
    (hT : ∀ q : Prog I E α, T q → T (q >>= f)) (hf : ∀ a, (f a).Unless ans ok T) :
    (p >>= f).Unless ans ok T := by
  induction p with
  | pure a => exact hf a
  | fault e => trivial
  | step i k ih =>
    obtain hi | ⟨hi, hk⟩ := h
    · exact .inl (hT _ hi)
    · exact .inr ⟨hi, fun b hb => ih b (hk b hb)⟩

theorem Leads.bind {p : Prog I E α} (h : p.Leads ans ok done) (f : α → Prog I E β) :
    (p >>= f).Leads ans ok done := by
  induction p with
  | pure a => exact h.elim
  | fault e => trivial
  | step i k ih =>
    obtain hi | ⟨hi, hk⟩ := h
    · exact .inl hi
    · exact .inr ⟨hi, fun b hb => ih b (hk b hb)⟩

theorem Tame.bind {p : Prog I E α} {f : α → Prog I E β} (h : p.Tame ans ok danger P)
    (hP : ∀ q : Prog I E α, P q → P (q >>= f)) (hf : ∀ a, (f a).Tame ans ok danger P) :
    (p >>= f).Tame ans ok danger P := by
  induction p with
  | pure a => exact hf a
  | fault e => trivial
  | step i k ih =>
    obtain ⟨hi, hd, hk⟩ := h
    refine ⟨hi, ?_, fun b hb => ih b (hk b hb)⟩
    obtain hd | hd := hd
    · exact .inl hd
    · exact .inr (hP _ hd)

end Prog

end Tukija.Lib.Threads
