import Mathlib

/-! Programs as sequences of atomic instructions.  Run alone, a program is a
function on the state; run beside others, it takes one instruction at a time. -/
namespace Tukija.Lib.Threads

/-- A program over the instructions `I` that ends with a value or with a fault
of type `E`. -/
inductive Prog (I : Type → Type) (E : Type) (α : Type) : Type 1 where
  | pure (a : α)
  | fault (e : E)
  | step {β : Type} (i : I β) (k : β → Prog I E α)

namespace Prog

variable {I : Type → Type} {E α β σ : Type}

def bind (p : Prog I E α) (f : α → Prog I E β) : Prog I E β :=
  match p with
  | .pure a => f a
  | .fault e => .fault e
  | .step i k => .step i fun b => (k b).bind f

instance : Monad (Prog I E) where
  pure := .pure
  bind := .bind

def lift (i : I α) : Prog I E α := .step i .pure

@[simp] theorem pure_bind (a : α) (f : α → Prog I E β) : (Pure.pure a >>= f : Prog I E β) = f a := rfl

@[simp] theorem lift_bind (i : I α) (f : α → Prog I E β) :
    ((lift i : Prog I E α) >>= f) = .step i f := rfl

@[simp] theorem step_bind {γ : Type} (i : I γ) (k : γ → Prog I E α) (f : α → Prog I E β) :
    ((.step i k : Prog I E α) >>= f) = .step i fun b => k b >>= f := rfl

@[simp] theorem fault_bind (e : E) (f : α → Prog I E β) :
    ((.fault e : Prog I E α) >>= f) = .fault e := rfl

variable (run : {β : Type} → I β → σ → β × σ)

def exec : Prog I E α → σ → Except E (α × σ)
  | .pure a, s => .ok (a, s)
  | .fault e, _ => .error e
  | .step i k, s => (k (run i s).1).exec (run i s).2

@[simp] theorem exec_pure (a : α) (s : σ) :
    (Pure.pure a : Prog I E α).exec run s = .ok (a, s) := rfl

@[simp] theorem exec_fault (e : E) (s : σ) : (.fault e : Prog I E α).exec run s = .error e := rfl

@[simp] theorem exec_step {γ : Type} (i : I γ) (k : γ → Prog I E α) (s : σ) :
    (.step i k : Prog I E α).exec run s = (k (run i s).1).exec run (run i s).2 := rfl

theorem exec_bind (p : Prog I E α) (f : α → Prog I E β) (s : σ) :
    (p >>= f).exec run s = (p.exec run s).bind fun (a, s) => (f a).exec run s := by
  induction p generalizing s with
  | pure a => rfl
  | fault e => rfl
  | step i k ih => exact ih _ _

section Total

variable (P : {β : Type} → I β → σ → Prop)

/-- Alone, the program ends without a fault and with `Q`, and `P` holds whenever
it executes an instruction. -/
def Total : Prog I E α → σ → (α → σ → Prop) → Prop
  | .pure a, s, Q => Q a s
  | .fault _, _, _ => False
  | .step i k, s, Q => P i s ∧ (k (run i s).1).Total (run i s).2 Q

variable {P} {s : σ} {Q R : α → σ → Prop}

@[simp] theorem total_pure (a : α) : (Pure.pure a : Prog I E α).Total run P s Q ↔ Q a s := Iff.rfl

@[simp] theorem total_fault (e : E) : (.fault e : Prog I E α).Total run P s Q ↔ False := Iff.rfl

@[simp] theorem total_step {γ : Type} (i : I γ) (k : γ → Prog I E α) :
    (.step i k : Prog I E α).Total run P s Q ↔ P i s ∧ (k (run i s).1).Total run P (run i s).2 Q := Iff.rfl

@[simp] theorem total_lift (i : I α) :
    (lift i : Prog I E α).Total run P s Q ↔ P i s ∧ Q (run i s).1 (run i s).2 := Iff.rfl

@[simp] theorem total_bind (p : Prog I E α) (f : α → Prog I E β) (Q : β → σ → Prop) :
    (p >>= f).Total run P s Q ↔ p.Total run P s fun a s => (f a).Total run P s Q := by
  induction p generalizing s with
  | pure a => rfl
  | fault e => rfl
  | step i k ih => exact and_congr_right fun _ => ih _

theorem Total.mono {p : Prog I E α} (h : p.Total run P s Q) (hQ : ∀ a s, Q a s → R a s) :
    p.Total run P s R := by
  induction p generalizing s with
  | pure a => exact hQ a s h
  | fault e => exact h.elim
  | step i k ih => exact ⟨h.1, ih _ h.2⟩

end Total

end Prog

end Tukija.Lib.Threads
