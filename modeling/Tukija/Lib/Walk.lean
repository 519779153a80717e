import Mathlib.Data.List.Basic
import Mathlib.Tactic.Common
import Mathlib.Order.Basic

/-! Loops over entries of which each one says how far away the next one is. -/
namespace Tukija.Lib.Walk

variable {σ ε α : Type}

/-- There is an entry at a position with `more`, and the next one is `size`
behind it unless it is the last one. -/
structure Path where
  more : Nat → Bool
  last : Nat → Bool
  size : Nat → Nat

/-- Where an entry is found, from `p` on, up to the `n`-th. -/
def Path.positions (path : Path) : Nat → Nat → List Nat
  | 0, _ => []
  | n + 1, p => if path.more p then p :: if path.last p then [] else path.positions n (p + path.size p) else []

/-- A loop that looks at the head of each entry, and visits all but the last. -/
structure Walker (σ ε : Type) extends Path where
  head : Nat → Except ε Unit
  visit : Nat → σ → Except ε σ

namespace Walker

variable (w : Walker σ ε) (endless : ε)

/-- The loop from `p` on, with the error for a loop that goes on too long. -/
def run : Nat → Nat → σ → Except ε σ
  | 0, _, _ => .error endless
  | fuel + 1, p, s =>
    if w.more p then do
      w.head p
      if w.last p then .ok s
      else do
        let s ← w.visit p s
        run fuel (p + w.size p) s
    else .ok s

def visited (n p : Nat) : List Nat := (w.positions n p).filter (!w.last ·)

/-- The head can be looked at, and the next entry is another one. -/
def Good (p : Nat) : Prop := w.head p = .ok () ∧ (w.last p = false → w.size p ≠ 0)

variable {w endless} {n fuel p q B : Nat} {s r : σ}

theorem positions_of_more (h : w.more p = true) :
    w.positions (n + 1) p = p :: if w.last p then [] else w.positions n (p + w.size p) := by
  rw [Path.positions, if_pos h]

theorem positions_of_not_more (h : w.more p = false) : w.positions n p = [] := by
  cases n with
  | zero => rfl
  | succ n => rw [Path.positions, if_neg (by simp [h])]

theorem visited_of_last (hm : w.more p = true) (hl : w.last p = true) : w.visited (n + 1) p = [] := by
  rw [visited, positions_of_more hm, if_pos hl, List.filter_cons_of_neg (by simp [hl]), List.filter_nil]

theorem visited_of_next (hm : w.more p = true) (hl : w.last p = false) :
    w.visited (n + 1) p = p :: w.visited n (p + w.size p) := by
  rw [visited, positions_of_more hm, if_neg (by simp [hl]), List.filter_cons_of_pos (by simp [hl]), visited]

theorem run_of_not_more (h : w.more p = false) : w.run endless (fuel + 1) p s = .ok s := by
  rw [run, if_neg (by simp [h])]

theorem run_of_last (hm : w.more p = true) (hh : w.head p = .ok ()) (hl : w.last p = true) :
    w.run endless (fuel + 1) p s = .ok s := by
  rw [run, if_pos hm, hh, hl]
  rfl

theorem run_of_next (hm : w.more p = true) (hh : w.head p = .ok ()) (hl : w.last p = false) :
    w.run endless (fuel + 1) p s = w.visit p s >>= w.run endless fuel (p + w.size p) := by
  rw [run, if_pos hm, hh, hl]
  rfl

theorem run_cases (h : w.run endless (fuel + 1) p s = .ok r) :
    (w.more p = false ∧ s = r) ∨ (w.more p = true ∧ w.head p = .ok () ∧ w.last p = true ∧ s = r) ∨
      (w.more p = true ∧ w.head p = .ok () ∧ w.last p = false ∧
        ∃ s', w.visit p s = .ok s' ∧ w.run endless fuel (p + w.size p) s' = .ok r) := by
  cases hm : w.more p with
  | false => exact .inl ⟨rfl, Except.ok.inj ((run_of_not_more hm).symm.trans h)⟩
  | true =>
    cases hh : w.head p with
    | error e =>
      rw [run, if_pos hm, hh] at h
      cases h
    | ok =>
      cases hl : w.last p with
      | true => exact .inr (.inl ⟨rfl, rfl, rfl, Except.ok.inj ((run_of_last hm hh hl).symm.trans h)⟩)
      | false =>
        rw [run_of_next hm hh hl] at h
        cases hv : w.visit p s with
        | error e =>
          rw [hv] at h
          cases h
        | ok s' =>
          rw [hv] at h
          exact .inr (.inr ⟨rfl, rfl, rfl, s', rfl, h⟩)

theorem run_mono (h : w.run endless fuel p s = .ok r) (k : Nat) : w.run endless (fuel + k) p s = .ok r := by
  induction fuel generalizing p s with
  | zero => cases h
  | succ fuel ih =>
    rw [show fuel + 1 + k = fuel + k + 1 by omega]
    rcases run_cases h with ⟨hm, rfl⟩ | ⟨hm, hh, hl, rfl⟩ | ⟨hm, hh, hl, s', hv, hr⟩
    · exact run_of_not_more hm
    · exact run_of_last hm hh hl
    · rw [run_of_next hm hh hl, hv]
      exact ih hr

theorem run_empty (hm : w.more p = true) (hl : w.last p = false) (h0 : w.size p = 0) :
    w.run endless fuel p s ≠ .ok r := by
  induction fuel generalizing s with
  | zero => exact nofun
  | succ fuel ih =>
    intro h
    rcases run_cases h with ⟨hm', -⟩ | ⟨-, -, hl', -⟩ | ⟨-, -, -, s', -, hr⟩
    · cases hm.symm.trans hm'
    · cases hl.symm.trans hl'
    · rw [h0] at hr
      exact ih hr

theorem good_of_run (h : w.run endless fuel p s = .ok r) (n : Nat) : ∀ q ∈ w.positions n p, w.Good q := by
  induction fuel generalizing p s n with
  | zero => cases h
  | succ fuel ih =>
    intro q hq
    cases n with
    | zero => cases hq
    | succ n =>
      rcases run_cases h with ⟨hm, -⟩ | ⟨hm, hh, hl, -⟩ | ⟨hm, hh, hl, s', hv, hr⟩
      · rw [positions_of_not_more hm] at hq
        cases hq
      · rw [positions_of_more hm, if_pos hl, List.mem_singleton] at hq
        subst hq
        exact ⟨hh, fun hl' => by simp [hl] at hl'⟩
      · rw [positions_of_more hm, if_neg (by simp [hl]), List.mem_cons] at hq
        rcases hq with rfl | hq
        · exact ⟨hh, fun _ h0 => run_empty hm hl h0 h⟩
        · exact ih hr n q hq

/-- When nothing is in its way, the loop visits one entry after the other.
Entries whose head can be looked at are below `B`. -/
theorem run_eq (hB : ∀ q, w.more q = true → w.head q = .ok () → q < B) (hn : B - p < n)
    (hgood : ∀ q ∈ w.positions n p, w.Good q) (hfuel : n ≤ fuel) :
    w.run endless fuel p s = (w.visited n p).foldlM (fun s q => w.visit q s) s := by
  induction n generalizing p s fuel with
  | zero => omega
  | succ n ih =>
    obtain ⟨fuel, rfl⟩ : ∃ k, fuel = k + 1 := ⟨fuel - 1, by omega⟩
    cases hm : w.more p with
    | false =>
      rw [run_of_not_more hm, visited, positions_of_not_more hm]
      rfl
    | true =>
      rw [positions_of_more hm] at hgood
      obtain ⟨hh, hsize⟩ := hgood p (List.mem_cons_self ..)
      cases hl : w.last p with
      | true =>
        rw [run_of_last hm hh hl, visited_of_last hm hl]
        rfl
      | false =>
        rw [hl, if_neg (by decide)] at hgood
        have hp := hB p hm hh
        have hne := hsize hl
        rw [run_of_next hm hh hl, visited_of_next hm hl, List.foldlM_cons]
        congr 1
        funext s'
        exact ih (by omega) (fun q hq => hgood q (List.mem_cons_of_mem _ hq)) (by omega)

theorem returns_iff (hB : ∀ q, w.more q = true → w.head q = .ok () → q < B) (hn : B - p < n) :
    (∃ fuel, w.run endless fuel p s = .ok r) ↔
      (∀ q ∈ w.positions n p, w.Good q) ∧ (w.visited n p).foldlM (fun s q => w.visit q s) s = .ok r := by
  constructor
  · rintro ⟨fuel, h⟩
    have hgood := good_of_run h n
    exact ⟨hgood, by rw [← run_eq hB hn hgood (Nat.le_add_left n fuel), run_mono h]⟩
  · rintro ⟨hgood, h⟩
    exact ⟨n, by rw [run_eq hB hn hgood (Nat.le_refl n), h]⟩

end Walker

/-- Steps that can fail, one after the other: each one must be possible after
those before it. -/
theorem foldlM_ok_iff {f : σ → α → Except ε σ} {Can : σ → α → Prop} {after : σ → α → σ}
    (hf : ∀ s a r, f s a = .ok r ↔ Can s a ∧ after s a = r) {l : List α} {s r : σ} :
    l.foldlM f s = .ok r ↔ (∀ u a v, l = u ++ a :: v → Can (u.foldl after s) a) ∧ l.foldl after s = r := by
  induction l generalizing s with
  | nil =>
    rw [List.foldlM_nil, List.foldl_nil]
    constructor
    · intro h
      exact ⟨fun u a v hl => by simp at hl, Except.ok.inj h⟩
    · rintro ⟨-, rfl⟩
      rfl
  | cons x l ih =>
    rw [List.foldlM_cons, List.foldl_cons]
    constructor
    · intro h
      cases hx : f s x with
      | error e =>
        rw [hx] at h
        cases h
      | ok s' =>
        rw [hx] at h
        obtain ⟨hcan, rfl⟩ := (hf s x s').mp hx
        obtain ⟨hall, hr⟩ := ih.mp h
        refine ⟨fun u a v hl => ?_, hr⟩
        cases u with
        | nil =>
          obtain ⟨rfl, -⟩ := List.cons.inj hl
          exact hcan
        | cons y u =>
          obtain ⟨rfl, htail⟩ := List.cons.inj hl
          exact hall u a v htail
    · rintro ⟨hall, hr⟩
      rw [(hf s x _).mpr ⟨hall [] x l rfl, rfl⟩]
      exact ih.mpr ⟨fun u a v hl => hall (x :: u) a v (by rw [hl]; rfl), hr⟩

theorem foldlM_unit_ok_iff {f : Unit → α → Except ε Unit} {l : List α} :
    l.foldlM f () = .ok () ↔ ∀ a ∈ l, f () a = .ok () := by
  induction l with
  | nil => exact ⟨fun _ a ha => absurd ha (List.not_mem_nil), fun _ => rfl⟩
  | cons x l ih =>
    rw [List.foldlM_cons, List.forall_mem_cons]
    cases hx : f () x with
    | error e => exact ⟨nofun, fun h => nomatch h.1⟩
    | ok => exact ih.trans ⟨fun h => ⟨rfl, h⟩, And.right⟩

theorem bind_ok_iff {τ : Type} {x : Except ε σ} {f : σ → Except ε τ} {r : τ} :
    x >>= f = .ok r ↔ ∃ s, x = .ok s ∧ f s = .ok r := by
  cases x with
  | error e => exact ⟨nofun, fun ⟨_, h, _⟩ => nomatch h⟩
  | ok s => exact ⟨fun h => ⟨s, rfl, h⟩, fun ⟨_, h, hf⟩ => Except.ok.inj h ▸ hf⟩

theorem pure_ok_iff {s r : σ} : (pure s : Except ε σ) = .ok r ↔ s = r := ⟨Except.ok.inj, congrArg Except.ok⟩

end Tukija.Lib.Walk
