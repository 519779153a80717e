import Mathlib.Tactic

/-! Radix tables: trees of a fixed fanout whose leaves may sit at any level, as
the page tables of a processor do. -/
namespace Tukija.Lib.Radix

variable {α : Type}

inductive Entry (α : Type) where
  | empty
  | leaf (x : α)
  | table (sub : Nat → Entry α)

/-- The index of `q` into a table whose entries are on level `l`. -/
def digit (w l q : Nat) : Nat := q / w ^ l % w

/-- The leaf that `q` leads to from an entry on level `l`, with its level. -/
def find (w : Nat) : Nat → Entry α → Nat → Option (Nat × α)
  | l, .leaf x, _ => some (l, x)
  | l + 1, .table sub, q => find w l (sub (digit w l q)) q
  | _, _, _ => none

@[simp] theorem find_leaf (w l q : Nat) (x : α) : find w l (.leaf x) q = some (l, x) := by
  cases l <;> rfl

@[simp] theorem find_empty (w l q : Nat) : find w l (.empty : Entry α) q = none := by
  cases l <;> rfl

@[simp] theorem find_table (w l q : Nat) (sub : Nat → Entry α) :
    find w (l + 1) (.table sub) q = find w l (sub (digit w l q)) q := rfl

/-- `n` entries of a table from `i` on replaced. -/
def paste (sub : Nat → Entry α) (i n : Nat) (g : Nat → Entry α) : Nat → Entry α :=
  fun j => if i ≤ j ∧ j < i + n then g (j - i) else sub j

/-- What becomes of an entry when something is put in below it: nothing, as
there is no table; damage, as a leaf is taken for a table; or a new entry. -/
inductive Outcome (α : Type) where
  | missing
  | broken
  | done (e : Entry α)

def Outcome.map (f : Entry α → Entry α) : Outcome α → Outcome α
  | .missing => .missing
  | .broken => .broken
  | .done e => .done (f e)

/-- Put `n` entries on level `l`, from that of `q` on, in below an entry on
level `l + k + 1`.  Tables that are missing on the way are made if `create` says
so; whether an entry on the way is a leaf is not looked at. -/
def put (w l q n : Nat) (create : Bool) (g : Nat → Entry α) : Nat → Entry α → Outcome α
  | 0, .empty =>
    if create then .done (.table (paste (fun _ => .empty) (digit w l q) n g)) else .missing
  | 0, .table sub => .done (.table (paste sub (digit w l q) n g))
  | 0, .leaf _ => .broken
  | k + 1, .empty =>
    if create then
      (put w l q n create g k .empty).map fun e =>
        .table (paste (fun _ => .empty) (digit w (l + k + 1) q) 1 fun _ => e)
    else .missing
  | k + 1, .table sub =>
    (put w l q n create g k (sub (digit w (l + k + 1) q))).map fun e =>
      .table (paste sub (digit w (l + k + 1) q) 1 fun _ => e)
  | _ + 1, .leaf _ => .broken

/-- The entries that `put` replaces some of. -/
def peek (w l q : Nat) : Nat → Entry α → Nat → Entry α
  | 0, .table sub => sub
  | k + 1, .table sub => peek w l q k (sub (digit w (l + k + 1) q))
  | _, _ => fun _ => .empty

/-- `r` takes the same way as `q` through the `k` tables above level `l + 1`. -/
def SameWay (w l q r : Nat) : Nat → Prop
  | 0 => True
  | k + 1 => digit w (l + k + 1) r = digit w (l + k + 1) q ∧ SameWay w l q r k

instance sameWayDecidable (w l q r : Nat) : ∀ k, Decidable (SameWay w l q r k)
  | 0 => isTrue trivial
  | k + 1 =>
    have := sameWayDecidable w l q r k
    inferInstanceAs (Decidable (_ ∧ _))

/-- `r` leads to one of the `n` entries on level `l` from that of `q` on. -/
def Inside (w l q n r k : Nat) : Prop :=
  SameWay w l q r k ∧ digit w l q ≤ digit w l r ∧ digit w l r < digit w l q + n

instance (w l q n r k : Nat) : Decidable (Inside w l q n r k) :=
  inferInstanceAs (Decidable (_ ∧ _))

variable {w l q n : Nat} {create : Bool} {g : Nat → Entry α}

theorem Outcome.map_eq_done {f : Entry α → Entry α} {o : Outcome α} {e : Entry α}
    (h : o.map f = .done e) : ∃ e', o = .done e' ∧ e = f e' := by
  cases o with
  | missing => simp [Outcome.map] at h
  | broken => simp [Outcome.map] at h
  | done e' => exact ⟨e', rfl, (Outcome.done.inj h).symm⟩

theorem find_paste_one {sub : Nat → Entry α} {e : Entry α} {m r : Nat} :
    find w (m + 1) (.table (paste sub (digit w m q) 1 fun _ => e)) r =
      if digit w m r = digit w m q then find w m e r else find w m (sub (digit w m r)) r := by
  rw [find_table]
  unfold paste
  by_cases h : digit w m r = digit w m q
  · rw [if_pos (by omega), if_pos h]
  · rw [if_neg (by omega), if_neg h]

theorem find_put (k : Nat) {e e' : Entry α} (h : put w l q n create g k e = .done e') (r : Nat) :
    find w (l + k + 1) e' r =
      if Inside w l q n r k then find w l (g (digit w l r - digit w l q)) r
      else find w (l + k + 1) e r := by
  induction k generalizing e e' with
  | zero =>
    have hpaste : ∀ sub : Nat → Entry α,
        find w (l + 1) (.table (paste sub (digit w l q) n g)) r =
          if Inside w l q n r 0 then find w l (g (digit w l r - digit w l q)) r
          else find w l (sub (digit w l r)) r := by
      intro sub
      rw [find_table]
      unfold paste
      by_cases hin : digit w l q ≤ digit w l r ∧ digit w l r < digit w l q + n
      · rw [if_pos hin, if_pos ⟨trivial, hin⟩]
      · rw [if_neg hin, if_neg fun h => hin h.2]
    cases e with
    | empty =>
      simp only [put] at h
      split at h
      · rw [← Outcome.done.inj h]
        simpa using hpaste fun _ => .empty
      · simp at h
    | leaf x => simp [put] at h
    | table sub =>
      simp only [put] at h
      rw [← Outcome.done.inj h]
      exact hpaste sub
  | succ k ih =>
    have hstep : ∀ (sub : Nat → Entry α) (e1 : Entry α),
        find w (l + k + 1) e1 r =
          (if Inside w l q n r k then find w l (g (digit w l r - digit w l q)) r
            else find w (l + k + 1) (sub (digit w (l + k + 1) q)) r) →
        find w (l + k + 1 + 1) (.table (paste sub (digit w (l + k + 1) q) 1 fun _ => e1)) r =
          if Inside w l q n r (k + 1) then find w l (g (digit w l r - digit w l q)) r
          else find w (l + k + 1 + 1) (.table sub) r := by
      intro sub e1 h1
      rw [find_paste_one, find_table]
      by_cases hd : digit w (l + k + 1) r = digit w (l + k + 1) q
      · rw [if_pos hd, h1, hd]
        by_cases hin : Inside w l q n r k
        · rw [if_pos hin, if_pos ⟨⟨hd, hin.1⟩, hin.2⟩]
        · rw [if_neg hin, if_neg fun h => hin ⟨h.1.2, h.2⟩]
      · rw [if_neg hd, if_neg fun h => hd h.1.1]
    cases e with
    | empty =>
      simp only [put] at h
      split at h
      · obtain ⟨e1, h1, rfl⟩ := Outcome.map_eq_done h
        have hnone : find w (l + k + 1 + 1) (.table fun _ => (.empty : Entry α)) r = none := by
          rw [find_table, find_empty]
        have hput := hstep (fun _ => .empty) e1 (ih h1)
        rw [hnone] at hput
        rw [find_empty]
        exact hput
      · simp at h
    | leaf x => simp [put] at h
    | table sub =>
      simp only [put] at h
      obtain ⟨e1, h1, rfl⟩ := Outcome.map_eq_done h
      exact hstep sub e1 (ih h1)

theorem find_of_missing (k : Nat) {e : Entry α} (h : put w l q n create g k e = .missing) {r : Nat}
    (hr : SameWay w l q r k) : find w (l + k + 1) e r = none := by
  induction k generalizing e with
  | zero =>
    cases e with
    | empty => simp
    | leaf x => simp [put] at h
    | table sub => simp [put] at h
  | succ k ih =>
    cases e with
    | empty => simp
    | leaf x => simp [put] at h
    | table sub =>
      simp only [put] at h
      have hsub : put w l q n create g k (sub (digit w (l + k + 1) q)) = .missing := by
        cases hp : put w l q n create g k (sub (digit w (l + k + 1) q)) with
        | missing => rfl
        | broken => simp [hp, Outcome.map] at h
        | done e1 => simp [hp, Outcome.map] at h
      have := ih hsub hr.2
      rw [← hr.1] at this
      exact this

theorem find_of_broken (k : Nat) {e : Entry α} (h : put w l q n create g k e = .broken) :
    ∃ m x, find w (l + k + 1) e q = some (m, x) ∧ l < m := by
  induction k generalizing e with
  | zero =>
    cases e with
    | empty =>
      simp only [put] at h
      split at h
      · simp at h
      · simp at h
    | leaf x => exact ⟨l + 1, x, find_leaf _ _ _ _, Nat.lt_succ_self l⟩
    | table sub => simp [put] at h
  | succ k ih =>
    cases e with
    | empty =>
      simp only [put] at h
      split at h
      · have hsub : put w l q n create g k (.empty : Entry α) = .broken := by
          cases hp : put w l q n create g k (.empty : Entry α) with
          | missing => simp [hp, Outcome.map] at h
          | broken => rfl
          | done e1 => simp [hp, Outcome.map] at h
        obtain ⟨m, x, hf, hm⟩ := ih hsub
        simp at hf
      · simp at h
    | leaf x => exact ⟨l + (k + 1) + 1, x, find_leaf _ _ _ _, by omega⟩
    | table sub =>
      simp only [put] at h
      have hsub : put w l q n create g k (sub (digit w (l + k + 1) q)) = .broken := by
        cases hp : put w l q n create g k (sub (digit w (l + k + 1) q)) with
        | missing => simp [hp, Outcome.map] at h
        | broken => rfl
        | done e1 => simp [hp, Outcome.map] at h
      exact ih hsub

theorem find_level_le (l : Nat) {e : Entry α} {m : Nat} {x : α} (h : find w l e q = some (m, x)) : m ≤ l := by
  induction l generalizing e with
  | zero =>
    cases e with
    | empty => simp at h
    | leaf y =>
      rw [find_leaf] at h
      exact (Prod.mk.inj (Option.some.inj h)).1.ge
    | table sub => simp [find] at h
  | succ l ih =>
    cases e with
    | empty => simp at h
    | leaf y =>
      rw [find_leaf] at h
      exact (Prod.mk.inj (Option.some.inj h)).1.ge
    | table sub => exact (ih h).trans (Nat.le_succ l)

theorem put_of_find (k : Nat) {e : Entry α} {m : Nat} {x : α} (h : find w (l + k + 1) e q = some (m, x))
    (hm : l < m) : put w l q n create g k e = .broken := by
  induction k generalizing e with
  | zero =>
    cases e with
    | empty => simp at h
    | leaf y => rfl
    | table sub =>
      have := find_level_le l h
      omega
  | succ k ih =>
    cases e with
    | empty => simp at h
    | leaf y => rfl
    | table sub =>
      have hsub : put w l q n create g k (sub (digit w (l + k + 1) q)) = .broken := ih h
      unfold put
      rw [hsub]
      rfl

theorem digit_add (m j : Nat) : digit w (m + j) q = q / w ^ m / w ^ j % w := by
  unfold digit
  rw [Nat.div_div_eq_div_mul, ← Nat.pow_add]

theorem mod_pow_succ_eq_iff {k x y : Nat} (hw : 0 < w) :
    x % w ^ (k + 1) = y % w ^ (k + 1) ↔ x / w ^ k % w = y / w ^ k % w ∧ x % w ^ k = y % w ^ k := by
  have hpos : 0 < w ^ k := Nat.pow_pos hw
  rw [Nat.mod_pow_succ, Nat.mod_pow_succ]
  constructor
  · intro h
    have hmod := congrArg (· % w ^ k) h
    have hdiv := congrArg (· / w ^ k) h
    simp only [Nat.add_mul_mod_self_left, Nat.mod_mod] at hmod
    simp only [Nat.add_mul_div_left _ _ hpos, Nat.div_eq_of_lt (Nat.mod_lt _ hpos),
      Nat.zero_add] at hdiv
    exact ⟨hdiv, hmod⟩
  · rintro ⟨h1, h2⟩
    rw [h1, h2]

theorem sameWay_iff {r : Nat} (hw : 0 < w) (k : Nat) :
    SameWay w l q r k ↔ r / w ^ (l + 1) % w ^ k = q / w ^ (l + 1) % w ^ k := by
  induction k with
  | zero => simp [SameWay, Nat.mod_one]
  | succ k ih =>
    unfold SameWay
    rw [ih, mod_pow_succ_eq_iff hw, show l + k + 1 = l + 1 + k by omega, digit_add, digit_add]

theorem sameWay_iff_div {r : Nat} (k : Nat) (hq : q < w ^ (l + k + 1)) (hr : r < w ^ (l + k + 1)) :
    SameWay w l q r k ↔ r / w ^ l / w = q / w ^ l / w := by
  have hw : 0 < w := by
    by_contra h
    have h0 : w = 0 := by omega
    simp [h0] at hq
  have hlow : ∀ x, x < w ^ (l + k + 1) → x / w ^ (l + 1) % w ^ k = x / w ^ l / w := by
    intro x hx
    rw [Nat.div_div_eq_div_mul, ← Nat.pow_succ]
    apply Nat.mod_eq_of_lt
    apply Nat.div_lt_of_lt_mul
    rw [← Nat.pow_add]
    exact lt_of_lt_of_eq hx (congrArg _ (by omega))
  rw [sameWay_iff hw, hlow r hr, hlow q hq]

theorem inside_iff {r : Nat} (k : Nat) (hq : q < w ^ (l + k + 1)) (hr : r < w ^ (l + k + 1))
    (hn : digit w l q + n ≤ w) :
    Inside w l q n r k ↔ q / w ^ l ≤ r / w ^ l ∧ r / w ^ l < q / w ^ l + n := by
  unfold Inside
  rw [sameWay_iff_div k hq hr]
  unfold digit at hn ⊢
  generalize q / w ^ l = a at hn ⊢
  generalize r / w ^ l = b at hn ⊢
  have ha := Nat.div_add_mod a w
  have hb := Nat.div_add_mod b w
  constructor
  · rintro ⟨h, h1, h2⟩
    rw [h] at hb
    omega
  · rintro ⟨h1, h2⟩
    have hdiv : b / w = a / w := by
      apply Nat.div_eq_of_lt_le
      · rw [Nat.mul_comm]
        omega
      · rw [Nat.add_mul, Nat.mul_comm (a / w)]
        omega
    rw [hdiv] at hb
    exact ⟨hdiv, by omega, by omega⟩

theorem Inside.digit_sub {r k : Nat} (h : Inside w l q n r k) (hq : q < w ^ (l + k + 1))
    (hr : r < w ^ (l + k + 1)) : digit w l r - digit w l q = r / w ^ l - q / w ^ l := by
  have hdiv := (sameWay_iff_div k hq hr).mp h.1
  have ha := Nat.div_add_mod (q / w ^ l) w
  have hb := Nat.div_add_mod (r / w ^ l) w
  rw [hdiv] at hb
  unfold digit
  omega

end Tukija.Lib.Radix
