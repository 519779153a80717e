import Mathlib.Order.Lattice
import Mathlib.Tactic.Push

/-! Taking one range after the other out of a region that stays in one piece: of a
region that is cut in two, only one side is kept. -/
namespace Tukija.Lib.Gaps

/-- What is between `start` and `stop`. -/
structure Region (α : Type) where
  start : α
  stop : α
  deriving DecidableEq, Repr

variable {α : Type} [LinearOrder α] {r : Region α} {lo hi : α}

namespace Region

/-- No part of the region is between `lo` and `hi`. -/
def Avoids (r : Region α) (lo hi : α) : Prop := r.stop ≤ lo ∨ hi ≤ r.start

/-- `behind` keeps the side behind `hi` where there are two. -/
def without (behind : Bool) (r : Region α) (lo hi : α) : Region α :=
  if r.stop ≤ lo then r
  else if hi ≤ r.start then r
  else if r.start ≤ lo then
    if hi < r.stop ∧ behind = true then ⟨hi, r.stop⟩ else ⟨r.start, lo⟩
  else ⟨hi, r.stop⟩

variable (behind : Bool)

theorem start_le_without : r.start ≤ (r.without behind lo hi).start := by
  unfold without
  split_ifs <;> first | exact le_rfl | exact (not_le.mp ‹_›).le

theorem without_stop_le : (r.without behind lo hi).stop ≤ r.stop := by
  unfold without
  split_ifs <;> first | exact le_rfl | exact (not_le.mp ‹_›).le

theorem without_avoids : (r.without behind lo hi).Avoids lo hi := by
  unfold without Avoids
  split_ifs with h1 h2
  · exact .inl h1
  · exact .inr h2
  · exact .inr le_rfl
  · exact .inl le_rfl
  · exact .inr le_rfl

theorem Avoids.mono {r' : Region α} (hs : r.start ≤ r'.start) (he : r'.stop ≤ r.stop)
    (h : r.Avoids lo hi) : r'.Avoids lo hi :=
  h.imp he.trans fun hi => hi.trans hs

theorem without_ordered (h : r.start ≤ r.stop) :
    (r.without behind lo hi).start ≤ (r.without behind lo hi).stop ↔ ¬ (lo < r.start ∧ r.stop < hi) := by
  unfold without
  split_ifs <;> grind

theorem without_turned (h : r.stop < r.start) :
    (r.without behind lo hi).stop < (r.without behind lo hi).start := by
  unfold without
  split_ifs <;> grind

/-! ## One after the other -/

variable (keep : Region α → α → α → Bool)

/-- `keep` tells from what is left so far which side to keep. -/
def withoutAll (r : Region α) (l : List (α × α)) : Region α :=
  l.foldl (fun r x => r.without (keep r x.1 x.2) x.1 x.2) r

/-- None of the ranges begins before what those in front of it left and ends after it. -/
def NoneCovers : Region α → List (α × α) → Prop
  | _, [] => True
  | r, x :: l => ¬ (x.1 < r.start ∧ r.stop < x.2) ∧ NoneCovers (r.without (keep r x.1 x.2) x.1 x.2) l

variable {keep} (l : List (α × α))

theorem start_le_withoutAll : r.start ≤ (r.withoutAll keep l).start := by
  induction l generalizing r with
  | nil => exact le_rfl
  | cons x l ih => exact (start_le_without _).trans ih

theorem withoutAll_stop_le : (r.withoutAll keep l).stop ≤ r.stop := by
  induction l generalizing r with
  | nil => exact le_rfl
  | cons x l ih => exact ih.trans (without_stop_le _)

theorem withoutAll_avoids {l : List (α × α)} {x : α × α} (h : x ∈ l) : (r.withoutAll keep l).Avoids x.1 x.2 := by
  induction l generalizing r with
  | nil => cases h
  | cons y l ih =>
    cases h with
    | head => exact (without_avoids _).mono (start_le_withoutAll l) (withoutAll_stop_le l)
    | tail _ h => exact ih h

theorem withoutAll_turned (h : r.stop < r.start) : (r.withoutAll keep l).stop < (r.withoutAll keep l).start := by
  induction l generalizing r with
  | nil => exact h
  | cons x l ih => exact ih (without_turned _ h)

theorem withoutAll_ordered (h : r.start ≤ r.stop) :
    (r.withoutAll keep l).start ≤ (r.withoutAll keep l).stop ↔ NoneCovers keep r l := by
  induction l generalizing r with
  | nil => exact iff_of_true h trivial
  | cons x l ih =>
    have first := @without_ordered _ _ r x.1 x.2 (keep r x.1 x.2) h
    by_cases hc : x.1 < r.start ∧ r.stop < x.2
    · have turned := @withoutAll_turned _ _ _ keep l (not_le.mp fun hle => first.mp hle hc)
      exact iff_of_false turned.not_ge fun hn => hn.1 hc
    · exact (ih (first.mpr hc)).trans (and_iff_right hc).symm

end Region

end Tukija.Lib.Gaps
