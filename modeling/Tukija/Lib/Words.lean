import Mathlib.Data.List.TakeWhile

/-! The words of a text: the longest runs without a separator. -/
namespace Tukija.Lib.Words

variable {α : Type} {sep : α → Bool}

def words (sep : α → Bool) (l : List α) : List (List α) := (l.splitOnP sep).filter (!·.isEmpty)

@[simp] theorem words_nil : words sep [] = [] := by simp [words]

theorem words_cons_sep {c : α} (h : sep c = true) (l : List α) : words sep (c :: l) = words sep l := by
  unfold words
  rw [← List.nil_append (c :: l), List.splitOnP_append_cons_of_forall_mem (by simp) c h]
  rfl

theorem words_dropWhile (l : List α) : words sep (l.dropWhile sep) = words sep l := by
  induction l with
  | nil => rfl
  | cons c l ih =>
    cases h : sep c with
    | true => rw [List.dropWhile_cons_of_pos h, ih, words_cons_sep h]
    | false => rw [List.dropWhile_cons_of_neg (by simp [h])]

theorem words_append {w l : List α} (hw : w ≠ []) (hno : ∀ c ∈ w, sep c = false)
    (hl : ∀ c ∈ l.head?, sep c = true) : words sep (w ++ l) = w :: words sep l := by
  cases l with
  | nil =>
    unfold words
    rw [List.append_nil, List.splitOnP_eq_singleton hno, List.splitOnP_nil]
    simp [hw]
  | cons c l =>
    have hc := hl c (by simp)
    rw [words_cons_sep hc]
    unfold words
    rw [List.splitOnP_append_cons_of_forall_mem hno c hc]
    simp [hw]

theorem words_of_head {c : α} {l : List α} (h : sep c = false) :
    words sep (c :: l) = (c :: l.takeWhile (!sep ·)) :: words sep (l.dropWhile (!sep ·)) := by
  have hsplit : c :: l = (c :: l.takeWhile (!sep ·)) ++ l.dropWhile (!sep ·) := by
    rw [List.cons_append, List.takeWhile_append_dropWhile]
  have hno : ∀ x ∈ c :: l.takeWhile (!sep ·), sep x = false := by
    intro x hx
    rcases List.mem_cons.mp hx with rfl | hx
    · exact h
    · simpa using List.mem_takeWhile_imp hx
  have hend : ∀ x ∈ (l.dropWhile (!sep ·)).head?, sep x = true := by
    intro x hx
    have := List.head?_dropWhile_not (!sep ·) l
    rw [Option.mem_def.mp hx] at this
    simpa using this
  rw [hsplit, words_append (by simp) hno hend]

end Tukija.Lib.Words
