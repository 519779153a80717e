import Mathlib

/-! Doubly linked rings.  `next` and `prev` are arbitrary pointer fields; a ring
is read off as the list of the other members, in order, from any one of them. -/
namespace Tukija.Lib.Ring

variable {α : Type*} {next prev next' prev' : α → α}

/-- Following `next` from `a` visits `l` and then reaches `b`; `prev` undoes
every one of these steps. -/
def Path (next prev : α → α) : α → List α → α → Prop
  | a, [], b => next a = b ∧ prev b = a
  | a, x :: l, b => (next a = x ∧ prev x = a) ∧ Path next prev x l b

/-- `a` and the members of `l`, in this order, form one ring. -/
structure LinkedRing (next prev : α → α) (a : α) (l : List α) : Prop where
  nodup : (a :: l).Nodup
  path : Path next prev a l a

@[simp] theorem path_nil {a b : α} :
    Path next prev a [] b ↔ next a = b ∧ prev b = a := Iff.rfl

@[simp] theorem path_cons {a b x : α} {l : List α} :
    Path next prev a (x :: l) b ↔ (next a = x ∧ prev x = a) ∧ Path next prev x l b := Iff.rfl

theorem path_append {a b c : α} {u v : List α} :
    Path next prev a (u ++ c :: v) b ↔ Path next prev a u c ∧ Path next prev c v b := by
  induction u generalizing a with
  | nil => simp
  | cons x u ih => simp [ih, and_assoc]

theorem Path.congr {a b : α} {l : List α} (h : Path next prev a l b)
    (hn : ∀ x ∈ a :: l, next' x = next x) (hp : ∀ x ∈ l ++ [b], prev' x = prev x) :
    Path next' prev' a l b := by
  induction l generalizing a with
  | nil =>
    obtain ⟨h1, h2⟩ := h
    exact ⟨by rw [hn a (by simp), h1], by rw [hp b (by simp), h2]⟩
  | cons x l ih =>
    obtain ⟨⟨h1, h2⟩, h3⟩ := h
    refine ⟨⟨by rw [hn a (by simp), h1], by rw [hp x (by simp), h2]⟩, ?_⟩
    exact ih h3 (fun y hy => hn y (by simp_all)) (fun y hy => hp y (by simp_all))

theorem Path.next_eq {a b : α} {l : List α} (h : Path next prev a l b) :
    next a = (l ++ [b]).head (by simp) := by
  cases l with
  | nil => exact h.1
  | cons x l => exact h.1.1

theorem Path.prev_eq {a b : α} {l : List α} (h : Path next prev a l b) :
    prev b = (a :: l).getLast (by simp) := by
  induction l generalizing a with
  | nil => exact h.2
  | cons x l ih => simpa using ih h.2

theorem Path.next_mem {a b x : α} {l : List α} (h : Path next prev a l b) (hx : x ∈ a :: l) :
    next x ∈ l ++ [b] := by
  induction l generalizing a with
  | nil => simp_all
  | cons y l ih =>
    rcases List.mem_cons.mp hx with rfl | hx
    · simp [h.1.1]
    · simpa using Or.inr (by simpa using ih h.2 hx)

theorem Path.prev_mem {a b x : α} {l : List α} (h : Path next prev a l b) (hx : x ∈ l ++ [b]) :
    prev x ∈ a :: l := by
  induction l generalizing a with
  | nil => simp_all
  | cons y l ih =>
    rw [List.cons_append, List.mem_cons] at hx
    rcases hx with rfl | hx
    · simp [h.1.2]
    · exact List.mem_cons_of_mem _ (ih h.2 hx)

theorem Path.prev_iterate {a b : α} {l : List α} (h : Path next prev a l b) :
    prev^[l.length + 1] b = a := by
  induction l generalizing a with
  | nil => exact h.2
  | cons x l ih =>
    rw [List.length_cons, Function.iterate_succ_apply', ih h.2]
    exact h.1.2

theorem Path.prev_iterate_mem {a b : α} {l : List α} (h : Path next prev a l b) {k : Nat}
    (hk : k < l.length) : prev^[k + 1] b ∈ l := by
  induction l generalizing a k with
  | nil => simp at hk
  | cons x l ih =>
    rw [List.length_cons] at hk
    by_cases hlt : k < l.length
    · exact List.mem_cons_of_mem _ (ih h.2 hlt)
    · obtain rfl : k = l.length := by omega
      rw [h.2.prev_iterate]
      exact List.mem_cons_self

theorem Path.next_iterate {a b : α} {l : List α} (h : Path next prev a l b) :
    next^[l.length + 1] a = b := by
  induction l generalizing a with
  | nil => exact h.1
  | cons x l ih =>
    rw [List.length_cons, Function.iterate_succ_apply, h.1.1, ih h.2]

theorem Path.next_iterate_get {a b : α} {l : List α} (h : Path next prev a l b) {k : Nat}
    (hk : k < l.length) : next^[k + 1] a = l[k] := by
  induction l generalizing a k with
  | nil => simp at hk
  | cons x l ih =>
    rw [Function.iterate_succ_apply, h.1.1]
    cases k with
    | zero => rfl
    | succ k => exact ih h.2 (by simpa using hk)

section InsertBehind

variable [DecidableEq α]

/-- Put `n` behind the member `m`, if `m` is there. -/
def insertBehind (m n : α) : List α → List α
  | [] => []
  | x :: l => if x = m then x :: n :: l else x :: insertBehind m n l

theorem insertBehind_of_notMem {m n : α} {l : List α} (h : m ∉ l) : insertBehind m n l = l := by
  induction l with
  | nil => rfl
  | cons x l ih =>
    have hx : x ≠ m := fun e => h (by simp [e])
    simp [insertBehind, hx, ih (fun e => h (by simp [e]))]

theorem insertBehind_append {m n : α} {u v : List α} (h : (u ++ m :: v).Nodup) :
    insertBehind m n (u ++ m :: v) = u ++ m :: n :: v := by
  induction u with
  | nil => simp [insertBehind]
  | cons x u ih =>
    have hx : x ≠ m := by
      rintro rfl
      simp at h
    rw [List.cons_append, insertBehind, if_neg hx, ih (List.nodup_cons.mp h).2, List.cons_append]

theorem insertBehind_append_of_notMem {m n : α} {u v : List α} (h : m ∉ u) :
    insertBehind m n (u ++ v) = u ++ insertBehind m n v := by
  induction u with
  | nil => rfl
  | cons x u ih =>
    have hx : x ≠ m := fun e => h (by simp [e])
    rw [List.cons_append, insertBehind, if_neg hx, ih (fun e => h (by simp [e])), List.cons_append]

theorem head?_insertBehind (m n : α) (l : List α) : (insertBehind m n l).head? = l.head? := by
  cases l with
  | nil => rfl
  | cons x l =>
    unfold insertBehind
    split
    · rfl
    · rfl

theorem erase_append_of_nodup {n : α} {u v : List α} (h : (u ++ v).Nodup) :
    (u ++ v).erase n = u.erase n ++ v.erase n := by
  by_cases hu : n ∈ u
  · have hv : n ∉ v := by
      intro hv
      exact (List.nodup_append.mp h).2.2 n hu n hv rfl
    rw [List.erase_append_left _ hu, List.erase_of_not_mem hv]
  · rw [List.erase_append_right _ hu, List.erase_of_not_mem hu]

theorem mem_insertBehind {m n x : α} {l : List α} (h : x ∈ insertBehind m n l) :
    x = n ∨ x ∈ l := by
  induction l with
  | nil => simp [insertBehind] at h
  | cons y l ih =>
    unfold insertBehind at h
    split at h
    · simp only [List.mem_cons] at h ⊢
      tauto
    · rcases List.mem_cons.mp h with h | h
      · simp [h]
      · rcases ih h with h | h <;> simp [h]

end InsertBehind

namespace LinkedRing

theorem notMem {a : α} {l : List α} (h : LinkedRing next prev a l) : a ∉ l :=
  (List.nodup_cons.mp h.nodup).1

theorem tail_nodup {a : α} {l : List α} (h : LinkedRing next prev a l) : l.Nodup :=
  (List.nodup_cons.mp h.nodup).2

theorem unique {a : α} {l l' : List α} (h : LinkedRing next prev a l) (h' : LinkedRing next prev a l') :
    l = l' := by
  have key : ∀ (l l' : List α) (c : α), a ∉ l → a ∉ l' →
      Path next prev c l a → Path next prev c l' a → l = l' := by
    intro l
    induction l with
    | nil =>
      intro l' c _ ha' hp hp'
      cases l' with
      | nil => rfl
      | cons y l' => exact absurd (hp.1.symm.trans hp'.1.1) (by rintro rfl; simp at ha')
    | cons x l ih =>
      intro l' c ha ha' hp hp'
      cases l' with
      | nil => exact absurd (hp'.1.symm.trans hp.1.1) (by rintro rfl; simp at ha)
      | cons y l' =>
        obtain rfl : x = y := hp.1.1.symm.trans hp'.1.1
        rw [ih l' x (by simp_all) (by simp_all) hp.2 hp'.2]
  exact key l l' a h.notMem h'.notMem h.path h'.path

theorem rotate {a b : α} {u v : List α} (h : LinkedRing next prev a (u ++ b :: v)) :
    LinkedRing next prev b (v ++ a :: u) := by
  refine ⟨?_, ?_⟩
  · have hperm : (a :: (u ++ b :: v)).Perm (b :: (v ++ a :: u)) := by
      have h1 : (a :: u ++ b :: v).Perm (b :: v ++ a :: u) := List.perm_append_comm
      simpa using h1
    exact hperm.nodup h.nodup
  · have := path_append.mp h.path
    exact path_append.mpr ⟨this.2, this.1⟩

theorem congr {a : α} {l : List α} (h : LinkedRing next prev a l)
    (hn : ∀ x ∈ a :: l, next' x = next x) (hp : ∀ x ∈ a :: l, prev' x = prev x) :
    LinkedRing next' prev' a l :=
  ⟨h.nodup, h.path.congr hn (fun x hx => hp x (by
    rcases List.mem_append.mp hx with hx | hx <;> simp_all))⟩

theorem next_mem {a x : α} {l : List α} (h : LinkedRing next prev a l) (hx : x ∈ a :: l) :
    next x ∈ a :: l := by
  have := h.path.next_mem hx
  rcases List.mem_append.mp this with hm | hm <;> simp_all

theorem prev_mem {a x : α} {l : List α} (h : LinkedRing next prev a l) (hx : x ∈ a :: l) :
    prev x ∈ a :: l :=
  h.path.prev_mem (by rcases List.mem_cons.mp hx with rfl | hx <;> simp_all)

theorem next_eq {a : α} {l : List α} (h : LinkedRing next prev a l) :
    next a = (l ++ [a]).head (by simp) := h.path.next_eq

theorem exists_of_mem {a b : α} {l : List α} (h : LinkedRing next prev a l) (hb : b ∈ a :: l) :
    ∃ l', LinkedRing next prev b l' ∧ ∀ x, x ∈ b :: l' ↔ x ∈ a :: l := by
  rcases List.mem_cons.mp hb with rfl | hb
  · exact ⟨l, h, fun _ => Iff.rfl⟩
  · obtain ⟨u, v, rfl⟩ := List.append_of_mem hb
    refine ⟨v ++ a :: u, h.rotate, fun x => ?_⟩
    simp only [List.mem_cons, List.mem_append]
    tauto

theorem prev_next {a x : α} {l : List α} (h : LinkedRing next prev a l) (hx : x ∈ a :: l) :
    prev (next x) = x := by
  obtain ⟨l', h', -⟩ := h.exists_of_mem hx
  have hp := h'.path
  cases l' with
  | nil => rw [hp.1, hp.2]
  | cons y l' => rw [hp.1.1, hp.1.2]

theorem next_prev {a x : α} {l : List α} (h : LinkedRing next prev a l) (hx : x ∈ a :: l) :
    next (prev x) = x := by
  obtain ⟨y, hy, rfl⟩ : ∃ y ∈ a :: l, next y = x := by
    obtain ⟨l', h', hmem⟩ := h.exists_of_mem hx
    refine ⟨prev x, h.prev_mem hx, ?_⟩
    have hp := h'.path
    rcases List.eq_nil_or_concat l' with rfl | ⟨u, z, rfl⟩
    · rw [hp.2, hp.1]
    · rw [List.concat_eq_append] at hp
      have := (path_append.mp hp).2
      rw [this.2, this.1]
  rw [h.prev_next hy]

/-- The effect of linking `n` in behind `p`. -/
structure Inserted (next prev next' prev' : α → α) (p n : α) : Prop where
  next_p : next' p = n
  next_n : next' n = next p
  prev_n : prev' n = p
  prev_q : prev' (next p) = n
  next_of_ne : ∀ x, x ≠ p → x ≠ n → next' x = next x
  prev_of_ne : ∀ x, x ≠ next p → x ≠ n → prev' x = prev x

theorem insert_head {p n : α} {l : List α} (hi : Inserted next prev next' prev' p n)
    (h : LinkedRing next prev p l) (hn : n ∉ p :: l) : LinkedRing next' prev' p (n :: l) := by
  have hnp : n ≠ p := fun e => hn (by simp [e])
  refine ⟨?_, ⟨hi.next_p, hi.prev_n⟩, ?_⟩
  · rw [List.nodup_cons]
    refine ⟨?_, List.nodup_cons.mpr ⟨fun e => hn (List.mem_cons_of_mem _ e), h.tail_nodup⟩⟩
    simpa [hnp.symm] using h.notMem
  cases l with
  | nil =>
    have hq : next p = p := h.path.1
    exact ⟨by rw [hi.next_n, hq], by rw [← hi.prev_q, hq]⟩
  | cons x l =>
    have hq : next p = x := h.path.1.1
    refine ⟨⟨by rw [hi.next_n, hq], by rw [← hi.prev_q, hq]⟩, ?_⟩
    have hnd := h.tail_nodup
    refine h.path.2.congr (fun y hy => hi.next_of_ne y ?_ ?_) (fun y hy => hi.prev_of_ne y ?_ ?_)
    · rintro rfl; exact h.notMem hy
    · rintro rfl; exact hn (List.mem_cons_of_mem _ hy)
    · rw [hq]
      rintro rfl
      rcases List.mem_append.mp hy with hy | hy
      · exact (List.nodup_cons.mp hnd).1 hy
      · exact h.notMem (by simp_all)
    · rintro rfl
      rcases List.mem_append.mp hy with hy | hy <;> simp_all

theorem insert {c p n : α} {u v : List α} (hi : Inserted next prev next' prev' p n)
    (h : LinkedRing next prev c (u ++ p :: v)) (hn : n ∉ c :: (u ++ p :: v)) :
    LinkedRing next' prev' c (u ++ p :: n :: v) := by
  have hr := insert_head hi h.rotate (by simp_all)
  rw [show n :: (v ++ c :: u) = (n :: v) ++ c :: u by simp] at hr
  simpa using hr.rotate

theorem insert_other {c p n : α} {l m : List α} (hi : Inserted next prev next' prev' p n)
    (h : LinkedRing next prev c l) (hpr : LinkedRing next prev p m) (hp : p ∉ c :: l) (hn : n ∉ c :: l) :
    LinkedRing next' prev' c l := by
  refine h.congr (fun x hx => hi.next_of_ne x ?_ ?_) (fun x hx => hi.prev_of_ne x ?_ ?_)
  · rintro rfl; exact hp hx
  · rintro rfl; exact hn hx
  · rintro rfl
    have := h.prev_mem hx
    rw [hpr.prev_next (by simp)] at this
    exact hp this
  · rintro rfl; exact hn hx

/-- The effect of taking `n` out: its neighbours point at each other. -/
structure Removed (next prev next' prev' : α → α) (n : α) : Prop where
  next_p : next' (prev n) = next n
  prev_q : prev' (next n) = prev n
  next_of_ne : ∀ x, x ≠ prev n → next' x = next x
  prev_of_ne : ∀ x, x ≠ next n → prev' x = prev x

theorem remove_head {p n : α} {l : List α} (hr : Removed next prev next' prev' n)
    (h : LinkedRing next prev p (n :: l)) : LinkedRing next' prev' p l := by
  have hp : prev n = p := h.path.1.2
  have hnd := h.nodup
  refine ⟨by simp_all, ?_⟩
  cases l with
  | nil =>
    have hq : next n = p := h.path.2.1
    have h1 := hr.next_p
    have h2 := hr.prev_q
    rw [hp, hq] at h1 h2
    exact ⟨h1, h2⟩
  | cons x l =>
    have hq : next n = x := h.path.2.1.1
    refine ⟨⟨by rw [← hq, ← hr.next_p, hp], by rw [← hp, ← hr.prev_q, hq]⟩, ?_⟩
    refine h.path.2.2.congr (fun y hy => hr.next_of_ne y ?_) (fun y hy => hr.prev_of_ne y ?_)
    · rw [hp]
      rintro rfl
      simp_all
    · rw [hq]
      rintro rfl
      rcases List.mem_append.mp hy with hy | hy <;> simp_all

theorem remove {c n : α} {u v : List α} (hr : Removed next prev next' prev' n)
    (h : LinkedRing next prev c (u ++ n :: v)) : LinkedRing next' prev' c (u ++ v) := by
  rcases List.eq_nil_or_concat u with rfl | ⟨u, p, rfl⟩
  · exact remove_head hr h
  · simp only [List.concat_eq_append, List.append_assoc, List.cons_append, List.nil_append] at h ⊢
    have h1 := h.rotate
    simp only [List.cons_append] at h1
    exact (remove_head hr h1).rotate

theorem remove_other {c n : α} {l m : List α} (hr : Removed next prev next' prev' n)
    (h : LinkedRing next prev c l) (hnr : LinkedRing next prev n m) (hn : n ∉ c :: l) :
    LinkedRing next' prev' c l := by
  refine h.congr (fun x hx => hr.next_of_ne x ?_) (fun x hx => hr.prev_of_ne x ?_)
  · rintro rfl
    have := h.next_mem hx
    rw [hnr.next_prev (by simp)] at this
    exact hn this
  · rintro rfl
    have := h.prev_mem hx
    rw [hnr.prev_next (by simp)] at this
    exact hn this

end LinkedRing

end Tukija.Lib.Ring
