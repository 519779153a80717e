import Mathlib.Data.List.Chain
import Tukija.Rcu.State

/-! The lists of `Rcu` against the pointers that hold them together. -/
namespace Tukija.Rcu

open Tukija.Lib.Word

/-- The list `l` holds the elements `xs`: each is linked to the next, and the link
of the last is as `P` says. -/
structure Rep (P : ElemId → Link → Prop) (h : Links) (l : RcuList) (xs : List ElemId) : Prop where
  nil : xs = [] → l.head = .null ∧ l.tail = .head
  head : ∀ x ∈ xs.head?, l.head = .elem x
  last : ∀ x ∈ xs.getLast?, l.tail = .next x ∧ P x (h x)
  chain : xs.IsChain fun x y => h x = .elem y

def Fresh (e : ElemId) (x : Link) : Prop := x = .inUse ∨ x = .elem e

/-- The end of a list that has been moved: it leads back to its head. -/
def Round (l : RcuList) (_ : ElemId) (x : Link) : Prop := x = l.head

section Rep

variable {P : ElemId → Link → Prop} {h h' : Links} {l m : RcuList} {xs ys : List ElemId} {e : ElemId}

theorem rep_clear (P : ElemId → Link → Prop) (h : Links) : Rep P h .clear [] :=
  ⟨fun _ => ⟨rfl, rfl⟩, by simp, by simp, .nil⟩

theorem Rep.empty_iff (hl : Rep P h l xs) : l.empty = true ↔ xs = [] := by
  cases xs with
  | nil => simp [RcuList.empty, hl.nil rfl]
  | cons x xs =>
    have hhead := hl.head x rfl
    obtain ⟨y, hy⟩ : ∃ y, (x :: xs).getLast? = some y := ⟨_, List.getLast?_eq_some_getLast (by simp)⟩
    have htail := (hl.last y hy).1
    simp [RcuList.empty, hhead, htail]

theorem isChain_congr (hc : xs.IsChain fun x y => h x = .elem y) (heq : ∀ e ∈ xs, h' e = h e) :
    xs.IsChain fun x y => h' x = .elem y := by
  induction xs with
  | nil => exact .nil
  | cons x xs ih =>
    cases xs with
    | nil => exact .singleton _
    | cons y xs =>
      rw [List.isChain_cons_cons] at hc ⊢
      refine ⟨(heq x (by simp)).trans hc.1, ih hc.2 fun e he => heq e (List.mem_cons_of_mem _ he)⟩

theorem notMem_of_nodup {u : List ElemId} (hnd : (u ++ [e]).Nodup) : e ∉ u := fun he =>
  (List.nodup_append.mp hnd).2.2 e he e (by simp) rfl

theorem isChain_update {u : List ElemId} (hc : (u ++ [e]).IsChain fun x y => h x = .elem y)
    (hnd : (u ++ [e]).Nodup) (x : Link) :
    (u ++ [e]).IsChain fun y z => Function.update h e x y = .elem z := by
  have heu := notMem_of_nodup hnd
  rw [List.isChain_append] at hc ⊢
  refine ⟨isChain_congr hc.1 ?_, .singleton _, ?_⟩
  · intro y hy
    apply Function.update_of_ne
    rintro rfl
    exact heu hy
  · intro y hy z hz
    rw [Function.update_of_ne]
    · exact hc.2.2 y hy z hz
    · rintro rfl
      exact heu (List.mem_of_getLast? hy)

theorem Rep.congr (hl : Rep P h l xs) (heq : ∀ e ∈ xs, h' e = h e) : Rep P h' l xs := by
  refine ⟨hl.nil, hl.head, ?_, isChain_congr hl.chain heq⟩
  intro x hx
  rw [heq x (List.mem_of_getLast? hx)]
  exact hl.last x hx

theorem Rep.update (hl : Rep P h l xs) (he : e ∉ xs) (x : Link) :
    Rep P (Function.update h e x) l xs := by
  apply hl.congr
  intro y hy
  apply Function.update_of_ne
  rintro rfl
  exact he hy

theorem isChain_link_ne_null (hc : xs.IsChain fun x y => h x = .elem y)
    (hlast : ∀ x ∈ xs.getLast?, h x ≠ .null) (he : e ∈ xs) : h e ≠ .null := by
  obtain ⟨u, v, rfl⟩ := List.append_of_mem he
  cases v with
  | nil => exact hlast e (by simp)
  | cons y v =>
    have hc' := (List.isChain_append.mp hc).2.1
    rw [List.isChain_cons_cons] at hc'
    rw [hc'.1]
    simp

theorem Rep.last_of_tail (hl : Rep P h l xs) (ht : l.tail = .next e) : xs.getLast? = some e := by
  cases hx : xs.getLast? with
  | none =>
    have hnil := List.getLast?_eq_none_iff.mp hx
    rw [(hl.nil hnil).2] at ht
    simp at ht
  | some y =>
    have := (hl.last y hx).1
    rw [ht] at this
    rw [Slot.next.inj this]

theorem Rep.append {Q : ElemId → Link → Prop} (hl : Rep P h l []) (hm : Rep Q h m ys) (hy : ys ≠ [])
    (hnd : ys.Nodup) :
    Rep (Round (l.append m h).1) (l.append m h).2 (l.append m h).1 ys ∧
      ∀ e, e ∉ ys → (l.append m h).2 e = h e := by
  obtain ⟨hhead, htail⟩ := hl.nil rfl
  obtain ⟨y, hlast⟩ : ∃ y, ys.getLast? = some y := ⟨_, List.getLast?_eq_some_getLast hy⟩
  have hmt := (hm.last y hlast).1
  have happ : l.append m h =
      (⟨m.head, .next y, l.count + m.count⟩, Function.update h y m.head) := by
    unfold RcuList.append RcuList.assign
    simp [htail, hmt]
  rw [happ]
  refine ⟨⟨fun hnil => absurd hnil hy, hm.head, ?_, ?_⟩, ?_⟩
  · intro x hx
    obtain rfl : x = y := Option.some.inj (hx.symm.trans hlast)
    exact ⟨rfl, by simp [Round]⟩
  · obtain ⟨u, rfl⟩ := List.getLast?_eq_some_iff.mp hlast
    exact isChain_update hm.chain hnd _
  · intro e he
    apply Function.update_of_ne
    rintro rfl
    exact he (List.mem_of_getLast? hlast)

theorem Rep.enqueue (hl : Rep Fresh h l xs) (he : e ∉ xs) (hnd : xs.Nodup) (hu : h e = .inUse)
    (c : Mword) :
    Rep Fresh (l.assign (.elem e) h).2 ⟨(l.assign (.elem e) h).1.head, .next e, c⟩ (xs ++ [e]) ∧
      ∀ x, x ∉ xs → (l.assign (.elem e) h).2 x = h x := by
  cases hx : xs.getLast? with
  | none =>
    obtain rfl := List.getLast?_eq_none_iff.mp hx
    have hset : l.assign (.elem e) h = ({ l with head := .elem e }, h) := by
      simp [RcuList.assign, hl.nil rfl]
    rw [hset]
    refine ⟨⟨by simp, by simp, ?_, .singleton _⟩, fun _ _ => rfl⟩
    intro x hx
    obtain rfl : e = x := by simpa using hx
    exact ⟨rfl, .inl hu⟩
  | some y =>
    obtain ⟨u, rfl⟩ := List.getLast?_eq_some_iff.mp hx
    have hset : l.assign (.elem e) h = (l, Function.update h y (.elem e)) := by
      simp [RcuList.assign, (hl.last y hx).1]
    have hye : e ≠ y := by
      rintro rfl
      exact he (by simp)
    rw [hset]
    refine ⟨⟨by simp, ?_, ?_, ?_⟩, ?_⟩
    · intro x hx
      apply hl.head
      cases u with
      | nil => simpa using hx
      | cons z u => simpa using hx
    · intro x hx
      obtain rfl : e = x := by simpa using hx
      exact ⟨rfl, .inl ((Function.update_of_ne hye _ _).trans hu)⟩
    · rw [List.isChain_append]
      refine ⟨isChain_update hl.chain hnd _, .singleton _, ?_⟩
      · intro x hx z hz
        obtain rfl : y = x := by simpa using hx
        obtain rfl : e = z := by simpa using hz
        simp
    · intro x hx
      apply Function.update_of_ne
      rintro rfl
      exact hx (by simp)

theorem Rep.enqueue_last (hl : Rep Fresh h l xs) (hx : xs.getLast? = some e) (hnd : xs.Nodup)
    (c : Mword) :
    Rep Fresh (l.assign (.elem e) h).2 ⟨(l.assign (.elem e) h).1.head, .next e, c⟩ xs ∧
      ∀ x, x ∉ xs → (l.assign (.elem e) h).2 x = h x := by
  have hset : l.assign (.elem e) h = (l, Function.update h e (.elem e)) := by
    simp [RcuList.assign, (hl.last e hx).1]
  obtain ⟨u, rfl⟩ := List.getLast?_eq_some_iff.mp hx
  rw [hset]
  refine ⟨⟨by simp, hl.head, ?_, ?_⟩, ?_⟩
  · intro x hx
    obtain rfl : e = x := by simpa using hx
    exact ⟨rfl, .inr (by simp)⟩
  · exact isChain_update hl.chain hnd _
  · intro x hx
    apply Function.update_of_ne
    rintro rfl
    exact hx (by simp)

end Rep

end Tukija.Rcu
