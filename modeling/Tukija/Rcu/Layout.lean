import Tukija.Rcu.Lists

/-! Which elements are in which list of which CPU.  An element is in one list at
most, whatever the CPUs do at the same time. -/
namespace Tukija.Rcu

open Tukija.Lib.Word

inductive Stage where
  | transit
  | next
  | curr
  | done
  deriving DecidableEq

/-- The elements of each list of a CPU, and the one it is about to enqueue. -/
abbrev Elems := Stage → List ElemId

/-- What is left of `done` while the callbacks run, with `n` the link to it. -/
structure Rest (h : Links) (l : RcuList) (n : Link) (xs : List ElemId) : Prop where
  some : l.head ≠ .null
  nil : xs = [] → n = l.head
  head : ∀ x ∈ xs.head?, n = .elem x
  last : ∀ x ∈ xs.getLast?, h x = l.head
  chain : xs.IsChain fun x y => h x = .elem y

/-- `done` is empty before `update` comes to it. -/
def Pc.early : Pc → Bool
  | .out => true
  | .batch => true
  | .again => true
  | .complete => true
  | .read _ b => b == .quiet
  | .cas _ b _ => b == .quiet
  | .count b => b == .quiet
  | .load b => b == .quiet
  | .store b _ => b == .quiet
  | _ => false

def Pc.walks : Pc → Bool
  | .invoke _ => true
  | .callback _ => true
  | _ => false

def Walked (h : Links) (c : Cpu) (xs : List ElemId) : Prop :=
  match c.pc with
  | .invoke n => xs ≠ [] ∧ Rest h c.done n xs ∧ ∀ x ∈ xs.tail, c.done.head ≠ .elem x
  | .callback n => Rest h c.done n xs ∧ ∀ x ∈ xs, c.done.head ≠ .elem x
  | p => Rep (Round c.done) h c.done xs ∧ (p.early = true → xs = [])

/-- `e` is marked for the list, or is its last element already. -/
def Pending (h : Links) (M : Elems) (e : ElemId) : Prop :=
  (M .transit = [e] ∧ h e = .inUse) ∨ (M .transit = [] ∧ (M .next).getLast? = some e)

def Transit (h : Links) (c : Cpu) (M : Elems) : Prop :=
  match c.call with
  | some (.peek e) => Pending h M e
  | some (.link e old) => Pending h M e ∧ old = c.next.deref h
  | _ => M .transit = []

structure Own (h : Links) (c : Cpu) (M : Elems) : Prop where
  next : Rep Fresh h c.next (M .next)
  curr : Rep (Round c.curr) h c.curr (M .curr)
  done : Walked h c (M .done)
  transit : Transit h c M

/-- The lists of all CPUs, with no element in two of them. -/
structure Shape {ι : Type} (h : Links) (cpu : ι → Cpu) (L : ι → Elems) : Prop where
  nodup : ∀ i k, (L i k).Nodup
  apart : ∀ i k j k' e, e ∈ L i k → e ∈ L j k' → i = j ∧ k = k'
  own : ∀ i, Own h (cpu i) (L i)

section Own

variable {h h' : Links} {c d : Cpu} {M : Elems} {l : RcuList} {n : Link} {xs : List ElemId}
  {e : ElemId}

theorem Rest.congr (hr : Rest h l n xs) (heq : ∀ e ∈ xs, h' e = h e) : Rest h' l n xs := by
  refine ⟨hr.some, hr.nil, hr.head, ?_, isChain_congr hr.chain heq⟩
  intro x hx
  rw [heq x (List.mem_of_getLast? hx)]
  exact hr.last x hx

theorem Walked.congr (hd : Walked h c xs) (heq : ∀ e ∈ xs, h' e = h e) : Walked h' c xs := by
  unfold Walked at hd ⊢
  split at hd
  · exact ⟨hd.1, hd.2.1.congr heq, hd.2.2⟩
  · exact ⟨hd.1.congr heq, hd.2⟩
  · exact ⟨hd.1.congr heq, hd.2⟩

theorem Rep.deref_congr {P : ElemId → Link → Prop} (hl : Rep P h l xs) (heq : ∀ e ∈ xs, h' e = h e) :
    l.deref h' = l.deref h := by
  unfold RcuList.deref
  split
  · rfl
  · rename_i x hx
    exact heq x (List.mem_of_getLast? (hl.last_of_tail hx))

theorem Own.congr (ho : Own h c M) (heq : ∀ k, ∀ e ∈ M k, h' e = h e) : Own h' c M := by
  have hpending : ∀ e, Pending h M e → Pending h' M e := by
    rintro e (⟨hm, hu⟩ | hm)
    · exact .inl ⟨hm, (heq .transit e (by simp [hm])).trans hu⟩
    · exact .inr hm
  refine ⟨ho.next.congr (heq .next), ho.curr.congr (heq .curr), ho.done.congr (heq .done), ?_⟩
  have ht := ho.transit
  unfold Transit at ht ⊢
  split at ht
  · exact hpending _ ht
  · exact ⟨hpending _ ht.1, ht.2.trans (ho.next.deref_congr (heq .next)).symm⟩
  · exact ht

theorem Own.link_ne_null (ho : Own h c M) {k : Stage} (he : e ∈ M k) : h e ≠ .null := by
  have hround : ∀ l : RcuList, Rep (Round l) h l (M k) → h e ≠ .null := by
    intro l hl
    obtain ⟨x, hhead⟩ : ∃ x, (M k).head? = some x :=
      ⟨_, List.head?_eq_some_head (List.ne_nil_of_mem he)⟩
    apply isChain_link_ne_null hl.chain _ he
    intro y hy
    rw [(hl.last y hy).2, hl.head x hhead]
    simp
  have hrest : ∀ n, Rest h c.done n (M k) → h e ≠ .null := by
    intro n hr
    apply isChain_link_ne_null hr.chain _ he
    intro y hy
    rw [hr.last y hy]
    exact hr.some
  cases k with
  | transit =>
    have ht := ho.transit
    have hpending : ∀ x, Pending h M x → h e ≠ .null := by
      rintro x (⟨hm, hu⟩ | ⟨hm, -⟩)
      · rw [hm, List.mem_singleton] at he
        rw [he, hu]
        simp
      · simp [hm] at he
    unfold Transit at ht
    split at ht
    · exact hpending _ ht
    · exact hpending _ ht.1
    · simp [ht] at he
  | next =>
    apply isChain_link_ne_null ho.next.chain _ he
    intro x hx
    rcases (ho.next.last x hx).2 with hu | hu
    · simp [hu]
    · simp [hu]
  | curr => exact hround _ ho.curr
  | done =>
    have hd := ho.done
    unfold Walked at hd
    split at hd
    · exact hrest _ hd.2.1
    · exact hrest _ hd.1
    · exact hround _ hd.1

theorem walked_iff (hp : c.pc.walks = false) :
    Walked h c xs ↔ Rep (Round c.done) h c.done xs ∧ (c.pc.early = true → xs = []) := by
  unfold Walked
  split
  · rename_i hpc
    simp [hpc, Pc.walks] at hp
  · rename_i hpc
    simp [hpc, Pc.walks] at hp
  · exact Iff.rfl

theorem Own.pc (ho : Own h c M) (hn : d.next = c.next) (hc : d.curr = c.curr)
    (hd : d.done = c.done) (hk : d.call = c.call) (hp : c.pc.walks = false)
    (hp' : d.pc.walks = false) (he : d.pc.early = true → c.pc.early = true) : Own h d M := by
  have hw := (walked_iff hp).mp ho.done
  refine ⟨by rw [hn]; exact ho.next, by rw [hc]; exact ho.curr, ?_, ?_⟩
  · rw [walked_iff hp', hd]
    exact ⟨hw.1, fun h => hw.2 (he h)⟩
  · have ht := ho.transit
    unfold Transit at ht ⊢
    rw [hk, hn]
    exact ht

theorem Own.goto {p : Pc} (ho : Own h c M) (hp : c.pc.walks = false) (hp' : p.walks = false)
    (he : p.early = true → c.pc.early = true) : Own h { c with pc := p } M :=
  ho.pc rfl rfl rfl rfl hp hp' he

theorem Own.mark (ho : Own h c M) (hk : c.call = some (.mark e)) (he : ∀ k, e ∉ M k) :
    Own (Function.update h e .inUse) { c with call := some (.peek e) }
      (Function.update M .transit [e]) := by
  have ho' : Own (Function.update h e .inUse) c M := by
    apply ho.congr
    intro k x hx
    apply Function.update_of_ne
    rintro rfl
    exact he k hx
  exact ⟨ho'.next, ho'.curr, ho'.done, .inl ⟨by simp, by simp⟩⟩

def claimed : Option Calling → Bool
  | some (.peek _) => true
  | some (.link _ _) => true
  | _ => false

theorem transit_iff (hk : claimed c.call = false) : Transit h c M ↔ M .transit = [] := by
  unfold Transit
  split
  · rename_i hc
    simp [hc, claimed] at hk
  · rename_i hc
    simp [hc, claimed] at hk
  · exact Iff.rfl

theorem Own.tests {k : Option Calling} (ho : Own h c M) (hk : claimed c.call = false)
    (hk' : claimed k = false) : Own h { c with call := k } M :=
  ⟨ho.next, ho.curr, ho.done, (transit_iff hk').mpr ((transit_iff hk).mp ho.transit)⟩

theorem Own.again (ho : Own h c M) (hk : claimed c.call = false) (ht : c.next.tail = .next e) :
    Own h { c with call := some (.peek e) } M :=
  ⟨ho.next, ho.curr, ho.done, .inr ⟨(transit_iff hk).mp ho.transit, ho.next.last_of_tail ht⟩⟩

theorem Own.peek (ho : Own h c M) (hk : c.call = some (.peek e)) :
    Own h { c with call := some (.link e (c.next.deref h)) } M := by
  have ht := ho.transit
  unfold Transit at ht
  rw [hk] at ht
  exact ⟨ho.next, ho.curr, ho.done, ht, rfl⟩

/-- No element is in two lists of a CPU, or twice in one. -/
structure Apart (M : Elems) : Prop where
  nodup : ∀ k, (M k).Nodup
  apart : ∀ k k' e, e ∈ M k → e ∈ M k' → k = k'

/-- The lists behind `enqueue`. -/
def Elems.called (M : Elems) (e : ElemId) : Elems :=
  Function.update (Function.update M .transit []) .next (M .next ++ [e])

def Elems.completed (M : Elems) : Elems :=
  Function.update (Function.update M .curr []) .done (M .curr)

def Elems.advanced (M : Elems) : Elems :=
  Function.update (Function.update M .next []) .curr (M .next)

/-- What `enqueue` makes of the lists. -/
def Enqueued (M M' : Elems) (e : ElemId) : Prop :=
  M' = M ∧ (M .next).getLast? = some e ∨ M .transit = [e] ∧ M' = M.called e

/-- What a step of a CPU makes of its lists and of the log. -/
inductive Change {ι : Type} (i : ι) (log : List (Event ι)) (M : Elems) : List (Event ι) → Elems → Prop
  | same : Change i log M log M
  | quiet : Change i log M (.quiet i :: log) M
  | mark (e : ElemId) : Change i log M log (Function.update M .transit [e])
  | call {e : ElemId} (h : M .transit = [e]) : Change i log M (.call e :: log) (M.called e)
  | again {e : ElemId} (h : (M .next).getLast? = some e) : Change i log M (.call e :: log) M
  | complete (h : M .done = []) : Change i log M log M.completed
  | advance (h : M .curr = []) : Change i log M log M.advanced
  | invoke {e : ElemId} {xs : List ElemId} (h : M .done = e :: xs) :
    Change i log M (.invoke e :: log) (Function.update M .done xs)

theorem Own.link {old : Link} (ho : Own h c M) (ha : Apart M) (hk : c.call = some (.link e old)) :
    c.next.deref h = old ∧
      (∀ x, x ∉ M .next → (c.next.assign (.elem e) h).2 x = h x) ∧
        ∃ M', Enqueued M M' e ∧ Own (c.next.assign (.elem e) h).2
          { c with
            next := ⟨(c.next.assign (.elem e) h).1.head, .next e,
              (c.next.assign (.elem e) h).1.count + 1⟩
            call := none } M' := by
  have ht := ho.transit
  unfold Transit at ht
  rw [hk] at ht
  obtain ⟨hpending, hold⟩ := ht
  have hother : ∀ k, k ≠ .next → ∀ x ∈ M k, x ∉ M .next := by
    intro k hk x hx hn
    exact hk (ha.apart k .next x hx hn)
  rcases hpending with ⟨hm, hu⟩ | ⟨hm, hlast⟩
  · have he : e ∉ M .next := hother .transit (by simp) e (by simp [hm])
    obtain ⟨hrep, hframe⟩ := ho.next.enqueue he (ha.nodup .next) hu
      ((c.next.assign (.elem e) h).1.count + 1)
    refine ⟨hold.symm, hframe, _, .inr ⟨hm, rfl⟩, ?_, ?_, ?_, ?_⟩
    · simpa [Elems.called] using hrep
    · have hcurr := ho.curr.congr fun x hx => hframe x (hother .curr (by simp) x hx)
      simpa [Elems.called] using hcurr
    · have hdone := ho.done.congr fun x hx => hframe x (hother .done (by simp) x hx)
      have hsame : M.called e .done = M .done := by simp [Elems.called]
      rw [hsame]
      exact hdone
    · simp [Transit, Elems.called]
  · obtain ⟨hrep, hframe⟩ := ho.next.enqueue_last hlast (ha.nodup .next)
      ((c.next.assign (.elem e) h).1.count + 1)
    exact ⟨hold.symm, hframe, M, .inl ⟨rfl, hlast⟩, hrep,
      ho.curr.congr fun x hx => hframe x (hother .curr (by simp) x hx),
      ho.done.congr fun x hx => hframe x (hother .done (by simp) x hx), hm⟩

theorem Own.complete (ho : Own h c M) (ha : Apart M) (hk : c.call = none) (hp : c.pc = .complete)
    (he : c.curr.empty = false) :
    M .done = [] ∧ (∀ x, x ∉ M .curr → (c.done.append c.curr h).2 x = h x) ∧
      Own (c.done.append c.curr h).2
        { c with done := (c.done.append c.curr h).1, curr := .clear, pc := .advance }
        M.completed := by
  have hw := (walked_iff (by rw [hp]; rfl)).mp ho.done
  have hdone : M .done = [] := hw.2 (by rw [hp]; rfl)
  have hcurr : M .curr ≠ [] := by
    intro hnil
    rw [ho.curr.empty_iff.mpr hnil] at he
    simp at he
  have hrep := hw.1
  rw [hdone] at hrep
  obtain ⟨happ, hframe⟩ := hrep.append ho.curr hcurr (ha.nodup .curr)
  have ht := ho.transit
  unfold Transit at ht
  rw [hk] at ht
  refine ⟨hdone, hframe, ?_, ?_, ?_, ?_⟩
  · have hnext := ho.next.congr fun x hx => hframe x fun hc => by
      simpa using ha.apart .next .curr x hx hc
    simpa [Elems.completed] using hnext
  · simpa [Elems.completed] using rep_clear _ _
  · rw [walked_iff rfl]
    refine ⟨?_, by simp [Pc.early]⟩
    simpa [Elems.completed] using happ
  · simpa [Transit, hk, Elems.completed] using ht

theorem Own.advance (ho : Own h c M) (ha : Apart M) (hk : c.call = none) (hp : c.pc = .advance)
    (hc : c.curr.empty = true) (hn : c.next.empty = false) (b : Mword) :
    M .curr = [] ∧ (∀ x, x ∉ M .next → (c.curr.append c.next h).2 x = h x) ∧
      Own (c.curr.append c.next h).2
        { c with
          curr := (c.curr.append c.next h).1, next := .clear, cBatch := b,
          pc := .read .pnd .update }
        M.advanced := by
  have hw := (walked_iff (by rw [hp]; rfl)).mp ho.done
  have hcurr : M .curr = [] := ho.curr.empty_iff.mp hc
  have hnext : M .next ≠ [] := by
    intro hnil
    rw [ho.next.empty_iff.mpr hnil] at hn
    simp at hn
  have hrep := ho.curr
  rw [hcurr] at hrep
  obtain ⟨happ, hframe⟩ := hrep.append ho.next hnext (ha.nodup .next)
  have ht := ho.transit
  unfold Transit at ht
  rw [hk] at ht
  refine ⟨hcurr, hframe, ?_, ?_, ?_, ?_⟩
  · simpa [Elems.advanced] using rep_clear _ _
  · simpa [Elems.advanced] using happ
  · rw [walked_iff rfl]
    have hdone := hw.1.congr fun x hx => hframe x fun hx' => by
      simpa using ha.apart .done .next x hx hx'
    exact ⟨by simpa [Elems.advanced] using hdone, by simp [Pc.early]⟩
  · simpa [Transit, hk, Elems.advanced] using ht

theorem Own.dispatch (ho : Own h c M) (ha : Apart M) (hp : c.pc = .dispatch) :
    Own h { c with pc := if c.done.empty then .out else .invoke c.done.head } M := by
  have hw := (walked_iff (by rw [hp]; rfl)).mp ho.done
  refine ⟨ho.next, ho.curr, ?_, ho.transit⟩
  by_cases hnil : M .done = []
  · have hempty := hw.1.empty_iff.mpr hnil
    rw [hempty]
    exact ⟨hw.1, fun _ => hnil⟩
  · have hempty : c.done.empty = false := by
      by_contra h
      exact hnil (hw.1.empty_iff.mp (by simpa using h))
    rw [hempty]
    have hnd := ha.nodup .done
    cases hm : M .done with
    | nil => exact absurd hm hnil
    | cons x xs =>
      rw [hm] at hw hnd
      have hhead := hw.1.head x rfl
      refine ⟨by simp, ⟨by simp [hhead], by simp, hw.1.head, ?_, hw.1.chain⟩, ?_⟩
      · exact fun y hy => (hw.1.last y hy).2
      · intro y hy heq
        rw [hhead] at heq
        obtain rfl := Link.elem.inj heq
        exact (List.nodup_cons.mp hnd).1 hy

theorem Own.invoke {n : Link} (ho : Own h c M) (ha : Apart M) (hk : c.call = none)
    (hp : c.pc = .invoke n) :
    ∃ e xs, n = .elem e ∧ M .done = e :: xs ∧
      Own (Function.update h e .null) { c with pc := .callback (h e) }
        (Function.update M .done xs) := by
  have hw := ho.done
  unfold Walked at hw
  rw [hp] at hw
  obtain ⟨hne, hrest, htail⟩ := hw
  cases hm : M .done with
  | nil => exact absurd hm hne
  | cons e xs =>
    rw [hm] at hrest htail
    have hnd := ha.nodup .done
    rw [hm] at hnd
    have he : e ∉ xs := (List.nodup_cons.mp hnd).1
    have hother : ∀ k, k ≠ .done → ∀ x ∈ M k, Function.update h e .null x = h x := by
      intro k hk x hx
      apply Function.update_of_ne
      rintro rfl
      exact hk (ha.apart k .done x hx (by simp [hm]))
    have ht := ho.transit
    unfold Transit at ht
    rw [hk] at ht
    refine ⟨e, xs, hrest.head e rfl, rfl, ?_, ?_, ?_, ?_⟩
    · simpa using ho.next.congr (hother .next (by simp))
    · simpa using ho.curr.congr (hother .curr (by simp))
    · simp only [Walked, Function.update_self]
      refine ⟨?_, fun x hx => htail x hx⟩
      have hc := hrest.chain
      have hframe : ∀ x ∈ xs, Function.update h e .null x = h x := by
        intro x hx
        apply Function.update_of_ne
        rintro rfl
        exact he hx
      refine Rest.congr ⟨hrest.some, ?_, ?_, ?_, ?_⟩ hframe
      · rintro rfl
        exact hrest.last e rfl
      · intro x hx
        cases xs with
        | nil => simp at hx
        | cons y xs =>
          obtain rfl : y = x := by simpa using hx
          exact (List.isChain_cons_cons.mp hc).1
      · intro x hx
        apply hrest.last
        cases xs with
        | nil => simp at hx
        | cons y xs => simpa using hx
      · exact hc.tail
    · simpa [Transit, hk] using ht

theorem Own.callback {n : Link} (ho : Own h c M) (hp : c.pc = .callback n) :
    if n = c.done.head then M .done = [] ∧ Own h { c with done := .clear, pc := .out } M
    else Own h { c with pc := .invoke n } M := by
  have hw := ho.done
  unfold Walked at hw
  rw [hp] at hw
  obtain ⟨hrest, hne⟩ := hw
  split
  · rename_i hn
    have hnil : M .done = [] := by
      cases hm : M .done with
      | nil => rfl
      | cons x xs =>
        rw [hm] at hrest hne
        exact absurd (hn.symm.trans (hrest.head x rfl)) (hne x (by simp))
    refine ⟨hnil, ho.next, ho.curr, ?_, ho.transit⟩
    rw [walked_iff rfl, hnil]
    exact ⟨rep_clear _ _, fun _ => rfl⟩
  · rename_i hn
    refine ⟨ho.next, ho.curr, ⟨fun hnil => hn (hrest.nil hnil), hrest, ?_⟩, ho.transit⟩
    exact fun x hx => hne x (List.mem_of_mem_tail hx)

end Own

section Apart

variable {M M' : Elems} {e : ElemId} {xs : List ElemId}

theorem Apart.completed (ha : Apart M) : Apart M.completed := by
  refine ⟨fun k => ?_, fun k k' x hx hx' => ?_⟩
  · have := ha.nodup
    cases k <;> simp [Elems.completed, this]
  · cases k <;> cases k' <;> simp [Elems.completed] at hx hx' ⊢ <;>
      simpa using ha.apart _ _ x hx hx'

theorem Apart.advanced (ha : Apart M) : Apart M.advanced := by
  refine ⟨fun k => ?_, fun k k' x hx hx' => ?_⟩
  · have := ha.nodup
    cases k <;> simp [Elems.advanced, this]
  · cases k <;> cases k' <;> simp [Elems.advanced] at hx hx' ⊢ <;>
      simpa using ha.apart _ _ x hx hx'

theorem Apart.enqueued (ha : Apart M) (hM : Enqueued M M' e) : Apart M' := by
  rcases hM with ⟨rfl, -⟩ | ⟨hm, rfl⟩
  · exact ha
  · have he : ∀ k, k ≠ .transit → e ∉ M k := by
      intro k hk hx
      exact hk (ha.apart k .transit e hx (by simp [hm]))
    have hnd := ha.nodup
    refine ⟨fun k => ?_, fun k k' x hx hx' => ?_⟩
    · cases k <;> simp [Elems.called, hnd, List.nodup_append]
      rintro x hx rfl
      exact he .next (by simp) hx
    · have := ha.apart k k' x
      have h1 := he k
      have h2 := he k'
      cases k <;> cases k' <;> simp [Elems.called] at hx hx' ⊢ <;> grind

theorem Apart.invoked (ha : Apart M) (hm : M .done = e :: xs) :
    Apart (Function.update M .done xs) := by
  have hsub : ∀ k x, x ∈ Function.update M .done xs k → x ∈ M k := by
    intro k x hx
    by_cases hk : k = .done
    · subst hk
      rw [Function.update_self] at hx
      rw [hm]
      exact List.mem_cons_of_mem _ hx
    · rwa [Function.update_of_ne hk] at hx
  refine ⟨fun k => ?_, fun k k' x hx hx' => ha.apart k k' x (hsub k x hx) (hsub k' x hx')⟩
  by_cases hk : k = .done
  · subst hk
    rw [Function.update_self]
    have := ha.nodup .done
    rw [hm] at this
    exact (List.nodup_cons.mp this).2
  · rw [Function.update_of_ne hk]
    exact ha.nodup k

theorem Apart.marked (ha : Apart M) (he : ∀ k, e ∉ M k) :
    Apart (Function.update M .transit [e]) := by
  refine ⟨fun k => ?_, fun k k' x hx hx' => ?_⟩
  · have := ha.nodup
    cases k <;> simp [this]
  · have h1 := ha.apart k k' x
    have h2 := he k
    have h3 := he k'
    cases k <;> cases k' <;> simp at hx hx' ⊢ <;> grind

end Apart

section Shape

variable {ι : Type} {h h' : Links} {cpu : ι → Cpu} {L : ι → Elems} {i : ι} {c : Cpu} {M : Elems}

theorem Shape.apart_own (hs : Shape h cpu L) (i : ι) : Apart (L i) :=
  ⟨hs.nodup i, fun k k' e he he' => (hs.apart i k i k' e he he').2⟩

theorem Shape.frame (hs : Shape h cpu L) {k : Stage} (heq : ∀ e, e ∉ L i k → h' e = h e) (j : ι)
    (hj : j ≠ i) (k' : Stage) : ∀ e ∈ L j k', h' e = h e := by
  intro e he
  apply heq
  intro he'
  exact hj (hs.apart j k' i k e he he').1

variable [DecidableEq ι]

theorem Shape.move (hs : Shape h cpu L) (hM : Apart M)
    (hmem : ∀ k, ∀ e ∈ M k, (∃ k', e ∈ L i k') ∨ ∀ j k', e ∉ L j k')
    (heq : ∀ j, j ≠ i → ∀ k, ∀ e ∈ L j k, h' e = h e) (ho : Own h' c M) :
    Shape h' (Function.update cpu i c) (Function.update L i M) := by
  have hother : ∀ j k k' e, j ≠ i → e ∈ M k → e ∉ L j k' := by
    intro j k k' e hj he he'
    rcases hmem k e he with ⟨k1, h1⟩ | h1
    · exact hj (hs.apart j k' i k1 e he' h1).1
    · exact h1 j k' he'
  refine ⟨fun j k => ?_, fun j k j' k' e he he' => ?_, fun j => ?_⟩
  · by_cases hj : j = i
    · subst hj
      simpa using hM.nodup k
    · simpa [hj] using hs.nodup j k
  · by_cases hj : j = i
    · subst hj
      rw [Function.update_self] at he
      by_cases hj' : j' = j
      · subst hj'
        rw [Function.update_self] at he'
        exact ⟨rfl, hM.apart k k' e he he'⟩
      · rw [Function.update_of_ne hj'] at he'
        exact absurd he' (hother j' k k' e hj' he)
    · rw [Function.update_of_ne hj] at he
      by_cases hj' : j' = i
      · subst hj'
        rw [Function.update_self] at he'
        exact absurd he (hother j k' k e hj he')
      · rw [Function.update_of_ne hj'] at he'
        exact hs.apart j k j' k' e he he'
  · by_cases hj : j = i
    · subst hj
      simpa using ho
    · simpa [hj] using (hs.own j).congr (heq j hj)

theorem Shape.put (hs : Shape h cpu L) (ho : Own h c (L i)) : Shape h (Function.update cpu i c) L := by
  have := hs.move (hs.apart_own i) (fun k e he => .inl ⟨k, he⟩) (fun _ _ _ _ _ => rfl) ho
  rwa [Function.update_eq_self] at this

end Shape

end Tukija.Rcu
