import Tukija.Timeouts.State

/-! What the lists are for: at each CPU, the timeouts that are due in the future,
in this order, however they are linked. -/
namespace Tukija.Timeouts

open Lib.Chain Machine

structure Plan (Cpu : Type) where
  due : Cpu → List Id
  time : Id → Nat
  gone : Id → Bool

namespace Plan

variable {Cpu : Type} [DecidableEq Cpu] (P : Plan Cpu) (k : Cpu) (t : Id)

def boot : Plan Cpu := ⟨fun _ => [], fun _ => 0, fun _ => true⟩

def create : Plan Cpu :=
  { P with time := Function.update P.time t 0, gone := Function.update P.gone t false }

def enqueue (time : Nat) : Plan Cpu :=
  let l := P.due k
  { P with
    due := Function.update P.due k
      (l.takeWhile (P.time · < time) ++ t :: l.dropWhile (P.time · < time))
    time := Function.update P.time t time }

/-- `t` is in no list afterwards, wherever it was. -/
def dequeue : Plan Cpu := { P with due := fun c => (P.due c).erase t }

def destroy : Plan Cpu := { P.dequeue t with gone := Function.update P.gone t true }

def check : List Nat → Plan Cpu → Plan Cpu
  | [], P => P
  | now :: rest, P =>
    match P.due k with
    | [] => P
    | t :: _ => if P.time t ≤ now then check rest (P.dequeue t) else P

def act : Act → Plan Cpu → Plan Cpu
  | .create t, P => P.create t
  | .enqueue t time, P => P.enqueue k t time
  | .dequeue t, P | .clear t, P => P.dequeue t
  | .destroy t, P => P.destroy t
  | .check now, P => P.check k now

def after : List (Cpu × Act) → Plan Cpu → Plan Cpu
  | [], P => P
  | (k, a) :: run, P => after run (P.act k a)

end Plan

/-- The lists of all CPUs are as planned: linked both ways, in the order of time,
without a timeout that is in two of them or has no owner any more. -/
structure Lists {Cpu : Type} (m : Machine Cpu) (P : Plan Cpu) : Prop where
  head : ∀ c, m.list c = (P.due c).head?
  linked : ∀ c, Linked m.next m.prev none (P.due c)
  nodup : ∀ c, (P.due c).Nodup
  disjoint : ∀ c d t, t ∈ P.due c → t ∈ P.due d → c = d
  sorted : ∀ c, (P.due c).Pairwise fun s t => P.time s ≤ P.time t
  owned : ∀ c, ∀ t ∈ P.due c, P.gone t = false
  idle : ∀ t, (∀ c, t ∉ P.due c) → m.prev t = none ∧ m.next t = none
  time : m.time = P.time
  gone : m.gone = P.gone

theorem lists_boot {Cpu : Type} [DecidableEq Cpu] : Lists (Machine.boot : Machine Cpu) Plan.boot where
  head := by simp [Machine.boot, Plan.boot]
  linked := by simp [Plan.boot]
  nodup := by simp [Plan.boot]
  disjoint := by simp [Plan.boot]
  sorted := by simp [Plan.boot]
  owned := by simp [Plan.boot]
  idle := by simp [Machine.boot, Machine.prev, Machine.next]
  time := rfl
  gone := rfl

section Dequeue

variable {Cpu : Type} [DecidableEq Cpu] {m : Machine Cpu} {P : Plan Cpu} {k : Cpu} {t : Id}

theorem dequeue_next (h : m.active k t = true) (u : Id) :
    (m.dequeue k t).next u = if u = t then none else if m.prev t = some u then m.next t else m.next u := by
  unfold Machine.dequeue
  rw [if_pos h]
  cases hn : m.next t <;> cases hp : m.prev t <;> simp [hn, hp, eq_comm]
  · grind
  · grind

theorem dequeue_prev (h : m.active k t = true) (u : Id) :
    (m.dequeue k t).prev u = if u = t then none else if m.next t = some u then m.prev t else m.prev u := by
  unfold Machine.dequeue
  rw [if_pos h]
  cases hn : m.next t <;> cases hp : m.prev t <;> simp [hn, hp, eq_comm]
  · grind
  · grind

theorem dequeue_list (h : m.active k t = true) :
    (m.dequeue k t).list = if m.prev t = none then Function.update m.list k (m.next t) else m.list := by
  unfold Machine.dequeue
  rw [if_pos h]
  cases hn : m.next t <;> cases hp : m.prev t <;> simp [hn, hp]
  grind

theorem dequeue_time : (m.dequeue k t).time = m.time := by
  unfold Machine.dequeue
  funext u
  split
  · cases hn : m.next t <;> cases hp : m.prev t <;> simp [hn, hp] <;> grind
  · simp +contextual

theorem dequeue_gone : (m.dequeue k t).gone = m.gone := by
  unfold Machine.dequeue
  funext u
  split
  · cases hn : m.next t <;> cases hp : m.prev t <;> simp [hn, hp] <;> grind
  · simp +contextual

theorem dequeue_removed (h : m.active k t = true) :
    Removed m.next m.prev (m.dequeue k t).next (m.dequeue k t).prev t where
  next_prev u hu hp := by simp [dequeue_next h, hu, hp]
  prev_next u hu hn := by simp [dequeue_prev h, hu, hn]
  next_other u hu hp := by simp [dequeue_next h, hu, hp]
  prev_other u hu hn := by simp [dequeue_prev h, hu, hn]

theorem dequeue_idle (ha : m.active k t = false) (hp : m.prev t = none) (hn : m.next t = none) :
    m.dequeue k t = m := by
  unfold Machine.dequeue
  rw [if_neg (by simp [ha])]
  have hsame : ({ m.timeout t with prev := none, next := none } : Timeout) = m.timeout t := by
    rw [← m.timeout_prev] at hp
    rw [← m.timeout_next] at hn
    cases hf : m.timeout t
    simp_all
  simp only [Machine.set, hsame, Function.update_eq_self]

end Dequeue

section Enqueue

variable {Cpu : Type} [DecidableEq Cpu] {m : Machine Cpu} {k : Cpu} {t : Id}

omit [DecidableEq Cpu] in
theorem seek_eq (time : Nat) (due : Id → Nat) {fuel : Nat} {l : List Id} {p : Option Id}
    (h : Linked m.next m.prev p l) (hd : ∀ x ∈ l, m.time x = due x) (hf : l.length < fuel) :
    m.seek time fuel p l.head? = some ((l.takeWhile (due · < time)).getLast?.or p) := by
  induction l generalizing p fuel with
  | nil =>
    cases fuel with
    | zero => simp at hf
    | succ fuel => simp [Machine.seek]
  | cons x l ih =>
    cases fuel with
    | zero => simp at hf
    | succ fuel =>
      simp only [Machine.seek, List.head?_cons, hd x (by simp)]
      by_cases hx : time ≤ due x
      · simp [hx]
      · rw [if_neg hx, h.1.2, ih h.2 (fun y hy => hd y (by simp [hy])) (by simpa using hf),
          List.takeWhile_cons_of_pos (by simpa using hx)]
        cases l.takeWhile (due · < time) <;> simp [List.getLast?_cons]

theorem le_of_mem_dropWhile {time : Nat} {due : Id → Nat} {l : List Id}
    (hs : l.Pairwise fun s t => due s ≤ due t) {x : Id} (hx : x ∈ l.dropWhile (due · < time)) :
    time ≤ due x := by
  induction l with
  | nil => simp at hx
  | cons y l ih =>
    rw [List.pairwise_cons] at hs
    by_cases hy : due y < time
    · exact ih hs.2 (by simpa [List.dropWhile_cons, hy] using hx)
    · rw [List.dropWhile_cons_of_neg (by simpa using hy), List.mem_cons] at hx
      rcases hx with rfl | hx
      · exact Nat.le_of_not_lt hy
      · exact (Nat.le_of_not_lt hy).trans (hs.1 x hx)

variable {p : Option Id}

theorem place_next (hp : p ≠ some t) (hn : p.elim (m.list k) m.next ≠ some t) (u : Id) :
    (m.place k t p).next u =
      if u = t then p.elim (m.list k) m.next else if p = some u then some t else m.next u := by
  unfold Machine.place
  cases p with
  | none => cases hl : m.list k <;> simp_all
  | some p =>
    have hpt : p ≠ t := by simpa using hp
    cases hl : m.next p <;> simp_all [hpt.symm] <;> grind

theorem place_prev (hp : p ≠ some t) (hn : p.elim (m.list k) m.next ≠ some t) (u : Id) :
    (m.place k t p).prev u =
      if u = t then p else if p.elim (m.list k) m.next = some u then some t else m.prev u := by
  unfold Machine.place
  cases p with
  | none =>
    cases hl : m.list k with
    | none => simp_all
    | some n =>
      simp_all
      grind
  | some p =>
    have hpt : p ≠ t := by simpa using hp
    cases hl : m.next p with
    | none => simp_all [hpt.symm]
    | some n =>
      simp_all [hpt.symm]
      grind

theorem place_list :
    (m.place k t p).list = if p = none then Function.update m.list k (some t) else m.list := by
  unfold Machine.place
  cases p <;> simp <;> split <;> simp

theorem place_time : (m.place k t p).time = m.time := by
  unfold Machine.place
  funext u
  cases p <;> simp <;> split
  all_goals
    simp
    grind

theorem place_gone : (m.place k t p).gone = m.gone := by
  unfold Machine.place
  funext u
  cases p <;> simp <;> split
  all_goals
    simp
    grind

theorem place_inserted (hp : p ≠ some t) (hn : p.elim (m.list k) m.next ≠ some t) :
    Inserted m.next m.prev (m.place k t p).next (m.place k t p).prev t p (p.elim (m.list k) m.next) where
  next_self := by simp [place_next hp hn]
  prev_self := by simp [place_prev hp hn]
  next_prev u hu h := by rw [place_next hp hn, if_neg hu, if_pos h]
  prev_next u hu h := by rw [place_prev hp hn, if_neg hu, if_pos h]
  next_other u hu h := by rw [place_next hp hn, if_neg hu, if_neg h]
  prev_other u hu h := by rw [place_prev hp hn, if_neg hu, if_neg h]

end Enqueue

namespace Lists

variable {Cpu : Type} [DecidableEq Cpu] {m : Machine Cpu} {P : Plan Cpu} {k c : Cpu} {t : Id}

omit [DecidableEq Cpu] in
theorem mem_iff (h : Lists m P) : (∃ c, t ∈ P.due c) ↔ (m.prev t).isSome ∨ ∃ c, m.list c = some t := by
  constructor
  · rintro ⟨c, hc⟩
    rw [or_iff_not_imp_left, Option.not_isSome_iff_eq_none, (h.linked c).prev_eq_none (h.nodup c) hc]
    exact fun hh => ⟨c, (h.head c).trans hh⟩
  · intro hl
    by_contra hno
    rw [not_exists] at hno
    rcases hl with hp | ⟨c, hc⟩
    · simp [(h.idle t hno).1] at hp
    · rw [h.head] at hc
      exact hno c (List.mem_of_mem_head? hc)

/-- Where a timeout is the first one of no other CPU, `Timeout::active` answers
for all CPUs. -/
theorem active_iff (h : Lists m P) (hat : ∀ c, c ≠ k → m.list c ≠ some t) :
    m.active k t = true ↔ ∃ c, t ∈ P.due c := by
  rw [h.mem_iff]
  simp only [Machine.active, Bool.or_eq_true, beq_iff_eq]
  refine or_congr_right ⟨fun hk => ⟨k, hk⟩, ?_⟩
  rintro ⟨c, hc⟩
  by_cases hck : c = k
  · exact hck ▸ hc
  · exact absurd hc (hat c hck)

theorem dequeue (h : Lists m P) (hat : ∀ c, c ≠ k → m.list c ≠ some t) :
    Lists (m.dequeue k t) (P.dequeue t) := by
  by_cases hin : ∃ c, t ∈ P.due c
  · have ha := (h.active_iff hat).mpr hin
    obtain ⟨c, hc⟩ := hin
    obtain ⟨u, v, huv⟩ := List.append_of_mem hc
    have hnd := huv ▸ h.nodup c
    have hl := huv ▸ h.linked c
    have htu : t ∉ u := by
      intro htu
      exact (List.nodup_append.mp hnd).2.2 t htu t (by simp) rfl
    have herase : (P.due c).erase t = u ++ v := by
      rw [huv, List.erase_append_right _ htu, List.erase_cons_head]
    have hother : ∀ d, d ≠ c → t ∉ P.due d := fun d hd hm => hd (h.disjoint d c t hm hc)
    have hfirst : u = [] → c = k := by
      rintro rfl
      by_contra hck
      exact hat c hck (by rw [h.head, huv]; rfl)
    have hr := dequeue_removed ha
    -- the list of `d`, if `t` is not in it, has none of the fields that change
    have hfar : ∀ d, d ≠ c → ∀ x ∈ P.due d, x ≠ t ∧ m.next t ≠ some x ∧ m.prev t ≠ some x := by
      intro d hd x hx
      refine ⟨?_, fun hn => ?_, fun hp => ?_⟩
      · rintro rfl
        exact hother d hd hx
      · exact hd (h.disjoint d c x hx ((h.linked c).next_mem hc hn))
      · exact hd (h.disjoint d c x hx ((h.linked c).prev_mem hc hp))
    constructor
    case head =>
      intro d
      change _ = ((P.due d).erase t).head?
      rw [dequeue_list ha, hl.prev_eq, hl.next_eq, Option.or_none]
      by_cases hd : d = c
      · subst hd
        rw [herase]
        cases hu : u with
        | nil => simp [hfirst hu]
        | cons x u' => simp [h.head, huv, hu]
      · rw [List.erase_of_not_mem (hother d hd), ← h.head]
        split
        · rename_i hu
          rw [Function.update_of_ne (by rw [← hfirst (by simpa using hu)]; exact hd)]
        · rfl
    case linked =>
      intro d
      change Linked _ _ _ ((P.due d).erase t)
      by_cases hd : d = c
      · subst hd
        rw [herase]
        exact hl.remove hr hnd (by simp)
      · rw [List.erase_of_not_mem (hother d hd)]
        refine (h.linked d).congr (fun x hx => ?_) fun x hx => ?_
        · exact hr.next_other x (hfar d hd x hx).1 (hfar d hd x hx).2.2
        · exact hr.prev_other x (hfar d hd x hx).1 (hfar d hd x hx).2.1
    case nodup => exact fun d => (h.nodup d).erase t
    case disjoint => exact fun d e x hx hy => h.disjoint d e x (List.mem_of_mem_erase hx) (List.mem_of_mem_erase hy)
    case sorted => exact fun d => (h.sorted d).sublist List.erase_sublist
    case owned => exact fun d x hx => h.owned d x (List.mem_of_mem_erase hx)
    case idle =>
      intro x hx
      rw [dequeue_prev ha, dequeue_next ha]
      by_cases hxt : x = t
      · simp [hxt]
      · have hx' : ∀ d, x ∉ P.due d := fun d hd => hx d ((List.mem_erase_of_ne hxt).mpr hd)
        have hn : m.next t ≠ some x := fun hn => hx' c ((h.linked c).next_mem hc hn)
        have hp : m.prev t ≠ some x := fun hp => hx' c ((h.linked c).prev_mem hc hp)
        simpa [hxt, hn, hp] using h.idle x hx'
    case time => exact dequeue_time.trans h.time
    case gone => exact dequeue_gone.trans h.gone
  · have ha : m.active k t = false := by
      rwa [← h.active_iff hat, Bool.not_eq_true] at hin
    rw [not_exists] at hin
    have hP : P.dequeue t = P := by
      simp only [Plan.dequeue, List.erase_of_not_mem (hin _)]
    rw [dequeue_idle ha (h.idle t hin).1 (h.idle t hin).2, hP]
    exact h

omit [DecidableEq Cpu] in
theorem set_idle {f : Timeout → Timeout} (h : Lists m P) (hout : ∀ c, t ∉ P.due c)
    (hp : (f (m.timeout t)).prev = none) (hn : (f (m.timeout t)).next = none) :
    Lists (m.set t f)
      { P with
        time := Function.update P.time t (f (m.timeout t)).time
        gone := Function.update P.gone t (f (m.timeout t)).gone } := by
  have hne : ∀ c, ∀ x ∈ P.due c, x ≠ t := by
    rintro c x hx rfl
    exact hout c hx
  refine ⟨h.head, fun c => ?_, h.nodup, h.disjoint, fun c => ?_, fun c x hx => ?_, fun x hx => ?_, ?_, ?_⟩
  · exact (h.linked c).congr (fun x hx => by simp [hne c x hx]) (fun x hx => by simp [hne c x hx])
  · refine (h.sorted c).imp_of_mem fun {x y} hx hy hxy => ?_
    simpa [hne c x hx, hne c y hy] using hxy
  · simpa [hne c x hx] using h.owned c x hx
  · by_cases hxt : x = t
    · simp [hxt, hp, hn]
    · simpa [hxt] using h.idle x hx
  · funext x
    simp [Function.update_apply, h.time]
  · funext x
    simp [Function.update_apply, h.gone]

theorem place {u v : List Id} (h : Lists m P) (huv : P.due k = u ++ v) (hout : ∀ c, t ∉ P.due c)
    (hg : P.gone t = false) (hu : ∀ x ∈ u, P.time x ≤ P.time t) (hv : ∀ x ∈ v, P.time t ≤ P.time x) :
    Lists (m.place k t u.getLast?) { P with due := Function.update P.due k (u ++ t :: v) } := by
  have hlk := huv ▸ h.linked k
  have hout' : t ∉ u ++ v := huv ▸ hout k
  have hb : u.getLast?.elim (m.list k) m.next = v.head? := by
    rcases List.eq_nil_or_concat' u with rfl | ⟨w, x, rfl⟩
    · simp [h.head, huv]
    · rw [List.getLast?_concat, Option.elim_some]
      exact Linked.next_eq (u := w) (by simpa using hlk)
  have ha : u.getLast? ≠ some t := fun e => hout' (List.mem_append_left _ (List.mem_of_getLast? e))
  have hvt : v.head? ≠ some t := fun e => hout' (List.mem_append_right _ (List.mem_of_mem_head? e))
  have hins := hb ▸ place_inserted ha (hb ▸ hvt)
  have hmem : ∀ {x}, x ∈ u ++ t :: v ↔ x = t ∨ x ∈ P.due k := by
    intro x
    rw [huv]
    simp only [List.mem_append, List.mem_cons]
    tauto
  -- neither of the two neighbours is in another list
  have hfar : ∀ x, x ∉ P.due k → u.getLast? ≠ some x ∧ v.head? ≠ some x := by
    intro x hx
    rw [huv, List.mem_append, not_or] at hx
    exact ⟨fun e => hx.1 (List.mem_of_getLast? e), fun e => hx.2 (List.mem_of_mem_head? e)⟩
  generalize hP : ({ P with due := Function.update P.due k (u ++ t :: v) } : Plan Cpu) = P'
  have hself : P'.due k = u ++ t :: v := by simp [← hP]
  have hother : ∀ c, c ≠ k → P'.due c = P.due c := by simp +contextual [← hP]
  have htime : P'.time = P.time := by rw [← hP]
  have hgone : P'.gone = P.gone := by rw [← hP]
  constructor
  case head =>
    intro c
    rw [place_list]
    by_cases hc : c = k
    · subst hc
      rw [hself]
      cases u <;> simp [h.head, huv]
    · rw [hother c hc]
      split <;> simp [hc, h.head]
  case linked =>
    intro c
    by_cases hc : c = k
    · subst hc
      rw [hself]
      exact Linked.insert (by simpa using hins) hlk (huv ▸ h.nodup c) hout' (by simp)
    · rw [hother c hc]
      have hne : ∀ x ∈ P.due c, x ≠ t ∧ x ∉ P.due k := by
        intro x hx
        refine ⟨?_, fun hk => hc (h.disjoint c k x hx hk)⟩
        rintro rfl
        exact hout c hx
      refine (h.linked c).congr (fun x hx => ?_) fun x hx => ?_
      · exact hins.next_other x (hne x hx).1 (hfar x (hne x hx).2).1
      · exact hins.prev_other x (hne x hx).1 (hfar x (hne x hx).2).2
  case nodup =>
    intro c
    by_cases hc : c = k
    · subst hc
      rw [hself, List.nodup_middle, List.nodup_cons]
      exact ⟨hout', huv ▸ h.nodup c⟩
    · rw [hother c hc]
      exact h.nodup c
  case disjoint =>
    intro c d x hc hd
    have hmem' : ∀ c, x ∈ P'.due c → x = t ∧ c = k ∨ x ∈ P.due c := by
      intro c hx
      by_cases hc : c = k
      · subst hc
        rw [hself, hmem] at hx
        tauto
      · rw [hother c hc] at hx
        exact .inr hx
    rcases hmem' c hc with ⟨rfl, rfl⟩ | hc
    · rcases hmem' d hd with ⟨-, rfl⟩ | hd
      · rfl
      · exact absurd hd (hout d)
    · rcases hmem' d hd with ⟨rfl, rfl⟩ | hd
      · exact absurd hc (hout c)
      · exact h.disjoint c d x hc hd
  case sorted =>
    intro c
    by_cases hc : c = k
    · subst hc
      have hs := huv ▸ h.sorted c
      rw [htime]
      rw [List.pairwise_append] at hs
      rw [hself, List.pairwise_append, List.pairwise_cons]
      refine ⟨hs.1, ⟨hv, hs.2.1⟩, fun x hx y hy => ?_⟩
      rcases List.mem_cons.mp hy with rfl | hy
      · exact hu x hx
      · exact hs.2.2 x hx y hy
    · rw [hother c hc]
      simpa [htime] using h.sorted c
  case owned =>
    intro c x hx
    rw [hgone]
    by_cases hc : c = k
    · subst hc
      rw [hself, hmem] at hx
      rcases hx with rfl | hx
      · exact hg
      · exact h.owned c x hx
    · rw [hother c hc] at hx
      exact h.owned c x hx
  case idle =>
    intro x hx
    have hxk := hx k
    rw [hself, hmem, not_or] at hxk
    have hx' : ∀ c, x ∉ P.due c := by
      intro c hc
      by_cases hck : c = k
      · exact hxk.2 (hck ▸ hc)
      · exact hx c (by rwa [hother c hck])
    rw [hins.prev_other x hxk.1 (hfar x hxk.2).2, hins.next_other x hxk.1 (hfar x hxk.2).1]
    exact h.idle x hx'
  case time => exact (place_time.trans h.time).trans htime.symm
  case gone => exact (place_gone.trans h.gone).trans hgone.symm

theorem enqueue {fuel time : Nat} (h : Lists m P) (hp : m.prev t = none) (hn : m.next t = none)
    (hl : ∀ c, m.list c ≠ some t) (hg : m.gone t = false) (hf : (P.due k).length < fuel) :
    ∃ m', m.enqueue k t fuel time = some m' ∧ Lists m' (P.enqueue k t time) := by
  have hout : ∀ c, t ∉ P.due c := by
    intro c hc
    simpa [hp, hl] using h.mem_iff.mp ⟨c, hc⟩
  have hne : ∀ x ∈ P.due k, x ≠ t := by
    rintro x hx rfl
    exact hout k hx
  have hstamp : Lists (m.set t fun x => { x with time := time })
      { P with time := Function.update P.time t time } := by
    have hsame : Function.update P.gone t (m.timeout t).gone = P.gone := by
      rw [m.timeout_gone, h.gone, Function.update_eq_self]
    simpa only [hsame] using h.set_idle (f := fun x => { x with time := time }) hout hp hn
  have hseek := seek_eq time P.time (hstamp.linked k)
    (fun x hx => by simp [hne x hx, h.time]) hf
  refine ⟨_, ?_, hstamp.place (List.takeWhile_append_dropWhile (p := (P.time · < time))).symm hout ?_ ?_ ?_⟩
  · unfold Machine.enqueue
    simp only [list_set, h.head k, hseek, Option.map_some, Option.or_none]
  · exact (congrFun h.gone t).symm.trans hg
  · intro x hx
    have hxk : x ∈ P.due k := (List.takeWhile_prefix _).subset hx
    simpa [hne x hxk] using (show P.time x < time by simpa using List.mem_takeWhile_imp hx).le
  · intro x hx
    have hxk : x ∈ P.due k := (List.dropWhile_suffix _).subset hx
    simpa [hne x hxk] using le_of_mem_dropWhile (h.sorted k) hx

end Lists

end Tukija.Timeouts
