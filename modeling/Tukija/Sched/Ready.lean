import Tukija.Sched.Remote

/-! The ready lists over whole runs: what is in them, in which order, and which SC is
picked. -/
namespace Tukija.Sched

open Tukija.Lib.Word Tukija.Lib.Ring Tukija.Sm

section Standing

variable {ι S : Type} [DecidableEq S]

/-- Where the SCs stand after an event: on which CPU one is ready, and behind whom.  What
goes to the end of a list comes after all that came before, what goes to the front
comes before them. -/
def stand (r : Int × (S → Option (ι × Int))) : Event ι S → Int × (S → Option (ι × Int))
  | .ready c x first =>
    (r.1 + 1, Function.update r.2 x (some (c, if first then -(r.1 + 1) else r.1 + 1)))
  | .unready _ x => (r.1, Function.update r.2 x none)
  | _ => r

def standing (log : List (Event ι S)) : Int × (S → Option (ι × Int)) :=
  log.foldl stand (0, fun _ => none)

theorem standing_append (log es : List (Event ι S)) :
    standing (log ++ es) = es.foldl stand (standing log) := List.foldl_append

end Standing

section Lower

variable {S : Type} {list : Nat → Option S}

theorem lower_spec (n : Nat) : lower list n ≤ n ∧ (∀ q, lower list n < q → q ≤ n → list q = none) ∧
    (lower list n = 0 ∨ list (lower list n) ≠ none) := by
  induction n with
  | zero => exact ⟨le_rfl, fun q h1 h2 => absurd h1 (by simp [lower]; omega), Or.inl rfl⟩
  | succ n ih =>
    unfold lower
    by_cases hn : list (n + 1) = none
    · rw [if_pos hn]
      refine ⟨ih.1.trans (Nat.le_succ n), fun q h1 h2 => ?_, ih.2.2⟩
      rcases Nat.lt_or_ge n q with hq | hq
      · rwa [show q = n + 1 by omega]
      · exact ih.2.1 q h1 hq
    · rw [if_neg hn]
      exact ⟨le_rfl, fun q h1 h2 => absurd h1 (by omega), Or.inr hn⟩

end Lower

namespace Machine

variable {ι S E : Type} {s s' : Machine ι S E} {l l' : Slot ι → List S} {c : ι} {x : S}

section Rank

variable [DecidableEq S]

def count (s : Machine ι S E) : Int := (standing s.log).1

def rank (s : Machine ι S E) (x : S) : Option (ι × Int) := (standing s.log).2 x

/-- The lists of a CPU have the SCs that are ready on it by their priority and in their
order, and `prio_top` is the highest of them that is not empty. -/
structure Ranked (s : Machine ι S E) (l : Slot ι → List S) : Prop where
  count : 0 ≤ s.count
  bound : ∀ x c k, s.rank x = some (c, k) → -s.count ≤ k ∧ k ≤ s.count
  mem : ∀ c p x, x ∈ l (.ready c p) ↔ (∃ k, s.rank x = some (c, k)) ∧ (s.sc x).prio = p
  order : ∀ c p, (l (.ready c p)).Pairwise fun x y =>
    ∀ i j, s.rank x = some (c, i) → s.rank y = some (c, j) → i < j
  top : ∀ c p, (s.cpu c).prioTop < p → l (.ready c p) = []
  used : ∀ c, (s.cpu c).prioTop = 0 ∨ l (.ready c (s.cpu c).prioTop) ≠ []

/-- `HZD_SCHED` is raised while an SC of higher priority than the current one is ready. -/
def Alert (s : Machine ι S E) (l : Slot ι → List S) (c : ι) : Prop :=
  ∀ p, (s.sc (s.cpu c).current).prio < p → l (.ready c p) ≠ [] → (s.cpu c).hazard = true

theorem Ranked.congr (h : s.Ranked l) (hs : standing s'.log = standing s.log)
    (hp : ∀ x, s.rank x ≠ none → (s'.sc x).prio = (s.sc x).prio)
    (hl : ∀ c p, l' (.ready c p) = l (.ready c p))
    (ht : ∀ c, (s'.cpu c).prioTop = (s.cpu c).prioTop) : s'.Ranked l' := by
  have hcount : s'.count = s.count := congrArg Prod.fst hs
  have hrank : s'.rank = s.rank := congrArg Prod.snd hs
  refine ⟨?_, ?_, fun c p x => ?_, fun c p => ?_, fun c p hlt => ?_, fun c => ?_⟩
  · rw [hcount]
    exact h.count
  · rw [hcount, hrank]
    exact h.bound
  · rw [hl, h.mem, hrank]
    refine and_congr_right ?_
    rintro ⟨k, hk⟩
    rw [hp x (by simp [hk])]
  · rw [hl, hrank]
    exact h.order c p
  · rw [hl]
    exact h.top c p (by rwa [← ht c])
  · rw [ht, hl]
    exact h.used c

end Rank

theorem Alert.congr (h : s.Alert l c)
    (hp : (s'.sc (s'.cpu c).current).prio = (s.sc (s.cpu c).current).prio)
    (hl : ∀ p, l' (.ready c p) = l (.ready c p)) (hh : (s'.cpu c).hazard = (s.cpu c).hazard) :
    s'.Alert l' c := by
  intro p hlt hne
  rw [hh]
  exact h p (by rwa [← hp]) (by rwa [← hl])

theorem mem_queued {useLeft : Bool} {m : List S} {y : S} :
    y ∈ s.queued x useLeft m ↔ y = x ∨ y ∈ m := by
  unfold queued
  split
  · exact List.mem_cons
  · rw [List.mem_append, List.mem_singleton, or_comm]

variable [DecidableEq ι] [DecidableEq S]

theorem link_prioTop (t : Mword) (useLeft : Bool) (j : ι) :
    ((s.link c x t useLeft).cpu j).prioTop =
      if j = c then max (s.sc x).prio (s.cpu c).prioTop else (s.cpu j).prioTop := by
  by_cases hj : j = c
  · subst hj
    simp only [Machine.link, note_cpu, putSc_cpu, putCpu_cpu, Function.update_self, if_true]
    split <;> omega
  · simp [Machine.link, putLinks, hj]

theorem link_prio (t : Mword) (useLeft : Bool) (y : S) : ((s.link c x t useLeft).sc y).prio = (s.sc y).prio := by
  by_cases hy : y = x
  · subst hy
    simp [Machine.link]
  · simp [Machine.link, putLinks, hy]

theorem standing_link (t : Mword) (useLeft : Bool) :
    standing (s.link c x t useLeft).log = stand (standing s.log) (.ready c x (s.front x useLeft)) := by
  rw [link_log, standing_append]
  rfl

theorem link_count (t : Mword) (useLeft : Bool) : (s.link c x t useLeft).count = s.count + 1 :=
  congrArg Prod.fst (standing_link t useLeft)

theorem link_rank (t : Mword) (useLeft : Bool) :
    (s.link c x t useLeft).rank = Function.update s.rank x
      (some (c, if s.front x useLeft then -(s.count + 1) else s.count + 1)) :=
  congrArg Prod.snd (standing_link t useLeft)

theorem Ranked.link_mem (h : s.Ranked l) (hx : ∀ j p, x ∉ l (.ready j p)) (t : Mword) (useLeft : Bool) (j : ι)
    (p : Nat) (y : S) :
    y ∈ Function.update l (.ready c (s.sc x).prio) (s.queued x useLeft (l (.ready c (s.sc x).prio))) (.ready j p) ↔
      (∃ k, (s.link c x t useLeft).rank y = some (j, k)) ∧ ((s.link c x t useLeft).sc y).prio = p := by
  rw [link_prio, link_rank]
  by_cases hy : y = x
  · subst hy
    rw [Function.update_self]
    by_cases hj : j = c ∧ p = (s.sc y).prio
    · obtain ⟨rfl, rfl⟩ := hj
      rw [Function.update_self, mem_queued]
      simp
    · have hslot : Slot.ready j p ≠ .ready c (s.sc y).prio := by
        intro e
        exact hj (by simpa using e)
      rw [Function.update_of_ne hslot]
      refine iff_of_false (hx j p) ?_
      rintro ⟨⟨k, hk⟩, rfl⟩
      exact hj ⟨((Prod.mk.inj (Option.some.inj hk)).1).symm, rfl⟩
  · rw [Function.update_of_ne hy, ← h.mem]
    by_cases hslot : Slot.ready j p = .ready c (s.sc x).prio
    · rw [hslot, Function.update_self, mem_queued]
      simp [hy]
    · rw [Function.update_of_ne hslot]

/-- What goes to the front has a lower rank than all others, and what goes to the end
a higher one. -/
theorem Ranked.link_order (h : s.Ranked l) (hx : ∀ j p, x ∉ l (.ready j p)) (t : Mword) (useLeft : Bool) (j : ι)
    (p : Nat) :
    (Function.update l (.ready c (s.sc x).prio) (s.queued x useLeft (l (.ready c (s.sc x).prio)))
      (.ready j p)).Pairwise fun y z => ∀ i k, (s.link c x t useLeft).rank y = some (j, i) →
        (s.link c x t useLeft).rank z = some (j, k) → i < k := by
  have hpos := h.count
  have hne : ∀ j p, ∀ y ∈ l (.ready j p), y ≠ x := by
    rintro j p y hy rfl
    exact hx j p hy
  rw [link_rank]
  have hold : ∀ m : List S, (∀ y ∈ m, y ≠ x) →
      (m.Pairwise fun y z => ∀ i k, s.rank y = some (j, i) → s.rank z = some (j, k) → i < k) →
      m.Pairwise fun y z => ∀ i k,
        Function.update s.rank x (some (c, if s.front x useLeft then -(s.count + 1) else s.count + 1)) y
          = some (j, i) →
        Function.update s.rank x (some (c, if s.front x useLeft then -(s.count + 1) else s.count + 1)) z
          = some (j, k) → i < k := by
    intro m hm hpw
    refine hpw.imp_of_mem fun {y z} hy hz hyz => ?_
    rwa [Function.update_of_ne (hm y hy), Function.update_of_ne (hm z hz)]
  by_cases hslot : Slot.ready j p = .ready c (s.sc x).prio
  · rw [hslot, Function.update_self]
    obtain ⟨rfl, rfl⟩ := Slot.ready.inj hslot
    have hm := hold _ (hne j (s.sc x).prio) (h.order j (s.sc x).prio)
    by_cases hf : s.front x useLeft = true
    · have hq : s.queued x useLeft (l (.ready j (s.sc x).prio)) = x :: l (.ready j (s.sc x).prio) :=
        if_pos hf
      rw [hq]
      refine List.Pairwise.cons (fun y hy i k hi hk => ?_) hm
      rw [Function.update_self, if_pos hf] at hi
      rw [Function.update_of_ne (hne _ _ y hy)] at hk
      have hb := h.bound y j k hk
      have hi' := (Prod.mk.inj (Option.some.inj hi)).2
      omega
    · have hq : s.queued x useLeft (l (.ready j (s.sc x).prio)) = l (.ready j (s.sc x).prio) ++ [x] :=
        if_neg hf
      rw [hq, List.pairwise_append]
      refine ⟨hm, List.pairwise_singleton _ _, fun y hy z hz i k hi hk => ?_⟩
      obtain rfl := List.mem_singleton.mp hz
      rw [Function.update_self, if_neg hf] at hk
      rw [Function.update_of_ne (hne _ _ y hy)] at hi
      have hb := h.bound y j i hi
      have hk' := (Prod.mk.inj (Option.some.inj hk)).2
      omega
  · rw [Function.update_of_ne hslot]
    exact hold _ (hne j p) (h.order j p)

theorem Ranked.link (h : s.Ranked l) (hx : ∀ j p, x ∉ l (.ready j p)) (t : Mword) (useLeft : Bool) :
    (s.link c x t useLeft).Ranked (Function.update l (.ready c (s.sc x).prio)
      (s.queued x useLeft (l (.ready c (s.sc x).prio)))) := by
  have hpos := h.count
  refine ⟨by rw [link_count]; omega, fun y j k hk => ?_, h.link_mem hx t useLeft, h.link_order hx t useLeft,
    fun j p hlt => ?_, fun j => ?_⟩
  · rw [link_rank] at hk
    rw [link_count]
    by_cases hy : y = x
    · subst hy
      rw [Function.update_self] at hk
      obtain ⟨-, rfl⟩ := Prod.mk.inj (Option.some.inj hk)
      split <;> omega
    · rw [Function.update_of_ne hy] at hk
      have := h.bound y j k hk
      omega
  · rw [link_prioTop] at hlt
    by_cases hj : j = c
    · subst hj
      rw [if_pos rfl] at hlt
      have hslot : Slot.ready j p ≠ .ready j (s.sc x).prio := by
        intro e
        have := (Slot.ready.inj e).2
        omega
      rw [Function.update_of_ne hslot]
      exact h.top j p (by omega)
    · rw [if_neg hj] at hlt
      rw [Function.update_of_ne (by simp [hj])]
      exact h.top j p hlt
  · rw [link_prioTop]
    have hin : ∀ m, s.queued x useLeft m ≠ [] := fun m => List.ne_nil_of_mem (mem_queued.mpr (Or.inl rfl))
    by_cases hj : j = c
    · subst hj
      rw [if_pos rfl]
      rcases Nat.le_total (s.cpu j).prioTop (s.sc x).prio with hle | hle
      · rw [Nat.max_eq_left hle, Function.update_self]
        exact Or.inr (hin _)
      · rw [Nat.max_eq_right hle]
        refine (h.used j).imp_right fun hu => ?_
        by_cases hp : (s.cpu j).prioTop = (s.sc x).prio
        · rw [hp, Function.update_self]
          exact hin _
        · rwa [Function.update_of_ne (by simpa using hp)]
    · rw [if_neg hj, Function.update_of_ne (by simp [hj])]
      exact h.used j

theorem Alert.link {j : ι} (h : s.Alert l j) (t : Mword) (useLeft : Bool) :
    (s.link c x t useLeft).Alert (Function.update l (.ready c (s.sc x).prio)
      (s.queued x useLeft (l (.ready c (s.sc x).prio)))) j := by
  intro p hlt hne
  rw [link_prio, (link_cpu t useLeft j).1] at hlt
  by_cases hj : j = c
  · subst hj
    simp only [Machine.link, note_cpu, putSc_cpu, putCpu_cpu, Function.update_self, Bool.or_eq_true,
      decide_eq_true_eq]
    by_cases hp : p = (s.sc x).prio
    · exact Or.inr (Or.inl (by omega))
    · rw [Function.update_of_ne (by simpa using hp)] at hne
      exact Or.inl (h p hlt hne)
  · rw [Function.update_of_ne (by simp [hj])] at hne
    simpa [Machine.link, putLinks, hj] using h p hlt hne

section Dequeue

variable [DecidableEq E]

omit [DecidableEq S] [DecidableEq E] in
theorem sublist_without {k : Slot ι} {u v : List S} (hx : l k = u ++ x :: v) (j : Slot ι) :
    (Function.update l k (u ++ v) j).Sublist (l j) := by
  by_cases hj : j = k
  · rw [hj, Function.update_self, hx]
    exact (List.sublist_cons_self x v).append_left u
  · rw [Function.update_of_ne hj]

omit [DecidableEq S] [DecidableEq E] in
/-- An SC is in one list only, and there once. -/
theorem Placed.mem_without {k : Slot ι} {u v : List S} (h : s.Placed l) (hx : l k = u ++ x :: v) (j : Slot ι)
    (y : S) : y ∈ Function.update l k (u ++ v) j ↔ y ≠ x ∧ y ∈ l j := by
  have hnd := h.linked.rings.nodup k
  rw [hx] at hnd
  have hxuv : x ∉ u ++ v := (List.nodup_middle.mp hnd).notMem
  by_cases hj : j = k
  · rw [hj, Function.update_self, hx]
    constructor
    · intro hy
      refine ⟨fun e => hxuv (e ▸ hy), ?_⟩
      rw [List.mem_append] at hy
      rw [List.mem_append, List.mem_cons]
      tauto
    · rintro ⟨hne, hy⟩
      rw [List.mem_append, List.mem_cons] at hy
      rw [List.mem_append]
      tauto
  · rw [Function.update_of_ne hj]
    refine ⟨fun hy => ⟨?_, hy⟩, fun hy => hy.2⟩
    rintro rfl
    exact hj (h.linked.rings.apart _ _ y hy (by simp [hx]))

theorem Ranked.readyDequeue (h : s.Ranked l) (hpl : s.Placed l) {u v : List S}
    (hx : l (.ready c (s.sc x).prio) = u ++ x :: v) (t : Mword) :
    (s.readyDequeue c x t).Ranked (Function.update l (.ready c (s.sc x).prio) (u ++ v)) := by
  have hmem : x ∈ l (.ready c (s.sc x).prio) := by simp [hx]
  obtain ⟨hsc, hlog, htop, hother, -⟩ := hpl.dequeued hmem t
  have hpl' := hpl.readyDequeue hx t
  have hst : standing (s.readyDequeue c x t).log = stand (standing s.log) (.unready c x) := by
    rw [hlog, standing_append]
    rfl
  have hcount : (s.readyDequeue c x t).count = s.count := by
    unfold Machine.count
    rw [hst]
    rfl
  have hrank : (s.readyDequeue c x t).rank = Function.update s.rank x none := congrArg Prod.snd hst
  have hprio : ∀ y, ((s.readyDequeue c x t).sc y).prio = (s.sc y).prio := by
    intro y
    rw [hsc]
    by_cases hy : y = x
    · subst hy
      simp
    · simp [hy]
  have hsub : ∀ j p, (Function.update l (.ready c (s.sc x).prio) (u ++ v) (.ready j p)).Sublist
      (l (.ready j p)) := fun j p => sublist_without hx (.ready j p)
  have hmem' : ∀ j p y, y ∈ Function.update l (.ready c (s.sc x).prio) (u ++ v) (.ready j p) ↔
      y ≠ x ∧ y ∈ l (.ready j p) := fun j p y => hpl.mem_without hx (.ready j p) y
  obtain ⟨hle, habove, hused⟩ := @lower_spec _ ((s.readyDequeue c x t).cpu c).list
    (s.cpu c).prioTop
  have hempty : ∀ p, (s.readyDequeue c x t).head (.ready c p) = none ↔
      Function.update l (.ready c (s.sc x).prio) (u ++ v) (.ready c p) = [] := fun p =>
    hpl'.linked.rings.nil_of_head
  refine ⟨by rw [hcount]; exact h.count, fun y j k hk => ?_, fun j p y => ?_, fun j p => ?_,
    fun j p hlt => ?_, fun j => ?_⟩
  · rw [hcount]
    rw [hrank] at hk
    by_cases hy : y = x
    · subst hy
      simp at hk
    · rw [Function.update_of_ne hy] at hk
      exact h.bound y j k hk
  · rw [hmem', h.mem, hprio, hrank]
    by_cases hy : y = x
    · subst hy
      simp
    · rw [Function.update_of_ne hy]
      simp [hy]
  · refine ((h.order j p).sublist (hsub j p)).imp_of_mem fun {y z} hy hz hyz => ?_
    rw [hrank, Function.update_of_ne ((hmem' j p y).mp hy).1, Function.update_of_ne ((hmem' j p z).mp hz).1]
    exact hyz
  · by_cases hj : j = c
    · subst hj
      rw [htop] at hlt
      rcases Nat.lt_or_ge (s.cpu j).prioTop p with hp | hp
      · have hnil := h.top j p hp
        have := hsub j p
        rw [hnil, List.sublist_nil] at this
        exact this
      · exact (hempty p).mp (habove p hlt hp)
    · rw [hother j hj] at hlt
      rw [Function.update_of_ne (by simp [hj])]
      exact h.top j p hlt
  · by_cases hj : j = c
    · subst hj
      rw [htop]
      exact hused.imp_right fun hu => fun e => hu ((hempty _).mpr e)
    · rw [hother j hj, Function.update_of_ne (by simp [hj])]
      exact h.used j

theorem Alert.readyDequeue {j : ι} (h : s.Alert l j) (hpl : s.Placed l) {u v : List S}
    (hx : l (.ready c (s.sc x).prio) = u ++ x :: v) (t : Mword) :
    (s.readyDequeue c x t).Alert (Function.update l (.ready c (s.sc x).prio) (u ++ v)) j := by
  have hmem : x ∈ l (.ready c (s.sc x).prio) := by simp [hx]
  obtain ⟨hsc, -, -, -, hcpu⟩ := hpl.dequeued hmem t
  intro p hlt hne
  rw [(hcpu j).1, hsc] at hlt
  rw [(hcpu j).2.2]
  refine h p ?_ fun e => hne ?_
  · by_cases hy : (s.cpu j).current = x
    · rw [hy, Function.update_self] at hlt
      rwa [hy]
    · rwa [Function.update_of_ne hy] at hlt
  · by_cases hslot : Slot.ready j p = .ready c (s.sc x).prio
    · rw [hslot, hx] at e
      simp at e
    · rwa [Function.update_of_ne hslot]

end Dequeue

/-- The lists are as they should be; of the CPUs in `J` the hazard is, too. -/
structure Kept (s : Machine ι S E) (l : Slot ι → List S) (J : ι → Prop) : Prop where
  placed : s.Placed l
  own : s.Own
  ranked : s.Ranked l
  alert : ∀ j, J j → s.Alert l j

variable {J : ι → Prop}

omit [DecidableEq ι] in
theorem Kept.congr (h : s.Kept l J) (hpl : s'.Placed l') (ho : s'.Own)
    (hs : standing s'.log = standing s.log)
    (hp : ∀ x, s.rank x ≠ none → (s'.sc x).prio = (s.sc x).prio)
    (hl : ∀ c p, l' (.ready c p) = l (.ready c p))
    (hc : ∀ c, (s'.cpu c).prioTop = (s.cpu c).prioTop ∧ (s'.cpu c).current = (s.cpu c).current ∧
      (s'.cpu c).hazard = (s.cpu c).hazard)
    (hcur : ∀ c, (s'.sc (s.cpu c).current).prio = (s.sc (s.cpu c).current).prio) : s'.Kept l' J := by
  refine ⟨hpl, ho, h.ranked.congr hs hp hl fun c => (hc c).1, fun j hj => ?_⟩
  refine (h.alert j hj).congr ?_ (hl j) (hc j).2.2
  rw [(hc j).2.1]
  exact hcur j

theorem Kept.putSc (h : s.Kept l J) {v : Sc ι E} (hc : v.cpu = (s.sc x).cpu)
    (hp : v.prio = (s.sc x).prio) : (s.putSc x v).Kept l J := by
  have ha := Aside.putSc h.placed h.own hc hp
  have hsame := same_of_update (rfl : (s.putSc x v).sc = _) hc hp
  exact h.congr ha.placed ha.own rfl (fun y _ => (hsame y).2) (fun _ _ => rfl)
    (fun _ => ⟨rfl, rfl, rfl⟩) fun j => (hsame _).2

omit [DecidableEq ι] in
theorem Kept.note (h : s.Kept l J) {e : Event ι S} (he : ∀ r, stand r e = r) : (s.note e).Kept l J := by
  refine h.congr (h.placed.note e) h.own ?_ (fun _ _ => rfl) (fun _ _ => rfl) (fun _ => ⟨rfl, rfl, rfl⟩)
    fun _ => rfl
  rw [note_log, standing_append]
  exact he _

theorem Kept.drop (h : s.Kept l J) (x : S) : (s.drop x).Kept l J := by
  rcases s.drop_eq x with ⟨he, -⟩ | ⟨he, -⟩
  · rw [he]
    exact h.putSc rfl rfl
  · rw [he]
    exact h.note fun _ => rfl

theorem Kept.link (h : s.Kept l J) (hx : ∀ k, x ∉ l k) (hc : (s.sc x).cpu = c) (t : Mword)
    (useLeft : Bool) :
    (s.link c x t useLeft).Kept (Function.update l (.ready c (s.sc x).prio)
      (s.queued x useLeft (l (.ready c (s.sc x).prio)))) J := by
  have ha := Aside.link h.placed h.own hx hc t useLeft
  exact ⟨ha.placed, ha.own, h.ranked.link (fun j p => hx _) t useLeft,
    fun j hj => (h.alert j hj).link t useLeft⟩

theorem Kept.readyEnqueue (h : s.Kept l J) (hx : ∀ k, x ∉ l k) (hc : (s.sc x).cpu = c) (t : Mword)
    (incRef useLeft : Bool) : ∃ l', (s.readyEnqueue c x t incRef useLeft).Kept l' J := by
  unfold Machine.readyEnqueue
  cases ha : s.addRef x incRef with
  | none => exact ⟨l, h⟩
  | some r =>
    obtain ⟨n, rfl⟩ := addRef_eq ha
    have h1 : (s.putSc x { s.sc x with ref := n }).Kept l J := h.putSc rfl rfl
    exact ⟨_, h1.link hx (by simp [hc]) t useLeft⟩

theorem Kept.putHandler (h : s.Kept l J) {v : Cpu S} (hl : v.list = (s.cpu c).list)
    (hq : (s.putCpu c v).head (.queue c) = s.head (.queue c)) (hc : v.current = (s.cpu c).current)
    (ht : v.prioTop = (s.cpu c).prioTop) (hh : v.hazard = (s.cpu c).hazard) :
    (s.putCpu c v).Kept l J := by
  have hm := putCpu_handler h.placed h.own hl hq hc
  refine h.congr hm.placed hm.own rfl (fun _ _ => rfl) (fun _ _ => rfl) (fun j => ?_) fun _ => rfl
  by_cases hj : j = c
  · subst hj
    simp [hc, ht, hh]
  · simp [hj]

theorem Kept.rrqEnter (h : s.Kept l J) (t : Mword) : (s.rrqEnter c t).Kept l J := by
  by_cases hh : (s.cpu c).handler = none
  · rw [rrqEnter_of_none hh]
    exact h.putHandler rfl (by simp [head, hh]) rfl rfl rfl
  · rwa [rrqEnter_of_ne_none hh]

theorem Kept.rrqLeave (h : s.Kept l J) : (s.rrqLeave c).Kept l J := by
  by_cases hh : ∃ t, (s.cpu c).handler = some (t, none)
  · obtain ⟨t, hh⟩ := hh
    rw [rrqLeave_of_nil hh]
    exact h.putHandler rfl (by simp [head, hh]) rfl rfl rfl
  · rwa [rrqLeave_of_ne fun t ht => hh ⟨t, ht⟩]

theorem Kept.rrqNext (h : s.Kept l J) : ∃ l', (s.rrqNext c).Kept l' J := by
  by_cases hh : ∃ t x, (s.cpu c).handler = some (t, some x)
  · obtain ⟨t, x, hh⟩ := hh
    obtain ⟨u, hu⟩ := h.placed.linked.rings.cons_of_head (k := .queue c) (a := x) (by simp [head, hh])
    obtain ⟨htake, hnot, hcx⟩ := Moved.take h.placed h.own hh hu
    have h1 : (s.take c t x).Kept (Function.update l (.queue c) u) J := by
      refine h.congr htake.placed htake.own ?_ (fun _ _ => rfl)
        (fun j p => Function.update_of_ne (by simp) _ _) (fun j => ?_) fun _ => rfl
      · rw [take_log, standing_append]
        rfl
      · by_cases hj : j = c
        · subst hj
          simp [Machine.take]
        · simp [Machine.take, putLinks, hj]
    rw [rrqNext_of_some hh]
    split
    · exact ⟨_, (h1.note fun _ => rfl).drop x⟩
    · exact ⟨_, h1.link hnot hcx t true⟩
  · rw [rrqNext_of_none fun t x h => hh ⟨t, x, h⟩]
    exact ⟨l, h⟩

theorem Kept.remoteEnqueue (h : s.Kept l J) (hx : ∀ k, x ∉ l k) (i : ι) (incRef : Bool) (t : Mword) :
    ∃ l', (s.remoteEnqueue i x incRef t).Kept l' J := by
  unfold Machine.remoteEnqueue
  by_cases hi : i = (s.sc x).cpu
  · simp only [if_pos hi]
    exact h.readyEnqueue hx hi.symm t incRef true
  simp only [if_neg hi]
  cases hh : (s.cpu (s.sc x).cpu).handler with
  | some o => exact ⟨l, h⟩
  | none =>
    cases ha : s.addRef x incRef with
    | none => exact ⟨l, h⟩
    | some r =>
      obtain ⟨n, rfl⟩ := addRef_eq ha
      have h1 : (s.putSc x { s.sc x with ref := n }).Kept l J := h.putSc rfl rfl
      obtain ⟨hmoved, hlog, -⟩ := Moved.send h1.placed h1.own hx (by simp) hh
      refine ⟨_, h1.congr hmoved.placed hmoved.own ?_ (fun y _ => ?_)
        (fun j p => Function.update_of_ne (by simp) _ _) (fun j => ?_) fun j => ?_⟩
      · rw [hlog, standing_append]
        split <;> rfl
      · rw [send_sc]
      · rw [send_cpu]
        by_cases hj : j = (s.sc x).cpu
        · subst hj
          simp
        · simp [hj]
      · rw [send_sc]

theorem Kept.charge (h : s.Kept l fun _ => True) (t d : Mword) :
    (s.charge c t d).Kept l fun j => j ≠ c := by
  have ha := Aside.charge (c := c) h.placed h.own t d
  have hprio : ∀ y, ((s.charge c t d).sc y).prio = (s.sc y).prio := by
    intro y
    by_cases hy : y = (s.cpu c).current
    · rw [hy]
      simp [Machine.charge]
    · simp [Machine.charge, hy]
  refine ⟨ha.placed, ha.own, h.ranked.congr rfl (fun y _ => hprio y) (fun _ _ => rfl) fun j => ?_,
    fun j hj => ?_⟩
  · by_cases hj : j = c
    · subst hj
      simp [Machine.charge]
    · simp [Machine.charge, hj]
  · have hcpu : (s.charge c t d).cpu j = s.cpu j := by simp [Machine.charge, hj]
    refine (h.alert j trivial).congr ?_ (fun _ => rfl) (by rw [hcpu])
    rw [hcpu, hprio]

theorem Kept.requeue (h : s.Kept l fun _ => True) (t d : Mword) (own suspend useLeft : Bool)
    (hx : suspend = false → ∀ k, (s.cpu c).current ∉ l k) :
    ∃ l', (s.requeue c t d own suspend useLeft).Kept l' fun j => j ≠ c := by
  have h1 : (s.charge c t d).Kept l fun j => j ≠ c := h.charge t d
  unfold Machine.requeue
  by_cases hsus : (suspend || ((s.sc (s.cpu c).current).disable && own)) = true
  · simp only [if_pos hsus]
    exact ⟨l, h1.drop _⟩
  · have hsf : suspend = false := by
      simp only [Bool.or_eq_true, not_or, Bool.not_eq_true] at hsus
      exact hsus.1
    simp only [if_neg hsus]
    have hc : ((s.charge c t d).sc (s.cpu c).current).cpu = c := by
      simpa [Machine.charge] using h.own c
    exact h1.readyEnqueue (hx hsf) hc t false useLeft

/-- `y` is ready on CPU `c`, of the highest priority there is, and before all others of
this priority. -/
def First (s : Machine ι S E) (c : ι) (y : S) : Prop :=
  ∃ k, s.rank y = some (c, k) ∧ ∀ x i, s.rank x = some (c, i) →
    (s.sc x).prio < (s.sc y).prio ∨ (s.sc x).prio = (s.sc y).prio ∧ (x = y ∨ k < i)

omit [DecidableEq ι] in
theorem Ranked.first (h : s.Ranked l) {y : S} {u : List S}
    (hy : l (.ready c (s.cpu c).prioTop) = y :: u) : s.First c y := by
  obtain ⟨⟨k, hk⟩, hprio⟩ := (h.mem c (s.cpu c).prioTop y).mp (by simp [hy])
  refine ⟨k, hk, fun x i hi => ?_⟩
  have hx := (h.mem c (s.sc x).prio x).mpr ⟨⟨i, hi⟩, rfl⟩
  rw [hprio]
  rcases Nat.lt_trichotomy (s.sc x).prio (s.cpu c).prioTop with hlt | heq | hgt
  · exact Or.inl hlt
  · refine Or.inr ⟨heq, ?_⟩
    rw [heq, hy, List.mem_cons] at hx
    refine hx.imp_right fun hxu => ?_
    have horder := h.order c (s.cpu c).prioTop
    rw [hy, List.pairwise_cons] at horder
    exact horder.1 x hxu k i hk hi
  · rw [h.top c _ hgt] at hx
    simp at hx

variable [DecidableEq E]

/-- What `pick` leaves: it takes the first SC of the list of `prio_top` out, if there is
one. -/
theorem Kept.pick (h : s.Kept l fun j => j ≠ c) (t : Mword) :
    (∃ l', (s.pick c t).Kept l' fun _ => True) ∧
      ((∀ p, l (.ready c p) = []) ∧ s.pick c t = s ∨
        ∃ u, l (.ready c (s.cpu c).prioTop) = ((s.pick c t).cpu c).current :: u ∧
          (s.pick c t).Placed (Function.update l (.ready c (s.cpu c).prioTop) u)) := by
  unfold Machine.pick
  cases hy : (s.cpu c).list (s.cpu c).prioTop with
  | none =>
    have hnil : l (.ready c (s.cpu c).prioTop) = [] :=
      h.placed.linked.rings.nil_of_head.mp (show s.head (.ready c (s.cpu c).prioTop) = none from hy)
    have hall : ∀ p, l (.ready c p) = [] := by
      intro p
      have hzero : (s.cpu c).prioTop = 0 := (h.ranked.used c).resolve_right fun hu => hu hnil
      rcases Nat.eq_zero_or_pos p with rfl | hp
      · rwa [hzero] at hnil
      · exact h.ranked.top c p (by omega)
    refine ⟨⟨l, h.placed, h.own, h.ranked, fun j _ => ?_⟩, Or.inl ⟨hall, rfl⟩⟩
    by_cases hj : j = c
    · subst hj
      intro p _ hne
      exact absurd (hall p) hne
    · exact h.alert j hj
  | some y =>
    obtain ⟨u, hu⟩ := h.placed.linked.rings.cons_of_head
      (show s.head (.ready c (s.cpu c).prioTop) = some y from hy)
    have hfit := h.placed.fits (.ready c (s.cpu c).prioTop) y (by simp [hu])
    have h1 : Aside s (s.putCpu c { s.cpu c with current := y }) l l :=
      Aside.putCpu h.placed h.own rfl rfl rfl hfit.1
    set s1 := s.putCpu c { s.cpu c with current := y } with hs1
    have hprio1 : (s1.sc y).prio = (s.cpu c).prioTop := hfit.2
    have hu1 : l (.ready c (s1.sc y).prio) = [] ++ y :: u := by
      rw [hprio1]
      exact hu
    have hrank1 : s1.Ranked l := by
      refine h.ranked.congr rfl (fun _ _ => rfl) (fun _ _ => rfl) fun j => ?_
      by_cases hj : j = c
      · subst hj
        simp [hs1]
      · simp [hs1, hj]
    have halert1 : ∀ j, s1.Alert l j := by
      intro j
      by_cases hj : j = c
      · -- nothing is above the priority of the SC that is picked
        subst hj
        intro p hlt hne
        simp only [hs1, putCpu_sc, putCpu_cpu, Function.update_self, hfit.2] at hlt
        exact absurd (h.ranked.top j p hlt) hne
      · exact (h.alert j hj).congr (by simp [hs1, hj]) (fun _ => rfl) (by simp [hs1, hj])
    have h2 := Aside.readyDequeue h1.placed h1.own hu1 t
    have hcur : ((s1.readyDequeue c y t).cpu c).current = y := by
      obtain ⟨-, -, -, -, hcpu⟩ := h1.placed.dequeued (x := y) (c := c) (by simp [hu1]) t
      rw [(hcpu c).1]
      simp [hs1]
    refine ⟨⟨_, h2.placed, h2.own, hrank1.readyDequeue h1.placed hu1 t,
      fun j _ => (halert1 j).readyDequeue h1.placed hu1 t⟩, Or.inr ⟨u, ?_, ?_⟩⟩
    · rw [hcur]
      exact hu
    · have h3 := h2.placed
      rwa [hprio1, List.nil_append] at h3

theorem Kept.step (h : s.Kept l fun _ => True) {a : Act ι S E} (hp : s.Proper a) :
    ∃ l', (s.step a).Kept l' fun _ => True := by
  have hnot : ∀ x, (∀ k, ¬ s.InList k x) → ∀ k, x ∉ l k := by
    intro x hx k hk
    exact hx k (h.placed.inList_iff.mpr hk)
  cases a with
  | remoteEnqueue i x incRef t => exact h.remoteEnqueue (hnot x hp) i incRef t
  | rrqEnter c t => exact ⟨l, h.rrqEnter t⟩
  | rrqNext c => exact h.rrqNext
  | rrqLeave c => exact ⟨l, h.rrqLeave⟩
  | readyEnqueue c x t incRef useLeft => exact h.readyEnqueue (hnot x hp.1) hp.2 t incRef useLeft
  | readyDequeue c x t =>
    obtain ⟨u, v, huv⟩ := List.append_of_mem (h.placed.inList_iff.mp hp)
    have ha := Aside.readyDequeue h.placed h.own huv t
    exact ⟨_, ha.placed, ha.own, h.ranked.readyDequeue h.placed huv t,
      fun j hj => (h.alert j hj).readyDequeue h.placed huv t⟩
  | schedule c t d own suspend useLeft =>
    obtain ⟨l1, h1⟩ := h.requeue (c := c) t d own suspend useLeft fun hs => hnot _ (hp hs)
    exact (h1.pick t).1
  | disable x b => exact ⟨l, h.putSc rfl rfl⟩
  | refs x r => exact ⟨l, h.putSc rfl rfl⟩
  | ec e v =>
    have ha := Aside.putEc h.placed h.own e v
    exact ⟨l, h.congr ha.placed ha.own rfl (fun _ _ => rfl) (fun _ _ => rfl) (fun _ => ⟨rfl, rfl, rfl⟩)
      fun _ => rfl⟩
  | clone x prio budget left cpu =>
    have hnx := hnot x hp.1
    have ha := Aside.clone h.placed h.own hnx hp.2
      { s.sc x with prio, budget, left, cpu, disable := false, time := 0, tsc := 0 }
    refine ⟨l, h.congr ha.placed ha.own rfl (fun y hy => ?_) (fun _ _ => rfl)
      (fun _ => ⟨rfl, rfl, rfl⟩) fun j => ?_⟩
    · -- what stands somewhere is in a list, and the clone is not
      have hyx : y ≠ x := by
        rintro rfl
        obtain ⟨⟨j, k⟩, hk⟩ := Option.ne_none_iff_exists'.mp hy
        exact hnx _ ((h.ranked.mem j (s.sc y).prio y).mpr ⟨⟨k, hk⟩, rfl⟩)
      simp [Machine.step, hyx]
    · simp [Machine.step, hp.2 j]
  | links k =>
    have ha := Aside.links h.placed h.own hp
    exact ⟨l, h.congr ha.placed ha.own rfl (fun _ _ => rfl) (fun _ _ => rfl) (fun _ => ⟨rfl, rfl, rfl⟩)
      fun _ => rfl⟩

theorem Kept.after (h : s.Kept l fun _ => True) {acts : List (Act ι S E)} (hm : s.Meets acts) :
    ∃ l', (s.after acts).Kept l' fun _ => True := by
  induction acts generalizing s l with
  | nil => exact ⟨l, h⟩
  | cons a acts ih =>
    obtain ⟨l1, h1⟩ := h.step hm.1
    exact ih h1 hm.2

omit [DecidableEq ι] [DecidableEq E] in
theorem Start.kept (hs : s.Start) : s.Kept (fun _ => []) fun _ => True := by
  have hst : standing s.log = (0, fun _ => none) := by
    rw [hs.log]
    rfl
  have hcount : s.count = 0 := congrArg Prod.fst hst
  have hrank : s.rank = fun _ => none := congrArg Prod.snd hst
  refine ⟨hs.placed, hs.current, ⟨?_, ?_, ?_, ?_, ?_, ?_⟩, ?_⟩
  · simp [hcount]
  · simp [hrank]
  · simp [hrank]
  · simp
  · simp
  · exact fun c => Or.inl (hs.prioTop c)
  · intro j _ p _ hne
    exact absurd rfl hne

/-- What the functions do to the lists `l` of their CPU: an SC goes to the end, or to the
front if it asks for it with budget left; it is taken out of its list; and `schedule` puts
the SC that ran back, and takes the first of the highest list out. -/
structure Turns (s : Machine ι S E) (l : Slot ι → List S) : Prop where
  enqueue : ∀ c x t incRef useLeft, s.Proper (.readyEnqueue c x t incRef useLeft) →
    (incRef = true → (s.sc x).ref ≠ 0) →
    let m := l (.ready c (s.sc x).prio)
    (s.readyEnqueue c x t incRef useLeft).Placed (Function.update l (.ready c (s.sc x).prio)
      (if useLeft = true ∧ (s.sc x).left ≠ 0 then x :: m else m ++ [x]))
  dequeue : ∀ c x t, s.Proper (.readyDequeue c x t) →
    (s.readyDequeue c x t).Placed (Function.update l (.ready c (s.sc x).prio)
      ((l (.ready c (s.sc x).prio)).erase x))
  requeue : ∀ c t d own suspend useLeft, s.Proper (.schedule c t d own suspend useLeft) →
    let x := (s.cpu c).current
    let m := l (.ready c (s.sc x).prio)
    (s.requeue c t d own suspend useLeft).Placed
      (if suspend = true ∨ (s.sc x).disable = true ∧ own = true then l
        else Function.update l (.ready c (s.sc x).prio)
          (if useLeft = true ∧ t < d then x :: m else m ++ [x]))
  pick : ∀ c t d own suspend useLeft, s.Proper (.schedule c t d own suspend useLeft) →
    let q := s.requeue c t d own suspend useLeft
    let r := s.schedule c t d own suspend useLeft
    ∀ m, q.Placed m → (∀ p, m (.ready c p) = []) ∧ r = q ∨
      ∃ p u, m (.ready c p) = (r.cpu c).current :: u ∧ (∀ p', p < p' → m (.ready c p') = []) ∧
        r.Placed (Function.update m (.ready c p) u)

omit [DecidableEq ι] [DecidableEq S] [DecidableEq E] in
theorem queued_eq (s : Machine ι S E) (x : S) (useLeft : Bool) (m : List S) :
    s.queued x useLeft m = if useLeft = true ∧ (s.sc x).left ≠ 0 then x :: m else m ++ [x] := by
  unfold queued front
  simp only [Bool.and_eq_true, bne_iff_ne]

omit [DecidableEq E] in
theorem Placed.readyEnqueue (h : s.Placed l) (hx : ∀ k, x ∉ l k) (hc : (s.sc x).cpu = c) (t : Mword)
    (incRef useLeft : Bool) (href : incRef = true → (s.sc x).ref ≠ 0) :
    (s.readyEnqueue c x t incRef useLeft).Placed (Function.update l (.ready c (s.sc x).prio)
      (s.queued x useLeft (l (.ready c (s.sc x).prio)))) := by
  obtain ⟨r, ha⟩ : ∃ r, s.addRef x incRef = some r := by
    unfold addRef
    by_cases hb : incRef = true
    · rw [if_pos hb, if_neg (href hb)]
      exact ⟨_, rfl⟩
    · rw [if_neg hb]
      exact ⟨_, rfl⟩
  obtain ⟨n, rfl⟩ := addRef_eq ha
  have h1 : (s.putSc x { s.sc x with ref := n }).Placed l := h.putSc rfl rfl
  have h2 := h1.link (c := c) hx (by simp [hc]) t useLeft
  unfold Machine.readyEnqueue
  rw [ha]
  simpa [queued, front] using h2

omit [DecidableEq E] in
theorem charge_left (t d : Mword) : ((s.charge c t d).sc (s.cpu c).current).left ≠ 0 ↔ t < d := by
  have hleft : ((s.charge c t d).sc (s.cpu c).current).left = if d > t then d - t else 0 := by
    simp [Machine.charge]
  rw [hleft]
  by_cases h : t < d
  · rw [if_pos h]
    refine iff_of_true (fun e => ?_) h
    rw [sub_eq_zero.mp e] at h
    exact absurd h (BitVec.lt_irrefl _)
  · rw [if_neg h]
    exact iff_of_false (fun e => e rfl) h

theorem Kept.turns (h : s.Kept l fun _ => True) : s.Turns l := by
  have hnot : ∀ x, (∀ k, ¬ s.InList k x) → ∀ k, x ∉ l k :=
    fun x hx k hk => hx k (h.placed.inList_iff.mpr hk)
  refine ⟨fun c x t incRef useLeft hp href => ?_, fun c x t hp => ?_,
    fun c t d own suspend useLeft hp => ?_, fun c t d own suspend useLeft hp => ?_⟩
  · have := h.placed.readyEnqueue (hnot x hp.1) hp.2 t incRef useLeft href
    rwa [queued_eq] at this
  · obtain ⟨u, v, huv⟩ := List.append_of_mem (h.placed.inList_iff.mp hp)
    have hnd := h.placed.linked.rings.nodup (.ready c (s.sc x).prio)
    have hxu : x ∉ u := by
      rw [huv] at hnd
      exact fun hu => (List.nodup_middle.mp hnd).notMem (List.mem_append_left _ hu)
    have herase : (u ++ x :: v).erase x = u ++ v := by
      rw [List.erase_append_right _ hxu, List.erase_cons_head]
    rw [huv, herase]
    exact h.placed.readyDequeue huv t
  · obtain ⟨hcharge, hown, -, -⟩ := h.charge (c := c) t d
    have hsc : ∀ v, (s.sc (s.cpu c).current) = v → ((s.charge c t d).sc (s.cpu c).current).prio = v.prio ∧
        ((s.charge c t d).sc (s.cpu c).current).cpu = c := by
      rintro v rfl
      exact ⟨by simp [Machine.charge], by simpa [Machine.charge] using h.own c⟩
    obtain ⟨hprio, hcpu⟩ := hsc _ rfl
    unfold Machine.requeue
    by_cases hsus : (suspend || ((s.sc (s.cpu c).current).disable && own)) = true
    · have hsus' := hsus
      simp only [Bool.or_eq_true, Bool.and_eq_true] at hsus'
      simpa only [if_pos hsus, if_pos hsus'] using hcharge.drop _
    · have hsus' := hsus
      simp only [Bool.or_eq_true, Bool.and_eq_true] at hsus'
      have hsf : suspend = false := by
        simp only [not_or, Bool.not_eq_true] at hsus'
        exact hsus'.1
      have hput := hcharge.readyEnqueue (hnot _ (hp hsf)) hcpu t false useLeft (by simp)
      rw [queued_eq, hprio] at hput
      simp only [charge_left] at hput
      simpa only [if_neg hsus, if_neg hsus'] using hput
  · intro q r m hm
    obtain ⟨l1, h1⟩ := h.requeue (c := c) t d own suspend useLeft fun hsus => hnot _ (hp hsus)
    obtain rfl := h1.placed.unique hm
    refine (h1.pick t).2.imp_right ?_
    rintro ⟨u, hu, hpl⟩
    exact ⟨_, u, hu, fun p' hlt => h1.ranked.top c p' hlt, hpl⟩

/-- In every run the ready lists are rings of what is ready, by priority and in order;
`prio_top` is the highest of them; the hazard is raised for a higher priority; the
functions put SCs in and take them out as they should; and `schedule` picks the first. -/
theorem after_ready {s : Machine ι S E} (hs : s.Start) {acts : List (Act ι S E)}
    (hm : s.Meets acts) :
    ∃ l, (s.after acts).Placed l ∧ (s.after acts).Ranked l ∧ (∀ c, (s.after acts).Alert l c) ∧
      (s.after acts).Turns l ∧
      ∀ c t d own suspend useLeft, (s.after acts).Proper (.schedule c t d own suspend useLeft) →
        let q := (s.after acts).requeue c t d own suspend useLeft
        let r := (s.after acts).schedule c t d own suspend useLeft
        (∀ x k, q.rank x ≠ some (c, k)) ∧ r = q ∨ q.First c (r.cpu c).current := by
  obtain ⟨l, h⟩ := hs.kept.after hm
  refine ⟨l, h.placed, h.ranked, fun c => h.alert c trivial, h.turns,
    fun c t d own suspend useLeft hp => ?_⟩
  have hnot : suspend = false → ∀ k, ((s.after acts).cpu c).current ∉ l k :=
    fun hsus k hk => hp hsus k (h.placed.inList_iff.mpr hk)
  obtain ⟨l1, h1⟩ := h.requeue t d own suspend useLeft hnot
  rcases (h1.pick t).2 with ⟨hall, heq⟩ | ⟨u, hu, -⟩
  · refine Or.inl ⟨fun x k hk => ?_, heq⟩
    have hx := (h1.ranked.mem c _ x).mpr ⟨⟨k, hk⟩, rfl⟩
    rw [hall] at hx
    simp at hx
  · exact Or.inr (h1.ranked.first hu)

/-- Two SCs become ready on the second CPU, and the first of them runs. -/
def twoReady : List (Act Bool (Bool × Bool) Unit) :=
  [.readyEnqueue true (true, false) 1 false true, .readyEnqueue true (true, true) 2 true true,
    .schedule true 9 20 false false true]

theorem meets_twoReady : twoCpus.Meets twoReady := by
  have h0 := start_twoCpus.placed
  have hnot0 : ∀ k, (true, false) ∉ (fun _ => [] : Slot Bool → List (Bool × Bool)) k := by simp
  have h1 := h0.readyEnqueue (c := true) hnot0 rfl 1 false true (by simp)
  have hnot1 : ∀ k, (true, true) ∉ Function.update (fun _ => []) (Slot.ready true 1) [(true, false)] k := by
    intro k
    by_cases hk : k = .ready true 1 <;> simp [hk]
  have h2 := h1.readyEnqueue (c := true) hnot1 rfl 2 true true (by decide)
  refine ⟨⟨fun k hk => hnot0 k (h0.inList_iff.mp hk), rfl⟩,
    ⟨fun k hk => hnot1 k (h1.inList_iff.mp hk), rfl⟩, fun _ k hk => ?_, trivial⟩
  have hmem : (false, true) ∈ Function.update (Function.update (fun _ => []) (Slot.ready true 1)
      [(true, false)]) (Slot.ready true 1) [(true, false), (true, true)] k := h2.inList_iff.mp hk
  by_cases hk1 : k = .ready true 1 <;> simp [hk1] at hmem

/-- The SC that runs goes to the end; with budget left it goes first if it asks for it. -/
theorem after_ready_twoReady :
    (∃ l, (twoCpus.after twoReady).Placed l ∧ (twoCpus.after twoReady).Ranked l ∧
      (∀ c, (twoCpus.after twoReady).Alert l c) ∧ (twoCpus.after twoReady).Turns l) ∧
      ((twoCpus.after twoReady).cpu true).current = (true, false) ∧
      ((twoCpus.after twoReady).cpu true).list 1 = some (true, true) ∧
      (((twoCpus.after twoReady).schedule true 12 15 false false false).cpu true).current = (true, true) ∧
      (((twoCpus.after twoReady).schedule true 12 11 false false true).cpu true).current = (true, true) ∧
      (((twoCpus.after twoReady).schedule true 12 15 false false true).cpu true).current = (true, false) := by
  obtain ⟨l, hl, hr, ha, ht, -⟩ := after_ready start_twoCpus meets_twoReady
  exact ⟨⟨l, hl, hr, ha, ht⟩, by decide, by decide, by decide, by decide, by decide⟩

end Machine

end Tukija.Sched
