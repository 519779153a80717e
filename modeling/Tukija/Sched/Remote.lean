import Tukija.Sched.Steps

/-! The remote queue over whole runs: what is sent to a CPU, in which order its handler
takes it, and where it goes. -/
namespace Tukija.Sched

open Tukija.Lib.Word Tukija.Lib.Ring Tukija.Sm

/-- A pass of the handler of CPU `c`. -/
def Act.passes {ι S E : Type} [DecidableEq ι] (c : ι) : Act ι S E → Bool
  | .rrqNext j => j = c
  | _ => false

/-- The handler of CPU `c` tries to return. -/
def Act.leaves {ι S E : Type} [DecidableEq ι] (c : ι) : Act ι S E → Bool
  | .rrqLeave j => j = c
  | _ => false

namespace Machine

variable {ι S E : Type} {s s' : Machine ι S E} {l l' : Slot ι → List S} {c : ι} {x : S}

theorem Start.placed (hs : s.Start) : s.Placed fun _ => [] := by
  have hhead : ∀ k, s.head k = none := by
    intro k
    cases k with
    | queue c => simp [head, hs.handler, hs.queue]
    | ready c p => exact hs.list c p
  exact ⟨⟨⟨hhead, by simp, by simp⟩, by simp⟩, by simp⟩

variable [DecidableEq ι]

/-- While the handler of a CPU runs, nothing but its passes changes its queue. -/
def Held (a : Act ι S E) (s s' : Machine ι S E) (l l' : Slot ι → List S) : Prop :=
  ∀ j, (s.cpu j).handler ≠ none → a.leaves j = false → (s'.cpu j).handler ≠ none ∧
    sentOn j s'.log = sentOn j s.log ∧ l' (.queue j) = (l (.queue j)).drop (a.passes j).toNat

theorem Aside.held (h : Aside s s' l l') {a : Act ι S E} (ha : ∀ j, a.passes j = false) :
    Held a s s' l l' := by
  intro j hj _
  obtain ⟨es, he, hes⟩ := h.log
  rw [h.handler j, h.queue j, ha j, he, sentOn_append, (hes j).1, List.append_nil]
  exact ⟨hj, rfl, rfl⟩

variable [DecidableEq S]

theorem rrqNext_handler (j : ι) : ((s.rrqNext c).cpu j).handler = none ↔ (s.cpu j).handler = none := by
  by_cases hh : ∃ t x, (s.cpu c).handler = some (t, some x)
  · obtain ⟨t, x, hh⟩ := hh
    have htake : ((s.take c t x).cpu j).handler = none ↔ (s.cpu j).handler = none := by
      by_cases hj : j = c
      · subst hj
        simp [Machine.take, hh]
      · simp [Machine.take, putLinks, hj]
    rw [← htake, rrqNext_of_some hh]
    split
    · rw [drop_cpu, note_cpu]
    · rw [(link_cpu _ _ j).2]
  · rw [rrqNext_of_none (fun t x h => hh ⟨t, x, h⟩)]

theorem held_rrqNext (h : s.Placed l) (ho : s.Own) :
    ∃ l', Moved s (s.rrqNext c) l l' ∧ Held (.rrqNext c) s (s.rrqNext c) l l' := by
  by_cases hh : ∃ t x, (s.cpu c).handler = some (t, some x)
  · obtain ⟨t, x, hh⟩ := hh
    obtain ⟨u, hu⟩ := h.linked.rings.cons_of_head (k := .queue c) (a := x) (by simp [head, hh])
    have hpass := Moved.rrqNext h ho hh hu
    have hqueue : ∀ j, Function.update l (.queue c) u (.queue j) =
        (l (.queue j)).drop ((Act.rrqNext c : Act ι S E).passes j).toNat := by
      intro j
      by_cases hj : j = c
      · subst hj
        simp [Act.passes, hu]
      · simp [Act.passes, hj, Ne.symm hj]
    split at hpass
    · refine ⟨_, hpass.1, fun j hj _ => ⟨fun e => hj ((rrqNext_handler j).mp e), ?_, hqueue j⟩⟩
      rw [hpass.2, sentOn_append]
      split <;> simp [sentOn]
    · refine ⟨_, hpass.1, fun j hj _ => ⟨fun e => hj ((rrqNext_handler j).mp e), ?_, ?_⟩⟩
      · rw [hpass.2, sentOn_append]
        simp [sentOn]
      · rw [Function.update_of_ne (by simp)]
        exact hqueue j
  · have heq : s.rrqNext c = s := rrqNext_of_none (fun t x h => hh ⟨t, x, h⟩)
    rw [heq]
    refine ⟨l, (Aside.refl h ho).moved, fun j hj _ => ⟨hj, rfl, ?_⟩⟩
    by_cases hj' : j = c
    · subst hj'
      have hnil : l (.queue j) = [] := by
        rw [← h.linked.rings.nil_of_head]
        rcases ho' : (s.cpu j).handler with _ | ⟨t, _ | x⟩
        · exact absurd ho' hj
        · simp [head, ho']
        · exact absurd ⟨t, x, ho'⟩ hh
      simp [hnil]
    · simp [Act.passes, Ne.symm hj']

theorem held_remoteEnqueue (h : s.Placed l) (ho : s.Own) (hx : ∀ k, x ∉ l k) (i : ι) (incRef : Bool)
    (t : Mword) :
    ∃ l', Moved s (s.remoteEnqueue i x incRef t) l l' ∧
      Held (.remoteEnqueue i x incRef t) s (s.remoteEnqueue i x incRef t) l l' := by
  have hstay : ∃ l', Moved s s l l' ∧ Held (.remoteEnqueue i x incRef t) s s l l' :=
    ⟨l, (Aside.refl h ho).moved, (Aside.refl h ho).held fun _ => rfl⟩
  by_cases hi : i = (s.sc x).cpu
  · have heq : s.remoteEnqueue i x incRef t = s.readyEnqueue i x t incRef true := by
      simp [remoteEnqueue, hi]
    obtain ⟨l', hl'⟩ := Aside.readyEnqueue h ho hx hi.symm t incRef true
    rw [heq]
    exact ⟨l', hl'.moved, hl'.held fun _ => rfl⟩
  by_cases hh : (s.cpu (s.sc x).cpu).handler = none
  · cases ha : s.addRef x incRef with
    | none =>
      have heq : s.remoteEnqueue i x incRef t = s := by simp [remoteEnqueue, hi, hh, ha]
      rwa [heq]
    | some r =>
      have heq : s.remoteEnqueue i x incRef t = r.send (s.sc x).cpu x := by
        simp [remoteEnqueue, hi, hh, ha]
      obtain ⟨n, rfl⟩ := addRef_eq ha
      have h1 : Aside s (s.putSc x { s.sc x with ref := n }) l l := Aside.putSc h ho rfl rfl
      obtain ⟨hmoved, hlog, hcpu⟩ := Moved.send h1.placed h1.own hx (by simp) hh
      rw [heq]
      refine ⟨_, h1.moved.trans hmoved, fun j hj _ => ?_⟩
      have hjc : j ≠ (s.sc x).cpu := by
        rintro rfl
        exact hj hh
      rw [hcpu j, Function.update_of_ne (by simpa using hjc), hlog, sentOn_append]
      refine ⟨hj, ?_, rfl⟩
      split <;> simp [sentOn, Ne.symm hjc]
  · obtain ⟨o, ho'⟩ := Option.ne_none_iff_exists'.mp hh
    have heq : s.remoteEnqueue i x incRef t = s := by simp [remoteEnqueue, hi, ho']
    rwa [heq]

variable [DecidableEq E]

omit [DecidableEq S] in
theorem Aside.putEc (h : s.Placed l) (ho : s.Own) (e : E) (v : Ec) : Aside s (s.putEc e v) l l :=
  ⟨h.congr rfl (fun _ _ _ => ⟨rfl, rfl⟩) (fun _ _ _ hf => hf), ho, fun _ => rfl, fun _ => rfl, [],
    by simp [Machine.putEc], fun _ => ⟨rfl, rfl⟩⟩

omit [DecidableEq S] [DecidableEq E] in
theorem Aside.links (h : s.Placed l) (ho : s.Own) {k : Links S} (hp : s.Proper (.links k)) :
    Aside s (s.putLinks k) l l :=
  ⟨h.congr rfl (fun j y hy => hp j y (h.inList_iff.mpr hy)) (fun _ _ _ hf => hf), ho, fun _ => rfl,
    fun _ => rfl, [], by simp [putLinks], fun _ => ⟨rfl, rfl⟩⟩

omit [DecidableEq E] in
theorem Aside.clone (h : s.Placed l) (ho : s.Own) (hx : ∀ k, x ∉ l k) (hcur : ∀ j, (s.cpu j).current ≠ x)
    (v : Sc ι E) : Aside s (s.putSc x v) l l := by
  have hother : ∀ y, y ≠ x → (s.putSc x v).sc y = s.sc y := by
    intro y hy
    simp [hy]
  refine ⟨h.congr rfl (fun _ _ _ => ⟨rfl, rfl⟩) (fun k y hy hf => ?_), fun j => ?_, fun _ => rfl,
    fun _ => rfl, [], by simp, fun _ => ⟨rfl, rfl⟩⟩
  · have hyx : y ≠ x := by
      rintro rfl
      exact hx k hy
    cases k with
    | queue j => simpa only [Fits, hother y hyx] using hf
    | ready j p => simpa only [Fits, hother y hyx] using hf
  · rw [putSc_cpu, hother _ (hcur j)]
    exact ho j

theorem step_moved (h : s.Placed l) (ho : s.Own) {a : Act ι S E} (hp : s.Proper a) :
    ∃ l', Moved s (s.step a) l l' ∧ Held a s (s.step a) l l' := by
  have haside : (∃ l', Aside s (s.step a) l l') → (∀ j, a.passes j = false) →
      ∃ l', Moved s (s.step a) l l' ∧ Held a s (s.step a) l l' := by
    rintro ⟨l', hl'⟩ ha
    exact ⟨l', hl'.moved, hl'.held ha⟩
  have hnot : ∀ x, (∀ k, ¬ s.InList k x) → ∀ k, x ∉ l k := by
    intro x hx k hk
    exact hx k (h.inList_iff.mpr hk)
  cases a with
  | remoteEnqueue i x incRef t => exact held_remoteEnqueue h ho (hnot x hp) i incRef t
  | rrqEnter c t =>
    refine ⟨l, Moved.rrqEnter h ho t, fun j hj _ => ?_⟩
    by_cases hh : (s.cpu c).handler = none
    · have hjc : j ≠ c := by
        rintro rfl
        exact hj hh
      simpa [step, rrqEnter_of_none hh, hjc, Act.passes] using hj
    · simpa [step, rrqEnter_of_ne_none hh, Act.passes] using hj
  | rrqNext c => exact held_rrqNext h ho
  | rrqLeave c =>
    refine ⟨l, Moved.rrqLeave h ho, fun j hj hl => ?_⟩
    have hjc : j ≠ c := by
      rintro rfl
      simp [Act.leaves] at hl
    by_cases hh : ∃ t, (s.cpu c).handler = some (t, none)
    · obtain ⟨t, hh⟩ := hh
      simpa [step, rrqLeave_of_nil hh, hjc, Act.passes] using hj
    · simpa [step, rrqLeave_of_ne (fun t ht => hh ⟨t, ht⟩), Act.passes] using hj
  | readyEnqueue c x t incRef useLeft =>
    exact haside (Aside.readyEnqueue h ho (hnot x hp.1) hp.2 t incRef useLeft) fun _ => rfl
  | readyDequeue c x t =>
    obtain ⟨u, v, huv⟩ := List.append_of_mem (h.inList_iff.mp hp)
    exact haside ⟨_, Aside.readyDequeue h ho huv t⟩ fun _ => rfl
  | schedule c t d own suspend useLeft =>
    exact haside (Aside.schedule h ho t d own suspend useLeft fun hs => hnot _ (hp hs)) fun _ => rfl
  | disable x b => exact haside ⟨l, Aside.putSc h ho rfl rfl⟩ fun _ => rfl
  | refs x r => exact haside ⟨l, Aside.putSc h ho rfl rfl⟩ fun _ => rfl
  | ec e v => exact haside ⟨l, Aside.putEc h ho e v⟩ fun _ => rfl
  | clone x prio budget left cpu =>
    exact haside ⟨l, Aside.clone h ho (hnot x hp.1) hp.2 _⟩ fun _ => rfl
  | links k => exact haside ⟨l, Aside.links h ho hp⟩ fun _ => rfl

theorem after_moved (h : s.Placed l) (ho : s.Own) {acts : List (Act ι S E)} (hm : s.Meets acts) :
    ∃ l', Moved s (s.after acts) l l' := by
  induction acts generalizing s l with
  | nil => exact ⟨l, (Aside.refl h ho).moved⟩
  | cons a acts ih =>
    obtain ⟨l1, h1, -⟩ := step_moved h ho hm.1
    obtain ⟨l2, h2⟩ := ih h1.placed h1.own hm.2
    exact ⟨l2, h1.trans h2⟩

theorem after_held (h : s.Placed l) (ho : s.Own) (hc : (s.cpu c).handler ≠ none)
    {acts : List (Act ι S E)} (hm : s.Meets acts) (hl : ∀ a ∈ acts, a.leaves c = false) :
    takenOn c (s.after acts).log = takenOn c s.log ++ (l (.queue c)).take (acts.countP (Act.passes c)) := by
  have hrun : ∃ l', Moved s (s.after acts) l l' ∧ sentOn c (s.after acts).log = sentOn c s.log ∧
      l' (.queue c) = (l (.queue c)).drop (acts.countP (Act.passes c)) := by
    induction acts generalizing s l with
    | nil => exact ⟨l, (Aside.refl h ho).moved, rfl, rfl⟩
    | cons a acts ih =>
      obtain ⟨l1, h1, hheld⟩ := step_moved h ho hm.1
      obtain ⟨hc1, hs1, hd1⟩ := hheld c hc (hl a List.mem_cons_self)
      obtain ⟨l2, h2, hs2, hd2⟩ := ih h1.placed h1.own hc1 hm.2 fun b hb => hl b (List.mem_cons_of_mem _ hb)
      refine ⟨l2, h1.trans h2, hs2.trans hs1, ?_⟩
      rw [hd2, hd1, List.drop_drop, List.countP_cons]
      congr 1
      cases a.passes c <;> simp [add_comm]
  obtain ⟨l', h', hs, hd⟩ := hrun
  obtain ⟨es, he, hes⟩ := h'.log
  have hnil : sentOn c es = [] := by
    rw [he, sentOn_append] at hs
    exact List.append_right_eq_self.mp hs
  have hacc := hes c
  rw [hnil, List.append_nil, hd] at hacc
  rw [he, takenOn_append]
  congr 1
  apply List.append_cancel_right
  rw [← hacc, List.take_append_drop]

/-- What a call, a pass and the end of the handler do to the lists `l`. -/
structure Serves (s : Machine ι S E) (l : Slot ι → List S) : Prop where
  send : ∀ i x incRef t, (∀ k, ¬ s.InList k x) → i ≠ (s.sc x).cpu →
    (s.cpu (s.sc x).cpu).handler = none → (incRef = true → (s.sc x).ref ≠ 0) →
    (s.remoteEnqueue i x incRef t).Placed (Function.update l (.queue (s.sc x).cpu)
        (l (.queue (s.sc x).cpu) ++ [x])) ∧
      (s.remoteEnqueue i x incRef t).log = s.log ++ .sent (s.sc x).cpu x ::
        (if l (.queue (s.sc x).cpu) = [] then [.ipi (s.sc x).cpu] else [])
  drop : ∀ c x u, (s.cpu c).handler ≠ none → l (.queue c) = x :: u → s.drops x = true →
    (s.rrqNext c).Placed (Function.update l (.queue c) u) ∧
      (s.rrqNext c).log = s.log ++ .took c x :: .dropped c x ::
        (if (s.sc x).ref = 1 then [.call x] else [])
  ready : ∀ c x u, (s.cpu c).handler ≠ none → l (.queue c) = x :: u → s.drops x = false →
    (s.rrqNext c).Placed (Function.update (Function.update l (.queue c) u)
        (.ready c (s.sc x).prio) (s.queued x true (l (.ready c (s.sc x).prio)))) ∧
      (s.rrqNext c).log = s.log ++ [.took c x, .ready c x (s.front x true)]
  leave : ∀ c, (s.cpu c).handler ≠ none →
    (((s.rrqLeave c).cpu c).handler = none ↔ l (.queue c) = [])

omit [DecidableEq E] in
theorem Placed.serves (h : s.Placed l) (ho : s.Own) : s.Serves l := by
  refine ⟨fun i x incRef t hx hi hh href => ?_, fun c x u hc hu hd => ?_, fun c x u hc hu hd => ?_,
    fun c hc => ?_⟩
  · obtain ⟨r, ha⟩ : ∃ r, s.addRef x incRef = some r := by
      unfold addRef
      by_cases hb : incRef = true
      · rw [if_pos hb, if_neg (href hb)]
        exact ⟨_, rfl⟩
      · rw [if_neg hb]
        exact ⟨_, rfl⟩
    have heq : s.remoteEnqueue i x incRef t = r.send (s.sc x).cpu x := by
      simp [remoteEnqueue, hi, hh, ha]
    obtain ⟨n, rfl⟩ := addRef_eq ha
    have h1 : Aside s (s.putSc x { s.sc x with ref := n }) l l := Aside.putSc h ho rfl rfl
    have hnot : ∀ k, x ∉ l k := fun k hk => hx k (h.inList_iff.mpr hk)
    obtain ⟨hmoved, hlog, -⟩ := Moved.send h1.placed h1.own hnot (by simp) hh
    rw [heq]
    exact ⟨hmoved.placed, hlog⟩
  · obtain ⟨⟨t, o⟩, hh⟩ := Option.ne_none_iff_exists'.mp hc
    have := Moved.rrqNext h ho hh hu
    rw [if_pos hd] at this
    exact ⟨this.1.placed, this.2⟩
  · obtain ⟨⟨t, o⟩, hh⟩ := Option.ne_none_iff_exists'.mp hc
    have := Moved.rrqNext h ho hh hu
    rw [if_neg (by simp [hd])] at this
    exact ⟨this.1.placed, this.2⟩
  · rw [← h.linked.rings.nil_of_head]
    rcases ho' : (s.cpu c).handler with _ | ⟨t, _ | x⟩
    · exact absurd ho' hc
    · simp [rrqLeave_of_nil ho', head, ho']
    · simp [rrqLeave, head, ho']

/-- In every run every SC is in one list at most, and what was sent to a CPU is what its
handler has taken and what waits in the queue, in this order. -/
theorem after_remote {s : Machine ι S E} (hs : s.Start) {acts : List (Act ι S E)}
    (hm : s.Meets acts) :
    (∀ k j x, (s.after acts).InList k x → (s.after acts).InList j x → k = j) ∧
      ∃ l, (s.after acts).Placed l ∧ (s.after acts).Serves l ∧
        (∀ c, sentOn c (s.after acts).log = takenOn c (s.after acts).log ++ l (.queue c)) ∧
        ∀ c more, ((s.after acts).cpu c).handler ≠ none → (s.after acts).Meets more →
          (∀ a ∈ more, a.leaves c = false) →
          takenOn c ((s.after acts).after more).log =
            takenOn c (s.after acts).log ++ (l (.queue c)).take (more.countP (Act.passes c)) := by
  obtain ⟨l, h⟩ := after_moved hs.placed hs.current hm
  refine ⟨fun k j x hk hj => ?_, l, h.placed, h.placed.serves h.own, fun c => ?_,
    fun c more hc hmore hl => after_held h.placed h.own hc hmore hl⟩
  · rw [h.placed.inList_iff] at hk hj
    exact h.placed.linked.rings.apart k j x hk hj
  · obtain ⟨es, he, hes⟩ := h.log
    rw [he, hs.log, List.nil_append, ← hes c, List.nil_append]

/-- Two SCs of the second CPU, the second one disabled, and an idle SC on each CPU. -/
def twoCpus : Machine Bool (Bool × Bool) Unit where
  sc x := ⟨(), x != (false, false), x.1.toNat, x == (true, true), 10, 0, 0, 0, 1⟩
  ec _ := ⟨false, false, 0⟩
  cpu c := ⟨fun _ => none, 0, none, none, (false, c), false⟩
  links := .null
  log := []

/-- The first CPU sends both, and the handler of the second one runs. -/
def bothSent : List (Act Bool (Bool × Bool) Unit) :=
  [.remoteEnqueue false (true, false) true 0, .remoteEnqueue false (true, true) false 0,
    .rrqEnter true 7, .rrqNext true, .rrqNext true, .rrqLeave true]

theorem start_twoCpus : twoCpus.Start :=
  ⟨fun _ _ => rfl, fun _ => rfl, fun _ => rfl, fun _ => rfl, by decide, rfl, rfl⟩

theorem meets_bothSent : twoCpus.Meets bothSent := by
  have h0 := start_twoCpus.placed
  have hnot : ∀ k, ¬ twoCpus.InList k (true, false) := by
    intro k hk
    simpa using h0.inList_iff.mp hk
  obtain ⟨h1, -⟩ := (h0.serves start_twoCpus.current).send false (true, false) true 0 hnot (by decide)
    (by decide) (by decide)
  refine ⟨hnot, fun k hk => ?_, trivial, trivial, trivial, trivial, trivial⟩
  have hmem := h1.inList_iff.mp hk
  by_cases hq : k = .queue (twoCpus.sc (true, false)).cpu
  · rw [hq, Function.update_self] at hmem
    simp at hmem
  · rw [Function.update_of_ne hq] at hmem
    simp at hmem

theorem after_remote_bothSent :
    (∀ k j x, (twoCpus.after bothSent).InList k x → (twoCpus.after bothSent).InList j x → k = j) ∧
      (twoCpus.after bothSent).log = [.sent true (true, false), .ipi true, .sent true (true, true),
        .took true (true, false), .ready true (true, false) false, .took true (true, true),
        .dropped true (true, true), .call (true, true)] :=
  ⟨(after_remote start_twoCpus meets_bothSent).1, by decide⟩

end Machine

end Tukija.Sched
