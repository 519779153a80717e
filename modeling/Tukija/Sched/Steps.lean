import Tukija.Sched.Lists

/-! What the functions do to the remote queues, and what they log. -/
namespace Tukija.Sched

open Tukija.Lib.Word Tukija.Lib.Ring Tukija.Sm

section Logs

variable {ι S : Type} [DecidableEq ι]

/-- The SCs that were sent to CPU `c`, in order. -/
def sentOn (c : ι) (log : List (Event ι S)) : List S :=
  log.filterMap fun
    | .sent j x => if j = c then some x else none
    | _ => none

/-- The SCs that the handler of CPU `c` took. -/
def takenOn (c : ι) (log : List (Event ι S)) : List S :=
  log.filterMap fun
    | .took j x => if j = c then some x else none
    | _ => none

@[simp] theorem sentOn_append (c : ι) (a b : List (Event ι S)) :
    sentOn c (a ++ b) = sentOn c a ++ sentOn c b := List.filterMap_append

@[simp] theorem takenOn_append (c : ι) (a b : List (Event ι S)) :
    takenOn c (a ++ b) = takenOn c a ++ takenOn c b := List.filterMap_append

end Logs

namespace Machine

variable {ι S E : Type} {s s' s'' : Machine ι S E} {l l' l'' : Slot ι → List S} {c : ι} {x : S}

def Own (s : Machine ι S E) : Prop := ∀ j, (s.sc (s.cpu j).current).cpu = j

variable [DecidableEq ι]

/-- A step that leaves the remote queues alone. -/
structure Aside (s s' : Machine ι S E) (l l' : Slot ι → List S) : Prop where
  placed : s'.Placed l'
  own : s'.Own
  queue : ∀ j, l' (.queue j) = l (.queue j)
  handler : ∀ j, (s'.cpu j).handler = (s.cpu j).handler
  log : ∃ es, s'.log = s.log ++ es ∧ ∀ j, sentOn j es = [] ∧ takenOn j es = []

theorem Aside.refl (h : s.Placed l) (ho : s.Own) : Aside s s l l :=
  ⟨h, ho, fun _ => rfl, fun _ => rfl, [], by simp, fun _ => ⟨rfl, rfl⟩⟩

theorem Aside.trans (h : Aside s s' l l') (h' : Aside s' s'' l' l'') : Aside s s'' l l'' := by
  obtain ⟨es, he, hes⟩ := h.log
  obtain ⟨fs, hf, hfs⟩ := h'.log
  refine ⟨h'.placed, h'.own, fun j => (h'.queue j).trans (h.queue j),
    fun j => (h'.handler j).trans (h.handler j), es ++ fs, ?_, fun j => ?_⟩
  · rw [hf, he, List.append_assoc]
  · rw [sentOn_append, takenOn_append, (hes j).1, (hes j).2, (hfs j).1, (hfs j).2]
    exact ⟨rfl, rfl⟩

theorem Aside.putCpu (h : s.Placed l) (ho : s.Own) {v : Cpu S} (hl : v.list = (s.cpu c).list)
    (hq : v.queue = (s.cpu c).queue) (hh : v.handler = (s.cpu c).handler)
    (hc : (s.sc v.current).cpu = c) : Aside s (s.putCpu c v) l l := by
  have hcpu : ∀ j, ((s.putCpu c v).cpu j).list = (s.cpu j).list ∧
      ((s.putCpu c v).cpu j).queue = (s.cpu j).queue ∧
      ((s.putCpu c v).cpu j).handler = (s.cpu j).handler := by
    intro j
    by_cases hj : j = c
    · subst hj
      simp [hl, hq, hh]
    · simp [hj]
  refine ⟨h.congr (head_same (fun j => (hcpu j).1) (fun j => (hcpu j).2.1) (fun j => (hcpu j).2.2))
    (fun _ _ _ => ⟨rfl, rfl⟩) (fun _ _ _ hf => hf), fun j => ?_, fun _ => rfl,
    fun j => (hcpu j).2.2, [], by simp, fun _ => ⟨rfl, rfl⟩⟩
  by_cases hj : j = c
  · subst hj
    simpa using hc
  · simpa [hj] using ho j

/-- A step of which every remote queue gives account: what was in it and what was sent is
what was taken and what is in it. -/
structure Moved (s s' : Machine ι S E) (l l' : Slot ι → List S) : Prop where
  placed : s'.Placed l'
  own : s'.Own
  log : ∃ es, s'.log = s.log ++ es ∧
    ∀ j, l (.queue j) ++ sentOn j es = takenOn j es ++ l' (.queue j)

theorem Aside.moved (h : Aside s s' l l') : Moved s s' l l' := by
  obtain ⟨es, he, hes⟩ := h.log
  refine ⟨h.placed, h.own, es, he, fun j => ?_⟩
  rw [(hes j).1, (hes j).2, h.queue j, List.append_nil, List.nil_append]

theorem Moved.trans (h : Moved s s' l l') (h' : Moved s' s'' l' l'') : Moved s s'' l l'' := by
  obtain ⟨es, he, hes⟩ := h.log
  obtain ⟨fs, hf, hfs⟩ := h'.log
  refine ⟨h'.placed, h'.own, es ++ fs, by rw [hf, he, List.append_assoc], fun j => ?_⟩
  rw [sentOn_append, takenOn_append, ← List.append_assoc, hes j, List.append_assoc, hfs j,
    List.append_assoc]

theorem putCpu_handler (h : s.Placed l) (ho : s.Own) {v : Cpu S} (hl : v.list = (s.cpu c).list)
    (hq : (s.putCpu c v).head (.queue c) = s.head (.queue c)) (hc : v.current = (s.cpu c).current) :
    Moved s (s.putCpu c v) l l := by
  refine ⟨h.congr ?_ (fun _ _ _ => ⟨rfl, rfl⟩) (fun _ _ _ hf => hf), fun j => ?_, [],
    by simp, fun _ => ?_⟩
  · have hother : ∀ j, j ≠ c → (s.putCpu c v).cpu j = s.cpu j := fun j hj => by simp [hj]
    rw [head_queue hother (by simp [hl]) hq, Function.update_eq_self]
  · by_cases hj : j = c
    · subst hj
      simpa [hc] using ho j
    · simpa [hj] using ho j
  · simp [sentOn, takenOn]

theorem rrqEnter_of_none (hh : (s.cpu c).handler = none) (t : Mword) :
    s.rrqEnter c t = s.putCpu c { s.cpu c with handler := some (t, (s.cpu c).queue) } := by
  simp [rrqEnter, hh]

theorem rrqEnter_of_ne_none (hh : (s.cpu c).handler ≠ none) (t : Mword) : s.rrqEnter c t = s := by
  obtain ⟨o, ho⟩ := Option.ne_none_iff_exists'.mp hh
  simp [rrqEnter, ho]

theorem rrqLeave_of_nil {t : Mword} (hh : (s.cpu c).handler = some (t, none)) :
    s.rrqLeave c = s.putCpu c { s.cpu c with queue := none, handler := none } := by
  simp [rrqLeave, hh]

theorem rrqLeave_of_ne (hh : ∀ t, (s.cpu c).handler ≠ some (t, none)) : s.rrqLeave c = s := by
  rcases ho : (s.cpu c).handler with _ | ⟨t, _ | x⟩
  · simp [rrqLeave, ho]
  · exact absurd ho (hh t)
  · simp [rrqLeave, ho]

theorem Moved.rrqEnter (h : s.Placed l) (ho : s.Own) (t : Mword) : Moved s (s.rrqEnter c t) l l := by
  by_cases hh : (s.cpu c).handler = none
  · rw [rrqEnter_of_none hh]
    exact putCpu_handler h ho rfl (by simp [head, hh]) rfl
  · rw [rrqEnter_of_ne_none hh]
    exact (Aside.refl h ho).moved

theorem Moved.rrqLeave (h : s.Placed l) (ho : s.Own) : Moved s (s.rrqLeave c) l l := by
  by_cases hh : ∃ t, (s.cpu c).handler = some (t, none)
  · obtain ⟨t, hh⟩ := hh
    rw [rrqLeave_of_nil hh]
    exact putCpu_handler h ho rfl (by simp [head, hh]) rfl
  · rw [rrqLeave_of_ne (fun t ht => hh ⟨t, ht⟩)]
    exact (Aside.refl h ho).moved

variable [DecidableEq S]

theorem Aside.putSc (h : s.Placed l) (ho : s.Own) {v : Sc ι E} (hc : v.cpu = (s.sc x).cpu)
    (hp : v.prio = (s.sc x).prio) : Aside s (s.putSc x v) l l :=
  ⟨h.putSc hc hp, fun j => (same_of_update rfl hc hp _).1.trans (ho j), fun _ => rfl, fun _ => rfl,
    [], by simp, fun _ => ⟨rfl, rfl⟩⟩

omit [DecidableEq ι] in
theorem drop_cpu (s : Machine ι S E) (x : S) : (s.drop x).cpu = s.cpu := by
  rcases s.drop_eq x with ⟨he, -⟩ | ⟨he, -⟩ <;> rw [he] <;> rfl

theorem Aside.drop (h : s.Placed l) (ho : s.Own) (x : S) : Aside s (s.drop x) l l := by
  rcases s.drop_eq x with ⟨he, -⟩ | ⟨he, -⟩
  · rw [he]
    exact Aside.putSc h ho rfl rfl
  · rw [he]
    exact ⟨h.note _, ho, fun _ => rfl, fun _ => rfl, [.call x], rfl, fun _ => ⟨rfl, rfl⟩⟩

theorem link_cpu (t : Mword) (useLeft : Bool) (j : ι) :
    ((s.link c x t useLeft).cpu j).current = (s.cpu j).current ∧
      ((s.link c x t useLeft).cpu j).handler = (s.cpu j).handler := by
  by_cases hj : j = c
  · subst hj
    simp [Machine.link]
  · simp [Machine.link, putLinks, hj]

theorem Aside.link (h : s.Placed l) (ho : s.Own) (hx : ∀ k, x ∉ l k) (hc : (s.sc x).cpu = c)
    (t : Mword) (useLeft : Bool) :
    Aside s (s.link c x t useLeft) l (Function.update l (.ready c (s.sc x).prio)
      (s.queued x useLeft (l (.ready c (s.sc x).prio)))) := by
  have hsc : (s.link c x t useLeft).sc = Function.update s.sc x
      { s.sc x with left := if (s.sc x).left = 0 then (s.sc x).budget else (s.sc x).left, tsc := t } := rfl
  refine ⟨h.link hx hc t useLeft, fun j => ?_, fun j => ?_, fun j => (link_cpu t useLeft j).2, _,
    link_log t useLeft, fun _ => ⟨rfl, rfl⟩⟩
  · rw [(link_cpu t useLeft j).1]
    exact (same_of_update hsc rfl rfl _).1.trans (ho j)
  · rw [Function.update_of_ne (by simp)]

theorem Aside.readyEnqueue (h : s.Placed l) (ho : s.Own) (hx : ∀ k, x ∉ l k)
    (hc : (s.sc x).cpu = c) (t : Mword) (incRef useLeft : Bool) :
    ∃ l', Aside s (s.readyEnqueue c x t incRef useLeft) l l' := by
  unfold Machine.readyEnqueue
  cases ha : s.addRef x incRef with
  | none => exact ⟨l, Aside.refl h ho⟩
  | some r =>
    obtain ⟨n, rfl⟩ := addRef_eq ha
    have h1 : Aside s (s.putSc x { s.sc x with ref := n }) l l := Aside.putSc h ho rfl rfl
    exact ⟨_, h1.trans (Aside.link h1.placed h1.own hx (by simp [hc]) t useLeft)⟩

theorem Aside.charge (h : s.Placed l) (ho : s.Own) (t d : Mword) : Aside s (s.charge c t d) l l := by
  have h0 : Aside s (s.putSc (s.cpu c).current { s.sc (s.cpu c).current with
      time := (s.sc (s.cpu c).current).time + (t - (s.sc (s.cpu c).current).tsc)
      left := if d > t then d - t else 0 }) l l := Aside.putSc h ho rfl rfl
  exact h0.trans (Aside.putCpu h0.placed h0.own rfl rfl rfl (h0.own c))

theorem Aside.requeue (h : s.Placed l) (ho : s.Own) (t d : Mword) (own suspend useLeft : Bool)
    (hx : suspend = false → ∀ k, (s.cpu c).current ∉ l k) :
    ∃ l', Aside s (s.requeue c t d own suspend useLeft) l l' := by
  have h1 : Aside s (s.charge c t d) l l := Aside.charge h ho t d
  unfold Machine.requeue
  by_cases hsus : (suspend || ((s.sc (s.cpu c).current).disable && own)) = true
  · exact ⟨l, by simpa only [if_pos hsus] using h1.trans (Aside.drop h1.placed h1.own _)⟩
  · have hsf : suspend = false := by
      simp only [Bool.or_eq_true, not_or, Bool.not_eq_true] at hsus
      exact hsus.1
    have hc : ((s.charge c t d).sc (s.cpu c).current).cpu = c := by
      simpa [Machine.charge] using ho c
    obtain ⟨l2, h2⟩ := Aside.readyEnqueue h1.placed h1.own (hx hsf) hc t false useLeft
    exact ⟨l2, by simpa only [if_neg hsus] using h1.trans h2⟩

section Schedule

variable [DecidableEq E]

theorem Placed.dequeued (h : s.Placed l) (hx : x ∈ l (.ready c (s.sc x).prio)) (t : Mword) :
    (s.readyDequeue c x t).sc = Function.update s.sc x { s.sc x with tsc := t } ∧
      (s.readyDequeue c x t).log = s.log ++ [.unready c x] ∧
      ((s.readyDequeue c x t).cpu c).prioTop =
        lower ((s.readyDequeue c x t).cpu c).list (s.cpu c).prioTop ∧
      (∀ j, j ≠ c → (s.readyDequeue c x t).cpu j = s.cpu j) ∧
      ∀ j, ((s.readyDequeue c x t).cpu j).current = (s.cpu j).current ∧
        ((s.readyDequeue c x t).cpu j).handler = (s.cpu j).handler ∧
        ((s.readyDequeue c x t).cpu j).hazard = (s.cpu j).hazard := by
  obtain ⟨n, hn⟩ := Option.ne_none_iff_exists'.mp (h.linked.linked _ x hx).1
  obtain ⟨p, hp⟩ := Option.ne_none_iff_exists'.mp (h.linked.linked _ x hx).2
  refine ⟨?_, ?_, ?_, fun j hj => ?_, fun j => ?_⟩
  · simp [Machine.readyDequeue, hn, hp, putEc, putLinks]
  · simp [Machine.readyDequeue, hn, hp, putEc, putLinks]
  · simp [Machine.readyDequeue, hn, hp, putEc, putLinks]
  · simp [Machine.readyDequeue, hn, hp, putEc, putLinks, hj]
  · by_cases hj : j = c
    · subst hj
      simp [Machine.readyDequeue, hn, hp, putEc, putLinks]
    · simp [Machine.readyDequeue, hn, hp, putEc, putLinks, hj]

theorem Aside.readyDequeue (h : s.Placed l) (ho : s.Own) {u v : List S}
    (hx : l (.ready c (s.sc x).prio) = u ++ x :: v) (t : Mword) :
    Aside s (s.readyDequeue c x t) l (Function.update l (.ready c (s.sc x).prio) (u ++ v)) := by
  have hmem : x ∈ l (.ready c (s.sc x).prio) := by simp [hx]
  obtain ⟨hsc, hlog, -, -, hcpu⟩ := h.dequeued hmem t
  refine ⟨h.readyDequeue hx t, fun j => ?_, fun j => ?_, fun j => (hcpu j).2.1, _, hlog,
    fun _ => ⟨rfl, rfl⟩⟩
  · rw [(hcpu j).1]
    exact (same_of_update hsc rfl rfl _).1.trans (ho j)
  · rw [Function.update_of_ne (by simp)]

theorem Aside.pick (h : s.Placed l) (ho : s.Own) (t : Mword) : ∃ l', Aside s (s.pick c t) l l' := by
  unfold Machine.pick
  cases hy : (s.cpu c).list (s.cpu c).prioTop with
  | none => exact ⟨l, Aside.refl h ho⟩
  | some y =>
    obtain ⟨u, hu⟩ := h.linked.rings.cons_of_head
      (show s.head (.ready c (s.cpu c).prioTop) = some y from hy)
    have hfit := h.fits (.ready c (s.cpu c).prioTop) y (by simp [hu])
    have h1 : Aside s (s.putCpu c { s.cpu c with current := y }) l l :=
      Aside.putCpu h ho rfl rfl rfl hfit.1
    have hu1 : l (.ready c ((s.putCpu c { s.cpu c with current := y }).sc y).prio) = [] ++ y :: u := by
      rw [putCpu_sc, hfit.2]
      exact hu
    exact ⟨_, h1.trans (Aside.readyDequeue h1.placed h1.own hu1 t)⟩

theorem Aside.schedule (h : s.Placed l) (ho : s.Own) (t d : Mword) (own suspend useLeft : Bool)
    (hx : suspend = false → ∀ k, (s.cpu c).current ∉ l k) :
    ∃ l', Aside s (s.schedule c t d own suspend useLeft) l l' := by
  obtain ⟨l1, h1⟩ := Aside.requeue h ho t d own suspend useLeft hx
  obtain ⟨l2, h2⟩ := Aside.pick (c := c) h1.placed h1.own t
  exact ⟨l2, h1.trans h2⟩

end Schedule

theorem readyEnqueue_false (t : Mword) (useLeft : Bool) :
    s.readyEnqueue c x t false useLeft = s.link c x t useLeft := rfl

theorem Moved.take (h : s.Placed l) (ho : s.Own) {t : Mword} {o : Option S}
    (hh : (s.cpu c).handler = some (t, o)) {u : List S} (hx : l (.queue c) = x :: u) :
    Moved s (s.take c t x) l (Function.update l (.queue c) u) ∧
      (∀ k, x ∉ Function.update l (.queue c) u k) ∧ (s.sc x).cpu = c := by
  have hmem : x ∈ l (.queue c) := by simp [hx]
  have hptr : (if (unlink s.links x).next x = some x then none else (unlink s.links x).next x)
      = u.head? := by
    obtain ⟨n, hn⟩ := Option.ne_none_iff_exists'.mp (h.linked.linked _ x hmem).1
    have := h.linked.rings.head_next hx
    rw [nextOf_eq hn] at this
    rw [h.linked.unlink_next hmem, hn]
    simpa using this
  have hunl := h.linked.unlink (u := []) hx hptr
  have hhead : (s.take c t x).head = Function.update s.head (.queue c)
      (if (unlink s.links x).next x = some x then none else (unlink s.links x).next x) := by
    refine head_queue (fun j hj => ?_) ?_ ?_
    · simp [Machine.take, putLinks, hj]
    · simp [Machine.take]
    · simp [Machine.take, head]
  refine ⟨⟨h.update ?_ (fun _ => ⟨rfl, rfl⟩) (fun y hy => ?_), fun j => ?_, [.took c x], rfl,
    fun j => ?_⟩, fun k hk => ?_, h.fits _ x hmem⟩
  · rw [hhead]
    exact hunl
  · exact h.fits _ y (by rw [hx]; exact List.mem_cons_of_mem _ hy)
  · by_cases hj : j = c
    · subst hj
      simpa [Machine.take, putLinks] using ho j
    · simpa [Machine.take, putLinks, hj] using ho j
  · by_cases hj : j = c
    · subst hj
      simp [sentOn, takenOn, hx]
    · simp [sentOn, takenOn, hj, Ne.symm hj]
  · have hnd := h.linked.rings.nodup (.queue c)
    rw [hx] at hnd
    by_cases hkc : k = .queue c
    · subst hkc
      rw [Function.update_self] at hk
      exact (List.nodup_cons.mp hnd).1 hk
    · rw [Function.update_of_ne hkc] at hk
      exact hkc (h.linked.rings.apart _ _ x hk hmem)

theorem take_log (t : Mword) : (s.take c t x).log = s.log ++ [.took c x] := rfl

theorem rrqNext_of_some {t : Mword} (hh : (s.cpu c).handler = some (t, some x)) :
    s.rrqNext c = if s.drops x then ((s.take c t x).note (.dropped c x)).drop x
      else (s.take c t x).link c x t true := by
  have hdrops : (s.take c t x).drops x = s.drops x := rfl
  simp only [rrqNext, hh, hdrops, readyEnqueue_false]

theorem rrqNext_of_none (hh : ∀ t x, (s.cpu c).handler ≠ some (t, some x)) : s.rrqNext c = s := by
  rcases ho : (s.cpu c).handler with _ | ⟨t, _ | x⟩
  · simp [rrqNext, ho]
  · simp [rrqNext, ho]
  · exact absurd ho (hh t x)

theorem Moved.rrqNext (h : s.Placed l) (ho : s.Own) {t : Mword} {o : Option S}
    (hh : (s.cpu c).handler = some (t, o)) {u : List S} (hx : l (.queue c) = x :: u) :
    if s.drops x then
      Moved s (s.rrqNext c) l (Function.update l (.queue c) u) ∧
        (s.rrqNext c).log = s.log ++ .took c x :: .dropped c x ::
          (if (s.sc x).ref = 1 then [.call x] else [])
    else
      Moved s (s.rrqNext c) l (Function.update (Function.update l (.queue c) u)
          (.ready c (s.sc x).prio) (s.queued x true (l (.ready c (s.sc x).prio)))) ∧
        (s.rrqNext c).log = s.log ++ [.took c x, .ready c x (s.front x true)] := by
  have ho' : o = some x := by
    have := h.linked.rings.head (.queue c)
    simpa [head, hh, hx] using this
  subst ho'
  obtain ⟨htake, hnot, hcx⟩ := Moved.take h ho hh hx
  have heq := rrqNext_of_some hh
  by_cases hd : s.drops x = true
  · rw [if_pos hd]
    rw [if_pos hd] at heq
    rw [heq]
    have hnote : Aside (s.take c t x) ((s.take c t x).note (.dropped c x))
        (Function.update l (.queue c) u) (Function.update l (.queue c) u) :=
      ⟨htake.placed.note _, htake.own, fun _ => rfl, fun _ => rfl, [.dropped c x], rfl,
        fun _ => ⟨rfl, rfl⟩⟩
    refine ⟨htake.trans (hnote.trans (Aside.drop hnote.placed hnote.own x)).moved, ?_⟩
    have href : (((s.take c t x).note (.dropped c x)).sc x).ref = (s.sc x).ref := rfl
    rcases ((s.take c t x).note (.dropped c x)).drop_eq x with ⟨he, hr⟩ | ⟨he, hr⟩
    · rw [href] at hr
      rw [he, if_neg hr, putSc_log, note_log, take_log]
      simp
    · rw [href] at hr
      rw [he, if_pos hr, note_log, note_log, take_log]
      simp
  · rw [if_neg hd]
    rw [if_neg hd] at heq
    rw [heq]
    have hlink := Aside.link htake.placed htake.own hnot hcx t true
    rw [show Function.update l (.queue c) u (.ready c ((s.take c t x).sc x).prio)
      = l (.ready c (s.sc x).prio) from Function.update_of_ne (by simp) _ _] at hlink
    refine ⟨htake.trans hlink.moved, ?_⟩
    rw [link_log, take_log, List.append_assoc]
    rfl

theorem send_cpu (s : Machine ι S E) (c : ι) (x : S) : (s.send c x).cpu = Function.update s.cpu c
    { s.cpu c with queue := (enqueue (s.cpu c).queue s.links x).1 } := by
  unfold Machine.send
  by_cases hq : (s.cpu c).queue = none <;> simp [hq, putLinks]

theorem send_sc (s : Machine ι S E) (c : ι) (x : S) : (s.send c x).sc = s.sc := by
  unfold Machine.send
  by_cases hq : (s.cpu c).queue = none <;> simp [hq, putLinks]

theorem Moved.send (h : s.Placed l) (ho : s.Own) (hx : ∀ k, x ∉ l k) (hc : (s.sc x).cpu = c)
    (hh : (s.cpu c).handler = none) :
    Moved s (s.send c x) l (Function.update l (.queue c) (l (.queue c) ++ [x])) ∧
      (s.send c x).log = s.log ++ .sent c x :: (if l (.queue c) = [] then [.ipi c] else []) ∧
      ∀ j, ((s.send c x).cpu j).handler = (s.cpu j).handler := by
  have hqh : s.head (.queue c) = (s.cpu c).queue := by simp only [head, hh]
  have hempty : (s.cpu c).queue = none ↔ l (.queue c) = [] := by
    rw [← hqh]
    exact h.linked.rings.nil_of_head
  have henq := h.linked.enqueue (i := .queue c) hx
  rw [hqh] at henq
  have hlog : (s.send c x).log = s.log ++ .sent c x :: (if l (.queue c) = [] then [.ipi c] else []) := by
    unfold Machine.send
    by_cases hq : (s.cpu c).queue = none
    · simp [hq, hempty.mp hq, putLinks]
    · have hne : l (.queue c) ≠ [] := fun e => hq (hempty.mpr e)
      simp [hq, hne, putLinks]
  have hcpu := s.send_cpu c x
  have hsc := s.send_sc c x
  have hlinks : (s.send c x).links = (enqueue (s.cpu c).queue s.links x).2 := by
    unfold Machine.send
    by_cases hq : (s.cpu c).queue = none <;> simp [hq, putLinks]
  have hhead : (s.send c x).head = Function.update s.head (.queue c)
      (enqueue (s.cpu c).queue s.links x).1 := by
    refine head_queue (fun j hj => ?_) ?_ ?_
    · rw [hcpu, Function.update_of_ne hj]
    · rw [hcpu, Function.update_self]
    · simp only [head, hcpu, Function.update_self, hh]
  refine ⟨⟨h.update ?_ (fun y => by rw [hsc]; exact ⟨rfl, rfl⟩) (fun y hy => ?_), fun j => ?_, _, hlog,
    fun j => ?_⟩, hlog, fun j => ?_⟩
  · rw [hhead, hlinks]
    exact henq
  · rcases List.mem_append.mp hy with hy | hy
    · exact h.fits _ y hy
    · rw [List.mem_singleton.mp hy]
      exact hc
  · rw [hsc, hcpu]
    by_cases hj : j = c
    · subst hj
      simpa using ho j
    · simpa [hj] using ho j
  · have hsent : sentOn j (.sent c x :: (if l (.queue c) = [] then [.ipi c] else []))
        = if c = j then [x] else [] := by
      split <;> by_cases hj : c = j <;> simp [sentOn, hj]
    have htaken : takenOn j (.sent c x :: (if l (.queue c) = [] then [Event.ipi c] else [])) = [] := by
      split <;> simp [takenOn]
    rw [hsent, htaken, List.nil_append]
    by_cases hj : c = j
    · subst hj
      simp
    · simp [hj, Ne.symm hj]
  · rw [hcpu]
    by_cases hj : j = c
    · subst hj
      simp
    · simp [hj]

end Machine

end Tukija.Sched
