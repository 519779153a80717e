import Tukija.Timeouts.Runs

/-! The list of one CPU with its timer, and `Timeout::check` turn by turn: between
the dequeuing of a timeout and the next look at the list runs its `trigger`, which
may enqueue and dequeue timeouts itself. -/
namespace Tukija.Timeouts

open Lib.Chain

/-- Where the CPU is: in `Timeout::check`, at the condition of the loop or in a
trigger, or not in it.  `prev_list` is the local variable of that name. -/
inductive Phase where
  | out
  | turn (prev_list : Option Id)
  | trigger (prev_list : Option Id)
  deriving DecidableEq, Repr

def Phase.inTurn : Phase → Bool
  | .turn _ => true
  | _ => false

def Phase.inTrigger : Phase → Bool
  | .trigger _ => true
  | _ => false

inductive Event where
  | entered (t : Id) (time : Nat)
  | left (t : Id)
  | triggered (t : Id) (time : Nat)
  deriving DecidableEq, Repr

/-- `armed` are the times that `Lapic::set_timer` was called with and `log` is what
happened to the timeouts, the latest first. -/
structure Local where
  lists : Machine Unit
  armed : List Nat
  phase : Phase
  log : List Event

namespace Local

variable (c : Local) (t : Id)

def list : Option Id := c.lists.list ()
def time : Nat := c.lists.time t
def active : Bool := c.lists.active () t

def boot : Local := ⟨⟨fun _ => ⟨none, none, 0, false⟩, fun _ => none⟩, [], .out, []⟩

def set_timer (tsc : Nat) : Local := { c with armed := tsc :: c.armed }

def sync : Local :=
  match c.list with
  | none => c
  | some h => c.set_timer (c.time h)

def enqueue (fuel time : Nat) : Option Local :=
  let m := c.lists.set t fun x => { x with time := time }
  (m.seek time fuel none (m.list ())).map fun p =>
    let c := { c with lists := m.place () t p, log := .entered t time :: c.log }
    if p = none then c.set_timer time else c

/-- `Timeout::dequeue`.  The last branch of it, for the first timeout, ends like
`sync`. -/
def dequeue : Local :=
  let d := { c with lists := c.lists.dequeue () t }
  if c.active t ∧ c.lists.prev t = none then d.sync else d

/-- `dequeue` called by the owner or by a trigger. -/
def takeOut : Local :=
  let event := if c.active t then [Event.left t] else []
  { c.dequeue t with log := event ++ c.log }

/-- The condition of the loop of `Timeout::check`, `now` being what `Lapic::time`
returns, and what follows from it up to the trigger or the end. -/
def turn (prev_list : Option Id) (now : Nat) : Local :=
  match c.list with
  | none => { c with phase := .out }
  | some t =>
    if c.time t ≤ now then
      { c.dequeue t with phase := .trigger prev_list, log := .triggered t (c.time t) :: c.log }
    else
      let c := if c.list = prev_list then c.set_timer (c.time t) else c
      { c with phase := .out }

def ret : Local :=
  match c.phase with
  | .trigger prev_list => { c with phase := .turn prev_list }
  | _ => c

inductive Op where
  | enqueue (t : Id) (time : Nat)
  | dequeue (t : Id)
  | sync
  | check
  | turn (now : Nat)
  | ret
  deriving DecidableEq, Repr

def act (fuel : Nat) : Op → Local → Option Local
  | .enqueue t time, c => c.enqueue t fuel time
  | .dequeue t, c => some (c.takeOut t)
  | .sync, c => some c.sync
  | .check, c => some { c with phase := .turn c.list }
  | .turn now, c =>
    match c.phase with
    | .turn prev_list => some (c.turn prev_list now)
    | _ => some c
  | .ret, c => some c.ret

/-- Only inactive timeouts are enqueued, and the loop goes its way: a trigger is
there to run once it is called, and `check` is not called from one. -/
def Legal : Op → Prop
  | .enqueue t _ => c.phase.inTurn = false ∧ c.active t = false
  | .dequeue _ => c.phase.inTurn = false
  | .sync | .check => c.phase = .out
  | .turn _ => c.phase.inTurn = true
  | .ret => c.phase.inTrigger = true

instance (op : Op) : Decidable (Legal c op) := by
  unfold Legal
  cases op <;> infer_instance

def after (fuel : Nat) : List Op → Local → Option Local
  | [], c => some c
  | op :: run, c => (act fuel op c).bind (after fuel run)

def LegalRun (fuel : Nat) : List Op → Local → Prop
  | [], _ => True
  | op :: run, c =>
    Legal c op ∧
      match act fuel op c with
      | none => True
      | some c => LegalRun fuel run c

instance legalRunDecidable (fuel : Nat) : ∀ run c, Decidable (LegalRun fuel run c)
  | [], _ => isTrue trivial
  | op :: run, c =>
    match h : act fuel op c with
    | none => decidable_of_iff (Legal c op) (by simp [LegalRun, h])
    | some c' =>
      have := legalRunDecidable fuel run c'
      decidable_of_iff (Legal c op ∧ LegalRun fuel run c') (by simp [LegalRun, h])

/-- What the list stands for, with the timeouts `l` in it. -/
structure InOrder (l : List Id) : Prop where
  list : c.list = l.head?
  linked : Linked c.lists.next c.lists.prev none l
  nodup : l.Nodup
  sorted : l.Pairwise fun s t => c.time s ≤ c.time t
  active : ∀ t, c.active t = true ↔ t ∈ l
  idle : ∀ t, c.active t = false → c.lists.prev t = none ∧ c.lists.next t = none

end Local

section Log

variable {log : List Event} {t u : Id} {s s' : Nat}

/-- A timeout that is due at `s` and is in the list: whatever was due later and
has been triggered, was so before `t` came. -/
def Since (log : List Event) (t : Id) (s : Nat) : Prop :=
  ∀ late early u s', log = late ++ .triggered u s' :: early → s < s' → .entered t s ∈ late

/-- Timeouts are triggered in the order of time, but for those that come late. -/
def Ordered (log : List Event) : Prop :=
  ∀ late early t s, log = late ++ .triggered t s :: early → Since early t s

def entered (log : List Event) (t : Id) : Nat :=
  log.countP fun
    | .entered u _ => u == t
    | _ => false

def left (log : List Event) (t : Id) : Nat := log.count (.left t)

def triggered (log : List Event) (t : Id) : Nat :=
  log.countP fun
    | .triggered u _ => u == t
    | _ => false

theorem Since.nil : Since [] t s := by
  intro late early u s' h
  simp at h

theorem Since.entered : Since (.entered t s :: log) t s := by
  intro late early u s' h _
  cases late with
  | nil => simp at h
  | cons e late =>
    obtain ⟨rfl, -⟩ := List.cons.inj h
    exact List.mem_cons_self

theorem Since.cons {e : Event} (h : Since log t s) (he : ∀ u s', e = .triggered u s' → s' ≤ s) :
    Since (e :: log) t s := by
  intro late early u s' hl hs
  cases late with
  | nil =>
    obtain ⟨rfl, -⟩ := List.cons.inj hl
    exact absurd (he u s' rfl) (Nat.not_le_of_lt hs)
  | cons e' late =>
    obtain ⟨-, htail⟩ := List.cons.inj hl
    exact List.mem_cons_of_mem _ (h late early u s' htail hs)

theorem Ordered.nil : Ordered [] := by
  intro late early t s h
  simp at h

theorem Ordered.cons {e : Event} (h : Ordered log) (he : ∀ t s, e = .triggered t s → Since log t s) :
    Ordered (e :: log) := by
  intro late early t s hl
  cases late with
  | nil =>
    obtain ⟨rfl, rfl⟩ := List.cons.inj hl
    exact he t s rfl
  | cons e' late =>
    obtain ⟨-, htail⟩ := List.cons.inj hl
    exact h late early t s htail

end Log

namespace Local

variable {c c' : Local} {t : Id} {P : Plan Unit}

/-- The timer is left alone as long as the list has the same head, and is set to
the time of the head otherwise. -/
def Rearmed (c c' : Local) : Prop :=
  c'.armed = c.armed ∧ (c'.list = c.list ∨ c'.list = none) ∨
    ∃ h, c'.list = some h ∧ c'.armed = c'.time h :: c.armed

theorem Rearmed.refl : Rearmed c c := .inl ⟨rfl, .inl rfl⟩

/-- The step of one operation, as the log has it. -/
def Answers (c c' : Local) : Op → Prop
  | .enqueue t time => c'.active t = true ∧ c'.time t = time ∧ c'.log = .entered t time :: c.log
  | .dequeue t => c'.active t = false ∧ c'.log = (if c.active t then [.left t] else []) ++ c.log
  | .turn now =>
    c'.phase = .out ∧ c'.log = c.log ∧ (∀ u, c'.active u = true → now < c'.time u) ∨
      c'.phase.inTrigger = true ∧
        ∃ t, c.active t = true ∧ c'.active t = false ∧ c'.log = .triggered t (c.time t) :: c.log ∧
          c.time t ≤ now ∧ ∀ u, c.active u = true → c.time t ≤ c.time u
  | .sync | .check | .ret => c'.log = c.log

/-- The invariant.  The last part counts what has become of the timeouts. -/
structure Kept (c : Local) (P : Plan Unit) : Prop where
  lists : Lists c.lists P
  alive : ∀ t, P.gone t = false
  armed : ∀ h, c.list = some h → c.armed.head? = some (c.time h)
  ordered : Ordered c.log
  since : ∀ t ∈ P.due (), Since c.log t (c.time t)
  tally : ∀ t, entered c.log t = left c.log t + triggered c.log t + (P.due ()).count t

theorem boot_kept : Kept boot { Plan.boot with gone := fun _ => false } where
  lists :=
    { lists_boot with
      owned := by simp [Plan.boot]
      idle := by simp [boot, Machine.prev, Machine.next]
      time := rfl
      gone := rfl }
  alive _ := rfl
  armed h hh := by simp [boot, list] at hh
  ordered := Ordered.nil
  since t ht := by simp [Plan.boot] at ht
  tally t := by simp [boot, entered, left, triggered, Plan.boot]

namespace Kept

theorem active_iff (h : Kept c P) : c.active t = true ↔ t ∈ P.due () := by
  have hone := h.lists.active_iff (k := ()) (t := t) fun d hd => absurd rfl hd
  exact hone.trans ⟨fun ⟨_, ht⟩ => ht, fun ht => ⟨(), ht⟩⟩

theorem inOrder (h : Kept c P) : c.InOrder (P.due ()) where
  list := h.lists.head ()
  linked := h.lists.linked ()
  nodup := h.lists.nodup ()
  sorted := by simpa [Local.time, h.lists.time] using h.lists.sorted ()
  active t := h.active_iff
  idle t ht := by
    have hout : t ∉ P.due () := by rw [← h.active_iff, ht]; simp
    exact h.lists.idle t fun _ => hout

theorem armed_of_rearmed (h : Kept c P) (hr : Rearmed c c')
    (ht : ∀ x ∈ P.due (), c'.list = some x → c'.time x = c.time x) :
    ∀ x, c'.list = some x → c'.armed.head? = some (c'.time x) := by
  intro x hx
  rcases hr with ⟨ha, hsame | hnone⟩ | ⟨y, hy, ha⟩
  · have hcx : c.list = some x := hsame.symm.trans hx
    have hmem : x ∈ P.due () := List.mem_of_mem_head? ((h.lists.head ()).symm.trans hcx)
    rw [ha, ht x hmem hx]
    exact h.armed x hcx
  · simp [hnone] at hx
  · obtain rfl : y = x := by simpa [hx] using hy.symm
    simp [ha]

end Kept

section Sync

@[simp] theorem lists_sync : c.sync.lists = c.lists := by
  unfold sync
  split <;> rfl

@[simp] theorem log_sync : c.sync.log = c.log := by
  unfold sync
  split <;> rfl

@[simp] theorem phase_sync : c.sync.phase = c.phase := by
  unfold sync
  split <;> rfl

theorem sync_rearmed (c : Local) : Rearmed c c.sync := by
  unfold sync
  cases hl : c.list with
  | none => exact .refl
  | some h => exact .inr ⟨h, hl, rfl⟩

end Sync

section Dequeue

@[simp] theorem lists_dequeue : (c.dequeue t).lists = c.lists.dequeue () t := by
  unfold dequeue
  dsimp only
  split
  · exact lists_sync
  · rfl

@[simp] theorem log_dequeue : (c.dequeue t).log = c.log := by
  unfold dequeue
  dsimp only
  split
  · exact log_sync
  · rfl

@[simp] theorem phase_dequeue : (c.dequeue t).phase = c.phase := by
  unfold dequeue
  dsimp only
  split
  · exact phase_sync
  · rfl

theorem time_dequeue : (c.dequeue t).time = c.time := by
  funext u
  simp only [time, lists_dequeue, dequeue_time]

theorem Kept.dequeue_rearmed (h : Kept c P) : Rearmed c (c.dequeue t) := by
  unfold Local.dequeue
  generalize hd : ({ c with lists := c.lists.dequeue () t } : Local) = d
  have harmed : d.armed = c.armed := by rw [← hd]
  have hlists : d.list = (c.lists.dequeue () t).list () := by rw [← hd]; rfl
  dsimp only
  split
  · cases hl : d.list with
    | none =>
      refine .inl ⟨?_, .inr ?_⟩
      · simp [sync, hl, harmed]
      · simpa [list] using hl
    | some x =>
      refine .inr ⟨x, by simpa [list] using hl, ?_⟩
      simp [sync, hl, set_timer, harmed, time]
  · rename_i hfirst
    refine .inl ⟨harmed, .inl ?_⟩
    by_cases ha : c.active t
    · rw [hlists, dequeue_list ha, if_neg fun hp => hfirst ⟨ha, hp⟩]
      rfl
    · rw [Bool.not_eq_true] at ha
      have hi := h.inOrder.idle t ha
      rw [hlists, dequeue_idle ha hi.1 hi.2]
      rfl

theorem Kept.dequeue {e : Event} {f : Phase} (h : Kept c P) (ht : t ∈ P.due ())
    (he : e = .left t ∨ e = .triggered t (c.time t) ∧ ∀ x ∈ P.due (), c.time t ≤ c.time x) :
    Kept { c.dequeue t with phase := f, log := e :: c.log } (P.dequeue t) where
  lists := by
    have hl := h.lists.dequeue (k := ()) (t := t) fun d hd => absurd rfl hd
    rwa [← lists_dequeue] at hl
  alive := h.alive
  armed := h.armed_of_rearmed h.dequeue_rearmed fun x _ _ => congrFun time_dequeue x
  ordered := by
    refine h.ordered.cons fun u s hu => ?_
    rcases he with rfl | ⟨rfl, -⟩
    · exact Event.noConfusion hu
    · obtain ⟨rfl, rfl⟩ := Event.triggered.inj hu
      exact h.since t ht
  since x hx := by
    have hx' : x ∈ P.due () := List.mem_of_mem_erase hx
    have htime : (c.dequeue t).time x = c.time x := congrFun time_dequeue x
    change Since (e :: c.log) x ((c.dequeue t).time x)
    rw [htime]
    refine (h.since x hx').cons fun u s hu => ?_
    rcases he with rfl | ⟨rfl, hfirst⟩
    · exact Event.noConfusion hu
    · obtain ⟨-, rfl⟩ := Event.triggered.inj hu
      exact hfirst x hx'
  tally x := by
    have hx := h.tally x
    have hone : (P.due ()).count t = 1 := List.count_eq_one_of_mem (h.lists.nodup ()) ht
    have herase : ((P.dequeue t).due ()).count x = (P.due ()).count x - if t == x then 1 else 0 :=
      List.count_erase
    by_cases hxt : t = x
    · subst hxt
      rcases he with rfl | ⟨rfl, -⟩ <;>
        simp [entered, left, triggered, hone] at hx herase ⊢ <;> omega
    · rcases he with rfl | ⟨rfl, -⟩ <;>
        simp [entered, left, triggered, hxt, herase] at hx ⊢ <;> omega

theorem Kept.takeOut (h : Kept c P) : Kept (c.takeOut t) (P.dequeue t) := by
  unfold Local.takeOut
  by_cases ht : t ∈ P.due ()
  · have ha : c.active t = true := h.active_iff.mpr ht
    have hk := h.dequeue (f := c.phase) ht (.inl rfl)
    simpa [ha] using hk
  · have ha : c.active t = false := by
      rw [← h.active_iff] at ht
      simpa using ht
    have hi := h.inOrder.idle t ha
    have hsame : c.dequeue t = c := by
      simp [Local.dequeue, ha, dequeue_idle ha hi.1 hi.2]
    have hplan : P.dequeue t = P := by
      simp only [Plan.dequeue, List.erase_of_not_mem fun hm => ht hm]
    simpa [ha, hsame, hplan] using h

end Dequeue

section Enqueue

theorem due_enqueue_perm (P : Plan Unit) (t : Id) (time : Nat) :
    List.Perm ((P.enqueue () t time).due ()) (t :: P.due ()) := by
  simp only [Plan.enqueue, Function.update_self]
  refine List.perm_middle.trans ?_
  rw [List.takeWhile_append_dropWhile]

theorem Kept.entered {time : Nat} (h : Kept c P) (ht : t ∉ P.due ())
    (hl : Lists c'.lists (P.enqueue () t time)) (hr : Rearmed c c')
    (hlog : c'.log = .entered t time :: c.log) : Kept c' (P.enqueue () t time) := by
  have htime : ∀ u, c'.time u = if u = t then time else c.time u := by
    intro u
    simp only [Local.time, hl.time, h.lists.time, Plan.enqueue, Function.update_apply]
  have hold : ∀ x ∈ P.due (), c'.time x = c.time x := by
    intro x hx
    rw [htime, if_neg]
    rintro rfl
    exact ht hx
  constructor
  case lists => exact hl
  case alive => exact h.alive
  case armed => exact h.armed_of_rearmed hr fun x hx _ => hold x hx
  case ordered =>
    rw [hlog]
    exact h.ordered.cons fun u s hu => Event.noConfusion hu
  case since =>
    intro x hx
    rw [hlog]
    rcases List.mem_cons.mp ((due_enqueue_perm P t time).mem_iff.mp hx) with rfl | hx
    · rw [htime, if_pos rfl]
      exact Since.entered
    · rw [hold x hx]
      exact (h.since x hx).cons fun u s hu => Event.noConfusion hu
  case tally =>
    intro x
    have hx := h.tally x
    rw [hlog, (due_enqueue_perm P t time).count_eq, List.count_cons]
    by_cases hxt : t = x
    · simp [Timeouts.entered, left, triggered, hxt] at hx ⊢
      omega
    · simp [Timeouts.entered, left, triggered, hxt] at hx ⊢
      omega

theorem Kept.enqueue {fuel time : Nat} (h : Kept c P) (ha : c.active t = false)
    (hf : (P.due ()).length < fuel) :
    ∃ c', c.enqueue t fuel time = some c' ∧ Kept c' (P.enqueue () t time) ∧ Rearmed c c' ∧
      c'.phase = c.phase ∧ Answers c c' (.enqueue t time) := by
  have hout : t ∉ P.due () := by
    rw [← h.active_iff, ha]
    simp
  have hi := h.inOrder.idle t ha
  have hfirst : ∀ k, c.lists.list k ≠ some t := by
    intro k hk
    rw [h.lists.head] at hk
    exact hout (List.mem_of_mem_head? hk)
  have hg : c.lists.gone t = false := (congrFun h.lists.gone t).trans (h.alive t)
  obtain ⟨m, hm, hl⟩ : ∃ m, c.lists.enqueue () t fuel time = some m ∧ Lists m (P.enqueue () t time) :=
    h.lists.enqueue hi.1 hi.2 hfirst hg hf
  obtain ⟨p, hp, hplace⟩ := Option.map_eq_some_iff.mp hm
  obtain ⟨c', hc'⟩ : ∃ c', c.enqueue t fuel time = some c' := by
    simp only [Local.enqueue, hp, Option.map_some]
    exact ⟨_, rfl⟩
  have hlists : c'.lists = m := by
    simp only [Local.enqueue, hp, Option.map_some, Option.some.injEq] at hc'
    rw [← hc', ← hplace]
    split <;> rfl
  have hlog : c'.log = .entered t time :: c.log := by
    simp only [Local.enqueue, hp, Option.map_some, Option.some.injEq] at hc'
    rw [← hc']
    split <;> rfl
  have hphase : c'.phase = c.phase := by
    simp only [Local.enqueue, hp, Option.map_some, Option.some.injEq] at hc'
    rw [← hc']
    split <;> rfl
  have htime : c'.time t = time := by
    simp [Local.time, hlists, hl.time, Plan.enqueue]
  have hr : Rearmed c c' := by
    have hlist : c'.list = if p = none then some t else c.list := by
      rw [Local.list, hlists, ← hplace, place_list]
      split <;> simp [Local.list]
    simp only [Local.enqueue, hp, Option.map_some, Option.some.injEq] at hc'
    by_cases hn : p = none
    · refine .inr ⟨t, by rw [hlist, if_pos hn], ?_⟩
      rw [htime, ← hc', if_pos hn]
      rfl
    · refine .inl ⟨?_, .inl (by rw [hlist, if_neg hn])⟩
      rw [← hc', if_neg hn]
  have hk := h.entered hout (hlists ▸ hl) hr hlog
  refine ⟨c', hc', hk, hr, hphase, ?_, htime, hlog⟩
  rw [hk.active_iff, (due_enqueue_perm P t time).mem_iff]
  exact List.mem_cons_self

end Enqueue

section Turn

theorem Kept.over (h : Kept c P) (hr : c'.lists = c.lists) (hlog : c'.log = c.log) (ha : Rearmed c c') :
    Kept c' P where
  lists := hr ▸ h.lists
  alive := h.alive
  armed := h.armed_of_rearmed ha fun x _ _ => by simp [Local.time, hr]
  ordered := hlog ▸ h.ordered
  since x hx := by
    rw [hlog, Local.time, hr]
    exact h.since x hx
  tally := hlog ▸ h.tally

theorem InOrder.head_le {l : List Id} {u : Id} (h : InOrder c l) (hl : c.list = some t)
    (hu : u ∈ l) : c.time t ≤ c.time u := by
  have hsorted := h.sorted
  obtain ⟨l', rfl⟩ := List.head?_eq_some_iff.mp (h.list.symm.trans hl)
  rcases List.mem_cons.mp hu with rfl | hu
  · exact le_rfl
  · exact (List.pairwise_cons.mp hsorted).1 u hu

/-- One turn of the loop: the first timeout is triggered, or the check is over
with nothing left that is due. -/
theorem Kept.turn (h : Kept c P) (prev_list : Option Id) (now : Nat) :
    ∃ P', Kept (c.turn prev_list now) P' ∧ (P'.due ()).length ≤ (P.due ()).length ∧
      Rearmed c (c.turn prev_list now) ∧ Answers c (c.turn prev_list now) (.turn now) := by
  unfold Local.turn
  cases hl : c.list with
  | none =>
    have hnone : ∀ u, c.active u = false := by
      intro u
      have hnil : P.due () = [] := List.head?_eq_none_iff.mp (h.inOrder.list.symm.trans hl)
      simpa [hnil] using h.active_iff (t := u)
    refine ⟨P, h.over rfl rfl .refl, le_rfl, .refl, .inl ⟨rfl, rfl, fun u hu => ?_⟩⟩
    exact absurd ((hnone u).symm.trans hu) (by simp)
  | some t =>
    have ht : t ∈ P.due () := List.mem_of_mem_head? (h.inOrder.list.symm.trans hl)
    dsimp only
    split
    · rename_i hdue
      have hk := h.dequeue (f := .trigger prev_list) ht (.inr ⟨rfl, fun x hx => h.inOrder.head_le hl hx⟩)
      refine ⟨_, hk, List.length_erase_le, h.dequeue_rearmed, .inr ⟨rfl, t, ?_, ?_, rfl, hdue, ?_⟩⟩
      · exact h.active_iff.mpr ht
      · have hout : t ∉ (P.dequeue t).due () := (h.lists.nodup ()).not_mem_erase
        rw [← hk.active_iff] at hout
        exact Bool.eq_false_of_not_eq_true hout
      · exact fun u hu => h.inOrder.head_le hl (h.active_iff.mp hu)
    · rename_i hlate
      have hrest : ∀ u, c.active u = true → now < c.time u := fun u hu =>
        (Nat.lt_of_not_le hlate).trans_le (h.inOrder.head_le hl (h.active_iff.mp hu))
      split
      · have hr : Rearmed c { c.set_timer (c.time t) with phase := .out } := .inr ⟨t, hl, rfl⟩
        exact ⟨P, h.over rfl rfl hr, le_rfl, hr, .inl ⟨rfl, rfl, hrest⟩⟩
      · have hr : Rearmed c { c with phase := .out } := .refl
        exact ⟨P, h.over rfl rfl hr, le_rfl, hr, .inl ⟨rfl, rfl, hrest⟩⟩

end Turn

section Runs

variable {fuel : Nat} {op : Op} {run : List Op}

theorem Kept.act (h : Kept c P) (hl : Legal c op) (hf : (P.due ()).length < fuel) :
    ∃ c' P', act fuel op c = some c' ∧ Kept c' P' ∧ (P'.due ()).length ≤ (P.due ()).length + 1 ∧
      Rearmed c c' ∧ Answers c c' op := by
  cases op with
  | enqueue t time =>
    obtain ⟨c', hc, hk, hr, -, ha⟩ := h.enqueue hl.2 hf
    exact ⟨c', _, hc, hk, (due_enqueue_perm P t time).length_eq.le, hr, ha⟩
  | dequeue t =>
    have hk := h.takeOut (t := t)
    have hout : t ∉ (P.dequeue t).due () := (h.lists.nodup ()).not_mem_erase
    have hr : Rearmed c (c.takeOut t) := h.dequeue_rearmed (t := t)
    rw [← hk.active_iff, Bool.not_eq_true] at hout
    exact ⟨_, _, rfl, hk, List.length_erase_le.trans (Nat.le_succ _), hr, hout, rfl⟩
  | sync =>
    have hr := sync_rearmed c
    exact ⟨_, P, rfl, h.over lists_sync log_sync hr, Nat.le_succ _, hr, log_sync⟩
  | check => exact ⟨_, P, rfl, h.over rfl rfl .refl, Nat.le_succ _, .refl, rfl⟩
  | turn now =>
    obtain ⟨prev_list, hp⟩ : ∃ prev_list, c.phase = .turn prev_list := by
      cases hp : c.phase with
      | turn prev_list => exact ⟨prev_list, rfl⟩
      | _ => simp [Legal, hp, Phase.inTurn] at hl
    obtain ⟨P', hk, hlen, hr, ha⟩ := h.turn prev_list now
    exact ⟨_, P', by simp [Local.act, hp], hk, hlen.trans (Nat.le_succ _), hr, ha⟩
  | ret =>
    obtain ⟨prev_list, hp⟩ : ∃ prev_list, c.phase = .trigger prev_list := by
      cases hp : c.phase with
      | trigger prev_list => exact ⟨prev_list, rfl⟩
      | _ => simp [Legal, hp, Phase.inTrigger] at hl
    have hret : c.ret = { c with phase := .turn prev_list } := by simp [ret, hp]
    exact ⟨_, P, rfl, hret ▸ h.over rfl rfl .refl, Nat.le_succ _, hret ▸ .refl, hret ▸ rfl⟩

theorem Answers.log_eq (h : Answers c c' op) : ∃ new, c'.log = new ++ c.log := by
  cases op with
  | enqueue t time => exact ⟨[_], h.2.2⟩
  | dequeue t => exact ⟨_, h.2⟩
  | turn now =>
    rcases h with ⟨-, hl, -⟩ | ⟨-, t, -, -, hl, -⟩
    · exact ⟨[], hl⟩
    · exact ⟨[_], hl⟩
  | sync | check | ret => exact ⟨[], h⟩

theorem Kept.after (h : Kept c P) (hf : (P.due ()).length + run.length ≤ fuel)
    (hr : LegalRun fuel run c) :
    ∃ c' P' new, after fuel run c = some c' ∧ Kept c' P' ∧
      (P'.due ()).length ≤ (P.due ()).length + run.length ∧ c'.log = new ++ c.log := by
  induction run generalizing c P with
  | nil => exact ⟨c, P, [], rfl, h, le_rfl, rfl⟩
  | cons op run ih =>
    rw [List.length_cons] at hf ⊢
    have hroom : (P.due ()).length < fuel := by omega
    obtain ⟨c₁, P₁, hc, hk, hlen, -, ha⟩ := h.act hr.1 hroom
    have hrest := hr.2
    rw [hc] at hrest
    obtain ⟨c₂, P₂, new, hc₂, hk₂, hlen₂, hlog₂⟩ := ih hk (by omega) hrest
    obtain ⟨one, hone⟩ := ha.log_eq
    refine ⟨c₂, P₂, new ++ one, ?_, hk₂, by omega, ?_⟩
    · simp [Local.after, hc, hc₂]
    · rw [hlog₂, hone, List.append_assoc]

theorem after_append (fuel : Nat) (run rest : List Op) (c : Local) :
    after fuel (run ++ rest) c = (after fuel run c).bind (after fuel rest) := by
  induction run generalizing c with
  | nil => rfl
  | cons op run ih =>
    simp only [List.cons_append, after]
    cases act fuel op c with
    | none => rfl
    | some c => exact ih c

theorem legalRun_append {rest : List Op} (h : LegalRun fuel (run ++ rest) c) :
    LegalRun fuel run c ∧ ∀ c', after fuel run c = some c' → LegalRun fuel rest c' := by
  induction run generalizing c with
  | nil => exact ⟨trivial, fun c' hc => Option.some.inj hc ▸ h⟩
  | cons op run ih =>
    obtain ⟨hl, hrest⟩ := h
    simp only [LegalRun, after]
    cases hc : act fuel op c with
    | none => exact ⟨⟨hl, trivial⟩, by simp⟩
    | some c₁ =>
      rw [hc] at hrest
      exact ⟨⟨hl, (ih hrest).1⟩, (ih hrest).2⟩

theorem Kept.tally_between {P' : Plan Unit} {new : List Event} (h : Kept c P) (h' : Kept c' P')
    (hnew : c'.log = new ++ c.log) (t : Id) :
    (if c.active t then 1 else 0) + Timeouts.entered new t =
      left new t + triggered new t + if c'.active t then 1 else 0 := by
  have hcount : ∀ {c P}, Kept c P → (P.due ()).count t = if c.active t then 1 else 0 := by
    intro c P h
    by_cases ht : t ∈ P.due ()
    · rw [List.count_eq_one_of_mem (h.lists.nodup ()) ht, if_pos (h.active_iff.mpr ht)]
    · rw [List.count_eq_zero.mpr ht, if_neg (h.active_iff.not.mpr ht)]
  have hbefore := h.tally t
  have hafter := h'.tally t
  rw [hcount h] at hbefore
  rw [hcount h', hnew] at hafter
  simp only [Timeouts.entered, left, triggered, List.countP_append, List.count_append] at hbefore hafter ⊢
  omega

/-- Whatever is enqueued and dequeued, in a trigger and out of it: the list is in
the order of time with the timer set for its head; and when a check is over, each
timeout has been triggered once for each time that it was in the list and was due
at the last look at the clock, the earliest one first each time. -/
theorem after_checks (hf : run.length < fuel) (h : LegalRun fuel run boot) :
    ∃ c l, after fuel run boot = some c ∧ c.InOrder l ∧ Ordered c.log ∧
      (∀ x, c.list = some x → c.armed.head? = some (c.time x)) ∧
      (∀ op, Legal c op → ∃ c', act fuel op c = some c' ∧ Rearmed c c' ∧ Answers c c' op) ∧
      ∀ before during now, run = before ++ .check :: (during ++ [.turn now]) → c.phase = .out →
        ∃ c₀ new, after fuel before boot = some c₀ ∧ c.log = new ++ c₀.log ∧
          ∀ t, (c.active t = true → now < c.time t) ∧
            (if c₀.active t then 1 else 0) + entered new t =
              left new t + triggered new t + if c.active t then 1 else 0 := by
  have hstart : ∀ {run}, run.length < fuel → LegalRun fuel run boot → _ := fun hf hr =>
    boot_kept.after (by simpa [Plan.boot] using Nat.le_of_lt hf) hr
  obtain ⟨c, P, -, hc, hk, hlen, -⟩ := hstart hf h
  have hroom : (P.due ()).length < fuel := by
    simp only [Plan.boot, List.length_nil, Nat.zero_add] at hlen
    exact lt_of_le_of_lt hlen hf
  refine ⟨c, _, hc, hk.inOrder, hk.ordered, hk.armed, fun op hl => ?_, ?_⟩
  · obtain ⟨c', -, hc', -, -, hr, ha⟩ := hk.act hl hroom
    exact ⟨c', hc', hr, ha⟩
  · rintro before during now rfl hout
    obtain ⟨hbefore, hrest⟩ := legalRun_append h
    have hlast : before ++ .check :: (during ++ [.turn now]) = (before ++ .check :: during) ++ [.turn now] := by
      simp
    rw [List.length_append] at hf
    -- the state in which the check begins
    obtain ⟨c₀, P₀, -, hc₀, hk₀, hlen₀, -⟩ := hstart (by omega) hbefore
    have hroom₀ : (P₀.due ()).length + (Op.check :: (during ++ [.turn now])).length ≤ fuel := by
      simp only [Plan.boot, List.length_nil, Nat.zero_add] at hlen₀
      omega
    obtain ⟨c₁, P₁, new, hc₁, hk₁, -, hlog⟩ := hk₀.after hroom₀ (hrest c₀ hc₀)
    rw [after_append, hc₀, Option.bind_some, hc₁] at hc
    obtain rfl := Option.some.inj hc
    refine ⟨c₀, new, hc₀, hlog, fun t => ⟨fun ht => ?_, hk₀.tally_between hk₁ hlog t⟩⟩
    -- the last look at the clock
    rw [hlast] at h
    obtain ⟨hduring, hturn⟩ := legalRun_append h
    obtain ⟨c₂, P₂, -, hc₂, hk₂, hlen₂, -⟩ := hstart (by simp at hf ⊢; omega) hduring
    have hroom₂ : (P₂.due ()).length < fuel := by
      simp only [Plan.boot, List.length_nil, Nat.zero_add] at hlen₂
      simp at hlen₂ hf
      omega
    obtain ⟨c₃, -, hc₃, -, -, -, ha⟩ := hk₂.act (hturn c₂ hc₂).1 hroom₂
    have hend := after_append fuel (before ++ .check :: during) [.turn now] boot
    rw [← hlast, after_append, hc₀, Option.bind_some, hc₁, hc₂, Option.bind_some] at hend
    simp only [after, hc₃, Option.bind_some, Option.some.injEq] at hend
    subst hend
    rcases ha with ⟨-, -, hlate⟩ | ⟨hin, -⟩
    · exact hlate t ht
    · simp [hout, Phase.inTrigger] at hin

/-- The trigger of the first timeout enqueues one for an earlier time. -/
def comesLate : List Op :=
  [.enqueue 0 10, .enqueue 1 200, .check, .turn 100, .enqueue 2 5, .ret, .turn 100, .dequeue 0, .ret, .turn 101]

theorem after_checks_comesLate :
    ∃ c l, after 11 comesLate boot = some c ∧ c.InOrder l ∧ Ordered c.log ∧
      (∀ x, c.list = some x → c.armed.head? = some (c.time x)) ∧
      (∀ op, Legal c op → ∃ c', act 11 op c = some c' ∧ Rearmed c c' ∧ Answers c c' op) ∧
      ∀ before during now, comesLate = before ++ .check :: (during ++ [.turn now]) → c.phase = .out →
        ∃ c₀ new, after 11 before boot = some c₀ ∧ c.log = new ++ c₀.log ∧
          ∀ t, (c.active t = true → now < c.time t) ∧
            (if c₀.active t then 1 else 0) + entered new t =
              left new t + triggered new t + if c.active t then 1 else 0 :=
  after_checks (by decide) (by decide)

def times (log : List Event) : List Nat :=
  log.filterMap fun
    | .triggered _ s => some s
    | _ => none

/-- The one that comes late is triggered in the same check, after the other. -/
theorem comesLate_unordered :
    LegalRun 11 comesLate boot ∧
      ∃ c, after 11 comesLate boot = some c ∧ c.phase = .out ∧ times c.log = [5, 10] ∧
        ¬(times c.log).reverse.Pairwise (· ≤ ·) :=
  ⟨by decide, _, rfl, by decide, by decide, by decide⟩

end Runs

end Local

end Tukija.Timeouts
