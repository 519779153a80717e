import Tukija.Gsi.Machine

/-! A driver that waits for its interrupt gets it: while nobody has a count in hand, the pin is unmasked
or the interrupt is on its way.  And it gets no more than it asks for. -/
namespace Tukija.Gsi

open Pin

section
variable {T : Type} [DecidableEq T] {s s' : Pin T} {last : Bool} {a : Act T} {t : T}

theorem submit_nil (h : s.queue = []) :
    s.submit = { s with submits := s.submits - 1, counter := s.counter + 1 } := by
  simp [submit, h]

theorem submit_dead {ts : List T} (h : s.queue = t :: ts) (hd : s.dead t = true) :
    s.submit = { s with queue := ts, doing := Function.update s.doing t .user } := by
  simp [submit, h, hd]

theorem submit_wakes {ts : List T} (h : s.queue = t :: ts) (hd : s.dead t = false) : s.submit =
    { s with
      submits := s.submits - 1, queue := ts, doing := Function.update s.doing t .user
      holds := Function.update s.holds t true, given := s.given + 1 } := by
  simp [submit, h, hd]

theorem down_waits {zero : Bool} (h : s.doing t = .acked zero) (hc : s.counter = 0) :
    s.down t = { s with queue := s.queue ++ [t], doing := Function.update s.doing t .blocked } := by
  simp [down, h, hc]

theorem down_takes {zero : Bool} (h : s.doing t = .acked zero) (hc : s.counter ≠ 0) : s.down t =
    { s with
      counter := if zero then 0 else s.counter - 1, doing := Function.update s.doing t .user
      holds := Function.update s.holds t true, given := s.given + 1 } := by
  simp [down, h, hc]

/-- The queue holds who waits, each once, and nobody when there is a count; who waits or is about to has
none in hand. -/
structure Sound (s : Pin T) : Prop where
  nodup : s.queue.Nodup
  queue : ∀ t, t ∈ s.queue ↔ s.doing t = .blocked
  counter : s.counter ≠ 0 → s.queue = []
  holds : ∀ t, s.doing t ≠ .user → s.holds t = false
  masked : s.masked = true → s.stage ≠ .sent ∧ s.stage ≠ .entered

omit [DecidableEq T] in
theorem Boot.sound (h : Boot s) : Sound s where
  nodup := by simp [h.queue]
  queue := by simp [h.queue, h.user]
  counter := fun _ => h.queue
  holds := fun t _ => h.holds t
  masked := by simp [h.stage]

theorem Sound.submit (h : Sound s) : Sound s.submit := by
  rcases hq : s.queue with _ | ⟨t, ts⟩
  · rw [submit_nil hq]
    exact ⟨h.nodup, h.queue, fun _ => hq, h.holds, h.masked⟩
  have hnodup := h.nodup
  rw [hq, List.nodup_cons] at hnodup
  have hqueue : ∀ u, u ∈ ts ↔ Function.update s.doing t .user u = .blocked := by
    intro u
    have hu := h.queue u
    rw [hq, List.mem_cons] at hu
    by_cases hut : u = t
    · subst hut
      simp [hnodup.1]
    · simpa [hut] using hu
  have hcounter : s.counter = 0 := by
    by_contra hc
    simp [h.counter hc] at hq
  cases hd : s.dead t with
  | true =>
    rw [submit_dead hq hd]
    refine ⟨hnodup.2, hqueue, fun hc => absurd hcounter hc, fun u hu => h.holds u ?_, h.masked⟩
    by_cases hut : u = t
    · subst hut
      simp at hu
    · simpa [hut] using hu
  | false =>
    rw [submit_wakes hq hd]
    refine ⟨hnodup.2, hqueue, fun hc => absurd hcounter hc, fun u hu => ?_, h.masked⟩
    by_cases hut : u = t
    · subst hut
      simp at hu
    · simpa [hut] using h.holds u (by simpa [hut] using hu)

theorem Sound.down (h : Sound s) {zero : Bool} (ht : s.doing t = .acked zero) : Sound (s.down t) := by
  have hout : t ∉ s.queue := by simp [h.queue, ht]
  by_cases hc : s.counter = 0
  · rw [down_waits ht hc]
    refine ⟨?_, fun u => ?_, fun hne => absurd hc hne, fun u hu => ?_, h.masked⟩
    · exact List.nodup_append.mpr ⟨h.nodup, by simp, by grind⟩
    · by_cases hut : u = t
      · simp [hut]
      · simpa [hut] using h.queue u
    · by_cases hut : u = t
      · subst hut
        exact h.holds u (by simp [ht])
      · exact h.holds u (by simpa [hut] using hu)
  · rw [down_takes ht hc]
    have hnil := h.counter hc
    refine ⟨h.nodup, fun u => ?_, fun _ => hnil, fun u hu => ?_, h.masked⟩
    · by_cases hut : u = t
      · simp [hut, hout]
      · simpa [hut] using h.queue u
    · by_cases hut : u = t
      · subst hut
        simp at hu
      · simpa [hut] using h.holds u (by simpa [hut] using hu)

theorem Sound.acked (h : Sound s) (zero : Bool) (ht : s.doing t = .user) :
    Sound (s.step last (.unmask t zero)) := by
  refine ⟨h.nodup, fun u => ?_, h.counter, fun u hu => ?_, fun hm => by simp [Pin.step] at hm⟩
  · by_cases hut : u = t
    · simp [Pin.step, hut, h.queue, ht]
    · simpa [Pin.step, hut] using h.queue u
  · by_cases hut : u = t
    · simp [Pin.step, hut]
    · simpa [Pin.step, hut] using h.holds u (by simpa [Pin.step, hut] using hu)

theorem Sound.timeout (h : Sound s) (ht : s.doing t = .blocked) : Sound (s.step last (.timeout t)) := by
  refine ⟨h.nodup.filter _, fun u => ?_, fun hc => ?_, fun u hu => h.holds u ?_, h.masked⟩
  · by_cases hut : u = t
    · simp [Pin.step, hut]
    · simpa [Pin.step, hut] using h.queue u
  · simp [Pin.step, h.counter hc]
  · by_cases hut : u = t
    · simp [hut, ht]
    · simpa [Pin.step, hut] using hu

theorem Sound.step (h : Sound s) (hr : s.Ready a) : Sound (s.step last a) := by
  cases a with
  | submit => exact h.submit
  | down t =>
    obtain ⟨zero, ht⟩ := hr
    exact h.down ht
  | unmask t zero => exact h.acked zero hr.1
  | timeout t => exact h.timeout hr
  | assign => exact ⟨h.nodup, h.queue, h.counter, h.holds, fun hm => by simp [Pin.step] at hm⟩
  | send =>
    refine ⟨h.nodup, h.queue, h.counter, h.holds, fun hm => ?_⟩
    simp [Pin.step, hr.2.1] at hm
  | enter =>
    refine ⟨h.nodup, h.queue, h.counter, h.holds, fun hm => ?_⟩
    exact absurd hr (h.masked hm).1
  | mask => exact ⟨h.nodup, h.queue, h.counter, h.holds, fun _ => by simp [Pin.step]⟩
  | eoi => exact ⟨h.nodup, h.queue, h.counter, h.holds, fun _ => by simp [Pin.step]⟩
  | sleep => exact ⟨h.nodup, h.queue, h.counter, h.holds, fun _ => by simp [Pin.step]⟩
  | signal on => exact ⟨h.nodup, h.queue, h.counter, h.holds, h.masked⟩
  | up => exact ⟨h.nodup, h.queue, h.counter, h.holds, h.masked⟩
  | die t => exact ⟨h.nodup, h.queue, h.counter, h.holds, h.masked⟩
  | save => exact ⟨h.nodup, h.queue, h.counter, h.holds, h.masked⟩

/-- If the pin is masked, then nobody has asked for the interrupt, or somebody will get it, or has it and
will unmask the pin with the next call. -/
def Kept (s : Pin T) : Prop :=
  s.masked = true → (∀ t, s.doing t = .user) ∨ s.stage = .quiet ∨ 0 < s.submits ∨ 0 < s.counter ∨
    ∃ t, s.holds t = true

omit [DecidableEq T] in
theorem Boot.kept (h : Boot s) : Kept s := fun _ => .inl h.user

theorem Kept.submit (h : Kept s) : Kept s.submit := by
  intro hm
  rcases hq : s.queue with _ | ⟨t, ts⟩
  · rw [submit_nil hq]
    exact .inr (.inr (.inr (.inl (Nat.succ_pos _))))
  cases hd : s.dead t with
  | true =>
    rw [submit_dead hq hd] at hm ⊢
    rcases h hm with hu | hrest
    · refine .inl fun u => ?_
      by_cases hut : u = t
      · simp [hut]
      · simpa [hut] using hu u
    · exact .inr hrest
  | false =>
    rw [submit_wakes hq hd]
    exact .inr (.inr (.inr (.inr ⟨t, by simp⟩)))

theorem Kept.down (h : Kept s) {zero : Bool} (ht : s.doing t = .acked zero) : Kept (s.down t) := by
  intro hm
  by_cases hc : s.counter = 0
  · rw [down_waits ht hc] at hm ⊢
    rcases h hm with hu | hrest
    · simp [hu t] at ht
    · exact .inr hrest
  · rw [down_takes ht hc]
    exact .inr (.inr (.inr (.inr ⟨t, by simp⟩)))

theorem Kept.timeout (h : Kept s) : Kept (s.step last (.timeout t)) := by
  intro hm
  rcases h hm with hu | hrest
  · refine .inl fun u => ?_
    by_cases hut : u = t
    · simp [Pin.step, hut]
    · simpa [Pin.step, hut] using hu u
  · exact .inr hrest

theorem Kept.sleep (h : Kept s) (hr : s.Ready .sleep) (hc : s.Calm last .sleep) : Kept (s.step last .sleep) := by
  obtain ⟨hsaved, hstage, -⟩ := hr
  obtain ⟨rfl, hback⟩ := hc
  intro hm
  obtain ⟨b, hb⟩ := Option.ne_none_iff_exists'.mp hsaved
  have hb' : b = true := by simpa [Pin.step, hb] using hm
  subst hb'
  rcases h (hback hb) with hu | hq | hrest
  · exact .inl hu
  · simp [hq] at hstage
  · exact .inr (.inr hrest)

theorem Kept.step (h : Kept s) (hr : s.Ready a) (hc : s.Calm last a) : Kept (s.step last a) := by
  cases a with
  | submit => exact h.submit
  | down t =>
    obtain ⟨zero, ht⟩ := hr
    exact h.down ht
  | timeout t => exact h.timeout
  | sleep => exact h.sleep hr hc
  | unmask t zero =>
    intro hm
    simp [Pin.step] at hm
  | assign =>
    intro hm
    simp [Pin.step] at hm
  | send =>
    intro hm
    simp [Pin.step, hr.2.1] at hm
  | enter =>
    intro hm
    rcases h hm with hu | hq | hrest
    · exact .inl hu
    · simp [hq, Ready] at hr
    · exact .inr (.inr hrest)
  | mask => exact fun _ => .inr (.inl rfl)
  | eoi => exact fun _ => .inr (.inr (.inl (Nat.succ_pos _)))
  | up => exact fun _ => .inr (.inr (.inl (Nat.succ_pos _)))
  | signal on => exact h
  | die t => exact h
  | save => exact h

theorem CalmRun.kept (h : CalmRun last s s') (hb : Boot s) : Sound s' ∧ Kept s' := by
  induction h with
  | refl => exact ⟨hb.sound, hb.kept⟩
  | step _ hr hc ih => exact ⟨ih.1.step hr, ih.2.step hr hc⟩

/-! ### The driver gets its interrupt -/

/-- How many steps of the hardware and the handler there can be without a thread. -/
def rest (s : Pin T) : Nat :=
  s.queue.length + s.submits + match s.stage, s.masked with
    | .idle, true => 0
    | .idle, false => 5
    | .sent, _ => 4
    | .entered, _ => 3
    | .quiet, true => 2
    | .quiet, false => 7

omit [DecidableEq T] in
theorem rest_le (s : Pin T) : rest s ≤ s.queue.length + s.submits + 7 := by
  unfold rest
  split <;> omega

theorem rest_submit (hr : 0 < s.submits) : rest s.submit < rest s := by
  rcases hq : s.queue with _ | ⟨t, ts⟩
  · rw [submit_nil hq]
    simp only [rest, hq]
    omega
  cases hd : s.dead t with
  | true =>
    rw [submit_dead hq hd]
    simp only [rest, hq, List.length_cons]
    omega
  | false =>
    rw [submit_wakes hq hd]
    simp only [rest, hq, List.length_cons]
    omega

theorem rest_step (ha : a.kernel = true) (hr : s.Ready a) : rest (s.step last a) < rest s := by
  cases a with
  | submit => exact rest_submit hr
  | send => simp [rest, Pin.step, hr.2.1, hr.2.2]
  | enter =>
    have hs : s.stage = .sent := hr
    simp [rest, Pin.step, hs]
  | mask =>
    have hs : s.stage = .entered := hr
    simp [rest, Pin.step, hs]
  | eoi =>
    have hs : s.stage = .quiet := hr
    cases hm : s.masked <;> simp [rest, Pin.step, hs, hm] <;> omega
  | _ => simp [Act.kernel] at ha

theorem Handles.bound {n : Nat} (h : Handles last s n s') : n + rest s' ≤ rest s := by
  induction h with
  | refl => simp
  | @step s' n a _ ha hr ih =>
    have hless : rest (s'.step last a) < rest s' := rest_step ha hr
    omega

/-- `w` is next, and nobody has a count. -/
structure Next (s : Pin T) (w : T) : Prop where
  line : s.line = true
  sound : Sound s
  kept : Kept s
  none : ∀ t, s.holds t = false
  first : s.first = some w

def Woken (s : Pin T) (w : T) : Prop := s.doing w = .user ∧ s.holds w = true

theorem Woken.submit {w : T} (h : Woken s w) : Woken s.submit w := by
  rcases hq : s.queue with _ | ⟨t, ts⟩
  · rw [submit_nil hq]
    exact h
  cases hd : s.dead t with
  | true =>
    rw [submit_dead hq hd]
    by_cases hwt : w = t
    · exact ⟨by simp [hwt], h.2⟩
    · exact ⟨by simpa [hwt] using h.1, h.2⟩
  | false =>
    rw [submit_wakes hq hd]
    by_cases hwt : w = t
    · exact ⟨by simp [hwt], by simp [hwt]⟩
    · exact ⟨by simpa [hwt] using h.1, by simpa [hwt] using h.2⟩

theorem Woken.step {w : T} (h : Woken s w) (ha : a.kernel = true) : Woken (s.step last a) w := by
  cases a with
  | submit => exact h.submit
  | send => exact h
  | enter => exact h
  | mask => exact h
  | eoi => exact h
  | _ => simp [Act.kernel] at ha

omit [DecidableEq T] in
theorem calm_of_kernel (ha : a.kernel = true) : s.Calm last a := by
  cases a with
  | sleep => simp [Act.kernel] at ha
  | _ => trivial

theorem Next.submit {w : T} (h : Next s w) : Next s.submit w ∨ Woken s.submit w := by
  have hsound := h.sound.submit
  have hkept := h.kept.submit
  have hfirst := h.first
  rcases hq : s.queue with _ | ⟨t, ts⟩
  · simp [Pin.first, hq] at hfirst
  cases hd : s.dead t with
  | true =>
    left
    rw [submit_dead hq hd] at hsound hkept ⊢
    refine ⟨h.line, hsound, hkept, h.none, ?_⟩
    simpa [Pin.first, hq, hd] using hfirst
  | false =>
    right
    obtain rfl : t = w := by simpa [Pin.first, hq, hd] using hfirst
    rw [submit_wakes hq hd]
    exact ⟨by simp, by simp⟩

theorem Next.step {w : T} (h : Next s w) (ha : a.kernel = true) (hr : s.Ready a) :
    Next (s.step last a) w ∨ Woken (s.step last a) w := by
  have hsound : Sound (s.step last a) := h.sound.step hr
  have hkept : Kept (s.step last a) := h.kept.step hr (calm_of_kernel ha)
  cases a with
  | submit => exact h.submit
  | send => exact .inl ⟨h.line, hsound, hkept, h.none, h.first⟩
  | enter => exact .inl ⟨h.line, hsound, hkept, h.none, h.first⟩
  | mask => exact .inl ⟨h.line, hsound, hkept, h.none, h.first⟩
  | eoi => exact .inl ⟨h.line, hsound, hkept, h.none, h.first⟩
  | _ => simp [Act.kernel] at ha

theorem Next.handles {w : T} {n : Nat} (h : Next s w) (hh : Handles last s n s') : Next s' w ∨ Woken s' w := by
  induction hh with
  | refl => exact .inl h
  | step _ ha hr ih =>
    rcases ih with hnext | hwoken
    · exact hnext.step ha hr
    · exact .inr (hwoken.step ha)

omit [DecidableEq T] in
theorem still_iff : s.Still ↔ s.stage = .idle ∧ s.submits = 0 ∧ (s.line = true → s.masked = true) := by
  refine ⟨fun h => ?_, ?_⟩
  · have hstage : s.stage = .idle := by
      cases hs : s.stage with
      | idle => rfl
      | sent => exact absurd hs (h .enter rfl)
      | entered => exact absurd hs (h .mask rfl)
      | quiet => exact absurd hs (h .eoi rfl)
    refine ⟨hstage, Nat.eq_zero_of_not_pos (h .submit rfl), fun hl => ?_⟩
    by_contra hm
    exact h .send rfl ⟨hl, by simpa using hm, hstage⟩
  · rintro ⟨hstage, hsubmits, hmasked⟩ a ha hr
    cases a with
    | send => simp [Ready, hmasked hr.1] at hr
    | enter => simp [Ready, hstage] at hr
    | mask => simp [Ready, hstage] at hr
    | eoi => simp [Ready, hstage] at hr
    | submit => simp [Ready, hsubmits] at hr
    | _ => simp [Act.kernel] at ha

omit [DecidableEq T] in
theorem Next.goes {w : T} (h : Next s w) : ¬ s.Still := by
  intro hstill
  obtain ⟨hstage, hsubmits, hmasked⟩ := still_iff.mp hstill
  have hw : w ∈ s.queue := List.mem_of_find?_eq_some h.first
  rcases h.kept (hmasked h.line) with huser | hquiet | hup | hcount | ⟨t, ht⟩
  · simpa [(h.sound.queue w).mp hw] using huser w
  · simp [hstage] at hquiet
  · simp [hsubmits] at hup
  · simp [h.sound.counter (Nat.ne_of_gt hcount)] at hw
  · simp [h.none t] at ht

/-- In every run, when the device signals, threads wait and none has a count in hand, what the hardware
and the handler do comes to an end after a bounded number of steps, and then the thread that has waited
for longest has its interrupt. -/
theorem served {s₀ : Pin T} {w : T} {n : Nat} (hb : Boot s₀) (hrun : CalmRun last s₀ s) (hline : s.line = true)
    (hnone : ∀ t, s.holds t = false) (hw : s.first = some w) (hh : Handles last s n s') :
    n ≤ s.queue.length + s.submits + 7 ∧ (s'.Still → s'.doing w = .user ∧ s'.holds w = true) := by
  obtain ⟨hsound, hkept⟩ := hrun.kept hb
  refine ⟨?_, fun hstill => ?_⟩
  · have hbound := hh.bound
    have hrest := rest_le s
    omega
  · rcases Next.handles ⟨hline, hsound, hkept, hnone, hw⟩ hh with hnext | hwoken
    · exact absurd hstill hnext.goes
    · exact hwoken

/-- Two threads wait, the first one for nothing more, and the device signals. -/
def waiting : Pin Bool :=
  [.unmask true false, .down true, .unmask false false, .down false, .die true, .signal true].foldl
    (fun s a => s.step false a) (reset Bool)

theorem run_waiting : CalmRun false (reset Bool) waiting :=
  (((((CalmRun.refl.step (a := .unmask true false) ⟨rfl, rfl⟩ trivial).step (a := .down true) ⟨false, rfl⟩
    trivial).step (a := .unmask false false) ⟨rfl, rfl⟩ trivial).step (a := .down false) ⟨false, rfl⟩ trivial).step
    (a := .die true) (by rfl) trivial).step (a := .signal true) trivial trivial

def woken : Pin Bool :=
  [.send, .enter, .mask, .eoi, .submit, .submit].foldl (fun s a => s.step false a) waiting

/-- The second one is woken. -/
theorem served_waiting : Handles false waiting 6 woken ∧ woken.Still ∧ 6 ≤ waiting.queue.length + 7 ∧
    woken.doing false = .user ∧ woken.holds false = true := by
  have hrun : Handles false waiting 6 woken :=
    (((((Handles.refl.step (a := .send) rfl ⟨rfl, rfl, rfl⟩).step (a := .enter) rfl (by rfl)).step (a := .mask) rfl
      (by rfl)).step (a := .eoi) rfl (by rfl)).step (a := .submit) rfl
      (by exact Nat.succ_pos 0)).step (a := .submit) rfl (by exact Nat.succ_pos 0)
  have hstill : woken.Still := still_iff.mpr ⟨rfl, rfl, fun _ => rfl⟩
  obtain ⟨hbound, hwoken⟩ := served (boot_reset Bool) run_waiting rfl (by decide) rfl hrun
  exact ⟨hrun, hstill, hbound, hwoken hstill⟩

/-- A thread waits, the device signals, and nothing happens any more. -/
structure Stuck (s : Pin Unit) : Prop where
  line : s.line = true
  waits : s.first = some ()
  none : ∀ t, s.holds t = false
  still : s.Still

/-- The last entry of an I/O APIC is not saved: the thread waits forever after a sleep. -/
theorem sleep_drops : ∃ s, Run true (reset Unit) s ∧ Stuck s := by
  have hrun : Run true (reset Unit) _ :=
    ((((Run.refl.step (a := .unmask () false) ⟨rfl, rfl⟩).step (a := .down ()) ⟨false, rfl⟩).step (a := .save)
      trivial).step (a := .sleep) ⟨by decide, .inl rfl, rfl⟩).step (a := .signal true) trivial
  exact ⟨_, hrun, rfl, rfl, fun _ => rfl, still_iff.mpr ⟨rfl, rfl, fun _ => rfl⟩⟩

/-- The entry has been saved masked, and a thread on another CPU has unmasked the pin before that CPU was
halted. -/
theorem sleep_stale : ∃ s, Run false (reset Unit) s ∧ Stuck s := by
  have hrun : Run false (reset Unit) _ :=
    ((((Run.refl.step (a := .save) trivial).step (a := .unmask () false) ⟨rfl, rfl⟩).step (a := .down ())
      ⟨false, rfl⟩).step (a := .sleep) ⟨by decide, .inl rfl, rfl⟩).step (a := .signal true) trivial
  exact ⟨_, hrun, rfl, rfl, fun _ => rfl, still_iff.mpr ⟨rfl, rfl, fun _ => rfl⟩⟩

/-! ### No more than it asks for -/

def due (s : Pin T) : Nat :=
  match s.stage, s.masked with
  | .sent, _ => 1
  | .entered, _ => 0
  | .idle, true => 0
  | .quiet, true => 0
  | _, false => 1

/-- An interrupt that `Gsi::vector` has not submitted yet. -/
def underway (s : Pin T) : Nat :=
  match s.stage with
  | .entered | .quiet => 1
  | _ => 0

/-- Each interrupt has had its unmasking, and each count its interrupt or its call. -/
def Counted (b : Nat) (s : Pin T) : Prop :=
  s.handled + due s ≤ s.acks + s.wakes + b ∧ s.given + s.counter + s.submits + underway s ≤ s.handled + s.ups

omit [DecidableEq T] in
theorem due_le (s : Pin T) : due s ≤ 1 := by
  unfold due
  split <;> simp

omit [DecidableEq T] in
theorem Boot.counted (h : Boot s) : Counted (!s.masked).toNat s := by
  obtain ⟨hhandled, hgiven, hacks, hups, hwakes⟩ := h.marks
  refine ⟨?_, ?_⟩
  · cases hm : s.masked <;> simp [hhandled, hacks, hwakes, due, h.stage, hm]
  · simp [hgiven, hhandled, hups, underway, h.stage, h.counter, h.submits]

theorem Counted.submit {b : Nat} (h : Counted b s) (hr : 0 < s.submits) : Counted b s.submit := by
  obtain ⟨hdue, hgiven⟩ := h
  rcases hq : s.queue with _ | ⟨t, ts⟩
  · rw [submit_nil hq]
    exact ⟨hdue, by simp only [underway] at hgiven ⊢; omega⟩
  cases hd : s.dead t with
  | true =>
    rw [submit_dead hq hd]
    exact ⟨hdue, hgiven⟩
  | false =>
    rw [submit_wakes hq hd]
    exact ⟨hdue, by simp only [underway] at hgiven ⊢; omega⟩

theorem Counted.down {b : Nat} (h : Counted b s) {zero : Bool} (ht : s.doing t = .acked zero) :
    Counted b (s.down t) := by
  obtain ⟨hdue, hgiven⟩ := h
  by_cases hc : s.counter = 0
  · rw [down_waits ht hc]
    exact ⟨hdue, hgiven⟩
  · rw [down_takes ht hc]
    have hleft : (if zero = true then 0 else s.counter - 1) + 1 ≤ s.counter := by
      split <;> omega
    exact ⟨hdue, by simp only [underway] at hgiven ⊢; omega⟩

omit [DecidableEq T] in
theorem Counted.opens {b : Nat} (h : Counted b s) {m : Pin T} (hm : m.handled = s.handled)
    (hopen : m.acks + m.wakes = s.acks + s.wakes + 1)
    (hrest : m.given + m.counter + m.submits + underway m = s.given + s.counter + s.submits + underway s)
    (hups : m.ups = s.ups) : Counted b m := by
  obtain ⟨hdue, hgiven⟩ := h
  have hle := due_le m
  exact ⟨by omega, by omega⟩

theorem Counted.step {b : Nat} (h : Counted b s) (hr : s.Ready a) : Counted b (s.step last a) := by
  cases a with
  | submit => exact h.submit hr
  | down t =>
    obtain ⟨zero, ht⟩ := hr
    exact h.down ht
  | unmask t zero => exact h.opens rfl (by simp only [Pin.step]; omega) rfl rfl
  | assign => exact h.opens rfl (by simp only [Pin.step]; omega) rfl rfl
  | sleep =>
    refine h.opens rfl (by simp only [Pin.step]; omega) ?_ rfl
    obtain ⟨-, hstage, -⟩ := hr
    rcases hstage with hs | hs <;> simp [Pin.step, underway, hs]
  | send =>
    obtain ⟨hdue, hgiven⟩ := h
    refine ⟨?_, ?_⟩
    · simpa [Pin.step, due, hr.2.1, hr.2.2] using hdue
    · simpa [Pin.step, underway, hr.2.2] using hgiven
  | enter =>
    have hs : s.stage = .sent := hr
    obtain ⟨hdue, hgiven⟩ := h
    simp only [due, underway, hs] at hdue hgiven
    refine ⟨?_, ?_⟩ <;> simp only [Pin.step, due, underway] <;> omega
  | mask =>
    have hs : s.stage = .entered := hr
    obtain ⟨hdue, hgiven⟩ := h
    simp only [due, underway, hs] at hdue hgiven
    exact ⟨hdue, hgiven⟩
  | eoi =>
    have hs : s.stage = .quiet := hr
    obtain ⟨hdue, hgiven⟩ := h
    refine ⟨?_, ?_⟩
    · cases hm : s.masked <;> simpa [Pin.step, due, hs, hm] using hdue
    · simp only [underway, hs] at hgiven
      simp only [Pin.step, underway]
      omega
  | up =>
    obtain ⟨hdue, hgiven⟩ := h
    exact ⟨hdue, by simp only [Pin.step, underway] at hgiven ⊢; omega⟩
  | signal on => exact h
  | timeout t => exact h
  | die t => exact h
  | save => exact h

/-- In every run the handler is called at most once for each time the pin has been unmasked, and threads
get at most one count for each call of the handler and of `sm_ctrl` up. -/
theorem throttled {s₀ : Pin T} (hb : Boot s₀) (h : Run last s₀ s) :
    s.handled ≤ s.acks + s.wakes + (!s₀.masked).toNat ∧ s.given ≤ s.handled + s.ups := by
  have hcounted : Counted (!s₀.masked).toNat s := by
    induction h with
    | refl => exact hb.counted
    | step _ hr ih => exact ih.step hr
  obtain ⟨hdue, hgiven⟩ := hcounted
  exact ⟨by omega, by omega⟩

/-- After a reset a thread asks for the interrupt, and the device signals twice: the handler is called
once. -/
theorem throttled_once : ∃ s : Pin Unit, Run false (reset Unit) s ∧ s.line = true ∧ s.handled = 1 ∧ s.acks = 1 ∧
    s.handled ≤ s.acks + s.wakes + (!(reset Unit).masked).toNat ∧ s.given ≤ s.handled + s.ups := by
  have hrun : Run false (reset Unit) _ :=
    ((((((Run.refl.step (a := .unmask () false) ⟨rfl, rfl⟩).step (a := .signal true) trivial).step (a := .send)
      ⟨rfl, rfl, rfl⟩).step (a := .enter) rfl).step (a := .mask) rfl).step (a := .eoi) rfl).step (a := .signal true)
      trivial
  exact ⟨_, hrun, rfl, rfl, rfl, throttled (boot_reset Unit) hrun⟩

end

end Tukija.Gsi
