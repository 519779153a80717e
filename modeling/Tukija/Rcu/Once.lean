import Tukija.Rcu.Runs

/-! Calls and callbacks, one for one: an element is in a list from the call that
put it there to its callback.  As long as no two CPUs get past the tests of `enqueue`
with one element, only a second call of the last element of the CPU's own list gets
through as well. -/
namespace Tukija.Rcu

variable {ι : Type}

/-- `e` has been called, and its callback has not begun. -/
def owed : List (Event ι) → ElemId → Bool
  | [], _ => false
  | .call x :: log, e => x == e || owed log e
  | .invoke x :: log, e => x != e && owed log e
  | .quiet _ :: log, e => owed log e

/-- The calls and the callbacks of an element take turns. -/
def Alternating : List (Event ι) → Prop
  | [] => True
  | .call e :: log => owed log e = false ∧ Alternating log
  | .invoke e :: log => owed log e = true ∧ Alternating log
  | .quiet _ :: log => Alternating log

/-- `e` is in a list of the CPU. -/
def Elems.Within (M : Elems) (e : ElemId) : Prop := e ∈ M .next ∨ e ∈ M .curr ∨ e ∈ M .done

/-- `e` is in a list. -/
def Listed (L : ι → Elems) (e : ElemId) : Prop := ∃ i, (L i).Within e

namespace Machine

/-- An `enqueue` that goes through is not for the last element of the list. -/
def unrepeated (s : Machine ι) (i : ι) (a : Act) : Bool :=
  match a, (s.cpu i).call with
  | .step, some (.link e _) => (s.cpu i).next.tail != .next e
  | _, _ => true

/-- The step is one of `invoke_batch` on `i`, and of nothing it has called. -/
def turn [DecidableEq ι] (s : Machine ι) (i : ι) (x : ι × Act) : Bool :=
  match x.2, (s.cpu i).call with
  | .step, none => x.1 == i
  | _, _ => false

def visit [DecidableEq ι] (s : Machine ι) (i : ι) (x : ι × Act) : Option ElemId :=
  match s.turn i x, (s.cpu i).pc with
  | true, .invoke (.elem e) => some e
  | _, _ => none

variable [DecidableEq ι] [Fintype ι]

def turns (i : ι) : Machine ι → List (ι × Act) → Nat
  | _, [] => 0
  | s, x :: acts => (s.turn i x).toNat + turns i (s.act x.1 x.2) acts

def visited (i : ι) : Machine ι → List (ι × Act) → List ElemId
  | _, [] => []
  | s, x :: acts => (s.visit i x).toList ++ visited i (s.act x.1 x.2) acts

end Machine

/-- `invoke_batch` has not come to its end. -/
def Pc.invokes : Pc → Bool
  | .dispatch => true
  | .invoke _ => true
  | .callback _ => true
  | _ => false

/-- How many steps it has still to take, with `n` elements left. -/
def Pc.rank (p : Pc) (n : Nat) : Nat :=
  match p with
  | .dispatch => 2 * n + 1
  | .invoke _ => 2 * n
  | .callback _ => 2 * n + 1
  | _ => 0

section Change

variable {i : ι} {log log' : List (Event ι)} {M M' : Elems} {e : ElemId}

theorem Elems.Within.exists (h : M.Within e) : ∃ k, k ≠ .transit ∧ e ∈ M k := by
  rcases h with h | h | h
  · exact ⟨.next, by simp, h⟩
  · exact ⟨.curr, by simp, h⟩
  · exact ⟨.done, by simp, h⟩

theorem Apart.not_within (ha : Apart M) (he : e ∈ M .transit) : ¬M.Within e := by
  intro h
  obtain ⟨k, hk, hek⟩ := h.exists
  exact hk (ha.apart k .transit e hek he)

theorem Change.within (h : Change i log M log' M') (ha : Apart M) :
    (∀ e, M'.Within e ↔ M.Within e) ∧ (∀ e, owed log' e = owed log e) ∧ (Alternating log' ↔ Alternating log) ∧
        (∀ e, log' ≠ .call e :: log) ∨
    (∃ e, log' = .call e :: log ∧ e ∈ M .transit ∧ ∀ x, M'.Within x ↔ x = e ∨ M.Within x) ∨
    (∃ e, log' = .call e :: log ∧ (M .next).getLast? = some e ∧ M' = M) ∨
    ∃ e, log' = .invoke e :: log ∧ e ∈ M .done ∧ ∀ x, M'.Within x ↔ x ≠ e ∧ M.Within x := by
  cases h with
  | same => exact .inl ⟨fun _ => Iff.rfl, fun _ => rfl, Iff.rfl, by simp⟩
  | quiet => exact .inl ⟨fun _ => Iff.rfl, fun _ => rfl, Iff.rfl, by simp⟩
  | mark e => exact .inl ⟨fun x => by simp [Elems.Within], fun _ => rfl, Iff.rfl, by simp⟩
  | @call e hm =>
    refine .inr (.inl ⟨e, rfl, by simp [hm], fun x => ?_⟩)
    simp only [Elems.Within, Elems.called]
    simp
    tauto
  | @again e hl => exact .inr (.inr (.inl ⟨e, rfl, hl, rfl⟩))
  | complete hd =>
    refine .inl ⟨fun x => ?_, fun _ => rfl, Iff.rfl, by simp⟩
    simp [Elems.Within, Elems.completed, hd]
  | advance hc =>
    refine .inl ⟨fun x => ?_, fun _ => rfl, Iff.rfl, by simp⟩
    simp [Elems.Within, Elems.advanced, hc]
  | @invoke e xs hm =>
    refine .inr (.inr (.inr ⟨e, rfl, by simp [hm], fun x => ?_⟩))
    have hn := fun h => ha.apart .next .done x h
    have hc := fun h => ha.apart .curr .done x h
    have hnd := ha.nodup .done
    rw [hm, List.nodup_cons] at hnd
    simp only [Elems.Within, hm, Function.update_self] at *
    simp
    grind

end Change

section Steps

variable {s : Machine ι} {L : ι → Elems} {i : ι} {e : ElemId} {M : Elems}

theorem Shape.not_listed {h : Links} {cpu : ι → Cpu} {k : Stage} (hs : Shape h cpu L) (he : e ∈ L i k) :
    ¬∃ j, j ≠ i ∧ (L j).Within e := by
  rintro ⟨j, hji, hj⟩
  obtain ⟨k', -, he'⟩ := hj.exists
  exact hji (hs.apart j k' i k e he' he).1

variable [DecidableEq ι]

theorem listed_update : Listed (Function.update L i M) e ↔ M.Within e ∨ ∃ j, j ≠ i ∧ (L j).Within e := by
  constructor
  · rintro ⟨j, hj⟩
    by_cases hji : j = i
    · subst hji
      rw [Function.update_self] at hj
      exact .inl hj
    · rw [Function.update_of_ne hji] at hj
      exact .inr ⟨j, hji, hj⟩
  · rintro (h | ⟨j, hji, hj⟩)
    · exact ⟨i, by rwa [Function.update_self]⟩
    · exact ⟨j, by rwa [Function.update_of_ne hji]⟩

theorem listed_iff : Listed L e ↔ (L i).Within e ∨ ∃ j, j ≠ i ∧ (L j).Within e := by
  have h := listed_update (L := L) (i := i) (M := L i) (e := e)
  rwa [Function.update_eq_self] at h

/-- A step keeps the lists in accord with the log.  The log stays as it should be
unless the element is the last one of the list already. -/
theorem Change.once {log log' : List (Event ι)} {h : Links} {cpu : ι → Cpu} (hc : Change i log (L i) log' M)
    (hs : Shape h cpu L) (hl : ∀ e, owed log e = true ↔ Listed L e) :
    (∀ e, owed log' e = true ↔ Listed (Function.update L i M) e) ∧
      (Alternating log' ↔ Alternating log ∧ ¬∃ e, log' = .call e :: log ∧ (L i .next).getLast? = some e) := by
  have ha := hs.apart_own i
  rcases hc.within ha with ⟨hw, ho, hal, hno⟩ | ⟨e, rfl, he, hw⟩ | ⟨e, rfl, hlast, rfl⟩ | ⟨e, rfl, he, hw⟩
  · refine ⟨fun e => ?_, ?_⟩
    · rw [ho, hl, listed_update, listed_iff (i := i), hw]
    · rw [hal, and_iff_left]
      exact fun ⟨e, heq, _⟩ => hno e heq
  · have hnot : ¬Listed L e := by
      rw [listed_iff (i := i), not_or]
      exact ⟨ha.not_within he, hs.not_listed he⟩
    have hno : owed log e = false := by
      rw [← Bool.not_eq_true, hl]
      exact hnot
    refine ⟨fun x => ?_, ?_⟩
    · rw [owed, Bool.or_eq_true, hl, listed_update, listed_iff (i := i), hw, beq_iff_eq, eq_comm]
      tauto
    · rw [Alternating, hno, eq_self_iff_true, true_and, and_iff_left]
      rintro ⟨x, heq, hx⟩
      obtain rfl := Event.call.inj (List.cons.inj heq).1
      exact ha.not_within he (.inl (List.mem_of_getLast? hx))
  · have howed : owed log e = true := (hl e).mpr ⟨i, .inl (List.mem_of_getLast? hlast)⟩
    refine ⟨fun x => ?_, ?_⟩
    · rw [Function.update_eq_self, owed, Bool.or_eq_true, ← hl, beq_iff_eq, or_iff_right_iff_imp]
      rintro rfl
      exact howed
    · rw [Alternating, howed]
      refine iff_of_false (by simp) fun h => h.2 ⟨e, rfl, hlast⟩
  · have howed : owed log e = true := (hl e).mpr ⟨i, .inr (.inr he)⟩
    refine ⟨fun x => ?_, ?_⟩
    · rw [owed, Bool.and_eq_true, hl, listed_update, listed_iff (i := i), hw, bne_iff_ne, ne_comm]
      constructor
      · rintro ⟨hne, h | h⟩
        · exact .inl ⟨hne, h⟩
        · exact .inr h
      · rintro (h | ⟨j, hji, hj⟩)
        · exact ⟨h.1, .inl h.2⟩
        · refine ⟨?_, .inr ⟨j, hji, hj⟩⟩
          rintro rfl
          exact hs.not_listed he ⟨j, hji, hj⟩
    · rw [Alternating, howed, eq_self_iff_true, true_and, and_iff_left]
      simp

theorem pc_stepCall (s : Machine ι) (i : ι) (k : Calling) : ((s.stepCall i k).cpu i).pc = (s.cpu i).pc := by
  have hput : ∀ (t : Machine ι) (c : Cpu), (t.put i c).cpu i = c := fun t c => Function.update_self ..
  cases k <;> simp only [Machine.stepCall]
  case other x => rw [hput]
  case fresh x => rw [hput]
  case peek x => rw [hput]
  all_goals split <;> rw [hput]

theorem pc_startCall (s : Machine ι) (i : ι) (e : ElemId) : ((s.startCall i e).cpu i).pc = (s.cpu i).pc := by
  unfold Machine.startCall Machine.put
  dsimp only
  rw [Function.update_self]

def Booked (s : Machine ι) (L : ι → Elems) : Prop := ∀ e, owed s.log e = true ↔ Listed L e

omit [DecidableEq ι] in
theorem booked_boot : Booked (Machine.boot ι) fun _ _ => [] := by
  intro e
  simp [Machine.boot, owed, Listed, Elems.Within]

theorem turn_of_call {k : Calling} {x : ι × Act} (hc : (s.cpu i).call = some k) : s.turn i x = false := by
  unfold Machine.turn
  rw [hc]
  cases x.2 <;> rfl

/-- What a step does to a batch that is being invoked. -/
structure Walks (s t : Machine ι) (i : ι) (x : ι × Act) (M M' : Elems) : Prop where
  done : M .done = (s.visit i x).toList ++ M' .done
  rank : (t.cpu i).pc.rank (M' .done).length + (s.turn i x).toNat = (s.cpu i).pc.rank (M .done).length
  pc : (t.cpu i).pc.invokes = true ∨ (t.cpu i).pc = .out

theorem walks_of_idle {t : Machine ι} {x : ι × Act} {M' : Elems} (hp : (s.cpu i).pc.invokes = true)
    (ht : s.turn i x = false) (hpc : (t.cpu i).pc = (s.cpu i).pc) (hd : M' .done = M .done) :
    Walks s t i x M M' := by
  refine ⟨?_, ?_, .inl (hpc ▸ hp)⟩
  · unfold Machine.visit
    rw [ht, hd]
    rfl
  · rw [hpc, hd, ht]
    rfl

variable [Fintype ι] {g : Epoch ι} {a : Act}

theorem log_stepPc_ne (s : Machine ι) (i : ι) (e : ElemId) : (s.stepPc i).log ≠ .call e :: s.log := by
  unfold Machine.stepPc
  dsimp only
  repeat' split
  all_goals simp [Machine.put]

theorem log_act_call (h : (s.act i a).log = .call e :: s.log) :
    a = .step ∧ ∃ old, (s.cpu i).call = some (.link e old) := by
  unfold Machine.act at h
  dsimp only at h
  split at h
  · rename_i k hk
    cases k <;> simp only [Machine.stepCall] at h
    case link x old =>
      split at h
      · simp only [Machine.put, List.cons.injEq, Event.call.injEq, and_true] at h
        exact ⟨rfl, old, by rw [hk, h]⟩
      · simp [Machine.put] at h
    case mark x => split at h <;> simp [Machine.put] at h
    case test x => split at h <;> simp [Machine.put] at h
    all_goals simp [Machine.put] at h
  · exact absurd h (log_stepPc_ne s i e)
  · split at h
    · simp [Machine.startCall, Machine.put] at h
    · simp at h
  · split at h <;> simp [Machine.put] at h
  · split at h <;> simp [Machine.put] at h
  · simp at h

/-- The element of a call that goes through is the last one already exactly if the
tail says so. -/
theorem Kept.repeated_iff (hk : Kept s g L) :
    (∃ e, (s.act i a).log = .call e :: s.log ∧ (L i .next).getLast? = some e) ↔ s.unrepeated i a = false := by
  have ho := hk.shape.own i
  constructor
  · rintro ⟨e, hlog, hlast⟩
    obtain ⟨rfl, old, hcall⟩ := log_act_call hlog
    unfold Machine.unrepeated
    rw [hcall]
    simp [(ho.next.last e hlast).1]
  · intro h
    unfold Machine.unrepeated at h
    split at h
    · rename_i e old hcall
      have htail : (s.cpu i).next.tail = .next e := by simpa using h
      obtain ⟨heq, -⟩ := ho.link (hk.shape.apart_own i) hcall
      refine ⟨e, ?_, ho.next.last_of_tail htail⟩
      unfold Machine.act
      dsimp only
      rw [hcall]
      simp only [Machine.stepCall, if_pos heq]
      rfl
    · simp at h

theorem Kept.once_act (hk : Kept s g L) (hb : Booked s L) (hcard : Fintype.card ι < 2 ^ 32) (i : ι) (a : Act)
    (hr : s.unraced i a = true) :
    (∃ g' L', Kept (s.act i a) g' L' ∧ Booked (s.act i a) L') ∧
      (Alternating (s.act i a).log ↔ Alternating s.log ∧ s.unrepeated i a = true) := by
  obtain ⟨g', M, hc, hk'⟩ := hk.act hcard i a hr
  obtain ⟨hb', hal⟩ := hc.once hk.shape hb
  refine ⟨⟨g', _, hk', hb'⟩, ?_⟩
  rw [hal, hk.repeated_iff, Bool.not_eq_false]

theorem Kept.once_after (hk : Kept s g L) (hb : Booked s L) (hcard : Fintype.card ι < 2 ^ 32)
    (acts : List (ι × Act)) (hr : s.Meets Machine.unraced acts) :
    (∃ g' L', Kept (s.after acts) g' L' ∧ Booked (s.after acts) L') ∧
      (Alternating (s.after acts).log ↔ Alternating s.log ∧ s.Meets Machine.unrepeated acts) := by
  induction acts generalizing s g L with
  | nil => exact ⟨⟨g, L, hk, hb⟩, (and_iff_left trivial).symm⟩
  | cons x acts ih =>
    obtain ⟨⟨g', L', hk', hb'⟩, hal⟩ := hk.once_act hb hcard x.1 x.2 hr.1
    obtain ⟨hex, hal'⟩ := ih hk' hb' hr.2
    refine ⟨hex, hal'.trans ?_⟩
    rw [hal, and_assoc]
    exact Iff.rfl

theorem cpu_act_of_ne {j : ι} (hij : i ≠ j) : (s.act j a).cpu i = s.cpu i := by
  have hput : ∀ (t : Machine ι) (c : Cpu), (t.put j c).cpu i = t.cpu i := fun t c => Function.update_of_ne hij ..
  unfold Machine.act
  dsimp only
  split
  · rename_i k _
    cases k <;> simp only [Machine.stepCall]
    case other x => exact hput _ _
    case fresh x => exact hput _ _
    case peek x => exact hput _ _
    all_goals split <;> exact hput _ _
  · unfold Machine.stepPc
    dsimp only
    repeat' split
    all_goals first | rfl | exact hput _ _
  · split
    · exact hput _ _
    · rfl
  · split
    · exact hput _ _
    · rfl
  · split
    · exact hput _ _
    · rfl
  · rfl

theorem Kept.rank_pos (hk : Kept s g L) (hp : (s.cpu i).pc.invokes = true) :
    0 < (s.cpu i).pc.rank (L i .done).length := by
  have hw := (hk.shape.own i).done
  unfold Walked at hw
  cases hpc : (s.cpu i).pc with
  | invoke n =>
    rw [hpc] at hw
    have := List.length_pos_of_ne_nil hw.1
    show 0 < 2 * _
    omega
  | dispatch => exact Nat.succ_pos _
  | callback n => exact Nat.succ_pos _
  | _ =>
    rw [hpc] at hp
    simp [Pc.invokes] at hp

theorem Kept.walks_turn (hk : Kept s g L) (hp : (s.cpu i).pc.invokes = true) (hc : (s.cpu i).call = none) :
    ∃ L', Kept (s.stepPc i) g L' ∧ Walks s (s.stepPc i) i (i, .step) (L i) (L' i) := by
  have hput : ∀ (t : Machine ι) (c : Cpu), (t.put i c).cpu i = c := fun t c => Function.update_self ..
  have hturn : s.turn i (i, .step) = true := by
    unfold Machine.turn
    rw [hc]
    exact beq_self_eq_true i
  have hw := (hk.shape.own i).done
  cases hpc : (s.cpu i).pc with
  | dispatch =>
    have hempty := ((walked_iff (by rw [hpc]; rfl)).mp hw).1.empty_iff
    have hstep : s.stepPc i = s.put i { s.cpu i with
        pc := if (s.cpu i).done.empty then .out else .invoke (s.cpu i).done.head } := by
      unfold Machine.stepPc
      dsimp only
      rw [hpc]
    rw [hstep]
    refine ⟨L, hk.dispatch hc hpc, ?_, ?_, ?_⟩
    · unfold Machine.visit
      rw [hturn, hpc]
      rfl
    · rw [hput, hturn, hpc]
      dsimp only
      by_cases hd : L i .done = []
      · rw [if_pos (hempty.mpr hd), hd]
        rfl
      · rw [if_neg fun h => hd (hempty.mp h)]
        rfl
    · rw [hput]
      dsimp only
      split
      · exact .inr rfl
      · exact .inl rfl
  | invoke n =>
    obtain ⟨e, xs, rfl, hm, h⟩ := hk.invoke hc hpc
    have hstep : s.stepPc i = { s with link := Function.update s.link e .null, log := .invoke e :: s.log }.put i
        { s.cpu i with pc := .callback (s.link e) } := by
      unfold Machine.stepPc
      dsimp only
      rw [hpc]
    rw [hstep]
    refine ⟨_, h, ?_, ?_, ?_⟩
    · unfold Machine.visit
      rw [hturn, hpc, Function.update_self, Function.update_self, hm]
      rfl
    · rw [hput, hturn, hpc, Function.update_self, Function.update_self, hm]
      show 2 * xs.length + 1 + 1 = 2 * (xs.length + 1)
      omega
    · rw [hput]
      exact .inl rfl
  | callback n =>
    have hstep : s.stepPc i = if n = (s.cpu i).done.head then s.put i { s.cpu i with done := .clear, pc := .out }
        else s.put i { s.cpu i with pc := .invoke n } := by
      unfold Machine.stepPc
      dsimp only
      rw [hpc]
    have hcb := (hk.shape.own i).callback hpc
    rw [hstep]
    refine ⟨L, hk.callback hc hpc, ?_, ?_, ?_⟩
    · unfold Machine.visit
      rw [hturn, hpc]
      rfl
    · rw [hturn, hpc]
      split at hcb
      · rw [if_pos ‹_›, hput, hcb.1]
        rfl
      · rw [if_neg ‹_›, hput]
        rfl
    · split
      · rw [hput]
        exact .inr rfl
      · rw [hput]
        exact .inl rfl
  | _ =>
    rw [hpc] at hp
    simp [Pc.invokes] at hp

theorem Kept.walks_act (hk : Kept s g L) (hcard : Fintype.card ι < 2 ^ 32) (hp : (s.cpu i).pc.invokes = true)
    (x : ι × Act) (hr : s.unraced x.1 x.2 = true) :
    ∃ g' L', Kept (s.act x.1 x.2) g' L' ∧ Walks s (s.act x.1 x.2) i x (L i) (L' i) := by
  obtain ⟨j, a⟩ := x
  by_cases hji : j = i
  · subst hji
    have hidle : ∀ {t : Machine ι}, s.turn j (j, a) = false → (t.cpu j).pc = (s.cpu j).pc → Kept t g L →
        ∃ g' L', Kept t g' L' ∧ Walks s t j (j, a) (L j) (L' j) :=
      fun ht hpc h => ⟨g, L, h, walks_of_idle hp ht hpc rfl⟩
    have hout : (s.cpu j).pc ≠ .out := by
      intro h
      rw [h] at hp
      simp [Pc.invokes] at hp
    unfold Machine.act
    dsimp only
    split
    · rename_i k hcall
      obtain ⟨M, -, hdone, h⟩ := hk.stepCall hcall hr
      refine ⟨g, _, h, walks_of_idle hp (turn_of_call hcall) (pc_stepCall s j k) ?_⟩
      rw [Function.update_self]
      exact hdone
    · obtain ⟨L', h, hw⟩ := hk.walks_turn hp ‹_›
      exact ⟨g, L', h, hw⟩
    · split
      · exact hidle rfl (pc_startCall s j _) (hk.startCall ‹_› ‹_› _)
      · exact hidle rfl rfl hk
    · rw [if_neg hout]
      exact hidle rfl rfl hk
    · rw [if_neg fun h => hout h.1]
      exact hidle rfl rfl hk
    · exact hidle (turn_of_call ‹_›) rfl hk
  · obtain ⟨g', M, -, h⟩ := hk.act hcard j a hr
    have ht : s.turn i (j, a) = false := by
      unfold Machine.turn
      split
      · exact beq_false_of_ne hji
      · rfl
    refine ⟨g', _, h, walks_of_idle hp ht (by rw [cpu_act_of_ne (Ne.symm hji)]) ?_⟩
    rw [Function.update_of_ne (Ne.symm hji)]

theorem Kept.walks_after (hk : Kept s g L) (hcard : Fintype.card ι < 2 ^ 32) (hp : (s.cpu i).pc.invokes = true)
    (acts : List (ι × Act)) (hr : s.Meets Machine.unraced acts)
    (hlt : s.turns i acts < (s.cpu i).pc.rank (L i .done).length) :
    ∃ g' L', Kept (s.after acts) g' L' ∧ ((s.after acts).cpu i).pc.invokes = true ∧
      L i .done = s.visited i acts ++ L' i .done ∧
      ((s.after acts).cpu i).pc.rank (L' i .done).length + s.turns i acts = (s.cpu i).pc.rank (L i .done).length := by
  induction acts generalizing s g L with
  | nil => exact ⟨g, L, hk, hp, rfl, rfl⟩
  | cons x acts ih =>
    obtain ⟨g₁, L₁, hk₁, hw⟩ := hk.walks_act hcard hp x hr.1
    have hrank := hw.rank
    rw [Machine.turns] at hlt
    have hp₁ : ((s.act x.1 x.2).cpu i).pc.invokes = true := by
      refine hw.pc.resolve_right fun hout => ?_
      rw [hout] at hrank
      change 0 + (s.turn i x).toNat = _ at hrank
      omega
    obtain ⟨g', L', hk', hp', hd, hr⟩ := ih hk₁ hp₁ hr.2 (by omega)
    refine ⟨g', L', hk', hp', ?_, ?_⟩
    · rw [hw.done, hd, Machine.visited, List.append_assoc]
    · rw [Machine.turns]
      change ((s.act x.1 x.2).after acts |>.cpu i).pc.rank _ + _ = _
      omega

/-- `invoke_batch` on a CPU begins the callbacks of the elements of `done`, in this
order, and returns, whatever the callbacks and the other CPUs do but enqueue one element
at the same time. -/
structure Batch (s : Machine ι) (i : ι) (xs : List ElemId) : Prop where
  rep : Rep (Round (s.cpu i).done) s.link (s.cpu i).done xs
  nodup : xs.Nodup
  visited : ∀ acts, s.Meets Machine.unraced acts → s.turns i acts = 2 * xs.length → s.visited i acts = xs
  back : ∀ acts, s.Meets Machine.unraced acts → s.turns i acts = 2 * xs.length → ((s.after acts).cpu i).call = none →
    (((s.after acts).act i .step).cpu i).pc = .out

theorem Kept.batch_dispatch (hk : Kept s g L) (hcard : Fintype.card ι < 2 ^ 32) (hp : (s.cpu i).pc = .dispatch) :
    Batch s i (L i .done) := by
  have hrank : (s.cpu i).pc.rank (L i .done).length = 2 * (L i .done).length + 1 := by rw [hp]; rfl
  have hlast : ∀ acts, s.Meets Machine.unraced acts → s.turns i acts = 2 * (L i .done).length → ∃ g' L', Kept (s.after acts) g' L' ∧
      ((s.after acts).cpu i).pc.invokes = true ∧ L i .done = s.visited i acts ∧
      ((s.after acts).cpu i).pc.rank (L' i .done).length = 1 := by
    intro acts hm ht
    obtain ⟨g', L', hk', hp', hd, hr⟩ := hk.walks_after hcard (by rw [hp]; rfl) acts hm (by omega)
    have hr1 : ((s.after acts).cpu i).pc.rank (L' i .done).length = 1 := by omega
    refine ⟨g', L', hk', hp', ?_, hr1⟩
    have hnil : L' i .done = [] := by
      rw [← List.length_eq_zero_iff]
      cases hpc : ((s.after acts).cpu i).pc <;> rw [hpc] at hr1 <;> simp only [Pc.rank] at hr1 <;> omega
    rw [hd, hnil, List.append_nil]
  refine ⟨((walked_iff (by rw [hp]; rfl)).mp (hk.shape.own i).done).1, hk.shape.nodup i .done, fun acts hm ht => ?_,
    fun acts hm ht hc => ?_⟩
  · obtain ⟨-, -, -, -, hv, -⟩ := hlast acts hm ht
    exact hv.symm
  · obtain ⟨g', L', hk', hp', -, hr1⟩ := hlast acts hm ht
    have hact : (s.after acts).act i .step = (s.after acts).stepPc i := by
      unfold Machine.act
      dsimp only
      rw [hc]
    obtain ⟨L'', h'', hw⟩ := hk'.walks_turn hp' hc
    rw [hact]
    refine hw.pc.resolve_left fun hp'' => ?_
    have hpos := h''.rank_pos hp''
    have hrank'' := hw.rank
    have hturn : (s.after acts).turn i (i, .step) = true := by
      unfold Machine.turn
      rw [hc]
      exact beq_self_eq_true i
    rw [hturn, hr1] at hrank''
    change _ + 1 = 1 at hrank''
    omega

/-- Calls and callbacks take turns, an element whose callback is still to come is in a
list and no other is, and `invoke_batch` does what it should. -/
structure Once (s : Machine ι) : Prop where
  log : Alternating s.log
  lists : ∃ L, Shape s.link s.cpu L ∧ ∀ e, owed s.log e = true ↔ Listed L e
  batch : ∀ i, (s.cpu i).pc = .dispatch → ∃ xs, Batch s i xs

/-- Unless two CPUs enqueue one element at the same time, every call that gets through
is followed by one callback exactly if no CPU calls the last element of its own list once
more. -/
theorem after_once_iff (hcard : Fintype.card ι < 2 ^ 32) (acts : List (ι × Act))
    (hr : (Machine.boot ι).Meets Machine.unraced acts) :
    Once ((Machine.boot ι).after acts) ↔ (Machine.boot ι).Meets Machine.unrepeated acts := by
  obtain ⟨⟨g, L, hk, hb⟩, hal⟩ := kept_boot.once_after booked_boot hcard acts hr
  have hal' : Alternating ((Machine.boot ι).after acts).log ↔ (Machine.boot ι).Meets Machine.unrepeated acts :=
    hal.trans (and_iff_right trivial)
  rw [← hal']
  exact ⟨Once.log, fun h => ⟨h, ⟨L, hk.shape, hb⟩, fun i hp => ⟨_, hk.batch_dispatch hcard hp⟩⟩⟩

/-- The CPU calls 5 and 6, then 5 in vain, and 5 again from its own callback. -/
def fromCallback : List (Fin 1 × Act) :=
  goes 0 (.call 5) 5 ++ goes 0 (.call 6) 5 ++ goes 0 (.call 5) 5 ++ goes 0 .update 12 ++ goes 0 .update 6 ++
  goes 0 .quiet 6 ++ goes 0 .update 5 ++ goes 0 (.call 5) 10

theorem fromCallback_once :
    ((Machine.boot (Fin 1)).after fromCallback).log = [.invoke 6, .call 5, .invoke 5, .quiet 0, .call 6, .call 5] ∧
      Once ((Machine.boot (Fin 1)).after fromCallback) :=
  ⟨by decide +kernel, (after_once_iff (by decide) fromCallback (by decide +kernel)).mpr (by decide +kernel)⟩

/-- A CPU calls an element twice, and both calls get through. -/
theorem calledTwice_not_once :
    ¬Once ((Machine.boot (Fin 1)).after (goes 0 (.call 5) 5 ++ goes 0 (.call 5) 5)) := by
  intro h
  have hlog := h.log
  have heq : ((Machine.boot (Fin 1)).after (goes 0 (.call 5) 5 ++ goes 0 (.call 5) 5)).log =
      [.call 5, .call 5] := by
    decide +kernel
  rw [heq] at hlog
  simp [Alternating, owed] at hlog

/-- CPU 0 has read the empty `next` of 5 when CPU 1 calls 5 as well. -/
def bothCall : List (Fin 2 × Act) :=
  goes 0 (.call 5) 1 ++ goes 1 (.call 5) 5 ++ List.replicate 3 (0, .step)

/-- So do the calls of two CPUs, for which the element is not the last one of their list. -/
theorem bothCall_not_once : (Machine.boot (Fin 2)).Meets Machine.unrepeated bothCall ∧
    ¬Once ((Machine.boot (Fin 2)).after bothCall) := by
  refine ⟨by decide +kernel, fun h => ?_⟩
  have hlog := h.log
  have heq : ((Machine.boot (Fin 2)).after bothCall).log = [.call 5, .call 5] := by
    decide +kernel
  rw [heq] at hlog
  simp [Alternating, owed] at hlog

end Steps

end Tukija.Rcu
