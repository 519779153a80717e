import Tukija.Core.State

/-! The workers of the cells, put to sleep and woken up: `block_workers_on` and
`wake_core` with the places where another CPU can come in between. -/
namespace Tukija.Core.Sleep

/-- Where a CPU is: nowhere, before the `Sm::dn` of the first of the workers that
are left, within it, between its queue and its `block_sc`, or before the `Sm::up`
of the first of those that are left. -/
inductive Pc where
  | idle
  | block (c : CellId) (left : List Nat)
  | park (c : CellId) (i : Nat) (left : List Nat)
  | wake (c : CellId) (k : Cpu) (left : List Nat)
  deriving DecidableEq, Repr

structure Machine where
  workers : CellId → Cpu → List Worker
  toBeDestroyed : CellId → Bool
  pc : Cpu → Pc

/-- A worker of the cell executes `block_workers_on` on its CPU, some CPU
executes `wake_core`, or a CPU in one of them goes on. -/
inductive Event where
  | block (k : Cpu) (c : CellId)
  | wake (i : Cpu) (c : CellId) (k : Cpu)
  | go (i : Cpu)
  deriving DecidableEq, Repr

namespace Machine

variable (m : Machine)

def goTo (i : Cpu) (p : Pc) : Machine := { m with pc := Function.update m.pc i p }

def setWorker (c : CellId) (k : Cpu) (i : Nat) (f : Worker → Worker) : Machine :=
  { m with
    workers := Function.update m.workers c
      (Function.update (m.workers c) k ((m.workers c k).modify i f)) }

def counter (c : CellId) (k : Cpu) (i : Nat) : Option Nat := (m.workers c k)[i]?.map Worker.counter

def blocked (c : CellId) (k : Cpu) (i : Nat) : Option Bool := (m.workers c k)[i]?.map Worker.blocked

def advance (k : Cpu) : Pc → Machine
  | .idle => m
  | .block _ [] => m.goTo k .idle
  | .block c (i :: left) =>
    -- `zero` is set: the tokens are gone either way
    if m.counter c k i = some 0 then (m.setWorker c k i Worker.dn).goTo k (.park c i left)
    else (m.setWorker c k i Worker.dn).goTo k (.block c left)
  | .park c i left =>
    -- `block_sc` does not return from a worker that is blocked
    if m.blocked c k i = some true then m.goTo k .idle else m.goTo k (.block c left)
  | .wake _ _ [] => m.goTo k .idle
  | .wake c j (i :: left) => (m.setWorker c j i Worker.up).goTo k (.wake c j left)

def step : Event → Machine
  | .block k c =>
    if m.pc k = .idle ∧ m.toBeDestroyed c = false then m.goTo k (.block c (List.range (m.workers c k).length))
    else m
  | .wake i c k =>
    if m.pc i = .idle then m.goTo i (.wake c k (List.range (m.workers c k).length)) else m
  | .go i => m.advance i (m.pc i)

def after : List Event → Machine → Machine
  | [], m => m
  | e :: es, m => after es (m.step e)

/-- `P` holds of every step of the run. -/
def Meets (P : Machine → Event → Prop) : List Event → Machine → Prop
  | [], _ => True
  | e :: es, m => P m e ∧ Meets P es (m.step e)

instance meetsDecidable (P : Machine → Event → Prop) [∀ m e, Decidable (P m e)] :
    ∀ es m, Decidable (Meets P es m)
  | [], _ => isTrue trivial
  | e :: es, m =>
    have := meetsDecidable P es (m.step e)
    inferInstanceAs (Decidable (P m e ∧ Meets P es (m.step e)))

def AllBlocked (c : CellId) (k : Cpu) : Prop := ∀ w ∈ m.workers c k, w.blocked = true

/-- What the step is for: every worker that `block_workers_on` comes to is
blocked, all of them are when it goes to sleep itself (or returns at once), and
every one that `wake_core` comes to can run, and has no token. -/
def Serves : Event → Prop
  | .block k c => m.pc k = .idle → m.toBeDestroyed c = true → m.AllBlocked c k
  | .wake _ _ _ => True
  | .go k =>
    match m.pc k with
    | .block c (i :: _) => (m.step (.go k)).blocked c k i = some true
    | .park c i _ => m.blocked c k i = some true → m.AllBlocked c k
    | .wake c j (i :: _) =>
      (m.step (.go k)).blocked c j i = some false ∧ (m.step (.go k)).counter c j i = some 0
    | _ => True

/-- The worker that `block_workers_on` comes to is the only one of the cell there
and has no token; no cell is to be destroyed that has workers there; and the
worker that `wake_core` comes to is blocked. -/
def Paired : Event → Prop
  | .block k c => m.pc k = .idle → m.toBeDestroyed c = true → m.workers c k = []
  | .wake _ _ _ => True
  | .go k =>
    match m.pc k with
    | .block c (i :: _) => (m.workers c k).length = 1 ∧ m.counter c k i = some 0
    | .wake c j (i :: _) => m.blocked c j i = some true
    | _ => True

instance (c : CellId) (k : Cpu) : Decidable (m.AllBlocked c k) :=
  inferInstanceAs (Decidable (∀ w ∈ m.workers c k, w.blocked = true))

instance (e : Event) : Decidable (m.Serves e) := by
  unfold Serves
  split
  · infer_instance
  · infer_instance
  · split <;> infer_instance

instance (e : Event) : Decidable (m.Paired e) := by
  unfold Paired
  split
  · infer_instance
  · infer_instance
  · split <;> infer_instance

section Fields

variable (c d : CellId) (i j k : Cpu) (n : Nat) (f : Worker → Worker) (p : Pc)

@[simp] theorem goTo_workers : (m.goTo i p).workers = m.workers := rfl

@[simp] theorem setWorker_pc : (m.setWorker c k n f).pc = m.pc := rfl

theorem goTo_pc : (m.goTo i p).pc j = if j = i then p else m.pc j := by
  by_cases h : j = i <;> simp [goTo, h]

theorem setWorker_workers : (m.setWorker c k n f).workers d j =
    if d = c ∧ j = k then (m.workers d j).modify n f else m.workers d j := by
  by_cases hd : d = c
  · subst hd
    by_cases hj : j = k <;> simp [setWorker, hj]
  · simp [setWorker, hd]

end Fields

end Machine

section Runs

variable {m : Machine} {e : Event} {es : List Event}

/-- No worker has a token, and who is about to sleep is the only worker. -/
structure Alone (m : Machine) : Prop where
  counter : ∀ c k, ∀ w ∈ m.workers c k, w.counter = 0
  park : ∀ k c i left, m.pc k = .park c i left → (m.workers c k).length = 1

theorem counter_eq {c : CellId} {k : Cpu} {n v : Nat} (h : m.counter c k n = some v) :
    ∃ w, (m.workers c k)[n]? = some w ∧ w.counter = v := by
  simpa [Machine.counter] using h

theorem blocked_eq {c : CellId} {k : Cpu} {n : Nat} {v : Bool} (h : m.blocked c k n = some v) :
    ∃ w, (m.workers c k)[n]? = some w ∧ w.blocked = v := by
  simpa [Machine.blocked] using h

theorem Alone.change {i k : Cpu} {c : CellId} {n : Nat} {f : Worker → Worker} {p : Pc} (h : Alone m)
    (hf : ∀ w, (m.workers c k)[n]? = some w → (f w).counter = 0)
    (hp : ∀ d j left, p = .park d j left → (m.workers d i).length = 1) :
    Alone ((m.setWorker c k n f).goTo i p) where
  counter d j w hw := by
    rw [Machine.goTo_workers, Machine.setWorker_workers] at hw
    split at hw
    · rename_i hdj
      obtain ⟨rfl, rfl⟩ := hdj
      obtain ⟨l, hl, rfl⟩ := List.getElem_of_mem hw
      rw [List.length_modify] at hl
      rw [List.getElem_modify]
      split
      · rename_i hnl
        subst hnl
        exact hf _ (List.getElem?_eq_getElem hl)
      · exact h.counter d j _ (List.getElem_mem hl)
    · exact h.counter d j w hw
  park j d l left hj := by
    rw [Machine.goTo_pc, Machine.setWorker_pc] at hj
    have hlen : ((((m.setWorker c k n f).goTo i p).workers d j).length = (m.workers d j).length) := by
      rw [Machine.goTo_workers, Machine.setWorker_workers]
      split <;> simp
    rw [hlen]
    split at hj
    · rename_i hji
      subst hji
      exact hp d l left hj
    · exact h.park j d l left hj

theorem Alone.goTo {i : Cpu} {p : Pc} (h : Alone m) (hp : ∀ d j left, p ≠ .park d j left) : Alone (m.goTo i p) where
  counter := h.counter
  park j d l left hj := by
    rw [Machine.goTo_pc] at hj
    split at hj
    · exact (hp d l left hj).elim
    · exact h.park j d l left hj

theorem blocked_change {c : CellId} {k i : Cpu} {n : Nat} {f : Worker → Worker} {p : Pc} :
    ((m.setWorker c k n f).goTo i p).blocked c k n = (m.workers c k)[n]?.map fun w => (f w).blocked := by
  simp [Machine.blocked, Machine.setWorker_workers, List.getElem?_modify_eq, Function.comp_def]

theorem counter_change {c : CellId} {k i : Cpu} {n : Nat} {f : Worker → Worker} {p : Pc} :
    ((m.setWorker c k n f).goTo i p).counter c k n = (m.workers c k)[n]?.map fun w => (f w).counter := by
  simp [Machine.counter, Machine.setWorker_workers, List.getElem?_modify_eq, Function.comp_def]

theorem Alone.step (h : Alone m) (hp : m.Paired e) : m.Serves e ∧ Alone (m.step e) := by
  cases e with
  | block k c =>
    refine ⟨fun hi hd w hw => ?_, ?_⟩
    · rw [hp hi hd] at hw
      simp at hw
    · unfold Machine.step
      simp only
      split
      · exact h.goTo (by simp)
      · exact h
  | wake i c k =>
    refine ⟨trivial, ?_⟩
    unfold Machine.step
    simp only
    split
    · exact h.goTo (by simp)
    · exact h
  | go k =>
    unfold Machine.Serves Machine.Paired Machine.step at *
    simp only at *
    cases hpc : m.pc k with
    | idle => exact ⟨trivial, h⟩
    | block c left =>
      cases left with
      | nil => exact ⟨trivial, h.goTo (by simp)⟩
      | cons i left =>
        rw [hpc] at hp
        obtain ⟨hlen, hc⟩ := hp
        obtain ⟨w, hw, hw0⟩ := counter_eq hc
        have hdn : w.dn = ⟨0, true⟩ := by
          cases w
          simp_all [Worker.dn]
        simp only [Machine.advance, hc, if_true]
        refine ⟨?_, h.change (fun w' hw' => ?_) fun d j l hj => ?_⟩
        · rw [blocked_change, hw, Option.map_some, hdn]
        · obtain rfl := Option.some.inj (hw.symm.trans hw')
          rw [hdn]
        · cases hj
          exact hlen
    | park c i left =>
      refine ⟨fun hb w hw => ?_, ?_⟩
      · obtain ⟨w', hw', hwb⟩ := blocked_eq hb
        obtain ⟨w₀, hl⟩ := List.length_eq_one_iff.mp (h.park k c i left hpc)
        rw [hl, List.mem_singleton] at hw
        rw [hl] at hw'
        have := List.mem_singleton.mp (List.mem_of_getElem? hw')
        rw [hw, ← this, hwb]
      · unfold Machine.advance
        simp only
        split
        · exact h.goTo (by simp)
        · exact h.goTo (by simp)
    | wake c j left =>
      cases left with
      | nil => exact ⟨trivial, h.goTo (by simp)⟩
      | cons i left =>
        rw [hpc] at hp
        obtain ⟨w, hw, hwb⟩ := blocked_eq hp
        have hw0 := h.counter c j w (List.mem_of_getElem? hw)
        have hup : w.up = ⟨0, false⟩ := by
          cases w
          simp_all [Worker.up]
        simp only [Machine.advance]
        refine ⟨⟨?_, ?_⟩, h.change (fun w' hw' => ?_) (by simp)⟩
        · rw [blocked_change, hw, Option.map_some, hup]
        · rw [counter_change, hw, Option.map_some, hup]
        · obtain rfl := Option.some.inj (hw.symm.trans hw')
          rw [hup]

theorem Alone.run (h : Alone m) (hp : m.Meets Machine.Paired es) : m.Meets Machine.Serves es ∧ Alone (m.after es) := by
  induction es generalizing m with
  | nil => exact ⟨trivial, h⟩
  | cons e es ih =>
    obtain ⟨hs, h'⟩ := h.step hp.1
    exact ⟨⟨hs, (ih h' hp.2).1⟩, (ih h' hp.2).2⟩

/-- Blocks and wake-ups of any cells on any CPUs, that find one worker and come
in turn, do what they are for, and no token is left behind. -/
theorem paired_serves (h : ∀ c k, ∀ w ∈ m.workers c k, w.counter = 0) (hi : ∀ k, m.pc k = .idle)
    (hp : m.Meets Machine.Paired es) :
    m.Meets Machine.Serves es ∧ ∀ c k, ∀ w ∈ (m.after es).workers c k, w.counter = 0 := by
  have halone : Alone m := ⟨h, fun k c i left hk => by simp [hi] at hk⟩
  exact ⟨(halone.run hp).1, (halone.run hp).2.counter⟩

/-- Cells with `n` workers on every CPU, all of them running. -/
def running (n : Nat) : Machine := ⟨fun _ _ => List.replicate n ⟨0, false⟩, fun _ => false, fun _ => .idle⟩

/-- The first CPU goes to sleep twice, and is woken by the second one, the first
time before it has left the processor. -/
def twice : List Event :=
  [.block 0 1, .go 0, .wake 1 1 0, .go 1, .go 0, .go 0, .go 1, .block 0 1, .go 0, .go 0, .wake 1 1 0, .go 1, .go 1]

theorem paired_serves_twice :
    (running 1).Meets Machine.Serves twice ∧ ∀ c k, ∀ w ∈ ((running 1).after twice).workers c k, w.counter = 0 :=
  paired_serves (by simp [running]) (fun _ => rfl) (by decide)

/-- With two workers, the first one is put to sleep and the second is not. -/
theorem twoWorkers_not_serve : ¬(running 2).Meets Machine.Serves [.block 0 1, .go 0, .go 0] := by
  decide

end Runs

end Tukija.Core.Sleep
