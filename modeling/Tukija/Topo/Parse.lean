import Tukija.Topo.Items

/-! The parser over a whole table. -/
namespace Tukija.Topo

variable {lapic : Lapic} {I J : List Item} {tip tip' : Tip}

/-- All items are entered if they fit, and otherwise the run does not come to
its end. -/
theorem handleAll_eq (h : Describes lapic (domains I) I tip) (hf : Fits lapic I) (J : List Item) :
    (Fits lapic (I ++ J) ∧ ∃ tip', J.foldlM (fun tip i => i.handle lapic tip) tip = .ok tip' ∧
      Describes lapic (domains (I ++ J)) (I ++ J) tip') ∨
    ¬Fits lapic (I ++ J) ∧ ∃ e, J.foldlM (fun tip i => i.handle lapic tip) tip = .error e := by
  induction J generalizing I tip with
  | nil => exact .inl ⟨by simpa using hf, tip, rfl, by simpa using h⟩
  | cons i J ih =>
    rw [List.foldlM_cons, List.append_cons]
    rcases handle_eq h hf i with ⟨hf', tip', hi, h'⟩ | ⟨hnf, e, hi⟩
    · rw [hi]
      exact ih h' hf'
    · rw [hi]
      exact .inr ⟨mt Fits.of_append hnf, e, rfl⟩

theorem describes_zeroed (lapic : Lapic) : Describes lapic (domains []) [] .zeroed := by
  constructor <;> simp [Tip.zeroed, domains]

theorem fits_nil (lapic : Lapic) : Fits lapic [] := by
  constructor <;> simp [domains]

namespace Table

variable (t : Table) {type : Nat} {handler : Nat → Tip → Except Fault Tip} {item : Nat → Option Item} {fuel n p : Nat}

/-- What a handler does, and the loop for an entry of another type. -/
def Handles (lapic : Lapic) (type : Nat) (handler : Nat → Tip → Except Fault Tip) (item : Nat → Option Item) : Prop :=
  ∀ p tip, (if t.type p = type then handler p tip else .ok tip) =
    match item p with
    | none => .ok tip
    | some i => i.handle lapic tip

theorem handles_lapic (lapic : Lapic) : t.Handles lapic typeLapic (fun p => t.parseLapic p lapic) t.lapicItem := by
  intro p tip
  change (if t.type p = typeLapic then t.parseLapic p lapic tip else .ok tip) = _
  unfold lapicItem parseLapic
  by_cases ht : t.type p = typeLapic
  · by_cases he : Lapic.enabled t p
    · rw [if_pos ht, if_pos he, if_pos ⟨ht, he⟩]
      rfl
    · rw [if_pos ht, if_neg he, if_neg fun h : _ ∧ _ => he h.2]
  · simp [ht]

theorem handles_memory (lapic : Lapic) : t.Handles lapic typeMas (fun p => t.parseMemory p) t.memoryItem := by
  intro p tip
  change (if t.type p = typeMas then t.parseMemory p tip else .ok tip) = _
  unfold memoryItem parseMemory
  by_cases ht : t.type p = typeMas
  · by_cases he : Memory.enabled t p
    · by_cases hn : Memory.nvm t p
      · simp [ht, he, hn]
      · simp only [ht, he, hn, if_true, Bool.not_true, not_false_eq_true, and_self, Bool.false_eq_true, if_false]
        rfl
    · simp [ht, he]
  · simp [ht]

theorem handles_x2apic (lapic : Lapic) : t.Handles lapic typeX2apic (fun p => t.parseX2apic p lapic) t.x2apicItem := by
  intro p tip
  change (if t.type p = typeX2apic then t.parseX2apic p lapic tip else .ok tip) = _
  unfold x2apicItem parseX2apic
  by_cases ht : t.type p = typeX2apic
  · by_cases he : X2apic.enabled t p
    · rw [if_pos ht, if_pos he, if_pos ⟨ht, he⟩]
      rfl
    · rw [if_pos ht, if_neg he, if_neg fun h : _ ∧ _ => he h.2]
  · simp [ht]

variable {t}

theorem parseType_succ : t.parseType type handler (fuel + 1) p tip =
    if p < t.length then
      (if t.type p = type then handler p tip else .ok tip) >>= t.parseType type handler fuel (p + t.size p)
    else .ok tip := by
  rw [parseType]
  split
  · split <;> rfl
  · rfl

theorem entries_of_lt (hp : p < t.length) : t.entries (n + 1) p = p :: t.entries n (p + t.size p) := if_pos hp

theorem entries_of_le (hp : ¬p < t.length) : t.entries n p = [] := by
  cases n with
  | zero => rfl
  | succ n => exact if_neg hp

theorem parseType_eq (hh : t.Handles lapic type handler item) (hz : ∀ q ∈ t.entries n p, t.size q ≠ 0)
    (hn : t.length ≤ p + n) (hfuel : n < fuel) :
    t.parseType type handler fuel p tip =
      ((t.entries n p).filterMap item).foldlM (fun tip i => i.handle lapic tip) tip := by
  induction fuel generalizing n p tip with
  | zero => omega
  | succ fuel ih =>
    rw [parseType_succ]
    by_cases hp : p < t.length
    · obtain ⟨m, rfl⟩ : ∃ m, n = m + 1 := ⟨n - 1, by omega⟩
      rw [entries_of_lt hp] at hz ⊢
      have hsize := hz p (by simp)
      have hrest : ∀ tip, t.parseType type handler fuel (p + t.size p) tip =
          ((t.entries m (p + t.size p)).filterMap item).foldlM (fun tip i => i.handle lapic tip) tip := fun tip =>
        ih (fun q hq => hz q (by simp [hq])) (by omega) (by omega)
      rw [if_pos hp, hh p tip, List.filterMap_cons]
      cases hi : item p with
      | none => exact hrest tip
      | some i =>
        change i.handle lapic tip >>= _ = _
        rw [List.foldlM_cons]
        cases i.handle lapic tip with
        | error e => rfl
        | ok tip' => exact hrest tip'
    · rw [if_neg hp, entries_of_le hp]
      rfl

theorem parseType_stuck (hz : ∃ n, ∃ q ∈ t.entries n p, t.size q = 0) :
    ∃ e, t.parseType type handler fuel p tip = .error e := by
  induction fuel generalizing p tip with
  | zero => exact ⟨_, rfl⟩
  | succ fuel ih =>
    obtain ⟨n, q, hq, h0⟩ := hz
    by_cases hp : p < t.length
    · have hnext : ∃ n, ∃ q ∈ t.entries n (p + t.size p), t.size q = 0 := by
        cases n with
        | zero => simp [entries] at hq
        | succ n =>
          rw [entries_of_lt hp] at hq
          rcases List.mem_cons.mp hq with rfl | hq
          · refine ⟨1, q, ?_, h0⟩
            rw [h0, Nat.add_zero, entries_of_lt hp]
            exact List.mem_cons_self
          · exact ⟨n, q, hq, h0⟩
      rw [parseType_succ, if_pos hp]
      cases (if t.type p = type then handler p tip else .ok tip) with
      | error e => exact ⟨e, rfl⟩
      | ok tip' => exact ih hnext
    · rw [entries_of_le hp] at hq
      simp at hq

theorem parseType_mono (h : t.parseType type handler fuel p tip = .ok tip') (k : Nat) :
    t.parseType type handler (fuel + k) p tip = .ok tip' := by
  induction fuel generalizing p tip with
  | zero => cases h
  | succ fuel ih =>
    rw [show fuel + 1 + k = fuel + k + 1 by omega]
    rw [parseType_succ] at h ⊢
    by_cases hp : p < t.length
    · rw [if_pos hp] at h ⊢
      cases hr : (if t.type p = type then handler p tip else .ok tip) with
      | error e =>
        rw [hr] at h
        cases h
      | ok tip₁ =>
        rw [hr] at h
        exact ih h
    · rw [if_neg hp] at h ⊢
      exact h

theorem parse_eq (hz : ∀ p ∈ t.offsets, t.size p ≠ 0) (hfuel : t.length < fuel) :
    t.parse lapic fuel = t.items.foldlM (fun tip i => i.handle lapic tip) .zeroed := by
  have hend : t.length ≤ first + t.length := Nat.le_add_left ..
  have hm : ∀ tip, t.parseType typeMas (fun p => t.parseMemory p) fuel first tip = _ := fun _ =>
    parseType_eq (t.handles_memory lapic) hz hend hfuel
  have hx : ∀ tip, t.parseType typeX2apic (fun p => t.parseX2apic p lapic) fuel first tip = _ := fun _ =>
    parseType_eq (t.handles_x2apic lapic) hz hend hfuel
  unfold parse items
  rw [List.foldlM_append, List.foldlM_append, parseType_eq (t.handles_lapic lapic) hz hend hfuel, bind_assoc]
  simp only [hm, hx]
  rfl

theorem parse_mono (h : t.parse lapic fuel = .ok tip) (k : Nat) : t.parse lapic (fuel + k) = .ok tip := by
  unfold parse at h ⊢
  cases h₁ : t.parseType typeLapic (fun p => t.parseLapic p lapic) fuel first .zeroed with
  | error e =>
    rw [h₁] at h
    cases h
  | ok tip₁ =>
    rw [h₁] at h
    rw [parseType_mono h₁]
    change t.parseType typeMas (fun p => t.parseMemory p) fuel first tip₁ >>= _ = _ at h
    change t.parseType typeMas (fun p => t.parseMemory p) (fuel + k) first tip₁ >>= _ = _
    cases h₂ : t.parseType typeMas (fun p => t.parseMemory p) fuel first tip₁ with
    | error e =>
      rw [h₂] at h
      cases h
    | ok tip₂ =>
      rw [h₂] at h
      rw [parseType_mono h₂]
      exact parseType_mono h k

theorem parse_sizes (h : t.parse lapic fuel = .ok tip) : ∀ p ∈ t.offsets, t.size p ≠ 0 := by
  intro p hp h0
  obtain ⟨e, he⟩ : ∃ e, t.parseType typeLapic (fun p => t.parseLapic p lapic) fuel first .zeroed = .error e :=
    parseType_stuck ⟨t.length, p, hp, h0⟩
  unfold parse at h
  rw [he] at h
  cases h

theorem parse_fits (h : t.parse lapic fuel = .ok tip) : Fits lapic t.items := by
  have hlong := parse_mono h (t.length + 1)
  rw [parse_eq (parse_sizes h) (by omega)] at hlong
  rcases handleAll_eq (describes_zeroed lapic) (fits_nil lapic) t.items with ⟨hf, -⟩ | ⟨-, e, he⟩
  · exact hf
  · rw [he] at hlong
    cases hlong

end Table

/-- The pages are filled, and say what the table says. -/
def Table.Builds (t : Table) (lapic : Lapic) : Prop :=
  ∃ fuel tip, t.parse lapic fuel = .ok tip ∧ Describes lapic (domains t.items) t.items tip

theorem builds_iff (t : Table) (lapic : Lapic) :
    t.Builds lapic ↔ (∀ p ∈ t.offsets, t.size p ≠ 0) ∧ Fits lapic t.items := by
  constructor
  · rintro ⟨fuel, tip, hp, -⟩
    exact ⟨Table.parse_sizes hp, Table.parse_fits hp⟩
  · rintro ⟨hz, hf⟩
    rcases handleAll_eq (describes_zeroed lapic) (fits_nil lapic) t.items with ⟨-, tip, hp, h⟩ | ⟨hnf, -⟩
    · exact ⟨t.length + 1, tip, by rw [Table.parse_eq hz (by omega), hp], h⟩
    · exact (hnf hf).elim

def oneCpu : Lapic := ⟨fun c => c, 1, by decide⟩

def unknownCpu : Table := ⟨fun p => if p = 49 then 16 else if p = 51 then 7 else if p = 52 then 1 else 0, 64⟩

/-- The processor of the table is none of the kernel's CPUs. -/
theorem unknownCpu_not_builds : ¬unknownCpu.Builds oneCpu := by
  rintro ⟨fuel, tip, hp, -⟩
  have h := (Table.parse_fits hp).known 0 7 (by decide +kernel)
  exact absurd h (by decide +kernel)

end Tukija.Topo
