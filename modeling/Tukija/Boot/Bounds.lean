import Tukija.Boot.Tables

/-! When the loops over the tables come to their end, without an access outside
of the declared length. -/
namespace Tukija.Boot

open Tukija.Lib.Walk

@[simp] theorem read_ok_iff {length p n : Nat} {u : Unit} : Area.read length p n = .ok u ↔ p + n ≤ length := by
  unfold Area.read
  split_ifs with h <;> simp [h]

namespace Area

variable {a : Area} {σ : Type} {first type stop fuel p : Nat} {s r : σ} {handler visit : Nat → σ → Except Fault σ}

theorem field_lt (a : Area) (p n : Nat) : a.field p n < 2 ^ (8 * n) := by
  unfold field
  induction n generalizing p with
  | zero => exact Nat.two_pow_pos _
  | succ n ih =>
    have hbyte := (a.byte p).toNat_lt
    have hrest := ih (p + 1)
    rw [Topo.Table.field, Nat.mul_succ, Nat.pow_add, Nat.mul_comm]
    dsimp only
    omega

/-! ## Entries -/

/-- The entries from `first` on, below `stop`. -/
def offsets (a : Area) (first stop : Nat) : List Nat :=
  (a.path stop).positions (a.length + 1) first

/-- The entry has bytes for its type and length, and the latter is not 0. -/
def Proper (a : Area) (p : Nat) : Prop := a.field (p + 1) 1 ≠ 0 ∧ p + 2 ≤ a.length

theorem head_ok_iff : (a.entries stop visit).head p = .ok () ↔ p + 2 ≤ a.length := by
  simp only [entries, bind_ok_iff, read_ok_iff]
  constructor
  · rintro ⟨-, -, h⟩
    omega
  · intro h
    exact ⟨(), by omega, by omega⟩

theorem good_iff : (a.entries stop visit).Good p ↔ a.Proper p := by
  unfold Walker.Good Proper
  rw [head_ok_iff, and_comm]
  exact and_congr_left' ⟨fun h => h rfl, fun h _ => h⟩

theorem head_lt :
    ∀ q, (a.entries stop visit).more q = true → (a.entries stop visit).head q = .ok () → q < a.length := by
  intro q _ h
  have := head_ok_iff.mp h
  omega

theorem visited_eq : (a.entries stop visit).visited (a.length + 1) first = a.offsets first stop :=
  List.filter_eq_self.mpr fun _ _ => rfl

theorem entries_ok (h : (a.entries stop visit).run .endless fuel first s = .ok r) :
    (∀ p ∈ a.offsets first stop, a.Proper p) ∧ (a.offsets first stop).foldlM (fun s p => visit p s) s = .ok r := by
  obtain ⟨hgood, hfold⟩ :=
    (Walker.returns_iff head_lt (show a.length - first < a.length + 1 by omega)).mp ⟨fuel, h⟩
  rw [visited_eq] at hfold
  exact ⟨fun p hp => good_iff.mp (hgood p hp), hfold⟩

theorem entries_eq (hp : ∀ p ∈ a.offsets first stop, a.Proper p) (hfuel : a.length < fuel) :
    (a.entries stop visit).run .endless fuel first s = (a.offsets first stop).foldlM (fun s p => visit p s) s := by
  rw [Walker.run_eq head_lt (show a.length - first < a.length + 1 by omega)
    (fun p h => good_iff.mpr (hp p h)) hfuel, visited_eq]
  rfl

theorem parseType_ok (h : a.parseType first type handler fuel s = .ok r) :
    (∀ p ∈ a.offsets first a.length, a.Proper p) ∧
      (a.offsets first a.length).foldlM (fun s p => if a.field p 1 = type then handler p s else .ok s) s = .ok r :=
  entries_ok h

theorem parseType_eq (hp : ∀ p ∈ a.offsets first a.length, a.Proper p) (hfuel : a.length < fuel) :
    a.parseType first type handler fuel s =
      (a.offsets first a.length).foldlM (fun s p => if a.field p 1 = type then handler p s else .ok s) s :=
  entries_eq hp hfuel

def afterPass (a : Area) (type : Nat) (after : σ → Nat → σ) (s : σ) (p : Nat) : σ :=
  if a.field p 1 = type then after s p else s

theorem pass_ok_iff {Can : σ → Nat → Prop} {after : σ → Nat → σ}
    (hh : ∀ p s r, handler p s = .ok r ↔ Can s p ∧ after s p = r) {l : List Nat} :
    l.foldlM (fun s p => if a.field p 1 = type then handler p s else .ok s) s = .ok r ↔
      (∀ u p v, l = u ++ p :: v → a.field p 1 = type → Can (u.foldl (a.afterPass type after) s) p) ∧
        l.foldl (a.afterPass type after) s = r := by
  have hf : ∀ s p r, (if a.field p 1 = type then handler p s else .ok s) = .ok r ↔
      (a.field p 1 = type → Can s p) ∧ a.afterPass type after s p = r := by
    intro s p r
    unfold afterPass
    split_ifs with ht
    · rw [hh, imp_iff_right ht]
    · exact ⟨fun h => ⟨fun h' => absurd h' ht, Except.ok.inj h⟩, fun h => congrArg Except.ok h.2⟩
  exact foldlM_ok_iff hf

theorem parseType_of_can (type : Nat) {Can : σ → Nat → Prop} {after : σ → Nat → σ}
    (hh : ∀ p s r, handler p s = .ok r ↔ Can s p ∧ after s p = r) (hp : ∀ p ∈ a.offsets first a.length, a.Proper p)
    (hcan : ∀ u p v, a.offsets first a.length = u ++ p :: v → a.field p 1 = type →
      Can (u.foldl (a.afterPass type after) s) p) :
    a.parseType first type handler (a.length + 1) s = .ok ((a.offsets first a.length).foldl (a.afterPass type after) s) := by
  rw [parseType_eq hp (Nat.lt_succ_self _)]
  exact (pass_ok_iff hh).mpr ⟨hcan, rfl⟩

theorem parseUnits_ok {handler : Nat → Unit → Except Fault Unit} (h : a.parseType first type handler fuel () = .ok ()) :
    ∀ p ∈ a.offsets first a.length, a.Proper p ∧ (a.field p 1 = type → handler p () = .ok ()) := by
  obtain ⟨hp, hfold⟩ := parseType_ok h
  intro p hmem
  refine ⟨hp p hmem, fun ht => ?_⟩
  have := foldlM_unit_ok_iff.mp hfold p hmem
  rwa [if_pos ht] at this

theorem parseUnits_eq {handler : Nat → Unit → Except Fault Unit} (hfuel : a.length < fuel)
    (h : ∀ p ∈ a.offsets first a.length, a.Proper p ∧ (a.field p 1 = type → handler p () = .ok ())) :
    a.parseType first type handler fuel () = .ok () := by
  rw [parseType_eq (fun p hp => (h p hp).1) hfuel]
  refine foldlM_unit_ok_iff.mpr fun p hp => ?_
  split_ifs with ht
  · exact (h p hp).2 ht
  · rfl

/-! ## Affinity -/

def sratNeed (a : Area) (p : Nat) : Nat :=
  if a.field p 1 = Topo.Table.typeLapic then if Topo.Table.Lapic.enabled a.srat p then 12 else 8
  else if a.field p 1 = Topo.Table.typeMas then 32
  else if a.field p 1 = Topo.Table.typeX2apic then 16
  else 2

theorem sratLapic_ok_iff : a.sratLapic p () = .ok () ↔
    p + (if Topo.Table.Lapic.enabled a.srat p then 12 else 8) ≤ a.length := by
  unfold sratLapic
  split_ifs
  · simp only [bind_ok_iff, read_ok_iff, exists_const]
    omega
  · simp only [bind_ok_iff, read_ok_iff, pure_ok_iff, exists_const, and_true]

theorem sratMemory_ok_iff : a.sratMemory p () = .ok () ↔ p + 32 ≤ a.length := by
  unfold sratMemory
  split_ifs
  · simp only [bind_ok_iff, read_ok_iff, exists_const]
    omega
  · simp only [bind_ok_iff, read_ok_iff, pure_ok_iff, exists_const, and_true]

theorem sratX2apic_ok_iff : a.sratX2apic p () = .ok () ↔ p + 16 ≤ a.length := by
  unfold sratX2apic
  split_ifs
  · simp only [bind_ok_iff, read_ok_iff, exists_const]
    omega
  · simp only [bind_ok_iff, read_ok_iff, pure_ok_iff, exists_const, and_true]
    omega

theorem parseSrat_returns_iff : (∃ fuel, a.parseSrat fuel = .ok ()) ↔
    ∀ p ∈ a.offsets Topo.Table.first a.length, a.field (p + 1) 1 ≠ 0 ∧ p + a.sratNeed p ≤ a.length := by
  constructor
  · rintro ⟨fuel, h⟩ p hp
    obtain ⟨_, h₁, h⟩ := bind_ok_iff.mp h
    obtain ⟨_, h₂, h₃⟩ := bind_ok_iff.mp h
    obtain ⟨⟨hne, hlen⟩, hl⟩ := parseUnits_ok h₁ p hp
    have hm := (parseUnits_ok h₂ p hp).2
    have hx := (parseUnits_ok h₃ p hp).2
    rw [sratLapic_ok_iff] at hl
    rw [sratMemory_ok_iff] at hm
    rw [sratX2apic_ok_iff] at hx
    refine ⟨hne, ?_⟩
    unfold sratNeed
    split_ifs with ht he ht' ht''
    · simpa [he] using hl ht
    · simpa [he] using hl ht
    · exact hm ht'
    · exact hx ht''
    · exact hlen
  · intro h
    have hp : ∀ p ∈ a.offsets Topo.Table.first a.length, a.Proper p := fun p hp => ⟨(h p hp).1, by
      have := (h p hp).2
      unfold sratNeed at this
      split_ifs at this <;> omega⟩
    have hpass {type handler} (hh : ∀ p, a.field p 1 = type → p + a.sratNeed p ≤ a.length → handler p () = .ok ()) :
        a.parseType Topo.Table.first type handler (a.length + 1) () = .ok () :=
      parseUnits_eq (Nat.lt_succ_self _) fun p hm => ⟨hp p hm, fun ht => hh p ht (h p hm).2⟩
    refine ⟨a.length + 1, ?_⟩
    refine bind_ok_iff.mpr ⟨(), hpass ?_, bind_ok_iff.mpr ⟨(), hpass ?_, hpass ?_⟩⟩
    · intro p ht hn
      rw [sratNeed, if_pos ht] at hn
      exact sratLapic_ok_iff.mpr hn
    · intro p ht hn
      rw [sratNeed, ht] at hn
      exact sratMemory_ok_iff.mpr hn
    · intro p ht hn
      rw [sratNeed, ht] at hn
      exact sratX2apic_ok_iff.mpr hn

/-! ## Interrupt controllers -/

def madtNeed (a : Area) (p : Nat) : Nat :=
  if a.field p 1 = typeLapic then 8
  else if a.field p 1 = typeX2apic then 12
  else if a.field p 1 = typeIoapic then 12
  else if a.field p 1 = typeIntr then if (a.intrUnknown p || a.intrBus p) then 8 else 10
  else 2

/-- `Cpu::online` behind an entry for a processor. -/
def nextOnline (enabled : Nat → Bool) (online p : Nat) : Nat :=
  if enabled p && online < numCpu then online + 1 else online

def enabledOf (a : Area) (type : Nat) (enabled : Nat → Bool) (p : Nat) : Bool := a.field p 1 = type && enabled p

theorem foldl_nextOnline {enabled : Nat → Bool} {l : List Nat} {online : Nat} (h : online ≤ numCpu) :
    l.foldl (a.afterPass type (nextOnline enabled)) online =
      min numCpu (online + l.countP (a.enabledOf type enabled)) := by
  induction l generalizing online with
  | nil => simpa using h
  | cons p l ih =>
    have hstep : a.afterPass type (nextOnline enabled) online p =
        if a.enabledOf type enabled p && online < numCpu then online + 1 else online := by
      unfold afterPass nextOnline enabledOf
      by_cases ht : a.field p 1 = type <;> simp [ht]
    rw [List.foldl_cons, hstep, List.countP_cons]
    split_ifs with h₁ h₂ h₂
    · rw [ih (by simp at h₁; omega)]
      congr 1
      omega
    · simp [h₂] at h₁
    · rw [ih h]
      simp [h₂] at h₁
      omega
    · rw [ih h]
      rfl

theorem madtLapic_ok_iff (a : Area) (p online r : Nat) : a.madtLapic p online = .ok r ↔
    p + 8 ≤ a.length ∧ nextOnline a.lapicEnabled online p = r := by
  unfold madtLapic nextOnline
  split_ifs
  · simp only [bind_ok_iff, read_ok_iff, pure_ok_iff, exists_const]
    omega
  · simp only [bind_ok_iff, read_ok_iff, pure_ok_iff, exists_const]

theorem madtX2apic_ok_iff (a : Area) (p online r : Nat) : a.madtX2apic p online = .ok r ↔
    p + (if a.x2apicEnabled p && online < numCpu then 16 else 12) ≤ a.length ∧
      nextOnline a.x2apicEnabled online p = r := by
  unfold madtX2apic nextOnline
  split_ifs
  · simp only [bind_ok_iff, read_ok_iff, pure_ok_iff, exists_const]
    omega
  · simp only [bind_ok_iff, read_ok_iff, pure_ok_iff, exists_const]

theorem madtIoapic_ok_iff (a : Area) (p online r : Nat) :
    a.madtIoapic p online = .ok r ↔ p + 12 ≤ a.length ∧ online = r := by
  unfold madtIoapic
  simp only [bind_ok_iff, read_ok_iff, pure_ok_iff, exists_const]
  omega

theorem madtIntr_ok_iff (a : Area) (p online r : Nat) : a.madtIntr p online = .ok r ↔
    p + (if (a.intrUnknown p || a.intrBus p) then 8 else 10) ≤ a.length ∧ online = r := by
  unfold madtIntr
  cases a.intrUnknown p with
  | true =>
    simp only [bind_ok_iff, read_ok_iff, exists_const, if_true, pure_ok_iff, Bool.true_or]
    omega
  | false =>
    cases a.intrBus p with
    | true =>
      simp only [bind_ok_iff, read_ok_iff, exists_const, Bool.false_eq_true, if_false, if_true, pure_ok_iff, Bool.or_true]
      omega
    | false =>
      simp only [bind_ok_iff, read_ok_iff, exists_const, Bool.false_eq_true, if_false, pure_ok_iff, Bool.or_false]
      omega

/-- How many processors there are before the entries of the second pass behind `u`. -/
def processors (a : Area) (u : List Nat) : Nat :=
  (a.offsets madtFirst a.length).countP (a.enabledOf typeLapic a.lapicEnabled) +
    u.countP (a.enabledOf typeX2apic a.x2apicEnabled)

theorem online_lt_iff {u : List Nat} :
    u.foldl (a.afterPass typeX2apic (nextOnline a.x2apicEnabled))
      ((a.offsets madtFirst a.length).foldl (a.afterPass typeLapic (nextOnline a.lapicEnabled)) 0) < numCpu ↔
    a.processors u < numCpu := by
  rw [foldl_nextOnline (Nat.zero_le _), foldl_nextOnline (Nat.min_le_left ..)]
  unfold processors
  omega

theorem parseMadt_returns_iff : (∃ fuel online, a.parseMadt fuel = .ok online) ↔
    (∀ p ∈ a.offsets madtFirst a.length, a.field (p + 1) 1 ≠ 0 ∧ p + a.madtNeed p ≤ a.length) ∧
      ∀ u p v, a.offsets madtFirst a.length = u ++ p :: v → a.field p 1 = typeX2apic → a.x2apicEnabled p = true →
        a.processors u < numCpu → p + 16 ≤ a.length := by
  constructor
  · rintro ⟨fuel, online, h⟩
    obtain ⟨n₁, h₁, h⟩ := bind_ok_iff.mp h
    obtain ⟨n₂, h₂, h⟩ := bind_ok_iff.mp h
    obtain ⟨n₃, h₃, h₄⟩ := bind_ok_iff.mp h
    obtain ⟨hp, h₁⟩ := parseType_ok h₁
    obtain ⟨hl, rfl⟩ := (pass_ok_iff a.madtLapic_ok_iff).mp h₁
    obtain ⟨hx, rfl⟩ := (pass_ok_iff a.madtX2apic_ok_iff).mp (parseType_ok h₂).2
    obtain ⟨hi, rfl⟩ := (pass_ok_iff a.madtIoapic_ok_iff).mp (parseType_ok h₃).2
    obtain ⟨ho, -⟩ := (pass_ok_iff a.madtIntr_ok_iff).mp (parseType_ok h₄).2
    constructor
    · intro p hmem
      obtain ⟨u, v, e⟩ := List.append_of_mem hmem
      refine ⟨(hp p hmem).1, ?_⟩
      unfold madtNeed
      split_ifs with hlapic hx2apic hioapic hintr hc
      · exact hl u p v e hlapic
      · have := hx u p v e hx2apic
        split_ifs at this <;> omega
      · exact hi u p v e hioapic
      · simpa [hc] using ho u p v e hintr
      · simpa [hc] using ho u p v e hintr
      · exact (hp p hmem).2
    · intro u p v e ht he hroom
      have := hx u p v e ht
      rwa [if_pos (by simp [he, online_lt_iff.mpr hroom])] at this
  · rintro ⟨h, hx⟩
    have hp : ∀ p ∈ a.offsets madtFirst a.length, a.Proper p := fun p hp => ⟨(h p hp).1, by
      have := (h p hp).2
      unfold madtNeed at this
      split_ifs at this <;> omega⟩
    have hneed : ∀ u p v, a.offsets madtFirst a.length = u ++ p :: v → p + a.madtNeed p ≤ a.length :=
      fun u p v e => (h p (by simp [e])).2
    have hl := parseType_of_can typeLapic (s := 0) a.madtLapic_ok_iff hp fun u p v e ht => by
      have := hneed u p v e
      rwa [madtNeed, if_pos ht] at this
    have hx := parseType_of_can typeX2apic a.madtX2apic_ok_iff hp fun u p v e ht => by
      split_ifs with hc
      · simp only [Bool.and_eq_true, decide_eq_true_eq] at hc
        exact hx u p v e ht hc.1 (online_lt_iff.mp hc.2)
      · have := hneed u p v e
        rwa [madtNeed, ht] at this
    have hi {s : Nat} := parseType_of_can typeIoapic (s := s) a.madtIoapic_ok_iff hp fun u p v e ht => by
      have := hneed u p v e
      rwa [madtNeed, ht] at this
    have ho {s : Nat} := parseType_of_can typeIntr (s := s) a.madtIntr_ok_iff hp fun u p v e ht => by
      have := hneed u p v e
      rwa [madtNeed, ht] at this
    exact ⟨a.length + 1, _, bind_ok_iff.mpr ⟨_, hl, bind_ok_iff.mpr ⟨_, hx, bind_ok_iff.mpr ⟨_, hi, ho⟩⟩⟩⟩

/-! ## Units for remapping -/

theorem pages_limit {limit fuel hpa : Nat} (hdvd : 2 ^ 12 ∣ hpa) (hlt : hpa < 2 ^ 64)
    (h : pages limit fuel hpa = .ok ()) : limit ≤ 2 ^ 64 - 2 ^ 12 := by
  induction fuel generalizing hpa with
  | zero => cases h
  | succ fuel ih =>
    rw [pages] at h
    split_ifs at h with hc
    · refine ih ?_ (Nat.mod_lt _ (by decide)) h
      exact (Nat.dvd_mod_iff (by decide)).mpr (Nat.dvd_add hdvd (dvd_refl _))
    · omega

theorem pages_ok {limit fuel hpa : Nat} (hlimit : limit ≤ 2 ^ 64 - 2 ^ 12) (hfuel : limit ≤ hpa + 2 ^ 12 * fuel) :
    pages limit (fuel + 1) hpa = .ok () := by
  induction fuel generalizing hpa with
  | zero => rw [pages, if_neg (by omega)]
  | succ fuel ih =>
    rw [pages]
    split_ifs with hc
    · rw [Nat.mod_eq_of_lt (by omega)]
      exact ih (by omega)
    · rfl

/-- The scopes of a unit, from `first` on. -/
def scopes (a : Area) (r first : Nat) : List Nat := a.offsets first (r + a.remapLength r)

def dmarNeed (a : Area) (s : Nat) : Nat :=
  if a.field s 1 = 1 ∨ a.field s 1 = 2 ∨ a.field s 1 = 3 ∨ a.field s 1 = 4 then 8 else 2

def rmrrNeed (a : Area) (s : Nat) : Nat := if a.field s 1 = 1 then 8 else 2

def ScopesFit (a : Area) (r first : Nat) (need : Nat → Nat) : Prop :=
  ∀ s ∈ a.scopes r first, a.field (s + 1) 1 ≠ 0 ∧ s + need s ≤ a.length

theorem parseScopes_iff {reads : Nat → Except Fault Unit} {need : Nat → Nat} {r : Nat}
    (hn : ∀ s, reads s = .ok () ∧ s + 2 ≤ a.length ↔ s + need s ≤ a.length) :
    (a.parseScopes fuel r reads first = .ok () → a.ScopesFit r first need) ∧
      (a.ScopesFit r first need → a.length < fuel → a.parseScopes fuel r reads first = .ok ()) := by
  constructor
  · intro h s hs
    obtain ⟨hp, hfold⟩ := entries_ok h
    exact ⟨(hp s hs).1, (hn s).mp ⟨foldlM_unit_ok_iff.mp hfold s hs, (hp s hs).2⟩⟩
  · intro h hfuel
    have hp : ∀ s ∈ a.offsets first (r + a.remapLength r), a.Proper s :=
      fun s hs => ⟨(h s hs).1, ((hn s).mpr (h s hs).2).2⟩
    rw [parseScopes, entries_eq hp hfuel]
    exact foldlM_unit_ok_iff.mpr fun s hs => ((hn s).mpr (h s hs).2).1

theorem dmarScope_iff (s : Nat) : a.dmarScope s = .ok () ∧ s + 2 ≤ a.length ↔ s + a.dmarNeed s ≤ a.length := by
  unfold dmarScope dmarNeed readRid
  by_cases h₁ : a.field s 1 = 1 ∨ a.field s 1 = 2
  · rw [if_pos h₁, if_pos (by tauto), read_ok_iff]
    omega
  · by_cases h₂ : a.field s 1 = 3 ∨ a.field s 1 = 4
    · rw [if_neg h₁, if_pos h₂, if_pos (by tauto)]
      simp only [bind_ok_iff, read_ok_iff, exists_const]
      omega
    · rw [if_neg h₁, if_neg h₂, if_neg (by tauto)]
      exact and_iff_right rfl

theorem rmrrScope_iff (s : Nat) : a.rmrrScope s = .ok () ∧ s + 2 ≤ a.length ↔ s + a.rmrrNeed s ≤ a.length := by
  unfold rmrrScope rmrrNeed readRid
  split_ifs
  · rw [read_ok_iff]
    omega
  · exact and_iff_right rfl

def UnitFits (a : Area) (invalid : Nat → Bool) (r : Nat) : Prop :=
  r + 16 ≤ a.length ∧ (invalid (a.field (r + 8) 8) = false → a.ScopesFit r (r + 16) a.dmarNeed)

def ReservedFits (a : Area) (r : Nat) : Prop :=
  r + 24 ≤ a.length ∧ a.field (r + 16) 8 ≤ 2 ^ 64 - 2 ^ 12 ∧ a.ScopesFit r (r + 24) a.rmrrNeed

def RemapFits (a : Area) (invalid : Nat → Bool) (r : Nat) : Prop :=
  a.remapLength r ≠ 0 ∧ r + 4 ≤ a.length ∧ (a.field r 2 = typeDmar → a.UnitFits invalid r) ∧
    (a.field r 2 = typeRmrr → a.ReservedFits r)

variable {invalid : Nat → Bool} {q : Nat}

theorem parseUnit_ok (h : a.parseUnit fuel q invalid = .ok ()) : a.UnitFits invalid q := by
  obtain ⟨_, h₁, h⟩ := bind_ok_iff.mp h
  refine ⟨by simpa using h₁, fun hv => ?_⟩
  rw [hv, if_neg (by decide)] at h
  obtain ⟨_, -, h⟩ := bind_ok_iff.mp h
  exact (parseScopes_iff dmarScope_iff).1 h

theorem parseUnit_of_fits (h : a.UnitFits invalid q) (hfuel : a.length < fuel) : a.parseUnit fuel q invalid = .ok () := by
  obtain ⟨hlen, hs⟩ := h
  refine bind_ok_iff.mpr ⟨(), by simpa using hlen, ?_⟩
  cases hv : invalid (a.field (q + 8) 8) with
  | true => rfl
  | false =>
    exact bind_ok_iff.mpr ⟨(), by rw [read_ok_iff]; omega, (parseScopes_iff dmarScope_iff).2 (hs hv) hfuel⟩

theorem parseReserved_ok (h : a.parseReserved fuel q = .ok ()) : a.ReservedFits q := by
  obtain ⟨_, -, h⟩ := bind_ok_iff.mp h
  obtain ⟨_, h₁, h⟩ := bind_ok_iff.mp h
  obtain ⟨_, h₂, h⟩ := bind_ok_iff.mp h
  have hbase := a.field_lt (q + 8) 8
  exact ⟨by simpa using h₁, pages_limit (Nat.dvd_mul_left ..) (by omega) h₂, (parseScopes_iff rmrrScope_iff).1 h⟩

theorem parseReserved_of_fits (h : a.ReservedFits q) (hfuel : a.length < fuel) (hpages : 2 ^ 52 < fuel) :
    a.parseReserved fuel q = .ok () := by
  obtain ⟨hlen, hlimit, hs⟩ := h
  obtain ⟨n, rfl⟩ : ∃ n, fuel = n + 1 := ⟨fuel - 1, by omega⟩
  refine bind_ok_iff.mpr ⟨(), by rw [read_ok_iff]; omega, bind_ok_iff.mpr ⟨(), by rw [read_ok_iff]; omega, ?_⟩⟩
  exact bind_ok_iff.mpr ⟨(), pages_ok hlimit (by omega), (parseScopes_iff rmrrScope_iff).2 hs hfuel⟩

def units (a : Area) : List Nat := a.remapPath.positions (a.length + 1) dmarFirst

theorem remaps_good_iff : (a.remaps fuel invalid).Good q ↔ a.remapLength q ≠ 0 ∧ q + 4 ≤ a.length := by
  unfold Walker.Good
  simp only [remaps, remapPath, bind_ok_iff, read_ok_iff, exists_const, forall_const]
  omega

theorem remaps_lt :
    ∀ q, (a.remaps fuel invalid).more q = true → (a.remaps fuel invalid).head q = .ok () → q < a.length := by
  intro q _ h
  simp only [remaps, bind_ok_iff, read_ok_iff, exists_const] at h
  omega

theorem remaps_visited : (a.remaps fuel invalid).visited (a.length + 1) dmarFirst = a.units :=
  List.filter_eq_self.mpr fun _ _ => rfl

theorem parseRemaps_ok (h : (a.remaps fuel invalid).run .endless n dmarFirst () = .ok ()) :
    ∀ q ∈ a.units, a.RemapFits invalid q := by
  obtain ⟨hgood, hfold⟩ :=
    (Walker.returns_iff remaps_lt (show a.length - dmarFirst < a.length + 1 by omega)).mp ⟨n, h⟩
  rw [remaps_visited] at hfold
  intro q hq
  have hvisit := foldlM_unit_ok_iff.mp hfold q hq
  obtain ⟨hne, hlen⟩ := remaps_good_iff.mp (hgood q hq)
  change a.parseRemap fuel q invalid = .ok () at hvisit
  refine ⟨hne, hlen, fun ht => ?_, fun ht => ?_⟩
  · rw [parseRemap, if_pos ht] at hvisit
    exact parseUnit_ok hvisit
  · rw [parseRemap, ht, if_neg (by decide), if_pos rfl] at hvisit
    exact parseReserved_ok hvisit

theorem parseRemaps_of_fits (h : ∀ q ∈ a.units, a.RemapFits invalid q) (hfuel : a.length < fuel)
    (hpages : 2 ^ 52 < fuel) : (a.remaps fuel invalid).run .endless fuel dmarFirst () = .ok () := by
  rw [Walker.run_eq remaps_lt (show a.length - dmarFirst < a.length + 1 by omega)
    (fun q hq => remaps_good_iff.mpr ⟨(h q hq).1, (h q hq).2.1⟩) hfuel, remaps_visited]
  refine foldlM_unit_ok_iff.mpr fun q hq => ?_
  obtain ⟨-, -, hunit, hreserved⟩ := h q hq
  change a.parseRemap fuel q invalid = .ok ()
  unfold parseRemap
  split_ifs with hd hr
  · exact parseUnit_of_fits (hunit hd) hfuel
  · exact parseReserved_of_fits (hreserved hr) hfuel hpages
  · rfl

theorem parseDmar_returns_iff {iommuIntel : Bool} : (∃ fuel, a.parseDmar fuel iommuIntel invalid = .ok ()) ↔
    (iommuIntel = true → ∀ q ∈ a.units, a.RemapFits invalid q) := by
  unfold parseDmar
  cases iommuIntel with
  | false => exact ⟨fun _ => nofun, fun _ => ⟨0, rfl⟩⟩
  | true =>
    simp only [if_true]
    constructor
    · rintro ⟨fuel, h⟩ -
      exact parseRemaps_ok h
    · intro h
      obtain ⟨fuel, hfuel, hpages⟩ : ∃ fuel, a.length < fuel ∧ 2 ^ 52 < fuel :=
        ⟨a.length + 2 ^ 52 + 1, by omega, by omega⟩
      exact ⟨fuel, parseRemaps_of_fits (h trivial) hfuel hpages⟩

/-! ## Tags of the boot loader -/

variable {fn : Nat → σ → Except Fault σ}

def tags (a : Area) : List Nat := a.tagPath.positions (a.totalSize + 1) firstTag

theorem alignUp_eq_zero {n : Nat} (h : n < 2 ^ 32) : alignUp n = 0 ↔ n = 0 := by
  unfold alignUp
  omega

theorem tags_good_iff :
    (a.forEachTag fn).Good q ↔ q + 8 ≤ a.totalSize ∧ (a.tagEnd q = false → a.tagSize q ≠ 0) := by
  have h := alignUp_eq_zero (a.field_lt (q + 4) 4)
  unfold Walker.Good
  simp only [forEachTag, tagPath, bind_ok_iff, read_ok_iff, exists_const, ne_eq]
  unfold tagSize
  rw [h]
  refine and_congr_left' ?_
  omega

theorem tags_lt : ∀ q, (a.forEachTag fn).more q = true → (a.forEachTag fn).head q = .ok () → q < a.totalSize := by
  intro q _ h
  simp only [forEachTag, bind_ok_iff, read_ok_iff, exists_const] at h
  omega

theorem forEachTag_returns_iff : (∃ fuel, (a.forEachTag fn).run .endless fuel firstTag s = .ok r) ↔
    (∀ q ∈ a.tags, q + 8 ≤ a.totalSize ∧ (a.tagEnd q = false → a.tagSize q ≠ 0)) ∧
      (a.tags.filter (!a.tagEnd ·)).foldlM (fun s q => fn q s) s = .ok r := by
  rw [Walker.returns_iff tags_lt (show a.totalSize - firstTag < a.totalSize + 1 by omega)]
  exact and_congr_left' (forall₂_congr fun q _ => tags_good_iff)

end Area

/-- An affinity table of 50 bytes: the header, and an entry of length 0. -/
def emptyEntry : Area where
  byte p := if p = 0 then 0x53 else if p = 1 then 0x52 else if p = 2 then 0x41 else if p = 3 then 0x54
    else if p = 4 then 50 else if p = 9 then 145 else if p = 48 then 3 else 0
  base := spcLocalRemap
  le_base := le_rfl
  base_lt := by decide

end Tukija.Boot
