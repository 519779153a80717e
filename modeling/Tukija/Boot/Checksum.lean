import Tukija.Boot.Hip

/-! The checksum of the information page, from the first write until the root task
runs. -/
namespace Tukija.Boot.Info

theorem words64_zero : (words64 0).sum = 0 := by decide

theorem HipCpu.words_length (cpu : HipCpu) : cpu.words.length = 6 := rfl

theorem HipMem.words_length (mem : HipMem) : mem.words.length = 12 := rfl

theorem length_flatMap_const {α β : Type} {f : α → List β} {k : Nat} (h : ∀ a, (f a).length = k) (l : List α) :
    (l.flatMap f).length = k * l.length := by
  induction l with
  | nil => rfl
  | cons a l ih =>
    rw [List.flatMap_cons, List.length_append, h, ih, List.length_cons]
    exact (Nat.mul_succ ..).symm ▸ Nat.add_comm ..

namespace Hip

variable {hip : Hip}

/-- The page without the checksum and the address of the topology pages. -/
def others (hip : Hip) : Hip := { hip with checksum := 0, topoModel := 0 }

theorem words_sum (hip : Hip) : hip.words.sum = hip.others.words.sum + hip.checksum + (words64 hip.topoModel).sum := by
  unfold words others
  simp only [List.sum_append, List.sum_cons, List.sum_nil, words64_zero]
  abel

def Counted (hip : Hip) : Prop := hip.length = Info.memOffs + Info.memSize * hip.memDesc.length

theorem words_length (hip : Hip) : hip.words.length = 1572 + 12 * hip.memDesc.length := by
  have hcpu : ((List.range numCpu).flatMap fun i => (hip.cpuDesc i).words).length = 6 * (List.range numCpu).length :=
    length_flatMap_const (fun i => HipCpu.words_length (hip.cpuDesc i)) _
  have hmem : (hip.memDesc.flatMap HipMem.words).length = 12 * hip.memDesc.length :=
    length_flatMap_const HipMem.words_length _
  rw [List.length_range] at hcpu
  unfold words
  simp only [List.length_append, hcpu, hmem]
  simp only [words32, words64, List.length_cons, List.length_nil, numCpu]

theorem Counted.covered (h : hip.Counted) : hip.covered = hip.words := by
  unfold Counted at h
  unfold Hip.covered
  rw [List.take_of_length_le]
  rw [words_length, h]
  unfold Info.memOffs Info.memSize Info.cpuOffs Info.cpuSize numCpu
  omega

theorem foldl_sub (l : List (BitVec 16)) (c : BitVec 16) : l.foldl (fun c w => c - w) c = c - l.sum := by
  induction l generalizing c with
  | nil => simp
  | cons w l ih =>
    rw [List.foldl_cons, ih, List.sum_cons]
    abel

/-! ## Before the check -/

/-- Nothing has been written to the checksum and to the address of the topology
pages. -/
structure Fresh (hip : Hip) : Prop where
  checksum : hip.checksum = 0
  topoModel : hip.topoModel = 0
  counted : hip.length = 0 ∧ hip.memDesc = [] ∨ hip.Counted

theorem fresh_zero : zero.Fresh := ⟨rfl, rfl, .inl ⟨rfl, rfl⟩⟩

theorem Fresh.guard (h : hip.Fresh) : hip.guard.Fresh ∧ hip.guard.Counted := by
  unfold Hip.guard
  split_ifs with h0
  · rcases h.counted with ⟨-, hnil⟩ | hc
    · have hc : Counted { hip with length := Info.memOffs } := by
        unfold Counted
        rw [hnil]
        rfl
      exact ⟨⟨h.checksum, h.topoModel, .inr hc⟩, hc⟩
    · unfold Counted at hc
      rw [h0] at hc
      unfold Info.memOffs Info.cpuOffs at hc
      omega
  · rcases h.counted with ⟨h0', -⟩ | hc
    · exact absurd h0' h0
    · exact ⟨h, hc⟩

theorem Counted.withMemDesc (h : hip.Counted) (fn : HipMem → HipMem) : (hip.withMemDesc fn).Counted := by
  unfold Hip.withMemDesc
  split_ifs
  · exact h
  · unfold Counted at h ⊢
    simp only [List.length_append, List.length_singleton, Nat.mul_succ]
    omega

theorem withMemDesc_checksum (fn : HipMem → HipMem) : (hip.withMemDesc fn).checksum = hip.checksum := by
  unfold withMemDesc
  split_ifs <;> rfl

theorem withMemDesc_topoModel (fn : HipMem → HipMem) : (hip.withMemDesc fn).topoModel = hip.topoModel := by
  unfold withMemDesc
  split_ifs <;> rfl

theorem Fresh.write (h : hip.Fresh) (w : Write) : (w.apply hip).Fresh := by
  obtain ⟨hg, hc⟩ := h.guard
  cases w with
  | header => exact ⟨hg.checksum, hg.topoModel, .inr hc⟩
  | topoPhys phys => exact ⟨hg.checksum, hg.topoModel, .inr hc⟩
  | memDesc fn =>
    exact ⟨(withMemDesc_checksum fn).trans hg.checksum, (withMemDesc_topoModel fn).trans hg.topoModel,
      .inr (hc.withMemDesc fn)⟩
  | setFeature f => exact ⟨h.checksum, h.topoModel, h.counted⟩
  | clrFeature f => exact ⟨h.checksum, h.topoModel, h.counted⟩
  | addCpu id cpu => exact ⟨hg.checksum, hg.topoModel, .inr hc⟩

/-! ## The check -/

theorem Counted.describe (h : hip.Counted ∧ hip.checksum = 0 ∧ hip.topoModel = 0) (addr : BitVec 64)
    (fn : HipMem → HipMem) :
    (hip.describe addr fn).Counted ∧ (hip.describe addr fn).checksum = 0 ∧ (hip.describe addr fn).topoModel = 0 := by
  unfold Hip.describe
  split_ifs
  · exact h
  · rw [withMemDesc_checksum, withMemDesc_topoModel]
    exact ⟨h.1.withMemDesc fn, h.2⟩

theorem covered_addCheck (h : hip.Fresh) (rsdt xsdt pageL : BitVec 64) (freqTsc : BitVec 32) :
    (hip.addCheck rsdt xsdt pageL freqTsc).Counted ∧ (hip.addCheck rsdt xsdt pageL freqTsc).topoModel = 0 ∧
      (hip.addCheck rsdt xsdt pageL freqTsc).words.sum = 0 := by
  obtain ⟨hg, hc⟩ := h.guard
  unfold addCheck
  extract_lets h₀ h₁ h₂ h₃ h₄
  have hall : h₃.Counted ∧ h₃.checksum = 0 ∧ h₃.topoModel = 0 :=
    Counted.describe (Counted.describe (Counted.describe ⟨hc, hg.checksum, hg.topoModel⟩ ..) ..) ..
  obtain ⟨hcount, hsum, htopo⟩ := hall
  have hcount₄ : h₄.Counted := hcount
  refine ⟨hcount, htopo, ?_⟩
  have hwords := words_sum h₄
  rw [show h₄.checksum = 0 from hsum] at hwords
  rw [hcount₄.covered, foldl_sub, words_sum, hwords]
  change h₄.others.words.sum + (0 - (h₄.others.words.sum + 0 + (words64 h₄.topoModel).sum)) +
    (words64 h₄.topoModel).sum = 0
  abel

/-! ## The root task -/

theorem tipAddr_sum : (words64 tipAddr).sum = 0xeffc := by decide

theorem covered_tipVirt (hc : hip.Counted) (htopo : hip.topoModel = 0) (hsum : hip.words.sum = 0) (virt : BitVec 64) :
    (hip.tipVirt virt).covered.sum = (words64 virt).sum := by
  have hcount : (hip.tipVirt virt).Counted := hc
  have hwords := words_sum hip
  rw [hsum, htopo, words64_zero, add_zero] at hwords
  rw [hcount.covered, words_sum]
  change hip.others.words.sum + hip.checksum + (words64 virt).sum = (words64 virt).sum
  rw [← hwords, zero_add]

end Hip

/-- What is known about the page in each phase. -/
structure Inv (online : Nat) (s : State) : Prop where
  mem_lt : ∀ c ∈ s.arrived, c < online
  booting : s.phase = .booting → s.hip.Fresh
  /-- No CPU is left that could write to it. -/
  all : s.phase ≠ .booting → s.arrived.card = online
  checked : s.phase = .checked → s.hip.Counted ∧ s.hip.topoModel = 0 ∧ s.hip.words.sum = 0
  started : s.phase = .started → s.hip.covered.sum = 0xeffc

variable {online : Nat} {s s' : State}

theorem inv_init : Inv online .init := ⟨nofun, fun _ => Hip.fresh_zero, fun h => absurd rfl h, nofun, nofun⟩

theorem Inv.arrived_of_all (h : Inv online s) (hall : s.arrived.card = online) {cpu : Nat} (hcpu : cpu < online) :
    cpu ∈ s.arrived := by
  have hsub : s.arrived ⊆ Finset.range online := fun c hc => Finset.mem_range.mpr (h.mem_lt c hc)
  have heq := Finset.eq_of_subset_of_card_le hsub (by rw [Finset.card_range, hall])
  rw [heq]
  exact Finset.mem_range.mpr hcpu

theorem Inv.phase_of_not_arrived (h : Inv online s) {cpu : Nat} (hcpu : cpu < online) (hnot : cpu ∉ s.arrived) :
    s.phase = .booting := by
  by_contra hp
  exact hnot (h.arrived_of_all (h.all hp) hcpu)

theorem Inv.step (h : Inv online s) {e : Event} (hs : step online s e = some s') : Inv online s' := by
  cases e with
  | write cpu w =>
    rw [Info.step] at hs
    split_ifs at hs with hc
    obtain rfl := Option.some.inj hs
    have hp := h.phase_of_not_arrived hc.1 hc.2
    exact ⟨h.mem_lt, fun _ => (h.booting hp).write w, fun hn => absurd hp hn, fun hk => absurd (hp.symm.trans hk) nofun,
      fun hk => absurd (hp.symm.trans hk) nofun⟩
  | arrive cpu =>
    rw [Info.step] at hs
    split_ifs at hs with hc
    obtain rfl := Option.some.inj hs
    have hp := h.phase_of_not_arrived hc.1 hc.2
    refine ⟨?_, h.booting, fun hn => absurd hp hn, h.checked, h.started⟩
    intro c hmem
    rcases Finset.mem_insert.mp hmem with rfl | hmem
    · exact hc.1
    · exact h.mem_lt c hmem
  | check rsdt xsdt pageL freqTsc =>
    rw [Info.step] at hs
    split_ifs at hs with hc
    obtain rfl := Option.some.inj hs
    exact ⟨h.mem_lt, nofun, fun _ => hc.1, fun _ => Hip.covered_addCheck (h.booting hc.2) .., nofun⟩
  | rootInvoke =>
    rw [Info.step] at hs
    split_ifs at hs with hc
    obtain rfl := Option.some.inj hs
    obtain ⟨hcount, htopo, hsum⟩ := h.checked hc
    refine ⟨h.mem_lt, nofun, fun _ => h.all (by rw [hc]; exact nofun), nofun, fun _ => ?_⟩
    exact (Hip.covered_tipVirt hcount htopo hsum _).trans Hip.tipAddr_sum

theorem Inv.run (h : Inv online s) {es : List Event} (hs : run online s es = some s') : Inv online s' := by
  induction es generalizing s with
  | nil => exact Option.some.inj hs ▸ h
  | cons e es ih =>
    obtain ⟨s₁, h₁, hr⟩ := Option.bind_eq_some_iff.mp hs
    exact ih (h.step h₁) hr

/-- The page is right when it has been checked, and no longer so when the root task
starts. -/
theorem started_sum_ne_zero {es : List Event} (hs : run online .init es = some s) (hp : s.phase = .started) :
    s.hip.covered.sum ≠ 0 := by
  rw [(inv_init.run hs).started hp]
  decide

/-- Two CPUs, a block of memory, and the image of the hypervisor. -/
def twoBoot : List Event :=
  [.write 0 .header, .write 0 (.memDesc fun mem => { mem with addr := 0x100000, size := 0x3ff00000, type := 1 }),
    .write 0 (.memDesc fun mem => { mem with addr := 0x1000000, size := 0x800000, type := -1 }),
    .write 0 (.addCpu 0 { HipCpu.zero with flags := 1 }), .arrive 0,
    .write 1 (.addCpu 1 { HipCpu.zero with flags := 1, thread := 1 }), .arrive 1, .check 0 0 0 0, .rootInvoke]

theorem started_sum_twoBoot : ∃ s, run 2 .init twoBoot = some s ∧ s.hip.memDesc.length = 2 ∧
    s.hip.covered.sum ≠ 0 := by
  have hrun : run 2 .init twoBoot = some _ := rfl
  exact ⟨_, hrun, rfl, started_sum_ne_zero hrun rfl⟩

def plainBoot : List Event := [.write 0 .header, .arrive 0, .check 0 0 0 0, .rootInvoke]

theorem plainBoot_not_zero :
    ¬∀ online es s, run online .init es = some s → s.phase = .started → s.hip.covered.sum = 0 := by
  intro h
  have hzero := h 1 plainBoot _ rfl rfl
  exact absurd hzero (by decide +kernel)

end Tukija.Boot.Info
