import Mathlib.Data.Bool.Basic
import Mathlib.Tactic.Common
import Tukija.Vmcs.Machine

/-! What each operation on a VMCS changes, and who may hold one: only the CPU that it is made for, and
only while it is in that CPU's queue. -/
namespace Tukija.Vmcs

open Machine
open Tukija.Sm (Queued)

section Ring

variable {V D : Type} {k : Core V D} {v : V}

def Core.Ringed (k : Core V D) : Prop := ∃ l, Queued k.headptr k.links l

theorem queued_iff {l : List V} (h : Queued k.headptr k.links l) (v : V) : k.queued v = true ↔ v ∈ l := by
  constructor
  · intro hq
    by_contra hm
    simp [Core.queued, h.free v hm] at hq
  · intro hm
    obtain ⟨n, hn⟩ := Option.ne_none_iff_exists'.mp (h.linked v hm).1
    simp [Core.queued, hn]

theorem links_null (h : k.queued v = false) : k.links.next v = none ∧ k.links.prev v = none := by
  simpa [Core.queued] using h

theorem Core.Ringed.head (h : k.Ringed) (hv : k.headptr = some v) : k.queued v = true := by
  obtain ⟨l, hl⟩ := h
  rw [queued_iff hl]
  exact List.mem_of_mem_head? (hl.head ▸ hv)

theorem Core.Ringed.headptr_none (h : k.Ringed) (hn : k.headptr = none) (v : V) : k.queued v = false := by
  obtain ⟨l, hl⟩ := h
  rw [← Bool.not_eq_true, queued_iff hl, (hl.headptr_eq_none).mp hn]
  exact List.not_mem_nil

variable [DecidableEq V]

theorem Core.Ringed.enqueue (h : k.Ringed) (hv : k.queued v = false) :
    (k.enqueue v).Ringed ∧ ∀ x, (k.enqueue v).queued x = (decide (x = v) || k.queued x) := by
  obtain ⟨l, hl⟩ := h
  have hm : v ∉ l := fun hm => by simp [(queued_iff hl v).mpr hm] at hv
  have hq : Queued (k.enqueue v).headptr (k.enqueue v).links (l ++ [v]) := hl.enqueue hm
  refine ⟨⟨_, hq⟩, fun x => ?_⟩
  rw [Bool.eq_iff_iff, queued_iff hq, Bool.or_eq_true, queued_iff hl]
  simp [or_comm]

theorem Core.Ringed.dequeue (h : k.Ringed) (hv : k.queued v = true) :
    (k.dequeue v).Ringed ∧ ∀ x, (k.dequeue v).queued x = (decide (x ≠ v) && k.queued x) := by
  obtain ⟨l, hl⟩ := h
  have hq : Queued (k.dequeue v).headptr (k.dequeue v).links (l.erase v) :=
    (hl.dequeue ((queued_iff hl v).mp hv)).2
  refine ⟨⟨_, hq⟩, fun x => ?_⟩
  rw [Bool.eq_iff_iff, queued_iff hq, Bool.and_eq_true, queued_iff hl, hl.nodup.mem_erase_iff]
  simp

end Ring

section Effect

variable {κ V D : Type} [DecidableEq κ] [DecidableEq V] {m : Machine κ V D}

section
variable (c c' : κ) (v x : V) (f : Core V D → Core V D) (g : State κ D → State κ D)

omit [DecidableEq V] in
@[simp] theorem setCore_core : (m.setCore c f).core c' = if c' = c then f (m.core c) else m.core c' := by
  simp [setCore, Function.update_apply]

omit [DecidableEq κ] in
@[simp] theorem setVmcs_vmcs : (m.setVmcs v g).vmcs x = if x = v then g (m.vmcs v) else m.vmcs x := by
  simp [setVmcs, Function.update_apply]

omit [DecidableEq V] in
@[simp] theorem setCore_vmcs : (m.setCore c f).vmcs = m.vmcs := rfl

omit [DecidableEq κ] in
@[simp] theorem setVmcs_core : (m.setVmcs v g).core = m.core := rfl

theorem makeCurrent_vmcs :
    (m.makeCurrent c v).vmcs x = if x = v then { m.vmcs v with active := true } else m.vmcs x := by
  by_cases hx : x = v <;> simp only [makeCurrent, vmcsMakeCurrent, vmptrld] <;> split_ifs <;> simp [hx]

theorem makeCurrent_current :
    ((m.makeCurrent c v).core c').current = if c' = c then some v else (m.core c').current := by
  by_cases hc : c' = c <;> simp only [makeCurrent, vmcsMakeCurrent, vmptrld] <;> split_ifs <;>
    simp_all [Core.enqueue]

theorem makeCurrent_loaded : ((m.makeCurrent c v).core c').loaded =
    if c' = c ∧ (m.core c).current ≠ some v then some v else (m.core c').loaded := by
  by_cases hc : c' = c <;> simp only [makeCurrent, vmcsMakeCurrent, vmptrld] <;> split_ifs <;>
    simp_all [Core.enqueue]

theorem makeCurrent_held : ((m.makeCurrent c v).core c').held x =
    if c' = c ∧ (m.core c).current ≠ some v ∧ x = v then some (m.held c v) else (m.core c').held x := by
  by_cases hc : c' = c <;> simp only [makeCurrent, vmcsMakeCurrent, vmptrld] <;> split_ifs <;>
    simp_all [Core.enqueue, Machine.held]

theorem clear_vmcs : (m.clear c v).vmcs x =
    if x = v ∧ (m.vmcs v).active then { m.vmcs v with active := false, region := m.held c v } else m.vmcs x := by
  by_cases hx : x = v <;> simp only [clear, vmcsClear, vmclear] <;> split_ifs <;>
    simp_all [Core.dequeue, Machine.held]

theorem clear_current : ((m.clear c v).core c').current =
    if c' = c ∧ (m.vmcs v).active ∧ (m.core c).current = some v then none else (m.core c').current := by
  by_cases hc : c' = c <;> simp only [clear, vmcsClear, vmclear] <;> split_ifs <;> simp_all [Core.dequeue]

theorem clear_loaded : ((m.clear c v).core c').loaded =
    if c' = c ∧ (m.vmcs v).active ∧ (m.core c).loaded = some v then none else (m.core c').loaded := by
  by_cases hc : c' = c <;> simp only [clear, vmcsClear, vmclear] <;> split_ifs <;> simp_all [Core.dequeue]

theorem clear_held : ((m.clear c v).core c').held x =
    if c' = c ∧ (m.vmcs v).active ∧ x = v then none else (m.core c').held x := by
  by_cases hc : c' = c <;> simp only [clear, vmcsClear, vmclear] <;> split_ifs <;> simp_all [Core.dequeue]

theorem write_vmcs (w : D → D) : (m.write c w).vmcs = m.vmcs := by
  rw [write]
  split <;> rfl

theorem write_current (w : D → D) : ((m.write c w).core c').current = (m.core c').current := by
  rw [write]
  split
  · rfl
  · by_cases hc : c' = c <;> simp [hc]

theorem write_loaded (w : D → D) : ((m.write c w).core c').loaded = (m.core c').loaded := by
  rw [write]
  split
  · rfl
  · by_cases hc : c' = c <;> simp [hc]

theorem write_held (w : D → D) : ((m.write c w).core c').held x =
    if c' = c ∧ (m.core c).loaded = some x then ((m.core c).held x).map w else (m.core c').held x := by
  rw [write]
  split
  · next hn => simp [hn]
  · next y hy =>
    by_cases hc : c' = c
    · by_cases hx : y = x
      · simp [hc, hy, hx]
      · simp [hc, hy, hx, Ne.symm hx]
    · simp [hc]

theorem write_queue (w : D → D) :
    ((m.write c w).core c').headptr = (m.core c').headptr ∧ ((m.write c w).core c').links = (m.core c').links := by
  rw [write]
  split
  · exact ⟨rfl, rfl⟩
  · by_cases hc : c' = c <;> simp [hc]

theorem vmcsMakeCurrent_queue : ((m.vmcsMakeCurrent c v).core c').headptr = (m.core c').headptr ∧
    ((m.vmcsMakeCurrent c v).core c').links = (m.core c').links := by
  rw [vmcsMakeCurrent, vmptrld]
  split_ifs <;> by_cases hc : c' = c <;> simp [hc]

theorem vmcsClear_queue : ((m.vmcsClear c v).core c').headptr = (m.core c').headptr ∧
    ((m.vmcsClear c v).core c').links = (m.core c').links := by
  rw [vmcsClear, vmclear]
  split_ifs <;> by_cases hc : c' = c <;> simp [hc]

theorem makeCurrent_queue :
    let k := if c' = c ∧ c = (m.vmcs v).cpu ∧ (m.core c).queued v = false then (m.core c).enqueue v else m.core c'
    ((m.makeCurrent c v).core c').headptr = k.headptr ∧ ((m.makeCurrent c v).core c').links = k.links := by
  rw [makeCurrent, setVmcs_core, (vmcsMakeCurrent_queue c c' v).1, (vmcsMakeCurrent_queue c c' v).2]
  by_cases hq : c = (m.vmcs v).cpu ∧ (m.core c).queued v = false
  · by_cases hc : c' = c <;>
      simp only [setCore_core, hc, hq.2, if_true, if_false, and_true, ← hq.1, and_self]
  · rw [if_neg hq, if_neg fun h => hq h.2]
    exact ⟨rfl, rfl⟩

theorem clear_queue :
    let k := if c' = c ∧ c = (m.vmcs v).cpu ∧ (m.core c).queued v = true then (m.core c).dequeue v else m.core c'
    ((m.clear c v).core c').headptr = k.headptr ∧ ((m.clear c v).core c').links = k.links := by
  have hout : ∀ m' : Machine κ V D,
      ((if (m'.vmcs v).active then (m'.vmcsClear c v).setVmcs v fun x => { x with active := false } else m').core c').headptr =
        (m'.core c').headptr ∧
      ((if (m'.vmcs v).active then (m'.vmcsClear c v).setVmcs v fun x => { x with active := false } else m').core c').links =
        (m'.core c').links := by
    intro m'
    split
    · exact vmcsClear_queue c c' v
    · exact ⟨rfl, rfl⟩
  rw [clear, (hout _).1, (hout _).2]
  by_cases hq : c = (m.vmcs v).cpu ∧ (m.core c).queued v = true
  · by_cases hc : c' = c <;>
      simp only [setCore_core, hc, hq.2, if_true, if_false, and_true, ← hq.1, and_self]
  · rw [if_neg hq, if_neg fun h => hq h.2]
    exact ⟨rfl, rfl⟩

end

omit [DecidableEq V] in
theorem ringed_congr {k k' : Core V D} (h : k'.headptr = k.headptr ∧ k'.links = k.links) (hk : k.Ringed) :
    k'.Ringed ∧ ∀ x, k'.queued x = k.queued x := by
  refine ⟨?_, fun x => by rw [Core.queued, Core.queued, h.2]⟩
  rwa [Core.Ringed, h.1, h.2]

theorem makeCurrent_ring (h : ∀ c, (m.core c).Ringed) (c c' : κ) (v : V) :
    ((m.makeCurrent c v).core c').Ringed ∧ ∀ x, ((m.makeCurrent c v).core c').queued x =
      (decide (c' = c ∧ c = (m.vmcs v).cpu ∧ x = v) || (m.core c').queued x) := by
  have hq := makeCurrent_queue (m := m) c c' v
  by_cases hin : c' = c ∧ c = (m.vmcs v).cpu ∧ (m.core c).queued v = false
  · obtain ⟨rfl, hcpu, hv⟩ := hin
    obtain ⟨hr, hx⟩ := (h c').enqueue hv
    simp only [hcpu.symm, hv, and_self, if_true] at hq
    obtain ⟨hr', hx'⟩ := ringed_congr hq hr
    exact ⟨hr', fun x => by rw [hx', hx]; simp [hcpu.symm]⟩
  · simp only [hin, if_false] at hq
    obtain ⟨hr', hx'⟩ := ringed_congr hq (h c')
    exact ⟨hr', fun x => by rw [hx']; grind⟩

theorem clear_ring (h : ∀ c, (m.core c).Ringed) (c c' : κ) (v : V) :
    ((m.clear c v).core c').Ringed ∧ ∀ x, ((m.clear c v).core c').queued x =
      (!decide (c' = c ∧ c = (m.vmcs v).cpu ∧ x = v) && (m.core c').queued x) := by
  have hq := clear_queue (m := m) c c' v
  by_cases hin : c' = c ∧ c = (m.vmcs v).cpu ∧ (m.core c).queued v = true
  · obtain ⟨rfl, hcpu, hv⟩ := hin
    obtain ⟨hr, hx⟩ := (h c').dequeue hv
    simp only [hcpu.symm, hv, and_self, if_true] at hq
    obtain ⟨hr', hx'⟩ := ringed_congr hq hr
    exact ⟨hr', fun x => by rw [hx', hx]; simp [hcpu.symm]⟩
  · simp only [hin, if_false] at hq
    obtain ⟨hr', hx'⟩ := ringed_congr hq (h c')
    exact ⟨hr', fun x => by rw [hx']; grind⟩

end Effect

end Tukija.Vmcs
