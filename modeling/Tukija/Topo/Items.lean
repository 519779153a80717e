import Tukija.Topo.Srat

/-! What the affinity table says about the topology, and when the pages say the
same. -/
namespace Tukija.Topo

/-- What an entry assigns to a domain: the CPU of an APIC id, or a range. -/
inductive Item where
  | cpu (domain apic : Nat)
  | dram (domain : Nat) (range : Nat × Nat)
  deriving DecidableEq, Repr

namespace Item

def domain : Item → Nat
  | .cpu d _ => d
  | .dram d _ => d

def range (d : Nat) : Item → Option (Nat × Nat)
  | .cpu _ _ => none
  | .dram e r => if e = d then some r else none

def handle (lapic : Lapic) (i : Item) (tip : Tip) : Except Fault Tip := do
  let tip ← tip.checkAndAdd i.domain
  match i with
  | .cpu d a => tip.addCpu d (lapic.lookup a)
  | .dram d r => tip.onNode d fun n => n.newMem r

end Item

namespace Table

variable (t : Table) (p : Nat)

def lapicItem : Option Item :=
  if t.type p = typeLapic ∧ Lapic.enabled t p then some (.cpu (Lapic.domain t p) (Lapic.apicId t p)) else none

def memoryItem : Option Item :=
  if t.type p = typeMas ∧ Memory.enabled t p ∧ ¬Memory.nvm t p then
    some (.dram (Memory.domain t p) (Memory.base t p, (Memory.base t p + Memory.size t p + (2 ^ 64 - 1)) % 2 ^ 64))
  else none

def x2apicItem : Option Item :=
  if t.type p = typeX2apic ∧ X2apic.enabled t p then some (.cpu (X2apic.domain t p) (X2apic.apicId t p)) else none

/-- Where the entries are, from `p` on, if at most `n` come before the end. -/
def entries : Nat → Nat → List Nat
  | 0, _ => []
  | n + 1, p => if p < t.length then p :: entries n (p + t.size p) else []

/-- All entries: none is shorter than a byte, as long as none is empty. -/
def offsets : List Nat := t.entries t.length first

/-- What the table says: each enabled processor, and each enabled range of DRAM. -/
def items : List Item :=
  t.offsets.filterMap t.lapicItem ++ t.offsets.filterMap t.memoryItem ++ t.offsets.filterMap t.x2apicItem

end Table

def domains (I : List Item) : Finset Nat := (I.map Item.domain).toFinset

/-- The pages have one node for each domain of `D`, with those CPUs and ranges
that the items assign to it. -/
structure Describes (lapic : Lapic) (D : Finset Nat) (I : List Item) (tip : Tip) : Prop where
  nodup : (tip.nodes.map Node.id).Nodup
  ids : ∀ d, d ∈ tip.nodes.map Node.id ↔ d ∈ D
  cpus : ∀ n ∈ tip.nodes, ∀ c, c ∈ n.cpus ↔ c < lapic.online ∧ ∃ a, .cpu n.id a ∈ I ∧ lapic.lookup a = c
  memory : ∀ n ∈ tip.nodes, n.memory = I.filterMap (Item.range n.id)
  length : tip.length = sizeofNode * tip.nodes.length

/-- The kernel knows the processors, no domain has more than 32 ranges, and the
size of all nodes fits 16 bits. -/
structure Fits (lapic : Lapic) (I : List Item) : Prop where
  known : ∀ d a, .cpu d a ∈ I → lapic.lookup a < lapic.online
  ranges : ∀ d, (I.filterMap (Item.range d)).length ≤ 32
  nodes : sizeofNode * (domains I).card < 2 ^ 16

variable {lapic : Lapic} {D : Finset Nat} {I J : List Item} {i : Item} {tip : Tip} {d : Nat}

theorem Fits.of_append (h : Fits lapic (I ++ J)) : Fits lapic I where
  known d a hi := h.known d a (List.mem_append_left J hi)
  ranges d := by
    have := h.ranges d
    rw [List.filterMap_append, List.length_append] at this
    omega
  nodes := by
    refine (Nat.mul_le_mul_left _ (Finset.card_le_card ?_)).trans_lt h.nodes
    intro d hd
    simp only [domains, List.mem_toFinset, List.map_append, List.mem_append] at hd ⊢
    exact .inl hd

theorem sizeofNode_pos : 0 < sizeofNode := by decide

theorem lookup_lt_iff (a : Nat) : lapic.lookup a < lapic.online ↔ lapic.lookup a < numCpu := by
  have hle := lapic.online_le
  unfold Lapic.lookup
  cases h : (List.range lapic.online).find? fun c => lapic.id c = a with
  | none =>
    have : numCpu < 0xffff := by decide
    simp only [Option.getD_none]
    omega
  | some c =>
    have := List.mem_range.mp (List.mem_of_find?_eq_some h)
    simp only [Option.getD_some]
    omega

namespace Describes

theorem nodeCnt (h : Describes lapic D I tip) : tip.nodes.take tip.nodeCnt = tip.nodes ∧ tip.nodes.drop tip.nodeCnt = [] := by
  unfold Tip.nodeCnt
  rw [h.length, Nat.mul_div_cancel_left _ sizeofNode_pos]
  simp

theorem card (h : Describes lapic D I tip) : D.card = tip.nodes.length := by
  rw [← List.length_map (f := Node.id), ← List.toFinset_card_of_nodup h.nodup]
  congr 1
  ext d
  rw [List.mem_toFinset, h.ids]

theorem hasNode (h : Describes lapic D I tip) (d : Nat) : tip.hasNode d = true ↔ d ∈ D := by
  unfold Tip.hasNode
  rw [h.nodeCnt.1, ← h.ids, h.length]
  by_cases hn : tip.nodes = []
  · simp [hn]
  · have : sizeofNode * tip.nodes.length ≠ 0 := by
      simp [hn, sizeofNode]
    simp [this]

end Describes

theorem change_eq {fn : Node → Except Fault Node} {u v : List Node} {n : Node} (hn : n.id = d)
    (hu : ∀ x ∈ u, x.id ≠ d) : Tip.change d fn (u ++ n :: v) = (fn n).map fun n => u ++ n :: v := by
  induction u with
  | nil => simp [Tip.change, hn]
  | cons x u ih =>
    rw [List.cons_append, Tip.change, if_neg (hu x (by simp)), ih fun y hy => hu y (by simp [hy])]
    cases fn n <;> rfl

theorem Describes.onNode (h : Describes lapic D I tip) (hd : d ∈ D) (fn : Node → Except Fault Node) :
    ∃ u n v, tip.nodes = u ++ n :: v ∧ n.id = d ∧
      tip.onNode d fn = (fn n).map fun n => { tip with nodes := u ++ n :: v } := by
  obtain ⟨n, hn, hid⟩ := List.mem_map.mp ((h.ids d).mpr hd)
  obtain ⟨u, v, huv⟩ := List.append_of_mem hn
  refine ⟨u, n, v, huv, hid, ?_⟩
  have hu : ∀ x ∈ u, x.id ≠ d := by
    intro x hx e
    have hnd := h.nodup
    rw [huv, List.map_append, List.map_cons, List.nodup_append] at hnd
    exact hnd.2.2 x.id (List.mem_map_of_mem hx) n.id (by simp) (e.trans hid.symm)
  unfold Tip.onNode
  rw [h.nodeCnt.1, h.nodeCnt.2, huv]
  cases hl : u ++ n :: v with
  | nil => simp at hl
  | cons x l =>
    simp only [← hl, change_eq hid hu, List.append_nil]
    cases fn n <;> rfl

theorem Describes.change {u v : List Node} {n n' : Node} {f : Nat → Nat} (h : Describes lapic D I tip)
    (huv : tip.nodes = u ++ n :: v) (hid : n'.id = n.id) (hdom : i.domain = n.id)
    (hcpus : ∀ c, c ∈ n'.cpus ↔ c ∈ n.cpus ∨ c < lapic.online ∧ ∃ a, i = .cpu n.id a ∧ lapic.lookup a = c)
    (hmem : n'.memory = n.memory ++ (Item.range n.id i).toList) :
    Describes lapic D (I ++ [i]) { tip with nodes := u ++ n' :: v, cpuToNode := f } := by
  have hids : (u ++ n' :: v).map Node.id = tip.nodes.map Node.id := by
    rw [huv]
    simp [hid]
  have hnd := h.nodup
  rw [huv, List.map_append, List.map_cons, List.nodup_append, List.nodup_cons] at hnd
  -- the other nodes are of other domains
  have hother : ∀ x ∈ u ++ n' :: v, x = n' ∨ x ∈ tip.nodes ∧ x.id ≠ n.id := by
    intro x hx
    rw [huv]
    simp only [List.mem_append, List.mem_cons] at hx ⊢
    rcases hx with hx | rfl | hx
    · exact .inr ⟨.inl hx, hnd.2.2 _ (List.mem_map_of_mem hx) _ (by simp)⟩
    · exact .inl rfl
    · refine .inr ⟨.inr (.inr hx), fun e => hnd.2.1.1 ?_⟩
      rw [← e]
      exact List.mem_map_of_mem hx
  have hn : n ∈ tip.nodes := by simp [huv]
  refine ⟨hids ▸ h.nodup, fun d => hids ▸ h.ids d, fun x hx c => ?_, fun x hx => ?_, ?_⟩
  · rcases hother x hx with rfl | ⟨hx, hne⟩
    · rw [hcpus, h.cpus n hn, hid]
      simp only [List.mem_append, List.mem_singleton, or_and_right, exists_or, and_or_left, eq_comm (a := i)]
    · rw [h.cpus x hx]
      have hi : ∀ a, .cpu x.id a ≠ i := by
        rintro a rfl
        exact hne hdom
      simp [hi]
  · rcases hother x hx with rfl | ⟨hx, hne⟩
    · rw [hmem, h.memory n hn, hid, List.filterMap_append]
      cases hr : Item.range n.id i <;> simp [hr]
    · have hr : Item.range x.id i = none := by
        cases i with
        | cpu d a => rfl
        | dram d r => exact if_neg fun e => hne (e.symm.trans hdom)
      rw [h.memory x hx, List.filterMap_append]
      simp [hr]
  · rw [h.length, huv]
    simp

theorem Describes.addNode (h : Describes lapic D I tip) (hI : domains I ⊆ D) (hd : d ∉ D) :
    Describes lapic (insert d D) I
      { tip with length := tip.length + sizeofNode, nodes := tip.nodes ++ [.new d] } := by
  have hno : ∀ j ∈ I, j.domain ≠ d := by
    rintro j hj rfl
    exact hd (hI (List.mem_toFinset.mpr (List.mem_map_of_mem hj)))
  refine ⟨?_, fun e => ?_, fun x hx c => ?_, fun x hx => ?_, ?_⟩
  · rw [List.map_append, List.nodup_append]
    refine ⟨h.nodup, by simp, ?_⟩
    rintro a ha b hb rfl
    rw [List.map_cons, List.map_nil, List.mem_singleton] at hb
    subst hb
    exact hd ((h.ids _).mp ha)
  · rw [List.map_append, List.mem_append, h.ids, Finset.mem_insert]
    simp [Node.new, or_comm]
  · rcases List.mem_append.mp hx with hx | hx
    · exact h.cpus x hx c
    · rw [List.mem_singleton] at hx
      subst hx
      simp only [Node.new, Finset.notMem_empty, false_iff, not_and, not_exists]
      exact fun _ a ha => (hno _ ha rfl).elim
  · rcases List.mem_append.mp hx with hx | hx
    · exact h.memory x hx
    · rw [List.mem_singleton] at hx
      subst hx
      refine (List.filterMap_eq_nil_iff.mpr fun j hj => ?_).symm
      cases j with
      | cpu e a => rfl
      | dram e r => exact if_neg (hno _ hj)
  · rw [h.length, List.length_append, List.length_singleton, Nat.mul_add, Nat.mul_one]

theorem Describes.checkAndAdd (h : Describes lapic D I tip) (hI : domains I ⊆ D) (d : Nat) :
    (d ∈ D ∨ sizeofNode * (insert d D).card < 2 ^ 16) ∧
      (∃ tip', tip.checkAndAdd d = .ok tip' ∧ Describes lapic (insert d D) I tip') ∨
    ¬sizeofNode * (insert d D).card < 2 ^ 16 ∧ tip.checkAndAdd d = .error .lengthWraps := by
  unfold Tip.checkAndAdd
  by_cases hd : d ∈ D
  · rw [if_pos ((h.hasNode d).mpr hd), Finset.insert_eq_self.mpr hd]
    exact .inl ⟨.inl hd, tip, rfl, h⟩
  · have hsize : sizeofNode * (insert d D).card = tip.length + sizeofNode := by
      rw [Finset.card_insert_of_notMem hd, h.card, h.length, Nat.mul_add, Nat.mul_one]
    rw [if_neg (mt (h.hasNode d).mp hd), hsize]
    unfold Tip.addNode
    split
    · rename_i hlt
      exact .inl ⟨.inr hlt, _, rfl, h.addNode hI hd⟩
    · rename_i hlt
      exact .inr ⟨hlt, rfl⟩

theorem Describes.addCpu (h : Describes lapic D I tip) (hd : d ∈ D) {a : Nat} (ha : lapic.lookup a < lapic.online) :
    ∃ tip', tip.addCpu d (lapic.lookup a) = .ok tip' ∧ Describes lapic D (I ++ [.cpu d a]) tip' := by
  have hcpu := (lookup_lt_iff a).mp ha
  obtain ⟨u, n, v, huv, rfl, hon⟩ := h.onNode hd fun n => n.setCpu (lapic.lookup a)
  refine ⟨{ tip with
    nodes := u ++ { n with cpus := insert (lapic.lookup a) n.cpus } :: v
    cpuToNode := Function.update tip.cpuToNode (lapic.lookup a) n.id }, ?_, ?_⟩
  · unfold Tip.addCpu
    rw [hon, Node.setCpu, if_pos hcpu]
    exact if_pos hcpu
  · refine h.change huv rfl rfl (fun c => ?_) (by simp [Item.range])
    simp only [Finset.mem_insert, Item.cpu.injEq, true_and, exists_eq_left', eq_comm (a := c)]
    grind

theorem Describes.addCpu_unknown (h : Describes lapic D I tip) (hd : d ∈ D) {a : Nat}
    (ha : ¬lapic.lookup a < lapic.online) : tip.addCpu d (lapic.lookup a) = .error .outside := by
  obtain ⟨u, n, v, huv, rfl, hon⟩ := h.onNode hd fun n => n.setCpu (lapic.lookup a)
  unfold Tip.addCpu
  rw [hon, Node.setCpu, if_neg (mt (lookup_lt_iff a).mpr ha)]
  rfl

theorem Describes.newMem (h : Describes lapic D I tip) (hd : d ∈ D) (r : Nat × Nat)
    (hl : (I.filterMap (Item.range d)).length < 32) :
    ∃ tip', (tip.onNode d fun n => n.newMem r) = .ok tip' ∧ Describes lapic D (I ++ [.dram d r]) tip' := by
  obtain ⟨u, n, v, huv, rfl, hon⟩ := h.onNode hd fun n => n.newMem r
  rw [← h.memory n (by simp [huv])] at hl
  refine ⟨{ tip with nodes := u ++ { n with memory := n.memory ++ [r] } :: v }, ?_, ?_⟩
  · rw [hon, Node.newMem, Node.allocMem, if_neg (by omega)]
    simp only [if_pos hl]
    rfl
  · exact h.change huv rfl rfl (fun c => by simp) (by simp [Item.range])

theorem Describes.newMem_full (h : Describes lapic D I tip) (hd : d ∈ D) (r : Nat × Nat)
    (hl : ¬(I.filterMap (Item.range d)).length < 32) : (tip.onNode d fun n => n.newMem r) = .error .outside := by
  obtain ⟨u, n, v, huv, rfl, hon⟩ := h.onNode hd fun n => n.newMem r
  rw [← h.memory n (by simp [huv])] at hl
  rw [hon, Node.newMem, Node.allocMem]
  by_cases h32 : n.memory.length > 32
  · rw [if_pos h32]
    rfl
  · rw [if_neg h32]
    simp only [if_neg hl]
    rfl

theorem handle_eq (h : Describes lapic (domains I) I tip) (hf : Fits lapic I) (i : Item) :
    (Fits lapic (I ++ [i]) ∧ ∃ tip', i.handle lapic tip = .ok tip' ∧
      Describes lapic (domains (I ++ [i])) (I ++ [i]) tip') ∨
    ¬Fits lapic (I ++ [i]) ∧ ∃ e, i.handle lapic tip = .error e := by
  have hdom : domains (I ++ [i]) = insert i.domain (domains I) := by
    ext d
    simp [domains]
  unfold Item.handle
  rcases h.checkAndAdd (Finset.Subset.refl _) i.domain with ⟨hroom, tip₁, ht₁, h₁⟩ | ⟨hfull, hcheck⟩
  · have hnodes : sizeofNode * (domains (I ++ [i])).card < 2 ^ 16 := by
      rw [hdom]
      rcases hroom with hmem | hlt
      · rw [Finset.insert_eq_self.mpr hmem]
        exact hf.nodes
      · exact hlt
    rw [ht₁, hdom]
    have hd := Finset.mem_insert_self i.domain (domains I)
    cases i with
    | cpu d a =>
      by_cases ha : lapic.lookup a < lapic.online
      · refine .inl ⟨⟨fun e b hb => ?_, fun e => ?_, hnodes⟩, h₁.addCpu hd ha⟩
        · rcases List.mem_append.mp hb with hb | hb
          · exact hf.known e b hb
          · obtain ⟨-, rfl⟩ := Item.cpu.inj (List.mem_singleton.mp hb)
            exact ha
        · rw [List.filterMap_append, List.length_append]
          exact hf.ranges e
      · exact .inr ⟨fun hfit => ha (hfit.known d a (by simp)), _, h₁.addCpu_unknown hd ha⟩
    | dram d r =>
      have hsplit : ∀ e, ((I ++ [Item.dram d r]).filterMap (Item.range e)).length =
          (I.filterMap (Item.range e)).length + if d = e then 1 else 0 := by
        intro e
        rw [List.filterMap_append, List.length_append]
        by_cases hde : d = e <;> simp [Item.range, hde]
      by_cases hl : (I.filterMap (Item.range d)).length < 32
      · refine .inl ⟨⟨fun e b hb => ?_, fun e => ?_, hnodes⟩, h₁.newMem hd r hl⟩
        · exact hf.known e b (by simpa using hb)
        · rw [hsplit]
          by_cases hde : d = e
          · subst hde
            simpa using hl
          · simpa [hde] using hf.ranges e
      · refine .inr ⟨fun hfit => hl ?_, _, h₁.newMem_full hd r hl⟩
        have := hfit.ranges d
        rw [hsplit, if_pos rfl] at this
        omega
  · rw [hcheck]
    refine .inr ⟨fun hfit => hfull ?_, _, rfl⟩
    rw [← hdom]
    exact hfit.nodes

end Tukija.Topo
