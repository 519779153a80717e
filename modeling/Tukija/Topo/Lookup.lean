import Tukija.Topo.Parse

/-! `Tip::lookup` takes the domain of a CPU for the index of a node. -/
namespace Tukija.Topo

variable {lapic : Lapic} {I J : List Item} {i : Item} {tip tip' : Tip} {d : Nat}

/-- `Tip::lookup`.  Behind the nodes there is none. -/
def Tip.lookup (tip : Tip) (cpu : Nat) : Option Node := tip.nodes[tip.cpuToNode cpu]?

def order (I : List Item) : List Nat := (I.map Item.domain).eraseDups

def assigned (lapic : Lapic) (I : List Item) (cpu : Nat) : Nat :=
  I.foldl (fun d i => match i with
    | .cpu e a => if lapic.lookup a = cpu then e else d
    | .dram _ _ => d) 0

theorem order_append (I : List Item) (i : Item) :
    order (I ++ [i]) = if i.domain ∈ order I then order I else order I ++ [i.domain] := by
  have hmem : i.domain ∈ order I ↔ i.domain ∈ I.map Item.domain := List.mem_eraseDups
  unfold order at hmem ⊢
  rw [List.map_append, List.eraseDups_append, List.map_cons, List.map_nil]
  by_cases h : i.domain ∈ I.map Item.domain
  · rw [if_pos (hmem.mpr h)]
    simp [List.removeAll, List.mem_map.mp h]
  · rw [if_neg (mt hmem.mp h)]
    have hno : ¬∃ j ∈ I, j.domain = i.domain := fun hj => h (List.mem_map.mpr hj)
    simp [List.removeAll, hno, List.eraseDups_cons]

theorem assigned_cpu (lapic : Lapic) (I : List Item) (e a c : Nat) :
    assigned lapic (I ++ [.cpu e a]) c = if lapic.lookup a = c then e else assigned lapic I c := by
  unfold assigned
  rw [List.foldl_append]
  rfl

theorem assigned_dram (lapic : Lapic) (I : List Item) (e : Nat) (r : Nat × Nat) (c : Nat) :
    assigned lapic (I ++ [.dram e r]) c = assigned lapic I c := by
  unfold assigned
  rw [List.foldl_append]
  rfl

/-- The nodes are in the order in which the domains appear, and every CPU has its domain on record. -/
structure Recorded (lapic : Lapic) (I : List Item) (tip : Tip) : Prop where
  order : tip.nodes.map Node.id = order I
  cpus : ∀ c, tip.cpuToNode c = assigned lapic I c

theorem change_ids {fn : Node → Except Fault Node} (hfn : ∀ n n', fn n = .ok n' → n'.id = n.id) {nodes l : List Node}
    (h : Tip.change d fn nodes = .ok l) : l.map Node.id = nodes.map Node.id := by
  induction nodes generalizing l with
  | nil =>
    obtain rfl := Except.ok.inj h
    rfl
  | cons n nodes ih =>
    rw [Tip.change] at h
    split at h
    · cases hn : fn n with
      | error e => simp [hn, Except.map] at h
      | ok n' =>
        simp only [hn, Except.map, Except.ok.injEq] at h
        subst h
        simp [hfn n n' hn]
    · cases hc : Tip.change d fn nodes with
      | error e => simp [hc, Except.map] at h
      | ok l' =>
        simp only [hc, Except.map, Except.ok.injEq] at h
        subst h
        simp [ih hc]

theorem onNode_same {fn : Node → Except Fault Node} (hfn : ∀ n n', fn n = .ok n' → n'.id = n.id)
    (h : tip.onNode d fn = .ok tip') :
    tip'.nodes.map Node.id = tip.nodes.map Node.id ∧ tip'.cpuToNode = tip.cpuToNode := by
  unfold Tip.onNode at h
  split at h
  · split at h
    · simp at h
    · obtain rfl := Except.ok.inj h
      exact ⟨rfl, rfl⟩
  · cases hc : Tip.change d fn (tip.nodes.take tip.nodeCnt) with
    | error e => simp [hc, Except.map] at h
    | ok l =>
      simp only [hc, Except.map, Except.ok.injEq] at h
      subst h
      refine ⟨?_, rfl⟩
      rw [List.map_append, change_ids hfn hc, ← List.map_append, List.take_append_drop]

theorem setCpu_id {c : Nat} {n n' : Node} (h : n.setCpu c = .ok n') : n'.id = n.id := by
  unfold Node.setCpu at h
  split at h
  · obtain rfl := Except.ok.inj h
    rfl
  · simp at h

theorem newMem_id {r : Nat × Nat} {n n' : Node} (h : n.newMem r = .ok n') : n'.id = n.id := by
  unfold Node.newMem at h
  split at h
  · simp at h
  · split at h
    · obtain rfl := Except.ok.inj h
      rfl
    · simp at h

theorem Recorded.checkAndAdd {D : Finset Nat} (h : Recorded lapic I tip) (hd : Describes lapic D I tip)
    (hok : tip.checkAndAdd i.domain = .ok tip') :
    tip'.nodes.map Node.id = Topo.order (I ++ [i]) ∧ tip'.cpuToNode = tip.cpuToNode := by
  have hmem : tip.hasNode i.domain = true ↔ i.domain ∈ Topo.order I := by
    rw [hd.hasNode, ← hd.ids, h.order]
  unfold Tip.checkAndAdd at hok
  rw [order_append]
  split at hok
  · rename_i hhas
    obtain rfl := Except.ok.inj hok
    exact ⟨by rw [if_pos (hmem.mp hhas), h.order], rfl⟩
  · rename_i hhas
    unfold Tip.addNode at hok
    split at hok
    · obtain rfl := Except.ok.inj hok
      refine ⟨?_, rfl⟩
      rw [if_neg (mt hmem.mpr hhas), ← h.order]
      simp [Node.new]
    · simp at hok

theorem Recorded.handle {D : Finset Nat} (h : Recorded lapic I tip) (hd : Describes lapic D I tip)
    (hok : i.handle lapic tip = .ok tip') : Recorded lapic (I ++ [i]) tip' := by
  unfold Item.handle at hok
  cases hc : tip.checkAndAdd i.domain with
  | error e =>
    rw [hc] at hok
    simp [bind, Except.bind] at hok
  | ok tip₁ =>
    obtain ⟨hids, hcpus⟩ := h.checkAndAdd hd hc
    rw [hc] at hok
    simp only [bind, Except.bind] at hok
    cases i with
    | cpu d a =>
      simp only [Tip.addCpu, bind, Except.bind] at hok
      cases hn : tip₁.onNode d fun n => n.setCpu (lapic.lookup a) with
      | error e => simp [hn] at hok
      | ok tip₂ =>
        obtain ⟨hids₂, hcpus₂⟩ := onNode_same (fun _ _ => setCpu_id) hn
        simp only [hn] at hok
        split at hok
        · obtain rfl := Except.ok.inj hok
          refine ⟨hids₂.trans hids, fun c => ?_⟩
          rw [assigned_cpu]
          change Function.update tip₂.cpuToNode (lapic.lookup a) d c = _
          rw [hcpus₂, hcpus]
          by_cases hca : lapic.lookup a = c
          · subst hca
            rw [if_pos rfl, Function.update_self]
          · rw [if_neg hca, Function.update_of_ne (Ne.symm hca), h.cpus]
        · simp at hok
    | dram d r =>
      obtain ⟨hids₂, hcpus₂⟩ := onNode_same (fun _ _ => newMem_id) hok
      refine ⟨hids₂.trans hids, fun c => ?_⟩
      rw [assigned_dram, hcpus₂, hcpus, h.cpus]

theorem recorded_zeroed (lapic : Lapic) : Recorded lapic [] .zeroed := ⟨rfl, fun _ => rfl⟩

theorem recorded_all (hr : Recorded lapic I tip) (h : Describes lapic (domains I) I tip) (hf : Fits lapic I)
    (hok : J.foldlM (fun tip i => i.handle lapic tip) tip = .ok tip') : Recorded lapic (I ++ J) tip' := by
  induction J generalizing I tip with
  | nil =>
    obtain rfl := Except.ok.inj hok
    simpa using hr
  | cons i J ih =>
    rw [List.foldlM_cons] at hok
    rw [List.append_cons]
    rcases handle_eq h hf i with ⟨hf', tip₁, hi, h'⟩ | ⟨-, e, hi⟩
    · rw [hi] at hok
      exact ih (hr.handle h hi) h' hf' hok
    · rw [hi] at hok
      simp [bind, Except.bind] at hok

theorem assigned_mem {c : Nat} (h : ∃ d a, Item.cpu d a ∈ I ∧ lapic.lookup a = c) :
    ∃ a, .cpu (assigned lapic I c) a ∈ I ∧ lapic.lookup a = c := by
  induction I using List.reverseRecOn with
  | nil => simp at h
  | append_singleton I i ih =>
    cases i with
    | cpu e b =>
      rw [assigned_cpu]
      by_cases hb : lapic.lookup b = c
      · rw [if_pos hb]
        exact ⟨b, by simp, hb⟩
      · rw [if_neg hb]
        obtain ⟨d, a, hmem, ha⟩ := h
        have hold : Item.cpu d a ∈ I := by
          rcases List.mem_append.mp hmem with hmem | hmem
          · exact hmem
          · obtain ⟨-, rfl⟩ := Item.cpu.inj (List.mem_singleton.mp hmem)
            exact absurd ha hb
        obtain ⟨a', hmem', ha'⟩ := ih ⟨d, a, hold, ha⟩
        exact ⟨a', List.mem_append_left _ hmem', ha'⟩
    | dram e r =>
      rw [assigned_dram]
      obtain ⟨d, a, hmem, ha⟩ := h
      obtain ⟨a', hmem', ha'⟩ := ih ⟨d, a, by simpa using hmem, ha⟩
      exact ⟨a', List.mem_append_left _ hmem', ha'⟩

/-- Every CPU has one domain, whose number is its place in the order of the domains. -/
def InPlace (lapic : Lapic) (I : List Item) : Prop :=
  ∀ d a, Item.cpu d a ∈ I → (order I)[d]? = some d ∧ ∀ e b, Item.cpu e b ∈ I → lapic.lookup b = lapic.lookup a → e = d

/-- The CPU of every entry is found in the node of the domain that the entry gives. -/
def Found (lapic : Lapic) (I : List Item) (tip : Tip) : Prop :=
  ∀ d a, Item.cpu d a ∈ I → ∃ n, tip.lookup (lapic.lookup a) = some n ∧ n.id = d ∧ lapic.lookup a ∈ n.cpus

theorem found_iff (hr : Recorded lapic I tip) (h : Describes lapic (domains I) I tip) (hf : Fits lapic I) :
    Found lapic I tip ↔ InPlace lapic I := by
  have hplace : ∀ d : Nat, (order I)[d]? = (tip.nodes[d]?).map Node.id := by
    intro d
    rw [← hr.order, List.getElem?_map]
  constructor
  · intro hfound d a hmem
    obtain ⟨n, hn, hid, -⟩ := hfound d a hmem
    obtain ⟨b, hb, hba⟩ := assigned_mem ⟨d, a, hmem, rfl⟩
    have hone : ∀ e b, Item.cpu e b ∈ I → lapic.lookup b = lapic.lookup a → e = d := by
      intro e b he hba
      obtain ⟨n', hn', hid', -⟩ := hfound e b he
      rw [hba, hn, Option.some.injEq] at hn'
      rw [← hid', ← hn', hid]
    refine ⟨?_, hone⟩
    unfold Tip.lookup at hn
    rw [hr.cpus, hone _ b hb hba] at hn
    rw [hplace, hn, Option.map_some, hid]
  · intro hin d a hmem
    obtain ⟨hpos, hone⟩ := hin d a hmem
    obtain ⟨b, hb, hba⟩ := assigned_mem ⟨d, a, hmem, rfl⟩
    rw [hplace, Option.map_eq_some_iff] at hpos
    obtain ⟨n, hn, hid⟩ := hpos
    refine ⟨n, ?_, hid, ?_⟩
    · unfold Tip.lookup
      rw [hr.cpus, hone _ b hb hba, hn]
    · rw [h.cpus n (List.mem_of_getElem? hn), hid]
      exact ⟨hf.known d a hmem, a, hmem, rfl⟩

/-- The table is read, and then every processor in it is found where it says. -/
def Table.LooksUp (t : Table) (lapic : Lapic) : Prop :=
  ∃ fuel tip, t.parse lapic fuel = .ok tip ∧ Found lapic t.items tip

theorem Table.parse_recorded {t : Table} {fuel : Nat} (h : t.parse lapic fuel = .ok tip) :
    Recorded lapic t.items tip ∧ Describes lapic (domains t.items) t.items tip := by
  have hlong := parse_mono h (t.length + 1)
  rw [parse_eq (parse_sizes h) (by omega)] at hlong
  have hrec := recorded_all (J := t.items) (recorded_zeroed lapic) (describes_zeroed lapic) (fits_nil lapic) hlong
  refine ⟨hrec, ?_⟩
  rcases handleAll_eq (describes_zeroed lapic) (fits_nil lapic) t.items with ⟨-, tip', hp, hd⟩ | ⟨-, e, he⟩
  · rw [hlong] at hp
    obtain rfl := Except.ok.inj hp
    exact hd
  · rw [hlong] at he
    simp at he

theorem Table.LooksUp.inPlace {t : Table} (h : t.LooksUp lapic) : InPlace lapic t.items := by
  obtain ⟨fuel, tip, hp, hfound⟩ := h
  obtain ⟨hr, hd⟩ := parse_recorded hp
  exact (found_iff hr hd (parse_fits hp)).mp hfound

/-- When the nodes that are looked up are the right ones. -/
theorem looksUp_iff (t : Table) (lapic : Lapic) :
    t.LooksUp lapic ↔ (∀ p ∈ t.offsets, t.size p ≠ 0) ∧ Fits lapic t.items ∧ InPlace lapic t.items := by
  constructor
  · intro h
    have hin := h.inPlace
    obtain ⟨fuel, tip, hp, -⟩ := h
    exact ⟨Table.parse_sizes hp, Table.parse_fits hp, hin⟩
  · rintro ⟨hz, hf, hin⟩
    rcases handleAll_eq (describes_zeroed lapic) (fits_nil lapic) t.items with ⟨-, tip, hp, hd⟩ | ⟨hnf, -⟩
    · have hparse : t.parse lapic (t.length + 1) = .ok tip := by rw [Table.parse_eq hz (by omega), hp]
      exact ⟨t.length + 1, tip, hparse, (found_iff (Table.parse_recorded hparse).1 hd hf).mpr hin⟩
    · exact absurd hf hnf

/-- A table with one enabled processor, of APIC id 0, in domain 1. -/
def domainOne : Table := ⟨fun p => if p = 49 then 16 else if p = 50 then 1 else if p = 52 then 1 else 0, 64⟩

/-- Its processor is the kernel's only CPU, but there is no node behind the first one. -/
theorem domainOne_not_looksUp :
    (∀ d a, Item.cpu d a ∈ domainOne.items → oneCpu.lookup a < oneCpu.online) ∧ ¬domainOne.LooksUp oneCpu := by
  have hitems : domainOne.items = [.cpu 1 0] := by decide +kernel
  constructor
  · intro d a h
    rw [hitems, List.mem_singleton] at h
    obtain ⟨-, rfl⟩ := Item.cpu.inj h
    decide +kernel
  · intro h
    have hpos := (h.inPlace 1 0 (by simp [hitems])).1
    rw [hitems] at hpos
    exact absurd hpos (by decide)

end Tukija.Topo
