import Tukija.Spin.Lock

/-! The lock is given to one contender after the other, in the order of their
tickets.  The tickets that are still out are less than 256 apart. -/
namespace Tukija.Spin

variable {ι : Type}

/-- The register of a contender has its ticket `k`. -/
def HasTicket (drawn : List ι) (served : Nat) (i : ι) (tmp : BitVec 16) (k : Nat) : Prop :=
  drawn[k]? = some i ∧ served ≤ k ∧ high tmp = .ofNat 8 k

/-- What holds for a contender when `served` have unlocked.  In front of `cmpb` the
low byte of its register may be old, but not too old. -/
def At (drawn : List ι) (served : Nat) (i : ι) : Pc → Prop
  | .out => True
  | .cmpb tmp => ∃ k j, HasTicket drawn served i tmp k ∧ j ≤ served ∧ k < j + 256 ∧ low tmp = .ofNat 8 j
  | .movb tmp => ∃ k, HasTicket drawn served i tmp k
  | .locked => drawn[served]? = some i
  | .incb b => drawn[served]? = some i ∧ b = .ofNat 8 served

structure Inv (served : Nat) (s : Lock ι) : Prop where
  next_ticket : high s.val = .ofNat 8 s.drawn.length
  now_serving : low s.val = .ofNat 8 served
  served_le : served ≤ s.drawn.length
  nodup : (s.drawn.drop served).Nodup
  mem : ∀ i, i ∈ s.drawn.drop served ↔ s.pc i ≠ .out
  at_pc : ∀ i, At s.drawn served i (s.pc i)
  taken : (∃ i, (s.pc i).Inside) → s.granted = s.drawn.take (served + 1)
  free : (∀ i, ¬ (s.pc i).Inside) → s.granted = s.drawn.take served

theorem inv_init : Inv 0 (.init : Lock ι) := by
  constructor
  case next_ticket => exact high_zero
  case now_serving => exact low_zero
  case served_le => exact Nat.zero_le _
  case nodup => exact List.nodup_nil
  case mem => simp [Lock.init]
  case at_pc => exact fun _ => trivial
  case taken => exact fun ⟨_, h⟩ => h.elim
  case free => exact fun _ => rfl

/-! ## Tickets -/

theorem HasTicket.append {drawn : List ι} {served k : Nat} {i : ι} {tmp : BitVec 16}
    (h : HasTicket drawn served i tmp k) (x : ι) : HasTicket (drawn ++ [x]) served i tmp k := by
  have hk := (List.getElem?_eq_some_iff.mp h.1).1
  exact ⟨(List.getElem?_append_left hk).trans h.1, h.2⟩

theorem HasTicket.succ {drawn : List ι} {served k : Nat} {i h : ι} {tmp : BitVec 16}
    (ht : HasTicket drawn served i tmp k) (hs : drawn[served]? = some h) (hne : i ≠ h) :
    HasTicket drawn (served + 1) i tmp k := by
  have hk : k ≠ served := by
    rintro rfl
    exact hne (Option.some.inj (ht.1.symm.trans hs))
  exact ⟨ht.1, by have := ht.2.1; omega, ht.2.2⟩

theorem At.append {drawn : List ι} {served : Nat} {i : ι} {pc : Pc} (h : At drawn served i pc) (x : ι) :
    At (drawn ++ [x]) served i pc := by
  have hfront : ∀ k, drawn[k]? = some i → (drawn ++ [x])[k]? = some i := fun k hk =>
    (List.getElem?_append_left (List.getElem?_eq_some_iff.mp hk).1).trans hk
  cases pc with
  | out => trivial
  | cmpb tmp =>
    obtain ⟨k, j, ht, hj⟩ := h
    exact ⟨k, j, ht.append x, hj⟩
  | movb tmp =>
    obtain ⟨k, ht⟩ := h
    exact ⟨k, ht.append x⟩
  | locked => exact hfront _ h
  | incb b => exact ⟨hfront _ h.1, h.2⟩

theorem At.succ {drawn : List ι} {served : Nat} {i h : ι} {pc : Pc} (ha : At drawn served i pc)
    (hs : drawn[served]? = some h) (hne : i ≠ h) : At drawn (served + 1) i pc := by
  have hno : drawn[served]? ≠ some i := fun hi => hne (Option.some.inj (hi.symm.trans hs))
  cases pc with
  | out => trivial
  | cmpb tmp =>
    obtain ⟨k, j, ht, hj, hk⟩ := ha
    exact ⟨k, j, ht.succ hs hne, hj.trans (Nat.le_succ _), hk⟩
  | movb tmp =>
    obtain ⟨k, ht⟩ := ha
    exact ⟨k, ht.succ hs hne⟩
  | locked => exact absurd ha hno
  | incb b => exact absurd ha.1 hno

theorem At.of_inside {drawn : List ι} {served : Nat} {i : ι} {pc : Pc} (h : At drawn served i pc)
    (hi : pc.Inside) : drawn[served]? = some i := by
  cases pc with
  | locked => exact h
  | incb b => exact h.1
  | out => exact hi.elim
  | cmpb tmp => exact hi.elim
  | movb tmp => exact hi.elim

namespace Inv

variable {served : Nat} {s s' : Lock ι} {i j : ι}

theorem unique (h : Inv served s) (hi : (s.pc i).Inside) (hj : (s.pc j).Inside) : i = j :=
  Option.some.inj (((h.at_pc i).of_inside hi).symm.trans ((h.at_pc j).of_inside hj))

theorem granted_prefix (h : Inv served s) : s.granted <+: s.drawn := by
  by_cases hi : ∃ i, (s.pc i).Inside
  · rw [h.taken hi]
    exact List.take_prefix _ _
  · rw [h.free fun i hc => hi ⟨i, hc⟩]
    exact List.take_prefix _ _

theorem drawn_length [Fintype ι] (hcard : Fintype.card ι ≤ 256) (h : Inv served s) :
    s.drawn.length ≤ served + 256 := by
  have hle := h.nodup.length_le_card
  rw [List.length_drop] at hle
  omega

variable [DecidableEq ι]

theorem at_update (h : Inv served s) {drawn : List ι} {n : Nat} {pc : Pc} (hi : At drawn n i pc)
    (hother : ∀ j, j ≠ i → At s.drawn served j (s.pc j) → At drawn n j (s.pc j)) (j : ι) :
    At drawn n j (Function.update s.pc i pc j) := by
  by_cases hj : j = i
  · rw [hj, Function.update_self]
    exact hi
  · rw [Function.update_of_ne hj]
    exact hother j hj (h.at_pc j)

theorem inside_update {pc : Pc} (hpc : pc.Inside ↔ (s.pc i).Inside) (j : ι) :
    (Function.update s.pc i pc j).Inside ↔ (s.pc j).Inside := by
  by_cases hj : j = i
  · rw [hj, Function.update_self]
    exact hpc
  · rw [Function.update_of_ne hj]

theorem out_update {pc : Pc} (hout : s.pc i ≠ .out) (hpc : pc ≠ .out) (j : ι) :
    Function.update s.pc i pc j ≠ .out ↔ s.pc j ≠ .out := by
  by_cases hj : j = i
  · rw [hj, Function.update_self]
    exact iff_of_true hpc hout
  · rw [Function.update_of_ne hj]

theorem goto (h : Inv served s) {pc : Pc} (hout : s.pc i ≠ .out) (hpc : pc ≠ .out)
    (hat : At s.drawn served i pc) (hin : pc.Inside ↔ (s.pc i).Inside) : Inv served (s.goto i pc) := by
  constructor
  case next_ticket => exact h.next_ticket
  case now_serving => exact h.now_serving
  case served_le => exact h.served_le
  case nodup => exact h.nodup
  case mem => exact fun j => (h.mem j).trans (out_update hout hpc j).symm
  case at_pc => exact h.at_update hat fun _ _ => id
  case taken => exact fun ⟨j, hj⟩ => h.taken ⟨j, (inside_update hin j).mp hj⟩
  case free => exact fun hn => h.free fun j hj => hn j ((inside_update hin j).mpr hj)

theorem xadd [Fintype ι] (hcard : Fintype.card ι ≤ 256) (h : Inv served s) (hout : s.pc i = .out) :
    Inv served (s.xadd i) := by
  have hdrop : (s.drawn ++ [i]).drop served = s.drawn.drop served ++ [i] := List.drop_append_of_le_length h.served_le
  have hi : i ∉ s.drawn.drop served := fun hm => (h.mem i).mp hm hout
  have hnodup : ((s.drawn ++ [i]).drop served).Nodup := by
    rw [hdrop]
    exact List.nodup_append'.mpr ⟨h.nodup, List.nodup_singleton i, List.disjoint_singleton.mpr hi⟩
  -- its ticket is not the one that is served, unless nobody waits
  have hlt : s.drawn.length < served + 256 := by
    have hle := hnodup.length_le_card
    rw [hdrop, List.length_append, List.length_drop, List.length_singleton] at hle
    omega
  have hin : (Pc.cmpb s.val).Inside ↔ (s.pc i).Inside := by rw [hout]; rfl
  constructor
  case next_ticket =>
    show high (s.val + 0x100) = _
    rw [high_add, h.next_ticket, Lock.xadd, List.length_append, List.length_singleton, BitVec.ofNat_add]
    rfl
  case now_serving =>
    show low (s.val + 0x100) = _
    rw [low_add, h.now_serving]
  case served_le => exact h.served_le.trans (by simp [Lock.xadd])
  case nodup => exact hnodup
  case mem =>
    intro j
    show j ∈ (s.drawn ++ [i]).drop served ↔ _
    rw [Lock.xadd_pc, hdrop, List.mem_append, List.mem_singleton, h.mem j]
    by_cases hj : j = i
    · rw [hj, Function.update_self]
      exact iff_of_true (.inr rfl) nofun
    · rw [Function.update_of_ne hj]
      exact or_iff_left hj
  case at_pc =>
    refine h.at_update ⟨s.drawn.length, served, ⟨?_, h.served_le, h.next_ticket⟩, le_rfl, hlt, h.now_serving⟩
      fun _ _ ha => ha.append i
    exact List.getElem?_concat_length
  case taken =>
    intro ⟨j, hj⟩
    have hj := (inside_update hin j).mp hj
    have hs := (List.getElem?_eq_some_iff.mp ((h.at_pc j).of_inside hj)).1
    exact (h.taken ⟨j, hj⟩).trans (List.take_append_of_le_length hs).symm
  case free =>
    intro hn
    have hfree := h.free fun j hj => hn j ((inside_update hin j).mpr hj)
    exact hfree.trans (List.take_append_of_le_length h.served_le).symm

theorem ofNat_inj {j k : Nat} (hj : j ≤ k) (hk : k < j + 256) (h : BitVec.ofNat 8 k = BitVec.ofNat 8 j) : k = j := by
  have := congrArg BitVec.toNat h
  simp only [BitVec.toNat_ofNat] at this
  omega

theorem compare (h : Inv served s) {tmp : BitVec 16} (hpc : s.pc i = .cmpb tmp) : Inv served (s.compare i tmp) := by
  obtain ⟨k, j, ht, hj, hk, hlow⟩ : At s.drawn served i (.cmpb tmp) := hpc ▸ h.at_pc i
  unfold Lock.compare
  split_ifs with heq
  · obtain rfl : k = j := ofNat_inj (hj.trans ht.2.1) hk (ht.2.2.symm.trans (heq.trans hlow))
    obtain rfl : served = k := le_antisymm ht.2.1 hj
    -- it is the one that is served, so nobody else is inside
    have hnone : ∀ x, ¬ (s.pc x).Inside := by
      intro x hx
      obtain rfl : i = x := Option.some.inj (ht.1.symm.trans ((h.at_pc x).of_inside hx))
      rw [hpc] at hx
      exact hx
    have hout : s.pc i ≠ .out := by rw [hpc]; nofun
    constructor
    case next_ticket => exact h.next_ticket
    case now_serving => exact h.now_serving
    case served_le => exact h.served_le
    case nodup => exact h.nodup
    case mem =>
      intro x
      rw [Lock.grant_pc, out_update hout (by decide)]
      exact h.mem x
    case at_pc => exact h.at_update ht.1 fun _ _ => id
    case taken =>
      intro _
      show s.granted ++ [i] = s.drawn.take (served + 1)
      rw [List.take_add_one, ht.1, h.free hnone]
      rfl
    case free =>
      intro hn
      refine absurd ?_ (hn i)
      rw [Lock.grant_pc, Function.update_self]
      trivial
  · exact h.goto (by rw [hpc]; nofun) nofun ⟨k, ht⟩ (by rw [hpc]; rfl)

theorem load [Fintype ι] (hcard : Fintype.card ι ≤ 256) (h : Inv served s) {tmp : BitVec 16}
    (hpc : s.pc i = .movb tmp) : Inv served (s.load i tmp) := by
  obtain ⟨k, ht⟩ : At s.drawn served i (.movb tmp) := hpc ▸ h.at_pc i
  have hk := (List.getElem?_eq_some_iff.mp ht.1).1
  refine h.goto (by rw [hpc]; nofun) nofun ⟨k, served, ⟨ht.1, ht.2.1, ?_⟩, le_rfl, ?_, ?_⟩ (by rw [hpc]; rfl)
  · rw [high_withLow, ht.2.2]
  · exact hk.trans_le (h.drawn_length hcard)
  · rw [low_withLow, h.now_serving]

theorem increment (h : Inv served s) {b : BitVec 8} (hpc : s.pc i = .incb b) : Inv (served + 1) (s.increment i b) := by
  obtain ⟨hi, hb⟩ : At s.drawn served i (.incb b) := hpc ▸ h.at_pc i
  have hin : (s.pc i).Inside := by rw [hpc]; trivial
  obtain ⟨hlt, hget⟩ := List.getElem?_eq_some_iff.mp hi
  have hdrop : s.drawn.drop served = i :: s.drawn.drop (served + 1) := by rw [List.drop_eq_getElem_cons hlt, hget]
  have hnodup := h.nodup
  rw [hdrop, List.nodup_cons] at hnodup
  constructor
  case next_ticket => exact (high_withLow _ _).trans h.next_ticket
  case now_serving =>
    refine (low_withLow _ _).trans ?_
    rw [hb, BitVec.ofNat_add]
    rfl
  case served_le => exact hlt
  case nodup => exact hnodup.2
  case mem =>
    intro x
    show x ∈ s.drawn.drop (served + 1) ↔ _
    rw [Lock.increment_pc]
    by_cases hx : x = i
    · rw [hx, Function.update_self]
      exact iff_of_false hnodup.1 (not_not.mpr rfl)
    · rw [Function.update_of_ne hx, ← h.mem x, hdrop, List.mem_cons]
      exact (or_iff_right hx).symm
  case at_pc => exact h.at_update trivial fun _ hx ha => ha.succ hi hx
  case taken =>
    intro ⟨x, hx⟩
    by_cases hxi : x = i
    · rw [hxi, Lock.increment_pc, Function.update_self] at hx
      exact hx.elim
    · rw [Lock.increment_pc, Function.update_of_ne hxi] at hx
      exact absurd (h.unique hx hin) hxi
  case free => exact fun _ => h.taken ⟨i, hin⟩

/-! ## Runs -/

theorem step [Fintype ι] (hcard : Fintype.card ι ≤ 256) (h : Inv served s) {a : Act ι} (hs : s.step a = some s') :
    ∃ n, Inv n s' := by
  cases a with
  | lock i =>
    rw [Lock.step, Option.ite_none_right_eq_some] at hs
    exact ⟨served, Option.some.inj hs.2 ▸ h.xadd hcard hs.1⟩
  | unlock i =>
    rw [Lock.step, Option.ite_none_right_eq_some] at hs
    obtain ⟨hpc, hs⟩ := hs
    have hat : s.drawn[served]? = some i := (h.at_pc i).of_inside (by rw [hpc]; trivial)
    refine ⟨served, Option.some.inj hs ▸ h.goto ?_ nofun ⟨hat, h.now_serving⟩ ?_⟩
    · rw [hpc]
      nofun
    · rw [hpc]
      rfl
  | next i =>
    rw [Lock.step] at hs
    cases hpc : s.pc i with
    | out => rw [hpc] at hs; cases hs
    | locked => rw [hpc] at hs; cases hs
    | cmpb tmp =>
      rw [hpc] at hs
      exact ⟨served, Option.some.inj hs ▸ h.compare hpc⟩
    | movb tmp =>
      rw [hpc] at hs
      exact ⟨served, Option.some.inj hs ▸ h.load hcard hpc⟩
    | incb b =>
      rw [hpc] at hs
      exact ⟨served + 1, Option.some.inj hs ▸ h.increment hpc⟩

theorem run [Fintype ι] (hcard : Fintype.card ι ≤ 256) (h : Inv served s) {as : List (Act ι)}
    (hs : s.run as = some s') : ∃ n, Inv n s' := by
  induction as generalizing s served with
  | nil => exact ⟨served, Option.some.inj hs ▸ h⟩
  | cons a as ih =>
    obtain ⟨s₁, h₁, hr⟩ := Option.bind_eq_some_iff.mp hs
    obtain ⟨n, hn⟩ := h.step hcard h₁
    exact ih hn hr

end Inv

/-- At most one contender has the lock, and it is granted in the order of the
tickets. -/
theorem lock_exclusive_fair [Fintype ι] [DecidableEq ι] (hcard : Fintype.card ι ≤ 256) {as : List (Act ι)}
    {s : Lock ι} (hs : Lock.init.run as = some s) :
    (∀ i j, (s.pc i).Inside → (s.pc j).Inside → i = j) ∧ s.granted <+: s.drawn := by
  obtain ⟨n, h⟩ := inv_init.run hcard hs
  exact ⟨fun i j => h.unique, h.granted_prefix⟩

def handover : List (Act Bool) :=
  [.lock true, .lock false, .next true, .next false, .unlock true, .next true, .next false, .next false]

theorem lock_exclusive_fair_handover :
    ∃ s, Lock.init.run handover = some s ∧ (s.pc false).Inside ∧
      (∀ i j, (s.pc i).Inside → (s.pc j).Inside → i = j) ∧ s.granted <+: s.drawn := by
  have hpc : (Lock.init.run handover).map (fun s => s.pc false) = some .locked := by decide
  obtain ⟨s, hs, hf⟩ := Option.map_eq_some_iff.mp hpc
  exact ⟨s, hs, hf ▸ trivial, lock_exclusive_fair (by decide) hs⟩

end Tukija.Spin
