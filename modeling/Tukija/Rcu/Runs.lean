import Tukija.Rcu.Steps

/-! Grace periods: calls, callbacks, `quiet`, and runs. -/
namespace Tukija.Rcu

open Tukija.Lib.Word

variable {ι : Type} [DecidableEq ι] {g : Epoch ι} {i j : ι} {c : Cpu} {M M' : Elems}
  {log : List (Event ι)} {e : ElemId}

/-- The batch after `quiet` on `i`. -/
def Epoch.quiet (g : Epoch ι) (i : ι) : Epoch ι := { g with did := insert i g.did }

theorem Waits.sub (h : Waits g log i c M) (hM : ∀ k, ∀ x ∈ M' k, x ∈ M k) : Waits g log i c M' := by
  refine ⟨fun hf x hx => h.next hf x (hM _ x hx), fun hne => h.due ?_, fun x hx => h.curr x (hM _ x hx),
    fun x hx => h.done x (hM _ x hx), fun k hk x hx => h.called k hk x (hM _ x hx)⟩
  intro hnil
  obtain ⟨x, hx⟩ := List.exists_mem_of_ne_nil _ hne
  have := hM _ x hx
  rw [hnil] at this
  simp at this

theorem Waits.quiet (h : Waits g log j c M) (hj : c.pc = .complete → j ≠ i) :
    Waits (g.quiet i) (.quiet i :: log) j c M := by
  have hseen : ∀ x, (∀ k ∈ g.did, Seen log x k) →
      ∀ k ∈ (g.quiet i).did, Seen (.quiet i :: log) x k := by
    intro x hx k hk
    rcases Finset.mem_insert.mp hk with rfl | hk
    · exact seen_quiet _ _ _
    · exact (hx k hk).cons (by simp)
  have hl := h.later (x := .quiet i) (by simp)
  refine ⟨fun hf x hx hb => hseen x (h.next hf x hx hb), fun hne => ?_,
    fun x hx => ⟨fun hb => hseen x ((h.curr x hx).1 hb), (hl.curr x hx).2⟩, hl.done, hl.called⟩
  obtain ⟨h1, h2, h3⟩ := h.due hne
  refine ⟨h1, h2, h3.imp_right ?_⟩
  rintro ⟨hp, hlast, hbatch, hdid⟩
  refine ⟨hp, hlast, hbatch, ?_⟩
  simp only [Epoch.quiet, Finset.mem_insert, not_or]
  exact ⟨hj hp, hdid⟩

theorem Waits.call (h : Waits g log i c M) (hf : c.pc.fresh = false) (ha : Apart M)
    (hM : Enqueued M M' e) : Waits g (.call e :: log) i c M' := by
  have hcurr : M' .curr = M .curr := by
    rcases hM with ⟨rfl, -⟩ | ⟨-, rfl⟩
    · rfl
    · simp [Elems.called]
  have hdone : M' .done = M .done := by
    rcases hM with ⟨rfl, -⟩ | ⟨-, rfl⟩
    · rfl
    · simp [Elems.called]
  -- `e` was not among those that wait already
  have hne : ∀ k, k ≠ .transit → k ≠ .next → ∀ x ∈ M k, Event.call (ι := ι) e ≠ .call x := by
    rintro k hk hk' x hx heq
    obtain rfl := Event.call.inj heq
    rcases hM with ⟨-, hlast⟩ | ⟨hm, -⟩
    · exact hk' (ha.apart k .next _ hx (List.mem_of_getLast? hlast))
    · exact hk (ha.apart k .transit _ hx (by simp [hm]))
  have hnext : ∀ x ∈ M' .next, x = e ∨ x ∈ M .next := by
    intro x hx
    rcases hM with ⟨rfl, -⟩ | ⟨-, rfl⟩
    · exact .inr hx
    · simpa [Elems.called, or_comm] using hx
  have hold : ∀ k, k ≠ .transit → ∀ x ∈ M k, Event.call (ι := ι) e ≠ .call x →
      .call x ∈ Event.call e :: log ∧ .invoke x ∉ since (.call e :: log) x := by
    intro k hk x hx hxe
    obtain ⟨h1, h2⟩ := h.called k hk x hx
    refine ⟨List.mem_cons_of_mem _ h1, ?_⟩
    rw [since_cons hxe]
    simpa using h2
  refine ⟨?_, ?_, ?_, ?_, ?_⟩
  · intro hfresh
    rw [hf] at hfresh
    simp at hfresh
  · rw [hcurr]
    exact h.due
  · rw [hcurr]
    intro x hx
    have hx' := hne .curr (by simp) (by simp) x hx
    exact ⟨fun hb k hk => ((h.curr x hx).1 hb k hk).cons hx',
      fun hb k => ((h.curr x hx).2 hb k).cons hx'⟩
  · rw [hdone]
    exact fun x hx k => (h.done x hx k).cons (hne .done (by simp) (by simp) x hx)
  · intro k hk x hx
    by_cases hxe : x = e
    · subst hxe
      rw [since_call]
      simp
    · have hxe' : Event.call (ι := ι) e ≠ .call x := fun heq => hxe (Event.call.inj heq).symm
      cases k with
      | transit => exact absurd rfl hk
      | next => exact hold .next hk x ((hnext x hx).resolve_left hxe) hxe'
      | curr => exact hold .curr hk x (hcurr ▸ hx) hxe'
      | done => exact hold .done hk x (hdone ▸ hx) hxe'

theorem Timely.quiet (h : Timely g j c) (hj : j ≠ i) : Timely (g.quiet i) j c := by
  refine ⟨h.last, h.lBatch, fun hd => h.did ?_, ?_, h.again, h.cas, h.calls⟩
  · exact (Finset.mem_insert.mp hd).resolve_left hj
  · rw [h.hazard]
    simp [Epoch.quiet, hj]

variable [Fintype ι] {s : Machine ι} {L : ι → Elems}

theorem Kept.dispatch (hk : Kept s g L) (hc : (s.cpu i).call = none)
    (hp : (s.cpu i).pc = .dispatch) :
    Kept (s.put i { s.cpu i with
      pc := if (s.cpu i).done.empty then .out else .invoke (s.cpu i).done.head }) g L := by
  apply hk.put ((hk.shape.own i).dispatch (hk.shape.apart_own i) hp)
  · split <;> simp [Pc.ends]
  · split <;> simp [Pc.starts]
  · rw [hp]
    split <;> rfl
  · split <;> simp
  · exact (hk.timely i).goto (by split <;> simp) (by split <;> simp) hc
  · exact (hk.waits i).goto (by split <;> rfl) (by simp [hp])

theorem Kept.invoke {n : Link} (hk : Kept s g L) (hc : (s.cpu i).call = none)
    (hp : (s.cpu i).pc = .invoke n) :
    ∃ e xs, n = .elem e ∧ L i .done = e :: xs ∧ Kept ({ s with
      link := Function.update s.link e .null, log := .invoke e :: s.log }.put i
        { s.cpu i with pc := .callback (s.link e) }) g (Function.update L i (Function.update (L i) .done xs)) := by
  obtain ⟨e, xs, rfl, hm, ho⟩ := (hk.shape.own i).invoke (hk.shape.apart_own i) hc hp
  have hmem : e ∈ L i .done := by simp [hm]
  have ha := (hk.shape.apart_own i).invoked hm
  have hsub : ∀ k, ∀ x ∈ Function.update (L i) .done xs k, x ∈ L i k := by
    intro k x hx
    by_cases hkd : k = .done
    · subst hkd
      rw [Function.update_self] at hx
      rw [hm]
      exact List.mem_cons_of_mem _ hx
    · rwa [Function.update_of_ne hkd] at hx
  -- `e` is in no list any more
  have hout : ∀ k, e ∉ Function.update (L i) .done xs k := by
    intro k he
    obtain rfl := (hk.shape.apart_own i).apart k .done e (hsub k e he) hmem
    rw [Function.update_self] at he
    have hnd := hk.shape.nodup i .done
    rw [hm] at hnd
    exact (List.nodup_cons.mp hnd).1 he
  refine ⟨e, xs, rfl, hm, ?_, ?_, ?_, ?_, ?_⟩
  · apply hk.shape.move ha (fun k x hx => .inl ⟨k, hsub k x hx⟩) _ ho
    intro j hj k x hx
    apply Function.update_of_ne
    rintro rfl
    exact hj (hk.shape.apart j k i .done x hx hmem).1
  · exact hk.clock.put (by simp [Pc.ends]) (by simp [Pc.starts]) (by rw [hp]; rfl) (by simp)
  · apply (Function.forall_update_iff s.cpu fun j d => Timely g j d).mpr
    exact ⟨(hk.timely i).goto (by simp) (by simp) hc, fun j _ => hk.timely j⟩
  · intro j
    by_cases hj : j = i
    · subst hj
      show Waits g (.invoke e :: s.log) j (Function.update s.cpu j _ j) (Function.update L j _ j)
      rw [Function.update_self, Function.update_self]
      apply (((hk.waits j).goto rfl (by simp [hp])).sub hsub).later
      rintro k - x hx
      refine ⟨by simp, fun heq => ?_⟩
      obtain rfl := Event.invoke.inj heq
      exact hout k hx
    · show Waits g (.invoke e :: s.log) j (Function.update s.cpu i _ j) (Function.update L i _ j)
      rw [Function.update_of_ne hj, Function.update_of_ne hj]
      apply (hk.waits j).later
      rintro k - x hx
      refine ⟨by simp, fun heq => ?_⟩
      obtain rfl := Event.invoke.inj heq
      exact hj (hk.shape.apart j k i .done e hx hmem).1
  · apply hk.graceful.cons
    intro x hx
    obtain rfl := Event.invoke.inj hx
    obtain ⟨h1, h2⟩ := (hk.waits i).called .done (by simp) e hmem
    exact ⟨h1, h2, (hk.waits i).done e hmem⟩

theorem Kept.callback {n : Link} (hk : Kept s g L) (hc : (s.cpu i).call = none)
    (hp : (s.cpu i).pc = .callback n) :
    Kept (if n = (s.cpu i).done.head then s.put i { s.cpu i with done := .clear, pc := .out }
      else s.put i { s.cpu i with pc := .invoke n }) g L := by
  have ho := (hk.shape.own i).callback hp
  have hw := hk.waits i
  split at ho
  · rename_i hn
    rw [if_pos hn]
    apply hk.put ho.2
    · simp [Pc.ends]
    · simp [Pc.starts]
    · rw [hp]
      rfl
    · simp
    · exact (hk.timely i).pc rfl rfl (by simp) (by simp) (fun h => absurd hc h)
    · exact hw.pc rfl rfl (by simp [hp])
  · rename_i hn
    rw [if_neg hn]
    apply hk.put ho
    · simp [Pc.ends]
    · simp [Pc.starts]
    · rw [hp]
      rfl
    · simp
    · exact (hk.timely i).goto (by simp) (by simp) hc
    · exact hw.goto rfl (by simp [hp])

theorem Clock.quiet {v n : Mword} {cpu : ι → Cpu} (h : Clock v n cpu g)
    (hcard : Fintype.card ι < 2 ^ 32) (hi : i ∉ g.did)
    (hc : c.pc = if n - 1 = 0 then .read .cmp .quiet else .out) :
    Clock v (n - 1) (Function.update cpu i c) (g.quiet i) := by
  have hcmp : g.cmp = false := by
    by_contra hcmp
    rw [h.full (by simpa using hcmp)] at hi
    simp at hi
  have hstarts := h.no_start (by simp [hcmp])
  have hends : ∀ j, (cpu j).pc.ends = false := by
    intro j
    by_contra he
    have := (h.ends j (by simpa using he)).2
    rw [this] at hi
    simp at hi
  -- the countdown counts those that have not been here
  have hcount := h.count fun j => loaded_of_not_starts (hstarts j)
  have hcompl : g.didᶜ.card = (insert i g.did)ᶜ.card + 1 := by
    rw [Finset.compl_insert, Finset.card_erase_add_one (by simpa using hi)]
  have hn : n - 1 = BitVec.ofNat 64 (insert i g.did)ᶜ.card := by
    rw [hcount, hcompl]
    apply BitVec.eq_of_toNat_eq
    have := Finset.card_le_univ g.didᶜ
    rw [BitVec.toNat_sub, BitVec.toNat_ofNat, BitVec.toNat_ofNat, show (1 : Mword).toNat = 1 from rfl]
    omega
  have hzero : n - 1 = 0 → insert i g.did = Finset.univ := by
    intro hz
    have hlt := Finset.card_le_univ (insert i g.did)ᶜ
    have hcz : (insert i g.did)ᶜ.card = 0 := by
      have := congrArg BitVec.toNat (hn.symm.trans hz)
      simp only [BitVec.toNat_ofNat] at this
      rwa [Nat.mod_eq_of_lt (by omega)] at this
    rw [← Finset.compl_eq_empty_iff]
    exact Finset.card_eq_zero.mp hcz
  have hpc : ∀ j, (Function.update cpu i c j).pc.starts = false := by
    rw [Function.forall_update_iff cpu fun _ d => d.pc.starts = false]
    refine ⟨?_, fun j _ => hstarts j⟩
    rw [hc]
    split <;> rfl
  have hend : ∀ j, (Function.update cpu i c j).pc.ends = true → j = i ∧ n - 1 = 0 := by
    rw [Function.forall_update_iff cpu fun j d => d.pc.ends = true → j = i ∧ n - 1 = 0]
    refine ⟨?_, fun j _ he => ?_⟩
    · rw [hc]
      split
      · exact fun _ => ⟨rfl, ‹_›⟩
      · simp [Pc.ends]
    · rw [hends j] at he
      simp at he
  refine ⟨h.state, ?_, fun _ => hn, ?_, fun j hj => ⟨hcmp, hzero (hend j hj).2⟩,
    fun j k hj hk => (hend j hj).1.trans (hend k hk).1.symm, ?_, ?_, ?_⟩
  · intro hcmp'
    rw [show g.cmp = true from hcmp'] at hcmp
    simp at hcmp
  · intro j hj
    rw [loaded_of_not_starts (hpc j)] at hj
    simp at hj
  · intro j hj
    rw [hpc j] at hj
    simp at hj
  · intro j k hj
    rw [hpc j] at hj
    simp at hj
  · intro j b w hj
    have := hpc j
    rw [hj] at this
    simp [Pc.starts] at this

theorem Kept.quiet (hk : Kept s g L) (hcard : Fintype.card ι < 2 ^ 32)
    (hc : (s.cpu i).call = none) (hp : (s.cpu i).pc = .out) (hz : (s.cpu i).hazard = true) :
    Kept ({ s with count := s.count - 1, log := .quiet i :: s.log }.put i { s.cpu i with
      hazard := false, pc := if s.count - 1 = 0 then .read .cmp .quiet else .out }) (g.quiet i) L := by
  have ht := hk.timely i
  have hw := hk.waits i
  obtain ⟨hlast, hdid⟩ := ht.hazard.mp hz
  refine ⟨hk.shape.put ?_, hk.clock.quiet hcard hdid rfl, ?_, ?_, ?_⟩
  · refine (hk.shape.own i).pc rfl rfl rfl rfl (by rw [hp]; rfl) (by split <;> rfl) fun _ => ?_
    rw [hp]
    rfl
  · apply (Function.forall_update_iff s.cpu fun j d => Timely (g.quiet i) j d).mpr
    refine ⟨?_, fun j hj => (hk.timely j).quiet hj⟩
    refine ⟨ht.last, ht.lBatch, fun _ => hlast, ?_, ?_, ?_, fun h => absurd hc h⟩
    · simp [Epoch.quiet]
    · split <;> simp
    · split <;> simp
  · apply (Function.forall_update_iff s.cpu fun j d => Waits (g.quiet i) (.quiet i :: s.log) j d (L j)).mpr
    refine ⟨?_, fun j hj => (hk.waits j).quiet fun _ => hj⟩
    exact (hw.quiet (by simp [hp])).pc rfl (by split <;> rfl) (by simp [hp])
  · exact hk.graceful.cons (by simp)

theorem Kept.startCall (hk : Kept s g L) (hc : (s.cpu i).call = none)
    (hcalls : (s.cpu i).pc.calls = true) (e : ElemId) : Kept (s.startCall i e) g L := by
  have ht := hk.timely i
  have hw := hk.waits i
  have hput : ∀ k, Own s.link { s.cpu i with call := some k } (L i) →
      Kept (s.put i { s.cpu i with call := some k }) g L := by
    intro k ho
    exact hk.put ho id id rfl (hk.clock.store i)
      ⟨ht.last, ht.lBatch, ht.did, ht.hazard, ht.again, ht.cas, fun _ => hcalls⟩
      ⟨hw.next, hw.due, hw.curr, hw.done, hw.called⟩
  exact hput _ ((hk.shape.own i).tests (by rw [hc]; rfl) (by split <;> rfl))

theorem fresh_of_calls {p : Pc} (h : p.calls = true) : p.fresh = false := by
  cases p <;> simp_all [Pc.calls, Pc.fresh]

omit [DecidableEq ι] [Fintype ι] in
/-- The last test of `enqueue` goes on to the tail with nothing but the last element of
the CPU's own list. -/
theorem Machine.unraced_fresh (hr : s.unraced i .step = true) (hc : (s.cpu i).call = some (.fresh e)) :
    s.link e = .null ∨ (s.cpu i).next.tail = .next e := by
  unfold Machine.unraced at hr
  rw [hc] at hr
  simpa using hr

/-- The element that is marked has been in no list. -/
theorem Kept.mark (hk : Kept s g L) (hc : (s.cpu i).call = some (.mark e)) (hnull : s.link e = .null) :
    Kept ({ s with link := Function.update s.link e .inUse }.put i { s.cpu i with call := some (.peek e) }) g
      (Function.update L i (Function.update (L i) .transit [e])) := by
  have ht := hk.timely i
  have hw := hk.waits i
  have hcalls := ht.calls (by simp [hc])
  have hout : ∀ j k, e ∉ L j k := fun j k he => (hk.shape.own j).link_ne_null he hnull
  have hsame : ∀ k, k ≠ .transit → Function.update (L i) .transit [e] k = L i k :=
    fun k hkt => Function.update_of_ne hkt _ _
  refine hk.step (i := i) (u := g) (M := Function.update (L i) .transit [e]) rfl rfl rfl rfl
    (fun _ _ => rfl) (fun _ _ => rfl)
    (hk.shape.move ((hk.shape.apart_own i).marked (hout i)) ?_ ?_ ((hk.shape.own i).mark hc (hout i)))
    (hk.clock.put id id rfl (hk.clock.store i)) ?_ ?_
  · intro k x hx
    by_cases hkt : k = .transit
    · subst hkt
      rw [Function.update_self, List.mem_singleton] at hx
      exact .inr (hx ▸ hout)
    · exact .inl ⟨k, hsame k hkt ▸ hx⟩
  · intro j _ k x hx
    apply Function.update_of_ne
    rintro rfl
    exact hout j k hx
  · exact ⟨ht.last, ht.lBatch, ht.did, ht.hazard, ht.again, ht.cas, fun _ => hcalls⟩
  · refine ⟨?_, ?_, ?_, ?_, ?_⟩
    · rw [hsame .next (by simp)]
      exact hw.next
    · rw [hsame .curr (by simp)]
      exact hw.due
    · rw [hsame .curr (by simp)]
      exact hw.curr
    · rw [hsame .done (by simp)]
      exact hw.done
    · intro k hkt
      rw [hsame k hkt]
      exact hw.called k hkt

/-- The element goes to the end of `next`, where it has been marked or was the last one. -/
theorem Kept.linkTail {old : Link} (hk : Kept s g L) (hc : (s.cpu i).call = some (.link e old)) :
    ∃ M, Change i s.log (L i) (s.stepCall i (.link e old)).log M ∧ M .done = L i .done ∧
      Kept (s.stepCall i (.link e old)) g (Function.update L i M) := by
  have ht := hk.timely i
  have hw := hk.waits i
  have hcalls := ht.calls (by simp [hc])
  obtain ⟨heq, hframe, M', hM, ho'⟩ := (hk.shape.own i).link (hk.shape.apart_own i) hc
  have ha := hk.shape.apart_own i
  have hmem : ∃ k, e ∈ L i k := by
    rcases hM with ⟨-, hlast⟩ | ⟨hm, -⟩
    · exact ⟨.next, List.mem_of_getLast? hlast⟩
    · exact ⟨.transit, by simp [hm]⟩
  have hsub : ∀ k, ∀ x ∈ M' k, ∃ k', x ∈ L i k' := by
    intro k x hx
    rcases hM with ⟨rfl, -⟩ | ⟨hm, rfl⟩
    · exact ⟨k, hx⟩
    · cases k with
      | transit => simp [Elems.called] at hx
      | next =>
        simp only [Elems.called, Function.update_self, List.mem_append, List.mem_singleton] at hx
        rcases hx with hx | rfl
        · exact ⟨_, hx⟩
        · exact hmem
      | curr => exact ⟨.curr, by simpa [Elems.called] using hx⟩
      | done => exact ⟨.done, by simpa [Elems.called] using hx⟩
  have hchange : Change i s.log (L i) (.call e :: s.log) M' ∧ M' .done = L i .done := by
    rcases hM with ⟨rfl, hlast⟩ | ⟨hm, rfl⟩
    · exact ⟨.again hlast, rfl⟩
    · exact ⟨.call hm, by simp [Elems.called]⟩
  simp only [Machine.stepCall, if_pos heq]
  refine ⟨M', hchange.1, hchange.2, hk.shape.move (ha.enqueued hM) (fun k x hx => .inl (hsub k x hx))
    (hk.shape.frame hframe) ho', hk.clock.put id id rfl (hk.clock.store i), ?_, ?_,
    hk.graceful.cons (by simp)⟩
  · apply (Function.forall_update_iff s.cpu fun j d => Timely g j d).mpr
    exact ⟨⟨ht.last, ht.lBatch, ht.did, ht.hazard, ht.again, ht.cas, fun h => absurd rfl h⟩,
      fun j _ => hk.timely j⟩
  · intro j
    by_cases hj : j = i
    · subst hj
      show Waits g (.call e :: s.log) j (Function.update s.cpu j _ j) (Function.update L j _ j)
      rw [Function.update_self, Function.update_self]
      have h := hw.call (fresh_of_calls hcalls) ha hM
      exact ⟨h.next, h.due, h.curr, h.done, h.called⟩
    · show Waits g (.call e :: s.log) j (Function.update s.cpu i _ j) (Function.update L i _ j)
      rw [Function.update_of_ne hj, Function.update_of_ne hj]
      apply (hk.waits j).later
      rintro k - x hx
      refine ⟨fun heq => ?_, by simp⟩
      obtain rfl := Event.call.inj heq
      obtain ⟨k', hk'⟩ := hmem
      exact hj (hk.shape.apart j k i k' e hx hk').1

theorem Kept.stepCall {k : Calling} (hk : Kept s g L) (hc : (s.cpu i).call = some k)
    (hr : s.unraced i .step = true) :
    ∃ M, Change i s.log (L i) (s.stepCall i k).log M ∧ M .done = L i .done ∧
      Kept (s.stepCall i k) g (Function.update L i M) := by
  have ht := hk.timely i
  have hw := hk.waits i
  have ho := hk.shape.own i
  have hcalls := ht.calls (by simp [hc])
  have hput : ∀ k, Own s.link { s.cpu i with call := k } (L i) →
      Kept (s.put i { s.cpu i with call := k }) g (Function.update L i (L i)) := by
    intro k ho
    rw [Function.update_eq_self]
    exact hk.put ho id id rfl (hk.clock.store i)
      ⟨ht.last, ht.lBatch, ht.did, ht.hazard, ht.again, ht.cas, fun _ => hcalls⟩
      ⟨hw.next, hw.due, hw.curr, hw.done, hw.called⟩
  cases k with
  | other e => exact ⟨L i, .same, rfl, hput _ (ho.tests (by rw [hc]; rfl) (by split <;> rfl))⟩
  | test e =>
    simp only [Machine.stepCall]
    split
    · exact ⟨L i, .same, rfl, hput _ (ho.tests (by rw [hc]; rfl) rfl)⟩
    · exact ⟨L i, .same, rfl, hput _ (ho.tests (by rw [hc]; rfl) rfl)⟩
  | fresh e =>
    simp only [Machine.stepCall]
    split
    · exact ⟨L i, .same, rfl, hput _ (ho.tests (by rw [hc]; rfl) rfl)⟩
    · have htail := (Machine.unraced_fresh hr hc).resolve_left ‹_›
      exact ⟨L i, .same, rfl, hput _ (ho.again (by rw [hc]; rfl) htail)⟩
  | mark e =>
    simp only [Machine.stepCall]
    split
    · next hnull =>
      have hdone : Function.update (L i) .transit [e] .done = L i .done := Function.update_of_ne (by simp) _ _
      exact ⟨_, .mark e, hdone, hk.mark hc hnull⟩
    · exact ⟨L i, .same, rfl, hput _ (ho.tests (by rw [hc]; rfl) rfl)⟩
  | peek e => exact ⟨L i, .same, rfl, hput _ (ho.peek hc)⟩
  | link e old => exact hk.linkTail hc

theorem Kept.stepPc (hk : Kept s g L) (hcard : Fintype.card ι < 2 ^ 32) (hc : (s.cpu i).call = none) :
    ∃ g' M, Change i s.log (L i) (s.stepPc i).log M ∧ Kept (s.stepPc i) g' (Function.update L i M) := by
  have hsame : ∀ {t : Machine ι} {g'}, t.log = s.log → Kept t g' L →
      ∃ g' M, Change i s.log (L i) t.log M ∧ Kept t g' (Function.update L i M) := by
    intro t g' hlog h
    refine ⟨g', L i, hlog ▸ .same, ?_⟩
    rwa [Function.update_eq_self]
  unfold Machine.stepPc
  dsimp only
  split
  · exact hsame rfl hk
  · exact hsame rfl (hk.batch hc ‹_›)
  · obtain ⟨g', h⟩ := hk.again hc ‹_›
    exact hsame rfl h
  · split
    · rename_i hp hcond
      simp only [Bool.and_eq_true, Bool.not_eq_true'] at hcond
      obtain ⟨hdone, h⟩ := hk.complete hc hp hcond.1 hcond.2
      exact ⟨g, _, .complete hdone, h⟩
    · exact hsame rfl (hk.incomplete hc ‹_› ‹_›)
  · split
    · rename_i hp hcond
      simp only [Bool.and_eq_true, Bool.not_eq_true'] at hcond
      obtain ⟨hcurr, g', h⟩ := hk.advance hc hp hcond.1 hcond.2
      exact ⟨g', _, .advance hcurr, h⟩
    · exact hsame rfl (hk.skip hc ‹_›)
  · exact hsame rfl (hk.read hc ‹_›)
  · split
    · obtain ⟨g', h⟩ := hk.cas hc ‹_› ‹_›
      exact hsame rfl h
    · exact hsame rfl (hk.retry hc ‹_›)
  · exact hsame rfl (hk.count hc ‹_›)
  · exact hsame rfl (hk.load hc ‹_›)
  · obtain ⟨g', h⟩ := hk.store hcard hc ‹_›
    exact hsame rfl h
  · exact hsame rfl (hk.dispatch hc ‹_›)
  · obtain ⟨e, xs, he, hm, h⟩ := hk.invoke hc ‹_›
    obtain rfl := Link.elem.inj he
    exact ⟨g, _, .invoke hm, h⟩
  · exact hsame rfl hk
  · refine hsame ?_ (hk.callback hc ‹_›)
    split <;> rfl

theorem Kept.act (hk : Kept s g L) (hcard : Fintype.card ι < 2 ^ 32) (i : ι) (a : Act)
    (hr : s.unraced i a = true) :
    ∃ g' M, Change i s.log (L i) (s.act i a).log M ∧ Kept (s.act i a) g' (Function.update L i M) := by
  have hsame : ∀ {t : Machine ι}, t.log = s.log → Kept t g L →
      ∃ g' M, Change i s.log (L i) t.log M ∧ Kept t g' (Function.update L i M) := by
    intro t hlog h
    refine ⟨g, L i, hlog ▸ .same, ?_⟩
    rwa [Function.update_eq_self]
  unfold Machine.act
  dsimp only
  split
  · obtain ⟨M, hM, -, h⟩ := hk.stepCall ‹_› hr
    exact ⟨g, M, hM, h⟩
  · exact hk.stepPc hcard ‹_›
  · split
    · exact hsame rfl (hk.startCall ‹_› ‹_› _)
    · exact hsame rfl hk
  · split
    · exact hsame rfl (hk.update ‹_› ‹_›)
    · exact hsame rfl hk
  · split
    · rename_i hcond
      refine ⟨g.quiet i, L i, .quiet, ?_⟩
      rw [Function.update_eq_self]
      exact hk.quiet hcard ‹_› hcond.1 hcond.2
    · exact hsame rfl hk
  · exact hsame rfl hk

def Epoch.boot (ι : Type) [Fintype ι] : Epoch ι := ⟨0, true, false, Finset.univ, fun _ => 0, fun _ => 0⟩

theorem kept_boot : Kept (Machine.boot ι) (Epoch.boot ι) fun _ _ => [] := by
  refine ⟨⟨by simp, by simp, fun _ => ⟨?_, ?_, ?_, rfl⟩⟩, ?_, fun _ => ?_, fun _ => ?_, ?_⟩
  · exact rep_clear _ _
  · exact rep_clear _ _
  · exact ⟨rep_clear _ _, fun _ => rfl⟩
  · have hstate : (1 : Mword) = stateWord 0 true false := by decide
    refine ⟨hstate, fun _ => rfl, ?_, ?_, ?_, ?_, ?_, ?_, ?_⟩ <;>
      simp [Machine.boot, Cpu.boot, Epoch.boot, Pc.loaded, Pc.ends, Pc.starts]
  · have hbatch : (0 : Mword) = epoch 0 >>> 2 := by decide
    refine ⟨.inl rfl, hbatch, fun _ => rfl, ?_, ?_, ?_, ?_⟩ <;>
      simp [Machine.boot, Cpu.boot, Epoch.boot]
  · exact ⟨by simp, by simp, by simp, by simp, by simp⟩
  · intro newer e older heq
    simp [Machine.boot] at heq

theorem Kept.after (hk : Kept s g L) (hcard : Fintype.card ι < 2 ^ 32) (acts : List (ι × Act))
    (hr : s.Meets Machine.unraced acts) : ∃ g' L', Kept (s.after acts) g' L' := by
  induction acts generalizing s g L with
  | nil => exact ⟨g, L, hk⟩
  | cons x acts ih =>
    obtain ⟨g', M, -, h⟩ := hk.act hcard x.1 x.2 hr.1
    exact ih h hr.2

/-- Whatever the CPUs do, and in whatever order, a callback has waited for `quiet` on
every CPU, as long as no two of them get past the tests of `enqueue` with one element. -/
theorem after_graceful (hcard : Fintype.card ι < 2 ^ 32) (acts : List (ι × Act))
    (hr : (Machine.boot ι).Meets Machine.unraced acts) : Graceful ((Machine.boot ι).after acts).log := by
  obtain ⟨g, L, h⟩ := kept_boot.after hcard acts hr
  exact h.graceful

def goes (i : ι) (a : Act) (n : Nat) : List (ι × Act) := (i, a) :: List.replicate n (i, .step)

/-- CPU 0 calls, and runs the callback when both CPUs have been quiet. -/
def bothQuiet : List (Fin 2 × Act) :=
  goes 0 (.call 5) 5 ++ goes 0 .update 10 ++ goes 0 .update 5 ++ (1, .update) :: goes 0 .quiet 0 ++
  List.replicate 5 (1, .step) ++ goes 1 .quiet 3 ++ goes 0 .update 6

theorem bothQuiet_graceful :
    ((Machine.boot (Fin 2)).after bothQuiet).log = [.invoke 5, .quiet 1, .quiet 0, .call 5] ∧
      Graceful ((Machine.boot (Fin 2)).after bothQuiet).log :=
  ⟨by decide +kernel, after_graceful (by decide) bothQuiet (by decide +kernel)⟩

local instance three_neZero : NeZero 3 := ⟨by decide⟩

/-- CPU 0 has 7 in its `curr` and has read the empty `next` of 5 when CPU 1 calls 5 too, and
both enqueue it.  When the callback of 5 is due on CPU 1, CPU 0 calls 6, which it links to 5. -/
def raced : List (Fin 3 × Act) :=
  goes 2 (.call 8) 5 ++ goes 2 .update 10 ++ goes 0 (.call 7) 5 ++ goes 0 .update 8 ++
  goes 0 (.call 5) 1 ++ goes 1 (.call 5) 5 ++ List.replicate 3 (0, .step) ++
  goes 1 .update 8 ++ goes 2 .update 5 ++ goes 0 .quiet 0 ++ goes 1 .quiet 0 ++
  goes 2 .quiet 5 ++ goes 0 .update 5 ++ goes 1 .update 5 ++ goes 2 .update 8 ++
  goes 0 .quiet 0 ++ goes 1 .quiet 0 ++ goes 2 .quiet 5 ++ goes 1 .update 2 ++
  goes 0 (.call 6) 5 ++ List.replicate 5 (1, .step)

/-- The callback of 6 follows its call, with no `quiet` on any CPU between them. -/
theorem raced_not_graceful :
    ((Machine.boot (Fin 3)).after raced).log.take 3 = [.invoke 6, .invoke 5, .call 6] ∧
      ¬Graceful ((Machine.boot (Fin 3)).after raced).log := by
  have hlog : ((Machine.boot (Fin 3)).after raced).log = .invoke 6 :: .invoke 5 :: .call 6 ::
      ((Machine.boot (Fin 3)).after raced).log.drop 3 := by
    decide +kernel
  refine ⟨by rw [hlog]; rfl, fun h => ?_⟩
  have hseen := (h [] 6 _ hlog).2.2 0
  rw [Seen, since_cons (by simp), since_call] at hseen
  simp at hseen

end Tukija.Rcu
