import Tukija.Rcu.Grace

/-! The invariant of the machine, step by step: `update` and `start_batch`. -/
namespace Tukija.Rcu

open Tukija.Lib.Word

variable {ι : Type}

structure Kept [Fintype ι] [DecidableEq ι] (s : Machine ι) (g : Epoch ι) (L : ι → Elems) : Prop where
  shape : Shape s.link s.cpu L
  clock : Clock s.state s.count s.cpu g
  timely : ∀ i, Timely g i (s.cpu i)
  waits : ∀ i, Waits g s.log i (s.cpu i) (L i)
  graceful : Graceful s.log

section Steps

variable [DecidableEq ι] [Fintype ι] {s t : Machine ι} {g u : Epoch ι} {L : ι → Elems} {i : ι}
  {c : Cpu} {M : Elems}

theorem Kept.step (hk : Kept s g L) (hcpu : t.cpu = Function.update s.cpu i c)
    (hlog : t.log = s.log) (hb : u.batch = g.batch) (hd : u.did = g.did)
    (hl : ∀ j, j ≠ i → u.last j = g.last j) (hdue : ∀ j, j ≠ i → u.due j = g.due j)
    (hshape : Shape t.link (Function.update s.cpu i c) (Function.update L i M))
    (hclock : Clock t.state t.count (Function.update s.cpu i c) u) (ht : Timely u i c)
    (hw : Waits u s.log i c M) : Kept t u (Function.update L i M) := by
  refine ⟨by rw [hcpu]; exact hshape, by rw [hcpu]; exact hclock, ?_, ?_,
    by rw [hlog]; exact hk.graceful⟩
  · intro j
    rw [hcpu]
    by_cases hj : j = i
    · subst hj
      rw [Function.update_self]
      exact ht
    · have h := hk.timely j
      rw [Function.update_of_ne hj]
      refine ⟨?_, ?_, ?_, ?_, ?_, h.cas, h.calls⟩
      · rw [hl j hj, hb]
        exact h.last
      · rw [hl j hj]
        exact h.lBatch
      · rw [hl j hj, hb, hd]
        exact h.did
      · rw [hl j hj, hb, hd]
        exact h.hazard
      · rw [hl j hj, hb]
        exact h.again
  · intro j
    rw [hcpu, hlog]
    by_cases hj : j = i
    · subst hj
      rw [Function.update_self, Function.update_self]
      exact hw
    · have h := hk.waits j
      rw [Function.update_of_ne hj, Function.update_of_ne hj]
      refine ⟨?_, ?_, ?_, h.done, h.called⟩
      · rw [hl j hj, hb, hd]
        exact h.next
      · rw [hl j hj, hdue j hj, hb, hd]
        exact h.due
      · rw [hdue j hj, hb, hd]
        exact h.curr

theorem Kept.put (hk : Kept s g L) (ho : Own s.link c (L i))
    (he : c.pc.ends = true → (s.cpu i).pc.ends = true)
    (hs : c.pc.starts = true → (s.cpu i).pc.starts = true)
    (hl : c.pc.loaded = (s.cpu i).pc.loaded) (hst : ∀ b w, c.pc = .store b w → w = s.state)
    (ht : Timely g i c) (hw : Waits g s.log i c (L i)) : Kept (s.put i c) g L := by
  have h := hk.step (t := s.put i c) (u := g) (M := L i) rfl rfl rfl rfl (fun _ _ => rfl)
    (fun _ _ => rfl) (by rw [Function.update_eq_self]; exact hk.shape.put ho)
    (hk.clock.put he hs hl hst) ht hw
  rwa [Function.update_eq_self] at h

theorem Kept.update (hk : Kept s g L) (hc : (s.cpu i).call = none) (hp : (s.cpu i).pc = .out) :
    Kept (s.put i { s.cpu i with pc := .batch }) g L := by
  have ho := (hk.shape.own i).goto (p := .batch) (by rw [hp]; rfl) rfl (fun _ => by rw [hp]; rfl)
  apply hk.put ho
  · simp [Pc.ends]
  · simp [Pc.starts]
  · rw [hp]
    rfl
  · simp
  · exact (hk.timely i).goto (by simp) (by simp) hc
  · exact (hk.waits i).goto rfl (by simp [hp])

theorem Kept.batch (hk : Kept s g L) (hc : (s.cpu i).call = none) (hp : (s.cpu i).pc = .batch) :
    Kept (s.put i { s.cpu i with
      pc := if (s.cpu i).lBatch = s.state >>> 2 then .complete else .again }) g L := by
  have ht := hk.timely i
  have hw := hk.waits i
  have hstate : s.state >>> 2 = epoch g.batch >>> 2 := by
    rw [hk.clock.state, stateWord_shr]
  have ho := hk.shape.own i
  rw [hstate]
  by_cases heq : (s.cpu i).lBatch = epoch g.batch >>> 2
  · rw [if_pos heq]
    have hlast := ht.last_eq heq
    apply hk.put
    · exact ho.goto (by rw [hp]; rfl) rfl (fun _ => by rw [hp]; rfl)
    · simp [Pc.ends]
    · simp [Pc.starts]
    · rw [hp]
      rfl
    · simp
    · exact ht.goto (by simp) (by simp) hc
    · refine ⟨fun _ e _ hb => ?_, fun hne => ?_, hw.curr, hw.done, hw.called⟩
      · omega
      · obtain ⟨h1, h2, h3⟩ := hw.due hne
        refine ⟨h1, h2, .inl ?_⟩
        rcases h3 with h3 | h3
        · exact h3
        · exact absurd h3.1 (by simp [hp])
  · rw [if_neg heq]
    apply hk.put
    · exact ho.goto (by rw [hp]; rfl) rfl (fun _ => by rw [hp]; rfl)
    · simp [Pc.ends]
    · simp [Pc.starts]
    · rw [hp]
      rfl
    · simp
    · refine ⟨ht.last, ht.lBatch, ht.did, ht.hazard, fun _ hlast => ?_, by simp, fun h => absurd hc h⟩
      rw [ht.lBatch, hlast] at heq
      exact heq rfl
    · exact hw.goto rfl (by simp [hp])

theorem Kept.again (hk : Kept s g L) (hc : (s.cpu i).call = none) (hp : (s.cpu i).pc = .again) :
    ∃ g', Kept (s.put i { s.cpu i with
      lBatch := s.state >>> 2, hazard := true, pc := .complete }) g' L := by
  have ht := hk.timely i
  have hw := hk.waits i
  have hne := ht.again hp
  have hdid : i ∉ g.did := fun h => hne (ht.did h)
  have hstate : s.state >>> 2 = epoch g.batch >>> 2 := by
    rw [hk.clock.state, stateWord_shr]
  have ho := (hk.shape.own i).pc
    (d := { s.cpu i with lBatch := s.state >>> 2, hazard := true, pc := .complete }) rfl rfl rfl rfl
    (by rw [hp]; rfl) rfl (fun _ => by rw [hp]; rfl)
  have h := hk.step (t := s.put i { s.cpu i with
      lBatch := s.state >>> 2, hazard := true, pc := .complete })
    (u := { g with last := Function.update g.last i g.batch, due := g.due }) (M := L i) rfl rfl rfl rfl
    (fun j hj => Function.update_of_ne hj _ _) (fun _ _ => rfl)
    (by rw [Function.update_eq_self]; exact hk.shape.put ho)
    ((hk.clock.put (by simp [Pc.ends]) (by simp [Pc.starts]) (by rw [hp]; rfl) (by simp)).relabel _ _)
    ?_ ?_
  · rw [Function.update_eq_self] at h
    exact ⟨_, h⟩
  · refine ⟨?_, ?_, ?_, ?_, by simp, by simp, fun h => absurd hc h⟩
    · simp
    · simpa using hstate
    · simp
    · simpa using hdid
  · refine ⟨?_, ?_, hw.curr, hw.done, hw.called⟩
    · intro _ e _ hb
      simp at hb
    · intro hcurr
      obtain ⟨h1, h2, h3⟩ := hw.due hcurr
      refine ⟨h1, h2, ?_⟩
      simp only [Function.update_self]
      rcases h3 with h3 | h3
      · rcases ht.last with hl | hl
        · exact absurd hl hne
        · by_cases hle : g.batch ≤ g.due i
          · exact .inl hle
          · exact .inr ⟨trivial, trivial, by omega, hdid⟩
      · exact absurd h3.1 (by simp [hp])

theorem Kept.batch_le (hk : Kept s g L) (hne : L i .curr ≠ []) : g.batch ≤ g.due i + 1 := by
  obtain ⟨-, -, h3⟩ := (hk.waits i).due hne
  rcases (hk.timely i).last with hl | hl
  · rcases h3 with h3 | h3
    · omega
    · exact h3.2.2.1.le
  · rcases h3 with h3 | h3
    · omega
    · omega

theorem Kept.completes_iff (hk : Kept s g L) (hne : L i .curr ≠ []) :
    completes s.state (s.cpu i).cBatch = true ↔ g.due i < g.batch ∨ g.due i = g.batch ∧ g.cmp = true := by
  obtain ⟨h1, h2, -⟩ := (hk.waits i).due hne
  rw [hk.clock.state]
  exact completes_stateWord h1 (hk.batch_le hne) h2

theorem Kept.seen (hk : Kept s g L) (hc : completes s.state (s.cpu i).cBatch = true) {e : ElemId}
    (he : e ∈ L i .curr) (j : ι) : Seen s.log e j := by
  obtain ⟨heq, hlt⟩ := (hk.waits i).curr e he
  rcases (hk.completes_iff (List.ne_nil_of_mem he)).mp hc with h | ⟨h, hcmp⟩
  · exact hlt h j
  · apply heq h.symm
    rw [hk.clock.full hcmp]
    exact Finset.mem_univ j

theorem Kept.complete (hk : Kept s g L) (hc : (s.cpu i).call = none)
    (hp : (s.cpu i).pc = .complete) (he : (s.cpu i).curr.empty = false)
    (hcomp : completes s.state (s.cpu i).cBatch = true) :
    L i .done = [] ∧ Kept ({ s with link := ((s.cpu i).done.append (s.cpu i).curr s.link).2 }.put i { s.cpu i with
      done := ((s.cpu i).done.append (s.cpu i).curr s.link).1, curr := .clear, pc := .advance }) g
      (Function.update L i (L i).completed) := by
  have hw := hk.waits i
  obtain ⟨hdone, hframe, ho⟩ := (hk.shape.own i).complete (hk.shape.apart_own i) hc hp he
  refine ⟨hdone, hk.step (i := i) (u := g) (M := (L i).completed) rfl rfl rfl rfl (fun _ _ => rfl)
    (fun _ _ => rfl) (hk.shape.move (hk.shape.apart_own i).completed ?_ (hk.shape.frame hframe) ho)
    (hk.clock.put (by simp [Pc.ends]) (by simp [Pc.starts]) (by rw [hp]; rfl) (by simp)) ?_ ?_⟩
  · intro k x hx
    left
    cases k <;> simp [Elems.completed] at hx <;> exact ⟨_, hx⟩
  · exact (hk.timely i).pc rfl rfl (by simp) (by simp) (fun h => absurd hc h)
  · refine ⟨fun _ => ?_, ?_, ?_, ?_, ?_⟩
    · simpa [Elems.completed] using hw.next (by rw [hp]; rfl)
    · simp [Elems.completed]
    · simp [Elems.completed]
    · intro x hx j
      exact hk.seen hcomp (by simpa [Elems.completed] using hx) j
    · intro k hkt x hx
      cases k with
      | transit => exact absurd rfl hkt
      | next => exact hw.called .next (by simp) x (by simpa [Elems.completed] using hx)
      | curr => simp [Elems.completed] at hx
      | done => exact hw.called .curr (by simp) x (by simpa [Elems.completed] using hx)

theorem Kept.incomplete (hk : Kept s g L) (hc : (s.cpu i).call = none)
    (hp : (s.cpu i).pc = .complete)
    (hcomp : ¬(!(s.cpu i).curr.empty && completes s.state (s.cpu i).cBatch) = true) :
    Kept (s.put i { s.cpu i with pc := .advance }) g L := by
  have ho := hk.shape.own i
  have hw := hk.waits i
  apply hk.put
  · exact ho.goto (by rw [hp]; rfl) rfl (by simp [Pc.early])
  · simp [Pc.ends]
  · simp [Pc.starts]
  · rw [hp]
    rfl
  · simp
  · exact (hk.timely i).goto (by simp) (by simp) hc
  · refine ⟨fun _ => hw.next (by rw [hp]; rfl), fun hne => ?_, hw.curr, hw.done, hw.called⟩
    obtain ⟨h1, h2, h3⟩ := hw.due hne
    have hempty : (s.cpu i).curr.empty = false := by
      by_contra h
      exact hne (ho.curr.empty_iff.mp (by simpa using h))
    refine ⟨h1, h2, .inl ?_⟩
    rcases h3 with h3 | h3
    · exact h3
    · -- then the batch is over
      exfalso
      apply hcomp
      rw [hempty, (hk.completes_iff hne).mpr (.inl (by omega))]
      rfl

theorem Kept.advance (hk : Kept s g L) (hc : (s.cpu i).call = none) (hp : (s.cpu i).pc = .advance)
    (he : (s.cpu i).curr.empty = true) (hn : (s.cpu i).next.empty = false) :
    L i .curr = [] ∧ ∃ g', Kept ({ s with link := ((s.cpu i).curr.append (s.cpu i).next s.link).2 }.put i
      { s.cpu i with
        curr := ((s.cpu i).curr.append (s.cpu i).next s.link).1, next := .clear,
        cBatch := (s.cpu i).lBatch + 1, pc := .read .pnd .update }) g' (Function.update L i (L i).advanced) := by
  have ht := hk.timely i
  have hw := hk.waits i
  obtain ⟨hcurr, hframe, ho⟩ := (hk.shape.own i).advance (hk.shape.apart_own i) hc hp he hn
    ((s.cpu i).lBatch + 1)
  refine ⟨hcurr, { g with last := g.last, due := Function.update g.due i (g.last i + 1) },
    hk.step (i := i) (M := (L i).advanced) rfl rfl rfl rfl (fun _ _ => rfl)
    (fun j hj => Function.update_of_ne hj _ _)
    (hk.shape.move (hk.shape.apart_own i).advanced ?_ (hk.shape.frame hframe) ho)
    ((hk.clock.put (by simp [Pc.ends]) (by simp [Pc.starts]) (by rw [hp]; rfl) (by simp)).relabel _ _)
    ?_ ?_⟩
  · intro k x hx
    left
    cases k <;> simp [Elems.advanced] at hx <;> exact ⟨_, hx⟩
  · have h := ht.pc (d := { s.cpu i with
      curr := ((s.cpu i).curr.append (s.cpu i).next s.link).1, next := .clear,
      cBatch := (s.cpu i).lBatch + 1, pc := .read .pnd .update }) rfl rfl (by simp) (by simp)
      (fun h => absurd hc h)
    exact ⟨h.last, h.lBatch, h.did, h.hazard, h.again, h.cas, h.calls⟩
  · refine ⟨by simp [Pc.fresh], ?_, ?_, ?_, ?_⟩
    · intro _
      simp only [Function.update_self]
      refine ⟨?_, ?_, .inl (Nat.le_succ _)⟩
      · rw [ht.lBatch, epoch_next]
      · rcases ht.last with h | h <;> omega
    · intro x hx
      have hx' : x ∈ L i .next := by simpa [Elems.advanced] using hx
      simp only [Function.update_self]
      refine ⟨hw.next (by rw [hp]; rfl) x hx', fun hlt => ?_⟩
      rcases ht.last with h | h <;> omega
    · intro x hx
      exact hw.done x (by simpa [Elems.advanced] using hx)
    · intro k hkt x hx
      cases k with
      | transit => exact absurd rfl hkt
      | next => simp [Elems.advanced] at hx
      | curr => exact hw.called .next (by simp) x (by simpa [Elems.advanced] using hx)
      | done => exact hw.called .done (by simp) x (by simpa [Elems.advanced] using hx)

theorem Kept.skip (hk : Kept s g L) (hc : (s.cpu i).call = none) (hp : (s.cpu i).pc = .advance) :
    Kept (s.put i { s.cpu i with pc := .dispatch }) g L := by
  apply hk.put
  · exact (hk.shape.own i).goto (by rw [hp]; rfl) rfl (by simp [Pc.early])
  · simp [Pc.ends]
  · simp [Pc.starts]
  · rw [hp]
    rfl
  · simp
  · exact (hk.timely i).goto (by simp) (by simp) hc
  · exact (hk.waits i).goto rfl (by simp [hp])

theorem Kept.back (hk : Kept s g L) (hc : (s.cpu i).call = none) (b : Caller)
    (hw : (s.cpu i).pc.walks = false) (he : b = .quiet → (s.cpu i).pc.early = true)
    (hl : (s.cpu i).pc.loaded = false) (hp : (s.cpu i).pc ≠ .complete) :
    Kept (s.put i { s.cpu i with pc := b.pc }) g L := by
  have hb : b.pc = .out ∧ b = .quiet ∨ b.pc = .dispatch := by
    cases b with
    | quiet => exact .inl ⟨rfl, rfl⟩
    | update => exact .inr rfl
  apply hk.put
  · apply (hk.shape.own i).goto hw
    · cases b <;> rfl
    · intro h
      rcases hb with hb | hb
      · exact he hb.2
      · simp [hb, Pc.early] at h
  · cases b <;> simp [Caller.pc, Pc.ends]
  · cases b <;> simp [Caller.pc, Pc.starts]
  · rw [hl]
    cases b <;> rfl
  · cases b <;> simp [Caller.pc]
  · exact (hk.timely i).goto (by cases b <;> simp [Caller.pc]) (by cases b <;> simp [Caller.pc]) hc
  · exact (hk.waits i).goto (by cases b <;> rfl) hp

theorem Kept.read {f : Flag} {b : Caller} (hk : Kept s g L) (hc : (s.cpu i).call = none)
    (hp : (s.cpu i).pc = .read f b) :
    Kept (s.put i { s.cpu i with
      pc :=
        if s.state >>> 2 ≠ (s.cpu i).lBatch then b.pc
        else if s.state &&& f.bit ≠ 0 then f.behind b s.state
        else .cas f b s.state }) g L := by
  have hback : Kept (s.put i { s.cpu i with pc := b.pc }) g L := by
    apply hk.back hc
    · rw [hp]
      rfl
    · rintro rfl
      rw [hp]
      rfl
    · rw [hp]
      rfl
    · rw [hp]
      simp
  split
  · exact hback
  · rename_i hbatch
    split
    · rename_i hbit
      -- the bit is set: somebody else starts the batch
      have hpc : f.behind b s.state = b.pc := by
        rw [hk.clock.state, stateWord_and_bit] at hbit
        rw [hk.clock.state, behind_stateWord]
        cases f with
        | cmp => simp [show g.cmp = true from hbit]
        | pnd => simp [show g.pnd = true from hbit]
      rw [hpc]
      exact hback
    · rename_i hbit
      apply hk.put
      · apply (hk.shape.own i).goto (by rw [hp]; rfl) rfl
        rw [hp]
        exact id
      · rw [hp]
        cases f <;> simp [Pc.ends]
      · simp [Pc.starts]
      · rw [hp]
        rfl
      · simp
      · have ht := hk.timely i
        refine ⟨ht.last, ht.lBatch, ht.did, ht.hazard, by simp, ?_, fun h => absurd hc h⟩
        intro f' b' v heq
        obtain ⟨rfl, rfl, rfl⟩ := Pc.cas.inj heq
        exact ⟨by simpa using hbatch, by simpa using hbit⟩
      · exact (hk.waits i).goto rfl (by simp [hp])

theorem Kept.retry {f : Flag} {b : Caller} {v : Mword} (hk : Kept s g L)
    (hc : (s.cpu i).call = none) (hp : (s.cpu i).pc = .cas f b v) :
    Kept (s.put i { s.cpu i with pc := .read f b }) g L := by
  apply hk.put
  · apply (hk.shape.own i).goto (by rw [hp]; rfl) rfl
    rw [hp]
    exact id
  · rw [hp]
    cases f <;> simp [Pc.ends]
  · simp [Pc.starts]
  · rw [hp]
    rfl
  · simp
  · exact (hk.timely i).goto (by simp) (by simp) hc
  · exact (hk.waits i).goto rfl (by simp [hp])

theorem Kept.cas {f : Flag} {b : Caller} {v : Mword} (hk : Kept s g L)
    (hc : (s.cpu i).call = none) (hp : (s.cpu i).pc = .cas f b v) (hv : s.state = v) :
    ∃ g', Kept ({ s with state := v ||| f.bit }.put i { s.cpu i with pc := f.behind b v }) g' L := by
  have ht := hk.timely i
  obtain ⟨-, hbit⟩ := ht.cas f b v hp
  have hword : v = stateWord g.batch g.cmp g.pnd := hv.symm.trans hk.clock.state
  have hclear : f.pick g.cmp g.pnd = false := by
    by_contra h
    rw [hword] at hbit
    exact (stateWord_and_bit g.batch g.cmp g.pnd f).mpr (by simpa using h) hbit
  -- where this CPU goes on
  have hbehind : f.behind b v = .count b ∨ f.behind b v = b.pc := by
    unfold Flag.behind
    split
    · exact .inr rfl
    · exact .inl rfl
  have ho : Own s.link { s.cpu i with pc := f.behind b v } (L i) := by
    apply (hk.shape.own i).goto (by rw [hp]; rfl)
    · rcases hbehind with h | h
      · rw [h]
        rfl
      · rw [h]
        cases b <;> rfl
    · rw [hp]
      rcases hbehind with h | h
      · rw [h]
        exact id
      · rw [h]
        cases b <;> simp [Caller.pc, Pc.early]
  have htime : Timely g i { s.cpu i with pc := f.behind b v } := by
    apply ht.goto _ _ hc
    · rcases hbehind with h | h
      · simp [h]
      · rw [h]
        cases b <;> simp [Caller.pc]
    · rcases hbehind with h | h
      · simp [h]
      · rw [h]
        cases b <;> simp [Caller.pc]
  have hwaits : Waits g s.log i { s.cpu i with pc := f.behind b v } (L i) := by
    apply (hk.waits i).goto
    · rcases hbehind with h | h
      · rw [h]
        rfl
      · rw [h]
        cases b <;> rfl
    · simp [hp]
  have hshape := hk.shape.put ho
  cases f with
  | cmp =>
    have hcmp : g.cmp = false := hclear
    refine ⟨{ g with cmp := true }, ?_⟩
    have h := hk.step (t := { s with state := v ||| Flag.cmp.bit }.put i
      { s.cpu i with pc := Flag.cmp.behind b v }) (u := { g with cmp := true }) (M := L i) rfl rfl rfl
      rfl (fun _ _ => rfl) (fun _ _ => rfl) (by rw [Function.update_eq_self]; exact hshape) ?_
      ⟨htime.last, htime.lBatch, htime.did, htime.hazard, htime.again, htime.cas, htime.calls⟩
      ⟨hwaits.next, hwaits.due, hwaits.curr, hwaits.done, hwaits.called⟩
    · rwa [Function.update_eq_self] at h
    · have hst : v ||| Flag.cmp.bit = stateWord g.batch true g.pnd := by
        rw [hword, stateWord_or_cmp]
      show Clock (v ||| Flag.cmp.bit) s.count _ _
      rw [hst]
      apply hk.clock.setCmp hp rfl
      rw [hword, behind_stateWord]
      simp [hcmp]
  | pnd =>
    have hpnd : g.pnd = false := hclear
    refine ⟨{ g with pnd := true }, ?_⟩
    have h := hk.step (t := { s with state := v ||| Flag.pnd.bit }.put i
      { s.cpu i with pc := Flag.pnd.behind b v }) (u := { g with pnd := true }) (M := L i) rfl rfl rfl
      rfl (fun _ _ => rfl) (fun _ _ => rfl) (by rw [Function.update_eq_self]; exact hshape) ?_
      ⟨htime.last, htime.lBatch, htime.did, htime.hazard, htime.again, htime.cas, htime.calls⟩
      ⟨hwaits.next, hwaits.due, hwaits.curr, hwaits.done, hwaits.called⟩
    · rwa [Function.update_eq_self] at h
    · have hst : v ||| Flag.pnd.bit = stateWord g.batch g.cmp true := by
        rw [hword, stateWord_or_pnd]
      show Clock (v ||| Flag.pnd.bit) s.count _ _
      rw [hst]
      apply hk.clock.setPnd hp hpnd rfl
      rw [hword, behind_stateWord]
      simp [hpnd]

theorem Kept.count {b : Caller} (hk : Kept s g L) (hc : (s.cpu i).call = none)
    (hp : (s.cpu i).pc = .count b) :
    Kept ({ s with count := Machine.online ι }.put i { s.cpu i with pc := .load b }) g L := by
  have ho := (hk.shape.own i).goto (p := .load b) (by rw [hp]; rfl) rfl (by rw [hp]; exact id)
  have h := hk.step (t := { s with count := Machine.online ι }.put i { s.cpu i with pc := .load b })
    (u := g) (M := L i) rfl rfl rfl rfl (fun _ _ => rfl) (fun _ _ => rfl)
    (by rw [Function.update_eq_self]; exact hk.shape.put ho) (hk.clock.setCount hp rfl)
    ((hk.timely i).goto (by simp) (by simp) hc) ((hk.waits i).goto rfl (by simp [hp]))
  rwa [Function.update_eq_self] at h

theorem Kept.load {b : Caller} (hk : Kept s g L) (hc : (s.cpu i).call = none)
    (hp : (s.cpu i).pc = .load b) : Kept (s.put i { s.cpu i with pc := .store b s.state }) g L := by
  apply hk.put
  · exact (hk.shape.own i).goto (by rw [hp]; rfl) rfl (by rw [hp]; exact id)
  · simp [Pc.ends]
  · rw [hp]
    exact id
  · rw [hp]
    rfl
  · intro b' w hw
    exact (Pc.store.inj hw).2.symm
  · exact (hk.timely i).goto (by simp) (by simp) hc
  · exact (hk.waits i).goto rfl (by simp [hp])

theorem Kept.store {b : Caller} {w : Mword} (hk : Kept s g L) (hcard : Fintype.card ι < 2 ^ 32) (hc : (s.cpu i).call = none)
    (hp : (s.cpu i).pc = .store b w) :
    ∃ g', Kept ({ s with state := w + 1 }.put i { s.cpu i with pc := b.pc }) g' L := by
  obtain ⟨hcmp, -⟩ := hk.clock.starts i (by rw [hp]; rfl)
  have hdid := hk.clock.full hcmp
  have hmem : ∀ j, j ∈ g.did := fun j => by simp [hdid]
  have hlast : ∀ j, g.last j = g.batch := fun j => (hk.timely j).did (hmem j)
  have ho : Own s.link { s.cpu i with pc := b.pc } (L i) := by
    apply (hk.shape.own i).goto (by rw [hp]; rfl)
    · cases b <;> rfl
    · rw [hp]
      cases b <;> simp [Caller.pc, Pc.early]
  refine ⟨g.succ, hk.shape.put ho, hk.clock.succ hcard hp rfl, ?_, ?_, hk.graceful⟩
  · apply (Function.forall_update_iff s.cpu fun j d => Timely g.succ j d).mpr
    refine ⟨?_, fun j _ => (hk.timely j).succ (hlast j) (hmem j)⟩
    apply Timely.succ _ (hlast i) (hmem i)
    exact (hk.timely i).goto (by cases b <;> simp [Caller.pc]) (by cases b <;> simp [Caller.pc]) hc
  · apply (Function.forall_update_iff s.cpu fun j d => Waits g.succ s.log j d (L j)).mpr
    refine ⟨?_, fun j _ => (hk.waits j).succ hmem⟩
    apply Waits.succ _ hmem
    exact (hk.waits i).goto (by cases b <;> rfl) (by simp [hp])

end Steps

end Tukija.Rcu
