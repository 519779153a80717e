import Tukija.Objects.Caches

/-! Each object is given back to the cache that it was taken from, unless
`sys_create_sm` fails for another PD. -/
namespace Tukija.Objects

variable {s s' : State} {x e p : Id} {c : CacheRef} {b : Body}

/-! ## Where the objects are from -/

def State.cacheOf (s : State) (x : Id) : Option CacheRef := (s.obj x).map Obj.cache

/-- The object is from the cache that its callback gives it to.  Workers and cells
have none. -/
def State.Home (s : State) (o : Obj) : Prop :=
  match o.body with
  | .pd => o.cache = .pds
  | .ec p => o.cache = .of p .ec
  | .sc e => ∃ p, s.pdOf e = some p ∧ o.cache = .of p .sc
  | .pt e => ∃ p, s.pdOf e = some p ∧ o.cache = .of p .pt
  | .sm p => o.cache = .of p .sm
  | .mdb p => o.cache = .of p .mdb
  | .worker | .cell => True

structure Inv (s : State) : Prop where
  fresh : ∀ x o, s.obj x = some o → x < s.fresh
  home : ∀ x o, s.obj x = some o → s.Home o
  cell : ∀ p c, s.cellOf p = some c → s.cacheOf c = some (.of p .cell)
  worker : ∀ e w, s.workerOf e = some w → ∃ p, s.pdOf e = some p ∧ s.cacheOf w = some (.of p .worker) ∧
    ∀ m, s.smOf w = some m → s.cacheOf m = some (.of p .sm)

theorem pdOf_eq_some : s.pdOf e = some p ↔ ∃ c, s.obj e = some ⟨c, .ec p⟩ := by
  constructor
  · intro h
    unfold State.pdOf at h
    split at h
    · obtain rfl := Option.some.inj h
      exact ⟨_, by assumption⟩
    · cases h
  · rintro ⟨c, h⟩
    rw [State.pdOf, h]

theorem cacheOf_of_obj {o : Obj} (h : s.obj x = some o) : s.cacheOf x = some o.cache := by
  rw [State.cacheOf, h, Option.map_some]

theorem Inv.cacheOf_ec (hi : Inv s) (h : s.pdOf e = some p) : s.cacheOf e = some (.of p .ec) := by
  obtain ⟨c, hobj⟩ := pdOf_eq_some.mp h
  have hhome : c = .of p .ec := hi.home e _ hobj
  rw [cacheOf_of_obj hobj, hhome]

theorem Inv.pdOf_lt (hi : Inv s) (h : s.pdOf e = some p) : e < s.fresh := by
  obtain ⟨c, hobj⟩ := pdOf_eq_some.mp h
  exact hi.fresh e _ hobj

theorem Inv.cacheOf_lt (hi : Inv s) (h : s.cacheOf x = some c) : x < s.fresh := by
  obtain ⟨o, hobj, -⟩ := Option.map_eq_some_iff.mp h
  exact hi.fresh x o hobj

/-! ## Freeing -/

theorem give_of_obj {o : Obj} (h : s.obj x = some o) :
    s.give x c = { s with live := Function.update s.live x false, frees := (o.cache, c) :: s.frees } := by
  rw [State.give, h]

theorem paired_cons (s : State) (live : Id → Bool) (c c' : CacheRef) :
    State.Paired { s with live := live, frees := (c, c') :: s.frees } ↔ c = c' ∧ s.Paired :=
  List.forall_mem_cons

/-- What a destructor may do: some objects go, each to its own cache. -/
structure Freed (s s' : State) : Prop where
  fresh : s'.fresh = s.fresh
  obj : s'.obj = s.obj
  cellOf : s'.cellOf = s.cellOf
  workerOf : s'.workerOf = s.workerOf
  smOf : s'.smOf = s.smOf
  paired : s'.Paired ↔ s.Paired

namespace Freed

theorem refl (s : State) : Freed s s := ⟨rfl, rfl, rfl, rfl, rfl, Iff.rfl⟩

theorem trans {s'' : State} (h : Freed s s') (h' : Freed s' s'') : Freed s s'' :=
  ⟨h'.fresh.trans h.fresh, h'.obj.trans h.obj, h'.cellOf.trans h.cellOf, h'.workerOf.trans h.workerOf,
    h'.smOf.trans h.smOf, h'.paired.trans h.paired⟩

theorem pdOf (h : Freed s s') (e : Id) : s'.pdOf e = s.pdOf e := by rw [State.pdOf, h.obj, State.pdOf]

theorem cacheOf (h : Freed s s') (x : Id) : s'.cacheOf x = s.cacheOf x := by rw [State.cacheOf, h.obj, State.cacheOf]

theorem home (h : Freed s s') {o : Obj} (ho : s.Home o) : s'.Home o := by
  obtain ⟨c, b⟩ := o
  cases b with
  | sc e =>
    obtain ⟨p, hp, hc⟩ := ho
    exact ⟨p, (h.pdOf e).trans hp, hc⟩
  | pt e =>
    obtain ⟨p, hp, hc⟩ := ho
    exact ⟨p, (h.pdOf e).trans hp, hc⟩
  | _ => exact ho

theorem inv (h : Freed s s') (hi : Inv s) : Inv s' := by
  refine ⟨fun x o hx => ?_, fun x o hx => ?_, fun p c hc => ?_, fun e w hw => ?_⟩
  · rw [h.obj] at hx
    exact h.fresh ▸ hi.fresh x o hx
  · rw [h.obj] at hx
    exact h.home (hi.home x o hx)
  · rw [h.cellOf] at hc
    exact (h.cacheOf c).trans (hi.cell p c hc)
  · rw [h.workerOf] at hw
    obtain ⟨p, hp, hcw, hm⟩ := hi.worker e w hw
    refine ⟨p, (h.pdOf e).trans hp, (h.cacheOf w).trans hcw, fun m hsm => ?_⟩
    rw [h.smOf] at hsm
    exact (h.cacheOf m).trans (hm m hsm)

/-! ### The destructors -/

theorem give (h : s.cacheOf x = some c) : Freed s (s.give x c) := by
  obtain ⟨o, hobj, rfl⟩ := Option.map_eq_some_iff.mp h
  rw [give_of_obj hobj]
  exact ⟨rfl, rfl, rfl, rfl, rfl, (paired_cons s _ _ _).trans (and_iff_right rfl)⟩

theorem dropWorker (hi : Inv s) (hp : s.pdOf e = some p) : Freed s (s.dropWorker e p) := by
  unfold State.dropWorker
  split
  · next w hcell hw =>
    obtain ⟨p', hp', hcw, hm⟩ := hi.worker e w hw
    obtain rfl : p' = p := Option.some.inj (hp'.symm.trans hp)
    split
    · next m hsm =>
      have hsem : Freed s (s.give m (.of p' .sm)) := give (hm m hsm)
      exact hsem.trans (give ((hsem.cacheOf w).trans hcw))
    · exact give hcw
  · exact refl s

theorem destroyEc (hi : Inv s) (hp : s.pdOf e = some p) : Freed s (s.destroyEc e p) := by
  have hdrop := dropWorker hi hp
  rw [State.destroyEc, hp]
  exact hdrop.trans (give ((hdrop.cacheOf e).trans (hi.cacheOf_ec hp)))

theorem giveBound {k : Kind} (hp : s.pdOf e = some p) (hx : s.cacheOf x = some (.of p k)) :
    Freed s (s.giveBound x e k) := by
  rw [State.giveBound, hp]
  exact give hx

theorem deletePd (hi : Inv s) (hx : s.cacheOf x = some .pds) : Freed s (s.deletePd x) := by
  unfold State.deletePd
  split
  · next c hcell =>
    have hfirst : Freed s (s.give c (.of x .cell)) := give (hi.cell x c hcell)
    exact hfirst.trans (give ((hfirst.cacheOf x).trans hx))
  · exact give hx

theorem freeBody (hi : Inv s) {o : Obj} (hx : s.obj x = some o) : Freed s (s.freeBody x o.body) := by
  have hcache := cacheOf_of_obj hx
  have hhome := hi.home x o hx
  obtain ⟨c, b⟩ := o
  cases b with
  | pd =>
    obtain rfl : c = .pds := hhome
    exact deletePd hi hcache
  | ec p => exact destroyEc hi (pdOf_eq_some.mpr ⟨c, hx⟩)
  | sc e =>
    obtain ⟨p, hp, rfl⟩ := hhome
    exact giveBound hp hcache
  | pt e =>
    obtain ⟨p, hp, rfl⟩ := hhome
    exact giveBound hp hcache
  | sm p =>
    obtain rfl : c = .of p .sm := hhome
    exact give hcache
  | mdb p =>
    obtain rfl : c = .of p .mdb := hhome
    exact give hcache
  | worker => exact refl s
  | cell => exact refl s

theorem free (hi : Inv s) (x : Id) : Freed s (s.free x) := by
  unfold State.free
  split
  · split
    · next o hx => exact freeBody hi hx
    · exact refl s
  · exact refl s

end Freed

/-! ## Allocating -/

section Alloc

theorem obj_fresh (s : State) (c : CacheRef) (b : Body) : (s.alloc c b).obj s.fresh = some ⟨c, b⟩ :=
  Function.update_self _ _ _

theorem obj_alloc_of_lt (hx : x < s.fresh) : (s.alloc c b).obj x = s.obj x :=
  Function.update_of_ne (Nat.ne_of_lt hx) _ _

theorem cacheOf_alloc (hi : Inv s) {c' : CacheRef} (h : s.cacheOf x = some c') :
    (s.alloc c b).cacheOf x = some c' := by
  rw [State.cacheOf, obj_alloc_of_lt (hi.cacheOf_lt h)]
  exact h

theorem pdOf_alloc (hi : Inv s) (h : s.pdOf e = some p) : (s.alloc c b).pdOf e = some p := by
  rw [State.pdOf, obj_alloc_of_lt (hi.pdOf_lt h)]
  exact h

theorem cacheOf_fresh (s : State) (c : CacheRef) (b : Body) : (s.alloc c b).cacheOf s.fresh = some c :=
  cacheOf_of_obj (obj_fresh s c b)

theorem pdOf_fresh (s : State) (c : CacheRef) (p : Id) : (s.alloc c (.ec p)).pdOf s.fresh = some p :=
  pdOf_eq_some.mpr ⟨c, obj_fresh s c (.ec p)⟩

theorem home_alloc (hi : Inv s) {o : Obj} (ho : s.Home o) : (s.alloc c b).Home o := by
  obtain ⟨c', b'⟩ := o
  cases b' with
  | sc e =>
    obtain ⟨p, hp, hc⟩ := ho
    exact ⟨p, pdOf_alloc hi hp, hc⟩
  | pt e =>
    obtain ⟨p, hp, hc⟩ := ho
    exact ⟨p, pdOf_alloc hi hp, hc⟩
  | _ => exact ho

theorem Inv.alloc (hi : Inv s) (hb : s.Home ⟨c, b⟩) : Inv (s.alloc c b) := by
  refine ⟨fun x o hx => ?_, fun x o hx => ?_, fun p c' hc => ?_, fun e w hw => ?_⟩
  · by_cases heq : x = s.fresh
    · exact heq ▸ Nat.lt_succ_self _
    · have hx : Function.update s.obj s.fresh (some ⟨c, b⟩) x = some o := hx
      rw [Function.update_of_ne heq] at hx
      exact Nat.lt_succ_of_lt (hi.fresh x o hx)
  · have hx : Function.update s.obj s.fresh (some ⟨c, b⟩) x = some o := hx
    by_cases heq : x = s.fresh
    · rw [heq, Function.update_self] at hx
      exact Option.some.inj hx ▸ home_alloc hi hb
    · rw [Function.update_of_ne heq] at hx
      exact home_alloc hi (hi.home x o hx)
  · exact cacheOf_alloc hi (hi.cell p c' hc)
  · obtain ⟨p, hp, hcw, hm⟩ := hi.worker e w hw
    exact ⟨p, pdOf_alloc hi hp, cacheOf_alloc hi hcw, fun m hsm => cacheOf_alloc hi (hm m hsm)⟩

end Alloc

/-! ## The system calls -/

structure Kept (s s' : State) : Prop where
  inv : Inv s'
  paired : s'.Paired ↔ s.Paired

namespace Kept

theorem refl (hi : Inv s) : Kept s s := ⟨hi, Iff.rfl⟩

theorem trans {s'' : State} (h : Kept s s') (h' : Kept s' s'') : Kept s s'' := ⟨h'.inv, h'.paired.trans h.paired⟩

theorem alloc (hi : Inv s) (hb : s.Home ⟨c, b⟩) : Kept s (s.alloc c b) := ⟨hi.alloc hb, Iff.rfl⟩

theorem freed (hi : Inv s) (h : Freed s s') : Kept s s' := ⟨h.inv hi, h.paired⟩

theorem createPd (hi : Inv s) (limit inserted oom : Bool) : Kept s (s.createPd limit inserted oom) := by
  have hnew : Kept s (s.alloc .pds .pd) := alloc hi rfl
  unfold State.createPd
  dsimp only
  split
  · exact hnew
  · exact hnew.trans (freed hnew.inv (Freed.deletePd hnew.inv (cacheOf_fresh s _ _)))

theorem bindWorker (hi : Inv s) {w m : Id} (hp : s.pdOf e = some p) (hw : s.cacheOf w = some (.of p .worker))
    (hm : s.cacheOf m = some (.of p .sm)) (hown : ∀ e', s.workerOf e' ≠ some w) :
    Kept s { s with
      smOf := Function.update s.smOf w (some m)
      workerOf := Function.update s.workerOf e (some w) } := by
  refine ⟨⟨hi.fresh, hi.home, hi.cell, fun e' w' hw' => ?_⟩, Iff.rfl⟩
  have hw' : Function.update s.workerOf e (some w) e' = some w' := hw'
  by_cases he : e' = e
  · subst he
    rw [Function.update_self] at hw'
    obtain rfl := Option.some.inj hw'
    refine ⟨p, hp, hw, fun m' hm' => ?_⟩
    have hm' : Function.update s.smOf w (some m) w = some m' := hm'
    rw [Function.update_self] at hm'
    exact Option.some.inj hm' ▸ hm
  · rw [Function.update_of_ne he] at hw'
    obtain ⟨p', hp', hcw, hsem⟩ := hi.worker e' w' hw'
    refine ⟨p', hp', hcw, fun m' hm' => hsem m' ?_⟩
    have hne : w' ≠ w := fun heq => hown e' (heq ▸ hw')
    exact (Function.update_of_ne hne (some m) s.smOf).symm.trans hm'

theorem newWorker (hi : Inv s) (hp : s.pdOf e = some p) : Kept s (s.newWorker e p) := by
  have hworker : Kept s (s.alloc (.of p .worker) .worker) := alloc hi trivial
  have hsem := alloc (c := .of p .sm) (b := .sm p) hworker.inv rfl
  have hpd := pdOf_alloc (c := .of p .sm) (b := .sm p) hworker.inv (pdOf_alloc hi hp)
  have hw := cacheOf_alloc (c := .of p .sm) (b := .sm p) hworker.inv (cacheOf_fresh s (.of p .worker) .worker)
  refine (hworker.trans hsem).trans (bindWorker hsem.inv hpd hw (cacheOf_fresh _ _ _) fun e' he' => ?_)
  obtain ⟨_, -, hcache, -⟩ := hi.worker e' s.fresh he'
  exact absurd (hi.cacheOf_lt hcache) (Nat.lt_irrefl _)

theorem createEc (hi : Inv s) (pd : Id) (cont inserted : Bool) : Kept s (s.createEc pd cont inserted) := by
  have hnew : Kept s (s.alloc (.of pd .ec) (.ec pd)) := alloc hi rfl
  have hpd := pdOf_fresh s (.of pd .ec) pd
  unfold State.createEc
  dsimp only
  split
  · exact hnew.trans (freed hnew.inv (Freed.destroyEc hnew.inv hpd))
  · split
    · exact hnew.trans (newWorker hnew.inv hpd)
    · exact hnew

theorem createBound (hi : Inv s) {k : Kind} (hk : k = .sc ∨ k = .pt) (e : Id) (inserted : Bool) :
    Kept s (s.createBound k e inserted) := by
  unfold State.createBound
  split
  · next p hp =>
    have hnew : Kept s (s.newBound e p k) ∧ (s.newBound e p k).pdOf e = some p ∧
        (s.newBound e p k).cacheOf s.fresh = some (.of p k) := by
      rcases hk with rfl | rfl
      · exact ⟨alloc hi ⟨p, hp, rfl⟩, pdOf_alloc hi hp, cacheOf_fresh s _ _⟩
      · exact ⟨alloc hi ⟨p, hp, rfl⟩, pdOf_alloc hi hp, cacheOf_fresh s _ _⟩
    obtain ⟨hkept, hpd, hcache⟩ := hnew
    split
    · exact hkept
    · exact hkept.trans (freed hkept.inv (Freed.giveBound hpd hcache))
  · exact refl hi

theorem createCell (hi : Inv s) (pd : Id) : Kept s (s.createCell pd) := by
  unfold State.createCell
  dsimp only
  split
  · have hnew : Kept s (s.alloc (.of pd .cell) .cell) := alloc hi trivial
    refine hnew.trans ⟨⟨hnew.inv.fresh, hnew.inv.home, fun p c hc => ?_, hnew.inv.worker⟩, Iff.rfl⟩
    have hc : Function.update s.cellOf pd (some s.fresh) p = some c := hc
    by_cases hp : p = pd
    · rw [hp, Function.update_self] at hc
      exact hp ▸ Option.some.inj hc ▸ cacheOf_fresh s _ _
    · rw [Function.update_of_ne hp] at hc
      exact hnew.inv.cell p c hc
  · exact refl hi

theorem destroyCell (hi : Inv s) (pd : Id) : Kept s (s.destroyCell pd) := by
  unfold State.destroyCell
  split
  · next c hcell =>
    have hgive := freed hi (Freed.give (hi.cell pd c hcell))
    refine hgive.trans ⟨⟨hgive.inv.fresh, hgive.inv.home, fun p c' hc => ?_, hgive.inv.worker⟩, Iff.rfl⟩
    by_cases hp : p = pd
    · subst hp
      cases (Function.update_self _ _ _).symm.trans hc
    · exact hgive.inv.cell p c' ((Function.update_of_ne hp _ _).symm.trans hc)
  · exact refl hi

theorem migrate (hi : Inv s) (e : Id) (inserted : Bool) : Kept s (s.migrate e inserted) := by
  unfold State.migrate
  split
  · next p hp =>
    have hnew : Kept s (s.alloc (.of p .ec) (.ec p)) := alloc hi rfl
    exact hnew.trans (createBound hnew.inv (.inl rfl) _ _)
  · exact refl hi

theorem xcpu (hi : Inv s) (cur : Id) (room : Bool) : Kept s (s.xcpu cur room) := by
  have hsem : Kept s (s.alloc (.of cur .sm) (.sm cur)) := alloc hi rfl
  have hcache := cacheOf_fresh s (.of cur .sm) (.sm cur)
  unfold State.xcpu
  dsimp only
  generalize s.alloc (.of cur .sm) (.sm cur) = s₁ at hsem hcache ⊢
  have hec : Kept s₁ (s₁.alloc (.of cur .ec) (.ec cur)) := alloc hsem.inv rfl
  have hpd := pdOf_fresh s₁ (.of cur .ec) cur
  have hcache := cacheOf_alloc (c := .of cur .ec) (b := .ec cur) hsem.inv hcache
  split
  · exact (hsem.trans hec).trans (alloc hec.inv ⟨cur, hpd, rfl⟩)
  · have hdestroy := Freed.destroyEc hec.inv hpd
    have hboth := hdestroy.trans (Freed.give ((hdestroy.cacheOf s.fresh).trans hcache))
    exact (hsem.trans hec).trans (freed hec.inv hboth)

theorem newMdb (hi : Inv s) (pd : Id) (inserted : Bool) : Kept s (s.newMdb pd inserted) := by
  have hnew : Kept s (s.alloc (.of pd .mdb) (.mdb pd)) := alloc hi rfl
  unfold State.newMdb
  dsimp only
  split
  · exact hnew
  · exact hnew.trans (freed hnew.inv (Freed.give (cacheOf_fresh s _ _)))

theorem guard (hi : Inv s) (h : Kept s s') (g : Bool) : Kept s (if g then s' else s) := by
  cases g with
  | true => exact h
  | false => exact refl hi

end Kept

theorem createSm_spec (hi : Inv s) (cur pd : Id) (inserted : Bool) :
    Inv (s.createSm cur pd inserted) ∧
      ((s.createSm cur pd inserted).Paired ↔ s.Paired ∧ (inserted = true ∨ cur = pd)) := by
  have hnew : Kept s (s.alloc (.of cur .sm) (.sm cur)) := Kept.alloc hi rfl
  cases inserted with
  | true => exact ⟨hnew.inv, hnew.paired.trans (and_iff_left (.inl rfl)).symm⟩
  | false =>
    have hgive : s.createSm cur pd false = State.give (s.alloc (.of cur .sm) (.sm cur)) s.fresh (.of pd .sm) := rfl
    rw [hgive, give_of_obj (obj_fresh s _ _), paired_cons, hnew.paired]
    refine ⟨⟨hnew.inv.fresh, hnew.inv.home, hnew.inv.cell, hnew.inv.worker⟩, ?_⟩
    simp [and_comm]

/-! ## Runs -/

theorem act_spec (hi : Inv s) (a : Act) : Inv (s.act a) ∧ ((s.act a).Paired ↔ s.Paired ∧ ¬ s.Foreign a) := by
  have hkept : Kept s (s.act a) → ¬ s.Foreign a →
      Inv (s.act a) ∧ ((s.act a).Paired ↔ s.Paired ∧ ¬ s.Foreign a) := fun h hf => ⟨h.inv, h.paired.trans (and_iff_left hf).symm⟩
  cases a with
  | createPd limit inserted oom => exact hkept (Kept.createPd hi _ _ _) id
  | createEc pd cont inserted => exact hkept (Kept.guard hi (Kept.createEc hi _ _ _) _) id
  | createSc pd ec inserted => exact hkept (Kept.guard hi (Kept.createBound hi (.inl rfl) _ _) _) id
  | createPt pd ec inserted => exact hkept (Kept.guard hi (Kept.createBound hi (.inr rfl) _ _) _) id
  | createCell pd => exact hkept (Kept.guard hi (Kept.createCell hi _) _) id
  | destroyCell pd => exact hkept (Kept.guard hi (Kept.destroyCell hi _) _) id
  | migrate ec inserted => exact hkept (Kept.guard hi (Kept.migrate hi _ _) _) id
  | xcpu cur room => exact hkept (Kept.guard hi (Kept.xcpu hi _ _) _) id
  | newMdb pd inserted => exact hkept (Kept.guard hi (Kept.newMdb hi _ _) _) id
  | free x => exact hkept (Kept.freed hi (Freed.free hi x)) id
  | createSm cur pd inserted =>
    by_cases hcaps : (s.has .pd cur && s.has .pd pd) = true
    · have hact : s.act (.createSm cur pd inserted) = s.createSm cur pd inserted := if_pos hcaps
      obtain ⟨hinv, hpaired⟩ := createSm_spec hi cur pd inserted
      obtain ⟨hcur, hpd⟩ := (Bool.and_eq_true _ _).mp hcaps
      rw [hact, hpaired]
      refine ⟨hinv, and_congr_right fun _ => ?_⟩
      cases inserted <;> simp [State.Foreign, hcur, hpd]
    · have hact : s.act (.createSm cur pd inserted) = s := if_neg hcaps
      have hfine : ¬ s.Foreign (.createSm cur pd inserted) := by
        rintro ⟨hcur, hpd, -, -⟩
        exact hcaps (by rw [hcur, hpd, Bool.and_self])
      exact hkept (hact.symm ▸ Kept.refl hi) hfine

theorem boot_inv : Inv State.boot := by
  have hobj : ∀ x o, State.boot.obj x = some o → x < 2 ∧ o = ⟨.pds, .pd⟩ := by
    intro x o hx
    have hx : (if x < 2 then some ⟨.pds, .pd⟩ else none) = some o := hx
    split at hx
    · exact ⟨by assumption, (Option.some.inj hx).symm⟩
    · cases hx
  refine ⟨fun x o hx => (hobj x o hx).1, fun x o hx => ?_, nofun, nofun⟩
  rw [(hobj x o hx).2]
  rfl

theorem after_paired_iff (hi : Inv s) (acts : List Act) : (s.after acts).Paired ↔ s.Paired ∧ s.Homely acts := by
  induction acts generalizing s with
  | nil => exact (and_iff_left trivial).symm
  | cons a acts ih =>
    obtain ⟨hinv, hpaired⟩ := act_spec hi a
    exact (ih hinv).trans ((and_congr_left fun _ => hpaired).trans and_assoc)

/-- The root PD makes a PD, and names it for a semaphore at a selector that is in use. -/
def foreignSm : List Act := [Act.createPd true true false, Act.createSm 1 2 false]

end Tukija.Objects
