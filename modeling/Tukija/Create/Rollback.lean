import Tukija.Create.Planted

/-! When a failed `sys_create_pd` leaves everything as it was. -/
namespace Tukija.Create

open Tukija.Lib.Word Tukija.Mapdb Tukija.Pd

variable {ρ : Type} {M P O : SpaceOps (Store ρ)} {fuel : Nat} {k : Kernel ρ} {r : Args} {s s' : Spaces (Store ρ)}
  {x y : Store ρ} {cap : Cap} {o : Slabs.Obj} {status : Status}

/-- An account is as it was: what it has, what is in use, and what it is over by. -/
def SameQuota (p q : Kmem.Quota) : Prop := q.upli = p.upli ∧ q.used = p.used ∧ q.ovr = p.ovr

/-- The nodes of a space are those of `n`, and in the same trees. -/
def SameNodes {σ : Type} (n st : State σ) : Prop := st.tree = n.tree ∧ ∀ m < n.fresh, st.mdb m = n.mdb m

/-- The quotas of the caller and of the donor, the slots and the mapping database
are those of `k`. -/
structure Untouched (k : Kernel ρ) (r : Args) (s : Spaces (Store ρ)) : Prop where
  caller : SameQuota (k.spaces.obj.space.quota k.cur) (s.obj.space.quota k.cur)
  donor : ∀ c, k.caps r.pd = some c → SameQuota (k.spaces.obj.space.quota c.pd) (s.obj.space.quota c.pd)
  rest : s.obj.space.rest = k.spaces.obj.space.rest
  mem : SameNodes k.spaces.mem s.mem
  pio : SameNodes k.spaces.pio s.pio
  obj : SameNodes k.spaces.obj s.obj

section Conditions

variable (M P O fuel) (k r)

def Refused : Prop :=
  ((k.spaces.obj.space.quota k.cur).hitLimit 0).val = true ∨
    ∀ c, k.caps r.pd = some c → c.prm &&& 1 = 0 ∨ r.limitUpper < r.limitLower ∨
      ((k.spaces.obj.space.quota c.pd).hitLimit 1).val = true

/-- The cache of the domains has a free element, and the caller does not both use
memory and have an overrun. -/
def Calm : Prop :=
  k.spaces.obj.space.cache.curr ≠ none ∧
    ((k.spaces.obj.space.quota k.cur).used = 0 ∨ (k.spaces.obj.space.quota k.cur).ovr = 0)

def paid : Store ρ :=
  if k.spaces.obj.space.cache.curr.isNone then k.spaces.obj.space.charge k.cur else k.spaces.obj.space

def Granted (c : Cap) : Prop := ((((paid k).quota c.pd).transferOut r.limitUpper true).val).isSome = true

def Occupied : Prop := ∃ n ∈ k.spaces.obj.tree k.cur, (k.spaces.obj.mdb n).covers r.sel = true

def placed (c : Cap) : Option (Spaces (Store ρ)) :=
  match k.spaces.obj.space.newPd k.cur k.next k.page with
  | .error _ => none
  | .ok (_, x) =>
    (x.setLimit k.next c.pd r.limitLower r.limitUpper).map fun x =>
      let s := modify (fun _ => x) k.spaces
      s.setObj (insertPd O k.cur k.next r.sel c.prm s.obj).1

/-- Memory lasts for the slot, and for what the new domain is given.  How many pages these
take is up to the operations of the spaces. -/
def Lasts (c : Cap) : Prop :=
  ∀ s, placed O k r c = some s → s.obj.oom = false ∧
    ∀ s', populate M P O fuel k.cur k.next r.crd k.tip s = some s' → s'.obj.oom = false

/-- The call refuses at once, or it succeeds, or the domain is deleted before it is
in a slot and the account it goes back to is the one that it came from. -/
def Clean : Prop :=
  Refused k r ∨ ∀ c, k.caps r.pd = some c →
    (Granted k r c → ¬Occupied k r → Lasts M P O fuel k r c) ∧
    (Granted k r c → Occupied k r →
      Calm k ∧ (r.limitUpper = 0 ∨ c.pd = k.cur ∧ (k.spaces.obj.space.quota k.cur).ovr = 0)) ∧
    (¬Granted k r c → Calm k)

end Conditions

theorem lookup_nil {σ : Type} {st : State σ} {pd : PdId} (h : st.tree pd = []) (b : Mword) (next : Bool) :
    st.lookup pd b next = none := by
  unfold State.lookup Mapdb.lookup
  rw [h]
  cases next <;> rfl

theorem revoke_nil {σ : Type} {S : SpaceOps σ} {st st' : State σ} {pd : PdId} {base ord attr : Mword}
    {self kim : Bool} (h : st.tree pd = []) (hr : revoke S fuel pd base ord attr self kim st = some st') :
    st'.mdb = st.mdb ∧ st'.tree = st.tree ∧ st'.space = st.space := by
  unfold revoke at hr
  cases fuel with
  | zero => simp [walkRange] at hr
  | succ fuel =>
    simp only [walkRange, id, lookup_nil h] at hr
    split at hr
    · obtain rfl := Option.some.inj hr
      exact ⟨rfl, rfl, rfl⟩
    · obtain rfl := Option.some.inj hr
      exact ⟨rfl, rfl, rfl⟩

/-- The trees of the domain are empty, and the spaces agree on what they share. -/
structure Bare {σ : Type} (pd : PdId) (s : Spaces σ) : Prop where
  mem : s.mem.tree pd = []
  pio : s.pio.tree pd = []
  obj : s.obj.tree pd = []
  space : s.mem.space = s.obj.space ∧ s.pio.space = s.obj.space

structure Same {σ : Type} (s s' : Spaces σ) : Prop where
  mem : s'.mem.mdb = s.mem.mdb ∧ s'.mem.tree = s.mem.tree
  pio : s'.pio.mdb = s.pio.mdb ∧ s'.pio.tree = s.pio.tree
  obj : s'.obj.mdb = s.obj.mdb ∧ s'.obj.tree = s.obj.tree
  space : s'.obj.space = s.obj.space

theorem preFree_bare {σ : Type} {M P O : SpaceOps σ} {pd : PdId} {s s' : Spaces σ} (h : Bare pd s)
    (hr : preFree M P O fuel pd s = some s') : Same s s' := by
  unfold preFree at hr
  dsimp only at hr
  split at hr
  · simp at hr
  · rename_i t₁ h₁
    obtain ⟨hm₁, ht₁, hs₁⟩ := revoke_nil h.mem h₁
    split at hr
    · simp at hr
    · rename_i t₂ h₂
      obtain ⟨hm₂, ht₂, hs₂⟩ := revoke_nil (show ((s.setMem t₁).pio).tree pd = [] from h.pio) h₂
      split at hr
      · simp at hr
      · rename_i t₃ h₃
        obtain ⟨hm₃, ht₃, hs₃⟩ := revoke_nil (show (((s.setMem t₁).setPio t₂).obj).tree pd = [] from h.obj) h₃
        obtain rfl := Option.some.inj hr
        refine ⟨⟨hm₁, ht₁⟩, ⟨hm₂, ht₂⟩, ⟨hm₃, ht₃⟩, ?_⟩
        rw [← h.space.1, ← hs₁]
        exact hs₃.trans hs₂

section Accounts

open Lib.Checked

variable {p q : Kmem.Quota} {h v : Mword}

theorem wmin_eq_zero (a b : Mword) : wmin a b = 0 ↔ a = 0 ∨ b = 0 := by
  have h0 : (0 : Mword).toNat = 0 := rfl
  unfold wmin
  simp only [BitVec.lt_def, ← BitVec.toNat_inj]
  split <;> omega

theorem transferOut_val (ht : (q.transferOut h true).val = some (p, v)) :
    p = { q with upli := q.upli - h, ovr := q.ovr - v } ∧ v = wmin q.ovr h := by
  unfold Kmem.Quota.transferOut at ht
  simp only [bind_val, if_true] at ht
  split at ht
  · simp at ht
  · simp only [bind_val] at ht
    split at ht
    · simp at ht
    · simp only [bind_val, pure_val, Option.some.injEq, Prod.mk.injEq] at ht
      obtain ⟨rfl, rfl⟩ := ht
      exact ⟨rfl, rfl⟩

theorem freeUpIn_val (q : Kmem.Quota) (l : Mword) : (q.freeUpIn l 0 0).val =
    if q.ovr ≠ 0 ∧ q.used ≠ 0 then
      { q with used := q.used - wmin q.used q.ovr, ovr := q.ovr - wmin q.used q.ovr,
               upli := q.upli + l - wmin q.used q.ovr }
    else { q with upli := q.upli + l } := by
  unfold Kmem.Quota.freeUpIn
  simp only [bind_val, add, add_zero]
  split
  · rfl
  · rfl

theorem transferIn_zero (h v : Mword) : (Kmem.Quota.zero.transferIn h v).val = { Kmem.Quota.zero with upli := h } := by
  unfold Kmem.Quota.transferIn
  simp [Kmem.Quota.zero, add]

theorem sameQuota_back {g : Bool} (hl : p.upli = q.upli) (hu : p.used = if g then q.used + 1 else q.used)
    (ho : p.ovr = q.ovr) :
    SameQuota q ({ p with upli := p.upli - h, ovr := p.ovr - wmin p.ovr h }.freeUpIn h 0 0).val ↔
      g = false ∧ (q.used = 0 ∨ q.ovr = 0) ∧ (h = 0 ∨ q.ovr = 0) := by
  have hsub : ∀ a b : Mword, a - b = a ↔ b = 0 := fun a b => sub_eq_self
  have hgrown : p.used = q.used ↔ g = false := by
    rw [hu]
    cases g <;> simp
  rw [freeUpIn_val]
  unfold SameQuota
  split
  · rename_i hboth
    obtain ⟨h1, h2⟩ := hboth
    simp only [sub_add_cancel, hl, hsub, wmin_eq_zero, h1, h2, or_self, false_and, false_iff]
    rintro ⟨hg, hcalm, -⟩
    rw [hgrown.mpr hg] at h2
    have h0 : q.ovr = 0 := hcalm.resolve_left h2
    exact h1 (by rw [ho, h0]; simp [wmin])
  · rename_i hnot
    simp only [sub_add_cancel, hl, true_and, hgrown, ho, hsub, wmin_eq_zero]
    constructor
    · rintro ⟨hg, hz⟩
      have hw : wmin q.ovr h = 0 := (wmin_eq_zero q.ovr h).mpr hz
      refine ⟨hg, ?_, hz.symm⟩
      by_contra hc
      obtain ⟨h1, h2⟩ := not_or.mp hc
      refine hnot ⟨?_, ?_⟩
      · rw [ho, hw, sub_zero]
        exact h2
      · rw [hgrown.mpr hg]
        exact h1
    · rintro ⟨hg, -, hz⟩
      exact ⟨hg, hz.symm⟩

end Accounts

/-- What the accounts and the cache are once a domain has been made in its memory. -/
structure Fresh (k : Kernel ρ) (o : Slabs.Obj) (x : Store ρ) : Prop where
  quota : ∀ p, p ≠ k.next → x.quota p = (paid k).quota p
  zero : x.quota k.next = .zero
  holds : x.holds k.next = 0
  rest : x.rest = k.spaces.obj.space.rest
  free : ∃ c, x.cache.free o = .ok (c, false)

theorem newPd_eq (k : Kernel ρ) :
    ∃ o x, k.spaces.obj.space.newPd k.cur k.next k.page = .ok (o, x) ∧ Fresh k o x := by
  obtain ⟨A, B, hl⟩ := k.cache
  obtain ⟨o, c, A', B', hrun, hl', htook, -, hgone⟩ := hl.alloc k.page_free k.elem_pos
  have ho : o ∈ c.live := htook.live ▸ Finset.mem_insert_self o _
  have hfree : ∃ d, c.free o = .ok (d, false) := by
    obtain ⟨d, gone, A₂, B₂, hd, -⟩ := hl'.free ho
    rw [Slabs.Cache.gone_eq_false hgone (hl'.avail_pos ho) hd] at hd
    exact ⟨d, hd⟩
  unfold Store.newPd
  rw [hrun]
  refine ⟨o, _, rfl, ?_⟩
  dsimp only
  cases hc : k.spaces.obj.space.cache.curr with
  | none =>
    refine ⟨fun p hp => ?_, Function.update_self .., Function.update_self .., rfl, hfree⟩
    simp only [paid, hc, Option.isNone_none, if_true]
    exact Function.update_of_ne hp ..
  | some c =>
    refine ⟨fun p hp => ?_, Function.update_self .., Function.update_self .., rfl, hfree⟩
    simp only [paid, hc, Option.isNone_some, Bool.false_eq_true, if_false]
    exact Function.update_of_ne hp ..

theorem paid_caller (k : Kernel ρ) :
    ((paid k).quota k.cur).upli = (k.spaces.obj.space.quota k.cur).upli ∧
    ((paid k).quota k.cur).used =
      (if k.spaces.obj.space.cache.curr.isNone then (k.spaces.obj.space.quota k.cur).used + 1
      else (k.spaces.obj.space.quota k.cur).used) ∧
    ((paid k).quota k.cur).ovr = (k.spaces.obj.space.quota k.cur).ovr := by
  unfold paid
  split
  · have : (k.spaces.obj.space.charge k.cur).quota k.cur = ((k.spaces.obj.space.quota k.cur).alloc 1).val :=
      Function.update_self ..
    rw [this]
    exact ⟨rfl, rfl, rfl⟩
  · exact ⟨rfl, rfl, rfl⟩

theorem paid_other {p : PdId} (hp : p ≠ k.cur) : (paid k).quota p = k.spaces.obj.space.quota p := by
  unfold paid
  split
  · exact Function.update_of_ne hp ..
  · rfl

/-- What is left of a domain with nothing in it once it is deleted. -/
structure Deleted (pd cur : PdId) (s s' : Spaces (Store ρ)) : Prop where
  mem : s'.mem.mdb = s.mem.mdb ∧ s'.mem.tree = s.mem.tree
  pio : s'.pio.mdb = s.pio.mdb ∧ s'.pio.tree = s.pio.tree
  obj : s'.obj.mdb = s.obj.mdb ∧ s'.obj.tree = s.obj.tree
  rest : s'.obj.space.rest = s.obj.space.rest
  quota : s'.obj.space.quota cur = ((s.obj.space.quota cur).freeUpIn (s.obj.space.quota pd).upli
    (s.obj.space.quota pd).used (s.obj.space.quota pd).ovr).val
  other : ∀ p, p ≠ cur → p ≠ pd → s'.obj.space.quota p = s.obj.space.quota p

theorem delete_bare {pd cur : PdId} (hb : Bare pd s) (hne : cur ≠ pd) (hh : s.obj.space.holds pd = 0)
    (hf : ∃ c, s.obj.space.cache.free o = .ok (c, false)) (hd : delete M P O fuel pd cur o s = .ok s') :
    Deleted pd cur s s' := by
  unfold delete at hd
  cases hp : preFree M P O fuel pd s with
  | none =>
    rw [hp] at hd
    cases hd
  | some t =>
    have hsame := preFree_bare hb hp
    rw [hp] at hd
    obtain ⟨c, hc⟩ := hf
    have hclear : t.obj.space.clear pd = s.obj.space := by
      rw [hsame.space]
      unfold Store.clear
      rw [hh, Function.iterate_zero, id]
      have : Function.update s.obj.space.holds pd 0 = s.obj.space.holds := by
        rw [← hh, Function.update_eq_self]
      rw [this]
    have hcache : (s.obj.space.freeUp pd cur).cache.free o = .ok (c, false) := hc
    change liftFault ((t.obj.space.clear pd).deletePd pd cur o) >>= _ = _ at hd
    rw [hclear] at hd
    unfold Store.deletePd at hd
    dsimp only at hd
    rw [hcache] at hd
    obtain rfl := Except.ok.inj hd
    refine ⟨hsame.mem, hsame.pio, hsame.obj, rfl, ?_, fun p hp hq => ?_⟩
    · change (Function.update (Function.update _ pd _) cur _) cur = _
      rw [Function.update_self]
      change ((Function.update s.obj.space.quota pd _ cur).freeUpIn _ _ _).val = _
      rw [Function.update_of_ne hne]
    · change (Function.update (Function.update _ pd _) cur _) p = _
      rw [Function.update_of_ne hp, Function.update_of_ne hq]

/-- The domain `o` has its limit, and has been tried to be put into its slot. -/
structure Placing (O : SpaceOps (Store ρ)) (k : Kernel ρ) (r : Args) (c : Cap) (o : Slabs.Obj) (y : Store ρ)
    (t : State (Store ρ)) (ok : Bool) : Prop where
  refused : ¬Refused k r
  cap : k.caps r.pd = some c
  limit : ∃ x, k.spaces.obj.space.newPd k.cur k.next k.page = .ok (o, x) ∧ Fresh k o x ∧
    x.setLimit k.next c.pd r.limitLower r.limitUpper = some y
  insert : insertPd O k.cur k.next r.sel c.prm (modify (fun _ => y) k.spaces).obj = (t, ok)

inductive Way (M P O : SpaceOps (Store ρ)) (fuel : Nat) (k : Kernel ρ) (r : Args) :
    Status → Spaces (Store ρ) → Prop
  | refused {status : Status} (h : Refused k r) : Way M P O fuel k r status k.spaces
  | limit {c : Cap} {o : Slabs.Obj} {x : Store ρ} {s : Spaces (Store ρ)} (hr : ¬Refused k r)
      (hc : k.caps r.pd = some c) (hx : Fresh k o x) (hl : x.setLimit k.next c.pd r.limitLower r.limitUpper = none)
      (hd : delete M P O fuel k.next k.cur o (modify (fun _ => x) k.spaces) = .ok s) : Way M P O fuel k r .badPar s
  | occupied {c : Cap} {o : Slabs.Obj} {y : Store ρ} {t : State (Store ρ)} {s : Spaces (Store ρ)}
      (hp : Placing O k r c o y t false)
      (hd : delete M P O fuel k.next k.cur o ((modify (fun _ => y) k.spaces).setObj t) = .ok s) :
      Way M P O fuel k r .badCap s
  | slotOom {c : Cap} {o : Slabs.Obj} {y : Store ρ} {t : State (Store ρ)} {s : Spaces (Store ρ)}
      (hp : Placing O k r c o y t true) (ho : t.oom = true)
      (hd : delete M P O fuel k.next k.cur o (clearOom ((modify (fun _ => y) k.spaces).setObj t)) = .ok s) :
      Way M P O fuel k r .quoOom s
  | giftOom {c : Cap} {o : Slabs.Obj} {y : Store ρ} {t : State (Store ρ)} {v s : Spaces (Store ρ)}
      (hp : Placing O k r c o y t true)
      (hv : populate M P O fuel k.cur k.next r.crd k.tip ((modify (fun _ => y) k.spaces).setObj t) = some v)
      (ho : v.obj.oom = true) (hd : delete M P O fuel k.next k.cur o (clearOom v) = .ok s) :
      Way M P O fuel k r .quoOom s
  | success {c : Cap} {o : Slabs.Obj} {y : Store ρ} {t : State (Store ρ)} {s : Spaces (Store ρ)}
      (hp : Placing O k r c o y t true) (ht : t.oom = false)
      (hv : populate M P O fuel k.cur k.next r.crd k.tip ((modify (fun _ => y) k.spaces).setObj t) = some s)
      (ho : s.obj.oom = false) : Way M P O fuel k r .success s

theorem bind_pair {α β ε : Type} {a : Except ε α} {x y : β} {b : α}
    (h : (a >>= fun v => pure (x, v)) = .ok (y, b)) : a = .ok b ∧ y = x := by
  cases a with
  | error e => cases h
  | ok v =>
    cases h
    exact ⟨rfl, rfl⟩

theorem way_of_run (h : sysCreatePd M P O fuel k r = .ok (status, s)) : Way M P O fuel k r status s := by
  unfold sysCreatePd at h
  dsimp only at h
  split at h
  · rename_i hhit
    obtain ⟨rfl, rfl⟩ := Prod.mk.inj (Except.ok.inj h)
    exact .refused (.inl hhit)
  · rename_i hhit
    cases hc : k.caps r.pd with
    | none =>
      rw [hc] at h
      obtain ⟨rfl, rfl⟩ := Prod.mk.inj (Except.ok.inj h)
      exact .refused (.inr fun c hc' => by simp [hc] at hc')
    | some c =>
      simp only [hc] at h
      split at h
      · rename_i hprm
        obtain ⟨rfl, rfl⟩ := Prod.mk.inj (Except.ok.inj h)
        exact .refused (.inr fun c' hc' => .inl (by simp_all))
      · split at h
        · rename_i hlim
          obtain ⟨rfl, rfl⟩ := Prod.mk.inj (Except.ok.inj h)
          exact .refused (.inr fun c' hc' => .inr (.inl hlim))
        · split at h
          · rename_i hq
            obtain ⟨rfl, rfl⟩ := Prod.mk.inj (Except.ok.inj h)
            exact .refused (.inr fun c' hc' => .inr (.inr (by simp_all)))
          · rename_i hprm hlim hq
            have hr : ¬Refused k r := by
              rintro (hh | hh)
              · exact hhit hh
              · rcases hh c hc with hh | hh | hh
                · exact hprm hh
                · exact hlim hh
                · exact hq hh
            obtain ⟨o, x, hnew, hx⟩ := newPd_eq k
            rw [hnew] at h
            simp only [liftFault, bind, Except.bind] at h
            cases hl : x.setLimit k.next c.pd r.limitLower r.limitUpper with
            | none =>
              simp only [hl] at h
              obtain ⟨hd, rfl⟩ := bind_pair h
              exact .limit hr hc hx hl hd
            | some y =>
              simp only [hl] at h
              cases hi : insertPd O k.cur k.next r.sel c.prm (modify (fun _ => y) k.spaces).obj with
              | mk t ok =>
                have hp : Placing O k r c o y t ok := ⟨hr, hc, ⟨x, hnew, hx, hl⟩, hi⟩
                simp only [hi] at h
                cases ok with
                | false =>
                  obtain ⟨hd, rfl⟩ := bind_pair h
                  exact .occupied hp hd
                | true =>
                  simp only [Bool.not_true, Bool.false_eq_true, if_false] at h
                  split at h
                  · rename_i ho
                    obtain ⟨hd, rfl⟩ := bind_pair h
                    exact .slotOom hp ho hd
                  · rename_i ht
                    cases hv : populate M P O fuel k.cur k.next r.crd k.tip ((modify (fun _ => y) k.spaces).setObj t) with
                    | none =>
                      rw [hv] at h
                      cases h
                    | some v =>
                      simp only [hv, liftFuel] at h
                      split at h
                      · rename_i ho
                        obtain ⟨hd, rfl⟩ := bind_pair h
                        exact .giftOom hp hv ho hd
                      · rename_i ho
                        obtain ⟨rfl, rfl⟩ := Prod.mk.inj (Except.ok.inj h)
                        exact .success hp (Bool.eq_false_iff.mpr ht) hv (Bool.eq_false_iff.mpr ho)

theorem setLimit_some {pd donor : PdId} {l h : Mword} (hne : donor ≠ pd) (hl : x.setLimit pd donor l h = some y) :
    ∃ p v, ((x.quota donor).transferOut h true).val = some (p, v) ∧ y.quota donor = p ∧
      y.quota pd = { ((x.quota pd).transferIn h v).val with notr := l } ∧
      (∀ q, q ≠ donor → q ≠ pd → y.quota q = x.quota q) ∧ y.holds = x.holds ∧ y.cache = x.cache ∧ y.rest = x.rest := by
  unfold Store.setLimit at hl
  split at hl
  · simp at hl
  · rename_i p v ht
    obtain rfl := Option.some.inj hl
    refine ⟨p, v, ht, ?_, ?_, fun q hq hq' => ?_, rfl, rfl, rfl⟩
    · change Function.update (Function.update x.quota donor p) pd _ donor = p
      rw [Function.update_of_ne hne, Function.update_self]
    · change Function.update (Function.update x.quota donor p) pd _ pd = _
      rw [Function.update_self]
      change { ((Function.update x.quota donor p pd).transferIn h v).val with notr := l } = _
      rw [Function.update_of_ne hne.symm]
    · change Function.update (Function.update x.quota donor p) pd _ q = _
      rw [Function.update_of_ne hq', Function.update_of_ne hq]

theorem equal_eq_covers {n : NodeId} {phys sel attr : Mword} (cur : PdId) (m : Mdb) :
    (rootNode cur n phys sel 0 attr 0).equal m = m.covers sel := by
  unfold Mdb.equal Mdb.covers
  have : wmax (rootNode cur n phys sel 0 attr 0).nodeOrder m.nodeOrder = m.nodeOrder := by
    have h0 : (rootNode cur n phys sel 0 attr 0).nodeOrder = 0 := rfl
    rw [h0]
    unfold wmax
    rw [if_neg (by simp [BitVec.lt_def])]
  rw [this, BitVec.xor_comm]
  rfl

theorem insertRoot_eq_false {σ : Type} (S : SpaceOps σ) {st : State σ} (cur : PdId) (phys sel attr : Mword) (hw : Wf st) :
    (insertRoot S cur phys sel 0 attr 0 st).2 = false ↔ ∃ m ∈ st.tree cur, (st.mdb m).covers sel = true := by
  generalize hx : rootNode cur st.fresh phys sel 0 attr 0 = x
  have hins := treeInsert_eq_none (h := (st.alloc S cur x).mdb) (t := st.tree cur) (n := st.fresh)
  have hmem : ∀ m ∈ st.tree cur, (((st.alloc S cur x).mdb st.fresh).equal ((st.alloc S cur x).mdb m) = true ↔
      (st.mdb m).covers sel = true) := by
    intro m hm
    rw [alloc_new, alloc_old (hw.mem cur m hm).2, ← hx, equal_eq_covers]
  have hany : (∃ m ∈ st.tree cur, (st.mdb m).covers sel = true) ↔ _ :=
    Iff.trans (exists_congr fun m => and_congr_right fun hm => (hmem m hm).symm) hins.symm
  rw [hany]
  unfold insertRoot
  dsimp only
  rw [hx]
  split
  · rename_i hins'
    exact iff_of_true rfl hins'
  · rename_i tree hins'
    refine iff_of_false (by simp) fun h0 => ?_
    exact Option.some_ne_none tree (hins'.symm.trans h0)

theorem insertRoot_slot {σ : Type} {O : SpaceOps σ} {st t : State σ} {cur : PdId} {phys sel attr : Mword} {ok : Bool}
    (hw : Wf st) (ha : attr &&& ~~~0x1f = 0) (h : insertRoot (embedded O) cur phys sel 0 attr 0 st = (t, ok)) :
    ok = false ∧ (∃ m ∈ st.tree cur, (st.mdb m).covers sel = true) ∧ SameNodes st t ∧ t.space = st.space ∨
      ok = true ∧ (¬∃ m ∈ st.tree cur, (st.mdb m).covers sel = true) ∧ Planted cur st.fresh t := by
  have hocc := insertRoot_eq_false (embedded O) cur phys sel attr hw
  rw [h] at hocc
  have hmeets : Meets (embedded O) (fun _ _ => True) (fun _ _ => True) (fun _ _ => True) 0
      (.insertRoot cur phys sel 0 attr 0) st := ⟨by decide, aligned_zero _, aligned_zero _, ha⟩
  have hcases := insertRoot_cases (trivial_frame (embedded O)) hw hmeets
  rw [h] at hcases
  rcases hcases with ⟨hok, hq⟩ | ⟨hok, hrt, hnode⟩
  · refine .inl ⟨hok, hocc.mp hok, ⟨hq.tree, hq.mdb⟩, ?_⟩
    unfold insertRoot at h
    dsimp only at h
    split at h
    · obtain ⟨rfl, -⟩ := Prod.mk.inj h
      rfl
    · obtain ⟨-, rfl⟩ := Prod.mk.inj h
      simp at hok
  · refine .inr ⟨hok, fun ho => ?_, hrt.wf hw, (hrt.live hw _).mpr (.inl rfl), ?_, ?_⟩
    · have := hocc.mpr ho
      simp_all
    · rw [hnode]
      rfl
    · rw [hnode]
      rfl

theorem insertPd_cases {t : State (Store ρ)} {ok : Bool}
    (h : insertPd O k.cur k.next r.sel cap.prm (modify (fun _ => y) k.spaces).obj = (t, ok)) :
    ok = false ∧ Occupied k r ∧ SameNodes k.spaces.obj t ∧ t.space = y ∨
      ok = true ∧ ¬Occupied k r ∧ Planted k.cur k.spaces.obj.fresh t := by
  have hw : Wf (modify (fun _ => y) k.spaces).obj := ⟨k.wf.mem, k.wf.ordered, k.wf.natural, k.wf.ring⟩
  have hprm : cap.prm &&& ~~~0x1f = 0 := by
    unfold Cap.prm
    rw [BitVec.and_assoc, BitVec.and_not_self]
    exact BitVec.and_zero
  unfold insertPd at h
  dsimp only at h
  cases hi : insertRoot (embedded O) k.cur (BitVec.ofNat 64 k.next) r.sel 0 cap.prm 0 (modify (fun _ => y) k.spaces).obj with
  | mk u b =>
    rw [hi] at h
    rcases insertRoot_slot hw hprm hi with ⟨rfl, hocc, hsame, hspace⟩ | ⟨rfl, hocc, hpl⟩
    · obtain ⟨rfl, rfl⟩ := Prod.mk.inj h
      exact .inl ⟨rfl, hocc, hsame, hspace⟩
    · right
      split at h
      · obtain ⟨rfl, rfl⟩ := Prod.mk.inj h
        exact ⟨rfl, hocc, ⟨hpl.wf.mem, hpl.wf.ordered, hpl.wf.natural, hpl.wf.ring⟩, hpl.live, hpl.space, hpl.dpth⟩
      · obtain ⟨rfl, rfl⟩ := Prod.mk.inj h
        exact ⟨rfl, hocc, hpl⟩

theorem populate_planted {n : NodeId} {cur pd : PdId} {crd : Crd} {tip : Mword} (h : Planted cur n s.obj)
    (hp : populate M P O fuel cur pd crd tip s = some s') : Planted cur n s'.obj := by
  unfold populate at hp
  cases hd : delCrd M P O fuel pd cur (Crd.ofType Crd.OBJ) crd 0 0 s with
  | none =>
    rw [hd] at hp
    cases hp
  | some v =>
    rw [hd] at hp
    have hv : Planted cur n v.1.obj := delCrd_planted h hd
    cases he : execAll M fuel (delegateToUserspace kern pd tip) v.1.mem with
    | none =>
      simp [he] at hp
    | some t =>
      simp only [he, Option.bind_eq_bind, Option.bind_some] at hp
      obtain rfl := Option.some.inj hp
      exact hv.follow

theorem delete_planted {n : NodeId} {cur pd : PdId} (hne : cur ≠ pd) (h : Planted cur n s.obj)
    (hd : delete M P O fuel pd cur o s = .ok s') : Planted cur n s'.obj := by
  unfold delete at hd
  cases hp : preFree M P O fuel pd s with
  | none =>
    rw [hp] at hd
    cases hd
  | some t =>
    have ht := preFree_planted hne h hp
    rw [hp] at hd
    change liftFault ((t.obj.space.clear pd).deletePd pd cur o) >>= _ = _ at hd
    cases hx : (t.obj.space.clear pd).deletePd pd cur o with
    | error e =>
      rw [hx] at hd
      cases hd
    | ok x =>
      rw [hx] at hd
      obtain rfl := Except.ok.inj hd
      exact ⟨⟨ht.wf.mem, ht.wf.ordered, ht.wf.natural, ht.wf.ring⟩, ht.live, ht.space, ht.dpth⟩

theorem not_untouched (h : Planted k.cur k.spaces.obj.fresh s.obj) : ¬Untouched k r s := by
  intro hu
  have hmem := h.mem
  rw [hu.obj.1] at hmem
  exact lt_irrefl _ (k.wf.mem _ _ hmem).2

theorem Placing.granted {c : Cap} {t : State (Store ρ)} {ok : Bool} (hp : Placing O k r c o y t ok) :
    Granted k r c := by
  obtain ⟨x, -, hx, hl⟩ := hp.limit
  obtain ⟨p, v, ht, -⟩ := setLimit_some (k.caps_ne _ _ hp.cap) hl
  unfold Granted
  rw [← hx.quota _ (k.caps_ne _ _ hp.cap), ht]
  rfl

theorem Placing.placed {c : Cap} {t : State (Store ρ)} {ok : Bool} (hp : Placing O k r c o y t ok) :
    placed O k r c = some ((modify (fun _ => y) k.spaces).setObj t) := by
  obtain ⟨x, hnew, -, hl⟩ := hp.limit
  unfold Create.placed
  simp only [hnew, hl, Option.map_some]
  rw [hp.insert]

theorem clean_iff {c : Cap} (hr : ¬Refused k r) (hc : k.caps r.pd = some c) :
    Clean M P O fuel k r ↔ (Granted k r c → ¬Occupied k r → Lasts M P O fuel k r c) ∧
      (Granted k r c → Occupied k r →
        Calm k ∧ (r.limitUpper = 0 ∨ c.pd = k.cur ∧ (k.spaces.obj.space.quota k.cur).ovr = 0)) ∧
      (¬Granted k r c → Calm k) := by
  unfold Clean
  rw [or_iff_right hr]
  constructor
  · intro h
    exact h c hc
  · intro h c' hc'
    obtain rfl := Option.some.inj (hc.symm.trans hc')
    exact h

theorem caller_back (k : Kernel ρ) (h : Mword) :
    SameQuota (k.spaces.obj.space.quota k.cur)
      ({ (paid k).quota k.cur with
          upli := ((paid k).quota k.cur).upli - h
          ovr := ((paid k).quota k.cur).ovr - wmin ((paid k).quota k.cur).ovr h }.freeUpIn h 0 0).val ↔
      Calm k ∧ (h = 0 ∨ (k.spaces.obj.space.quota k.cur).ovr = 0) := by
  obtain ⟨hl, hu, ho⟩ := paid_caller k
  rw [sameQuota_back hl hu ho]
  unfold Calm
  cases k.spaces.obj.space.cache.curr <;> simp

theorem caller_kept (k : Kernel ρ) :
    SameQuota (k.spaces.obj.space.quota k.cur) (((paid k).quota k.cur).freeUpIn 0 0 0).val ↔ Calm k := by
  have h := caller_back k 0
  have hw : wmin ((paid k).quota k.cur).ovr 0 = 0 := (wmin_eq_zero _ _).mpr (.inr rfl)
  simp only [hw, sub_zero, true_or, and_true] at h
  exact h

theorem sameQuota_refl (q : Kmem.Quota) : SameQuota q q := ⟨rfl, rfl, rfl⟩

theorem sameNodes_of_eq {σ : Type} {n st : State σ} (h : st.mdb = n.mdb ∧ st.tree = n.tree) : SameNodes n st :=
  ⟨h.2, fun _ _ => by rw [h.1]⟩

theorem untouched_iff_accounts {t : Spaces (Store ρ)} (h : Deleted k.next k.cur t s)
    (hm : t.mem.mdb = k.spaces.mem.mdb ∧ t.mem.tree = k.spaces.mem.tree)
    (hp : t.pio.mdb = k.spaces.pio.mdb ∧ t.pio.tree = k.spaces.pio.tree) (ho : SameNodes k.spaces.obj t.obj)
    (hr : t.obj.space.rest = k.spaces.obj.space.rest) :
    Untouched k r s ↔ SameQuota (k.spaces.obj.space.quota k.cur) (s.obj.space.quota k.cur) ∧
      ∀ c, k.caps r.pd = some c → SameQuota (k.spaces.obj.space.quota c.pd) (s.obj.space.quota c.pd) := by
  constructor
  · intro hu
    exact ⟨hu.caller, hu.donor⟩
  · rintro ⟨hc, hd⟩
    refine ⟨hc, hd, h.rest.trans hr, sameNodes_of_eq ⟨h.mem.1.trans hm.1, h.mem.2.trans hm.2⟩,
      sameNodes_of_eq ⟨h.pio.1.trans hp.1, h.pio.2.trans hp.2⟩, h.obj.2.trans ho.1, fun m hlt => ?_⟩
    rw [h.obj.1]
    exact ho.2 m hlt

theorem limit_untouched_iff {c : Cap} (hc : k.caps r.pd = some c) (hx : Fresh k o x)
    (hd : delete M P O fuel k.next k.cur o (modify (fun _ => x) k.spaces) = .ok s) :
    Untouched k r s ↔ Calm k := by
  have hb : Bare k.next (modify (fun _ => x) k.spaces) :=
    ⟨k.next_free.1, k.next_free.2.1, k.next_free.2.2, rfl, rfl⟩
  have hdel := delete_bare hb k.cur_ne hx.holds hx.free hd
  have hcur : s.obj.space.quota k.cur = (((paid k).quota k.cur).freeUpIn 0 0 0).val := by
    rw [hdel.quota]
    change ((x.quota k.cur).freeUpIn (x.quota k.next).upli (x.quota k.next).used (x.quota k.next).ovr).val = _
    rw [hx.zero, hx.quota _ k.cur_ne]
    rfl
  rw [untouched_iff_accounts hdel ⟨rfl, rfl⟩ ⟨rfl, rfl⟩ ⟨rfl, fun _ _ => rfl⟩ hx.rest, hcur, caller_kept]
  refine and_iff_left_of_imp fun hcalm c' hc' => ?_
  obtain rfl := Option.some.inj (hc.symm.trans hc')
  by_cases he : c.pd = k.cur
  · rw [he, hcur, caller_kept]
    exact hcalm
  · rw [hdel.other _ he (k.caps_ne _ _ hc)]
    change SameQuota _ (x.quota c.pd)
    rw [hx.quota _ (k.caps_ne _ _ hc), paid_other he]
    exact sameQuota_refl _

theorem occupied_untouched_iff {c : Cap} {t : State (Store ρ)} (hp : Placing O k r c o y t false)
    (hd : delete M P O fuel k.next k.cur o ((modify (fun _ => y) k.spaces).setObj t) = .ok s) :
    Untouched k r s ↔
      Calm k ∧ (r.limitUpper = 0 ∨ c.pd = k.cur ∧ (k.spaces.obj.space.quota k.cur).ovr = 0) := by
  obtain ⟨-, -, hsame, hspace⟩ := (insertPd_cases hp.insert).resolve_right (by simp)
  have hne := k.caps_ne _ _ hp.cap
  obtain ⟨x, -, hx, hl⟩ := hp.limit
  obtain ⟨p, v, ht, hdonor, hnext, hother, hholds, hcache, hrest⟩ := setLimit_some hne hl
  rw [hx.zero, transferIn_zero] at hnext
  obtain ⟨rfl, rfl⟩ := transferOut_val ht
  rw [hx.quota _ hne] at hdonor
  have hfree : ∃ d, ((modify (fun _ => y) k.spaces).setObj t).obj.space.cache.free o = .ok (d, false) := by
    change ∃ d, t.space.cache.free o = _
    rw [hspace, hcache]
    exact hx.free
  have hb : Bare k.next ((modify (fun _ => y) k.spaces).setObj t) := by
    refine ⟨k.next_free.1, k.next_free.2.1, ?_, rfl, rfl⟩
    exact (congrFun hsame.1 _).trans k.next_free.2.2
  have hdel := delete_bare hb k.cur_ne (by
    change t.space.holds k.next = 0
    rw [hspace, hholds, hx.holds]) hfree hd
  have hcur : s.obj.space.quota k.cur = ((y.quota k.cur).freeUpIn r.limitUpper 0 0).val := by
    rw [hdel.quota]
    change ((t.space.quota k.cur).freeUpIn (t.space.quota k.next).upli (t.space.quota k.next).used
      (t.space.quota k.next).ovr).val = _
    rw [hspace, hnext]
    rfl
  rw [untouched_iff_accounts hdel ⟨rfl, rfl⟩ ⟨rfl, rfl⟩ hsame (by
    change t.space.rest = _
    rw [hspace, hrest, hx.rest])]
  have hcap : ∀ P : Cap → Prop, (∀ c', k.caps r.pd = some c' → P c') ↔ P c := by
    intro P
    constructor
    · intro h
      exact h c hp.cap
    · intro h c' hc'
      obtain rfl := Option.some.inj (hp.cap.symm.trans hc')
      exact h
  rw [hcap fun c' => SameQuota (k.spaces.obj.space.quota c'.pd) (s.obj.space.quota c'.pd)]
  by_cases he : c.pd = k.cur
  · rw [he] at hdonor ⊢
    rw [hcur, hdonor, caller_back, and_self]
    simp
  · have hcaller : y.quota k.cur = (paid k).quota k.cur := by
      rw [hother _ (Ne.symm he) k.cur_ne, hx.quota _ k.cur_ne]
    rw [hdel.other _ he hne]
    change SameQuota _ _ ∧ SameQuota _ (t.space.quota c.pd) ↔ _
    rw [hspace, hdonor, paid_other he, hcur, hcaller]
    have hsub : ∀ a b : Mword, a - b = a ↔ b = 0 := fun a b => sub_eq_self
    simp only [he, false_and, or_false]
    constructor
    · rintro ⟨hc, hu, -, -⟩
      have h0 := (hsub _ _).mp hu
      rw [h0, caller_kept] at hc
      exact ⟨hc, h0⟩
    · rintro ⟨hc, h0⟩
      rw [h0, caller_kept]
      refine ⟨hc, sub_zero _, rfl, ?_⟩
      change (k.spaces.obj.space.quota c.pd).ovr - wmin _ 0 = _
      rw [(wmin_eq_zero _ _).mpr (.inr rfl), sub_zero]

/-- A call that fails leaves everything as it was exactly under these conditions. -/
theorem failed_untouched_iff (h : sysCreatePd M P O fuel k r = .ok (status, s)) :
    (status ≠ .success → Untouched k r s) ↔ Clean M P O fuel k r := by
  cases way_of_run h with
  | refused hr =>
    refine iff_of_true (fun _ => ?_) (.inl hr)
    exact ⟨sameQuota_refl _, fun _ _ => sameQuota_refl _, rfl, ⟨rfl, fun _ _ => rfl⟩, ⟨rfl, fun _ _ => rfl⟩,
      ⟨rfl, fun _ _ => rfl⟩⟩
  | limit hr hc hx hl hd =>
    rename_i c o x
    have hg : ¬Granted k r c := by
      intro hg
      unfold Granted at hg
      rw [← hx.quota _ (k.caps_ne _ _ hc)] at hg
      unfold Store.setLimit at hl
      split at hl
      · rename_i hn
        rw [hn] at hg
        simp at hg
      · simp at hl
    rw [clean_iff hr hc, ← limit_untouched_iff hc hx hd]
    simp [hg]
  | occupied hp hd =>
    obtain ⟨-, hocc, -⟩ := (insertPd_cases hp.insert).resolve_right (by simp)
    rw [clean_iff hp.refused hp.cap, ← occupied_untouched_iff hp hd]
    simp [hp.granted, hocc]
  | slotOom hp ho hd =>
    rename_i c o y t
    obtain ⟨-, hocc, hpl⟩ := (insertPd_cases hp.insert).resolve_left (by simp)
    have hstay : Planted k.cur k.spaces.obj.fresh s.obj := by
      refine delete_planted k.cur_ne ?_ hd
      exact ⟨⟨hpl.wf.mem, hpl.wf.ordered, hpl.wf.natural, hpl.wf.ring⟩, hpl.live, hpl.space, hpl.dpth⟩
    refine iff_of_false (fun hu => not_untouched hstay (hu (by simp))) fun hclean => ?_
    have hlasts := ((clean_iff hp.refused hp.cap).mp hclean).1 hp.granted hocc _ hp.placed
    have : t.oom = false := hlasts.1
    simp [ho] at this
  | giftOom hp hv ho hd =>
    rename_i c o y t v
    obtain ⟨-, hocc, hpl⟩ := (insertPd_cases hp.insert).resolve_left (by simp)
    have hstay : Planted k.cur k.spaces.obj.fresh s.obj := by
      have hv' : Planted k.cur k.spaces.obj.fresh v.obj := populate_planted hpl hv
      refine delete_planted k.cur_ne ?_ hd
      exact ⟨⟨hv'.wf.mem, hv'.wf.ordered, hv'.wf.natural, hv'.wf.ring⟩, hv'.live, hv'.space, hv'.dpth⟩
    refine iff_of_false (fun hu => not_untouched hstay (hu (by simp))) fun hclean => ?_
    have hlasts := ((clean_iff hp.refused hp.cap).mp hclean).1 hp.granted hocc _ hp.placed
    have : v.obj.oom = false := hlasts.2 _ hv
    simp [ho] at this
  | success hp ht hv ho =>
    obtain ⟨-, hocc, -⟩ := (insertPd_cases hp.insert).resolve_left (by simp)
    refine iff_of_true (fun hne => absurd rfl hne) ((clean_iff hp.refused hp.cap).mpr ⟨fun _ _ => ?_, ?_, ?_⟩)
    · intro s₀ hs₀
      obtain rfl := Option.some.inj (hp.placed.symm.trans hs₀)
      refine ⟨ht, fun s₁ hs₁ => ?_⟩
      obtain rfl := Option.some.inj (hv.symm.trans hs₁)
      exact ho
    · intro _ hocc'
      exact absurd hocc' hocc
    · intro hg
      exact absurd hp.granted hg

def plainSpace : SpaceOps (Store Unit) where
  stickySub := id
  update _ _ s := (s, false, false)
  hitLimit _ _ := false
  alloc _ s := s
  destroy _ s := s
  check _ _ := true

def plainStore : Store Unit := ⟨fun _ => ⟨0, 0, 10, 0⟩, fun _ => 0, (Slabs.Cache.new 2).grow 0, ()⟩

/-- The domain 1 has an object at the selector 5, and capabilities for itself at 3
and for another domain at 4. -/
def slotTaken : Kernel Unit where
  spaces := ⟨boot plainStore, boot plainStore, (insertRoot plainSpace 1 0 5 0 0x1f 0 (boot plainStore)).1⟩
  cur := 1
  caps i := if i = 3 then some ⟨1, 1⟩ else if i = 4 then some ⟨2, 1⟩ else none
  next := 9
  page := 1
  tip := 0x100
  cur_ne := by decide
  caps_ne := by
    intro i c h
    split at h
    · cases h
      decide
    · split at h
      · cases h
        decide
      · cases h
  next_free := by decide
  page_free := by decide
  elem_pos := by decide
  cache := ⟨[0], [], (Slabs.Cache.lists_new 2).grow (by decide) (by decide)⟩
  wf := by
    have hmeets : Meets plainSpace (fun _ _ => True) (fun _ _ => True) (fun _ _ => True) 0
        (.insertRoot 1 0 5 0 0x1f 0) (boot plainStore) := by decide
    exact (insertRoot_steps (trivial_frame plainSpace) (Wf.boot plainStore) hmeets).wf (Wf.boot plainStore)

theorem slotTaken_untouched :
    ∃ s, sysCreatePd plainSpace plainSpace plainSpace 3 slotTaken ⟨5, 3, ⟨0⟩, 0x100000000⟩ = .ok (.badCap, s) ∧
      Untouched slotTaken ⟨5, 3, ⟨0⟩, 0x100000000⟩ s := by
  have hclean : Clean plainSpace plainSpace plainSpace 3 slotTaken ⟨5, 3, ⟨0⟩, 0x100000000⟩ := by
    refine .inr fun c hc => ?_
    obtain rfl : c = ⟨1, 1⟩ := (Option.some.inj hc).symm
    have hocc : Occupied slotTaken ⟨5, 3, ⟨0⟩, 0x100000000⟩ := ⟨0, by decide, by decide⟩
    exact ⟨fun _ h => absurd hocc h, fun _ _ => ⟨⟨by decide, by decide⟩, .inr ⟨rfl, by decide⟩⟩,
      fun h => absurd (by unfold Granted; decide) h⟩
  refine ⟨_, rfl, (failed_untouched_iff ?_).mpr hclean (show Status.badCap ≠ .success by simp)⟩
  rfl

/-- The limit comes from another domain and goes to the caller. -/
theorem slotTaken_not_untouched :
    ¬∀ (k : Kernel Unit) (r : Args) (status : Status) (s : Spaces (Store Unit)),
      sysCreatePd plainSpace plainSpace plainSpace 3 k r = .ok (status, s) → status ≠ .success → Untouched k r s := by
  intro hall
  have hu := hall slotTaken ⟨5, 4, ⟨0⟩, 0x100000000⟩ .badCap _ rfl (by simp)
  have hd := (hu.donor ⟨2, 1⟩ rfl).1
  revert hd
  decide

end Tukija.Create
