import Tukija.Ipc.Partner

/-! What each step preserves, and from it what all runs do. -/
namespace Tukija.Ipc

variable {fuel : Nat} {s s₀ s' : State} {e ec x : Id} {c : Option Cont} {next : Option Id}

/-! ## Going on with another EC -/

def Dead (s s' : State) : Prop := ∀ e, s.cont e = some .dead → s'.cont e = some .dead

theorem Dead.refl (s : State) : Dead s s := fun _ he => he

theorem Dead.setCont (h : Dead s₀ s) (hc : s.cont e = some .dead → c = some .dead) :
    Dead s₀ (s.setCont e c) := by
  intro y hy
  show Function.update s.cont e c y = some .dead
  by_cases heq : y = e
  · rw [heq, Function.update_self]
    exact hc (heq ▸ h y hy)
  · rw [Function.update_of_ne heq]
    exact h y hy

structure Goes (s s' : State) : Prop where
  inv : Inv s'
  dead : Dead s s'

def Leads (s : State) (r : Option State) : Prop := ∀ s', r = some s' → Goes s s'

namespace Leads

theorem none (s : State) : Leads s none := nofun

theorem makeCurrent (hd : Dead s₀ s) (h : Sound s) (hp : s.partner x = .none) (hq : s.queued x = false) :
    Leads s₀ (s.makeCurrent x) := by
  intro s' hs
  obtain ⟨c, hc, rfl⟩ := Option.map_eq_some_iff.mp hs
  have hrun : s.cont x ≠ .none := by
    rw [hc]
    nofun
  exact ⟨⟨⟨h.links, h.conts⟩, hp, hrun, hq, fun hdead => Option.some.inj (hc.symm.trans hdead)⟩, hd⟩

theorem walk_last {n k : BitVec 32} (hs : s.walk fuel e n = some (x, k)) : s.partner x = .none := by
  induction fuel generalizing e n with
  | zero => cases hs
  | succ fuel ih =>
    rw [State.walk] at hs
    split at hs
    · exact ih hs
    · next hp =>
      obtain ⟨rfl, -⟩ := Prod.mk.inj (Option.some.inj hs)
      exact hp

theorem activate (hd : Dead s₀ s) (h : Sound s) (e : Id) : Leads s₀ (s.activate fuel e) := by
  intro s' hs
  obtain ⟨⟨x, n⟩, hw, hs⟩ := Option.bind_eq_some_iff.mp hs
  dsimp only at hs
  split at hs
  · cases hs
  · next hfree =>
    obtain ⟨hq, -⟩ := Bool.or_eq_false_iff.mp (Bool.eq_false_iff.mpr hfree)
    have hp := walk_last hw
    exact makeCurrent (s := { s with ctr := n }) hd ⟨h.links, h.conts⟩ hp hq s' hs

theorem schedule (hd : Dead s₀ s) (h : Sound s) (sc : Id) : Leads s₀ (s.schedule fuel sc) := by
  unfold State.schedule
  split
  · exact activate (s := { s with sc := sc }) hd ⟨h.links, h.conts⟩ sc
  · exact none s₀

theorem resume (hd : Dead s₀ s) (h : Sound s) (e : Id) (next : Option Id) : Leads s₀ (s.resume fuel e next) := by
  cases next with
  | none => exact activate hd h e
  | some sc => exact schedule hd h sc

theorem help (hd : Dead s₀ (s.setCont s.current c)) (h : Sound (s.setCont s.current c)) {k : Option State}
    (hk : s.cont ec = some .dead → Leads s₀ k) : Leads s₀ (s.help fuel c ec next k) := by
  unfold State.help
  split
  · next hdead => exact hk hdead
  · exact resume hd h ec next

end Leads

/-! ## What the current EC writes -/

namespace Inv

theorem setCurrent (hi : Inv s) (hc : s.rcap s.current ≠ none → c ≠ none) : Sound (s.setCont s.current c) := by
  refine hi.toSound.setCont (fun hbusy => ?_) hc
  rcases hbusy with hp | hq
  · exact absurd hi.last hp
  · exact absurd (hi.awake.symm.trans hq) Bool.false_ne_true

theorem caller (hi : Inv s) (hr : s.rcap s.current = some ec) :
    s.partner ec = some s.current ∧ Live (s.cont ec) ∧ s.queued ec = false ∧ ec ≠ s.current := by
  have hp := (hi.links.link ec s.current).mpr hr
  refine ⟨hp, hi.conts.caller ec _ hp, ?_, fun heq => ?_⟩
  · rw [Bool.eq_false_iff]
    intro hq
    cases (hi.conts.queue ec hq).2.symm.trans hp
  · subst heq
    cases hi.last.symm.trans hp

theorem enter (hi : Inv s) (hlive : s.cont s.current ≠ some .dead) (hc : s.cont ec = none) (hloc : s.glb ec = false)
    {back : Cont} (hback : back ≠ .dead) (entry : Cont) : Leads s (s.enter ec back entry) := by
  obtain ⟨hp, hr, hq⟩ := hi.toSound.of_none hc
  have hne : s.current ≠ ec := fun heq => hi.run (heq ▸ hc)
  have hfirst : Sound (s.setCont s.current (some back)) := hi.setCurrent nofun
  have hcont : (s.setCont s.current (some back)).cont ec = none := (Function.update_of_ne hne.symm _ _).trans hc
  have hboth : Sound ((s.setCont s.current (some back)).setCont ec (some entry)) := by
    refine hfirst.setCont (fun hbusy => ?_) nofun
    rcases hbusy with hp' | hq'
    · exact absurd hp hp'
    · exact absurd (hq.symm.trans hq') Bool.false_ne_true
  have hcur : ((s.setCont s.current (some back)).setCont ec (some entry)).cont s.current = some back :=
    (Function.update_of_ne hne _ _).trans (Function.update_self _ _ _)
  have hent : ((s.setCont s.current (some back)).setCont ec (some entry)).cont ec = some entry :=
    Function.update_self _ _ _
  have hall : Sound (((s.setCont s.current (some back)).setCont ec (some entry)).setPartner s.current ec) :=
    hboth.setPartner hi.last hp hr hne hloc (by rw [hcur]; exact live_some hback) (by rw [hent]; nofun) hi.awake
  have hdead : Dead s ((s.setCont s.current (some back)).setCont ec (some entry)) :=
    ((Dead.refl s).setCont fun hd => absurd hd hlive).setCont fun hd => by cases hcont.symm.trans hd
  refine Leads.makeCurrent hdead hall ?_ hq
  exact (Function.update_of_ne hne.symm _ _).trans hp

end Inv

/-! ## Replies -/

theorem clrPartner_setCont (s : State) (e p : Id) (c : Option Cont) :
    (s.setCont e c).clrPartner p = (s.clrPartner p).setCont e c := by
  have hp : (s.setCont e c).partner p = s.partner p := rfl
  unfold State.clrPartner
  rw [hp]
  cases s.partner p <;> rfl

theorem setCont_self (s : State) (e : Id) : s.setCont e (s.cont e) = s := by
  rw [State.setCont, Function.update_eq_self]

theorem Inv.released (hi : Inv s) (hr : s.rcap s.current = some ec) {d : Option Cont} (hdne : d ≠ none)
    (c : Option Cont) :
    Sound (((s.setCont ec d).setCont s.current c).clrPartner ec) ∧
      (((s.setCont ec d).setCont s.current c).clrPartner ec).partner ec = none ∧
      (((s.setCont ec d).setCont s.current c).clrPartner ec).queued ec = false := by
  obtain ⟨hp, -, hq, hne⟩ := hi.caller hr
  have hsound := hi.toSound.clrPartner hp
  rw [clrPartner_setCont, clrPartner_setCont]
  rw [clrPartner_of hp] at hsound ⊢
  refine ⟨(hsound.setCont (fun hbusy => ?_) fun _ => hdne).setCont (fun hbusy => ?_) fun hrc => ?_,
    Function.update_self _ _ _, hq⟩
  · rcases hbusy with hp' | hq'
    · exact absurd (Function.update_self _ _ _) hp'
    · exact absurd (hq.symm.trans hq') Bool.false_ne_true
  · rcases hbusy with hp' | hq'
    · exact absurd ((Function.update_of_ne hne.symm _ _).trans hi.last) hp'
    · exact absurd (hi.awake.symm.trans hq') Bool.false_ne_true
  · exact absurd (Function.update_self _ _ _) hrc

theorem Leads.reply {sm : Bool} (hd : Dead s₀ (s.setCont s.current c))
    (hloc : s.glb s.current = true → s.rcap s.current = .none)
    (hnone : s.rcap s.current = .none → Sound (s.setCont s.current c))
    (hsome : ∀ ec, s.rcap s.current = some ec → Sound ((s.setCont s.current c).clrPartner ec) ∧
      ((s.setCont s.current c).clrPartner ec).partner ec = .none ∧
      ((s.setCont s.current c).clrPartner ec).queued ec = false ∧
      (sm = true → Live (((s.setCont s.current c).clrPartner ec).cont ec))) :
    Leads s₀ (s.reply fuel c sm next) := by
  unfold State.reply
  dsimp only
  split
  · next hglb =>
    cases next with
    | none => exact none s₀
    | some sc => exact schedule hd (hnone (hloc hglb)) sc
  · split
    · next hr => exact resume hd (hnone hr) s.sc next
    · next ec hr =>
      obtain ⟨hsound, hp, hq, hlive⟩ := hsome ec hr
      have hdead : Dead s₀ ((s.setCont s.current c).clrPartner ec) := by
        intro y hy
        have hcont : ((s.setCont s.current c).clrPartner ec).cont = (s.setCont s.current c).cont := by
          unfold State.clrPartner
          split <;> rfl
        rw [hcont]
        exact hd y hy
      cases next with
      | some sc =>
        dsimp only
        split
        · next hsm =>
          have hwait := hsound.setQueued (q := true) fun _ => ⟨hlive hsm, hp⟩
          exact schedule (s := ((s.setCont s.current c).clrPartner ec).setQueued ec true) hdead hwait sc
        · exact schedule hdead hsound sc
      | none =>
        dsimp only
        split
        · exact none s₀
        · split
          · exact activate hdead hsound s.sc
          · exact makeCurrent hdead hsound hp hq

namespace Inv

theorem glb_rcap (hi : Inv s) (hglb : s.glb s.current = true) : s.rcap s.current = none := by
  cases hr : s.rcap s.current with
  | none => rfl
  | some e => exact absurd ((hi.links.loc _ e hr).symm.trans hglb) Bool.false_ne_true

theorem die (hi : Inv s) : Leads s (s.die fuel next) := by
  unfold State.die
  cases hr : s.rcap s.current with
  | none =>
    have hd : Dead s (s.setCont s.current (some .dead)) := (Dead.refl s).setCont fun _ => rfl
    exact Leads.reply hd (fun _ => hr) (fun _ => hi.setCurrent nofun) fun ec hec => by cases hr.symm.trans hec
  | some ec =>
    have hd : Dead s ((s.setCont ec (some (State.abort (s.cont ec)))).setCont s.current (some .dead)) := by
      refine ((Dead.refl s).setCont fun hdead => ?_).setCont fun _ => rfl
      rw [hdead]
      rfl
    refine Leads.reply hd hi.glb_rcap (fun hnone => by cases hr.symm.trans hnone) fun ec' hec => ?_
    obtain rfl : ec = ec' := Option.some.inj (hr.symm.trans hec)
    obtain ⟨hsound, hp, hq⟩ := hi.released hr (d := some (State.abort (s.cont ec))) nofun (some .dead)
    exact ⟨hsound, hp, hq, nofun⟩

theorem sysReply (hi : Inv s) (hlive : s.cont s.current ≠ some .dead) (sm : Option Bool) :
    Leads s (s.sysReply fuel sm next) := by
  -- The caller goes on with `d`.
  have hgo : ∀ ec d wait, s.rcap s.current = some ec → (s.cont ec = some .dead → d = some .dead) → Live d →
      Leads s ((s.setCont ec d).reply fuel none wait next) := by
    intro ec d wait hr hdead hd
    have hne := (hi.caller hr).2.2.2
    have hkeep : Dead s ((s.setCont ec d).setCont s.current none) := by
      refine ((Dead.refl s).setCont hdead).setCont fun hcur => ?_
      exact absurd ((Function.update_of_ne hne.symm _ _).symm.trans hcur) hlive
    refine Leads.reply hkeep hi.glb_rcap (fun hnone => by cases hr.symm.trans hnone) fun ec' hec => ?_
    obtain rfl : ec = ec' := Option.some.inj (hr.symm.trans hec)
    obtain ⟨hsound, hp, hq⟩ := hi.released hr hd.1 none
    refine ⟨hsound, hp, hq, fun _ => ?_⟩
    rw [clrPartner_setCont, clrPartner_setCont]
    show Live (Function.update (Function.update (s.clrPartner ec).cont ec d) s.current none ec)
    rwa [Function.update_of_ne hne, Function.update_self]
  have hkeep : ∀ ec wait, s.rcap s.current = some ec → Leads s (s.reply fuel none wait next) := by
    intro ec wait hr
    have hsame := hgo ec (s.cont ec) wait hr id (hi.caller hr).2.1
    rwa [setCont_self] at hsame
  have hnone : s.rcap s.current = none → Leads s (s.reply fuel none false next) := by
    intro hr
    have hd : Dead s (s.setCont s.current none) := (Dead.refl s).setCont fun hcur => absurd hcur hlive
    exact Leads.reply hd (fun _ => hr) (fun _ => hi.setCurrent fun hne => absurd hr hne) fun ec hec => by
      cases hr.symm.trans hec
  unfold State.sysReply
  split
  · next ec wait hr =>
    split
    · exact hkeep ec false hr
    · split
      · next huser =>
        refine hgo ec _ wait hr (fun hdead => ?_) (live_some nofun)
        cases huser.symm.trans hdead
      · exact hkeep ec wait hr
  · cases hr : s.rcap s.current with
    | none => exact hnone hr
    | some ec => exact hkeep ec false hr

/-! ## Calls -/

theorem stay (hi : Inv s) : Leads s (some s) := by
  intro s' hs
  obtain rfl := Option.some.inj hs
  exact ⟨hi, Dead.refl s⟩

theorem help (hi : Inv s) (hlive : s.cont s.current ≠ some .dead) (f : Cont) {k : Option State} (hk : Leads s k) :
    Leads s (s.help fuel (some f) ec next k) :=
  Leads.help ((Dead.refl s).setCont fun hcur => absurd hcur hlive) (hi.setCurrent (by nofun)) fun _ => hk

theorem sysCall (hi : Inv s) (hlive : s.cont s.current ≠ some .dead) (hloc : s.glb ec = false)
    (xcpu blocking : Bool) : Leads s (s.sysCall fuel xcpu blocking ec next) := by
  unfold State.sysCall
  split
  · next hc => exact hi.enter hlive hc hloc (by cases xcpu <;> decide) _
  · split
    · exact hi.help hlive _ hi.stay
    · exact hi.stay

theorem sendMsg (hi : Inv s) (hlive : s.cont s.current ≠ some .dead) (hloc : s.glb ec = false) (C : Exit) :
    Leads s (s.sendMsg fuel C ec next) := by
  unfold State.sendMsg
  split
  · next hc => exact hi.enter hlive hc hloc (by nofun) _
  · exact hi.help hlive _ hi.die

end Inv

/-! ## Out of memory -/

theorem Leads.oomCall {cc h : Option Cont} (hd : Dead s₀ s) (hs : Sound s) (hloc : s.glb ec = false)
    (hp : s.partner e = .none) (hq : s.queued e = false) (hlive : s.cont e ≠ some .dead)
    (hcc : e ≠ ec → Live cc) (hcur : s.partner s.current = .none) (hcq : s.queued s.current = false)
    (hcd : s.cont s.current ≠ some .dead) (hh : e ≠ ec → s.rcap s.current ≠ .none → h ≠ .none)
    (hfit : e ≠ ec → s.cont ec ≠ some .dead) : Leads s₀ (s.oomCall fuel e ec cc h next) := by
  unfold State.oomCall
  split
  · next heq =>
    subst heq
    have hsound : Sound (s.setCont e (some .ret_user_sysexit)) := hs.setCont (fun _ => live_some nofun) nofun
    exact makeCurrent (hd.setCont fun hdead => absurd hdead hlive) hsound hp hq
  · next hne =>
    have hcc := hcc hne
    have hfit := hfit hne
    have hfirst : Sound (s.setCont e cc) := hs.setCont (fun _ => hcc) fun _ => hcc.1
    have hdead : Dead s₀ (s.setCont e cc) := hd.setCont fun hx => absurd hx hlive
    have hec : (s.setCont e cc).cont ec = s.cont ec := Function.update_of_ne (Ne.symm hne) _ _
    dsimp only
    split
    · next hidle =>
      have hidle : s.cont ec = .none := hec.symm.trans hidle
      obtain ⟨hpec, hrec, hqec⟩ := hs.of_none hidle
      have hboth : Sound ((s.setCont e cc).setCont ec (some .ret_user_sysexit)) :=
        hfirst.setCont (fun _ => live_some nofun) nofun
      have hce : ((s.setCont e cc).setCont ec (some .ret_user_sysexit)).cont e = cc :=
        (Function.update_of_ne hne _ _).trans (Function.update_self _ _ _)
      have hcec : ((s.setCont e cc).setCont ec (some .ret_user_sysexit)).cont ec = some .ret_user_sysexit :=
        Function.update_self _ _ _
      have hall : Sound (((s.setCont e cc).setCont ec (some .ret_user_sysexit)).setPartner e ec) :=
        hboth.setPartner hp hpec hrec hne hloc (by rw [hce]; exact hcc) (by rw [hcec]; nofun) hq
      have hkeep : Dead s₀ ((s.setCont e cc).setCont ec (some .ret_user_sysexit)) :=
        hdead.setCont fun hx => by cases hidle.symm.trans (hec.symm.trans hx)
      exact makeCurrent hkeep hall ((Function.update_of_ne (Ne.symm hne) _ _).trans hpec) hqec
    · have hcont : (s.setCont e cc).cont s.current ≠ some .dead := by
        show Function.update s.cont e cc s.current ≠ some .dead
        by_cases heq : s.current = e
        · rw [heq, Function.update_self]
          exact hcc.2
        · rwa [Function.update_of_ne heq]
      refine help (hdead.setCont fun hx => absurd hx hcont) (hfirst.setCont (fun hbusy => ?_) (hh hne)) fun hx => ?_
      · rcases hbusy with hp' | hq'
        · exact absurd hcur hp'
        · exact absurd (hcq.symm.trans hq') Bool.false_ne_true
      · exact absurd (hec.symm.trans hx) hfit

namespace Inv

theorem oomCall (hi : Inv s) (hlive : s.cont s.current ≠ some .dead) (hloc : s.glb ec = false)
    (hfit : ec ≠ s.current → s.cont ec ≠ some .dead) (f : Syscall) :
    Leads s (s.oomCall fuel s.current ec (some (.sys f)) (some (.sys f)) next) :=
  Leads.oomCall (Dead.refl s) hi.toSound hloc hi.last hi.awake hlive (fun _ => live_some nofun) hi.last hi.awake hlive
    (fun _ _ => by nofun) fun hne => hfit hne.symm

theorem oomReply (hi : Inv s) (hlive : s.cont s.current ≠ some .dead) (hloc : s.glb ec = false)
    (hfit : ec ≠ s.current → s.cont ec ≠ some .dead) (sm : Bool) : Leads s (s.oomReply fuel sm ec next) := by
  have hsame : Leads s (s.oomCall fuel s.current ec (some (.sys .sys_reply)) (some (.sys .sys_reply)) next) :=
    hi.oomCall hlive hloc hfit .sys_reply
  unfold State.oomReply
  split
  · next rep hr =>
    obtain ⟨-, -, -, hne⟩ := hi.caller hr
    split
    · exact Leads.none s
    split
    · next huser =>
      -- what is overwritten is the continuation of an EC that is not dead
      have hkeep : Dead s (s.setCont rep (some (.sys .sys_call))) :=
        (Dead.refl s).setCont fun hx => by cases huser.symm.trans hx
      have hsound : Sound (s.setCont rep (some (.sys .sys_call))) :=
        hi.toSound.setCont (fun _ => live_some nofun) nofun
      have hcur : (s.setCont rep (some (.sys .sys_call))).cont s.current ≠ some .dead := by
        show Function.update s.cont rep _ s.current ≠ some .dead
        rwa [Function.update_of_ne hne.symm]
      have hhandler : s.current ≠ ec → (s.setCont rep (some (.sys .sys_call))).cont ec ≠ some .dead := by
        intro hself
        show Function.update s.cont rep _ ec ≠ some .dead
        by_cases heq : ec = rep
        · rw [heq, Function.update_self]
          nofun
        · rw [Function.update_of_ne heq]
          exact hfit hself.symm
      exact Leads.oomCall (s := s.setCont rep (some (.sys .sys_call))) hkeep hsound hloc hi.last hi.awake hcur
        (fun _ => live_some nofun) hi.last hi.awake hcur (fun _ _ => nofun) hhandler
    · exact hsame
  · exact hsame
  · exact Leads.none s

theorem oomSend (hi : Inv s) (hlive : s.cont s.current ≠ some .dead) (hloc : s.glb ec = false)
    (hfit : ec ≠ s.current → s.rcap s.current ≠ some ec → s.cont ec ≠ some .dead) :
    Leads s (s.oomSend fuel ec next) := by
  unfold State.oomSend
  split
  · exact Leads.none s
  · next rep hr =>
    obtain ⟨hp, hrep, hq, hne⟩ := hi.caller hr
    split
    · next heq =>
      subst heq
      have hkeep : Dead s (s.setCont rep (some (.sys .sys_call))) :=
        (Dead.refl s).setCont fun hx => absurd hx hrep.2
      have hsound : Sound (s.setCont rep (some (.sys .sys_call))) :=
        hi.toSound.setCont (fun _ => live_some nofun) nofun
      have hcur : (s.setCont rep (some (.sys .sys_call))).cont s.current ≠ some .dead := by
        show Function.update s.cont rep _ s.current ≠ some .dead
        rwa [Function.update_of_ne hne.symm]
      exact Leads.oomCall (s := s.setCont rep (some (.sys .sys_call))) hkeep hsound hloc hi.last hi.awake hcur
        (fun hx => absurd rfl hx) hi.last hi.awake hcur (fun hx => absurd rfl hx) fun hx => absurd rfl hx
    · next hself =>
      obtain ⟨hsound, hpr, hqr⟩ := hi.released hr hrep.1 none
      rw [setCont_self, clrPartner_setCont] at hsound hpr hqr
      rw [clrPartner_of hp] at hsound hpr hqr ⊢
      have hother : ∀ y, y ≠ s.current → Function.update s.cont s.current none y = s.cont y := fun y hy =>
        Function.update_of_ne hy _ _
      have hcaller : Function.update s.cont s.current none rep ≠ some .dead := by
        rw [hother rep hne]
        exact hrep.2
      have hidle : Function.update s.cont s.current none s.current ≠ some .dead := by
        rw [Function.update_self]
        nofun
      refine Leads.oomCall ((Dead.refl s).setCont fun hx => absurd hx hlive) hsound hloc hpr hqr hcaller
        (fun _ => live_some (by nofun)) ((Function.update_of_ne hne.symm _ _).trans hi.last) hi.awake hidle
        (fun _ hx => absurd (Function.update_self _ _ _) hx) fun hx => ?_
      show Function.update s.cont s.current none ec ≠ some .dead
      rw [hother ec (Ne.symm hself)]
      exact hfit (Ne.symm hself) fun heq => hx (Option.some.inj (hr.symm.trans heq))

/-! ## Steps -/

theorem wake (hi : Inv s) (hq : s.queued e = true) (hc : c ≠ some .dead) :
    Goes s ((c.elim s fun c => s.setCont e (some c)).setQueued e false) := by
  have hne : s.current ≠ e := fun heq => Bool.false_ne_true (hi.awake.symm.trans (heq ▸ hq))
  have hawake : Function.update s.queued e false s.current = false := (Function.update_of_ne hne _ _).trans hi.awake
  cases c with
  | none =>
    have hsound : Sound (s.setQueued e false) := hi.toSound.setQueued nofun
    exact ⟨⟨hsound, hi.last, hi.run, hawake, hi.dead⟩, Dead.refl s⟩
  | some c =>
    have hlive : c ≠ .dead := fun heq => hc (congrArg some heq)
    have hfirst : Sound (s.setCont e (some c)) := hi.toSound.setCont (fun _ => live_some hlive) nofun
    have hsound : Sound ((s.setCont e (some c)).setQueued e false) := hfirst.setQueued nofun
    have hcont : (s.setCont e (some c)).cont s.current = s.cont s.current := Function.update_of_ne hne _ _
    refine ⟨⟨hsound, hi.last, fun hx => hi.run (hcont.symm.trans hx), hawake, fun hx => ?_⟩, ?_⟩
    · exact hi.dead (hcont.symm.trans hx)
    · exact (Dead.refl s).setCont fun hx => absurd hx (hi.conts.queue e hq).1.2

theorem yield (hi : Inv s) (hlive : s.cont s.current ≠ some .dead) (c : Cont) (sc : Id) :
    Leads s ((s.setCont s.current (some c)).schedule fuel sc) :=
  Leads.schedule ((Dead.refl s).setCont fun hx => absurd hx hlive) (hi.setCurrent (by nofun)) sc

theorem wait (hi : Inv s) (hlive : s.cont s.current ≠ some .dead) {c : Cont} (hc : c ≠ .dead) (sc : Id) :
    Leads s (((s.setCont s.current (some c)).setQueued s.current true).schedule fuel sc) := by
  have hfirst : Sound (s.setCont s.current (some c)) := hi.setCurrent nofun
  have hself : (s.setCont s.current (some c)).cont s.current = some c := Function.update_self _ _ _
  have hsound := hfirst.setQueued (q := true) fun _ => ⟨by rw [hself]; exact live_some hc, hi.last⟩
  have hkeep : Dead s (s.setCont s.current (some c)) := (Dead.refl s).setCont fun hx => absurd hx hlive
  exact Leads.schedule (s := (s.setCont s.current (some c)).setQueued s.current true) hkeep hsound sc

theorem donate (hi : Inv s) (hlive : s.cont s.current ≠ some .dead) (hq : s.queued ec = false)
    (hp : s.partner ec = none) : Leads s ((s.setCont s.current (some .sys_finish)).makeCurrent ec) :=
  Leads.makeCurrent (s := s.setCont s.current (some .sys_finish))
    ((Dead.refl s).setCont fun hx => absurd hx hlive) (hi.setCurrent nofun) hp hq

theorem live (hi : Inv s) (hlive : s.cont s.current ≠ some .dead) {a : Act} (hfit : s.Fits a) :
    Leads s (s.live fuel a) := by
  have hlocal : ∀ {ec : Id} {r : Option State}, (s.glb ec = false → Leads s r) →
      Leads s (if s.glb ec then none else r) := by
    intro ec r h
    split
    · exact Leads.none s
    · next hglb => exact h (Bool.eq_false_iff.mpr hglb)
  cases a with
  | sysCall xcpu blocking ec next => exact hlocal fun hloc => hi.sysCall hlive hloc xcpu blocking
  | sendMsg C ec next => exact hlocal fun hloc => hi.sendMsg hlive hloc C
  | sysReply sm next => exact hi.sysReply hlive sm
  | die next => exact hi.die
  | oomCall C ec next => exact hlocal fun hloc => hi.oomCall hlive hloc hfit C
  | oomSend ec next => exact hlocal fun hloc => hi.oomSend hlive hloc hfit
  | oomReply sm ec next => exact hlocal fun hloc => hi.oomReply hlive hloc hfit sm
  | yield c sc =>
    show Leads s (if c = .dead then none else _)
    split
    · exact Leads.none s
    · exact hi.yield hlive c sc
  | wait c sc =>
    show Leads s (if c = .dead then none else _)
    split
    · exact Leads.none s
    · next hc => exact hi.wait hlive hc sc
  | donate ec =>
    show Leads s (if s.blocked ec || (s.partner ec).isSome then none else _)
    split
    · exact Leads.none s
    · next hfree =>
      obtain ⟨hblocked, hp⟩ := Bool.or_eq_false_iff.mp (Bool.eq_false_iff.mpr hfree)
      obtain ⟨hq, -⟩ := Bool.or_eq_false_iff.mp hblocked
      exact hi.donate hlive hq (Option.isSome_eq_false_iff.mp hp |> Option.isNone_iff_eq_none.mp)
  | wake e c => exact Leads.none s

theorem act (hi : Inv s) {a : Act} (hfit : s.Fits a) : Leads s (s.act fuel a) := by
  have hlive : Leads s (if s.pc = .dead then none else s.live fuel a) := by
    split
    · exact Leads.none s
    · next hpc => exact hi.live (fun hdead => hpc (hi.dead hdead)) hfit
  cases a with
  | die next => exact hi.die
  | wake e c =>
    show Leads s (if s.queued e = true ∧ c ≠ some .dead then _ else none)
    split
    · next hwake =>
      intro s' hs
      obtain rfl := Option.some.inj hs
      exact hi.wake hwake.1 hwake.2
    · exact Leads.none s
  | _ => exact hlive

theorem getD (hi : Inv s) {a : Act} (hfit : s.Fits a) : Goes s ((s.act fuel a).getD s) := by
  cases hr : s.act fuel a with
  | none => exact ⟨hi, Dead.refl s⟩
  | some s' => exact hi.act hfit s' hr

theorem after (hi : Inv s) {acts : List Act} (hfit : s.Fitting fuel acts) : Goes s (s.after fuel acts) := by
  induction acts generalizing s with
  | nil => exact ⟨hi, Dead.refl s⟩
  | cons a acts ih =>
    have hstep : Goes s ((s.act fuel a).getD s) := hi.getD hfit.1
    have hrest := ih hstep.inv hfit.2
    exact ⟨hrest.inv, fun e he => hrest.dead e (hstep.dead e he)⟩

theorem boot (glb : Id → Bool) (cont : Id → Option Cont) : Inv (State.boot glb cont) where
  links := ⟨fun _ _ => iff_of_false nofun nofun, fun _ => .last rfl, nofun⟩
  conts := ⟨nofun, nofun, nofun⟩
  last := rfl
  run := by
    show Function.update cont 0 (some .idle) 0 ≠ none
    rw [Function.update_self]
    nofun
  awake := rfl
  dead := by
    intro hdead
    have hdead : Function.update cont 0 (some .idle) 0 = some .dead := hdead
    rw [Function.update_self] at hdead
    cases hdead

end Inv

/-! ## Chains of partners -/

theorem Ends.acyclic {partner : Id → Option Id} (h : Ends partner x) :
    ¬ Relation.TransGen (fun e p => partner e = some p) x x := by
  induction h with
  | last hx =>
    intro hcycle
    obtain ⟨q, hq, -⟩ := Relation.TransGen.head'_iff.mp hcycle
    cases hx.symm.trans hq
  | next hx _ ih =>
    intro hcycle
    obtain ⟨q, hq, hback⟩ := Relation.TransGen.head'_iff.mp hcycle
    obtain rfl := Option.some.inj (hx.symm.trans hq)
    exact ih (Relation.TransGen.tail' hback hx)

theorem Ends.walk (h : Ends s.partner x) : ∃ fuel, ∀ n, (s.walk fuel x n).isSome = true := by
  induction h with
  | last hx =>
    refine ⟨1, fun n => ?_⟩
    rw [State.walk, hx]
    rfl
  | next hx _ ih =>
    obtain ⟨fuel, hfuel⟩ := ih
    refine ⟨fuel + 1, fun n => ?_⟩
    rw [State.walk, hx]
    exact hfuel (n + 1)

/-- Partner and caller belong together, nobody is the partner of two, and the walk of
`activate` comes to an end. -/
structure State.Chained (s : State) : Prop where
  rcap : ∀ e p, s.partner e = some p → s.rcap p = some e
  unique : ∀ e e' p, s.partner e = some p → s.partner e' = some p → e = e'
  acyclic : ∀ e, ¬ Relation.TransGen (fun e p => s.partner e = some p) e e
  walk : ∀ e, ∃ fuel, ∀ n, (s.walk fuel e n).isSome = true

theorem Links.chained (h : Links s.glb s.partner s.rcap) : s.Chained where
  rcap := fun e p hp => (h.link e p).mp hp
  unique := fun e e' p hp hp' => Option.some.inj (((h.link e p).mp hp).symm.trans ((h.link e' p).mp hp'))
  acyclic := fun e => (h.ends e).acyclic
  walk := fun e => (h.ends e).walk

def fiveEcs : State :=
  State.boot (fun e => e = 1 || e = 4) fun e => if e = 1 ∨ e = 4 then some .ret_user_sysexit else none

/-- EC 1 has called EC 2, whose exception EC 3 handles; helped by EC 4, EC 3 dies. -/
def helpedToDeath : List Act :=
  [Act.yield .idle 1, Act.sysCall false true 2 none, Act.sendMsg .ret_user_iret 3 none,
   Act.yield .ret_user_sysexit 4, Act.sysCall false true 3 none, Act.die none, Act.sysCall false true 3 none]

theorem after_chained (fuel : Nat) (glb : Id → Bool) (cont : Id → Option Cont) (acts : List Act)
    (hfit : (State.boot glb cont).Fitting fuel acts) : ((State.boot glb cont).after fuel acts).Chained :=
  ((Inv.boot glb cont).after hfit).inv.links.chained

theorem after_chained_helped : (fiveEcs.after 9 (helpedToDeath ++ [Act.oomCall .sys_call 5 none])).Chained := by
  refine after_chained 9 _ _ _ ?_
  refine ⟨trivial, trivial, trivial, trivial, trivial, trivial, trivial, fun _ => ?_, trivial⟩
  decide +kernel

/-- The OOM portal of EC 4 is bound to EC 2, which EC 1 has called. -/
theorem deadHandler_not_chained :
    (fiveEcs.after 9 (helpedToDeath ++ [Act.oomCall .sys_call 2 none])).partner 1 = some 2 ∧
      (fiveEcs.after 9 (helpedToDeath ++ [Act.oomCall .sys_call 2 none])).rcap 2 = some 4 ∧
      ¬ ∀ fuel glb cont acts, ((State.boot glb cont).after fuel acts).Chained := by
  have hp : (fiveEcs.after 9 (helpedToDeath ++ [Act.oomCall .sys_call 2 none])).partner 1 = some 2 := by
    decide +kernel
  have hr : (fiveEcs.after 9 (helpedToDeath ++ [Act.oomCall .sys_call 2 none])).rcap 2 = some 4 := by
    decide +kernel
  refine ⟨hp, hr, fun hall => ?_⟩
  have hback := (hall 9 _ _ (helpedToDeath ++ [Act.oomCall .sys_call 2 none])).rcap 1 2 hp
  exact absurd (hr.symm.trans hback) (by decide)

/-! ## The dead -/

theorem after_append (fuel : Nat) (s : State) (acts rest : List Act) :
    s.after fuel (acts ++ rest) = (s.after fuel acts).after fuel rest := List.foldl_append

theorem fitting_append {acts rest : List Act} (h : s.Fitting fuel (acts ++ rest)) :
    s.Fitting fuel acts ∧ (s.after fuel acts).Fitting fuel rest := by
  induction acts generalizing s with
  | nil => exact ⟨trivial, h⟩
  | cons a acts ih =>
    obtain ⟨hfirst, hrest⟩ := ih h.2
    exact ⟨⟨h.1, hfirst⟩, hrest⟩

/-- Who is dead at some time is so from then on, and when it is entered it does nothing
but die. -/
theorem dead_stays (fuel : Nat) (glb : Id → Bool) (cont : Id → Option Cont) (acts rest : List Act) (e : Id)
    (hfit : (State.boot glb cont).Fitting fuel (acts ++ rest))
    (hdead : ((State.boot glb cont).after fuel acts).cont e = some .dead) :
    ((State.boot glb cont).after fuel (acts ++ rest)).cont e = some .dead ∧
      (((State.boot glb cont).after fuel (acts ++ rest)).current = e →
        ((State.boot glb cont).after fuel (acts ++ rest)).pc = .dead) := by
  obtain ⟨hfirst, hrest⟩ := fitting_append hfit
  have hinv := ((Inv.boot glb cont).after hfirst).inv
  have hgoes := hinv.after hrest
  rw [after_append]
  refine ⟨hgoes.dead e hdead, fun hcur => hgoes.inv.dead ?_⟩
  rw [hcur]
  exact hgoes.dead e hdead

theorem dead_stays_helped :
    (fiveEcs.after 9 helpedToDeath).cont 2 = some .dead ∧
      (fiveEcs.after 9 (helpedToDeath ++ [Act.oomCall .sys_call 5 none])).cont 2 = some .dead := by
  have hdead : (fiveEcs.after 9 helpedToDeath).cont 2 = some .dead := by decide +kernel
  refine ⟨hdead, (dead_stays 9 _ _ helpedToDeath [Act.oomCall .sys_call 5 none] 2 ?_ hdead).1⟩
  refine ⟨trivial, trivial, trivial, trivial, trivial, trivial, trivial, fun _ => ?_, trivial⟩
  decide +kernel

/-- As the EC of an OOM portal, it returns to user mode again. -/
theorem deadHandler_revived :
    (fiveEcs.after 9 helpedToDeath).cont 2 = some .dead ∧
      (fiveEcs.after 9 (helpedToDeath ++ [Act.oomCall .sys_call 2 none])).current = 2 ∧
      (fiveEcs.after 9 (helpedToDeath ++ [Act.oomCall .sys_call 2 none])).pc = .ret_user_sysexit ∧
      ¬ ∀ fuel glb cont acts rest e, ((State.boot glb cont).after fuel acts).cont e = some .dead →
        ((State.boot glb cont).after fuel (acts ++ rest)).cont e = some .dead ∧
          (((State.boot glb cont).after fuel (acts ++ rest)).current = e →
            ((State.boot glb cont).after fuel (acts ++ rest)).pc = .dead) := by
  have hdead : (fiveEcs.after 9 helpedToDeath).cont 2 = some .dead := by decide +kernel
  have hcur : (fiveEcs.after 9 (helpedToDeath ++ [Act.oomCall .sys_call 2 none])).current = 2 := by decide +kernel
  have hpc : (fiveEcs.after 9 (helpedToDeath ++ [Act.oomCall .sys_call 2 none])).pc = .ret_user_sysexit := by
    decide +kernel
  refine ⟨hdead, hcur, hpc, fun hall => ?_⟩
  have hstill := (hall 9 _ _ helpedToDeath [Act.oomCall .sys_call 2 none] 2 hdead).2 hcur
  exact absurd (hpc.symm.trans hstill) (by decide)

end Tukija.Ipc
