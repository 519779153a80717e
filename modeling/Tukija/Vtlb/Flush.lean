import Tukija.Vtlb.Miss
import Tukija.Vtlb.Stale

/-! No translation that has been flushed is used again, over whole runs of a vCPU. -/
namespace Tukija.Vtlb

open Tukija.Lib.Word Tukija.Pte

/-- A translation that the processor has cached when it translated `lin`. -/
structure Cached where
  lin : Mword
  hit : Hit
  deriving DecidableEq

def Cached.Covers (x : Cached) (a : Mword) : Prop := SameBlock x.hit.shift a x.lin

instance (x : Cached) (a : Mword) : Decidable (x.Covers a) := inferInstanceAs (Decidable (SameBlock _ _ _))

/-- `Vpid::Type`, as far as it is used. -/
inductive Invvpid where
  | address (addr : Mword)
  | contextGlobal
  | contextNoglobal

/-- `invvpid` on what is cached for the vCPU. -/
def Invvpid.exec (tlb : List Cached) : Invvpid → List Cached
  | address addr => tlb.filter fun x => ¬x.Covers addr
  | contextGlobal => []
  | contextNoglobal => tlb.filter fun x => x.hit.val.getLsbD tlbG

/-- A vCPU with a shadow page table.  A cached translation may be dropped at any time: `tlb`
has all that may still be there. -/
structure Cpu where
  vtlb : Table
  tlb : List Cached
  time : Nat

inductive Act where
  | translate (lin : Mword)
  | miss (r : Regs) (g : Guest) (ept : Mem Format.ept) (virt error : Mword)
  | tlbFlush (full : Bool)
  | invlpg (addr : Mword)
  | shootdown

namespace Cpu

variable (vpid : Bool)

def cached (c : Cpu) : List Cached := if vpid then c.tlb else []

/-- `tlb_flush` and `vmx_invlpg`, the flush in `ret_user_vmresume`, page faults, and what the
processor does between them. -/
def step (c : Cpu) : Act → Cpu
  | .translate lin => { c with tlb := (walk lin 2 c.vtlb).toList.map (Cached.mk lin) ++ c.tlb, time := c.time + 1 }
  | .miss r g ept virt error =>
    ⟨(Vtlb.miss r g ept c.time virt error c.vtlb).vtlb, c.cached vpid, c.time + 1⟩
  | .tlbFlush full =>
    ⟨flushPtab full c.vtlb, (if full then Invvpid.contextGlobal else .contextNoglobal).exec (c.cached vpid), c.time + 1⟩
  | .invlpg addr => ⟨flushPage addr 2 c.vtlb, (Invvpid.address addr).exec (c.cached vpid), c.time + 1⟩
  | .shootdown => ⟨flushPtab true c.vtlb, c.cached vpid, c.time + 1⟩

def boot : Cpu := ⟨blank, [], 0⟩

def after (c : Cpu) (acts : List Act) : Cpu := acts.foldl (step vpid) c

/-- The processor can translate `a` so. -/
def Uses (c : Cpu) (a : Mword) (h : Hit) : Prop := walk a 2 c.vtlb = some h ∨ ∃ x ∈ c.tlb, x.Covers a ∧ x.hit = h

/-- It can come to translate `a` so without a new translation of `a`. -/
def MayUse (c : Cpu) (a : Mword) (h : Hit) : Prop := latent a 2 c.vtlb = some h ∨ ∃ x ∈ c.tlb, x.Covers a ∧ x.hit = h

/-- No translation waits behind an entry that an earlier flush has cleared. -/
def Awake (c : Cpu) : Prop := ∀ a h, latent a 2 c.vtlb = some h → walk a 2 c.vtlb = some h

def Ready (c : Cpu) : Act → Prop
  | .tlbFlush true => c.Awake
  | .shootdown => c.Awake ∧ c.cached vpid = []
  | .invlpg addr =>
    (∀ a h, latent a 2 c.vtlb = some h → SameBlock h.origin.shift a addr → walk a 2 c.vtlb = some h ∧
      ((c.vtlb (index addr 2)).val.getLsbD tlbF = true ∨ SameBlock h.shift a addr)) ∧
    ∀ x ∈ c.cached vpid, ∀ a, x.Covers a → SameBlock x.hit.origin.shift a addr → x.Covers addr
  | _ => True

def Runs (c : Cpu) : List Act → Prop
  | [] => True
  | act :: acts => c.Ready vpid act ∧ Runs (c.step vpid act) acts

end Cpu

/-- What must not be used after a flush, of what was there before: with `invlpg`, the
translations for all addresses of the guest's page. -/
def Act.Flushes (a : Mword) (h : Hit) : Act → Prop
  | tlbFlush true => True
  | tlbFlush false => h.val.getLsbD tlbM = false
  | shootdown => True
  | invlpg addr => SameBlock h.origin.shift a addr
  | _ => False

/-- A step that clears no entry with translations behind it but by a full flush. -/
def Act.Whole : Act → Prop
  | tlbFlush false => False
  | invlpg _ => False
  | _ => True

/-! ## What `miss` leaves in the table -/

section Attr

variable {r : Regs} {gla attr error pte base : Mword} {g : Guest} {e : BitVec 32} {lev n : Nat}

theorem getLsbD_grant (hW : n ≠ tlbW) (h : (grant r attr error).getLsbD n = true) : attr.getLsbD n = true := by
  unfold grant at h
  split_ifs at h
  · rw [BitVec.getLsbD_or, getLsbD_clear, BitVec.getLsbD_twoPow] at h
    simp only [Ne.symm hW, decide_false, Bool.and_false, Bool.or_false, Bool.and_eq_true] at h
    exact h.1
  · exact h

theorem getLsbD_lend (h : (lend e attr error).getLsbD n = true) : attr.getLsbD n = true := by
  unfold lend at h
  split_ifs at h
  · rw [getLsbD_clear, Bool.and_eq_true] at h
    exact h.1
  · exact h

theorem getLsbD_adopt (hUc : n ≠ tlbUc) (hM : n ≠ tlbM) : (adopt r e attr).getLsbD n = attr.getLsbD n := by
  unfold adopt
  split_ifs <;> simp [Ne.symm hUc, Ne.symm hM]

theorem getLsbD_limit (h : (limit error attr).getLsbD n = true) : attr.getLsbD n = true := by
  unfold limit at h
  split_ifs at h
  · rw [getLsbD_clear, Bool.and_eq_true] at h
    exact h.1
  · exact h

theorem attr_finish (hW : n ≠ tlbW) (hUc : n ≠ tlbUc) (hM : n ≠ tlbM)
    (h : (finish r gla lev pte e attr error g).attr.getLsbD n = true) : attr.getLsbD n = true := by
  unfold finish at h
  simp only at h
  split_ifs at h
  · exact getLsbD_grant hW h
  · rw [getLsbD_adopt hUc hM] at h
    exact getLsbD_grant hW (getLsbD_lend h)

theorem attr_scan (hW : n ≠ tlbW) (hUc : n ≠ tlbUc) (hM : n ≠ tlbM)
    (h : (scan r gla error lev base attr g).attr.getLsbD n = true) : attr.getLsbD n = true := by
  induction lev generalizing base attr g with
  | zero =>
    unfold scan at h
    simp only at h
    split at h
    · exact h
    · split_ifs at h
      · exact h
      · have := attr_finish hW hUc hM h
        rw [BitVec.getLsbD_and, Bool.and_eq_true] at this
        exact this.1
  | succ lev ih =>
    unfold scan at h
    simp only at h
    split at h
    · exact h
    · split_ifs at h
      · exact h
      · have := ih h
        rw [BitVec.getLsbD_and, Bool.and_eq_true] at this
        exact this.1
      · have := attr_finish hW hUc hM h
        rw [BitVec.getLsbD_and, Bool.and_eq_true] at this
        exact this.1

theorem attr_gwalk (hW : n ≠ tlbW) (hUc : n ≠ tlbUc) (hM : n ≠ tlbM)
    (h : (gwalk r gla attr error g).attr.getLsbD n = true) : attr.getLsbD n = true := by
  unfold gwalk at h
  split_ifs at h
  · exact h
  · exact attr_scan hW hUc hM h

theorem attr_hwalk {ept : Mem Format.ept} {gpa : Mword} (h : (hwalk ept gpa attr error).attr.getLsbD n = true) :
    attr.getLsbD n = true := by
  unfold hwalk at h
  split at h
  · exact h
  · simp only at h
    split_ifs at h <;> exact getLsbD_limit h

end Attr

theorem miss_fill (r : Regs) (g : Guest) (ept : Mem Format.ept) (time : Nat) (virt error : Mword) (t : Table) :
    (miss r g ept time virt error t).vtlb = t ∨ ∃ size host attr shift,
      attr.getLsbD tlbG = false ∧ shift ≤ 22 ∧
        (miss r g ept time virt error t).vtlb = fill virt size host attr ⟨time, shift⟩ 2 t := by
  unfold miss
  simp only
  split_ifs with hw hh hsize
  · exact .inl rfl
  · exact .inl rfl
  · refine .inr ⟨_, _, _, _, ?_, ?_, rfl⟩
    · rw [Bool.eq_false_iff]
      intro hG
      rw [BitVec.getLsbD_or, Bool.or_eq_true] at hG
      obtain hG | hG := hG
      · exact absurd (attr_gwalk (by decide) (by decide) (by decide) (attr_hwalk hG)) (by decide)
      · exact absurd hG (by decide)
    · unfold pageShift
      split_ifs <;> decide
  · refine .inr ⟨_, _, _, _, ?_, ?_, rfl⟩
    · rw [Bool.eq_false_iff]
      intro hG
      exact absurd (attr_gwalk (by decide) (by decide) (by decide) (attr_hwalk hG)) (by decide)
    · unfold pageShift
      split_ifs <;> decide

/-! ## One step -/

namespace Cpu

variable {vpid : Bool} {c : Cpu} {a : Mword} {h : Hit} {act : Act}

/-- Marks are kept; no translation is global to the processor, or of a guest's page above 4 MByte. -/
structure Sound (c : Cpu) : Prop where
  marks : Marks 2 c.vtlb
  plain : ∀ a h, c.MayUse a h → h.val.getLsbD tlbG = false ∧ h.origin.shift ≤ 22

theorem mem_cached {x : Cached} (hx : x ∈ c.cached vpid) : x ∈ c.tlb := by
  unfold cached at hx
  split_ifs at hx
  · exact hx
  · cases hx

theorem mem_exec {tlb : List Cached} {i : Invvpid} {x : Cached} (hx : x ∈ i.exec tlb) : x ∈ tlb := by
  cases i with
  | address addr => exact List.mem_of_mem_filter hx
  | contextGlobal => cases hx
  | contextNoglobal => exact List.mem_of_mem_filter hx

theorem mayUse_of_uses (hu : c.Uses a h) : c.MayUse a h := hu.imp_left latent_of_walk

theorem mayUse_step (hu : (c.step vpid act).MayUse a h) :
    c.MayUse a h ∨ h.origin.time = c.time ∧ h.val.getLsbD tlbG = false ∧ h.origin.shift ≤ 22 := by
  obtain hl | ⟨x, hx, hc, rfl⟩ := hu
  · cases act with
    | translate lin => exact .inl (.inl hl)
    | miss r g ept virt error =>
      obtain heq | ⟨size, host, attr, shift, hG, hshift, heq⟩ := miss_fill r g ept c.time virt error c.vtlb
      · simp only [step, heq] at hl
        exact .inl (.inl hl)
      · simp only [step, heq] at hl
        obtain hold | ⟨l, hle, rfl⟩ := latent_fill (by decide) hl
        · exact .inl (.inl hold)
        · refine .inr ⟨rfl, ?_, hshift⟩
          exact (getLsbD_filled (by omega) (by decide) (by decide) (by decide) (by decide)).trans hG
    | tlbFlush full => exact .inl (.inl (latent_flushPtab hl))
    | invlpg addr => exact .inl (.inl (latent_flushPage hl))
    | shootdown => exact .inl (.inl (latent_flushPtab hl))
  · left
    cases act with
    | translate lin =>
      rcases List.mem_append.mp hx with hx | hx
      · obtain ⟨h, hw, rfl⟩ := List.mem_map.mp hx
        exact .inl (latent_of_walk (walk_page (Option.mem_toList.mp hw) hc))
      · exact .inr ⟨x, hx, hc, rfl⟩
    | miss r g ept virt error => exact .inr ⟨x, mem_cached hx, hc, rfl⟩
    | tlbFlush full => exact .inr ⟨x, mem_cached (mem_exec hx), hc, rfl⟩
    | invlpg addr =>
      have hx : x ∈ (Invvpid.address addr).exec (c.cached vpid) := hx
      exact .inr ⟨x, mem_cached (mem_exec hx), hc, rfl⟩
    | shootdown => exact .inr ⟨x, mem_cached hx, hc, rfl⟩

theorem Sound.step (hs : c.Sound) (act : Act) : (c.step vpid act).Sound := by
  refine ⟨?_, fun a h hu => ?_⟩
  · cases act with
    | translate lin => exact hs.marks
    | miss r g ept virt error =>
      obtain heq | ⟨size, host, attr, shift, -, -, heq⟩ := miss_fill r g ept c.time virt error c.vtlb
      · simp only [Cpu.step, heq]
        exact hs.marks
      · simp only [Cpu.step, heq]
        exact hs.marks.fill (by decide) virt size host attr ⟨c.time, shift⟩
    | tlbFlush full => exact hs.marks.flushPtab full
    | invlpg addr => exact hs.marks.flushPage addr
    | shootdown => exact hs.marks.flushPtab true
  · obtain hold | ⟨-, hnew⟩ := mayUse_step hu
    · exact hs.plain a h hold
    · exact hnew

theorem Awake.latent_flushPtab (ha : c.Awake) : latent a 2 (flushPtab true c.vtlb) = none := by
  rw [Option.eq_none_iff_forall_ne_some]
  intro h hl
  have hw := ha a h (Vtlb.latent_flushPtab hl)
  rw [latent_flushPtab_true hw] at hl
  cases hl

theorem Ready.not_flushes (hr : c.Ready vpid act) (hs : c.Sound) (hu : (c.step vpid act).MayUse a h) :
    ¬act.Flushes a h := by
  cases act with
  | translate lin => exact id
  | miss r g ept virt error => exact id
  | tlbFlush full =>
    cases full with
    | true =>
      obtain hl | ⟨x, hx, -⟩ := hu
      · have ha : c.Awake := hr
        exact absurd (ha.latent_flushPtab.symm.trans hl) nofun
      · cases hx
    | false =>
      obtain hl | ⟨x, hx, hc, rfl⟩ := hu
      · exact Bool.eq_false_iff.not_left.mpr (hs.marks.global hl)
      · have hG : x.hit.val.getLsbD tlbG = true := (List.mem_filter.mp hx).2
        have hplain := (hs.plain a x.hit (.inr ⟨x, mem_cached (List.mem_of_mem_filter hx), hc, rfl⟩)).1
        exact absurd (hG.symm.trans hplain) (by decide)
  | invlpg addr =>
    intro hf
    have hf : SameBlock h.origin.shift a addr := hf
    obtain hl | ⟨x, hx, hc, rfl⟩ := hu
    · have hl : latent a 2 (flushPage addr 2 c.vtlb) = some h := hl
      have hlat := latent_flushPage hl
      obtain ⟨hw, hfrag | hsame⟩ := hr.1 a h hlat hf
      · have hshift := (hs.plain a h (.inl hlat)).2
        have hi : index a 2 = index addr 2 := index_congr (by omega) hf
        exact absurd ((flushPage_frag hw hi hfrag).symm.trans hl) nofun
      · rw [flushPage_same hw hsame] at hl
        cases hl
    · obtain ⟨hmem, hout⟩ := List.mem_filter.mp hx
      exact absurd (hr.2 x hmem a hc hf) (by simpa using hout)
  | shootdown =>
    obtain hl | ⟨x, hx, -⟩ := hu
    · exact absurd (hr.1.latent_flushPtab.symm.trans hl) nofun
    · have hx : x ∈ c.cached vpid := hx
      rw [hr.2] at hx
      cases hx

/-! ## Runs -/

theorem after_time (acts : List Act) (c : Cpu) : (c.after vpid acts).time = c.time + acts.length := by
  induction acts generalizing c with
  | nil => rfl
  | cons act acts ih =>
    have hstep : (c.step vpid act).time = c.time + 1 := by cases act <;> rfl
    rw [after, List.foldl_cons, ← after, ih, hstep, List.length_cons, Nat.add_assoc, Nat.add_comm 1]

theorem Sound.boot : Sound boot := by
  refine ⟨marks_blank 2, fun a h hu => ?_⟩
  obtain hl | ⟨x, hx, -⟩ := hu
  · exact absurd (latent_blank.symm.trans hl) nofun
  · cases hx

theorem Sound.after (hs : c.Sound) (acts : List Act) : (c.after vpid acts).Sound := by
  induction acts generalizing c with
  | nil => exact hs
  | cons act acts ih => exact ih (hs.step act)

theorem Runs.ready {acts₁ acts₂ : List Act} (hr : c.Runs vpid (acts₁ ++ act :: acts₂)) :
    (c.after vpid acts₁).Ready vpid act := by
  induction acts₁ generalizing c with
  | nil => exact hr.1
  | cons a acts₁ ih => exact ih hr.2

/-! ## Where a flush finds what it takes for granted -/

theorem walk_of_latent_fill {lev : Nat} {t : Table} {virt size host attr : Mword} {o : Origin} (hlev : lev < 4)
    (ha : ∀ h, latent a lev t = some h → walk a lev t = some h)
    (hl : latent a lev (fill virt size host attr o lev t) = some h) :
    walk a lev (fill virt size host attr o lev t) = some h := by
  induction lev generalizing t with
  | zero => exact hl
  | succ lev ih =>
    rw [fill_succ lev t] at hl ⊢
    by_cases hi : index a (lev + 1) = index virt (lev + 1)
    · rw [← hi] at hl ⊢
      split_ifs at hl ⊢
      · generalize hv : ((enter (lev + 1) (t (index a (lev + 1)))).1 &&& (attr ||| ~~~bit tlbM)) |||
          (attr &&& bit tlbF) = v at hl ⊢
        have hp : v.getLsbD tlbP = true := by
          rw [← hv, getLsbD_passed _ _ (by decide) (by decide), enter_present]
          simp [tlbP, tlbM]
        rw [latent_dir (Function.update_self _ _ _), behind, if_pos hp] at hl
        rw [walk, Function.update_self]
        simp only [hp, if_true]
        refine ih (by omega) (fun h hb => ?_) hl
        cases ht : t (index a (lev + 1)) with
        | leaf w o =>
          rw [ht] at hb
          exact absurd (latent_blank.symm.trans hb) (Option.some_ne_none h).symm
        | dir w tab =>
          rw [ht] at hb
          have hw := ha h ((latent_dir ht).trans hb)
          rw [walk, ht] at hw
          simp only at hw
          split_ifs at hw with hwp
          simpa only [enter, behind, if_pos hwp] using hw
      · rw [latent_leaf (Function.update_self _ _ _)] at hl
        rw [walk, Function.update_self]
        exact hl
    · rw [latent_congr (Function.update_of_ne hi _ _)] at hl
      have hw := ha h hl
      rw [walk] at hw ⊢
      rwa [Function.update_of_ne hi]

theorem Awake.step (ha : c.Awake) (hw : act.Whole) : (c.step vpid act).Awake := by
  cases act with
  | translate lin => exact ha
  | miss r g ept virt error =>
    obtain heq | ⟨size, host, attr, shift, -, -, heq⟩ := miss_fill r g ept c.time virt error c.vtlb
    · unfold Awake
      simp only [Cpu.step, heq]
      exact ha
    · unfold Awake
      simp only [Cpu.step, heq]
      exact fun a h hl => walk_of_latent_fill (by decide) (fun h hl => ha a h hl) hl
  | tlbFlush full =>
    cases full with
    | true => exact fun a h hl => absurd (ha.latent_flushPtab.symm.trans hl) nofun
    | false => exact hw.elim
  | invlpg addr => exact hw.elim
  | shootdown => exact fun a h hl => absurd (ha.latent_flushPtab.symm.trans hl) nofun

theorem awake_boot : boot.Awake := fun _ _ hl => absurd (latent_blank.symm.trans hl) nofun

theorem Awake.after {acts : List Act} (ha : c.Awake) (hw : ∀ act ∈ acts, act.Whole) : (c.after vpid acts).Awake := by
  induction acts generalizing c with
  | nil => exact ha
  | cons act acts ih =>
    exact ih (ha.step (hw act List.mem_cons_self)) fun b hb => hw b (List.mem_cons_of_mem _ hb)

theorem Awake.runs {acts : List Act} (ha : c.Awake) (hw : ∀ act ∈ acts, act.Whole) : c.Runs false acts := by
  induction acts generalizing c with
  | nil => trivial
  | cons act acts ih =>
    have hact := hw act List.mem_cons_self
    refine ⟨?_, ih (ha.step hact) fun b hb => hw b (List.mem_cons_of_mem _ hb)⟩
    cases act with
    | tlbFlush full =>
      cases full with
      | true => exact ha
      | false => exact hact.elim
    | invlpg addr => exact hact.elim
    | shootdown => exact ⟨ha, rfl⟩
    | _ => trivial

/-- Without VPIDs, full flushes and shootdowns find all they need if nothing else flushes. -/
theorem runs_whole {acts : List Act} (hw : ∀ act ∈ acts, act.Whole) : boot.Runs false acts :=
  awake_boot.runs hw

theorem mayUse_after {acts : List Act} (hu : (c.after vpid acts).MayUse a h) :
    c.MayUse a h ∨ c.time ≤ h.origin.time := by
  induction acts generalizing c with
  | nil => exact .inl hu
  | cons act acts ih =>
    have hstep : (c.step vpid act).time = c.time + 1 := by cases act <;> rfl
    obtain hold | hnew := ih hu
    · obtain hold | ⟨hnew, -⟩ := mayUse_step hold
      · exact .inl hold
      · exact .inr hnew.ge
    · exact .inr (by omega)

end Cpu

/-- A translation that was there when it was flushed is not used in any later state, if each
flush finds what it takes for granted. -/
theorem flushed_not_used (vpid : Bool) (acts₁ : List Act) (act : Act) (acts₂ : List Act)
    (hr : Cpu.boot.Runs vpid (acts₁ ++ act :: acts₂)) (a : Mword) (h : Hit)
    (hu : (Cpu.boot.after vpid (acts₁ ++ act :: acts₂)).Uses a h) (ht : h.origin.time < acts₁.length) :
    ¬act.Flushes a h := by
  have hsound : (Cpu.boot.after vpid acts₁).Sound := Cpu.Sound.boot.after acts₁
  have htime : ((Cpu.boot.after vpid acts₁).step vpid act).time = acts₁.length + 1 := by
    have hlen : (Cpu.boot.after vpid (acts₁ ++ [act])).time = Cpu.boot.time + (acts₁ ++ [act]).length :=
      Cpu.after_time _ _
    rw [Cpu.after, List.foldl_append, List.length_append] at hlen
    exact hlen.trans (by simp [Cpu.boot])
  have hsplit : Cpu.boot.after vpid (acts₁ ++ act :: acts₂) =
      ((Cpu.boot.after vpid acts₁).step vpid act).after vpid acts₂ := by
    rw [Cpu.after, List.foldl_append]
    rfl
  rw [hsplit] at hu
  obtain hold | hnew := Cpu.mayUse_after (Cpu.mayUse_of_uses hu)
  · exact hr.ready.not_flushes hsound hold
  · omega

section Flat

/-- A guest with a table for the first 4 MByte that maps the first page, and for all. -/
def flatGuest : Guest where
  peek addr := if addr = 0 then some 0x1067 else if addr = 0x1000 then some 0x167 else none
  writable _ := true

def flatHost : Mem Format.ept where
  val := 0x1000
  page q i := if q = 0x1000 ∧ i = 0 then 0x2007 else if q = 0x2000 ∧ i = 0 then 0x87 else 0
  log := []

/-- `CR0_PG | CR0_WP` and `CR4_PGE`. -/
def flatRegs : Regs := ⟨0x80010000, 0, 0x80⟩

/-- Misses, a full flush of what they have left, a shootdown, and another miss. -/
def refilled : List Act :=
  [.invlpg 0x10, .miss flatRegs flatGuest flatHost 0 0, .translate 0x10, .tlbFlush true, .shootdown,
    .miss flatRegs flatGuest flatHost 0 0]

theorem runs_refilled : Cpu.boot.Runs true (refilled ++ .tlbFlush false :: [.translate 0x10]) := by
  have hinv : (Cpu.boot.step true (.invlpg 0x10)).Awake := by
    intro a h hl
    change latent a 2 (flushPage 0x10 2 blank) = some h at hl
    exact absurd (latent_blank.symm.trans (latent_flushPage hl)) nofun
  have hmiss : ((Cpu.boot.step true (.invlpg 0x10)).after true
      [.miss flatRegs flatGuest flatHost 0 0, .translate 0x10]).Awake := hinv.after (by simp [Act.Whole])
  refine ⟨⟨fun a h hl => absurd (latent_blank.symm.trans hl) nofun, fun x hx => nomatch hx⟩, trivial, trivial, hmiss,
    ⟨@Cpu.Awake.step true _ (.tlbFlush true) hmiss trivial, rfl⟩, trivial, trivial, trivial, trivial⟩

theorem flushed_not_used_global :
    (Cpu.boot.after true (refilled ++ .tlbFlush false :: [.translate 0x10])).Uses 0x20 ⟨12, 0x467, ⟨5, 12⟩⟩ ∧
      ¬(Act.tlbFlush false).Flushes 0x20 ⟨12, 0x467, ⟨5, 12⟩⟩ := by
  have hu : (Cpu.boot.after true (refilled ++ .tlbFlush false :: [.translate 0x10])).Uses 0x20
      ⟨12, 0x467, ⟨5, 12⟩⟩ := .inl (by decide +kernel)
  exact ⟨hu, flushed_not_used true refilled (.tlbFlush false) [.translate 0x10] runs_refilled 0x20 _ hu (by decide)⟩

end Flat

/-- In every state that is reached, the lazy flush of what is not global acts on the translations
that can come back as an eager one does; a full flush does so where the processor's walk gets
to the translation, and nowhere else. -/
theorem flush_refines (vpid : Bool) (acts : List Act) (a : Mword) :
    latent a 2 (flushPtab false (Cpu.boot.after vpid acts).vtlb) =
        (latent a 2 (Cpu.boot.after vpid acts).vtlb).filter (fun h => h.val.getLsbD tlbM) ∧
      latent a 2 (flushPtab true (Cpu.boot.after vpid acts).vtlb) =
        if (walk a 2 (Cpu.boot.after vpid acts).vtlb).isSome then none
        else latent a 2 (Cpu.boot.after vpid acts).vtlb := by
  have hmarks : Marks 2 (Cpu.boot.after vpid acts).vtlb := (Cpu.Sound.boot.after acts).marks
  generalize (Cpu.boot.after vpid acts).vtlb = t at hmarks
  refine ⟨?_, ?_⟩
  · cases hl : latent a 2 (flushPtab false t) with
    | some h =>
      rw [latent_flushPtab hl, Option.filter_some, if_pos (hmarks.global hl)]
    | none =>
      cases hold : latent a 2 t with
      | none => rfl
      | some h =>
        rw [Option.filter_some, if_neg]
        intro hM
        exact absurd (hl.symm.trans (latent_flushPtab_false hold hM)) nofun
  · cases hw : walk a 2 t with
    | none => exact latent_flushPtab_asleep hw
    | some h => exact latent_flushPtab_true hw

end Tukija.Vtlb
