import Tukija.Create.Ec

/-! `sys_create_sc`: the budget of the new SC is computed in 32 bits. -/
namespace Tukija.Create

open Tukija.Lib.Word Tukija.Mapdb Tukija.Pd

structure Qpd where
  val : Mword

def Qpd.quantum (q : Qpd) : BitVec 32 := (shr q.val 12).setWidth 32
def Qpd.prio (q : Qpd) : BitVec 32 := (q.val &&& 0xff).setWidth 32

def priorities : BitVec 32 := 128

/-- `Sys_create_sc`. -/
structure ScArgs where
  sel : Mword
  pd : Mword
  ec : Mword
  qpd : Qpd

structure NewSc where
  ec : EcId
  cpu : Nat
  prio : BitVec 16
  budget : Mword
  left : Mword
  deriving DecidableEq

/-- `Sc::Sc` for a user's SC.  `freqTsc` is an `unsigned` as is the quantum. -/
def NewSc.make (freqTsc : BitVec 32) (e : EcId) (c : Nat) (p q : BitVec 32) : NewSc where
  ec := e
  cpu := c
  prio := p.setWidth 16
  budget := (freqTsc / 1000 * q).setWidth 64
  left := 0

structure Bound where
  glb : Bool
  cpu : Nat
  worker : Option EcId
  sc : Option Mword

structure EcCap where
  ec : EcId
  val : Mword

def EcCap.prm (c : EcCap) : Mword := c.val &&& 0x1f

/-- The caller `cur` with its slots, and the place for an SC. -/
structure Binder (σ : Type) where
  obj : State σ
  ecs : EcId → Bound
  cur : PdId
  pds : Mword → Option Cap
  caps : Mword → Option EcCap
  quota : PdId → Kmem.Quota
  newSc : Mword

section Call

variable {σ : Type} (O : SpaceOps σ) (freqTsc : BitVec 32)

def Binder.tests (k : Binder σ) (r : ScArgs) : Except Status EcId :=
  if ((k.quota k.cur).hitLimit 0).val then .error .quoOom
  else
    match k.pds r.pd with
    | none => .error .badCap
    | some cap =>
      if cap.prm &&& 4 = 0 then .error .badCap
      else if ((k.quota cap.pd).hitLimit 2).val then .error .quoOom
      else
        match k.caps r.ec with
        | none => .error .badCap
        | some e =>
          if e.prm &&& 4 = 0 then .error .badCap
          else if !(k.ecs e.ec).glb then .error .badCap
          else if r.qpd.prio = 0 ∨ r.qpd.quantum = 0 ∨ priorities ≤ r.qpd.prio then .error .badPar
          else .ok e.ec

/-- `Ec::sys_create_sc`, up to `remote_enqueue`, with the SC that is made. -/
def sysCreateSc (k : Binder σ) (r : ScArgs) : Status × Binder σ × Option NewSc :=
  match k.tests r with
  | .error status => (status, k, none)
  | .ok e =>
    let sc := NewSc.make freqTsc e (k.ecs e).cpu r.qpd.prio r.qpd.quantum
    let (obj, ok) := insertObj O k.cur k.newSc r.sel 0x1 k.obj
    if !ok then (.badCap, { k with obj := obj }, none)
    else
      let ecs := match (k.ecs e).worker with
        | none => k.ecs
        | some w => Function.update k.ecs w { k.ecs w with sc := some k.newSc }
      (.success, { k with obj := obj, ecs := ecs }, some sc)

variable {O freqTsc}

theorem sysCreateSc_made {k k' : Binder σ} {r : ScArgs} {status : Status} {sc : NewSc}
    (h : sysCreateSc O freqTsc k r = (status, k', some sc)) :
    ∃ e, k.tests r = .ok e ∧ status = .success ∧
      sc = NewSc.make freqTsc e (k.ecs e).cpu r.qpd.prio r.qpd.quantum := by
  unfold sysCreateSc at h
  cases ht : k.tests r with
  | error s => simp [ht] at h
  | ok e =>
    simp only [ht] at h
    split at h
    · simp at h
    · simp only [Prod.mk.injEq, Option.some.injEq] at h
      obtain ⟨hs, -, hsc⟩ := h
      exact ⟨e, rfl, hs.symm, hsc.symm⟩

theorem tests_qpd {k : Binder σ} {r : ScArgs} {e : EcId} (h : k.tests r = .ok e) :
    r.qpd.prio ≠ 0 ∧ r.qpd.quantum ≠ 0 ∧ r.qpd.prio < priorities := by
  unfold Binder.tests at h
  split at h
  · simp at h
  · split at h
    · simp at h
    · split at h
      · simp at h
      · split at h
        · simp at h
        · split at h
          · simp at h
          · split at h
            · simp at h
            · split at h
              · simp at h
              · split at h
                · simp at h
                · rename_i hq
                  push Not at hq
                  exact ⟨hq.1, hq.2.1, BitVec.not_le.mp hq.2.2⟩

end Call

theorem toNat_budget (freqTsc p q : BitVec 32) (e : EcId) (c : Nat) :
    (NewSc.make freqTsc e c p q).budget.toNat = freqTsc.toNat / 1000 * q.toNat % 2 ^ 32 := by
  have hlt : freqTsc.toNat / 1000 * q.toNat % 2 ^ 32 < 2 ^ 64 := (Nat.mod_lt _ (by decide)).trans (by decide)
  unfold NewSc.make
  rw [BitVec.toNat_setWidth, BitVec.toNat_mul, BitVec.toNat_udiv, Nat.mod_eq_of_lt (b := 2 ^ 64)]
  · rfl
  · exact hlt

/-- The budget of an SC that is made is the exact product, and not zero, exactly if
the product fits into 32 bits. -/
theorem budget_exact_iff {σ : Type} {O : SpaceOps σ} {freqTsc : BitVec 32} {k k' : Binder σ} {r : ScArgs}
    {status : Status} {sc : NewSc} (hf : 1000 ≤ freqTsc.toNat)
    (h : sysCreateSc O freqTsc k r = (status, k', some sc)) :
    (sc.budget.toNat = freqTsc.toNat / 1000 * r.qpd.quantum.toNat ∧ sc.budget ≠ 0) ↔
      freqTsc.toNat / 1000 * r.qpd.quantum.toNat < 2 ^ 32 := by
  obtain ⟨e, ht, -, rfl⟩ := sysCreateSc_made h
  obtain ⟨-, hq, -⟩ := tests_qpd ht
  have hq' : 0 < r.qpd.quantum.toNat := Nat.pos_of_ne_zero fun h0 => hq (BitVec.eq_of_toNat_eq h0)
  have hpos : 0 < freqTsc.toNat / 1000 * r.qpd.quantum.toNat := Nat.mul_pos (Nat.div_pos hf (by decide)) hq'
  have hb := toNat_budget freqTsc r.qpd.prio r.qpd.quantum e (k.ecs e).cpu
  constructor
  · rintro ⟨heq, -⟩
    rw [← heq, hb]
    exact Nat.mod_lt _ (by decide)
  · intro hlt
    rw [Nat.mod_eq_of_lt hlt] at hb
    refine ⟨hb, fun h0 => ?_⟩
    rw [h0] at hb
    exact hpos.ne hb

def oneEc : Binder Unit where
  obj := boot ()
  ecs _ := ⟨true, 0, none, none⟩
  cur := 2
  pds i := if i = 3 then some ⟨2, 0x1f⟩ else none
  caps i := if i = 4 then some ⟨0, 0x1f⟩ else none
  quota _ := ⟨0, 0, 100, 0⟩
  newSc := 0

/-- Priority 1 and a quantum of one second, at 3 GHz. -/
theorem budget_exact_second : ∃ r k' sc, r.qpd = ⟨0xf4240001⟩ ∧
    sysCreateSc bareSpace 3000000 oneEc r = (.success, k', some sc) ∧
    ((sc.budget.toNat = (3000000 : BitVec 32).toNat / 1000 * r.qpd.quantum.toNat ∧ sc.budget ≠ 0) ↔
      (3000000 : BitVec 32).toNat / 1000 * r.qpd.quantum.toNat < 2 ^ 32) := by
  have hf : 1000 ≤ (3000000 : BitVec 32).toNat := by decide
  have hsome : (sysCreateSc bareSpace 3000000 oneEc ⟨5, 3, 4, ⟨0xf4240001⟩⟩).2.2 =
      some (NewSc.make 3000000 0 0 1 1000000) := by decide +kernel
  have hrun : sysCreateSc bareSpace 3000000 oneEc ⟨5, 3, 4, ⟨0xf4240001⟩⟩ =
      (.success, (sysCreateSc bareSpace 3000000 oneEc ⟨5, 3, 4, ⟨0xf4240001⟩⟩).2.1,
        some (NewSc.make 3000000 0 0 1 1000000)) := by
    refine Prod.ext ?_ (Prod.ext rfl hsome)
    decide +kernel
  exact ⟨_, _, _, rfl, hrun, budget_exact_iff hf hrun⟩

/-- A quantum of two seconds is cut. -/
theorem budget_not_exact :
    ¬∀ (freqTsc : BitVec 32) (k k' : Binder Unit) (r : ScArgs) (sc : NewSc), 1000 ≤ freqTsc.toNat →
      sysCreateSc bareSpace freqTsc k r = (.success, k', some sc) →
        sc.budget.toNat = freqTsc.toNat / 1000 * r.qpd.quantum.toNat ∧ sc.budget ≠ 0 := by
  intro hall
  have hsome : (sysCreateSc bareSpace 3000000 oneEc ⟨5, 3, 4, ⟨0x1e8480001⟩⟩).2.2 =
      some (NewSc.make 3000000 0 0 1 2000000) := by decide +kernel
  have hrun : sysCreateSc bareSpace 3000000 oneEc ⟨5, 3, 4, ⟨0x1e8480001⟩⟩ =
      (.success, (sysCreateSc bareSpace 3000000 oneEc ⟨5, 3, 4, ⟨0x1e8480001⟩⟩).2.1,
        some (NewSc.make 3000000 0 0 1 2000000)) := by
    refine Prod.ext ?_ (Prod.ext rfl hsome)
    decide +kernel
  obtain ⟨hexact, -⟩ := hall 3000000 oneEc _ ⟨5, 3, 4, ⟨0x1e8480001⟩⟩ (NewSc.make 3000000 0 0 1 2000000) (by decide) hrun
  have hq : (Qpd.mk 0x1e8480001).quantum.toNat = 2000000 := by decide +kernel
  have hf : (3000000 : BitVec 32).toNat = 3000000 := by decide
  have hq' : (2000000 : BitVec 32).toNat = 2000000 := by decide
  rw [toNat_budget, hq, hf, hq'] at hexact
  omega

end Tukija.Create
