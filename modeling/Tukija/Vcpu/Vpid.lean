import Mathlib.Algebra.Group.Nat.Defs
import Mathlib.Data.List.Induction
import Mathlib.Logic.Function.Basic
import Mathlib.Tactic.Common

/-! VPIDs: every vCPU takes the next value of a counter of the CPU that creates it, which
need not be the CPU that it is for. -/
namespace Tukija.Vcpu

structure Guest (κ : Type) where
  cpu : κ
  uses : Bool
  vpid : BitVec 16
  deriving DecidableEq

/-- The vCPUs that live, by the number of vCPUs that were made before. -/
structure Vpids (κ : Type) where
  vpidCtr : κ → BitVec 32
  made : Nat
  guest : Nat → Option (Guest κ)

/-- A vCPU is created on the CPU `on` for the CPU `cpu`, or one is destroyed. -/
inductive Life (κ : Type) where
  | create (on cpu : κ)
  | destroy (i : Nat)
  deriving DecidableEq

section Made

variable {κ : Type}

def made (acts : List (Life κ)) : Nat :=
  acts.countP fun
    | .create _ _ => true
    | .destroy _ => false

@[simp] theorem made_create (acts : List (Life κ)) (on cpu : κ) : made (acts ++ [.create on cpu]) = made acts + 1 := by
  simp [made]

@[simp] theorem made_destroy (acts : List (Life κ)) (i : Nat) : made (acts ++ [.destroy i]) = made acts := by simp [made]

end Made

section Runs

variable {κ : Type} [DecidableEq κ] (hasVpid : κ → Bool)

/-- `Vmcs::Vmcs`, as far as the VPID goes: the field has 16 bits.  Then `nst_ctrl` turns
VPIDs on where the CPU has them. -/
def Vpids.step (s : Vpids κ) : Life κ → Vpids κ
  | .create on cpu =>
    let next := s.vpidCtr on + 1
    { vpidCtr := Function.update s.vpidCtr on next
      made := s.made + 1
      guest := Function.update s.guest s.made (some ⟨cpu, hasVpid on, next.setWidth 16⟩) }
  | .destroy i => { s with guest := Function.update s.guest i none }

def Vpids.boot : Vpids κ := ⟨fun _ => 0, 0, fun _ => none⟩

def Vpids.run (acts : List (Life κ)) : Vpids κ := acts.foldl (Vpids.step hasVpid) Vpids.boot

/-- The vCPUs of a CPU that use VPIDs have different ones, and none is zero. -/
def Vpids.Distinct (s : Vpids κ) : Prop :=
  ∀ i g, s.guest i = some g → g.uses = true → g.vpid ≠ 0 ∧
    ∀ j h, s.guest j = some h → h.uses = true → h.cpu = g.cpu → h.vpid = g.vpid → j = i

def madeOn (on : κ) (acts : List (Life κ)) : Nat :=
  acts.countP fun
    | .create o _ => o = on
    | .destroy _ => false

/-- The vCPU `i` lives: it is for the CPU `cpu` and was the `n`th to be created on the CPU `on`. -/
def Living (acts : List (Life κ)) (i : Nat) (on cpu : κ) (n : Nat) : Prop :=
  ∃ before after, acts = before ++ .create on cpu :: after ∧ made before = i ∧ madeOn on before + 1 = n ∧
    .destroy i ∉ after

variable {hasVpid}

theorem run_append (acts : List (Life κ)) (a : Life κ) :
    Vpids.run hasVpid (acts ++ [a]) = (Vpids.run hasVpid acts).step hasVpid a := by
  simp [Vpids.run]

@[simp] theorem madeOn_create (acts : List (Life κ)) (o on cpu : κ) :
    madeOn o (acts ++ [.create on cpu]) = madeOn o acts + if on = o then 1 else 0 := by
  by_cases h : on = o <;> simp [madeOn, h]

@[simp] theorem madeOn_destroy (acts : List (Life κ)) (o : κ) (i : Nat) :
    madeOn o (acts ++ [.destroy i]) = madeOn o acts := by simp [madeOn]

theorem run_made (acts : List (Life κ)) : (Vpids.run hasVpid acts).made = made acts := by
  induction acts using List.reverseRecOn with
  | nil => rfl
  | append_singleton acts a ih =>
    rw [run_append]
    cases a with
    | create on cpu => rw [made_create, ← ih]; rfl
    | destroy i => rw [made_destroy, ← ih]; rfl

theorem run_vpidCtr (acts : List (Life κ)) (on : κ) :
    (Vpids.run hasVpid acts).vpidCtr on = BitVec.ofNat 32 (madeOn on acts) := by
  induction acts using List.reverseRecOn with
  | nil => rfl
  | append_singleton acts a ih =>
    rw [run_append]
    cases a with
    | create o cpu =>
      rw [madeOn_create]
      by_cases h : o = on
      · subst h
        rw [if_pos rfl, BitVec.ofNat_add, ← ih]
        exact Function.update_self ..
      · rw [if_neg h, Nat.add_zero, ← ih]
        exact Function.update_of_ne (Ne.symm h) ..
    | destroy i =>
      rw [madeOn_destroy, ← ih]
      rfl

theorem living_create {acts : List (Life κ)} {i n : Nat} {o c on cpu : κ} :
    Living (acts ++ [.create o c]) i on cpu n ↔
      Living acts i on cpu n ∨ i = made acts ∧ on = o ∧ cpu = c ∧ n = madeOn o acts + 1 := by
  constructor
  · rintro ⟨before, after, heq, rfl, rfl, hnot⟩
    cases after using List.reverseRecOn with
    | nil =>
      obtain ⟨rfl, h⟩ := List.append_inj' heq rfl
      simp only [List.cons.injEq, Life.create.injEq, and_true] at h
      obtain ⟨rfl, rfl⟩ := h
      exact .inr ⟨rfl, rfl, rfl, rfl⟩
    | append_singleton after a _ =>
      rw [← List.cons_append, ← List.append_assoc] at heq
      obtain ⟨rfl, -⟩ := List.append_inj' heq rfl
      exact .inl ⟨before, after, rfl, rfl, rfl, fun h => hnot (List.mem_append_left _ h)⟩
  · rintro (⟨before, after, rfl, rfl, rfl, hnot⟩ | ⟨rfl, rfl, rfl, rfl⟩)
    · exact ⟨before, after ++ [.create o c], by simp, rfl, rfl, by simpa using hnot⟩
    · exact ⟨acts, [], rfl, rfl, rfl, by simp⟩

theorem living_destroy {acts : List (Life κ)} {i k n : Nat} {on cpu : κ} :
    Living (acts ++ [.destroy k]) i on cpu n ↔ Living acts i on cpu n ∧ i ≠ k := by
  constructor
  · rintro ⟨before, after, heq, rfl, rfl, hnot⟩
    cases after using List.reverseRecOn with
    | nil =>
      obtain ⟨-, h⟩ := List.append_inj' heq rfl
      simp at h
    | append_singleton after a _ =>
      rw [← List.cons_append, ← List.append_assoc] at heq
      obtain ⟨rfl, h⟩ := List.append_inj' heq rfl
      obtain rfl := List.head_eq_of_cons_eq h
      simp only [List.mem_append, List.mem_singleton, Life.destroy.injEq, not_or] at hnot
      exact ⟨⟨before, after, rfl, rfl, rfl, hnot.1⟩, hnot.2⟩
  · rintro ⟨⟨before, after, rfl, rfl, rfl, hnot⟩, hne⟩
    exact ⟨before, after ++ [.destroy k], by simp, rfl, rfl, by simp [hnot, hne]⟩

theorem Living.lt {acts : List (Life κ)} {i n : Nat} {on cpu : κ} (h : Living acts i on cpu n) : i < made acts := by
  obtain ⟨before, after, rfl, rfl, rfl, -⟩ := h
  simp [made]

theorem run_guest (acts : List (Life κ)) (i : Nat) (g : Guest κ) :
    (Vpids.run hasVpid acts).guest i = some g ↔
      ∃ on cpu n, Living acts i on cpu n ∧ g = ⟨cpu, hasVpid on, BitVec.ofNat 16 n⟩ := by
  induction acts using List.reverseRecOn with
  | nil => simp [Vpids.run, Vpids.boot, Living]
  | append_singleton acts a ih =>
    rw [run_append]
    cases a with
    | create o c =>
      simp only [living_create]
      have hctr : (BitVec.ofNat 32 (madeOn o acts) + 1).setWidth 16 = BitVec.ofNat 16 (madeOn o acts + 1) := by
        rw [show (1 : BitVec 32) = BitVec.ofNat 32 1 from rfl, ← BitVec.ofNat_add]
        apply BitVec.eq_of_toNat_eq
        simp
      change Function.update (Vpids.run hasVpid acts).guest (Vpids.run hasVpid acts).made
        (some ⟨c, hasVpid o, ((Vpids.run hasVpid acts).vpidCtr o + 1).setWidth 16⟩) i = some g ↔ _
      rw [run_made, run_vpidCtr, hctr]
      by_cases hi : i = made acts
      · subst hi
        rw [Function.update_self, Option.some.injEq]
        constructor
        · rintro rfl
          exact ⟨o, c, _, .inr ⟨rfl, rfl, rfl, rfl⟩, rfl⟩
        · rintro ⟨on, cpu, n, h | ⟨-, rfl, rfl, rfl⟩, rfl⟩
          · exact absurd h.lt (Nat.lt_irrefl _)
          · rfl
      · rw [Function.update_of_ne hi, ih]
        simp [hi]
    | destroy k =>
      simp only [living_destroy]
      change Function.update (Vpids.run hasVpid acts).guest k none i = some g ↔ _
      by_cases hi : i = k
      · subst hi
        simp
      · rw [Function.update_of_ne hi, ih]
        simp [hi]

/-- The VPIDs are right in all states of a run exactly if never a vCPU lives that was
created with a multiple of `2 ^ 16`, nor two for one CPU whose numbers differ by one. -/
theorem distinct_iff (acts : List (Life κ)) :
    (∀ before, before <+: acts → (Vpids.run hasVpid before).Distinct) ↔
      ∀ before, before <+: acts → ∀ i on cpu n, Living before i on cpu n → hasVpid on = true → ¬2 ^ 16 ∣ n ∧
        ∀ j on' n', Living before j on' cpu n' → hasVpid on' = true → n' % 2 ^ 16 = n % 2 ^ 16 → j = i := by
  have hzero : ∀ n, BitVec.ofNat 16 n ≠ 0 ↔ ¬2 ^ 16 ∣ n := by
    intro n
    rw [Nat.dvd_iff_mod_eq_zero, not_iff_not, BitVec.toNat_eq, BitVec.toNat_ofNat]
    rfl
  have heq : ∀ n n', BitVec.ofNat 16 n' = BitVec.ofNat 16 n ↔ n' % 2 ^ 16 = n % 2 ^ 16 := by
    intro n n'
    rw [BitVec.toNat_eq, BitVec.toNat_ofNat, BitVec.toNat_ofNat]
  refine forall₂_congr fun before _ => ?_
  unfold Vpids.Distinct
  constructor
  · intro h i on cpu n hl hu
    obtain ⟨h0, hd⟩ := h i _ ((run_guest before i _).mpr ⟨on, cpu, n, hl, rfl⟩) hu
    refine ⟨(hzero n).mp h0, fun j on' n' hl' hu' hmod => ?_⟩
    exact hd j _ ((run_guest before j _).mpr ⟨on', cpu, n', hl', rfl⟩) hu' rfl ((heq n n').mpr hmod)
  · intro h i g hg hu
    obtain ⟨on, cpu, n, hl, rfl⟩ := (run_guest before i g).mp hg
    obtain ⟨h0, hd⟩ := h i on cpu n hl hu
    refine ⟨(hzero n).mpr h0, fun j g' hg' hu' hc hv => ?_⟩
    obtain ⟨on', cpu', n', hl', rfl⟩ := (run_guest before j g').mp hg'
    obtain rfl : cpu' = cpu := hc
    exact hd j on' n' hl' hu' ((heq n n').mp hv)

theorem living_replicate (n : Nat) (on : κ) : Living (List.replicate (n + 1) (.create on on)) n on on (n + 1) :=
  ⟨List.replicate n (.create on on), [], List.replicate_succ', by simp [made, List.countP_replicate],
    by simp [madeOn, List.countP_replicate], by simp⟩

/-- The `2 ^ 16`th vCPU has VPID zero; and if one CPU makes a vCPU for another one, they have
the same VPID in the end. -/
theorem not_distinct :
    ¬(Vpids.run (fun _ => true) (List.replicate (65535 + 1) (.create () ()))).Distinct ∧
      ¬(Vpids.run (fun _ => true) [.create false true, .create true true]).Distinct := by
  constructor
  · intro hd
    have hzero := (hd _ _ ((run_guest _ _ _).mpr ⟨_, _, _, living_replicate 65535 (), rfl⟩) rfl).1
    exact hzero (by decide)
  · intro hd
    have h := (hd 0 ⟨true, true, 1⟩ (by decide) rfl).2 1 ⟨true, true, 1⟩ (by decide) rfl rfl rfl
    exact absurd h (by decide)

end Runs

end Tukija.Vcpu
