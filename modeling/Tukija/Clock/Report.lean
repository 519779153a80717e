import Tukija.Clock.Div64

/-! The execution times that `sys_ec_ctrl` and `sys_sc_ctrl` report, in
microseconds for a frequency in kHz. -/
namespace Tukija.Clock

/-! ## System calls -/

inductive Obj where
  | ec (id : Nat)
  | sc (id : Nat)
  | other

structure Cap where
  obj : Obj
  prm : BitVec 64

/-- What the calls read and write: the capabilities, and the cycles that have been
counted for ECs, SCs and CPUs. -/
structure Counters where
  lookup : Nat → Cap
  ecTime : Nat → BitVec 64
  ecTimeM : Nat → BitVec 64
  scTime : Nat → BitVec 64
  scTimeM : Nat → BitVec 64
  scCpu : Nat → Nat
  /-- The space of the SC is `Pd::kern`. -/
  scKern : Nat → Bool
  crossTime : Nat → BitVec 64
  scKilledTime : Nat → BitVec 64
  ecKilledTime : Nat → BitVec 64

inductive Status where
  | badCap
  | badPar
  deriving DecidableEq

inductive Call where
  | ecTime (ec : Nat)
  | scCtrl (sc : Nat) (op : BitVec 2) (ec : Nat)

namespace Counters

variable (s : Counters)

/-- `Ec::measured` and `Sc::measured`. -/
def ecMeasured (ec : Nat) : Counters := { s with ecTimeM := Function.update s.ecTimeM ec (s.ecTime ec) }

def scMeasured (sc : Nat) : Counters := { s with scTimeM := Function.update s.scTimeM sc (s.scTime sc) }

/-- `EC_TIME`, up to the report. -/
def ecCtrl (sel : Nat) : Except Status (Counters × List (BitVec 64)) :=
  match (s.lookup sel).obj with
  | .ec ec => .ok (s.ecMeasured ec, [s.ecTime ec])
  | _ => .error .badCap

def beside (ecTime : BitVec 64) (sel : Nat) : Counters × BitVec 64 :=
  if ecTime = 0 then
    match (s.lookup sel).obj with
    | .ec ec => (s.ecMeasured ec, s.ecTime ec)
    | _ => (s, ecTime)
  else (s, ecTime)

/-- `Ec::sys_sc_ctrl`, up to the report. -/
def scCtrl (sel : Nat) (op : BitVec 2) (ecSel : Nat) : Except Status (Counters × List (BitVec 64)) :=
  let cap := s.lookup sel
  match cap.obj with
  | .sc sc =>
    if cap.prm &&& 1 = 0 then .error .badCap
    else do
      let (s, scTime, ecTime) ←
        if op ≠ 0 ∧ s.scKern sc = true then
          if op = 1 then .ok (s, s.crossTime (s.scCpu sc), 0)
          else if op = 2 then .ok (s, s.scKilledTime (s.scCpu sc), 0)
          else if op = 3 then .ok (s, s.scKilledTime (s.scCpu sc), s.ecKilledTime (s.scCpu sc))
          else .error .badPar
        else .ok (s.scMeasured sc, s.scTime sc, 0)
      if op = 3 then
        let (s, ecTime) := s.beside ecTime ecSel
        return (s, [scTime, ecTime])
      return (s, [scTime])
  | _ => .error .badCap

end Counters

def Call.counts (c : Call) (s : Counters) : Except Status (Counters × List (BitVec 64)) :=
  match c with
  | .ecTime ec => s.ecCtrl ec
  | .scCtrl sc op ec => s.scCtrl sc op ec

def word (arch : Arch) (x : BitVec 64) : BitVec 64 :=
  match arch with
  | .i386 => (x.setWidth 32).setWidth 64
  | .x86_64 => x

/-- `set_time`: two registers. -/
def setTime (arch : Arch) (val : BitVec 64) : BitVec 64 × BitVec 64 := (word arch (val >>> 32), word arch val)

def timeOf (args : BitVec 64 × BitVec 64) : BitVec 64 := args.1 <<< 32 ||| args.2

inductive Reply where
  | failed (status : Status)
  | success (args : List (BitVec 64 × BitVec 64))

def Reply.times : Reply → List (BitVec 64)
  | failed _ => []
  | success args => args.map timeOf

/-- One count, as it is reported; `none` is an exception in the kernel. -/
def report (arch : Arch) (freqTsc : BitVec 32) (time : BitVec 64) : Option (BitVec 64 × BitVec 64) :=
  (div64 arch (time * 1000) freqTsc).map fun r => setTime arch r.1

def Call.run (arch : Arch) (freqTsc : BitVec 32) (c : Call) (s : Counters) : Option (Counters × Reply) :=
  match c.counts s with
  | .error status => some (s, .failed status)
  | .ok (s, times) => (times.mapM (report arch freqTsc)).map fun args => (s, .success args)

/-! ## Reports -/

def Call.asked (c : Call) (s : Counters) : List (BitVec 64) :=
  match c.counts s with
  | .error _ => []
  | .ok (_, times) => times

/-- The call ends, its times are exact, and a smaller count would not have been
reported as more. -/
def Call.Exact (arch : Arch) (freqTsc : BitVec 32) (c : Call) (s : Counters) : Prop :=
  ∃ s' reply, c.run arch freqTsc s = some (s', reply) ∧
    reply.times.map BitVec.toNat = (c.asked s).map (fun time => time.toNat * 1000 / freqTsc.toNat) ∧
    ∀ time ∈ c.asked s, ∀ less : BitVec 64, less ≤ time →
      ∃ args args', report arch freqTsc less = some args ∧ report arch freqTsc time = some args' ∧
        timeOf args ≤ timeOf args'

theorem timeOf_setTime (arch : Arch) (val : BitVec 64) : timeOf (setTime arch val) = val := by
  apply BitVec.eq_of_getLsbD_eq
  intro i hi
  by_cases h : i < 32
  · cases arch <;> simp [timeOf, setTime, word, hi, h]
  · have hback : 32 + (i - 32) = i := by omega
    have hlow : i - 32 < 32 := by omega
    cases arch <;> simp [timeOf, setTime, word, hi, h, hback, hlow]

variable {arch : Arch} {freqTsc : BitVec 32}

theorem report_eq (hf : freqTsc ≠ 0) (time : BitVec 64) :
    report arch freqTsc time = some (setTime arch (.ofNat 64 (time.toNat * 1000 % 2 ^ 64 / freqTsc.toNat))) := by
  rw [report, div64_eq arch _ hf, Option.map_some, BitVec.toNat_mul]
  rfl

theorem reported_toNat (time : BitVec 64) :
    (timeOf (setTime arch (.ofNat 64 (time.toNat * 1000 % 2 ^ 64 / freqTsc.toNat)))).toNat =
      time.toNat * 1000 % 2 ^ 64 / freqTsc.toNat := by
  rw [timeOf_setTime, BitVec.toNat_ofNat]
  exact Nat.mod_eq_of_lt ((Nat.div_le_self _ _).trans_lt (Nat.mod_lt _ (by decide)))

theorem mod_div_eq_iff {n d : Nat} (hd : 0 < d) (hlt : d < 2 ^ 32) : n % 2 ^ 64 / d = n / d ↔ n < 2 ^ 64 := by
  constructor
  · intro h
    by_contra hn
    have hle : n % 2 ^ 64 + d ≤ n := by omega
    have := Nat.div_le_div_right (c := d) hle
    rw [Nat.add_div_right _ hd] at this
    omega
  · intro h
    rw [Nat.mod_eq_of_lt h]

theorem mapM_some {α β : Type} {f : α → Option β} {g : α → β} (h : ∀ a, f a = some (g a)) (l : List α) :
    l.mapM f = some (l.map g) := by
  induction l with
  | nil => rfl
  | cons a l ih => simp [List.mapM_cons, h, ih]

/-- The times are exact for the counts whose thousandfold is below 2^64. -/
theorem call_exact_iff (arch : Arch) (freqTsc : BitVec 32) (c : Call) (s : Counters) :
    c.Exact arch freqTsc s ↔ ∀ time ∈ c.asked s, freqTsc ≠ 0 ∧ time.toNat * 1000 < 2 ^ 64 := by
  unfold Call.Exact Call.run Call.asked
  cases hc : c.counts s with
  | error status => exact iff_of_true ⟨s, .failed status, rfl, rfl, nofun⟩ nofun
  | ok p =>
    obtain ⟨s', times⟩ := p
    dsimp only
    by_cases hf : freqTsc = 0
    · cases times with
      | nil => exact iff_of_true ⟨s', .success [], rfl, rfl, nofun⟩ nofun
      | cons time times =>
        refine iff_of_false ?_ fun h => (h time List.mem_cons_self).1 hf
        rintro ⟨_, _, -, -, hmono⟩
        obtain ⟨_, _, hless, -⟩ := hmono time List.mem_cons_self time (BitVec.le_refl _)
        rw [report, hf, div64_zero] at hless
        cases hless
    · have hpos : 0 < freqTsc.toNat := Nat.pos_of_ne_zero fun h => hf (BitVec.eq_of_toNat_eq h)
      rw [mapM_some (report_eq hf)]
      constructor
      · rintro ⟨_, _, hrun, htimes, -⟩ time htime
        obtain ⟨-, rfl⟩ := Prod.mk.inj (Option.some.inj hrun)
        rw [Reply.times, List.map_map, List.map_map, List.map_inj_left] at htimes
        have hsame := (reported_toNat time).symm.trans (htimes time htime)
        exact ⟨hf, (mod_div_eq_iff hpos freqTsc.isLt).mp hsame⟩
      · intro h
        refine ⟨_, _, rfl, ?_, fun time htime less hle => ?_⟩
        · rw [Reply.times, List.map_map, List.map_map, List.map_inj_left]
          intro time htime
          exact (reported_toNat time).trans ((mod_div_eq_iff hpos freqTsc.isLt).mpr (h time htime).2)
        · have hlt := (h time htime).2
          have hle := BitVec.le_def.mp hle
          have hless : less.toNat * 1000 < 2 ^ 64 := (Nat.mul_le_mul_right _ hle).trans_lt hlt
          refine ⟨_, _, report_eq hf less, report_eq hf time, ?_⟩
          rw [BitVec.le_def, reported_toNat, reported_toNat, Nat.mod_eq_of_lt hlt, Nat.mod_eq_of_lt hless]
          exact Nat.div_le_div_right (Nat.mul_le_mul_right _ hle)

def longRun : Counters where
  lookup := fun _ => ⟨.ec 0, 0⟩
  ecTime := fun _ => 18446744073709552
  ecTimeM := fun _ => 0
  scTime := fun _ => 0
  scTimeM := fun _ => 0
  scCpu := fun _ => 0
  scKern := fun _ => false
  crossTime := fun _ => 0
  scKilledTime := fun _ => 0
  ecKilledTime := fun _ => 0

/-- At 2 GHz it has run for more than 100 days, and no time at all is reported. -/
theorem longRun_not_exact : ¬ (Call.ecTime 0).Exact .x86_64 2000000 longRun := by
  rintro ⟨s', reply, hrun, htimes, -⟩
  have hf : (2000000 : BitVec 32) ≠ 0 := by decide
  have hcounts : (Call.ecTime 0).counts longRun = .ok (longRun.ecMeasured 0, [18446744073709552]) := rfl
  rw [Call.asked, hcounts] at htimes
  rw [Call.run, hcounts] at hrun
  dsimp only at hrun htimes
  rw [mapM_some (report_eq hf)] at hrun
  obtain ⟨-, rfl⟩ := Prod.mk.inj (Option.some.inj hrun)
  simp only [Reply.times, List.map_cons, List.map_nil, reported_toNat] at htimes
  exact absurd htimes (by decide)

end Tukija.Clock
