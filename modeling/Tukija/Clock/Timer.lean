import Mathlib.Algebra.Order.Ring.Nat
import Mathlib.Tactic.Ring

/-! `Lapic::set_timer`, and how late its timer is in bus-clock mode.  Times are
readings of the TSC. -/
namespace Tukija.Clock

/-- `freq_tsc` and `freq_bus`. -/
structure Freqs where
  tsc : Nat
  bus : Nat
  deriving DecidableEq, Repr

/-- `TMR_ICR` or `IA32_TSC_DEADLINE`. -/
inductive Write where
  | icr (n : Nat)
  | tscDeadline (tsc : Nat)
  deriving DecidableEq, Repr

namespace Freqs

variable (f : Freqs) (now tsc : Nat)

/-- `Lapic::set_timer`; `none` is a division by zero. -/
def setTimer : Option Write :=
  if f.bus ≠ 0 then
    if now < tsc then
      if f.tsc / f.bus = 0 then none
      else
        let icr := (tsc - now) % 2 ^ 32 / (f.tsc / f.bus)
        some (.icr (if 0 < icr then icr else 1))
    else some (.icr 1)
  else some (.tscDeadline tsc)

/-- The timer counts at least one tick of the bus, and has counted to 0 at most one
tick behind `due`. -/
def Timely (due : Nat) : Prop :=
  ∃ n, f.setTimer now tsc = some (.icr n) ∧ 1 ≤ n ∧ now * f.bus + n * f.tsc ≤ due * f.bus + f.tsc

/-- A deadline ahead: the TSC is not slower than the bus and, if the time up to the
deadline fits into 32 bits, what the rounded ratio loses in each tick before the last
one is no more than what is left behind them. -/
def Clear : Prop :=
  now < tsc → f.bus ≤ f.tsc ∧ (tsc - now < 2 ^ 32 →
    ((tsc - now) / (f.tsc / f.bus) - 1) * (f.tsc % f.bus) ≤
      (f.tsc / f.bus + (tsc - now) % (f.tsc / f.bus)) * f.bus)

instance : Decidable (f.Clear now tsc) := inferInstanceAs (Decidable (_ → _))

/-- How many ticks the code counts before the last one, for a deadline ahead. -/
def ticks : Nat := (tsc - now) % 2 ^ 32 / (f.tsc / f.bus) - 1

/-- The reading when a count of `n` has run out. -/
def expiry (n : Nat) : Nat := now + n * f.tsc / f.bus

/-- From the time when the timer is set for the first timeout of the list to the time
when `Timeout::check` takes that one from the list: on an interrupt before its time
it sets the timer again.  All settings are clear. -/
inductive Served : Nat → Nat → Prop where
  | due {now n : Nat} : f.Clear now tsc → f.setTimer now tsc = some (.icr n) → tsc ≤ f.expiry now n →
      Served now (f.expiry now n)
  | again {now n t : Nat} : f.Clear now tsc → f.setTimer now tsc = some (.icr n) → f.expiry now n < tsc →
      Served (f.expiry now n) t → Served now t

variable {f now tsc}

theorem setTimer_past (hb : f.bus ≠ 0) (h : tsc ≤ now) : f.setTimer now tsc = some (.icr 1) := by
  rw [setTimer, if_pos hb, if_neg h.not_gt]

theorem setTimer_ahead (hb : f.bus ≠ 0) (h : now < tsc) (hr : f.bus ≤ f.tsc) :
    f.setTimer now tsc = some (.icr (f.ticks now tsc + 1)) := by
  have hr0 : f.tsc / f.bus ≠ 0 := (Nat.div_pos hr (Nat.pos_of_ne_zero hb)).ne'
  rw [setTimer, if_pos hb, if_pos h, if_neg hr0]
  dsimp only
  refine congrArg (fun n => some (Write.icr n)) ?_
  unfold ticks
  split_ifs <;> omega

theorem setTimer_fault (hb : f.bus ≠ 0) (h : now < tsc) (hr : f.tsc < f.bus) : f.setTimer now tsc = none := by
  rw [setTimer, if_pos hb, if_pos h, if_pos (Nat.div_eq_of_lt hr)]

/-- The ticks before the last one, each as long as the rounded ratio says, are over
before the deadline. -/
theorem ticks_le : f.ticks now tsc * (f.tsc / f.bus) ≤ (tsc - now) % 2 ^ 32 :=
  calc f.ticks now tsc * (f.tsc / f.bus)
      ≤ (tsc - now) % 2 ^ 32 / (f.tsc / f.bus) * (f.tsc / f.bus) := Nat.mul_le_mul_right _ (Nat.sub_le _ _)
    _ ≤ (tsc - now) % 2 ^ 32 := Nat.div_mul_le_self _ _

theorem ahead_iff (h : now < tsc) :
    now * f.bus + (f.ticks now tsc + 1) * f.tsc ≤ tsc * f.bus + f.tsc ↔
      f.ticks now tsc * (f.tsc % f.bus) ≤ (tsc - now - f.ticks now tsc * (f.tsc / f.bus)) * f.bus := by
  have hle : f.ticks now tsc * (f.tsc / f.bus) ≤ tsc - now := ticks_le.trans (Nat.mod_le _ _)
  obtain ⟨rest, hrest⟩ := Nat.exists_eq_add_of_le hle
  have htsc : tsc = now + (f.ticks now tsc * (f.tsc / f.bus) + rest) := by omega
  have hsplit : f.tsc = f.tsc / f.bus * f.bus + f.tsc % f.bus := (Nat.div_add_mod' _ _).symm
  generalize f.ticks now tsc = n at *
  rw [hrest, Nat.add_sub_cancel_left, htsc]
  generalize f.tsc / f.bus = r at *
  generalize f.tsc % f.bus = e at *
  rw [hsplit]
  have hleft : now * f.bus + (n + 1) * (r * f.bus + e) = now * f.bus + n * r * f.bus + (r * f.bus + e) + n * e := by ring
  have hright : (now + (n * r + rest)) * f.bus + (r * f.bus + e) =
      now * f.bus + n * r * f.bus + (r * f.bus + e) + rest * f.bus := by ring
  rw [hleft, hright, Nat.add_le_add_iff_left]

theorem ticks_far (hb : f.bus ≠ 0) (hr : f.bus ≤ f.tsc) (hd : 2 ^ 32 ≤ tsc - now) :
    f.ticks now tsc * (f.tsc % f.bus) ≤ (tsc - now - f.ticks now tsc * (f.tsc / f.bus)) * f.bus := by
  have hpos : 1 ≤ f.tsc / f.bus := Nat.div_pos hr (Nat.pos_of_ne_zero hb)
  have hle : f.ticks now tsc * (f.tsc / f.bus) ≤ (tsc - now) % 2 ^ 32 := ticks_le
  have hone : f.ticks now tsc ≤ f.ticks now tsc * (f.tsc / f.bus) := Nat.le_mul_of_pos_right _ hpos
  have hmod : (tsc - now) % 2 ^ 32 < 2 ^ 32 := Nat.mod_lt _ (by decide)
  have hhalf : (tsc - now) % 2 ^ 32 + 2 ^ 32 ≤ tsc - now := by omega
  exact Nat.mul_le_mul (by omega) (Nat.mod_lt _ (Nat.pos_of_ne_zero hb)).le

/-- A deadline that is near: the ticks before the last one leave a tick and the
remainder. -/
theorem ticks_near (hd : tsc - now < 2 ^ 32) :
    f.ticks now tsc * (f.tsc % f.bus) ≤ (tsc - now - f.ticks now tsc * (f.tsc / f.bus)) * f.bus ↔
      ((tsc - now) / (f.tsc / f.bus) - 1) * (f.tsc % f.bus) ≤
        (f.tsc / f.bus + (tsc - now) % (f.tsc / f.bus)) * f.bus := by
  have hticks : f.ticks now tsc = (tsc - now) / (f.tsc / f.bus) - 1 := by rw [ticks, Nat.mod_eq_of_lt hd]
  rw [hticks]
  have hdiv : (tsc - now) / (f.tsc / f.bus) * (f.tsc / f.bus) + (tsc - now) % (f.tsc / f.bus) = tsc - now :=
    Nat.div_add_mod' _ _
  generalize f.tsc / f.bus = r at *
  cases hn : (tsc - now) / r with
  | zero => simp
  | succ n =>
    rw [hn, Nat.succ_mul] at hdiv
    have hleft : tsc - now - n * r = r + (tsc - now) % r := by omega
    rw [Nat.add_sub_cancel, hleft]

theorem timely_ahead_iff (hb : f.bus ≠ 0) (hr : f.bus ≤ f.tsc) (h : now < tsc) :
    now * f.bus + (f.ticks now tsc + 1) * f.tsc ≤ tsc * f.bus + f.tsc ↔ f.Clear now tsc := by
  rw [ahead_iff h]
  by_cases hd : tsc - now < 2 ^ 32
  · rw [ticks_near hd]
    exact ⟨fun hle _ => ⟨hr, fun _ => hle⟩, fun hc => (hc h).2 hd⟩
  · exact ⟨fun _ _ => ⟨hr, fun hlt => absurd hlt hd⟩, fun _ => ticks_far hb hr (not_lt.mp hd)⟩

theorem clear_of_dvd (hpos : 0 < f.tsc) (h : f.bus ∣ f.tsc) : f.Clear now tsc := by
  intro _
  rw [Nat.mod_eq_zero_of_dvd h, Nat.mul_zero]
  exact ⟨Nat.le_of_dvd hpos h, fun _ => Nat.zero_le _⟩

theorem timely_iff_clear (hb : f.bus ≠ 0) : f.Timely now tsc (max now tsc) ↔ f.Clear now tsc := by
  by_cases h : now < tsc
  · rw [max_eq_right h.le]
    constructor
    · rintro ⟨n, hset, -, hle⟩
      by_cases hr : f.bus ≤ f.tsc
      · rw [setTimer_ahead hb h hr] at hset
        obtain rfl : f.ticks now tsc + 1 = n := Write.icr.inj (Option.some.inj hset)
        exact (timely_ahead_iff hb hr h).mp hle
      · rw [setTimer_fault hb h (not_le.mp hr)] at hset
        cases hset
    · intro hc
      have hr := (hc h).1
      exact ⟨_, setTimer_ahead hb h hr, Nat.succ_pos _, (timely_ahead_iff hb hr h).mpr hc⟩
  · rw [max_eq_left (not_lt.mp h)]
    exact iff_of_true ⟨1, setTimer_past hb (not_lt.mp h), le_rfl, by rw [Nat.one_mul]⟩ fun hlt => absurd hlt h

theorem not_timely_past (hb : f.bus ≠ 0) (h : tsc < now) : ¬ f.Timely now tsc tsc := by
  rintro ⟨n, -, hn, hle⟩
  have hone := Nat.mul_le_mul_right f.tsc hn
  have hlt := Nat.mul_lt_mul_of_pos_right h (Nat.pos_of_ne_zero hb)
  omega

theorem Served.le (hb : f.bus ≠ 0) {t : Nat} (h : f.Served tsc now t) : t * f.bus ≤ max now tsc * f.bus + f.tsc := by
  induction h with
  | @due now n hc hset _ =>
    obtain ⟨m, hm, -, hle⟩ := (timely_iff_clear hb).mpr hc
    obtain rfl : n = m := Write.icr.inj (Option.some.inj (hset.symm.trans hm))
    refine le_trans ?_ hle
    rw [expiry, Nat.add_mul]
    exact Nat.add_le_add_left (Nat.div_mul_le_self _ _) _
  | @again now n t _ _ hlt _ ih =>
    rw [max_eq_right hlt.le] at ih
    exact ih.trans (Nat.add_le_add_right (Nat.mul_le_mul_right _ (le_max_right _ _)) _)

/-- In bus-clock mode: when the timer is in time for what is due now or later, when it
is in time for the deadline itself, and what follows for the first timeout. -/
theorem timer_timely_iff (hb : f.bus ≠ 0) (now tsc : Nat) :
    (f.Timely now tsc (max now tsc) ↔ f.Clear now tsc) ∧
      (f.Timely now tsc tsc ↔ now ≤ tsc ∧ f.Clear now tsc) ∧
      ∀ t, f.Served tsc now t → t * f.bus ≤ max now tsc * f.bus + f.tsc := by
  refine ⟨timely_iff_clear hb, ?_, fun t h => h.le hb⟩
  by_cases h : now ≤ tsc
  · have hiff : f.Timely now tsc (max now tsc) ↔ f.Clear now tsc := timely_iff_clear hb
    rw [max_eq_right h] at hiff
    rw [hiff, and_iff_right h]
  · exact iff_of_false (not_timely_past hb (not_le.mp h)) fun hc => h hc.1

theorem timer_timely_iff_far : (Freqs.mk 2400000 100000).Timely 5 10000000000 10000000000 := by
  have h := (timer_timely_iff (f := ⟨2400000, 100000⟩) (by decide) 5 10000000000).2.1
  exact h.mpr ⟨by decide, clear_of_dvd (by decide) (by decide)⟩

/-- Frequencies as they are measured: the ratio is 18.0, and the code divides by 17. -/
def measured : Freqs := ⟨2393999, 133001⟩

theorem measured_not_timely : ¬ measured.Timely 0 1000000000 1000000000 := by
  rintro ⟨n, hset, -, hle⟩
  have hn : measured.setTimer 0 1000000000 = some (.icr 58823529) := by decide
  obtain rfl : n = 58823529 := Write.icr.inj (Option.some.inj (hset.symm.trans hn))
  exact absurd hle (by decide)

end Freqs

end Tukija.Clock
