import Mathlib.Algebra.Group.Nat.Defs
import Tukija.Lib.Words

/-! `Cmdline`: the words of the command line set the parameters. -/
namespace Tukija.Boot

open Tukija.Lib.Words

inductive Param where
  | iommuAmd
  | iommuIntel
  | keyb
  | serial
  | spinner
  | vtlb
  | nodl
  | nopcid
  | vga
  | novpid
  | logmem
  | fpuLazy
  | hlt
  deriving DecidableEq, Repr

namespace Param

/-- `Cmdline::map`. -/
def all : List Param :=
  [iommuAmd, iommuIntel, keyb, serial, spinner, vtlb, nodl, nopcid, vga, novpid, logmem, fpuLazy, hlt]

def arg : Param → List Char
  | iommuAmd => ['i', 'o', 'm', 'm', 'u', '_', 'a', 'm', 'd']
  | iommuIntel => ['i', 'o', 'm', 'm', 'u', '_', 'i', 'n', 't', 'e', 'l']
  | keyb => ['k', 'e', 'y', 'b']
  | serial => ['s', 'e', 'r', 'i', 'a', 'l']
  | spinner => ['s', 'p', 'i', 'n', 'n', 'e', 'r']
  | vtlb => ['v', 't', 'l', 'b']
  | nodl => ['n', 'o', 'd', 'l']
  | nopcid => ['n', 'o', 'p', 'c', 'i', 'd']
  | vga => ['v', 'g', 'a']
  | novpid => ['n', 'o', 'v', 'p', 'i', 'd']
  | logmem => ['l', 'o', 'g', 'm', 'e', 'm']
  | fpuLazy => ['f', 'p', 'u', '_', 'l', 'a', 'z', 'y']
  | hlt => ['h', 'l', 't']

theorem mem_all (p : Param) : p ∈ all := by cases p <;> decide

end Param

/-- The characters of a string before the null at its end.  A pointer into the
string is what is left of them. -/
structure CString where
  chars : List Char
  noNul : '\x00' ∉ chars

/-- The loop of `strmatch`, with what is left of `n`. -/
def strmatchLoop : List Char → List Char → Nat → Nat
  | a :: s1, b :: s2, n + 1 => if a = b then strmatchLoop s1 s2 n else n + 1
  | _, _, n => n

def strmatch (s1 s2 : List Char) (n : Nat) : Bool := if n = 0 then false else strmatchLoop s1 s2 n == 0

/-- The first loop of `get_arg`. -/
def skipBlank : List Char → List Char
  | [] => []
  | c :: line => if c = ' ' then skipBlank line else c :: line

/-- The second loop of `get_arg`.  `len` is an `unsigned`. -/
def scanArg : List Char → BitVec 32 → BitVec 32 × List Char
  | [], len => (len, [])
  | c :: line, len => if c = ' ' then (len, c :: line) else scanArg line (len + 1)

/-- `Cmdline::get_arg`: the argument with its length, and the line behind it. -/
def getArg (line : List Char) : Option (List Char × BitVec 32 × List Char) :=
  let line := skipBlank line
  if line = [] then none else some (line, scanArg line 0)

abbrev Flags := Param → Bool

def setFlags (arg : List Char) (len : BitVec 32) (flags : Flags) : Flags :=
  Param.all.foldl (fun flags p => if strmatch p.arg arg len.toNat then Function.update flags p true else flags) flags

theorem scanArg_length_le (line : List Char) (len : BitVec 32) : (scanArg line len).2.length ≤ line.length := by
  induction line generalizing len with
  | nil => exact le_rfl
  | cons c line ih =>
    rw [scanArg]
    split
    · exact le_rfl
    · exact (ih _).trans (Nat.le_succ _)

theorem skipBlank_eq (line : List Char) : skipBlank line = line.dropWhile (· == ' ') := by
  induction line with
  | nil => rfl
  | cons c line ih =>
    rw [skipBlank, ih]
    by_cases h : c = ' '
    · rw [if_pos h, List.dropWhile_cons_of_pos (by simpa using h)]
    · rw [if_neg h, List.dropWhile_cons_of_neg (by simpa using h)]

theorem getArg_length {line arg rest : List Char} {len : BitVec 32} (h : getArg line = some (arg, len, rest)) :
    rest.length < line.length := by
  have hle : (skipBlank line).length ≤ line.length := by
    rw [skipBlank_eq]
    exact (List.dropWhile_suffix _).length_le
  unfold getArg at h
  dsimp only at h
  split at h
  · simp at h
  · rename_i hne
    simp only [Option.some.injEq, Prod.mk.injEq] at h
    obtain ⟨-, h⟩ := h
    cases hs : skipBlank line with
    | nil => exact absurd hs hne
    | cons c l =>
      have hc : c ≠ ' ' := by
        have := List.head?_dropWhile_not (· == ' ') line
        rw [← skipBlank_eq, hs] at this
        simpa using this
      rw [hs, scanArg, if_neg hc] at h
      have := scanArg_length_le l (0 + 1)
      rw [h] at this
      rw [hs] at hle
      exact this.trans_lt (Nat.lt_of_succ_le hle)

def init (line : List Char) (flags : Flags) : Flags :=
  match _h : getArg line with
  | none => flags
  | some (arg, len, rest) => init rest (setFlags arg len flags)
termination_by line.length
decreasing_by exact getArg_length _h

theorem init_of_none {line : List Char} (h : getArg line = none) (flags : Flags) : init line flags = flags := by
  rw [init]
  split
  · rfl
  · rename_i h'
    rw [h] at h'
    simp at h'

theorem init_of_some {line arg rest : List Char} {len : BitVec 32} (h : getArg line = some (arg, len, rest))
    (flags : Flags) : init line flags = init rest (setFlags arg len flags) := by
  rw [init]
  split
  · rename_i h'
    rw [h] at h'
    simp at h'
  · rename_i h'
    rw [h, Option.some.injEq, Prod.mk.injEq, Prod.mk.injEq] at h'
    obtain ⟨rfl, rfl, rfl⟩ := h'
    rfl

def off : Flags := fun _ => false

/-- The first `len` characters of the name are those of the word, where `len` is the
length of the word as an `unsigned`: a word that begins the name, or one of at least
`2 ^ 32` characters. -/
def Abbreviates (w name : List Char) : Prop :=
  w.length % 2 ^ 32 ≠ 0 ∧ w.take (w.length % 2 ^ 32) <+: name

instance (w name : List Char) : Decidable (Abbreviates w name) := by
  unfold Abbreviates
  infer_instance

theorem strmatchLoop_eq_zero (s1 s2 : List Char) (n : Nat) (hn : n ≤ s2.length) :
    strmatchLoop s1 s2 n = 0 ↔ s2.take n <+: s1 := by
  induction n generalizing s1 s2 with
  | zero =>
    have hz : strmatchLoop s1 s2 0 = 0 := by cases s1 <;> cases s2 <;> rfl
    simp [hz]
  | succ n ih =>
    cases s2 with
    | nil => simp at hn
    | cons b s2 =>
      rw [List.length_cons, Nat.add_le_add_iff_right] at hn
      cases s1 with
      | nil => simp [strmatchLoop]
      | cons a s1 =>
        rw [strmatchLoop, List.take_succ_cons, List.cons_prefix_cons]
        by_cases hab : a = b
        · rw [if_pos hab, ih s1 s2 hn]
          simp [hab]
        · rw [if_neg hab]
          simp [Ne.symm hab]

theorem strmatch_iff (name w rest : List Char) :
    strmatch name (w ++ rest) (w.length % 2 ^ 32) = true ↔ Abbreviates w name := by
  have hle : w.length % 2 ^ 32 ≤ w.length := Nat.mod_le _ _
  unfold strmatch Abbreviates
  generalize w.length % 2 ^ 32 = n at hle ⊢
  by_cases h0 : n = 0
  · simp [h0]
  · rw [if_neg h0, beq_iff_eq, strmatchLoop_eq_zero _ _ _ (hle.trans (by simp)), List.take_append_of_le_length hle]
    simp [h0]

theorem scanArg_eq (line : List Char) (len : BitVec 32) :
    scanArg line len =
      (len + BitVec.ofNat 32 (line.takeWhile (!· == ' ')).length, line.dropWhile (!· == ' ')) := by
  induction line generalizing len with
  | nil => simp [scanArg]
  | cons c line ih =>
    rw [scanArg]
    by_cases hc : c = ' '
    · simp [hc]
    · rw [if_neg hc, ih, List.takeWhile_cons_of_pos (by simpa using hc), List.dropWhile_cons_of_pos (by simpa using hc),
        List.length_cons, BitVec.ofNat_add, BitVec.add_assoc, BitVec.add_comm 1]
      rfl

theorem getArg_spec (line : List Char) :
    getArg line = none ∧ words (· == ' ') line = [] ∨
      ∃ w rest, getArg line = some (w ++ rest, BitVec.ofNat 32 w.length, rest) ∧
        words (· == ' ') line = w :: words (· == ' ') rest := by
  unfold getArg
  rw [← words_dropWhile line, skipBlank_eq]
  cases hs : line.dropWhile (· == ' ') with
  | nil => exact .inl ⟨rfl, words_nil⟩
  | cons c l =>
    have hc : (c == ' ') = false := by
      have := List.head?_dropWhile_not (· == ' ') line
      rw [hs] at this
      simpa using this
    have hword : words (· == ' ') (c :: l) = (c :: l.takeWhile (!· == ' ')) :: words (· == ' ') (l.dropWhile (!· == ' ')) :=
      words_of_head hc
    refine .inr ⟨c :: l.takeWhile (!· == ' '), l.dropWhile (!· == ' '), ?_, hword⟩
    dsimp only
    rw [if_neg (by simp), scanArg_eq, List.takeWhile_cons_of_pos (by simp [hc]), List.dropWhile_cons_of_pos (by simp [hc]),
      List.cons_append, List.takeWhile_append_dropWhile]
    simp

theorem setFlags_iff (arg : List Char) (len : BitVec 32) (flags : Flags) (p : Param) :
    setFlags arg len flags p = true ↔ flags p = true ∨ strmatch p.arg arg len.toNat = true := by
  have hgen : ∀ (ps : List Param) (flags : Flags),
      ps.foldl (fun flags p => if strmatch p.arg arg len.toNat then Function.update flags p true else flags) flags p =
        true ↔ flags p = true ∨ p ∈ ps ∧ strmatch p.arg arg len.toNat = true := by
    intro ps
    induction ps with
    | nil => simp
    | cons q ps ih =>
      intro flags
      rw [List.foldl_cons, ih, List.mem_cons]
      by_cases hq : strmatch q.arg arg len.toNat = true
      · rw [if_pos hq]
        by_cases hpq : p = q
        · subst hpq
          simp [hq]
        · simp [hpq]
      · rw [if_neg hq]
        by_cases hpq : p = q
        · subst hpq
          simp [hq]
        · simp [hpq]
  unfold setFlags
  rw [hgen]
  simp [Param.mem_all]

theorem init_iff (line : List Char) (flags : Flags) (p : Param) :
    init line flags p = true ↔ flags p = true ∨ ∃ w ∈ words (· == ' ') line, Abbreviates w p.arg := by
  induction line, flags using init.induct with
  | case1 line flags h =>
    rw [init_of_none h]
    rcases getArg_spec line with ⟨-, hw⟩ | ⟨w, rest, hg, -⟩
    · simp [hw]
    · rw [h] at hg
      simp at hg
  | case2 line flags arg len rest h ih =>
    rcases getArg_spec line with ⟨hg, -⟩ | ⟨w, rest', hg, hw⟩
    · rw [h] at hg
      simp at hg
    · rw [h, Option.some.injEq, Prod.mk.injEq, Prod.mk.injEq] at hg
      obtain ⟨rfl, rfl, rfl⟩ := hg
      rw [init_of_some h, ih, setFlags_iff, hw, BitVec.toNat_ofNat, strmatch_iff]
      simp [or_assoc]

theorem abbreviates_self (p : Param) : Abbreviates p.arg p.arg := by cases p <;> decide

/-- A parameter is set exactly if its name is a word, unless a word abbreviates the name of a
parameter that is not there. -/
theorem init_exact_iff (line : CString) :
    (∀ p : Param, init line.chars off p = true ↔ p.arg ∈ words (· == ' ') line.chars) ↔
      ∀ p : Param, ∀ w ∈ words (· == ' ') line.chars, Abbreviates w p.arg → p.arg ∈ words (· == ' ') line.chars := by
  have hoff : ∀ p : Param, init line.chars off p = true ↔ ∃ w ∈ words (· == ' ') line.chars, Abbreviates w p.arg := by
    intro p
    rw [init_iff]
    simp [off]
  constructor
  · intro h p w hw hab
    exact (h p).mp ((hoff p).mpr ⟨w, hw, hab⟩)
  · intro h p
    rw [hoff]
    constructor
    · rintro ⟨w, hw, hab⟩
      exact h p w hw hab
    · intro hp
      exact ⟨p.arg, hp, abbreviates_self p⟩

/-- A lone `v` turns on `vtlb`, and `vga` too. -/
theorem init_not_exact :
    ¬∀ (line : CString) (p : Param), init line.chars off p = true ↔ p.arg ∈ words (· == ' ') line.chars := by
  intro hall
  have hwords : words (· == ' ') ['v'] = [['v']] := words_of_head (by decide)
  have hset : init ['v'] off .vtlb = true := (init_iff _ _ _).mpr (.inr ⟨['v'], by simp [hwords], by decide⟩)
  have hmem := (hall ⟨['v'], by decide⟩ .vtlb).mp hset
  rw [hwords] at hmem
  exact absurd hmem (by decide)

end Tukija.Boot
