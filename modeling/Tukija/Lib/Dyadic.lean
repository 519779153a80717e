import Mathlib

/-! Blocks of `2 ^ ord` integers that start at a multiple of their size.  Two of
them are nested or disjoint; sets of disjoint ones in which no two halves of a
larger block are left over are determined by what they cover. -/
namespace Tukija.Lib.Dyadic

/-- The block number `num` among those of its size. -/
@[ext] structure Block where
  num : Int
  ord : Nat
  deriving DecidableEq, Repr

namespace Block

variable {a b c : Block} {i j : Int}

def size (b : Block) : Int := 2 ^ b.ord

def start (b : Block) : Int := b.num * b.size

instance : Membership Int Block := ⟨fun b i => i / b.size = b.num⟩

def buddy (b : Block) : Block := ⟨if b.num % 2 = 0 then b.num + 1 else b.num - 1, b.ord⟩

def parent (b : Block) : Block := ⟨b.num / 2, b.ord + 1⟩

def lower (b : Block) : Block := ⟨2 * b.num, b.ord - 1⟩

theorem mem_def : i ∈ b ↔ i / b.size = b.num := Iff.rfl

theorem size_pos (b : Block) : 0 < b.size := by
  unfold size
  positivity

theorem mem_iff : i ∈ b ↔ b.start ≤ i ∧ i < b.start + b.size := by
  have hpos := b.size_pos
  have hdiv := Int.ediv_mul_add_emod i b.size
  have hnn := Int.emod_nonneg i hpos.ne'
  have hlt := Int.emod_lt_of_pos i hpos
  rw [mem_def, start]
  constructor
  · intro h
    rw [h] at hdiv
    omega
  · rintro ⟨h1, h2⟩
    rw [Int.ediv_eq_iff_of_pos hpos]
    constructor <;> linarith

theorem start_mem (b : Block) : b.start ∈ b := by
  have := b.size_pos
  rw [mem_iff]
  omega

theorem ext_of_start (hs : a.start = b.start) (ho : a.ord = b.ord) : a = b := by
  have hsize : a.size = b.size := by rw [size, size, ho]
  have hnum : a.num = b.num := by
    rw [start, start, hsize] at hs
    exact mul_right_cancel₀ b.size_pos.ne' hs
  exact Block.ext hnum ho

theorem size_dvd_start (b : Block) : b.size ∣ b.start := Dvd.intro_left _ rfl

@[simp] theorem ord_buddy : b.buddy.ord = b.ord := rfl

@[simp] theorem size_buddy : b.buddy.size = b.size := rfl

@[simp] theorem ord_parent : b.parent.ord = b.ord + 1 := rfl

theorem size_parent : b.parent.size = 2 * b.size := by
  simp only [size, ord_parent]
  ring

theorem buddy_ne : b.buddy ≠ b := by
  intro h
  have := congrArg num h
  simp only [buddy] at this
  split at this <;> omega

theorem buddy_buddy : b.buddy.buddy = b := by
  apply Block.ext
  · simp only [buddy]
    split <;> split <;> omega
  · rfl

theorem parent_buddy : b.buddy.parent = b.parent := by
  apply Block.ext
  · simp only [buddy, parent]
    split <;> omega
  · rfl

theorem buddy_start :
    b.buddy.start = if b.num % 2 = 0 then b.start + b.size else b.start - b.size := by
  simp only [start, size_buddy]
  simp only [buddy]
  split <;> ring

theorem parent_start : b.parent.start = min b.start b.buddy.start := by
  have hpos := b.size_pos
  rw [buddy_start]
  simp only [start, size_parent]
  simp only [parent]
  split
  · rename_i heven
    have : b.num / 2 * (2 * b.size) = b.num * b.size := by
      rw [← mul_assoc, Int.ediv_mul_cancel (Int.dvd_of_emod_eq_zero heven)]
    omega
  · rename_i hodd
    have hdiv : b.num = b.num / 2 * 2 + 1 := by omega
    have : b.num / 2 * (2 * b.size) = b.num * b.size - b.size := by
      nth_rewrite 2 [hdiv]
      ring
    omega

theorem mem_parent_iff : i ∈ b.parent ↔ i ∈ b ∨ i ∈ b.buddy := by
  have hparent : i / b.parent.size = i / b.size / 2 := by
    rw [size_parent, mul_comm, Int.ediv_ediv_of_nonneg b.size_pos.le]
  simp only [mem_def, hparent, size_buddy]
  simp only [parent, buddy]
  generalize i / b.size = q
  split <;> omega

theorem eq_of_mem_of_ord_eq (ha : i ∈ a) (hb : i ∈ b) (ho : a.ord = b.ord) : a = b := by
  apply Block.ext _ ho
  rw [← mem_def.mp ha, ← mem_def.mp hb, size, size, ho]

theorem notMem_buddy (h : i ∈ b) : i ∉ b.buddy := fun h' =>
  buddy_ne (eq_of_mem_of_ord_eq h' h rfl)

theorem mem_of_mem_of_le (ha : i ∈ a) (hb : i ∈ b) (ho : a.ord ≤ b.ord) (hj : j ∈ a) : j ∈ b := by
  obtain ⟨k, hk⟩ := Nat.exists_eq_add_of_le ho
  have hsize : b.size = a.size * 2 ^ k := by
    rw [size, size, hk, pow_add]
  have hdiv : ∀ n : Int, n / b.size = n / a.size / 2 ^ k := by
    intro n
    rw [hsize, Int.ediv_ediv_of_nonneg a.size_pos.le]
  rw [mem_def] at *
  rw [hdiv, hj, ← ha, ← hdiv, hb]

theorem parent_subset_of_lt (ha : i ∈ a) (hb : i ∈ b) (ho : a.ord < b.ord) (hj : j ∈ a.parent) :
    j ∈ b := by
  have hi : i ∈ a.parent := mem_parent_iff.mpr (.inl ha)
  exact mem_of_mem_of_le hi hb ho hj

theorem ord_le_of_subset (h : ∀ i ∈ a, i ∈ b) : a.ord ≤ b.ord := by
  by_contra hlt
  have hup : b.buddy.start ∈ a :=
    parent_subset_of_lt (h _ a.start_mem) a.start_mem (Nat.lt_of_not_le hlt)
      (mem_parent_iff.mpr (.inr b.buddy.start_mem))
  exact notMem_buddy (h _ hup) b.buddy.start_mem

theorem start_eq_of_le (h : b.start ∈ a) (ho : a.ord ≤ b.ord) : a.start = b.start := by
  have h1 := mem_iff.mp h
  have h2 := mem_iff.mp (mem_of_mem_of_le h b.start_mem ho a.start_mem)
  omega

theorem ord_lower (h : 0 < b.ord) : b.lower.ord + 1 = b.ord := by
  simp only [lower]
  omega

theorem parent_lower (h : 0 < b.ord) : b.lower.parent = b := by
  apply Block.ext
  · simp only [parent, lower]
    omega
  · simp only [parent, lower]
    omega

theorem lower_start (h : 0 < b.ord) : b.lower.start = b.start := by
  have hsize : b.size = 2 * b.lower.size := by
    rw [← size_parent, parent_lower h]
  simp only [start, hsize]
  simp only [lower]
  ring

theorem buddy_lower_start (h : 0 < b.ord) : b.lower.buddy.start = b.start + 2 ^ (b.ord - 1) := by
  rw [buddy_start, if_pos (by simp [lower]), lower_start h]
  rfl

end Block

section Words

theorem ofInt_two_pow (k : Nat) : BitVec.ofInt 64 ((2 : Int) ^ k) = BitVec.twoPow 64 k := by
  apply BitVec.eq_of_toNat_eq
  rw [BitVec.toNat_twoPow]
  norm_cast

theorem xor_eq_add_of_and_eq_zero {x y : BitVec 64} (h : x &&& y = 0#64) : x ^^^ y = x + y := by
  have hor : x ^^^ y = x ||| y := by
    apply BitVec.eq_of_getLsbD_eq
    intro i hi
    have hi := congrArg (BitVec.getLsbD · i) h
    simp only [BitVec.getLsbD_and, BitVec.getLsbD_zero] at hi
    simp only [BitVec.getLsbD_xor, BitVec.getLsbD_or]
    cases hx : x.getLsbD i <;> cases hy : y.getLsbD i <;> simp_all
  rw [hor, BitVec.add_eq_or_of_and_eq_zero _ _ h]

theorem xor_twoPow_of_even {b : Block} (h : b.num % 2 = 0) :
    BitVec.ofInt 64 b.start ^^^ BitVec.twoPow 64 b.ord = BitVec.ofInt 64 (b.start + b.size) := by
  have hzero : BitVec.ofInt 64 b.start &&& BitVec.twoPow 64 b.ord = 0#64 := by
    have hstart : b.start = b.num / 2 * 2 ^ (b.ord + 1) := by
      rw [Block.start, Block.size, pow_succ', ← mul_assoc,
        Int.ediv_mul_cancel (Int.dvd_of_emod_eq_zero h)]
    rw [hstart, BitVec.ofInt_mul, ofInt_two_pow, BitVec.mul_twoPow_eq_shiftLeft]
    apply BitVec.eq_of_getLsbD_eq
    intro i hi
    simp only [BitVec.getLsbD_and, BitVec.getLsbD_shiftLeft, BitVec.getLsbD_twoPow,
      BitVec.getLsbD_zero]
    by_cases hio : b.ord = i <;> simp [hio]
  rw [xor_eq_add_of_and_eq_zero hzero, BitVec.ofInt_add, Block.size, ofInt_two_pow]

/-- Flipping the bit of the order leads from a block to its buddy, also below
zero. -/
theorem xor_twoPow (b : Block) :
    BitVec.ofInt 64 b.start ^^^ BitVec.twoPow 64 b.ord = BitVec.ofInt 64 b.buddy.start := by
  by_cases h : b.num % 2 = 0
  · rw [xor_twoPow_of_even h, Block.buddy_start, if_pos h]
  · have hb : b.buddy.num % 2 = 0 := by
      simp only [Block.buddy, if_neg h]
      omega
    have hx := xor_twoPow_of_even hb
    have hs : b.buddy.start + b.buddy.size = b.start := by
      rw [Block.buddy_start, if_neg h, Block.size_buddy]
      ring
    rw [hs] at hx
    rw [← hx, BitVec.xor_assoc, Block.ord_buddy, BitVec.xor_self, BitVec.xor_zero]

theorem toInt_ofInt_of_lt {i : Int} (h1 : -2 ^ 63 ≤ i) (h2 : i < 2 ^ 63) :
    (BitVec.ofInt 64 i).toInt = i := by
  rw [BitVec.toInt_ofInt]
  apply Int.bmod_eq_of_le
  · simp only [Nat.cast_pow]
    omega
  · simp only [Nat.cast_pow]
    omega

end Words

def Apart (F : Set Block) : Prop := ∀ a ∈ F, ∀ b ∈ F, ∀ i : Int, i ∈ a → i ∈ b → a = b

/-- No two halves of a block of order below `n`. -/
def Coalesced (n : Nat) (F : Set Block) : Prop := ∀ b ∈ F, b.ord + 1 < n → b.buddy ∉ F

def covered (F : Set Block) : Set Int := {i | ∃ b ∈ F, i ∈ b}

/-- A block of order below `n` inside `S` that lies in no other such block. -/
structure Maximal (n : Nat) (S : Set Int) (b : Block) : Prop where
  ord_lt : b.ord < n
  subset : ∀ i ∈ b, i ∈ S
  maximal : ∀ c : Block, c.ord < n → (∀ i ∈ c, i ∈ S) → (∀ i ∈ b, i ∈ c) → c = b

section Tiling

variable {F G : Set Block} {n : Nat} {b : Block}

theorem Apart.start_ne (h : Apart F) {a : Block} (ha : a ∈ F) (hb : b ∈ F) (hne : a ≠ b) :
    a.start ≠ b.start := fun he =>
  hne (h a ha b hb a.start a.start_mem (he ▸ b.start_mem))

theorem Apart.fuse (h : Apart F) (hb : b ∈ F) (hc : b.buddy ∈ F) :
    Apart (insert b.parent (F \ {b, b.buddy})) := by
  have hout : ∀ a ∈ F \ {b, b.buddy}, ∀ i ∈ a, i ∉ b.parent := by
    rintro a ⟨ha, hne⟩ i hia hip
    rcases Block.mem_parent_iff.mp hip with hi | hi
    · exact hne (.inl (h a ha b hb i hia hi))
    · exact hne (.inr (h a ha b.buddy hc i hia hi))
  rintro x (rfl | hx) y (rfl | hy) i hix hiy
  · rfl
  · exact absurd hix (hout y hy i hiy)
  · exact absurd hiy (hout x hx i hix)
  · exact h x hx.1 y hy.1 i hix hiy

theorem covered_fuse (hb : b ∈ F) (hc : b.buddy ∈ F) :
    covered (insert b.parent (F \ {b, b.buddy})) = covered F := by
  ext i
  constructor
  · rintro ⟨x, rfl | hx, hi⟩
    · rcases Block.mem_parent_iff.mp hi with hi | hi
      · exact ⟨b, hb, hi⟩
      · exact ⟨b.buddy, hc, hi⟩
    · exact ⟨x, hx.1, hi⟩
  · rintro ⟨x, hx, hi⟩
    by_cases hxb : x = b ∨ x = b.buddy
    · refine ⟨b.parent, .inl rfl, Block.mem_parent_iff.mpr ?_⟩
      rcases hxb with rfl | rfl
      · exact .inl hi
      · exact .inr hi
    · exact ⟨x, .inr ⟨hx, hxb⟩, hi⟩

theorem Apart.halve (h : Apart F) (hb : b ∈ F) (hpos : 0 < b.ord) :
    Apart (insert b.lower (insert b.lower.buddy (F \ {b}))) := by
  have hmem : ∀ i, i ∈ b ↔ i ∈ b.lower ∨ i ∈ b.lower.buddy := by
    intro i
    rw [← Block.mem_parent_iff, Block.parent_lower hpos]
  have hout : ∀ a ∈ F \ {b}, ∀ i ∈ a, i ∉ b.lower ∧ i ∉ b.lower.buddy := by
    rintro a ⟨ha, hne⟩ i hia
    have hib : i ∉ b := fun hib => hne (h a ha b hb i hia hib)
    rw [hmem] at hib
    tauto
  rintro x (rfl | rfl | hx) y (rfl | rfl | hy) i hix hiy
  · rfl
  · exact absurd hiy (Block.notMem_buddy hix)
  · exact absurd hix (hout y hy i hiy).1
  · exact absurd hix (Block.notMem_buddy hiy)
  · rfl
  · exact absurd hix (hout y hy i hiy).2
  · exact absurd hiy (hout x hx i hix).1
  · exact absurd hiy (hout x hx i hix).2
  · exact h x hx.1 y hy.1 i hix hiy

theorem covered_halve (hb : b ∈ F) (hpos : 0 < b.ord) :
    covered (insert b.lower (insert b.lower.buddy (F \ {b}))) = covered F := by
  have hmem : ∀ i, i ∈ b ↔ i ∈ b.lower ∨ i ∈ b.lower.buddy := by
    intro i
    rw [← Block.mem_parent_iff, Block.parent_lower hpos]
  ext i
  constructor
  · rintro ⟨x, rfl | rfl | hx, hi⟩
    · exact ⟨b, hb, (hmem i).mpr (.inl hi)⟩
    · exact ⟨b, hb, (hmem i).mpr (.inr hi)⟩
    · exact ⟨x, hx.1, hi⟩
  · rintro ⟨x, hx, hi⟩
    by_cases hxb : x = b
    · subst hxb
      rcases (hmem i).mp hi with hi | hi
      · exact ⟨_, .inl rfl, hi⟩
      · exact ⟨_, .inr (.inl rfl), hi⟩
    · exact ⟨x, .inr (.inr ⟨hx, hxb⟩), hi⟩

theorem Coalesced.mono (h : Coalesced n F) (hs : G ⊆ F) : Coalesced n G :=
  fun b hb ho hbuddy => h b (hs hb) ho (hs hbuddy)

theorem Coalesced.insert (h : Coalesced n F) (hb : b.ord + 1 < n → b.buddy ∉ F) :
    Coalesced n (insert b F) := by
  rintro x (rfl | hx) ho (hbuddy | hbuddy)
  · exact Block.buddy_ne hbuddy
  · exact hb ho hbuddy
  · have hxb : x = b.buddy := by rw [← hbuddy, Block.buddy_buddy]
    subst hxb
    exact hb ho hx
  · exact h x hx ho hbuddy

/-- A covered block lies in a single member: its two halves do, and they would
not be left apart. -/
theorem exists_above (hc : Coalesced n F) {c : Block} (ho : c.ord < n)
    (hcov : ∀ i ∈ c, i ∈ covered F) : ∃ b ∈ F, c.ord ≤ b.ord ∧ ∀ i ∈ c, i ∈ b := by
  obtain ⟨num, ord⟩ := c
  induction ord generalizing num with
  | zero =>
    obtain ⟨b, hb, hsb⟩ := hcov _ (Block.start_mem _)
    exact ⟨b, hb, Nat.zero_le _, fun i hi =>
      Block.mem_of_mem_of_le (Block.start_mem _) hsb (Nat.zero_le _) hi⟩
  | succ k ih =>
    generalize hcdef : (⟨num, k + 1⟩ : Block) = c at *
    have hk : c.ord = k + 1 := by rw [← hcdef]
    have hpos : 0 < c.ord := by omega
    have hlo : c.lower.ord = k := by
      have := Block.ord_lower hpos
      omega
    have hmem : ∀ i, i ∈ c ↔ i ∈ c.lower ∨ i ∈ c.lower.buddy := by
      intro i
      rw [← Block.mem_parent_iff, Block.parent_lower hpos]
    -- the two halves
    obtain ⟨x, hx, hxo, hxs⟩ : ∃ b ∈ F, c.lower.ord ≤ b.ord ∧ ∀ i ∈ c.lower, i ∈ b := by
      have := ih c.lower.num (by dsimp; omega)
      rw [← hlo] at this
      exact this fun i hi => hcov i ((hmem i).mpr (.inl hi))
    obtain ⟨y, hy, hyo, hys⟩ : ∃ b ∈ F, c.lower.ord ≤ b.ord ∧ ∀ i ∈ c.lower.buddy, i ∈ b := by
      have := ih c.lower.buddy.num (by dsimp; omega)
      rw [← hlo] at this
      exact this fun i hi => hcov i ((hmem i).mpr (.inr hi))
    have habove : ∀ b : Block, c.lower.ord < b.ord → (∃ i ∈ c, i ∈ b) →
        c.ord ≤ b.ord ∧ ∀ i ∈ c, i ∈ b := by
      rintro b hlt ⟨i, hic, hib⟩
      have hle : c.ord ≤ b.ord := by omega
      exact ⟨hle, fun j hj => Block.mem_of_mem_of_le hic hib hle hj⟩
    rcases Nat.lt_or_eq_of_le hxo with hlt | heq
    · exact ⟨x, hx, habove x hlt
        ⟨_, (hmem _).mpr (.inl (Block.start_mem _)), hxs _ (Block.start_mem _)⟩⟩
    rcases Nat.lt_or_eq_of_le hyo with hlt | heq'
    · exact ⟨y, hy, habove y hlt
        ⟨_, (hmem _).mpr (.inr (Block.start_mem _)), hys _ (Block.start_mem _)⟩⟩
    have hxeq : x = c.lower :=
      Block.eq_of_mem_of_ord_eq (hxs _ (Block.start_mem _)) (Block.start_mem _) heq.symm
    have hyeq : y = c.lower.buddy :=
      Block.eq_of_mem_of_ord_eq (hys _ (Block.start_mem _)) (Block.start_mem _) heq'.symm
    subst hxeq
    exact absurd (hyeq ▸ hy) (hc _ hx (by omega))

theorem mem_iff_maximal (ha : Apart F) (hc : Coalesced n F) (ho : ∀ b ∈ F, b.ord < n) (b : Block) :
    b ∈ F ↔ Maximal n (covered F) b := by
  constructor
  · intro hb
    refine ⟨ho b hb, fun i hi => ⟨b, hb, hi⟩, ?_⟩
    intro c hco hcc hbc
    obtain ⟨d, hd, -, hcd⟩ := exists_above hc hco hcc
    obtain rfl : b = d := ha b hb d hd b.start b.start_mem (hcd _ (hbc _ b.start_mem))
    exact Block.eq_of_mem_of_ord_eq (hbc _ b.start_mem) b.start_mem
      (le_antisymm (Block.ord_le_of_subset hcd) (Block.ord_le_of_subset hbc))
  · intro hb
    obtain ⟨d, hd, -, hbd⟩ := exists_above hc hb.ord_lt hb.subset
    have := hb.maximal d (ho d hd) (fun i hi => ⟨d, hd, hi⟩) hbd
    exact this ▸ hd

end Tiling

end Tukija.Lib.Dyadic
