import Tukija.Pte.Pages

/-! `Pte::clear` gives back what is left. -/
namespace Tukija.Pte

variable {F : Format}

/-- `SPC_LOCAL_OBJ` on a processor of 64 bits. -/
def spcLocalObj : BitVec 64 := 0xffffffffe0000000

def destHpt (frame₀ frame₁ p _ : BitVec 64) (_ : Nat) : Bool := p != frame₀ && p != frame₁

def iterHptLev (l : Nat) (v : BitVec 64) : Bool :=
  let v := if v &&& 0x800000000000 != 0 then v ||| ~~~0xffffffffffff else v
  decide (2 ≤ l) || (l == 1 && decide (spcLocalObj ≤ v))

namespace Mem

/-- The tables below an entry on level `l` that holds `w`, as they are given back. -/
def below (m : Mem F) : Nat → F.Word → List F.Word
  | 0, _ => []
  | l + 1, w =>
    if Points w (l + 1) then
      (List.range F.width).flatMap (fun i => below m l (m.page (F.addr w) i)) ++ [F.addr w]
    else []

/-- The table at the first page from `b` on. -/
def virt (F : Format) (l b : Nat) : F.Word := BitVec.ofNat F.w (b * F.width ^ l * 2 ^ pageBits)

variable (d : Option (F.Word → F.Word → Nat → Bool)) (il : Option (Nat → F.Word → Bool))

/-- Callbacks that have each table given back and go down into those that hold
tables, for tables in places that are `good`. -/
structure Descends (good : F.Word → Nat → Nat → Prop) : Prop where
  gives : ∀ q j c v l, good q j c → d.elim true (fun d => d q v l) = true
  goes : ∀ q l b, good q l b →
    (il.elim (decide (1 < l + 1)) fun il => il (l + 1) (virt F (l + 1) b)) = decide (1 < l + 1)

theorem descends_none {good : F.Word → Nat → Nat → Prop} : Descends none none good :=
  ⟨fun _ _ _ _ _ _ => rfl, fun _ _ _ _ => rfl⟩

section Below

variable {m : Mem F} {own : Places F} {q : F.Word} {l b : Nat} {x : Loc F}

theorem under_succ {l' c : Nat} :
    Under F (l + 1) b l' c ↔ (l' = l ∧ c = b) ∨ ∃ i < F.width, Under F l (b * F.width + i) l' c := by
  have hpos : 0 < F.width := Nat.two_pow_pos F.B
  have hdiv : ∀ k, l' < l → (c / F.width ^ (l - 1 - l') = k → c / F.width ^ (l - l') = k / F.width) := by
    rintro k hl rfl
    rw [Nat.div_div_eq_div_mul, ← Nat.pow_succ, show (l - 1 - l').succ = l - l' by omega]
  unfold Under
  rw [Nat.add_sub_cancel]
  constructor
  · rintro ⟨hl, rfl⟩
    rcases Nat.lt_or_ge l' l with hlt | hge
    · refine .inr ⟨c / F.width ^ (l - 1 - l') % F.width, Nat.mod_lt _ hpos, hlt, ?_⟩
      rw [hdiv _ hlt rfl, Nat.mul_comm, Nat.div_add_mod]
    · obtain rfl : l' = l := by omega
      exact .inl ⟨rfl, by simp⟩
  · rintro (⟨rfl, rfl⟩ | ⟨i, hi, hlt, hc⟩)
    · simp
    · refine ⟨by omega, ?_⟩
      rw [hdiv _ hlt hc, Nat.mul_comm, Nat.mul_add_div hpos, Nat.div_eq_of_lt hi, Nat.add_zero]

theorem at_entry {t : F.Word} {i : Nat} (ht : own t = some (l, b)) (hi : i < F.width) :
    At own l (b * F.width + i) (.slot t i) := by
  have hpos : 0 < F.width := Nat.two_pow_pos F.B
  refine .inr ⟨t, ?_, ?_⟩
  · rw [Nat.mul_comm, Nat.mul_add_mod, Nat.mod_eq_of_lt hi]
  · rw [Nat.mul_comm, Nat.mul_add_div hpos, Nat.div_eq_of_lt hi, Nat.add_zero, ht]

theorem below_of_points {w : F.Word} (hp : Points w (l + 1)) :
    m.below (l + 1) w =
      (List.range F.width).flatMap (fun i => m.below l (m.page (F.addr w) i)) ++ [F.addr w] := by
  rw [below, if_pos hp]

theorem below_of_not_points {w : F.Word} (hp : ¬Points w l) : m.below l w = [] := by
  cases l with
  | zero => rfl
  | succ l => rw [below, if_neg hp]

theorem Owned.mem_below (h : Owned m own) (hx : At own l b x) :
    q ∈ m.below l (m.read x) ↔ ∃ l' c, own q = some (l', c) ∧ Under F l b l' c := by
  induction l generalizing b x with
  | zero =>
    constructor
    · intro hq
      cases hq
    · rintro ⟨l', c, -, hl, -⟩
      exact absurd hl (Nat.not_lt_zero l')
  | succ l ih =>
    by_cases hp : Points (m.read x) (l + 1)
    · have ht := h.child l b x hx hp
      rw [below_of_points hp, List.mem_append, List.mem_flatMap, List.mem_singleton]
      constructor
      · rintro (⟨i, hi, hq⟩ | rfl)
        · have hi := List.mem_range.mp hi
          obtain ⟨l', c, hq, hu⟩ := (ih (at_entry ht hi)).mp hq
          exact ⟨l', c, hq, under_succ.mpr (.inr ⟨i, hi, hu⟩)⟩
        · exact ⟨l, b, ht, under_succ.mpr (.inl ⟨rfl, rfl⟩)⟩
      · rintro ⟨l', c, hq, hu⟩
        rcases under_succ.mp hu with ⟨rfl, rfl⟩ | ⟨i, hi, hu⟩
        · exact .inr (h.table_unique hq ht)
        · exact .inl ⟨i, List.mem_range.mpr hi, (ih (at_entry ht hi)).mpr ⟨l', c, hq, hu⟩⟩
    · rw [below_of_not_points hp]
      constructor
      · intro hq
        cases hq
      · rintro ⟨l', c, hq, hu⟩
        exact absurd (h.under_points hq hu hx) hp

theorem Owned.nodup_below (h : Owned m own) (hx : At own l b x) :
    (m.below l (m.read x)).Nodup := by
  induction l generalizing b x with
  | zero => exact List.nodup_nil
  | succ l ih =>
    by_cases hp : Points (m.read x) (l + 1)
    · have ht := h.child l b x hx hp
      have hmem : ∀ {i q}, i < F.width → q ∈ m.below l (m.page (F.addr (m.read x)) i) →
          ∃ l' c, own q = some (l', c) ∧ Under F l (b * F.width + i) l' c :=
        fun hi hq => (h.mem_below (at_entry ht hi)).mp hq
      rw [below_of_points hp, List.nodup_append']
      refine ⟨?_, List.nodup_singleton _, ?_⟩
      · rw [List.nodup_flatMap]
        refine ⟨fun i hi => ih (at_entry ht (List.mem_range.mp hi)), ?_⟩
        refine List.Pairwise.imp_of_mem ?_ List.nodup_range
        intro i j hi hj hne q hqi hqj
        obtain ⟨l', c, hq, -, hc⟩ := hmem (List.mem_range.mp hi) hqi
        obtain ⟨l'', c', hq', -, hc'⟩ := hmem (List.mem_range.mp hj) hqj
        rw [hq, Option.some.injEq, Prod.mk.injEq] at hq'
        obtain ⟨rfl, rfl⟩ := hq'
        have := hc.symm.trans hc'
        omega
      · -- what is below the table is on a lower level
        intro q hq hqt
        obtain ⟨i, hi, hq⟩ := List.mem_flatMap.mp hq
        obtain ⟨l', c, hq, hl, -⟩ := hmem (List.mem_range.mp hi) hq
        rw [List.mem_singleton.mp hqt, ht, Option.some.injEq, Prod.mk.injEq] at hq
        omega
    · rw [below_of_not_points hp]
      exact List.nodup_nil

end Below

section Clear

variable {d : Option (F.Word → F.Word → Nat → Bool)} {il : Option (Nat → F.Word → Bool)}
  {m : Mem F} {good : F.Word → Nat → Nat → Prop} {l c : Nat} {t : F.Word}

theorem virt_add (l c i : Nat) :
    virt F (l + 1) c + BitVec.ofNat F.w i <<< (l * F.B + pageBits) =
      virt F l (c * F.width + i) := by
  have hone : BitVec.ofNat F.w i <<< (l * F.B + pageBits) =
      BitVec.ofNat F.w (i * 2 ^ (l * F.B + pageBits)) := by
    apply BitVec.eq_of_toNat_eq
    rw [BitVec.toNat_shiftLeft, BitVec.toNat_ofNat, Nat.shiftLeft_eq, BitVec.toNat_ofNat,
      Nat.mod_mul_mod]
  rw [virt, virt, hone, ← BitVec.ofNat_add, Nat.pow_add 2, ← width_pow]
  apply congrArg
  ring

/-- Tables in good places point to tables in good places. -/
def Closed (m : Mem F) (good : F.Word → Nat → Nat → Prop) : Prop :=
  ∀ t l c i, good t (l + 1) c → i < F.width → Points (m.page t i) (l + 1) →
    good (F.addr (m.page t i)) l (c * F.width + i)

variable (hd : Descends d il good) (hgood : Closed m good)

include hd hgood

theorem freeEntry_eq {below' : F.Word → F.Word → Mem F → Mem F} (ht : good t (l + 1) c) {i : Nat}
    (hi : i < F.width) {m' : Mem F} (hm : m'.page = m.page)
    (hbelow : l ≠ 0 → ∀ q, good q l (c * F.width + i) →
      below' q (virt F (l + 1) (c * F.width + i)) m' =
        m'.frees ((List.range F.width).flatMap fun j => m.below l (m.page q j))) :
    freeEntry d il below' (l + 1) t (virt F (l + 2) c) i m' =
      m'.frees (m.below (l + 1) (m.page t i)) := by
  unfold freeEntry
  rw [hm, virt_add]
  by_cases hp : Points (m.page t i) (l + 1)
  · have hq := hgood t l c i ht hi hp
    have hgive := hd.gives _ _ _ (virt F (l + 1) (c * F.width + i)) (l + 1) hq
    have hgo := hd.goes _ l (c * F.width + i) hq
    have hcond : (decide (m.page t i = 0) || F.super (m.page t i) (l + 1)) = false := by
      rw [hp.2.2, Bool.or_false, decide_eq_false_iff_not]
      exact hp.1
    simp only [hcond, Bool.false_eq_true, if_false, hgive, if_true, hgo, decide_eq_true_eq]
    rw [below_of_points hp, frees_append]
    by_cases hl : l = 0
    · subst hl
      have hnil : (List.range F.width).flatMap (fun j => m.below 0 (m.page (F.addr (m.page t i)) j)) =
          [] := List.flatMap_eq_nil_iff.mpr fun _ _ => rfl
      rw [if_neg (lt_irrefl 1), hnil]
      rfl
    · rw [if_pos (by omega), hbelow hl _ hq]
      rfl
  · have hcond : (decide (m.page t i = 0) || F.super (m.page t i) (l + 1)) = true := by
      by_contra hc
      rw [Bool.not_eq_true, Bool.or_eq_false_iff, decide_eq_false_iff_not] at hc
      exact hp ⟨hc.1, Nat.succ_ne_zero l, hc.2⟩
    rw [below_of_not_points hp]
    exact if_pos hcond

theorem freeLoop_eq {below' : F.Word → F.Word → Mem F → Mem F} (ht : good t (l + 1) c)
    (hbelow : l ≠ 0 → ∀ q b m', good q l b → m'.page = m.page →
      below' q (virt F (l + 1) b) m' =
        m'.frees ((List.range F.width).flatMap fun j => m.below l (m.page q j)))
    {n i : Nat} {m' : Mem F} (hm : m'.page = m.page) (hi : i + n ≤ F.width) :
    freeLoop d il below' (l + 1) t (virt F (l + 2) c) n i m' =
      m'.frees ((List.range' i n).flatMap fun i => m.below (l + 1) (m.page t i)) := by
  induction n generalizing i m' with
  | zero => rfl
  | succ n ih =>
    rw [freeLoop, freeEntry_eq hd hgood ht (by omega) hm fun hl q hq => hbelow hl q _ m' hq hm,
      ih ((page_frees _ _).trans hm) (by omega), ← frees_append]
    rfl

theorem freeUp_eq (ht : good t (l + 1) c) {m' : Mem F} (hm : m'.page = m.page) :
    freeUp d il (l + 1) t (virt F (l + 2) c) m' =
      m'.frees ((List.range F.width).flatMap fun i => m.below (l + 1) (m.page t i)) := by
  rw [List.range_eq_range']
  induction l generalizing t c m' with
  | zero =>
    refine freeLoop_eq hd hgood ht ?_ hm (by rw [Nat.zero_add]; rfl)
    intro h0
    exact absurd rfl h0
  | succ l ih =>
    refine freeLoop_eq hd hgood ht ?_ hm (by rw [Nat.zero_add]; rfl)
    intro _ q b m' hq hm
    rw [List.range_eq_range']
    exact ih hq hm

theorem clear_eq (hL : 1 < F.L) (hroot : m.val = 0 ∨ F.super m.val F.L = false)
    (htop : Points m.val F.L → good (F.addr m.val) (F.L - 1) 0) :
    clear d il m = m.frees (m.below F.L m.val) := by
  obtain ⟨k, hk⟩ : ∃ k, F.L = k + 2 := ⟨F.L - 2, by omega⟩
  unfold clear
  split
  · rename_i h0
    rw [below_of_not_points fun hp => hp.1 h0]
    rfl
  · rename_i h0
    have hp : Points m.val (k + 2) := ⟨h0, Nat.succ_ne_zero _, hk ▸ hroot.resolve_left h0⟩
    have ht : good (F.addr m.val) (k + 1) 0 := by
      rw [hk] at htop
      exact htop hp
    have hv : (0 : F.Word) = virt F (k + 2) 0 := by simp [virt]
    rw [hk, below_of_points hp, frees_append]
    change destroy (freeUp d il (k + 1) (F.addr m.val) 0 m) (F.addr m.val) = _
    rw [hv, freeUp_eq hd hgood ht rfl]
    rfl

omit hgood in
theorem settled_clear {own : Places F} (h : Account m own good) (hL : 1 < F.L) :
    Settled (clear d il m).log := by
  have hroot : At own F.L 0 .root := .inl ⟨rfl, rfl, rfl⟩
  have hplaces : Descends d il fun q l c => own q = some (l, c) :=
    ⟨fun q j c v l hq => hd.gives q j c v l (h.good q j c hq),
      fun q l b hq => hd.goes q l b (h.good q l b hq)⟩
  have hclosed : Closed m fun q l c => own q = some (l, c) :=
    fun t l c i ht hi hp => h.child l _ _ (at_entry ht hi) hp
  have htop : Points m.val F.L → own (F.addr m.val) = some (F.L - 1, 0) := by
    intro hp
    have hone : F.L - 1 + 1 = F.L := by omega
    refine h.child (F.L - 1) 0 .root ?_ ?_ <;> rw [hone]
    · exact hroot
    · exact hp
  rw [clear_eq hplaces hclosed hL h.root htop]
  refine settled_frees h.balanced (h.toOwned.nodup_below hroot) ?_
  intro q
  refine (h.toOwned.mem_below hroot).trans ?_
  constructor
  · rintro ⟨l', c, hq, -⟩
    exact h.out q (by rw [hq]; simp)
  · intro hq
    obtain ⟨⟨l', c⟩, hq⟩ := Option.ne_none_iff_exists'.mp (h.held q hq)
    have hl := h.level q l' c hq
    refine ⟨l', c, hq, hl, ?_⟩
    -- the entry on the highest level that leads to `q` is the object itself
    obtain ⟨x, hx, -⟩ := h.at_above hq (F.L - 1 - l') (by omega)
    rw [show l' + 1 + (F.L - 1 - l') = F.L by omega] at hx
    rcases hx with ⟨-, hb, -⟩ | ⟨r, -, hr⟩
    · exact hb
    · have := h.level r _ _ hr
      omega

end Clear

end Mem

/-- A call of `Pte::update`. -/
structure Call (F : Format) where
  v : F.Word
  o : Nat
  p : F.Word
  a : F.Word
  t : Kind

/-- An aligned range and entries that the format can hold. -/
structure Call.Valid (Y : Layout F) (c : Call F) : Prop where
  le : c.o ≤ F.L * F.B
  aligned : 2 ^ (c.o + pageBits) ∣ c.v.toNat
  entry : c.a = 0 ∨ Mem.Mappable Y c.o c.p c.a

/-- Runs of calls that are `ok`, from a page table without tables. -/
inductive Updates (Y : Layout F) (alloc : List (Event F) → Option F.Word)
    (ok : Mem F → Call F → Prop) : Mem F → Prop
  | start {m : Mem F} (hval : m.val = 0) (hlog : m.log = []) : Updates Y alloc ok m
  | step {m m' : Mem F} {c : Call F} {f : Bool} (h : Updates Y alloc ok m) (hc : c.Valid Y)
      (hok : ok m c) (he : Mem.update alloc c.v c.o c.p c.a c.t m = some (f, m')) :
      Updates Y alloc ok m'

/-- A page that was supplied, for a table of pages below `limit`. -/
def Placed (alloc : List (Event F) → Option F.Word) (limit : Nat) (q : F.Word) (l c : Nat) : Prop :=
  (∃ log, alloc log = some q) ∧ c * F.width ^ (l + 1) < limit

/-- Calls that lose no table, for pages below `limit`. -/
def Call.Careful (limit : Nat) (m : Mem F) (c : Call F) : Prop :=
  Mem.Careful m c.v c.o c.a c.t ∧ Mem.pageOf c.v < limit

/-- Calls one after the other, as long as they are `ok`. -/
def Call.run (alloc : List (Event F) → Option F.Word) (ok : Mem F → Call F → Prop)
    [∀ m c, Decidable (ok m c)] : List (Call F) → Mem F → Option (Mem F)
  | [], m => some m
  | c :: cs, m =>
    if ok m c then (Mem.update alloc c.v c.o c.p c.a c.t m).bind fun r => run alloc ok cs r.2 else none

theorem Updates.run {Y : Layout F} {alloc : List (Event F) → Option F.Word}
    {ok : Mem F → Call F → Prop} [∀ m c, Decidable (ok m c)] {cs : List (Call F)} {m m' : Mem F}
    (h : Updates Y alloc ok m) (hcs : ∀ c ∈ cs, c.Valid Y) (hr : Call.run alloc ok cs m = some m') :
    Updates Y alloc ok m' := by
  induction cs generalizing m with
  | nil =>
    obtain rfl := Option.some.inj hr
    exact h
  | cons c cs ih =>
    obtain ⟨hc, hcs⟩ := List.forall_mem_cons.mp hcs
    rw [Call.run] at hr
    split at hr
    · obtain ⟨⟨f, m₁⟩, he, hr⟩ := Option.bind_eq_some_iff.mp hr
      exact ih (h.step hc ‹_› he) hcs hr
    · cases hr

instance (limit : Nat) (m : Mem F) (c : Call F) : Decidable (c.Careful limit m) :=
  inferInstanceAs (Decidable (_ ∧ _))

theorem Updates.account {Y : Layout F} {alloc : List (Event F) → Option F.Word} {limit : Nat}
    {m : Mem F} (hs : Supply Y alloc) (h : Updates Y alloc (Call.Careful limit) m) :
    ∃ own, Mem.Account m own (Placed alloc limit) := by
  induction h with
  | start hval hlog =>
    refine ⟨fun _ => none, ⟨by simp, ?_, by simp, by simp⟩, ?_, ?_, by simp, .inl hval⟩
    · rintro l b x (⟨-, -, rfl⟩ | ⟨q, -, hq⟩) hp
      · exact absurd hval hp.1
      · cases hq
    · rw [hlog]
      trivial
    · rw [hlog]
      exact fun q hq => absurd hq List.not_mem_nil
  | step _ hc hok he ih =>
    obtain ⟨own, hm⟩ := ih
    refine hm.update hs hc.le hc.aligned hc.entry ?_ hok.1 he
    intro log q hq j
    exact ⟨⟨log, hq⟩, lt_of_le_of_lt (Nat.div_mul_le_self _ _) hok.2⟩

theorem Instance.one_lt_depth (i : Instance) : 1 < i.format.L := by
  cases i <;> decide

/-- After every run of careful calls, `clear` leaves no page of a table behind and
gives back no other page. -/
theorem careful_settled (i : Instance) {alloc : List (Event i.format) → Option i.format.Word}
    (hs : Supply i.layout alloc) {limit : Nat}
    {d : Option (i.format.Word → i.format.Word → Nat → Bool)}
    {il : Option (Nat → i.format.Word → Bool)} (hd : Mem.Descends d il (Placed alloc limit))
    {m : Mem i.format} (h : Updates i.layout alloc (Call.Careful limit) m) :
    Settled (Mem.clear d il m).log := by
  obtain ⟨own, hm⟩ := h.account hs
  exact Mem.settled_clear hd hm i.one_lt_depth

section Hpt

variable {alloc : List (Event Format.hpt) → Option (BitVec 64)} {frame₀ frame₁ : BitVec 64}

/-- The number of the page at `SPC_LOCAL_OBJ`. -/
def objPage : Nat := 0xffffe0000

theorem iterHptLev_one {n : Nat} (hn : n < objPage) :
    iterHptLev 1 (BitVec.ofNat 64 (n * 2 ^ pageBits)) = false := by
  change iterHptLev 1 (BitVec.ofNat 64 (n * 4096)) = false
  have hlt : n * 4096 < 0xffffe0000000 := by
    unfold objPage at hn
    omega
  have hnat : (BitVec.ofNat 64 (n * 4096)).toNat = n * 4096 := by
    rw [BitVec.toNat_ofNat]
    omega
  have hhigh : (BitVec.ofNat 64 (n * 4096) ||| ~~~0xffffffffffff).toNat =
      2 ^ 48 * 0xffff + n * 4096 := by
    have hnot : (~~~0xffffffffffff : BitVec 64).toNat = 2 ^ 48 * 0xffff := by decide
    rw [BitVec.toNat_or, hnat, hnot, Nat.two_pow_add_eq_or_of_lt (by omega), Nat.or_comm]
  have hobj : spcLocalObj.toNat = 0xffffffffe0000000 := by decide
  have hv : ∀ P : Prop, [Decidable P] → ¬spcLocalObj ≤ (if P then
      BitVec.ofNat 64 (n * 4096) ||| ~~~0xffffffffffff else BitVec.ofNat 64 (n * 4096)) := by
    intro P _
    rw [BitVec.le_def, hobj]
    split
    · rw [hhigh]
      omega
    · rw [hnat]
      omega
  unfold iterHptLev
  simp only [hv, decide_false, Bool.and_false, Bool.or_false]
  decide

theorem iterHptLev_of_two_le {l : Nat} (hl : 2 ≤ l) (v : BitVec 64) : iterHptLev l v = true := by
  unfold iterHptLev
  rw [decide_eq_true hl, Bool.true_or]

/-- The callbacks of `Pd::~Pd` have all tables given back that are not those of
capabilities. -/
theorem descends_hpt (hframe : ∀ log, alloc log ≠ some frame₀ ∧ alloc log ≠ some frame₁) :
    Mem.Descends (F := Format.hpt) (some (destHpt frame₀ frame₁)) (some iterHptLev)
      (Placed alloc objPage) := by
  constructor
  · rintro q j c v l ⟨⟨log, hq⟩, -⟩
    have hne : q ≠ frame₀ ∧ q ≠ frame₁ := by
      constructor
      · rintro rfl
        exact (hframe log).1 hq
      · rintro rfl
        exact (hframe log).2 hq
    change (q != frame₀ && q != frame₁) = true
    rw [Bool.and_eq_true, bne_iff_ne, bne_iff_ne]
    exact hne
  · rintro q l b ⟨-, hb⟩
    cases l with
    | zero => exact iterHptLev_one hb
    | succ l =>
      have h2 : 2 ≤ l + 2 := by omega
      exact (iterHptLev_of_two_le h2 (Mem.virt Format.hpt (l + 2) b)).trans (decide_eq_true h2).symm

end Hpt

/-- The `Pd` goes after a superpage has replaced a table for a page. -/
theorem careful_settled_superpage :
    ∃ m : Mem Format.hpt, m.log.length = 5 ∧
      Settled (Mem.clear (some (destHpt 0x1000 0x2000)) (some iterHptLev) m).log := by
  have hframes : ∀ q ∈ ([0x3000, 0x4000, 0x5000, 0x6000] : List (BitVec 64)),
      q &&& 0x3ffffffffffff000 = q ∧ q ≠ 0 := by
    simp
  have hs : Supply Layout.hpt (firstFree [0x3000, 0x4000, 0x5000, 0x6000]) :=
    supply_firstFree hframes
  have hframe : ∀ log, firstFree (F := Format.hpt) [0x3000, 0x4000, 0x5000, 0x6000] log ≠ some 0x1000 ∧
      firstFree (F := Format.hpt) [0x3000, 0x4000, 0x5000, 0x6000] log ≠ some 0x2000 := by
    intro log
    constructor <;> exact fun h => absurd (List.mem_of_find?_eq_some h) (by decide)
  obtain ⟨m, hrun, hlog⟩ := Option.bind_eq_some_iff.mp (by decide +kernel :
    ((Call.run (firstFree [0x3000, 0x4000, 0x5000, 0x6000]) (Call.Careful objPage)
      [⟨0x5000, 0, 0x9000, 7, .up⟩, ⟨0x5000, 0, 0, 0, .dn⟩, ⟨0, 9, 0x200000, 7, .up⟩]
      (⟨0, fun _ _ => 0, []⟩ : Mem Format.hpt)).bind fun m => some m.log.length) = some 5)
  refine ⟨m, Option.some.inj hlog, careful_settled .hpt hs (descends_hpt hframe) ?_⟩
  refine (Updates.start rfl rfl).run ?_ hrun
  refine List.forall_mem_cons.mpr ⟨?_, List.forall_mem_cons.mpr ⟨?_, List.forall_mem_cons.mpr ⟨?_,
    fun _ h => absurd h List.not_mem_nil⟩⟩⟩
  · exact ⟨by decide, by decide, .inr ⟨by decide, by decide, by decide +kernel⟩⟩
  · exact ⟨by decide, by decide, .inl rfl⟩
  · exact ⟨by decide, by decide, .inr ⟨by decide, by decide, by decide +kernel⟩⟩

/-- A superpage replaces a table that holds a table. -/
theorem nested_lost :
    ¬∀ m : Mem Format.ept,
      Updates Layout.ept (firstFree [0x1000, 0x2000, 0x3000, 0x4000]) (fun _ _ => True) m →
        Settled (Mem.clear none none m).log := by
  intro h
  obtain ⟨m, hrun, hlost⟩ := Option.bind_eq_some_iff.mp (by decide +kernel :
    ((Call.run (firstFree [0x1000, 0x2000, 0x3000, 0x4000]) (fun _ _ => True)
      [⟨0x5000, 0, 0x9000, 7, .up⟩, ⟨0x5000, 0, 0, 0, .dn⟩, ⟨0, 18, 0x40000000, 7, .up⟩]
      (⟨0, fun _ _ => 0, []⟩ : Mem Format.ept)).bind fun m =>
        some (Format.ept.super m.val 4, taken (m.frees (m.below 4 m.val)).log)) =
          some (false, [0x4000]))
  obtain ⟨hroot, htaken⟩ := Prod.mk.inj (Option.some.inj hlost)
  have hm : Updates Layout.ept (firstFree [0x1000, 0x2000, 0x3000, 0x4000]) (fun _ _ => True) m := by
    refine (Updates.start rfl rfl).run ?_ hrun
    refine List.forall_mem_cons.mpr ⟨?_, List.forall_mem_cons.mpr ⟨?_, List.forall_mem_cons.mpr ⟨?_,
      fun _ h => absurd h List.not_mem_nil⟩⟩⟩
    · exact ⟨by decide, by decide, .inr ⟨by decide, by decide, by decide +kernel⟩⟩
    · exact ⟨by decide, by decide, .inl rfl⟩
    · exact ⟨by decide, by decide, .inr ⟨by decide, by decide, by decide +kernel⟩⟩
  have hnone := (h m hm).2
  have hd : Mem.Descends (F := Format.ept) none none fun _ _ _ => True := Mem.descends_none
  have hclosed : Mem.Closed m fun _ _ _ => True := fun _ _ _ _ _ _ _ => trivial
  rw [Mem.clear_eq hd hclosed (by decide) (.inr hroot) fun _ => trivial] at hnone
  cases htaken.symm.trans hnone

end Tukija.Pte
