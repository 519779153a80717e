import Tukija.Pte.Lookup

/-! The pages of tables: each one that `walk` takes comes back once, if tables are
replaced only where they hold no tables. -/
namespace Tukija.Pte

variable {F : Format}

/-- A page comes back only while it is out, and is not handed out twice. -/
def Balanced : List (Event F) → Prop
  | [] => True
  | .alloc q :: log => q ∉ taken log ∧ Balanced log
  | .free q :: log => q ∈ taken log ∧ Balanced log

def Settled (log : List (Event F)) : Prop := Balanced log ∧ taken log = []

theorem Balanced.nodup {log : List (Event F)} (h : Balanced log) : (taken log).Nodup := by
  induction log with
  | nil => exact List.nodup_nil
  | cons e log ih =>
    cases e with
    | alloc q => exact List.nodup_cons.mpr ⟨h.1, ih h.2⟩
    | free q => exact (ih h.2).erase q

namespace Mem

def frees (m : Mem F) (qs : List F.Word) : Mem F := qs.foldl destroy m

theorem frees_append (m : Mem F) (qs rs : List F.Word) :
    m.frees (qs ++ rs) = (m.frees qs).frees rs := List.foldl_append

theorem page_frees (m : Mem F) (qs : List F.Word) : (m.frees qs).page = m.page := by
  induction qs generalizing m with
  | nil => rfl
  | cons q qs ih => exact (ih (m.destroy q)).trans rfl

theorem settled_frees {m : Mem F} {qs : List F.Word} (h : Balanced m.log) (hn : qs.Nodup)
    (hqs : ∀ q, q ∈ qs ↔ q ∈ taken m.log) : Settled (m.frees qs).log := by
  induction qs generalizing m with
  | nil =>
    refine ⟨h, List.eq_nil_iff_forall_not_mem.mpr ?_⟩
    intro q hq
    exact absurd ((hqs q).mpr hq) (List.not_mem_nil)
  | cons q qs ih =>
    obtain ⟨hq, hn⟩ := List.nodup_cons.mp hn
    refine ih ⟨(hqs q).mp (List.mem_cons_self ..), h⟩ hn ?_
    intro r
    change r ∈ qs ↔ r ∈ (taken m.log).erase q
    rw [h.nodup.mem_erase_iff, ← hqs r, List.mem_cons]
    constructor
    · intro hr
      refine ⟨?_, .inr hr⟩
      rintro rfl
      exact hq hr
    · rintro ⟨hne, rfl | hr⟩
      · exact absurd rfl hne
      · exact hr

/-- All tables are in their places, which are `good` for them, and the pages that
are out are those of tables. -/
structure Account (m : Mem F) (own : Places F) (good : F.Word → Nat → Nat → Prop) : Prop extends
    Owned m own where
  balanced : Balanced m.log
  held : ∀ q ∈ taken m.log, own q ≠ none
  good : ∀ q l c, own q = some (l, c) → good q l c
  root : m.val = 0 ∨ F.super m.val F.L = false

section Places

variable {m : Mem F} {own : Places F} {q t : F.Word} {l l' b c : Nat} {x : Loc F}

theorem Owned.at_above (h : Owned m own) (hq : own q = some (l', c)) (k : Nat)
    (hk : l' + 1 + k ≤ F.L) :
    ∃ x, At own (l' + 1 + k) (c / F.width ^ k) x ∧ Points (m.read x) (l' + 1 + k) := by
  induction k with
  | zero =>
    obtain ⟨x, hx, hp, -⟩ := h.parent q l' c hq
    exact ⟨x, by simpa using hx, hp⟩
  | succ k ih =>
    obtain ⟨x, hx, -⟩ := ih (by omega)
    rcases hx with ⟨hL, -, -⟩ | ⟨r, rfl, hr⟩
    · omega
    · obtain ⟨y, hy, hp, -⟩ := h.parent r _ _ hr
      rw [Nat.div_div_eq_div_mul, ← Nat.pow_succ] at hy
      exact ⟨y, hy, hp⟩

theorem Owned.table_unique (h : Owned m own) (hq : own q = some (l, c)) (ht : own t = some (l, c)) :
    q = t := by
  obtain ⟨x, hx, -, rfl⟩ := h.parent q l c hq
  obtain ⟨y, hy, -, rfl⟩ := h.parent t l c ht
  rw [h.at_unique hx hy]

theorem Owned.under_points (h : Owned m own) (hq : own q = some (l', c)) (hu : Under F l b l' c)
    (hx : At own l b x) : Points (m.read x) l := by
  obtain ⟨hl, rfl⟩ := hu
  have hle := h.at_le hx
  obtain ⟨y, hy, hp⟩ := h.at_above hq (l - 1 - l') (by omega)
  rw [show l' + 1 + (l - 1 - l') = l by omega] at hy hp
  rwa [h.at_unique hx hy]

theorem Owned.under_eq (h : Owned m own) (hq : own q = some (l', c)) (hu : Under F l b l' c)
    (hx : At own l b x)
    (hflat : ∀ i < F.width, ¬Points (m.read (.slot (F.addr (m.read x)) i)) (l - 1)) :
    F.addr (m.read x) = q := by
  have hp := h.under_points hq hu hx
  have hle := h.at_le hx
  obtain ⟨hl, hb⟩ := hu
  obtain ⟨l, rfl⟩ : ∃ k, l = k + 1 := ⟨l - 1, by omega⟩
  have ht := h.child l b x hx hp
  rcases Nat.lt_or_ge l' l with hlt | hge
  · -- on the way from the entry to `q` the table has a pointer
    obtain ⟨y, hy, hpy⟩ := h.at_above hq (l - 1 - l') (by omega)
    rw [show l' + 1 + (l - 1 - l') = l by omega] at hy hpy
    rcases hy with ⟨hL, -, -⟩ | ⟨r, rfl, hr⟩
    · omega
    · rw [Nat.div_div_eq_div_mul, ← Nat.pow_succ,
        show (l - 1 - l').succ = l + 1 - 1 - l' by omega, hb] at hr
      obtain rfl := h.table_unique hr ht
      exact absurd hpy (hflat _ (Nat.mod_lt _ (Nat.two_pow_pos F.B)))
  · obtain rfl : l' = l := by omega
    simp only [Nat.add_sub_cancel, Nat.sub_self, Nat.pow_zero, Nat.div_one] at hb
    subst hb
    exact h.table_unique ht hq

end Places

section Update

variable {m : Mem F} {own : Places F} {good : F.Word → Nat → Nat → Prop} {Y : Layout F} {t : Kind} {l b : Nat} {x : Loc F}
  {p s v : F.Word} {n o : Nat}

theorem val_write (m : Mem F) (x : Loc F) (w : F.Word) :
    (m.write x w).val = if x = .root then w else m.val := by
  cases x <;> rfl

theorem at_root_level (h : Owned m own) (hx : At own l b x) : x = .root ↔ l = F.L := by
  rcases hx with ⟨rfl, -, rfl⟩ | ⟨q, rfl, hq⟩
  · exact ⟨fun _ => rfl, fun _ => rfl⟩
  · have := h.level q _ _ hq
    constructor
    · intro h
      cases h
    · omega

theorem Account.grow {q : F.Word} (ht : Fresh Y q m.log) (h : Account m own good)
    (hx : At own (l + 1) b x) (h0 : m.read x = 0) (hb : good q l b) :
    Account (m.grow q x (l + 1)) (settle own q l b) good := by
  have hle := h.at_le hx
  refine ⟨h.toOwned.grow ht hx h0, ?_, ?_, ?_, ?_⟩
  · rw [log_grow]
    exact ⟨ht.notMem, h.balanced⟩
  · intro r hr
    rw [log_grow, taken, List.mem_cons] at hr
    by_cases hrq : r = q
    · subst hrq
      rw [settle_self]
      exact Option.some_ne_none _
    · rw [settle_of_ne hrq]
      exact h.held r (hr.resolve_left hrq)
  · intro r j c hr
    by_cases hrq : r = q
    · subst hrq
      rw [settle_self, Option.some.injEq, Prod.mk.injEq] at hr
      obtain ⟨rfl, rfl⟩ := hr
      exact hb
    · rw [settle_of_ne hrq] at hr
      exact h.good r j c hr
  · rw [Mem.grow, val_write]
    split
    · right
      rw [← (at_root_level h.toOwned hx).mp ‹_›]
      exact Y.super_pointer ht.page (Nat.succ_ne_zero l) hle
    · exact h.root

theorem drops_iff {w : F.Word} : drops w l t = true ↔ Points w l ∧ t ≠ .df := by
  simp only [drops, Points, Bool.and_eq_true, bne_iff_ne, Bool.not_eq_true']
  tauto

/-- What is replaced at an entry is no table, or a table that holds no tables. -/
def Flat (m : Mem F) (t : Kind) (l : Nat) (x : Loc F) : Prop :=
  Points (m.read x) l →
    t ≠ .df ∧ ∀ i < F.width, ¬Points (m.read (.slot (F.addr (m.read x)) i)) (l - 1)

theorem cut_eq_self (h : Owned m own) (hx : At own l b x) (hp : ¬Points (m.read x) l) (q : F.Word) :
    cut own l b q = own q := by
  cases hq : own q with
  | none => simp [cut, hq]
  | some c =>
    refine cut_eq_some.mpr ⟨hq, ?_⟩
    intro hu
    exact hp (h.under_points hq hu hx)

theorem Account.overwrite (h : Account m own good) (hx : At own l b x) (hw : ¬Points p l)
    (hroot : l < F.L ∨ p = 0) (hflat : Flat m t l x) :
    Account (overwrite l t x p m).2 (cut own l b) good := by
  have hval : (Mem.overwrite l t x p m).2.val = if x = .root then p else m.val := by
    rw [Mem.overwrite, val_write]
    congr 1
    split <;> rfl
  refine ⟨h.toOwned.set hx hw read_overwrite (out_overwrite h.toOwned hx), ?_, ?_, ?_, ?_⟩
  · rw [Mem.overwrite, log_write]
    split
    · obtain ⟨hp, -⟩ := drops_iff.mp ‹_›
      obtain ⟨l, rfl⟩ := Nat.exists_eq_succ_of_ne_zero hp.2.1
      refine ⟨h.out _ ?_, h.balanced⟩
      rw [h.child l b x hx hp]
      exact Option.some_ne_none _
    · exact h.balanced
  · intro q hq
    rw [Mem.overwrite, log_write] at hq
    by_cases hp : Points (m.read x) l
    · -- the page that is given back is the only one below the entry
      obtain ⟨ht, hflat⟩ := hflat hp
      rw [if_pos (drops_iff.mpr ⟨hp, ht⟩)] at hq
      obtain ⟨hne, hq⟩ := h.balanced.nodup.mem_erase_iff.mp hq
      obtain ⟨c, hc⟩ := Option.ne_none_iff_exists'.mp (h.held q hq)
      rw [cut_eq_some.mpr ⟨hc, fun hu => hne (h.under_eq hc hu hx hflat).symm⟩]
      exact Option.some_ne_none _
    · rw [if_neg fun hd => hp (drops_iff.mp hd).1] at hq
      rw [cut_eq_self h.toOwned hx hp]
      exact h.held q hq
  · intro q j c hq
    exact h.good q j c (cut_eq_some.mp hq).1
  · rw [hval]
    split
    · have hl := (at_root_level h.toOwned hx).mp ‹_›
      exact .inl (hroot.resolve_left (by omega))
    · exact h.root

theorem flat_overwrite {b' : Nat} {y : Loc F} {t' : Kind} (h : Owned m own) (hx : At own l b x)
    (hy : At own l b' y) (hne : b' ≠ b) (hflat : Flat m t' l y) :
    Flat (overwrite l t x p m).2 t' l y := by
  have hyx : y ≠ x := by
    rintro rfl
    exact hne (place_unique hy hx).2
  intro hp
  rw [read_overwrite, if_neg hyx] at hp ⊢
  obtain ⟨ht, hrest⟩ := hflat hp
  refine ⟨ht, ?_⟩
  intro i hi
  rw [read_overwrite, if_neg]
  · exact hrest i hi
  · -- the entry of a table on level `l - 1` is none on level `l`
    obtain ⟨l, rfl⟩ := Nat.exists_eq_succ_of_ne_zero hp.2.1
    rintro rfl
    have hchild := h.child l b' y hy hp
    rcases hx with ⟨-, -, hr⟩ | ⟨q, hr, hq⟩
    · cases hr
    · obtain ⟨rfl, -⟩ := Loc.slot.inj hr
      rw [hchild, Option.some.injEq, Prod.mk.injEq] at hq
      omega

theorem Account.fill {i : Nat} (flush : Bool) (h : Account m own good)
    (hx : ∀ j < n, At own l (b + j) (x.add (i + j)))
    (hw : ∀ j < n, ¬Points (p + BitVec.ofNat F.w j * s) l)
    (hroot : l < F.L ∨ ∀ j < n, p + BitVec.ofNat F.w j * s = 0)
    (hflat : ∀ j < n, Flat m t l (x.add (i + j))) :
    ∃ own', Account (fill l x t s n i p flush m).2 own' good := by
  induction n generalizing m own b i p flush with
  | zero => exact ⟨own, h⟩
  | succ n ih =>
    have hx0 : At own l b (x.add i) := hx 0 (Nat.succ_pos n)
    have hp0 : p + BitVec.ofNat F.w 0 * s = p := by simp
    have hw0 : ¬Points p l := hp0 ▸ hw 0 (Nat.succ_pos n)
    have hroot0 : l < F.L ∨ p = 0 := hroot.imp_right fun hr => hp0 ▸ hr 0 (Nat.succ_pos n)
    have h1 := h.overwrite hx0 hw0 hroot0 (hflat 0 (Nat.succ_pos n))
    have hstep : ∀ j, p + BitVec.ofNat F.w (j + 1) * s = p + s + BitVec.ofNat F.w j * s := by
      intro j
      rw [BitVec.ofNat_add, BitVec.add_mul, BitVec.one_mul, BitVec.add_comm (_ * s),
        BitVec.add_assoc]
    refine ih _ h1 (b := b + 1) (i := i + 1) (p := p + s) ?_ ?_ ?_ ?_
    · intro j hj
      have := at_cut (b := b) (hx (j + 1) (by omega))
      rwa [show b + 1 + j = b + (j + 1) by omega, show i + 1 + j = i + (j + 1) by omega]
    · intro j hj
      rw [← hstep]
      exact hw (j + 1) (by omega)
    · refine hroot.imp_right ?_
      intro hr j hj
      rw [← hstep]
      exact hr (j + 1) (by omega)
    · intro j hj
      have hxj := hx (j + 1) (by omega)
      have := flat_overwrite (p := p) (t := t) h.toOwned hx0 hxj (by omega) (hflat (j + 1) (by omega))
      rwa [show i + 1 + j = i + (j + 1) by omega]

variable {alloc : List (Event F) → Option F.Word} {m' : Mem F}

/-- The entry that `update` begins with, where it is there already. -/
def reached (m : Mem F) (v : F.Word) (n : Nat) (l : Nat) (e : Loc F) : Option (Loc F) :=
  (walk (fun _ => none) v n false l e m).bind Prod.fst

theorem reached_of_zero {e y : Loc F} (h0 : m.read e = 0) (h : reached m v n l e = some y) :
    y = e := by
  unfold reached at h
  cases l with
  | zero => exact (Option.some.inj h).symm
  | succ l =>
    by_cases hn : l + 1 = n
    · rw [Mem.walk, if_pos hn] at h
      exact (Option.some.inj h).symm
    · rw [Mem.walk, if_neg hn, if_pos h0] at h
      cases h

theorem Account.walk (hs : Supply Y alloc) {a : Bool} {e : Loc F} (hl : n ≤ l)
    (h : Account m own good) (he : At own l (pageOf v / F.width ^ l) e) (hg : ∀ log q, alloc log = some q → ∀ j, good q j (pageOf v / F.width ^ (j + 1)))
    (hc : Clear m (pageOf v) n) (hw : walk alloc v n a l e m = some (some x, m')) :
    ∃ own', Account m' own' good ∧ At own' n (pageOf v / F.width ^ n) x ∧
      (m' = m ∧ reached m v n l e = some x ∨ ∀ i, m'.read (x.add i) = 0) := by
  induction l generalizing e m own with
  | zero =>
    obtain rfl : n = 0 := by omega
    rw [Mem.walk, Option.some.injEq, Prod.mk.injEq, Option.some.injEq] at hw
    obtain ⟨rfl, rfl⟩ := hw
    exact ⟨own, h, he, .inl ⟨rfl, rfl⟩⟩
  | succ l ih =>
    by_cases hn : l + 1 = n
    · subst hn
      rw [Mem.walk, if_pos rfl, Option.some.injEq, Prod.mk.injEq, Option.some.injEq] at hw
      obtain ⟨rfl, rfl⟩ := hw
      refine ⟨own, h, he, .inl ⟨rfl, ?_⟩⟩
      rw [reached, Mem.walk, if_pos rfl]
      rfl
    have hln : n ≤ l := by omega
    have hlL : l < F.L := h.at_le he
    rw [Mem.walk, if_neg hn] at hw
    by_cases h0 : m.read e = 0
    · rw [if_pos h0] at hw
      cases a with
      | false => cases hw
      | true =>
        simp only [if_true] at hw
        obtain ⟨q, hq, hw⟩ := Option.bind_eq_some_iff.mp hw
        have ht := hs _ _ hq
        have hchild : child ((m.grow q e (l + 1)).read e) v l =
            .slot q (pageOf v / F.width ^ l % F.width) := by
          rw [child, read_grow_self, Y.addr_pointer ht.page (h.at_le he), index_eq Y hlL]
        rw [hchild] at hw
        have hc1 : Clear (m.grow q e (l + 1)) (pageOf v) n := by
          intro j w hj
          rw [h.leaf_grow ht he h0 (pageOf_lt v)] at hj
          exact hc j w hj
        obtain ⟨own', h', hx, hnew⟩ := ih hln (h.grow ht he h0 (hg _ _ hq l)) (at_child settle_self rfl) hc1 hw
        refine ⟨own', h', hx, .inr ?_⟩
        rcases hnew with ⟨rfl, hr⟩ | hnew
        · -- the walk ends in the table that has just been made
          rw [reached_of_zero (read_grow_new (h.at_ne_fresh ht he _)) hr]
          intro i
          exact read_grow_new (h.at_ne_fresh ht he _)
        · exact hnew
    · rw [if_neg h0] at hw
      have hp := hc.points h.toOwned he hln h0
      have he1 : At own l (pageOf v / F.width ^ l) (child (m.read e) v l) := by
        rw [child, index_eq Y hlL]
        exact h.at_child he hp
      obtain ⟨own', h', hx, hnew⟩ := ih hln h he1 hc hw
      refine ⟨own', h', hx, hnew.imp_left ?_⟩
      rintro ⟨rfl, hr⟩
      refine ⟨rfl, ?_⟩
      rw [reached, Mem.walk, if_neg hn, if_neg h0]
      exact hr

/-- A call of `update` that does not use a frame for a table or lose a table: no
leaf of a higher level is in its way, the object itself gets no leaf, and a table
is replaced only if it holds no tables, and not by `TYPE_DF`. -/
structure Careful (m : Mem F) (v : F.Word) (o : Nat) (a : F.Word) (t : Kind) : Prop where
  clear : Clear m (pageOf v) (o / F.B)
  root : o / F.B < F.L ∨ a = 0
  flat : ∀ x, reached m v (o / F.B) F.L .root = some x → ∀ j < 2 ^ (o % F.B),
    Flat m t (o / F.B) (x.add j)

local instance {α : Type} {P : α → Prop} [DecidablePred P] : (y : Option α) →
    Decidable (∀ x, y = some x → P x)
  | none => isTrue fun _ h => nomatch h
  | some x => decidable_of_iff (P x) ⟨fun h _ hx => Option.some.inj hx ▸ h, fun h => h x rfl⟩

instance (m : Mem F) (t : Kind) (l : Nat) (x : Loc F) : Decidable (Flat m t l x) :=
  inferInstanceAs (Decidable (_ → _ ∧ _))

instance (m : Mem F) (r n : Nat) : Decidable (Clear m r n) :=
  decidable_of_iff (∀ x, m.leaf r = some x → x.1 ≤ n)
    ⟨fun h l w => h (l, w), fun h x => h x.1 x.2⟩

instance (m : Mem F) (v : F.Word) (o : Nat) (a : F.Word) (t : Kind) :
    Decidable (Careful m v o a t) :=
  decidable_of_iff (Clear m (pageOf v) (o / F.B) ∧ (o / F.B < F.L ∨ a = 0) ∧
      ∀ x, reached m v (o / F.B) F.L .root = some x → ∀ j < 2 ^ (o % F.B), Flat m t (o / F.B) (x.add j))
    ⟨fun h => ⟨h.1, h.2.1, h.2.2⟩, fun h => ⟨h.clear, h.root, h.flat⟩⟩

theorem Account.update {a : F.Word} (hs : Supply Y alloc) (h : Account m own good)
    (ho : o ≤ F.L * F.B) (hv : 2 ^ (o + pageBits) ∣ v.toNat) (ha : a = 0 ∨ Mappable Y o p a)
    (hg : ∀ log q, alloc log = some q → ∀ j, good q j (pageOf v / F.width ^ (j + 1))) (hc : Careful m v o a t) {f : Bool}
    (hup : update alloc v o p a t m = some (f, m')) : ∃ own', Account m' own' good := by
  cases hw : Mem.walk alloc v (o / F.B) (t == .up) F.L .root m with
  | none =>
    simp only [Mem.update, hw] at hup
    cases hup
  | some res =>
    obtain ⟨x, m₁⟩ := res
    cases x with
    | none =>
      obtain ⟨x, m', own', hres, -⟩ | ⟨-, hres, -⟩ :=
        walk_spec hs (level_le ho) h.toOwned (at_root (pageOf_lt v)) hc.clear hw
      · cases hres
      · simp only [Mem.update, hw, Option.some.injEq] at hup
        obtain rfl : m₁ = m' := congrArg Prod.snd hup
        obtain rfl : m₁ = m := congrArg Prod.snd hres
        exact ⟨own, h⟩
    | some x =>
      obtain ⟨own₁, h₁, hx, hnew⟩ :=
        h.walk hs (level_le ho) (at_root (pageOf_lt v)) hg hc.clear hw
      have hrange : ∀ j < 2 ^ (o % F.B),
          At own₁ (o / F.B) (pageOf v / F.width ^ (o / F.B) + j) (x.add (0 + j)) := by
        intro j hj
        rw [Nat.zero_add]
        exact at_range ho hv Y hx hj
      have hflat : ∀ j < 2 ^ (o % F.B), Flat m₁ t (o / F.B) (x.add (0 + j)) := by
        intro j hj
        rw [Nat.zero_add]
        rcases hnew with ⟨rfl, hr⟩ | hnew
        · exact hc.flat x hr j hj
        · intro hp
          exact absurd (hnew j) hp.1
      by_cases ha0 : a = 0
      · simp only [Mem.update, hw, ha0, ne_eq, not_true_eq_false, if_false, Option.some.injEq] at hup
        obtain rfl : _ = m' := congrArg Prod.snd hup
        exact h₁.fill false hrange (fun j _ hp => hp.1 (by simp)) (.inr fun j _ => by simp) hflat
      · have hp := ha.resolve_left ha0
        simp only [Mem.update, hw, ha0, ne_eq, not_false_eq_true, if_true, Option.some.injEq] at hup
        obtain rfl : _ = m' := congrArg Prod.snd hup
        refine h₁.fill false hrange ?_ (.inl (hc.root.resolve_right ha0)) hflat
        intro j hj
        have := entry_not_points hp hj
        rwa [← entry_eq hp hj] at this

end Update

end Mem

end Tukija.Pte
