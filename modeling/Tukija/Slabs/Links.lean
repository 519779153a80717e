import Tukija.Slabs.Layout

/-! The free lists as they are in memory: a slab knows its first link, and each
link holds the address of the next one. -/
namespace Tukija.Slabs

open Tukija.Lib.Word Tukija.Lib.Bytes

/-- `Slab::head` of each slab, and the memory. -/
structure Words where
  head : SlabId → Mword
  mem : Mem

variable {g : Geometry} {k s e a : Nat} {o : Obj} {m m' : Mem} {w : Words} {h : Mword} {c c' : Cache} {l : List Nat}

def slabWord (s : SlabId) : Mword := BitVec.ofNat 64 (pageAddr s)

namespace Words

/-- The loop of `Slab::Slab`. -/
def linkAll (buff : Mword) : Nat → Mword → Mword → Mem → Mword × Mem
  | 0, _, head, m => (head, m)
  | i + 1, link, head, m => linkAll buff i (link - buff) link (store m link.toNat head)

/-- `Slab::Slab`. -/
def build (g : Geometry) (s : SlabId) (w : Words) : Words :=
  let r := linkAll g.buff g.elem.toNat (slabWord s + BitVec.ofNat 64 pageSize - g.buff + g.size) 0 w.mem
  ⟨Function.update w.head s r.1, r.2⟩

/-- `Slab::alloc`. -/
def take (g : Geometry) (s : SlabId) (w : Words) : Mword × Words :=
  (w.head s - g.size, { w with head := Function.update w.head s (load w.mem (w.head s).toNat) })

/-- `Slab::free`, for a slab that has `avail` free elements. -/
def put (g : Geometry) (ptr : Mword) (avail : Nat) (w : Words) : Words :=
  if g.elem.toNat ≤ avail then w
  else
    let s := ptr.toNat / pageSize
    let link := ptr + g.size
    ⟨Function.update w.head s link, store w.mem link.toNat (w.head s)⟩

def alloc (g : Geometry) (page : SlabId) (grown : Bool) (s : SlabId) (w : Words) : Mword × Words :=
  (if grown then w.build g page else w).take g s

end Words

/-- The caches and memories that come about.  Callers write what they like to the
objects they have, and so does everybody to what is outside of the slabs. -/
inductive Served (g : Geometry) (elemSize : Nat) : Cache → Words → Prop
  | new (w : Words) : Served g elemSize (.new g.elem.toNat) w
  | alloc {c c' : Cache} {w : Words} {p : SlabId} {o : Obj} {grown : Bool} (h : Served g elemSize c w)
      (hp : p ∉ c.pages) (hw : p < 2 ^ 52) (hc : c.alloc p = .ok (o, c', grown)) :
      Served g elemSize c' (w.alloc g p grown o.1).2
  | free {c c' : Cache} {w : Words} {o : Obj} {gone : Bool} (h : Served g elemSize c w) (ho : o ∈ c.live)
      (hc : c.free o = .ok (c', gone)) :
      Served g elemSize c' (w.put g (BitVec.ofNat 64 (g.objAddr o)) (c.avail o.1))
  | write {c : Cache} {w : Words} {o : Obj} {a : Nat} (h : Served g elemSize c w) (ho : o ∈ c.live)
      (ha : g.objAddr o ≤ a ∧ a < g.objAddr o + elemSize) (b : BitVec 8) :
      Served g elemSize c { w with mem := Function.update w.mem a b }
  | other {c : Cache} {w : Words} {a : Nat} (h : Served g elemSize c w)
      (ha : ∀ s ∈ c.pages, a < pageAddr s ∨ pageAddr s + pageSize ≤ a) (b : BitVec 8) :
      Served g elemSize c { w with mem := Function.update w.mem a b }

theorem Served.reached (h : Served g k c w) : Reached g.elem.toNat c := by
  induction h with
  | new => exact .new
  | alloc _ hp _ hc ih => exact ih.alloc hp hc
  | free _ ho hc ih => exact ih.free ho hc
  | write _ _ _ _ ih => exact ih
  | other _ _ _ ih => exact ih

namespace Geometry

/-- The link of an object, as `Slab::Slab` gets to it. -/
def linkWord (g : Geometry) (o : Obj) : Mword :=
  slabWord o.1 + BitVec.ofNat 64 pageSize - g.buff + g.size - BitVec.ofNat 64 o.2 * g.buff

theorem Fits.toNat_linkWord (hf : g.Fits k) (hs : s < 2 ^ 52) (he : e < g.elem.toNat) :
    (g.linkWord (s, e)).toNat = g.linkAddr (s, e) := by
  have hoff := hf.offset_le he
  have hlink := hf.link
  have hmul : (BitVec.ofNat 64 e * g.buff).toNat = e * g.buff.toNat := by
    rw [Nat.succ_mul] at hoff
    simp only [headerSize, pageSize] at hoff
    have he' : e < 2 ^ 64 := by omega
    rw [BitVec.toNat_mul, BitVec.toNat_ofNat, Nat.mod_eq_of_lt he', Nat.mod_eq_of_lt (by omega)]
  simp only [linkWord, linkAddr, objAddr, slabWord, pageAddr, headerSize, pageSize, BitVec.toNat_sub,
    BitVec.toNat_add, BitVec.toNat_ofNat, hmul] at *
  rw [Nat.succ_mul] at *
  omega

theorem linkWord_sub (g : Geometry) (s j : Nat) : g.linkWord (s, j) - g.buff = g.linkWord (s, j + 1) := by
  simp only [linkWord, BitVec.ofNat_add, BitVec.add_mul, BitVec.one_mul]
  exact sub_sub _ _ _

theorem linkWord_zero (g : Geometry) (s : Nat) :
    slabWord s + BitVec.ofNat 64 pageSize - g.buff + g.size = g.linkWord (s, 0) := by
  simp [linkWord]

theorem Fits.linkWord_sub_size (hf : g.Fits k) (hs : s < 2 ^ 52) (he : e < g.elem.toNat) :
    g.linkWord (s, e) - g.size = BitVec.ofNat 64 (g.objAddr (s, e)) := by
  apply BitVec.eq_of_toNat_eq
  have hlink := hf.toNat_linkWord hs he
  have hlt := (g.linkWord (s, e)).isLt
  rw [BitVec.toNat_sub, BitVec.toNat_ofNat, hlink]
  unfold linkAddr at *
  omega

theorem Fits.objAddr_back (hf : g.Fits k) (hs : s < 2 ^ 52) (he : e < g.elem.toNat) :
    (BitVec.ofNat 64 (g.objAddr (s, e)) : Mword).toNat / pageSize = s ∧
      BitVec.ofNat 64 (g.objAddr (s, e)) + g.size = g.linkWord (s, e) := by
  refine ⟨?_, ?_⟩
  · have hin := hf.buff_inside (o := (s, e)) he
    have hlink := hf.link
    have hlt : g.objAddr (s, e) < 2 ^ 64 := by
      have := hf.toNat_linkWord hs he
      have := (g.linkWord (s, e)).isLt
      unfold linkAddr at *
      omega
    rw [BitVec.toNat_ofNat, Nat.mod_eq_of_lt hlt]
    simp only [pageAddr, pageSize, headerSize] at *
    omega
  · rw [← hf.linkWord_sub_size hs he, sub_add_cancel]

/-- The links from `h` on are those of the free elements `l`. -/
def Threaded (g : Geometry) (m : Mem) (s : SlabId) : Mword → List Nat → Prop
  | h, [] => h = 0
  | h, e :: l => h = g.linkWord (s, e) ∧ Threaded g m s (load m h.toNat) l

theorem Fits.threaded_congr (hf : g.Fits k) (hs : s < 2 ^ 52) (hl : ∀ e ∈ l, e < g.elem.toNat)
    (hm : ∀ e ∈ l, load m' (g.linkAddr (s, e)) = load m (g.linkAddr (s, e))) (ht : g.Threaded m s h l) :
    g.Threaded m' s h l := by
  induction l generalizing h with
  | nil => exact ht
  | cons e l ih =>
    obtain ⟨rfl, ht⟩ := ht
    refine ⟨rfl, ?_⟩
    rw [hf.toNat_linkWord hs (hl e (by simp))] at ht ⊢
    rw [hm e (by simp)]
    exact ih (fun x hx => hl x (by simp [hx])) (fun x hx => hm x (by simp [hx])) ht

/-- The loop of the constructor puts one element after the other in front, and
writes to their links only. -/
theorem Fits.linkAll_threaded (hf : g.Fits k) (hs : s < 2 ^ 52) (i j : Nat) (hij : i + j = g.elem.toNat)
    (ht : g.Threaded m s h (List.range j).reverse) :
    g.Threaded (Words.linkAll g.buff i (g.linkWord (s, j)) h m).2 s (Words.linkAll g.buff i (g.linkWord (s, j)) h m).1
        (List.range g.elem.toNat).reverse ∧
      ∀ a, (∀ e < g.elem.toNat, Apart (g.linkAddr (s, e)) 8 a 8) →
        load (Words.linkAll g.buff i (g.linkWord (s, j)) h m).2 a = load m a := by
  induction i generalizing j h m with
  | zero =>
    obtain rfl : j = g.elem.toNat := by omega
    exact ⟨ht, fun _ _ => rfl⟩
  | succ i ih =>
    have hj : j < g.elem.toNat := by omega
    have haddr := hf.toNat_linkWord hs hj
    have hfront : g.Threaded (store m (g.linkWord (s, j)).toNat h) s (g.linkWord (s, j)) (List.range (j + 1)).reverse := by
      rw [List.range_succ, List.reverse_concat]
      refine ⟨rfl, ?_⟩
      rw [load_store]
      refine hf.threaded_congr hs ?_ ?_ ht
      · intro e he
        have := List.mem_range.mp (List.mem_reverse.mp he)
        omega
      · intro e he
        have hlt := List.mem_range.mp (List.mem_reverse.mp he)
        rw [haddr]
        refine load_store_of_apart (hf.link_apart (o := (s, j)) (p := (s, e)) hj (show e < _ by omega) ?_)
        intro heq
        have := (Prod.mk.inj heq).2
        omega
    obtain ⟨h1, h2⟩ := ih (j + 1) (by omega) hfront
    rw [Words.linkAll, linkWord_sub]
    refine ⟨h1, fun a ha => (h2 a ha).trans ?_⟩
    rw [haddr]
    exact load_store_of_apart (ha j hj)

end Geometry

/-- The memory has the free lists of the cache. -/
structure Threads (g : Geometry) (c : Cache) (w : Words) : Prop where
  page : ∀ s ∈ c.pages, s < 2 ^ 52
  threaded : ∀ s ∈ c.pages, g.Threaded w.mem s (w.head s) (c.freeList s)

theorem Cache.Lists.free_lt {A B : List SlabId} (hl : c.Lists A B) (hs : s ∈ c.pages) :
    ∀ e ∈ c.freeList s, e < c.elem :=
  fun e he => (((hl.holds.stocked s ((hl.holds.pages s).mp hs)).mem e).mp he).1

namespace Threads

variable {A B : List SlabId}

theorem frame (hf : g.Fits k) (ht : Threads g c w) (hl : c.Lists A B) (hg : c.elem = g.elem.toNat)
    (hm : ∀ s ∈ c.pages, ∀ e < g.elem.toNat, load m' (g.linkAddr (s, e)) = load w.mem (g.linkAddr (s, e))) :
    Threads g c { w with mem := m' } := by
  refine ⟨ht.page, fun s hs => ?_⟩
  have hlt : ∀ e ∈ c.freeList s, e < g.elem.toNat := fun e he => hg ▸ hl.free_lt hs e he
  exact hf.threaded_congr (ht.page s hs) hlt (fun e he => hm s hs e (hlt e he)) (ht.threaded s hs)

theorem build (hf : g.Fits k) (ht : Threads g c w) (hl : c.Lists A B) (hg : c.elem = g.elem.toNat) (hs : s ∉ c.pages)
    (hw : s < 2 ^ 52) : Threads g (c.grow s) (w.build g s) := by
  have hne : ∀ x ∈ c.pages, x ≠ s := fun x hx hxs => hs (hxs ▸ hx)
  obtain ⟨hnew, hold⟩ := hf.linkAll_threaded (m := w.mem) (h := 0) hw g.elem.toNat 0 (Nat.add_zero _) rfl
  have hhead : ∀ x ∈ c.pages, (w.build g s).head x = w.head x := fun x hx => Function.update_of_ne (hne x hx) ..
  have hself : (w.build g s).head s = (Words.linkAll g.buff g.elem.toNat (g.linkWord (s, 0)) 0 w.mem).1 := by
    rw [← Geometry.linkWord_zero]
    exact Function.update_self ..
  have hfl := fun x => congrFun (Cache.contents_grow c s).2 x
  have hmem : (w.build g s).mem = (Words.linkAll g.buff g.elem.toNat (g.linkWord (s, 0)) 0 w.mem).2 := by
    unfold Words.build
    rw [Geometry.linkWord_zero]
  refine ⟨fun x hx => ?_, fun x hx => ?_⟩
  · rcases Finset.mem_insert.mp (Cache.pages_grow ▸ hx) with rfl | hx
    · exact hw
    · exact ht.page x hx
  · rcases Finset.mem_insert.mp (Cache.pages_grow ▸ hx) with rfl | hx
    · rw [hfl, Cache.freeList_set, if_pos rfl, hmem, hself, Cache.newSlab, hg]
      exact hnew
    · have hlt : ∀ e ∈ c.freeList x, e < g.elem.toNat := fun e he => hg ▸ hl.free_lt hx e he
      rw [hfl, Cache.freeList_set, if_neg (hne x hx), hhead x hx, hmem]
      refine hf.threaded_congr (ht.page x hx) hlt (fun e he => hold _ fun i hi => ?_) (ht.threaded x hx)
      exact hf.link_apart (o := (s, i)) (p := (x, e)) hi (hlt e he) fun heq => hne x hx (Prod.mk.inj heq).1.symm

theorem take (hf : g.Fits k) (ht : Threads g c w) (hl : c.Lists A B) (hg : c.elem = g.elem.toNat) (ho : o.1 ∈ c.pages)
    (htook : Cache.Took c c' o) :
    Threads g c' (w.take g o.1).2 ∧ (w.take g o.1).1 = BitVec.ofNat 64 (g.objAddr o) := by
  obtain ⟨s, e⟩ := o
  have hthread := ht.threaded s ho
  rw [htook.first] at hthread
  obtain ⟨hhead, hrest⟩ := hthread
  have he : e < g.elem.toNat := hg ▸ hl.free_lt ho e (by rw [htook.first]; exact List.mem_cons_self)
  refine ⟨⟨fun x hx => ht.page x (htook.pages ▸ hx), fun x hx => ?_⟩, ?_⟩
  · rw [htook.pages] at hx
    by_cases hxs : x = s
    · subst hxs
      have hself : (w.take g x).2.head x = load w.mem (w.head x).toNat := Function.update_self ..
      rw [hself]
      exact hrest
    · have hother : (w.take g s).2.head x = w.head x := Function.update_of_ne hxs ..
      rw [hother, htook.others x hxs]
      exact ht.threaded x hx
  · rw [Words.take, hhead]
    exact hf.linkWord_sub_size (ht.page s ho) he

theorem put {gone : Bool} (hf : g.Fits k) (ht : Threads g c w) (hl : c.Lists A B) (hg : c.elem = g.elem.toNat)
    (ho : o ∈ c.live) (hgave : Cache.Gave c c' o gone) :
    Threads g c' (w.put g (BitVec.ofNat 64 (g.objAddr o)) (c.avail o.1)) := by
  obtain ⟨s, e⟩ := o
  have hlive := hl.holds.live _ ho
  have hs : s ∈ c.pages := (hl.holds.pages s).mpr hlive.1
  have he : e < g.elem.toNat := hg ▸ hlive.2
  obtain ⟨hslab, hlink⟩ := hf.objAddr_back (ht.page s hs) he
  have haddr := hf.toNat_linkWord (ht.page s hs) he
  have hav := hl.avail_pos ho
  have hfree : ∀ x ∈ c.pages, ∀ i ∈ c.freeList x,
      load (store w.mem (g.linkAddr (s, e)) (w.head s)) (g.linkAddr (x, i)) = load w.mem (g.linkAddr (x, i)) := by
    intro x hx i hi
    refine load_store_of_apart (hf.link_apart (o := (s, e)) (p := (x, i)) he (hg ▸ hl.free_lt hx i hi) ?_)
    intro heq
    obtain ⟨rfl, rfl⟩ := Prod.mk.inj heq
    exact (((hl.holds.stocked s ((hl.holds.pages s).mp hs)).mem e).mp hi).2 ho
  have hmem : ∀ x ∈ c.pages, g.Threaded (store w.mem (g.linkAddr (s, e)) (w.head s)) x (w.head x) (c.freeList x) :=
    fun x hx => hf.threaded_congr (ht.page x hx) (fun i hi => hg ▸ hl.free_lt hx i hi) (hfree x hx) (ht.threaded x hx)
  have hpages : ∀ x ∈ c'.pages, x ∈ c.pages := by
    intro x hx
    rw [hgave.pages] at hx
    split at hx
    · exact Finset.mem_of_mem_erase hx
    · exact hx
  rw [Words.put, if_neg (by rw [← hg]; omega), hslab, hlink]
  dsimp only
  rw [haddr]
  refine ⟨fun x hx => ht.page x (hpages x hx), fun x hx => ?_⟩
  by_cases hxs : x = s
  · subst hxs
    rw [hgave.first]
    dsimp only
    rw [Function.update_self]
    refine ⟨rfl, ?_⟩
    rw [haddr, load_store]
    exact hmem x hs
  · rw [hgave.others x hxs]
    dsimp only
    rw [Function.update_of_ne hxs]
    exact hmem x (hpages x hx)

/-- The pointer that comes out of the memory is the address of the element that
comes off the list. -/
theorem alloc (hf : g.Fits k) (ht : Threads g c w) (hl : c.Lists A B) (hg : c.elem = g.elem.toNat)
    (he : 1 ≤ g.elem.toNat) (hs : s ∉ c.pages) (hw : s < 2 ^ 52) :
    ∃ o c', c.alloc s = .ok (o, c', c.curr.isNone) ∧ o ∉ c.live ∧ c'.live = insert o c.live ∧
      Threads g c' (w.alloc g s c.curr.isNone o.1).2 ∧
      (w.alloc g s c.curr.isNone o.1).1 = BitVec.ofNat 64 (g.objAddr o) := by
  obtain ⟨o, c', A', B', hrun, hl', htook, -⟩ := hl.alloc hs (hg ▸ he)
  have hmem : o.1 ∈ (if c.curr.isNone then c.grow s else c).pages := by
    rw [← htook.pages, hl'.holds.pages]
    exact (hl'.holds.live o (htook.live ▸ Finset.mem_insert_self o _)).1
  refine ⟨o, c', hrun, ?_⟩
  unfold Words.alloc
  cases hcurr : c.curr with
  | none =>
    obtain rfl : A = [] := by simpa [hcurr] using hl.curr.symm
    rw [hcurr] at htook hmem
    have hlive : (c.grow s).live = c.live := Cache.live_grow
    have hgrown := hl.grow hs (hg ▸ he)
    refine ⟨hlive ▸ htook.fresh, hlive ▸ htook.live, ?_⟩
    exact (ht.build hf hl hg hs hw).take hf hgrown (Cache.elem_grow.trans hg) hmem htook
  | some x =>
    rw [hcurr] at htook hmem
    exact ⟨htook.fresh, htook.live, ht.take hf hl hg hmem htook⟩

end Threads

theorem Served.threads (hf : g.Fits k) (he : 1 ≤ g.elem.toNat) (h : Served g k c w) : Threads g c w := by
  induction h with
  | new => exact ⟨by simp [Cache.new], by simp [Cache.new]⟩
  | @alloc c c' w p o grown h hp hw hc ih =>
    obtain ⟨hg, A, B, hl⟩ := h.reached.lists he
    obtain ⟨o, c', hrun, -, -, ht, -⟩ := ih.alloc hf hl hg he hp hw
    obtain ⟨rfl, rfl, rfl⟩ := by simpa using hrun.symm.trans hc
    exact ht
  | free h ho hc ih =>
    obtain ⟨hg, A, B, hl⟩ := h.reached.lists he
    obtain ⟨c', gone, A', B', hrun, -, hgave, -⟩ := hl.free ho
    obtain ⟨rfl, rfl⟩ := by simpa using hrun.symm.trans hc
    exact ih.put hf hl hg ho hgave
  | @write c w o a h ho ha b ih =>
    obtain ⟨hg, A, B, hl⟩ := h.reached.lists he
    refine ih.frame hf hl hg fun s hs e he => load_update b ?_
    have := hf.obj_link (o := o) (p := (s, e)) (hg ▸ (hl.holds.live o ho).2) he
    unfold Apart at *
    omega
  | @other c w a h ha b ih =>
    obtain ⟨hg, A, B, hl⟩ := h.reached.lists he
    refine ih.frame hf hl hg fun s hs e he => load_update b ?_
    have hin := hf.buff_inside (o := (s, e)) he
    have hlink := hf.link
    have := ha s hs
    unfold Apart Geometry.linkAddr
    dsimp only at hin
    omega

/-- Where the size of an object can be rounded up to a word, all objects are where
they should be, and what is handed out is the address of an object that nobody
has. -/
theorem served_placed {elemSize : Mword} {elemAlign : BitVec 32} (hs : elemSize.toNat ≤ 2 ^ 64 - 8)
    (ha : elemAlign.toNat ∣ pageSize) (he : 1 ≤ (Geometry.ofElem elemSize elemAlign).elem.toNat)
    (h : Served (.ofElem elemSize elemAlign) elemSize.toNat c w) :
    (Geometry.ofElem elemSize elemAlign).Placed elemSize.toNat elemAlign.toNat c ∧
    ∀ p, p ∉ c.pages → p < 2 ^ 52 → ∃ o c', c.alloc p = .ok (o, c', c.curr.isNone) ∧ o ∉ c.live ∧
      c'.live = insert o c.live ∧ (w.alloc (.ofElem elemSize elemAlign) p c.curr.isNone o.1).1 =
        BitVec.ofNat 64 ((Geometry.ofElem elemSize elemAlign).objAddr o) := by
  obtain ⟨hf, hb⟩ := Geometry.fits_ofElem hs ha he
  obtain ⟨hg, A, B, hl⟩ := h.reached.lists he
  refine ⟨hf.placed hb ha fun o ho => hg ▸ (hl.holds.live o ho).2, fun p hp hw => ?_⟩
  obtain ⟨o, c', hrun, hnew, hlive, -, hptr⟩ := (h.threads hf he).alloc hf hl hg he hp hw
  exact ⟨o, c', hrun, hnew, hlive, hptr⟩

/-- Objects of 24 bytes, two of which are taken. -/
theorem served_placed_twoTaken : ∃ o₁ o₂ c w, Served (.ofElem 24 8) 24 c w ∧ o₁ ≠ o₂ ∧ c.live = {o₂, o₁} ∧
    (Geometry.ofElem 24 8).Placed 24 8 c := by
  have hs : (24 : Mword).toNat ≤ 2 ^ 64 - 8 := by decide
  have ha : (8 : BitVec 32).toNat ∣ pageSize := by decide
  have he : 1 ≤ (Geometry.ofElem 24 8).elem.toNat := by decide
  have h₀ : Served (.ofElem 24 8) (24 : Mword).toNat _ _ := .new ⟨fun _ => 0, fun _ => 0⟩
  obtain ⟨o₁, c₁, _, _, hrun₁, -, htook₁, -⟩ := (Cache.lists_new (Geometry.ofElem 24 8).elem.toNat).alloc
    (show 7 ∉ _ by simp [Cache.new]) he
  rw [if_pos (show (Cache.new _).curr.isNone = true from rfl)] at htook₁
  have h₁ := h₀.alloc (by simp [Cache.new]) (by decide) hrun₁
  have hlive₁ : c₁.live = {o₁} := by
    rw [htook₁.live, Cache.live_grow]
    rfl
  have hp : 8 ∉ c₁.pages := by
    have hpages : c₁.pages = insert 7 ∅ := htook₁.pages.trans Cache.pages_grow
    rw [hpages]
    decide
  obtain ⟨o₂, c₂, hrun₂, hnew, hlive₂, -⟩ := (served_placed hs ha he h₁).2 8 hp (by decide)
  have h₂ := h₁.alloc hp (by decide) hrun₂
  have hne : o₁ ≠ o₂ := by
    rintro rfl
    exact hnew (hlive₁ ▸ Finset.mem_singleton_self o₁)
  exact ⟨o₁, o₂, c₂, _, h₂, hne, by rw [hlive₂, hlive₁], (served_placed hs ha he h₂).1⟩

/-- A size that wraps around when it is rounded up. -/
theorem wrapped_not_placed : ¬∀ (elemSize : Mword) (elemAlign : BitVec 32), elemAlign.toNat ∣ pageSize →
    1 ≤ (Geometry.ofElem elemSize elemAlign).elem.toNat → ∀ c w, Served (.ofElem elemSize elemAlign) elemSize.toNat c w →
    (Geometry.ofElem elemSize elemAlign).Placed elemSize.toNat elemAlign.toNat c := by
  intro hall
  have he : 1 ≤ (Geometry.ofElem (.allOnes 64) 8).elem.toNat := by decide
  have h₀ : Served (.ofElem (.allOnes 64) 8) (BitVec.allOnes 64).toNat _ _ := .new ⟨fun _ => 0, fun _ => 0⟩
  obtain ⟨o, c', A, B, hrun, -, htook, -⟩ := (Cache.lists_new (Geometry.ofElem (.allOnes 64) 8).elem.toNat).alloc
    (show 7 ∉ _ by simp [Cache.new]) he
  have h := h₀.alloc (by simp [Cache.new]) (by decide) hrun
  have ho : o ∈ c'.live := htook.live ▸ Finset.mem_insert_self o _
  have hin := (hall (.allOnes 64) 8 (by decide) he c' _ h).inside o ho
  have hsize : (BitVec.allOnes 64).toNat = 2 ^ 64 - 1 := rfl
  unfold pageSize headerSize at hin
  omega

end Tukija.Slabs
