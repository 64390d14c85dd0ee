import Cocool.Lib.Words
import Cocool.Message.Events
import Mathlib.Data.List.FinRange
import Mathlib.Tactic.Ring

/-!
# The arena of the items

`ms_thread_process_init` takes one block for the items and their buffers,
the items first, and goes over all items but the last: each is linked to
the next one and gets its buffer.  Addresses are bytes of the memory.
-/

namespace Cocool.Message

open Lib

/-- The places of the two pointers that the loop sets in `MS_QUENS_ITEM`.
The link is the first field. -/
structure Layout where
  sizeof : ℕ
  pdatabuf : ℕ
  after_pnext : 8 ≤ pdatabuf
  within : pdatabuf + 8 ≤ sizeof

/-- `MS_QUENS_NUM`, `MS_BUFF_LEN` and the address `malloc` returned. -/
structure Arena where
  layout : Layout
  quensNum : ℕ
  buffLen : ℕ
  base : ℕ

/-- The memory and the ranges written so far, the last one first. -/
structure Memory where
  mem : ℕ → UInt8
  writes : List (ℕ × ℕ)

namespace Memory

def store (s : Memory) (a v : ℕ) : Memory := ⟨storeLe s.mem a 8 v, (a, 8) :: s.writes⟩

def memset (s : Memory) (a n : ℕ) : Memory := ⟨fill s.mem a n 0, (a, n) :: s.writes⟩

def load (s : Memory) (a : ℕ) : ℕ := loadLe s.mem a 8

end Memory

namespace Arena

def size (arena : Arena) : ℕ := arena.quensNum * (arena.layout.sizeof + arena.buffLen)

def itemAddr (arena : Arena) (i : ℕ) : ℕ := arena.base + i * arena.layout.sizeof

def pdatabufAddr (arena : Arena) (i : ℕ) : ℕ := arena.itemAddr i + arena.layout.pdatabuf

/-- What the loop computes for the buffer of an item: the offset, without
the address of the block. -/
def buffOffset (arena : Arena) (i : ℕ) : ℕ :=
  arena.quensNum * arena.layout.sizeof + i * arena.buffLen

def quenesLoop (arena : Arena) (s : Memory) (i : ℕ) : Memory :=
  let s := s.store (arena.itemAddr i) (arena.itemAddr (i + 1))
  let s := s.store (arena.pdatabufAddr i) (arena.buffOffset i)
  s.memset (s.load (arena.pdatabufAddr i)) arena.buffLen

def quenesAfter (arena : Arena) (s : Memory) (k : ℕ) : Memory :=
  (List.range k).foldl arena.quenesLoop s

def link (p : ℕ) : Option ℕ := if p = 0 then none else some p

/-- The end of `ms_thread_process_init`, with the new `g_pms_quenes`.  The
source assigns NULL to the last item as a whole; the link is meant. -/
def msThreadProcessInit (arena : Arena) (s : Memory) : Memory × Option ℕ :=
  ((arena.quenesAfter s (arena.quensNum - 1)).store (arena.itemAddr (arena.quensNum - 1)) 0,
    link (arena.itemAddr 0))

def pnext (s : Memory) (p : ℕ) : Option ℕ := link (s.load p)

def pdatabuf (arena : Arena) (s : Memory) (i : ℕ) : ℕ := s.load (arena.pdatabufAddr i)

/-- The list visits each item once and ends, the buffers lie in the block,
outside of the items and of each other, and nothing outside of the block is
written. -/
structure Carved (arena : Arena) (r : Memory × Option ℕ) : Prop where
  list : ∃ l, Chain (pnext r.1) r.2 l ∧ l.Perm ((List.range arena.quensNum).map arena.itemAddr)
  inside : ∀ i < arena.quensNum, arena.base ≤ arena.pdatabuf r.1 i ∧
    arena.pdatabuf r.1 i + arena.buffLen ≤ arena.base + arena.size
  items : ∀ i < arena.quensNum,
    arena.base + arena.quensNum * arena.layout.sizeof ≤ arena.pdatabuf r.1 i ∨
      arena.pdatabuf r.1 i + arena.buffLen ≤ arena.base
  disjoint : ∀ i < arena.quensNum, ∀ j < arena.quensNum, i ≠ j →
    arena.pdatabuf r.1 i + arena.buffLen ≤ arena.pdatabuf r.1 j ∨
      arena.pdatabuf r.1 j + arena.buffLen ≤ arena.pdatabuf r.1 i
  writes : ∀ w ∈ r.1.writes, arena.base ≤ w.1 ∧ w.1 + w.2 ≤ arena.base + arena.size

/-- The block does not go past the end of the address space. -/
structure Fits (arena : Arena) : Prop where
  quensNum : 1 ≤ arena.quensNum
  buffLen : 1 ≤ arena.buffLen
  size : arena.base + arena.size ≤ 256 ^ 8

/-! ## Where the fields are -/

variable {arena : Arena}

theorem itemAddr_succ (arena : Arena) (i : ℕ) :
    arena.itemAddr (i + 1) = arena.itemAddr i + arena.layout.sizeof := by
  unfold itemAddr
  ring

theorem itemAddr_mono (arena : Arena) {i j : ℕ} (h : i ≤ j) : arena.itemAddr i ≤ arena.itemAddr j :=
  Nat.add_le_add_left (Nat.mul_le_mul_right _ h) _

/-- The items before another one end before it. -/
theorem itemAddr_lt (arena : Arena) {i j : ℕ} (h : i < j) :
    arena.itemAddr i + arena.layout.sizeof ≤ arena.itemAddr j := by
  rw [← itemAddr_succ]
  exact arena.itemAddr_mono h

theorem itemAddr_injective (arena : Arena) : Function.Injective arena.itemAddr := by
  have hsize := arena.layout.after_pnext
  have hwithin := arena.layout.within
  intro i j h
  rcases Nat.lt_trichotomy i j with hij | hij | hij
  · have hlt := arena.itemAddr_lt hij
    omega
  · exact hij
  · have hlt := arena.itemAddr_lt hij
    omega

theorem Fits.itemAddr_lt (h : arena.Fits) {i : ℕ} (hi : i < arena.quensNum) :
    arena.itemAddr i < 256 ^ 8 := by
  have hbuff := h.buffLen
  have hend : arena.itemAddr arena.quensNum + arena.quensNum * arena.buffLen ≤ 256 ^ 8 := by
    have hsize := h.size
    unfold Arena.size at hsize
    unfold itemAddr
    rw [Nat.mul_add] at hsize
    omega
  have hlt := arena.itemAddr_lt hi
  have hpos := arena.layout.after_pnext
  have hwithin := arena.layout.within
  omega

theorem Fits.buffOffset_lt (h : arena.Fits) {i : ℕ} (hi : i + 1 < arena.quensNum) :
    arena.buffOffset i < 256 ^ 8 := by
  have hsize := h.size
  have hmul : i * arena.buffLen ≤ arena.quensNum * arena.buffLen :=
    Nat.mul_le_mul_right _ (by omega)
  have hstep : (i + 1) * arena.buffLen ≤ arena.quensNum * arena.buffLen :=
    Nat.mul_le_mul_right _ (by omega)
  have hbuff := h.buffLen
  unfold Arena.size at hsize
  unfold buffOffset
  rw [Nat.mul_add] at hsize
  rw [Nat.add_mul] at hstep
  omega

/-! ## One turn of the loop -/

theorem load_store_same {s : Memory} {a v : ℕ} (h : v < 256 ^ 8) : (s.store a v).load a = v :=
  loadLe_storeLe h

theorem load_store_of_disjoint {s : Memory} {a b v : ℕ} (h : a + 8 ≤ b ∨ b + 8 ≤ a) :
    (s.store b v).load a = s.load a :=
  loadLe_storeLe_of_disjoint h

theorem load_memset_le (s : Memory) (a b n : ℕ) : (s.memset b n).load a ≤ s.load a :=
  loadLe_fill_zero_le a 8 b n

theorem quenesAfter_succ (arena : Arena) (s : Memory) (k : ℕ) :
    arena.quenesAfter s (k + 1) = arena.quenesLoop (arena.quenesAfter s k) k := by
  unfold quenesAfter
  rw [List.range_succ, List.foldl_append]
  rfl

/-- The buffer is cleared where the pointer that was just set points to. -/
theorem quenesLoop_eq (hfits : arena.Fits) (s : Memory) {i : ℕ} (hi : i + 1 < arena.quensNum) :
    arena.quenesLoop s i = ((s.store (arena.itemAddr i) (arena.itemAddr (i + 1))).store
      (arena.pdatabufAddr i) (arena.buffOffset i)).memset (arena.buffOffset i) arena.buffLen := by
  simp only [quenesLoop, load_store_same (hfits.buffOffset_lt hi)]

/-- A field of another item is at most cleared. -/
theorem quenesLoop_load_le (arena : Arena) (s : Memory) {a i : ℕ}
    (h : a + 8 ≤ arena.itemAddr i ∨ arena.itemAddr (i + 1) ≤ a) :
    (arena.quenesLoop s i).load a ≤ s.load a := by
  have hpnext := arena.layout.after_pnext
  have hwithin := arena.layout.within
  rw [itemAddr_succ] at h
  unfold quenesLoop
  apply (load_memset_le _ a _ _).trans
  rw [load_store_of_disjoint, load_store_of_disjoint]
  · omega
  · unfold pdatabufAddr
    omega

theorem quenesLoop_pdatabuf_le (hfits : arena.Fits) (s : Memory) {i : ℕ}
    (hi : i + 1 < arena.quensNum) :
    arena.pdatabuf (arena.quenesLoop s i) i ≤ arena.buffOffset i := by
  rw [quenesLoop_eq hfits s hi]
  apply (load_memset_le _ _ _ _).trans
  rw [load_store_same (hfits.buffOffset_lt hi)]

theorem quenesAfter_pdatabuf_le (hfits : arena.Fits) (s : Memory) {i k : ℕ} (hik : i < k)
    (hk : k < arena.quensNum) :
    arena.pdatabuf (arena.quenesAfter s k) i ≤ arena.buffOffset i := by
  have hwithin := arena.layout.within
  induction k with
  | zero => omega
  | succ k ih =>
      rw [quenesAfter_succ]
      by_cases hlast : i = k
      · subst hlast
        exact quenesLoop_pdatabuf_le hfits _ hk
      · have hlt := arena.itemAddr_lt (show i < k by omega)
        apply (quenesLoop_load_le arena _ ?_).trans (ih (by omega) (by omega))
        unfold pdatabufAddr
        omega

/-- No item but the last gets a pointer behind its offset in the block. -/
theorem pdatabuf_le (hfits : arena.Fits) (s : Memory) {i : ℕ} (hi : i + 1 < arena.quensNum) :
    arena.pdatabuf (arena.msThreadProcessInit s).1 i ≤ arena.buffOffset i := by
  have hwithin := arena.layout.within
  have hlt := arena.itemAddr_lt (show i < arena.quensNum - 1 by omega)
  unfold pdatabuf msThreadProcessInit
  rw [load_store_of_disjoint]
  · exact quenesAfter_pdatabuf_le hfits s (by omega) (by omega)
  · unfold pdatabufAddr
    omega

/-! ## The list -/

/-- A turn whose buffer lies below the block touches the two pointers of its
item and nothing else of the block. -/
theorem quenesLoop_load {s : Memory} {a i : ℕ} (hfits : arena.Fits) (hi : i + 1 < arena.quensNum)
    (hlow : arena.buffOffset i + arena.buffLen ≤ arena.base) (ha : arena.base ≤ a)
    (h : a + 8 ≤ arena.itemAddr i ∨ arena.itemAddr (i + 1) ≤ a) :
    (arena.quenesLoop s i).load a = s.load a := by
  have hpnext := arena.layout.after_pnext
  have hwithin := arena.layout.within
  rw [itemAddr_succ] at h
  rw [quenesLoop_eq hfits s hi]
  have hset : ∀ t : Memory, (t.memset (arena.buffOffset i) arena.buffLen).load a = t.load a :=
    fun t ↦ loadLe_fill_of_disjoint (by omega)
  rw [hset, load_store_of_disjoint, load_store_of_disjoint]
  · omega
  · unfold pdatabufAddr
    omega

theorem quenesLoop_pnext {s : Memory} {i : ℕ} (hfits : arena.Fits) (hi : i + 1 < arena.quensNum)
    (hlow : arena.buffOffset i + arena.buffLen ≤ arena.base) :
    (arena.quenesLoop s i).load (arena.itemAddr i) = arena.itemAddr (i + 1) := by
  have hpnext := arena.layout.after_pnext
  have hbase : arena.base ≤ arena.itemAddr i := Nat.le_add_right _ _
  rw [quenesLoop_eq hfits s hi]
  have hset : ∀ t : Memory, (t.memset (arena.buffOffset i) arena.buffLen).load (arena.itemAddr i) =
      t.load (arena.itemAddr i) := fun t ↦ loadLe_fill_of_disjoint (by omega)
  rw [hset, load_store_of_disjoint, load_store_same (hfits.itemAddr_lt hi)]
  unfold pdatabufAddr
  omega

theorem quenesAfter_pnext {s : Memory} {i k : ℕ} (hfits : arena.Fits) (hik : i < k)
    (hk : k < arena.quensNum)
    (hlow : ∀ j, j + 1 < arena.quensNum → arena.buffOffset j + arena.buffLen ≤ arena.base) :
    (arena.quenesAfter s k).load (arena.itemAddr i) = arena.itemAddr (i + 1) := by
  have hpnext := arena.layout.after_pnext
  have hwithin := arena.layout.within
  induction k with
  | zero => omega
  | succ k ih =>
      rw [quenesAfter_succ]
      by_cases hlast : i = k
      · subst hlast
        exact quenesLoop_pnext hfits hk (hlow i hk)
      · have hlt := arena.itemAddr_lt (show i < k by omega)
        have hbase : arena.base ≤ arena.itemAddr i := Nat.le_add_right _ _
        rw [quenesLoop_load hfits hk (hlow k hk) hbase (by omega)]
        exact ih (by omega) (by omega)

/-- The list is in order when the computed buffers all lie below the block,
as they do for any block that is not at the very start of memory. -/
theorem list_of_low {s : Memory} (hfits : arena.Fits) (hbase : arena.base ≠ 0)
    (hlow : ∀ j, j + 1 < arena.quensNum → arena.buffOffset j + arena.buffLen ≤ arena.base) :
    Chain (pnext (arena.msThreadProcessInit s).1) (arena.msThreadProcessInit s).2
      ((List.range arena.quensNum).map arena.itemAddr) := by
  have hpnext := arena.layout.after_pnext
  have hwithin := arena.layout.within
  have hlink : ∀ i, link (arena.itemAddr i) = some (arena.itemAddr i) := by
    intro i
    have hpos : arena.base ≤ arena.itemAddr i := Nat.le_add_right _ _
    exact if_neg (by omega)
  obtain ⟨n, hn⟩ := Nat.exists_eq_add_of_le' hfits.quensNum
  have hlast : (arena.msThreadProcessInit s).1 =
      (arena.quenesAfter s n).store (arena.itemAddr n) 0 := by
    simp only [msThreadProcessInit, hn, Nat.add_sub_cancel]
  rw [hlast, hn, msThreadProcessInit, hlink]
  apply Chain.of_range
  · intro i hi
    have hlt := arena.itemAddr_lt hi
    rw [pnext, load_store_of_disjoint (by omega), quenesAfter_pnext hfits hi (by omega) hlow, hlink]
  · rw [pnext, load_store_same (by norm_num)]
    rfl

/-! ## The bus that starts from it -/

/-- The item at an address of the array. -/
def index (arena : Arena) (p : ℕ) : Option (Fin arena.quensNum) :=
  (List.finRange arena.quensNum).find? fun i ↦ arena.itemAddr i = p

/-- The bus with the lists, pointers and bytes of the memory; what the loop
does not set is as before. -/
def bus (arena : Arena) (r : Memory × Option ℕ) (s : Bus (Fin arena.quensNum)) :
    Bus (Fin arena.quensNum) :=
  { s with
    lists := ⟨fun i ↦ (pnext r.1 (arena.itemAddr i)).bind arena.index, r.2.bind arena.index,
      fun _ ↦ none, fun _ ↦ none⟩
    item := fun i ↦ { s.item i with pdatabuf := arena.pdatabuf r.1 i }
    mem := fun a ↦ if 0 ≤ a then r.1.mem a.toNat else s.mem a }

theorem bus_lists (arena : Arena) (r : Memory × Option ℕ) (s : Bus (Fin arena.quensNum)) :
    (arena.bus r s).lists =
      ⟨fun i ↦ (pnext r.1 (arena.itemAddr i)).bind arena.index, r.2.bind arena.index,
        fun _ ↦ none, fun _ ↦ none⟩ := rfl

theorem index_itemAddr (arena : Arena) (i : Fin arena.quensNum) :
    arena.index (arena.itemAddr i) = some i := by
  cases h : arena.index (arena.itemAddr i) with
  | none =>
      have hnone := List.find?_eq_none.mp h i (List.mem_finRange i)
      simp at hnone
  | some j =>
      have hsome := List.find?_some h
      have hij := arena.itemAddr_injective (of_decide_eq_true hsome)
      rw [Fin.ext hij]

/-- All items are free, in the order of the block. -/
theorem bus_represents {r : Memory × Option ℕ} (s : Bus (Fin arena.quensNum))
    (h : Chain (pnext r.1) r.2 ((List.range arena.quensNum).map arena.itemAddr)) :
    Represents (arena.bus r s).lists (List.finRange arena.quensNum) fun _ ↦ [] := by
  have hitems : Chain (pnext r.1) r.2
      ((List.finRange arena.quensNum).map fun i : Fin arena.quensNum ↦ arena.itemAddr i) := by
    rw [← List.map_coe_finRange_eq_range, List.map_map] at h
    exact h
  have hchain := Chain.of_map arena.index_itemAddr hitems
  rw [bus_lists]
  exact Represents.of_free hchain

/-- The bus after `ms_thread_process_init`, for a block that is not at the
very start of memory. -/
theorem bus_eventInv (hfits : arena.Fits) (hbase : arena.base ≠ 0)
    (hlow : ∀ j, j + 1 < arena.quensNum → arena.buffOffset j + arena.buffLen ≤ arena.base)
    (m : ℕ → UInt8) {s : Bus (Fin arena.quensNum)}
    (hpending : ∀ i, s.soketPending i = false ∧ s.timePending i = false) :
    (arena.bus (arena.msThreadProcessInit ⟨m, []⟩) s).EventInv := by
  refine ⟨_, _, bus_represents s (list_of_low hfits hbase hlow), fun i hi ↦ ?_⟩
  obtain ⟨hsoket, htime⟩ := hpending i
  rcases hi with hi | hi
  · exact absurd (hsoket.symm.trans hi) (by decide)
  · exact absurd (htime.symm.trans hi) (by decide)

/-! ## When the arena comes out right -/

theorem Carved.base_ne_zero {s : Memory} (hfits : arena.Fits)
    (h : arena.Carved (arena.msThreadProcessInit s)) : arena.base ≠ 0 := by
  intro hzero
  have hnum := hfits.quensNum
  obtain ⟨l, hchain, hperm⟩ := h.list
  have hhead : (arena.msThreadProcessInit s).2 = none := by
    simp [msThreadProcessInit, itemAddr, link, hzero]
  rw [hhead] at hchain
  have hlength := hperm.length_eq
  rw [hchain.eq_nil] at hlength
  simp only [List.length_nil, List.length_map, List.length_range] at hlength
  omega

/-- The buffer of an item other than the last lies below the block or in the
items. -/
theorem Carved.quensNum_eq_one {s : Memory} (hfits : arena.Fits)
    (h : arena.Carved (arena.msThreadProcessInit s)) : arena.quensNum = 1 := by
  have hnum := hfits.quensNum
  have hbuff := hfits.buffLen
  have hbase := h.base_ne_zero hfits
  have hfrom := (h.inside 0 (by omega)).1
  have hitems := h.items 0 (by omega)
  by_contra hmany
  have hle := pdatabuf_le hfits s (i := 0) (by omega)
  simp only [buffOffset, Nat.zero_mul, Nat.add_zero] at hle
  omega

theorem msThreadProcessInit_one (s : Memory) (h : arena.quensNum = 1) :
    (arena.msThreadProcessInit s).1 = s.store (arena.itemAddr 0) 0 := by
  simp only [msThreadProcessInit, h]
  rfl

theorem pdatabuf_one (s : Memory) (h : arena.quensNum = 1) :
    arena.pdatabuf (arena.msThreadProcessInit s).1 0 = arena.pdatabuf s 0 := by
  have hpnext := arena.layout.after_pnext
  rw [msThreadProcessInit_one s h]
  apply load_store_of_disjoint
  unfold pdatabufAddr
  omega

end Arena

/-- The arena comes out right exactly for a block of one item whose pointer
happened to hold the address behind that item. -/
theorem carved_iff {arena : Arena} (hfits : arena.Fits) (m : ℕ → UInt8) :
    arena.Carved (arena.msThreadProcessInit ⟨m, []⟩) ↔
      arena.base ≠ 0 ∧ arena.quensNum = 1 ∧
        arena.pdatabuf ⟨m, []⟩ 0 = arena.base + arena.layout.sizeof := by
  have hbuff := hfits.buffLen
  have hwithin := arena.layout.within
  constructor
  · intro h
    have hnum := h.quensNum_eq_one hfits
    obtain ⟨hfrom, hto⟩ := h.inside 0 (by omega)
    have hitems := h.items 0 (by omega)
    refine ⟨h.base_ne_zero hfits, hnum, ?_⟩
    simp only [Arena.size, Arena.pdatabuf_one _ hnum, hnum, Nat.one_mul] at hfrom hto hitems
    omega
  · rintro ⟨hbase, hnum, hprior⟩
    have hpdata := (Arena.pdatabuf_one ⟨m, []⟩ hnum).trans hprior
    have hzero : ∀ i < arena.quensNum, i = 0 := by
      intro i hi
      omega
    have hsize : arena.size = arena.layout.sizeof + arena.buffLen := by
      rw [Arena.size, hnum, Nat.one_mul]
    refine ⟨?_, fun i hi ↦ ?_, fun i hi ↦ ?_, fun i hi j hj hij ↦ ?_, fun w hw ↦ ?_⟩
    · exact ⟨_, Arena.list_of_low hfits hbase fun j hj ↦ by omega, .refl _⟩
    · rw [hzero i hi, hpdata, hsize]
      omega
    · rw [hzero i hi, hpdata, hnum]
      omega
    · exact absurd ((hzero i hi).trans (hzero j hj).symm) hij
    · rw [Arena.msThreadProcessInit_one _ hnum] at hw
      obtain rfl : w = (arena.itemAddr 0, 8) := List.mem_singleton.mp hw
      simp only [Arena.itemAddr, hsize]
      omega

/-- The places of the fields when `struct event` takes 128 bytes. -/
def eventLayout : Layout := ⟨304, 288, by decide, by decide⟩

def busArena : Arena := ⟨eventLayout, 60, 1024, 0x10000000⟩

theorem busArena_fits : busArena.Fits := ⟨by decide, by decide, by decide⟩

theorem not_carved_bus :
    busArena.Fits ∧ ¬busArena.Carved (busArena.msThreadProcessInit ⟨fun _ ↦ 0, []⟩) :=
  ⟨busArena_fits, fun h ↦ absurd (h.quensNum_eq_one busArena_fits) (by decide)⟩

theorem carved_one_item :
    (⟨eventLayout, 1, 1024, 0x10000000⟩ : Arena).Carved
      (Arena.msThreadProcessInit ⟨eventLayout, 1, 1024, 0x10000000⟩
        ⟨storeLe (fun _ ↦ 0) 0x10000120 8 0x10000130, []⟩) :=
  (carved_iff ⟨by decide, by decide, by decide⟩ _).mpr ⟨by decide, rfl, by decide⟩

end Cocool.Message
