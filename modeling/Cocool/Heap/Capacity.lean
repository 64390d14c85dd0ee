import Cocool.Heap.Membership

/-!
# Capacity and emptiness

`cocol_heap_insert` asks for a larger block when there is room, asks for
as many bytes as before, and clears through the entry at `totalSize - 1`,
which holds no element.  Its last line sifts from `heapSize`, and
`cocol_heap_shift_up` accepts no position 0.  So a heap never gets beyond
the one entry it starts with.
-/

namespace Cocool.Heap

open Lib

variable {ι : Type} [DecidableEq ι] {s t : CocolHeapHeader ι}

/-! ## What is asked of a call -/

/-- The call returns, with `heapSize` within `totalSize`.  An insertion
into an empty block succeeds, a failed one changes nothing, and one that
finds the block full enlarges it. -/
def Serves (s : CocolHeapHeader ι) (a : HeapCall ι) : Prop :=
  ∃ r t, heapCall s a = .ok (r, t) ∧ t.heapSize ≤ t.totalSize ∧
    ∀ x rest, a = .insert x rest → (s.heapSize = 0 → 0 < s.room → r = 0) ∧
      (r = -1 → t = s) ∧ (s.room ≤ s.heapSize → r = 0 → s.room < t.room)

/-- A call that goes well.  An insertion does only when `cocol_calloc` is
asked for memory and has none. -/
def Fits (s : CocolHeapHeader ι) : HeapCall ι → Prop
  | .insert _ rest =>
      rest = none ∧ 1 < (s.totalSize : ℤ) - s.heapSize ∧ (s.heapSize = 0 → s.room = 0)
  | .rootDelete => s.heapSize = 0 ∨ s.proot 0 ≠ none
  | .elemDelete x =>
      (s.heapSize = 0 ∧ (s.elem x).heapIdx = -1) ∨
        (s.heapSize = 1 ∧ s.proot 0 ≠ none ∧ 0 ≤ (s.elem x).heapIdx ∧ (s.elem x).heapIdx ≤ 2)
  | .elemFree => s.heapSize = 0 ∨ s.proot 0 ≠ none

/-- The heaps that runs from `cocol_heap_init` see. -/
structure Early (s : CocolHeapHeader ι) : Prop where
  le : s.heapSize ≤ s.totalSize
  first : s.heapSize ≠ 0 → s.heapSize = 1 ∧ s.totalSize = 128 ∧ s.room = blockRoom ∧
    ∀ i, 0 < i → s.proot i = none

omit [DecidableEq ι] in
theorem Early.of_empty (h0 : s.heapSize = 0) : Early s := ⟨by omega, fun h ↦ absurd h0 h⟩

omit [DecidableEq ι] in
theorem Early.cases (hs : Early s) : s.heapSize = 0 ∨ s.heapSize = 1 := by
  by_cases h0 : s.heapSize = 0
  · exact .inl h0
  · exact .inr (hs.first h0).1

/-! ## The width of the indices -/

theorem childIndexInt_eq {i : ℤ} (hlo : -2 ^ 30 ≤ i + 1) (hi : i + 1 < 2 ^ 30) :
    childIndexInt i = .ok (2 * (i + 1)) := by
  have hnext : InSigned 32 (i + 1) := ⟨by omega, by omega⟩
  have htwice : InSigned 32 (2 * (i + 1)) := ⟨by omega, by omega⟩
  simp only [childIndexInt, checkedSigned_of_inSigned hnext, checkedSigned_of_inSigned htwice,
    bind, Except.bind]

/-- No index overflows on the way down in a heap of fewer than 2^30 elements,
which is more than the block of this file has room for. -/
theorem shiftDownLoopInt_eq {i : ℤ} (x : ι) (fuel : ℕ) (hsize : s.heapSize < 2 ^ 30)
    (hlo : -2 ^ 30 ≤ i + 1) (hi : i + 1 < 2 ^ 30) :
    shiftDownLoopInt x fuel i s = shiftDownLoop x fuel i s := by
  induction fuel generalizing i s with
  | zero =>
      simp only [shiftDownLoopInt, shiftDownLoop, childIndexInt_eq hlo hi, bind, Except.bind, pure,
        Except.pure]
  | succ fuel ih =>
      rw [shiftDownLoopInt, shiftDownLoop, childIndexInt_eq hlo hi]
      simp only [bind, Except.bind]
      split
      · next hchild =>
          cases hl : s.read (2 * (i + 1) - 1) with
          | error e => rfl
          | ok l =>
              have hnonneg := (read_eq_ok hl).1
              cases hr : s.read (2 * (i + 1)) with
              | error e => rfl
              | ok r =>
                  dsimp only
                  -- the greater child is one of the two
                  obtain ⟨j, hj, hlow, hhigh⟩ : ∃ j, (if cocolHeapElemGreater s l r = true
                      then 2 * (i + 1) - 1 else 2 * (i + 1)) = j ∧ 0 ≤ j ∧ j < s.heapSize := by
                    refine ⟨_, rfl, ?_⟩
                    split <;> omega
                  rw [hj]
                  cases s.read j with
                  | error e => rfl
                  | ok c =>
                      dsimp only
                      split
                      · rfl
                      · cases hplace : s.place i c with
                        | error e => rfl
                        | ok t =>
                            obtain ⟨-, -, rfl⟩ := place_eq_ok hplace
                            exact ih hsize (by omega) (by omega)
      · rfl
/-! ## The empty heap -/

/-- No sift starts at position 0, and the last entry of the block that a
heap starts with is NULL. -/
theorem cocolHeapInsert_eq_ok {x : ι} {rest : Option (ℕ → Option ι)} {r : ℤ}
    (hs : Early s) (h : cocolHeapInsert s x rest = .ok (r, t)) :
    rest = none ∧ 1 < (s.totalSize : ℤ) - s.heapSize ∧ r = -1 ∧ t = s := by
  rcases cocolHeapInsert_cases h with
    ⟨hgrow, hrest, hr, hts⟩ | ⟨-, fresh, y, -, hread, -, hins⟩ | ⟨hfull, -, hins⟩
  · exact ⟨hrest, hgrow, hr, hts⟩
  · have h0 : 0 < s.heapSize := (insertElem_room hins).1
    obtain ⟨-, htotal, hroom, hnone⟩ := hs.first h0.ne'
    obtain ⟨-, -, hy⟩ := read_eq_ok hread
    have hlast : (resized s fresh).proot 127 = s.proot 127 := by
      simp [resized, hroom, blockRoom]
    rw [htotal] at hy
    simp [hlast, hnone] at hy
  · have h0 : 0 < s.heapSize := (insertElem_room hins).1
    obtain ⟨h1, htotal, -, -⟩ := hs.first h0.ne'
    omega

theorem cocolHeapInsert_none {x : ι} (hgrow : 1 < (s.totalSize : ℤ) - s.heapSize) :
    cocolHeapInsert s x none = .ok (-1, s) := if_pos hgrow

theorem cocolHeapRootDelete_empty (h0 : s.heapSize = 0) : cocolHeapRootDelete s = .ok s :=
  if_pos h0

theorem cocolHeapElemFree_empty (h0 : s.heapSize = 0) : cocolHeapElemFree s = .ok s := by
  rw [cocolHeapElemFree, h0, elemFreeLoop]

/-! ## The heap of one element -/

omit [DecidableEq ι] in
theorem Early.read_first (hs : Early s) (h1 : s.heapSize = 1) {x : ι} :
    s.read ((s.heapSize : ℤ) - 1) = .ok x ↔ s.proot 0 = some x := by
  have hroom : s.room = 192 := (hs.first (by omega)).2.2.1
  have hzero : (s.heapSize : ℤ) - 1 = ((0 : ℕ) : ℤ) := by omega
  rw [hzero]
  constructor
  · intro h
    exact (read_eq_ok h).2.2
  · exact read_of_some (by omega)

/-- The only element is stored once more, and nothing else is looked at. -/
theorem Early.shiftDown_only (hs : Early s) (h1 : s.heapSize = 1) (k : ℤ) (x : ι) :
    (∃ t, cocolHeapShiftDown { s with heapSize := 0 } k x = .ok t) ↔ 0 ≤ k ∧ k < 192 := by
  have hroom : s.room = 192 := (hs.first (by omega)).2.2.1
  constructor
  · rintro ⟨t, ht⟩
    obtain ⟨⟨i, j, u⟩, hloop, ht⟩ := bind_eq_ok ht
    obtain ⟨hi, hju⟩ := Prod.mk.inj (Except.ok.inj hloop)
    obtain ⟨hj, hu⟩ := Prod.mk.inj hju
    subst hi hj hu
    dsimp only at ht
    split at ht
    · obtain ⟨c, hread, -⟩ := bind_eq_ok ht
      have := (read_eq_ok hread).1
      omega
    · obtain ⟨h0, hlt, -⟩ := place_eq_ok ht
      have hlt' : k < s.room := hlt
      omega
  · rintro ⟨h0, hlt⟩
    obtain ⟨k, rfl⟩ := Int.eq_ofNat_of_zero_le h0
    have hplace := place_of_lt (s := { s with heapSize := 0 }) (i := k)
      (by have : k < s.room := by omega
          exact this) x
    refine ⟨_, Eq.trans ?_ hplace⟩
    have hend : ¬ 2 * ((k : ℤ) + 1) = 0 := by omega
    simp [cocolHeapShiftDown, shiftDownLoop, bind, Except.bind, hend]

theorem Early.rootDelete_iff (hs : Early s) (h1 : s.heapSize = 1) :
    (∃ t, cocolHeapRootDelete s = .ok t) ↔ s.proot 0 ≠ none := by
  rw [cocolHeapRootDelete, if_neg (by omega), Option.ne_none_iff_exists']
  constructor
  · rintro ⟨t, ht⟩
    obtain ⟨x, hread, -⟩ := bind_eq_ok ht
    exact ⟨x, (hs.read_first h1).mp hread⟩
  · rintro ⟨x, hx⟩
    obtain ⟨t, ht⟩ := (hs.shiftDown_only h1 0 x).mpr ⟨le_rfl, by norm_num⟩
    rw [(hs.read_first h1).mpr hx]
    have hsize : s.heapSize - 1 = 0 := by omega
    exact ⟨t, by simpa [bind, Except.bind, hsize] using ht⟩

theorem Early.elemFree_iff (hs : Early s) (h1 : s.heapSize = 1) :
    (∃ t, cocolHeapElemFree s = .ok t) ↔ s.proot 0 ≠ none := by
  rw [Option.ne_none_iff_exists']
  constructor
  · rintro ⟨t, ht⟩
    rw [cocolHeapElemFree, h1] at ht
    obtain ⟨x, hread, -⟩ := bind_eq_ok ht
    exact ⟨x, (read_eq_ok hread).2.2⟩
  · rintro ⟨x, hx⟩
    have hroom : s.room = 192 := (hs.first (by omega)).2.2.1
    have hfilled : s.Filled := by
      refine ⟨by omega, fun i hi ↦ ⟨x, ?_⟩⟩
      obtain rfl : i = 0 := by omega
      exact hx
    obtain ⟨t, ht, -⟩ := cocolHeapElemFree_released hfilled
    exact ⟨t, ht⟩

omit [DecidableEq ι] in
/-- Behind the first entry the block holds NULL pointers. -/
theorem Early.read_parent (hs : Early s) (h1 : s.heapSize = 1) {k : ℤ} (hk : 0 < k) {p : ι}
    (hp : s.read ((k - 1).tdiv 2) = .ok p) : k ≤ 2 ∧ s.proot 0 = some p := by
  obtain ⟨h0, -, hsome⟩ := read_eq_ok hp
  rw [Int.tdiv_eq_ediv_of_nonneg (by omega)] at h0 hsome
  by_cases hfar : 0 < ((k - 1) / 2).toNat
  · have hnone := (hs.first (by omega)).2.2.2 _ hfar
    simp [hnone] at hsome
  · have hzero : ((k - 1) / 2).toNat = 0 := by omega
    exact ⟨by omega, hzero ▸ hsome⟩

theorem Early.elemDelete_iff (hs : Early s) (h1 : s.heapSize = 1) (x : ι) :
    (∃ r, cocolHeapElemDelete s x = .ok r) ↔
      s.proot 0 ≠ none ∧ 0 ≤ (s.elem x).heapIdx ∧ (s.elem x).heapIdx ≤ 2 := by
  have hsize : s.heapSize - 1 = 0 := by omega
  generalize hk : (s.elem x).heapIdx = k
  rw [Option.ne_none_iff_exists']
  constructor
  · rintro ⟨⟨r, t⟩, hr⟩
    rcases cocolHeapElemDelete_cases hr with ⟨-, h0, -⟩ | ⟨last, hread, -, hsift⟩
    · omega
    · rw [hk, hsize] at hsift
      refine ⟨⟨last, (hs.read_first h1).mp hread⟩, ?_⟩
      rcases hsift with ⟨-, hpos, p, hp, -⟩ | ⟨hdown, hparent⟩
      · exact ⟨hpos.le, (hs.read_parent h1 hpos hp).1⟩
      · have hrange := (hs.shiftDown_only h1 k last).mp ⟨t, hdown⟩
        refine ⟨hrange.1, ?_⟩
        by_cases hpos : 0 < k
        · obtain ⟨p, hp⟩ := hparent hpos
          exact (hs.read_parent h1 hpos hp).1
        · omega
  · rintro ⟨⟨y, hy⟩, h0, h2⟩
    have hlast := (hs.read_first h1).mpr hy
    obtain ⟨t, ht⟩ := (hs.shiftDown_only h1 k y).mpr ⟨h0, by omega⟩
    have hguard : ¬ (k = -1 ∧ s.heapSize < 1) := by omega
    -- the element is compared with itself
    have hself : cocolHeapElemGreater s y y = false := decide_eq_false (lt_irrefl _)
    refine ⟨(0, t), ?_⟩
    simp only [cocolHeapElemDelete, hk, if_neg hguard, hlast, bind, Except.bind, hsize]
    by_cases hpos : 0 < k
    · have hparent : s.read ((k - 1).tdiv 2) = .ok y := by
        have hzero : (k - 1).tdiv 2 = (s.heapSize : ℤ) - 1 := by
          rw [Int.tdiv_eq_ediv_of_nonneg (by omega)]
          omega
        rw [hzero]
        exact hlast
      simp [hpos, hparent, hself, Except.map, ht]
    · simp [hpos, Except.map, ht]

theorem cocolHeapElemDelete_empty_iff (h0 : s.heapSize = 0) (x : ι) :
    (∃ r, cocolHeapElemDelete s x = .ok r) ↔ (s.elem x).heapIdx = -1 := by
  constructor
  · rintro ⟨⟨r, t⟩, hr⟩
    rcases cocolHeapElemDelete_cases hr with ⟨hidx, -⟩ | ⟨last, hread, -⟩
    · exact hidx
    · have := (read_eq_ok hread).1
      omega
  · intro hidx
    exact ⟨(-1, s), if_pos ⟨hidx, by omega⟩⟩

/-! ## Runs -/

/-- A call that returns either changes nothing or leaves the heap empty. -/
theorem Early.next (hs : Early s) {a : HeapCall ι} {r : ℤ} (h : heapCall s a = .ok (r, t)) :
    t = s ∨ t.heapSize = 0 := by
  have hsmall : s.heapSize - 1 = 0 := by
    rcases hs.cases with h0 | h1 <;> omega
  cases a with
  | insert x rest => exact .inl (cocolHeapInsert_eq_ok hs h).2.2.2
  | rootDelete =>
      obtain ⟨u, hu, heq⟩ := map_eq_ok_iff.mp h
      obtain ⟨-, rfl⟩ := Prod.mk.inj heq
      rcases cocolHeapRootDelete_placed hu with ⟨-, rfl⟩ | ⟨-, hplaced⟩
      · exact .inl rfl
      · exact .inr (hplaced.heapSize.trans hsmall)
  | elemDelete x =>
      rcases cocolHeapElemDelete_placed h with ⟨-, rfl⟩ | hplaced
      · exact .inl rfl
      · exact .inr (hplaced.heapSize.trans hsmall)
  | elemFree =>
      obtain ⟨u, hu, heq⟩ := map_eq_ok_iff.mp h
      obtain ⟨-, rfl⟩ := Prod.mk.inj heq
      rcases hs.cases with h0 | h1
      · exact .inl (Except.ok.inj ((cocolHeapElemFree_empty h0).symm.trans hu)).symm
      · rw [cocolHeapElemFree, h1] at hu
        obtain ⟨x, -, hu⟩ := bind_eq_ok hu
        split at hu
        · exact .inr (Except.ok.inj hu ▸ hsmall)
        · exact .inl (Except.ok.inj hu).symm

theorem Early.step (hs : Early s) {a : HeapCall ι} {r : ℤ} (h : heapCall s a = .ok (r, t)) :
    Early t := by
  rcases hs.next h with rfl | h0
  · exact hs
  · exact .of_empty h0

theorem Early.returns_iff (hs : Early s) (a : HeapCall ι) (ha : ∀ x rest, a ≠ .insert x rest) :
    (∃ r, heapCall s a = .ok r) ↔ Fits s a := by
  have hmap : ∀ y : Except Fault (CocolHeapHeader ι),
      (∃ r, y.map (fun t ↦ ((0 : ℤ), t)) = .ok r) ↔ ∃ t, y = .ok t := by
    intro y
    cases y <;> simp [Except.map]
  cases a with
  | insert x rest => exact absurd rfl (ha x rest)
  | rootDelete =>
      apply (hmap _).trans
      rcases hs.cases with h0 | h1
      · exact ⟨fun _ ↦ .inl h0, fun _ ↦ ⟨s, cocolHeapRootDelete_empty h0⟩⟩
      · apply (hs.rootDelete_iff h1).trans
        simp [Fits, h1]
  | elemDelete x =>
      rcases hs.cases with h0 | h1
      · apply (cocolHeapElemDelete_empty_iff h0 x).trans
        simp [Fits, h0]
      · apply (hs.elemDelete_iff h1 x).trans
        simp [Fits, h1]
  | elemFree =>
      apply (hmap _).trans
      rcases hs.cases with h0 | h1
      · exact ⟨fun _ ↦ .inl h0, fun _ ↦ ⟨s, cocolHeapElemFree_empty h0⟩⟩
      · apply (hs.elemFree_iff h1).trans
        simp [Fits, h1]

theorem Early.serves_iff_fits (hs : Early s) (a : HeapCall ι) : Serves s a ↔ Fits s a := by
  by_cases ha : ∃ x rest, a = .insert x rest
  · obtain ⟨x, rest, rfl⟩ := ha
    constructor
    · rintro ⟨r, t, hr, -, hins⟩
      obtain ⟨hrest, hgrow, hr1, -⟩ := cocolHeapInsert_eq_ok hs hr
      refine ⟨hrest, hgrow, fun h0 ↦ ?_⟩
      by_contra hroom
      have := (hins x rest rfl).1 h0 (Nat.pos_of_ne_zero hroom)
      omega
    · rintro ⟨rfl, hgrow, hroom⟩
      refine ⟨-1, s, cocolHeapInsert_none hgrow, hs.le, ?_⟩
      rintro y rest -
      refine ⟨fun h0 hpos ↦ ?_, fun _ ↦ rfl, fun _ h ↦ absurd h (by decide)⟩
      have := hroom h0
      omega
  · have hnot : ∀ x rest, a ≠ .insert x rest := fun x rest h ↦ ha ⟨x, rest, h⟩
    rw [← hs.returns_iff a hnot]
    constructor
    · rintro ⟨r, t, hr, -⟩
      exact ⟨(r, t), hr⟩
    · rintro ⟨⟨r, t⟩, hr⟩
      exact ⟨r, t, hr, (hs.step hr).le, fun x rest h ↦ absurd h (hnot x rest)⟩

theorem early_init (elem : ι → CocolHeap) (totalSize : ℕ) (mem : Bool) (first : Option ι) :
    ∃ r s, cocolHeapInit (cocolHeapHeaderInit elem totalSize) mem first = .ok (r, s) ∧
      Early s := by
  cases mem with
  | true =>
      refine ⟨0, _, rfl, Nat.le_of_ble_eq_true rfl, fun _ ↦ ⟨rfl, rfl, rfl, fun i hi ↦ ?_⟩⟩
      exact Function.update_of_ne hi.ne' first fun _ ↦ none
  | false => exact ⟨-1, _, rfl, .of_empty rfl⟩

/-- What a run from a fresh heap is asked for, it gives exactly when each
of its calls fits. -/
theorem serves_iff (elem : ι → CocolHeap) (totalSize : ℕ) (mem : Bool) (first : Option ι)
    (calls : List (HeapCall ι)) :
    ∃ r s, cocolHeapInit (cocolHeapHeaderInit elem totalSize) mem first = .ok (r, s) ∧
      s.heapSize ≤ s.totalSize ∧
      (EachStep heapStep Serves s calls ↔ EachStep heapStep Fits s calls) := by
  obtain ⟨r, s, hinit, hs⟩ := early_init elem totalSize mem first
  refine ⟨r, s, hinit, hs.le, ?_⟩
  have hearly : Always heapStep Early s calls := by
    apply always_of_step _ hs
    intro s a t hs ht
    obtain ⟨r, hr⟩ := heapStep_eq_ok ht
    exact hs.step hr
  constructor
  · intro h
    exact (hearly.andEachStep h).mono fun t a hta ↦ (hta.1.serves_iff_fits a).mp hta.2
  · intro h
    exact (hearly.andEachStep h).mono fun t a hta ↦ (hta.1.serves_iff_fits a).mpr hta.2

/-- Deleting an element that a fresh heap never held leaves the array, an
insertion with memory to spare is lost to a NULL pointer, and one into the
heap emptied by a deletion fails for want of memory. -/
theorem not_serves_fresh :
    ∃ s, cocolHeapInit (cocolHeapHeaderInit (fun _ : Bool ↦ ⟨0, 0, -1⟩) 128) true (some false) =
        .ok (0, s) ∧
      heapCall s (.elemDelete true) = .error .index ∧
      heapCall s (.insert true (some fun _ ↦ none)) = .error .null ∧
      ((heapStep s .rootDelete >>= fun t ↦ heapCall t (.insert true none)).map Prod.fst) =
        .ok (-1) ∧
      ¬EachStep heapStep Serves s [.elemDelete true] := by
  obtain ⟨s, hinit, hindex, hnull, hemptied⟩ : ∃ s,
      cocolHeapInit (cocolHeapHeaderInit (fun _ : Bool ↦ ⟨0, 0, -1⟩) 128) true (some false) =
        .ok (0, s) ∧
      heapCall s (.elemDelete true) = .error .index ∧
      heapCall s (.insert true (some fun _ ↦ none)) = .error .null ∧
      ((heapStep s .rootDelete >>= fun t ↦ heapCall t (.insert true none)).map Prod.fst) =
        .ok (-1) :=
    ⟨_, rfl, by decide, by decide, by decide⟩
  refine ⟨s, hinit, hindex, hnull, hemptied, ?_⟩
  rintro ⟨⟨r, t, hr, -⟩, -⟩
  simp [hindex] at hr

end Cocool.Heap
