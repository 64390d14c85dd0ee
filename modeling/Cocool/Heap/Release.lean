import Cocool.Heap.Order

/-!
# Releasing dead elements

An element with count -1 is dead.  `cocol_heap_elem_free` takes dead
elements off the end of the array and stops at the first live one.  A dead
element has no live descendants, but live elements can follow it in the
array, and then it stays.
-/

namespace Cocool.Heap

open Lib

namespace CocolHeapHeader

variable {ι : Type}

/-- The entries in use are inside of the block, and none of them is NULL. -/
structure Filled (s : CocolHeapHeader ι) : Prop where
  room : s.heapSize ≤ s.room
  entry : ∀ i, i < s.heapSize → ∃ x, s.proot i = some x

theorem mem_members {s : CocolHeapHeader ι} {x : ι} :
    x ∈ s.members ↔ ∃ i, i < s.heapSize ∧ s.proot i = some x := by
  simp [members, List.mem_filterMap, List.mem_range]

theorem Indexed.filled {s : CocolHeapHeader ι} (hs : s.Indexed) : s.Filled := by
  refine ⟨hs.room, fun i hi ↦ ?_⟩
  obtain ⟨x, hx, -⟩ := hs.entry i hi
  exact ⟨x, hx⟩

/-- An element stands in one place only. -/
theorem Indexed.index_unique {s : CocolHeapHeader ι} (hs : s.Indexed) {i j : ℕ} {x : ι}
    (hi : i < s.heapSize) (hj : j < s.heapSize) (hix : s.proot i = some x)
    (hjx : s.proot j = some x) : i = j := by
  obtain ⟨y, hy, hyi⟩ := hs.entry i hi
  obtain ⟨z, hz, hzj⟩ := hs.entry j hj
  obtain rfl : y = x := Option.some.inj (hy.symm.trans hix)
  obtain rfl : z = y := Option.some.inj (hz.symm.trans hjx)
  exact_mod_cast hyi.symm.trans hzj

/-- Every element from position `j` on is dead. -/
def DeadFrom (s : CocolHeapHeader ι) (j : ℕ) : Prop :=
  ∀ k x, j ≤ k → k < s.heapSize → s.proot k = some x → (s.elem x).refConut = -1

end CocolHeapHeader

/-- What `cocol_heap_elem_free` does: it lowers `heapSize` past dead
elements only, as far as it can, and notes for each of them that it has no
place any more. -/
structure Released {ι : Type} (s t : CocolHeapHeader ι) : Prop where
  proot : t.proot = s.proot
  room : t.room = s.room
  totalSize : t.totalSize = s.totalSize
  le : t.heapSize ≤ s.heapSize
  counts : ∀ x, (t.elem x).refConut = (s.elem x).refConut
  dead : s.DeadFrom t.heapSize
  cleared : ∀ i x, t.heapSize ≤ i → i < s.heapSize → s.proot i = some x →
    (t.elem x).heapIdx = -1
  kept : ∀ x, (∀ i, t.heapSize ≤ i → i < s.heapSize → s.proot i ≠ some x) → t.elem x = s.elem x
  last : ∀ x, 0 < t.heapSize → s.proot (t.heapSize - 1) = some x → (s.elem x).refConut ≠ -1

variable {ι : Type} {s t : CocolHeapHeader ι}

/-- Nothing was released. -/
theorem Released.none (hlast : ∀ x, 0 < s.heapSize → s.proot (s.heapSize - 1) = some x →
    (s.elem x).refConut ≠ -1) : Released s s := by
  refine ⟨rfl, rfl, rfl, le_rfl, fun _ ↦ rfl, ?_, ?_, fun _ _ ↦ rfl, hlast⟩
  · intro k x hk hlt
    omega
  · intro i x hi hlt
    omega

section

variable [DecidableEq ι]

theorem popped_refConut (s : CocolHeapHeader ι) (x y : ι) :
    ((popped s x).elem y).refConut = (s.elem y).refConut := by
  by_cases hy : y = x
  · simp [popped, hy]
  · simp [popped, hy]

theorem popped_heapIdx_self (s : CocolHeapHeader ι) (x : ι) :
    ((popped s x).elem x).heapIdx = -1 := by
  simp [popped]

theorem popped_elem_of_ne (s : CocolHeapHeader ι) {x y : ι} (hy : y ≠ x) :
    (popped s x).elem y = s.elem y := by
  simp [popped, hy]

/-- One dead element goes first, then the others. -/
theorem Released.pop {n : ℕ} {x : ι} (hn : s.heapSize = n + 1) (hx : s.proot n = some x)
    (hdead : (s.elem x).refConut = -1) (h : Released (popped s x) t) : Released s t := by
  have hsize : (popped s x).heapSize = n := by simp [popped, hn]
  have hle : t.heapSize ≤ n := hsize ▸ h.le
  refine ⟨h.proot, h.room, h.totalSize, by omega, ?_, ?_, ?_, ?_, ?_⟩
  · intro y
    exact (h.counts y).trans (popped_refConut s x y)
  · intro k y hk hlt hy
    rcases (Nat.lt_succ_iff.mp (hn ▸ hlt)).lt_or_eq with hkn | rfl
    · rw [← popped_refConut s x]
      exact h.dead k y hk (hsize ▸ hkn) hy
    · rw [hx] at hy
      exact Option.some.inj hy ▸ hdead
  · intro i y hi hlt hy
    rcases (Nat.lt_succ_iff.mp (hn ▸ hlt)).lt_or_eq with hin | rfl
    · exact h.cleared i y hi (hsize ▸ hin) hy
    · rw [hx] at hy
      obtain rfl : x = y := Option.some.inj hy
      -- it keeps the note, unless it is released once more
      by_cases hagain : ∃ j, t.heapSize ≤ j ∧ j < (popped s x).heapSize ∧
          (popped s x).proot j = some x
      · obtain ⟨j, hj, hjn, hjx⟩ := hagain
        exact h.cleared j x hj hjn hjx
      · rw [h.kept x fun j hj hjn hjx ↦ hagain ⟨j, hj, hjn, hjx⟩]
        exact popped_heapIdx_self s x
  · intro y hy
    have hne : y ≠ x := by
      rintro rfl
      exact hy n hle (by omega) hx
    rw [h.kept y fun i hi hlt ↦ hy i hi (by omega)]
    exact popped_elem_of_ne s hne
  · intro y hpos hy
    rw [← popped_refConut s x]
    exact h.last y hpos hy

theorem elemFreeLoop_released {n : ℕ} (hn : s.heapSize = n) (hs : s.Filled) :
    ∃ t, elemFreeLoop n s = .ok t ∧ Released s t := by
  induction n generalizing s with
  | zero => exact ⟨s, rfl, .none fun x hpos ↦ by omega⟩
  | succ n ih =>
      obtain ⟨x, hx⟩ := hs.entry n (by omega)
      have hroom := hs.room
      have hread : s.read n = .ok x := read_of_some (by omega) hx
      by_cases hdead : (s.elem x).refConut = -1
      · have hsize : (popped s x).heapSize = n := by simp [popped, hn]
        have hfilled : (popped s x).Filled := by
          refine ⟨?_, fun i hi ↦ hs.entry i (by omega)⟩
          have : (popped s x).room = s.room := rfl
          omega
        obtain ⟨t, ht, hrel⟩ := ih hsize hfilled
        refine ⟨t, ?_, hrel.pop hn hx hdead⟩
        simp only [elemFreeLoop, hread, bind, Except.bind, if_pos hdead]
        exact ht
      · refine ⟨s, ?_, .none ?_⟩
        · simp only [elemFreeLoop, hread, bind, Except.bind, if_neg hdead]
        · intro y _ hy
          rw [hn, Nat.add_sub_cancel, hx] at hy
          exact Option.some.inj hy ▸ hdead

theorem cocolHeapElemFree_released (hs : s.Filled) :
    ∃ t, cocolHeapElemFree s = .ok t ∧ Released s t :=
  elemFreeLoop_released rfl hs

end

/-! ## What is left of a valid heap -/

theorem Released.mem_members (h : Released s t) {x : ι} :
    x ∈ t.members ↔ ∃ i, i < t.heapSize ∧ s.proot i = some x := by
  rw [CocolHeapHeader.mem_members, h.proot]

theorem Released.subset (h : Released s t) {x : ι} (hx : x ∈ t.members) : x ∈ s.members := by
  obtain ⟨i, hi, hix⟩ := h.mem_members.mp hx
  exact CocolHeapHeader.mem_members.mpr ⟨i, hi.trans_le h.le, hix⟩

theorem Released.elem_eq (h : Released s t) (hs : s.Indexed) {i : ℕ} {x : ι}
    (hi : i < t.heapSize) (hx : s.proot i = some x) : t.elem x = s.elem x := by
  apply h.kept
  intro j hj hlt hjx
  have := hs.index_unique (hi.trans_le h.le) hlt hx hjx
  omega

theorem Released.valid (h : Released s t) (hs : s.Valid) : t.Valid := by
  refine ⟨?_, ?_, ?_, ?_⟩
  · rw [h.room]
    exact h.le.trans hs.room
  · intro i hi
    obtain ⟨x, hx, hidx⟩ := hs.entry i (hi.trans_le h.le)
    refine ⟨x, h.proot ▸ hx, ?_⟩
    rw [h.elem_eq hs.indexed hi hx]
    exact hidx
  · have hsub : List.Sublist t.members s.members := by
      unfold CocolHeapHeader.members
      rw [h.proot]
      exact (List.range_sublist.mpr h.le).filterMap s.proot
    exact hs.distinct.sublist hsub
  · intro i x p h0 hi hx hp
    rw [h.counts, h.counts]
    rw [h.proot] at hx hp
    exact hs.ordered i x p h0 (hi.trans_le h.le) hx hp

/-- No dead element is left, the removed ones note that they have no
place, and the live ones are all there, in a valid heap. -/
structure Clean (s t : CocolHeapHeader ι) : Prop where
  live : ∀ x ∈ t.members, (t.elem x).refConut ≠ -1
  cleared : ∀ x ∈ s.members, x ∉ t.members → (t.elem x).heapIdx = -1
  kept : ∀ x ∈ s.members, 0 ≤ (s.elem x).refConut → x ∈ t.members
  valid : t.Valid

/-- All but the first part holds whatever the shape of the heap. -/
theorem Released.clean (h : Released s t) (hs : s.Valid)
    (hlive : ∀ x ∈ t.members, (s.elem x).refConut ≠ -1) : Clean s t := by
  refine ⟨fun x hx ↦ ?_, ?_, ?_, h.valid hs⟩
  · rw [h.counts]
    exact hlive x hx
  · intro x hx hgone
    obtain ⟨i, hi, hix⟩ := CocolHeapHeader.mem_members.mp hx
    apply h.cleared i x _ hi hix
    by_contra hlt
    exact hgone (h.mem_members.mpr ⟨i, Nat.lt_of_not_le hlt, hix⟩)
  · intro x hx hcount
    obtain ⟨i, hi, hix⟩ := CocolHeapHeader.mem_members.mp hx
    apply h.mem_members.mpr ⟨i, _, hix⟩
    by_contra hlt
    have := h.dead i x (Nat.le_of_not_lt hlt) hi hix
    omega

variable [DecidableEq ι]

/-- The dead elements are all released exactly when no live one stands
behind a dead one. -/
theorem cocolHeapElemFree_clean_iff (s : CocolHeapHeader ι) (hs : s.Valid) :
    (∃ t, cocolHeapElemFree s = .ok t ∧ Clean s t) ↔
      ∀ i j x y, i < j → j < s.heapSize → s.proot i = some x → s.proot j = some y →
        (s.elem x).refConut = -1 → (s.elem y).refConut = -1 := by
  obtain ⟨t, ht, hrel⟩ := cocolHeapElemFree_released hs.indexed.filled
  constructor
  · rintro ⟨u, hu, hclean⟩ i j x y hij hj hx hy hdead
    obtain rfl : t = u := Except.ok.inj (ht.symm.trans hu)
    apply hrel.dead j y _ hj hy
    by_contra hlt
    have hmem : x ∈ t.members := hrel.mem_members.mpr ⟨i, by omega, hx⟩
    exact hclean.live x hmem ((hrel.counts x).trans hdead)
  · intro hsuffix
    refine ⟨t, ht, hrel.clean hs fun x hx hdead ↦ ?_⟩
    obtain ⟨i, hi, hix⟩ := hrel.mem_members.mp hx
    -- the last element that stayed is live
    obtain ⟨y, hy, -⟩ := hs.entry (t.heapSize - 1) (by have := hrel.le; omega)
    have hlast := hrel.last y (by omega) hy
    rcases (Nat.le_sub_one_of_lt hi).lt_or_eq with hlt | rfl
    · exact hlast (hsuffix i _ x y hlt (by have := hrel.le; omega) hix hy hdead)
    · exact hlast (Option.some.inj (hy.symm.trans hix) ▸ hdead)

/-- Elements `0` and `2` are live, `1` between them is dead. -/
def deadInside : CocolHeapHeader (Fin 3) where
  proot := fun i ↦ if i < 3 then some (Fin.ofNat 3 i) else none
  room := 3
  elem := fun x ↦ ⟨0, if x = 0 then 5 else if x = 1 then -1 else 3, x⟩
  heapSize := 3
  totalSize := 3

theorem deadInside_valid : deadInside.Valid := by
  refine ⟨by decide, by decide, by decide, ?_⟩
  intro i x p h0 hi
  change i < 3 at hi
  interval_cases i <;> revert x p <;> decide

theorem cocolHeapElemFree_not_clean :
    deadInside.Valid ∧ (∀ x ∈ deadInside.members, -1 ≤ (deadInside.elem x).refConut) ∧
      ¬∃ t, cocolHeapElemFree deadInside = .ok t ∧ Clean deadInside t := by
  refine ⟨deadInside_valid, by decide, ?_⟩
  rintro ⟨t, ht, hclean⟩
  have hstuck : (cocolHeapElemFree deadInside).map (fun t ↦ t.members) = .ok [0, 1, 2] ∧
      (cocolHeapElemFree deadInside).map (fun t ↦ (t.elem 1).refConut) = .ok (-1) := by decide
  rw [ht] at hstuck
  have hmem : t.members = [0, 1, 2] := Except.ok.inj hstuck.1
  exact hclean.live 1 (by simp [hmem]) (Except.ok.inj hstuck.2)

/-- The dead element `2` is the last one. -/
def deadLast : CocolHeapHeader (Fin 3) :=
  { deadInside with elem := fun x ↦ ⟨0, if x = 0 then 5 else if x = 1 then 3 else -1, x⟩ }

theorem deadLast_valid : deadLast.Valid := by
  refine ⟨by decide, by decide, by decide, ?_⟩
  intro i x p h0 hi
  change i < 3 at hi
  interval_cases i <;> revert x p <;> decide

theorem cocolHeapElemFree_clean_iff_last :
    ∃ t, cocolHeapElemFree deadLast = .ok t ∧ Clean deadLast t ∧ t.members = [0, 1] := by
  obtain ⟨t, ht, hclean⟩ := (cocolHeapElemFree_clean_iff deadLast deadLast_valid).2 (by
    intro i j x y hij hj
    change j < 3 at hj
    interval_cases j <;> interval_cases i <;> revert x y <;> decide)
  have hrun : (cocolHeapElemFree deadLast).map CocolHeapHeader.members = .ok [0, 1] := by decide
  rw [ht] at hrun
  exact ⟨t, ht, hclean, Except.ok.inj hrun⟩
end Cocool.Heap
