import Cocool.Heap.Release

/-!
# Who is in the heap

An element that is in no heap carries the position -1, and
`cocol_heap_elem_delete` relies on it.  Inserting notes a position and
`cocol_heap_elem_free` takes it back, but neither of the two deletions
does.
-/

namespace Cocool.Heap

open Lib

variable {ι : Type} [DecidableEq ι]

namespace CocolHeapHeader

/-- The elements in `proot[0..heapSize-1]` are those that note a position. -/
def Tracked (s : CocolHeapHeader ι) : Prop :=
  ∀ x, x ∈ s.members ↔ (s.elem x).heapIdx ≠ -1

end CocolHeapHeader

section Stores

variable {s t u : CocolHeapHeader ι} {x y : ι} {n h i fuel : ℕ}

omit [DecidableEq ι] in
theorem read_eq_ok {z : ℤ} (hx : s.read z = .ok x) :
    0 ≤ z ∧ z < s.room ∧ s.proot z.toNat = some x := by
  unfold CocolHeapHeader.read at hx
  split at hx
  · next hz =>
      cases hp : s.proot z.toNat with
      | none => simp [hp] at hx
      | some w =>
          simp only [hp, Except.ok.injEq] at hx
          exact ⟨hz.1, hz.2, congrArg some hx⟩
  · simp at hx

theorem place_eq_ok {z : ℤ} (ht : s.place z x = .ok t) :
    0 ≤ z ∧ z < s.room ∧ t = { s with
      proot := Function.update s.proot z.toNat (some x)
      elem := Function.update s.elem x { s.elem x with heapIdx := z } } := by
  unfold CocolHeapHeader.place at ht
  split at ht
  · next hz => exact ⟨hz.1, hz.2, (Except.ok.inj ht).symm⟩
  · simp at ht

/-! ## An element on its way -/

/-- The first `n + 1` entries, but for the hole at `h`, hold the elements
with the property `M`, and these are the ones that note a position. -/
structure Aloft (M : ι → Prop) (s : CocolHeapHeader ι) (n h : ℕ) : Prop where
  le : h ≤ n
  filled : ∀ k, k ≤ n → k ≠ h → ∃ x, s.proot k = some x
  held : ∀ x, (∃ k, k ≤ n ∧ k ≠ h ∧ s.proot k = some x) ↔ M x
  noted : ∀ x, M x ↔ (s.elem x).heapIdx ≠ -1

variable {M : ι → Prop}

theorem Aloft.move {p : ℕ} (ha : Aloft M s n h) (hp : p ≤ n) (hne : p ≠ h)
    (hx : s.proot p = some x) (ht : s.place h x = .ok t) : Aloft M t n p := by
  obtain ⟨-, -, rfl⟩ := place_eq_ok ht
  have hM : M x := (ha.held x).mp ⟨p, hp, hne, hx⟩
  refine ⟨hp, ?_, ?_, ?_⟩
  · intro k hk hkp
    by_cases hkh : k = h
    · exact ⟨x, by simp [hkh]⟩
    · obtain ⟨y, hy⟩ := ha.filled k hk hkh
      exact ⟨y, by simpa [hkh] using hy⟩
  · intro y
    constructor
    · rintro ⟨k, hk, hkp, hy⟩
      by_cases hkh : k = h
      · obtain rfl : x = y := by simpa [hkh] using hy
        exact hM
      · exact (ha.held y).mp ⟨k, hk, hkh, by simpa [hkh] using hy⟩
    · intro hMy
      obtain ⟨k, hk, hkh, hy⟩ := (ha.held y).mpr hMy
      by_cases hkp : k = p
      · -- what stood at `p` stands at `h` now
        obtain rfl : x = y := by simpa [hkp, hx] using hy
        exact ⟨h, ha.le, hne.symm, by simp⟩
      · exact ⟨k, hk, hkp, by simpa [hkh] using hy⟩
  · intro y
    by_cases hyx : y = x
    · simp [hyx, hM]
    · simpa [hyx] using ha.noted y

theorem Aloft.finish (ha : Aloft M s n h) (hsize : s.heapSize = n + 1) (hroom : n < s.room)
    (ht : s.place h x = .ok t) :
    t.Filled ∧ ∀ y, (y ∈ t.members ↔ M y ∨ y = x) ∧ (M y ∨ y = x ↔ (t.elem y).heapIdx ≠ -1) := by
  obtain ⟨-, -, rfl⟩ := place_eq_ok ht
  refine ⟨⟨hsize.trans_le hroom, ?_⟩, fun y ↦ ⟨?_, ?_⟩⟩
  · intro k hk
    by_cases hkh : k = h
    · exact ⟨x, by simp [hkh]⟩
    · obtain ⟨y, hy⟩ := ha.filled k (by simpa [hsize, Nat.lt_succ_iff] using hk) hkh
      exact ⟨y, by simpa [hkh] using hy⟩
  · rw [CocolHeapHeader.mem_members]
    constructor
    · rintro ⟨k, hk, hy⟩
      by_cases hkh : k = h
      · exact .inr (by simpa [hkh, eq_comm] using hy)
      · have hkn : k ≤ n := by simpa [hsize, Nat.lt_succ_iff] using hk
        exact .inl ((ha.held y).mp ⟨k, hkn, hkh, by simpa [hkh] using hy⟩)
    · rintro (hM | rfl)
      · obtain ⟨k, hk, hkh, hy⟩ := (ha.held y).mpr hM
        exact ⟨k, (Nat.lt_succ_of_le hk).trans_eq hsize.symm, by simpa [hkh] using hy⟩
      · exact ⟨h, (Nat.lt_succ_of_le ha.le).trans_eq hsize.symm, by simp⟩
  · by_cases hyx : y = x
    · simp [hyx]
    · simpa [hyx] using ha.noted y

/-- One turn of the loop: it stops, or moves the parent down. -/
theorem shiftUpLoop_cases (hrun : shiftUpLoop x (fuel + 1) h s = .ok (i, t)) :
    (i = h ∧ t = s) ∨ ∃ p u, 0 < h ∧ s.proot (parent h) = some p ∧ s.place h p = .ok u ∧
      shiftUpLoop x fuel (parent h) u = .ok (i, t) := by
  rw [shiftUpLoop] at hrun
  split at hrun
  · obtain ⟨rfl, rfl⟩ := Prod.mk.inj (Except.ok.inj hrun)
    exact .inl ⟨rfl, rfl⟩
  · next h0 =>
      have hpos : 0 < h := Nat.pos_of_ne_zero h0
      rw [unsignedParent_eq hpos] at hrun
      obtain ⟨p, hread, hrun⟩ := bind_eq_ok hrun
      split at hrun
      · obtain ⟨u, hplace, hrun⟩ := bind_eq_ok hrun
        exact .inr ⟨p, u, hpos, (read_eq_ok hread).2.2, hplace, hrun⟩
      · obtain ⟨rfl, rfl⟩ := Prod.mk.inj (Except.ok.inj hrun)
        exact .inl ⟨rfl, rfl⟩

theorem shiftUpLoop_aloft (ha : Aloft M s n h)
    (hrun : shiftUpLoop x fuel h s = .ok (i, t)) :
    Aloft M t n i ∧ t.room = s.room ∧ t.heapSize = s.heapSize := by
  induction fuel generalizing s h with
  | zero =>
      obtain ⟨rfl, rfl⟩ := Prod.mk.inj (Except.ok.inj hrun)
      exact ⟨ha, rfl, rfl⟩
  | succ fuel ih =>
      rcases shiftUpLoop_cases hrun with ⟨rfl, rfl⟩ | ⟨p, u, hpos, hp, hplace, hrest⟩
      · exact ⟨ha, rfl, rfl⟩
      · have hlt := parent_lt hpos
        have hmove := ha.move (hlt.le.trans ha.le) hlt.ne hp hplace
        obtain ⟨-, -, hu⟩ := place_eq_ok hplace
        obtain ⟨hend, hroom, hsize⟩ := ih hmove hrest
        exact ⟨hend, by rw [hroom, hu], by rw [hsize, hu]⟩

/-- A loop that moves anything has stored at `heapIndex`. -/
theorem shiftUpLoop_room (hrun : shiftUpLoop x fuel h s = .ok (i, t)) :
    h < s.room ∨ i = h ∧ t = s := by
  cases fuel with
  | zero =>
      obtain ⟨rfl, rfl⟩ := Prod.mk.inj (Except.ok.inj hrun)
      exact .inr ⟨rfl, rfl⟩
  | succ fuel =>
      rcases shiftUpLoop_cases hrun with ⟨rfl, rfl⟩ | ⟨p, u, -, -, hplace, -⟩
      · exact .inr ⟨rfl, rfl⟩
      · obtain ⟨-, hlt, -⟩ := place_eq_ok hplace
        exact .inl (by exact_mod_cast hlt)

theorem cocolHeapShiftUp_eq_ok (hrun : cocolHeapShiftUp s h x = .ok t) :
    0 < h ∧ h < s.room ∧ ∃ i u, shiftUpLoop x h h s = .ok (i, u) ∧ u.place i x = .ok t := by
  unfold cocolHeapShiftUp at hrun
  split at hrun
  · simp at hrun
  · next h0 =>
      obtain ⟨⟨i, u⟩, hloop, hplace⟩ := bind_eq_ok hrun
      refine ⟨Nat.pos_of_ne_zero h0, ?_, i, u, hloop, hplace⟩
      rcases shiftUpLoop_room hloop with hlt | ⟨rfl, rfl⟩
      · exact hlt
      · obtain ⟨-, hlt, -⟩ := place_eq_ok hplace
        exact_mod_cast hlt

/-! ## Positions once noted -/

/-- `t` comes out of `s` by stores into the array. -/
inductive Placed : CocolHeapHeader ι → CocolHeapHeader ι → Prop
  | refl (s : CocolHeapHeader ι) : Placed s s
  | store {s t u : CocolHeapHeader ι} {z : ℤ} {x : ι} (h : s.place z x = .ok t)
      (htail : Placed t u) : Placed s u

theorem Placed.single {z : ℤ} (h : s.place z x = .ok t) : Placed s t := .store h (.refl t)

theorem Placed.trans (hst : Placed s t) (htu : Placed t u) : Placed s u := by
  induction hst with
  | refl s => exact htu
  | store h _ ih => exact .store h (ih htu)

theorem Placed.heapSize (h : Placed s t) : t.heapSize = s.heapSize := by
  induction h with
  | refl s => rfl
  | store hplace _ ih =>
      obtain ⟨-, -, rfl⟩ := place_eq_ok hplace
      exact ih

/-- No store takes a position back. -/
theorem Placed.noted (h : Placed s t) (hy : (s.elem y).heapIdx ≠ -1) :
    (t.elem y).heapIdx ≠ -1 := by
  induction h with
  | refl s => exact hy
  | @store s t u z x hplace _ ih =>
      obtain ⟨hz, -, rfl⟩ := place_eq_ok hplace
      apply ih
      by_cases hyx : y = x
      · simpa [hyx] using by omega
      · simpa [hyx] using hy

theorem shiftUpLoop_placed (hrun : shiftUpLoop x fuel h s = .ok (i, t)) : Placed s t := by
  induction fuel generalizing s h with
  | zero =>
      obtain ⟨rfl, rfl⟩ := Prod.mk.inj (Except.ok.inj hrun)
      exact .refl s
  | succ fuel ih =>
      rcases shiftUpLoop_cases hrun with ⟨rfl, rfl⟩ | ⟨p, u, -, -, hplace, hrest⟩
      · exact .refl t
      · exact .store hplace (ih hrest)

theorem cocolHeapShiftUpFroce_placed (hrun : cocolHeapShiftUpFroce s h x = .ok t) :
    Placed s t := by
  obtain ⟨p, -, hrun⟩ := bind_eq_ok hrun
  obtain ⟨u, hfirst, hrun⟩ := bind_eq_ok hrun
  obtain ⟨⟨i, v⟩, hloop, hlast⟩ := bind_eq_ok hrun
  exact .store hfirst ((shiftUpLoop_placed hloop).trans (.single hlast))

theorem shiftDownLoop_placed {k j z : ℤ} (hrun : shiftDownLoop x fuel k s = .ok (z, j, t)) :
    Placed s t := by
  induction fuel generalizing s k with
  | zero =>
      obtain ⟨-, h⟩ := Prod.mk.inj (Except.ok.inj hrun)
      exact (Prod.mk.inj h).2 ▸ .refl s
  | succ fuel ih =>
      rw [shiftDownLoop] at hrun
      split at hrun
      · obtain ⟨l, -, hrun⟩ := bind_eq_ok hrun
        obtain ⟨r, -, hrun⟩ := bind_eq_ok hrun
        obtain ⟨c, -, hrun⟩ := bind_eq_ok hrun
        split at hrun
        · obtain ⟨-, h⟩ := Prod.mk.inj (Except.ok.inj hrun)
          exact (Prod.mk.inj h).2 ▸ .refl s
        · obtain ⟨u, hplace, hrun⟩ := bind_eq_ok hrun
          exact .store hplace (ih hrun)
      · obtain ⟨-, h⟩ := Prod.mk.inj (Except.ok.inj hrun)
        exact (Prod.mk.inj h).2 ▸ .refl s

theorem cocolHeapShiftDown_placed {z : ℤ} (hrun : cocolHeapShiftDown s z x = .ok t) :
    Placed s t := by
  obtain ⟨⟨i, j, u⟩, hloop, hrun⟩ := bind_eq_ok hrun
  apply (shiftDownLoop_placed hloop).trans
  dsimp only at hrun
  split at hrun
  · obtain ⟨c, -, hrun⟩ := bind_eq_ok hrun
    split at hrun
    · obtain ⟨v, hplace, hlast⟩ := bind_eq_ok hrun
      exact .store hplace (.single hlast)
    · exact .single hrun
  · exact .single hrun

theorem cocolHeapRootDelete_placed (hrun : cocolHeapRootDelete s = .ok t) :
    (s.heapSize = 0 ∧ t = s) ∨
      (0 < s.heapSize ∧ Placed { s with heapSize := s.heapSize - 1 } t) := by
  unfold cocolHeapRootDelete at hrun
  split at hrun
  · next h0 => exact .inl ⟨h0, (Except.ok.inj hrun).symm⟩
  · next h0 =>
      obtain ⟨x, -, hrun⟩ := bind_eq_ok hrun
      exact .inr ⟨Nat.pos_of_ne_zero h0, cocolHeapShiftDown_placed hrun⟩

/-- Either the guard applies, or the last element is sifted up or down
from the noted position. -/
theorem cocolHeapElemDelete_cases {r : ℤ} (hrun : cocolHeapElemDelete s x = .ok (r, t)) :
    ((s.elem x).heapIdx = -1 ∧ s.heapSize = 0 ∧ r = -1 ∧ t = s) ∨
      ∃ last, s.read (s.heapSize - 1) = .ok last ∧ r = 0 ∧
        (cocolHeapShiftUpFroce { s with heapSize := s.heapSize - 1 } (s.elem x).heapIdx.toNat
            last = .ok t ∧ 0 < (s.elem x).heapIdx ∧
            (∃ p, s.read (((s.elem x).heapIdx - 1).tdiv 2) = .ok p ∧
              cocolHeapElemGreater s last p = true) ∨
          cocolHeapShiftDown { s with heapSize := s.heapSize - 1 } (s.elem x).heapIdx last =
            .ok t ∧ (0 < (s.elem x).heapIdx →
              ∃ p, s.read (((s.elem x).heapIdx - 1).tdiv 2) = .ok p)) := by
  simp only [cocolHeapElemDelete] at hrun
  split at hrun
  · next hguard =>
      obtain ⟨rfl, rfl⟩ := Prod.mk.inj (Except.ok.inj hrun)
      exact .inl ⟨hguard.1, by omega, rfl, rfl⟩
  · obtain ⟨last, hlast, hrun⟩ := bind_eq_ok hrun
    refine .inr ⟨last, hlast, ?_⟩
    split at hrun
    · next hpos =>
        obtain ⟨up, hup, hrun⟩ := bind_eq_ok hrun
        obtain ⟨p, hp, rfl⟩ := map_eq_ok_iff.mp hup
        split at hrun
        · next hgreater =>
            obtain ⟨u, hu, heq⟩ := map_eq_ok_iff.mp hrun
            obtain ⟨rfl, rfl⟩ := Prod.mk.inj heq
            exact ⟨rfl, .inl ⟨hu, hpos, p, hp, hgreater⟩⟩
        · obtain ⟨u, hu, heq⟩ := map_eq_ok_iff.mp hrun
          obtain ⟨rfl, rfl⟩ := Prod.mk.inj heq
          exact ⟨rfl, .inr ⟨hu, fun _ ↦ ⟨p, hp⟩⟩⟩
    · next hpos =>
        obtain ⟨up, hup, hrun⟩ := bind_eq_ok hrun
        obtain rfl : false = up := Except.ok.inj hup
        obtain ⟨u, hu, heq⟩ := map_eq_ok_iff.mp hrun
        obtain ⟨rfl, rfl⟩ := Prod.mk.inj heq
        exact ⟨rfl, .inr ⟨hu, fun h ↦ absurd h hpos⟩⟩

theorem cocolHeapElemDelete_placed {r : ℤ} (hrun : cocolHeapElemDelete s x = .ok (r, t)) :
    (s.heapSize = 0 ∧ t = s) ∨ Placed { s with heapSize := s.heapSize - 1 } t := by
  rcases cocolHeapElemDelete_cases hrun with ⟨-, h0, -, rfl⟩ | ⟨last, -, -, ⟨hup, -⟩ | ⟨hdown, -⟩⟩
  · exact .inl ⟨h0, rfl⟩
  · exact .inr (cocolHeapShiftUpFroce_placed hup)
  · exact .inr (cocolHeapShiftDown_placed hdown)

end Stores

/-! ## Inserting -/

section Insert

variable {s t : CocolHeapHeader ι} {x : ι}

/-- An insertion that returns found room, and a heap that was not empty. -/
theorem insertElem_room (h : insertElem s x = .ok t) : 0 < s.heapSize ∧ s.heapSize < s.room := by
  obtain ⟨h0, hroom, -⟩ := cocolHeapShiftUp_eq_ok h
  exact ⟨h0, hroom⟩

theorem insertElem_tracked (hs : s.Filled) (htrack : s.Tracked) (h : insertElem s x = .ok t) :
    t.Filled ∧ t.Tracked := by
  obtain ⟨-, hroom, i, u, hloop, hplace⟩ := cocolHeapShiftUp_eq_ok h
  have hstart : Aloft (· ∈ s.members) { s with heapSize := s.heapSize + 1 } s.heapSize
      s.heapSize := by
    refine ⟨le_rfl, fun k hk hne ↦ hs.entry k (lt_of_le_of_ne hk hne), ?_, htrack⟩
    intro y
    rw [CocolHeapHeader.mem_members]
    constructor
    · rintro ⟨k, hk, hne, hy⟩
      exact ⟨k, lt_of_le_of_ne hk hne, hy⟩
    · rintro ⟨k, hk, hy⟩
      exact ⟨k, hk.le, hk.ne, hy⟩
  obtain ⟨hend, huroom, husize⟩ := shiftUpLoop_aloft hstart hloop
  obtain ⟨hfilled, hmem⟩ := hend.finish husize (huroom ▸ hroom) hplace
  exact ⟨hfilled, fun y ↦ (hmem y).1.trans (hmem y).2⟩

/-- The heap that `cocol_heap_insert` sifts into after it has replaced the
block: the element behind `proot[totalSize-1]` lost its count. -/
def enlarged (s : CocolHeapHeader ι) (rest : ℕ → Option ι) (x : ι) : CocolHeapHeader ι :=
  { resized s rest with
    elem := Function.update s.elem x { s.elem x with code := 0, refConut := 0 }
    totalSize := s.totalSize + 128 }

theorem cocolHeapInsert_cases {rest : Option (ℕ → Option ι)} {r : ℤ}
    (h : cocolHeapInsert s x rest = .ok (r, t)) :
    (1 < (s.totalSize : ℤ) - s.heapSize ∧ rest = none ∧ r = -1 ∧ t = s) ∨
    (1 < (s.totalSize : ℤ) - s.heapSize ∧ ∃ fresh y, rest = some fresh ∧
      (resized s fresh).read (s.totalSize - 1) = .ok y ∧ r = 0 ∧
      insertElem (enlarged s fresh y) x = .ok t) ∨
    ((s.totalSize : ℤ) - s.heapSize ≤ 1 ∧ r = 0 ∧ insertElem s x = .ok t) := by
  unfold cocolHeapInsert at h
  split at h
  · next hgrow =>
    cases rest with
    | none =>
        obtain ⟨rfl, rfl⟩ := Prod.mk.inj (Except.ok.inj h)
        exact .inl ⟨hgrow, rfl, rfl, rfl⟩
    | some fresh =>
        obtain ⟨y, hread, h⟩ := bind_eq_ok h
        obtain ⟨u, hu, heq⟩ := map_eq_ok_iff.mp h
        obtain ⟨rfl, rfl⟩ := Prod.mk.inj heq
        exact .inr (.inl ⟨hgrow, fresh, y, rfl, hread, rfl, hu⟩)
  · next hfull =>
    obtain ⟨u, hu, heq⟩ := map_eq_ok_iff.mp h
    obtain ⟨rfl, rfl⟩ := Prod.mk.inj heq
    exact .inr (.inr ⟨by omega, rfl, hu⟩)

theorem enlarged_heapIdx (s : CocolHeapHeader ι) (rest : ℕ → Option ι) (x y : ι) :
    ((enlarged s rest x).elem y).heapIdx = (s.elem y).heapIdx := by
  by_cases hy : y = x
  · simp [enlarged, hy]
  · simp [enlarged, hy]

theorem enlarged_proot {rest : ℕ → Option ι} {i : ℕ} (y : ι) (hroom : i < s.room)
    (hblock : i < blockRoom) : (enlarged s rest y).proot i = s.proot i :=
  if_pos (lt_min hroom hblock)

theorem enlarged_tracked {rest : ℕ → Option ι} (y : ι) (hs : s.Filled) (htrack : s.Tracked)
    (hblock : s.heapSize < blockRoom) :
    (enlarged s rest y).Filled ∧ (enlarged s rest y).Tracked := by
  have hproot : ∀ i, i < s.heapSize → (enlarged s rest y).proot i = s.proot i :=
    fun i hi ↦ enlarged_proot y (hi.trans_le hs.room) (hi.trans hblock)
  refine ⟨⟨hblock.le, fun i hi ↦ ?_⟩, fun z ↦ ?_⟩
  · rw [hproot i hi]
    exact hs.entry i hi
  · rw [enlarged_heapIdx, ← htrack z, CocolHeapHeader.mem_members, CocolHeapHeader.mem_members]
    constructor
    · rintro ⟨i, hi, hz⟩
      exact ⟨i, hi, hproot i hi ▸ hz⟩
    · rintro ⟨i, hi, hz⟩
      exact ⟨i, hi, (hproot i hi).trans hz⟩

theorem cocolHeapInsert_tracked {rest : Option (ℕ → Option ι)} {r : ℤ} (hs : s.Filled)
    (htrack : s.Tracked) (h : cocolHeapInsert s x rest = .ok (r, t)) :
    t.Filled ∧ t.Tracked := by
  rcases cocolHeapInsert_cases h with
    ⟨-, -, -, rfl⟩ | ⟨-, fresh, y, -, -, -, hins⟩ | ⟨-, -, hins⟩
  · exact ⟨hs, htrack⟩
  · obtain ⟨hfilled, htracked⟩ := enlarged_tracked y hs htrack (insertElem_room hins).2
    exact insertElem_tracked hfilled htracked hins
  · exact insertElem_tracked hs htrack hins

end Insert

/-! ## Runs -/

section Runs

variable {s t : CocolHeapHeader ι}

/-- A call that leaves no removed element with a position: the deletions
find the heap empty, and no released element has a second place in front of
the released ones. -/
def Clears (s : CocolHeapHeader ι) : HeapCall ι → Prop
  | .insert _ _ => True
  | .rootDelete => s.heapSize = 0
  | .elemDelete _ => s.heapSize = 0
  | .elemFree => ∀ i j, i < j → j < s.heapSize → s.proot i = s.proot j → s.DeadFrom j →
      s.DeadFrom i

/-- Deleting what is in no heap returns -1 and changes nothing. -/
def Refuses (s : CocolHeapHeader ι) (a : HeapCall ι) : Prop :=
  ∀ x, a = .elemDelete x → x ∉ s.members → heapCall s a = .ok (-1, s)

omit [DecidableEq ι] in
theorem CocolHeapHeader.members_of_empty (h0 : s.heapSize = 0) : s.members = [] := by
  simp [members, h0]

theorem cocolHeapElemDelete_empty (htrack : s.Tracked) (h0 : s.heapSize = 0) (x : ι) :
    cocolHeapElemDelete s x = .ok (-1, s) := by
  have hidx : (s.elem x).heapIdx = -1 := by
    by_contra hne
    have hmem := (htrack x).mpr hne
    simp [s.members_of_empty h0] at hmem
  rw [cocolHeapElemDelete, if_pos ⟨hidx, by omega⟩]

omit [DecidableEq ι] in
theorem Released.tracked (h : Released s t) (htrack : s.Tracked)
    (honce : ∀ i j, i < j → j < s.heapSize → s.proot i = s.proot j → s.DeadFrom j →
      s.DeadFrom i) (hs : s.Filled) : t.Tracked := by
  intro x
  by_cases hgone : ∃ j, t.heapSize ≤ j ∧ j < s.heapSize ∧ s.proot j = some x
  · obtain ⟨j, hj, hjn, hjx⟩ := hgone
    simp only [h.cleared j x hj hjn hjx, ne_eq, not_true_eq_false, iff_false]
    intro hmem
    obtain ⟨i, hi, hix⟩ := h.mem_members.mp hmem
    have hdead : s.DeadFrom j := fun k y hk ↦ h.dead k y (hj.trans hk)
    have hall := honce i j (by omega) hjn (hix.trans hjx.symm) hdead
    -- the last element that stayed would have been released as well
    obtain ⟨y, hy⟩ := hs.entry (t.heapSize - 1) (by omega)
    exact h.last y (by omega) hy (hall _ y (by omega) (by omega) hy)
  · have hkept : t.elem x = s.elem x := by
      apply h.kept
      intro j hj hjn hjx
      exact hgone ⟨j, hj, hjn, hjx⟩
    rw [hkept, ← htrack x]
    constructor
    · exact h.subset
    · intro hmem
      obtain ⟨i, hi, hix⟩ := CocolHeapHeader.mem_members.mp hmem
      apply h.mem_members.mpr ⟨i, _, hix⟩
      by_contra hlt
      exact hgone ⟨i, Nat.le_of_not_lt hlt, hi, hix⟩

theorem heapStep_eq_ok {a : HeapCall ι} (h : heapStep s a = .ok t) :
    ∃ r, heapCall s a = .ok (r, t) := by
  obtain ⟨⟨r, u⟩, hu, rfl⟩ := map_eq_ok_iff.mp h
  exact ⟨r, hu⟩

/-- What a call of a run that clears can do: insert, nothing, or release. -/
theorem heapStep_cases {a : HeapCall ι} (hs : s.Filled) (htrack : s.Tracked)
    (hclears : Clears s a) (h : heapStep s a = .ok t) :
    (∃ x rest r, a = .insert x rest ∧ cocolHeapInsert s x rest = .ok (r, t)) ∨ t = s ∨
      (a = .elemFree ∧ Released s t) := by
  obtain ⟨r, hr⟩ := heapStep_eq_ok h
  cases a with
  | insert x rest => exact .inl ⟨x, rest, r, rfl, hr⟩
  | rootDelete =>
      have h0 : s.heapSize = 0 := hclears
      have hsame : heapCall s .rootDelete = .ok (0, s) := by
        simp [heapCall, cocolHeapRootDelete, h0, Except.map]
      exact .inr (.inl (Prod.mk.inj (Except.ok.inj (hr.symm.trans hsame))).2)
  | elemDelete x =>
      have hsame : heapCall s (.elemDelete x) = .ok (-1, s) :=
        cocolHeapElemDelete_empty htrack hclears x
      exact .inr (.inl (Prod.mk.inj (Except.ok.inj (hr.symm.trans hsame))).2)
  | elemFree =>
      obtain ⟨u, hu, hrel⟩ := cocolHeapElemFree_released hs
      have hsame : heapCall s .elemFree = .ok (0, u) := by simp [heapCall, hu, Except.map]
      obtain ⟨-, rfl⟩ := Prod.mk.inj (Except.ok.inj (hsame.symm.trans hr))
      exact .inr (.inr ⟨rfl, hrel⟩)

theorem heapStep_tracked (a : HeapCall ι) (hs : s.Filled ∧ s.Tracked) (hclears : Clears s a)
    (h : heapStep s a = .ok t) : t.Filled ∧ t.Tracked := by
  rcases heapStep_cases hs.1 hs.2 hclears h with ⟨x, rest, r, rfl, hins⟩ | rfl | ⟨rfl, hrel⟩
  · exact cocolHeapInsert_tracked hs.1 hs.2 hins
  · exact hs
  · refine ⟨⟨?_, fun i hi ↦ ?_⟩, hrel.tracked hs.2 hclears hs.1⟩
    · rw [hrel.room]
      exact hrel.le.trans hs.1.room
    · rw [hrel.proot]
      exact hs.1.entry i (hi.trans_le hrel.le)

theorem heapCall_refuses (a : HeapCall ι) (hs : s.Filled ∧ s.Tracked) (hclears : Clears s a) :
    Refuses s a := by
  rintro x rfl -
  exact cocolHeapElemDelete_empty hs.2 hclears x

/-! ## Which runs keep track -/

/-- An insertion of an element that is in no heap, into the block as it
is. -/
def Plain (s : CocolHeapHeader ι) : HeapCall ι → Prop
  | .insert x rest => x ∉ s.members ∧ (rest = none ∨ (s.totalSize : ℤ) - s.heapSize ≤ 1)
  | _ => True

omit [DecidableEq ι] in
theorem clears_elemFree (hs : s.Indexed) : Clears s .elemFree := by
  intro i j hij hj heq
  obtain ⟨x, hx, -⟩ := hs.entry j hj
  have := hs.index_unique (hij.trans hj) hj (heq.trans hx) hx
  omega

theorem heapStep_valid (a : HeapCall ι) (hs : s.Valid ∧ s.Tracked) (hplain : Plain s a)
    (hclears : Clears s a) (h : heapStep s a = .ok t) : t.Valid ∧ t.Tracked := by
  refine ⟨?_, (heapStep_tracked a ⟨hs.1.indexed.filled, hs.2⟩ hclears h).2⟩
  rcases heapStep_cases hs.1.indexed.filled hs.2 hclears h with
    ⟨x, rest, r, rfl, hr⟩ | rfl | ⟨rfl, hrel⟩
  · rcases cocolHeapInsert_cases hr with
      ⟨-, -, -, rfl⟩ | ⟨hgrow, fresh, y, hrest, -⟩ | ⟨-, -, hins⟩
    · exact hs.1
    · rcases hplain.2 with hnone | hfull
      · simp [hnone] at hrest
      · omega
    · obtain ⟨h0, hroom⟩ := insertElem_room hins
      obtain ⟨u, hu, hadds⟩ := insertElem_adds hs.1 h0 hroom hplain.1
      obtain rfl : u = t := Except.ok.inj (hu.symm.trans hins)
      exact hadds.valid
  · exact hs.1
  · exact hrel.valid hs.1

omit [DecidableEq ι] in
/-- A removed element that still notes a position breaks the tracking. -/
theorem Removes.not_tracked {x : ι} (h : Removes s t x) (hs : s.Valid)
    (hx : (t.elem x).heapIdx ≠ -1) : ¬t.Tracked := by
  intro htrack
  have hnodup := h.members.nodup_iff.mp hs.distinct
  exact (List.nodup_cons.mp hnodup).1 ((htrack x).mpr hx)

/-- The guard lets the deletion of a non-member through as soon as the
heap has any element, and it goes on to `proot[-1]`. -/
theorem cocolHeapElemDelete_outside {x : ι} (hs : s.Filled) (h0 : 0 < s.heapSize)
    (hx : (s.elem x).heapIdx = -1) : cocolHeapElemDelete s x = .error .index := by
  obtain ⟨last, hlast⟩ := hs.entry (s.heapSize - 1) (by omega)
  have hread : s.read ((s.heapSize : ℤ) - 1) = .ok last := by
    have hcast : (s.heapSize : ℤ) - 1 = (s.heapSize - 1 : ℕ) := by omega
    rw [hcast]
    exact read_of_some (by have := hs.room; omega) hlast
  have hbad : ∀ t : CocolHeapHeader ι, t.read (2 * (-1 + 1) - 1) = .error .index :=
    fun t ↦ if_neg (by omega)
  have hdown : cocolHeapShiftDown { s with heapSize := s.heapSize - 1 } (-1) last =
      .error .index := by
    generalize hn : s.heapSize - 1 = n
    cases n with
    | zero =>
        simp only [cocolHeapShiftDown, shiftDownLoop, bind, Except.bind]
        rw [if_pos (by simp), hbad]
    | succ n =>
        have hloop : shiftDownLoop last (n + 1) (-1) { s with heapSize := n + 1 } =
            .error .index := by
          rw [shiftDownLoop, if_pos (by simp), hbad]
          rfl
        rw [cocolHeapShiftDown, hloop]
        rfl
  have hguard : ¬ ((s.elem x).heapIdx = -1 ∧ s.heapSize < 1) := by omega
  have hnot : ¬ (0 : ℤ) < -1 := by omega
  simp only [cocolHeapElemDelete, if_neg hguard, hread, bind, Except.bind]
  simp only [hx, if_neg hnot, hdown, Bool.false_eq_true, if_false, Except.map]

theorem clears_of_tracked (a : HeapCall ι) (hs : s.Valid ∧ s.Tracked)
    (hrefuses : Refuses s a) (hnext : ∀ t, heapStep s a = .ok t → t.Tracked) : Clears s a := by
  cases a with
  | insert x rest => trivial
  | rootDelete =>
      by_contra hne
      obtain ⟨t, x, ht, hrem, -⟩ := cocolHeapRootDelete_removes hs.1 (Nat.pos_of_ne_zero hne)
      have hmem : x ∈ s.members := hrem.members.mem_iff.mpr List.mem_cons_self
      have hnoted : (t.elem x).heapIdx ≠ -1 := by
        rcases cocolHeapRootDelete_placed ht with ⟨h0, -⟩ | ⟨-, hplaced⟩
        · exact absurd h0 hne
        · exact hplaced.noted ((hs.2 x).mp hmem)
      exact hrem.not_tracked hs.1 hnoted (hnext t (by simp [heapStep, heapCall, ht, Except.map]))
  | elemDelete x =>
      by_contra hne
      by_cases hmem : x ∈ s.members
      · obtain ⟨t, ht, hrem⟩ := cocolHeapElemDelete_removes hs.1 hmem
        have hnoted : (t.elem x).heapIdx ≠ -1 := by
          rcases cocolHeapElemDelete_placed ht with ⟨h0, -⟩ | hplaced
          · exact absurd h0 hne
          · exact hplaced.noted ((hs.2 x).mp hmem)
        exact hrem.not_tracked hs.1 hnoted
          (hnext t (by simp [heapStep, heapCall, ht, Except.map]))
      · have hidx : (s.elem x).heapIdx = -1 := not_not.mp fun h ↦ hmem ((hs.2 x).mpr h)
        have hfault := cocolHeapElemDelete_outside hs.1.indexed.filled
          (Nat.pos_of_ne_zero hne) hidx
        have hok := hrefuses x rfl hmem
        simp [heapCall, hfault] at hok
  | elemFree => exact clears_elemFree hs.1.indexed

/-- Membership is tracked in a run whose deletions all find the heap empty
and whose releases leave no second place of what they release.  A run that
inserts only elements of no heap, and never replaces the block, needs it. -/
theorem tracked_of_clears (s : CocolHeapHeader ι) (hs : s.Valid) (htrack : s.Tracked)
    (calls : List (HeapCall ι)) :
    (EachStep heapStep Clears s calls →
      Always heapStep CocolHeapHeader.Tracked s calls ∧ EachStep heapStep Refuses s calls) ∧
    (EachStep heapStep Plain s calls → Always heapStep CocolHeapHeader.Tracked s calls →
      EachStep heapStep Refuses s calls → EachStep heapStep Clears s calls) := by
  constructor
  · intro hclears
    have hstep : ∀ s (a : HeapCall ι) t, s.Filled ∧ s.Tracked → Clears s a →
        heapStep s a = .ok t → t.Filled ∧ t.Tracked :=
      fun s a t hs hc ht ↦ heapStep_tracked a hs hc ht
    have hall := always_of_eachStep hstep ⟨hs.indexed.filled, htrack⟩ hclears
    refine ⟨hall.mono fun t ht ↦ ht.2, ?_⟩
    exact (hall.andEachStep hclears).mono fun t a h ↦ heapCall_refuses a h.1 h.2
  · intro hplain hall hrefuses
    apply eachStep_of_back (I := fun s ↦ s.Valid ∧ s.Tracked)
      (R := fun s a ↦ Plain s a ∧ Refuses s a) _ _ ⟨hs, htrack⟩ (hplain.and hrefuses) hall
    · intro s a t hi hr hc ht
      exact heapStep_valid a hi hr.1 hc ht
    · intro s a hi hr hnext
      exact clears_of_tracked a hi hr.2 hnext

theorem threeHeap_tracked : threeHeap.Tracked := by
  intro x
  revert x
  decide

theorem tracked_of_clears_three :
    Always heapStep CocolHeapHeader.Tracked threeHeap [.elemFree, .insert 3 none] := by
  have hclears : EachStep heapStep Clears threeHeap [.elemFree, .insert 3 none] :=
    ⟨clears_elemFree threeHeap_valid.indexed, fun _ _ ↦ ⟨trivial, fun _ _ ↦ trivial⟩⟩
  exact ((tracked_of_clears threeHeap threeHeap_valid threeHeap_tracked _).1 hclears).1

/-- The root that was deleted keeps its position, and deleting the fourth
element, which was never inserted, runs out of the array. -/
theorem not_tracked_rootDelete :
    threeHeap.Valid ∧ threeHeap.Tracked ∧
      ¬Always heapStep CocolHeapHeader.Tracked threeHeap [.rootDelete] ∧
      ¬EachStep heapStep Refuses threeHeap [.elemDelete 3] := by
  refine ⟨threeHeap_valid, threeHeap_tracked, ?_, ?_⟩
  · intro h
    obtain ⟨t, x, ht, -⟩ := cocolHeapRootDelete_removes threeHeap_valid (by decide)
    have hstep : heapStep threeHeap .rootDelete = .ok t := by
      simp [heapStep, heapCall, ht, Except.map]
    have hstale : (cocolHeapRootDelete threeHeap).map (fun t ↦ t.members) = .ok [2, 1] ∧
        (cocolHeapRootDelete threeHeap).map (fun t ↦ (t.elem 0).heapIdx) = .ok 0 := by decide
    rw [ht] at hstale
    have hmem : t.members = [2, 1] := Except.ok.inj hstale.1
    have hidx : (t.elem 0).heapIdx = 0 := Except.ok.inj hstale.2
    have htrack := (h.2 t hstep 0).mpr (by simp [hidx])
    simp [hmem] at htrack
  · intro h
    have hfault : cocolHeapElemDelete threeHeap 3 = .error .index :=
      cocolHeapElemDelete_outside threeHeap_valid.indexed.filled (by decide) rfl
    have hok := h.1 3 rfl (by decide)
    simp [heapCall, hfault] at hok

end Runs

end Cocool.Heap
