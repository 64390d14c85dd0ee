import Cocool.Heap.Header
import Cocool.Lib.Runs
import Mathlib.Data.List.Pairwise
import Mathlib.Tactic.IntervalCases

/-!
# The heap stays ordered

While an element is being sifted, `proot` has a hole where a stale pointer
stands.  Read with the moving element in the hole the array is one that the
rules for binary heaps apply to, and each store exchanges two of its
entries.  All three sifts are runs of such exchanges.
-/

namespace Cocool.Heap

open Lib

variable {ι : Type} [DecidableEq ι]

namespace CocolHeapHeader

def key (s : CocolHeapHeader ι) (x : ι) : ℤ := (s.elem x).refConut

/-- The elements in `proot[0..heapSize-1]`. -/
def members (s : CocolHeapHeader ι) : List ι := (List.range s.heapSize).filterMap s.proot

/-- Every element knows its position. -/
structure Indexed (s : CocolHeapHeader ι) : Prop where
  room : s.heapSize ≤ s.room
  entry : ∀ i, i < s.heapSize → ∃ x, s.proot i = some x ∧ (s.elem x).heapIdx = i

/-- Every element knows its position, and no element is counted more often
than its parent. -/
structure Valid (s : CocolHeapHeader ι) : Prop where
  room : s.heapSize ≤ s.room
  entry : ∀ i, i < s.heapSize → ∃ x, s.proot i = some x ∧ (s.elem x).heapIdx = i
  distinct : s.members.Nodup
  ordered : ∀ i x p, 0 < i → i < s.heapSize → s.proot i = some x →
    s.proot ((i - 1) / 2) = some p → (s.elem x).refConut ≤ (s.elem p).refConut

end CocolHeapHeader

structure SameSizes (s t : CocolHeapHeader ι) : Prop where
  room : t.room = s.room
  heapSize : t.heapSize = s.heapSize
  totalSize : t.totalSize = s.totalSize

omit [DecidableEq ι] in
theorem SameSizes.refl (s : CocolHeapHeader ι) : SameSizes s s := ⟨rfl, rfl, rfl⟩

omit [DecidableEq ι] in
theorem SameSizes.trans {s t u : CocolHeapHeader ι} (h : SameSizes s t) (k : SameSizes t u) :
    SameSizes s u :=
  ⟨k.room.trans h.room, k.heapSize.trans h.heapSize, k.totalSize.trans h.totalSize⟩

/-- `proot` begins with the `n` entries of `b`. -/
structure Holds (key : ι → ℤ) (s : CocolHeapHeader ι) (b : ℕ → ι) (n : ℕ) : Prop where
  room : n ≤ s.room
  entry : ∀ i, i < n → s.proot i = some (b i)
  heapIdx : ∀ i, i < n → (s.elem (b i)).heapIdx = i
  keys : ∀ x, s.key x = key x

/-- `proot` begins with the `n` entries of `b`, but for the hole at `h`
that `b h` is on its way to. -/
structure Sifting (key : ι → ℤ) (s : CocolHeapHeader ι) (b : ℕ → ι) (n h : ℕ) : Prop where
  lt : h < n
  room : n ≤ s.room
  inj : Set.InjOn b (Set.Iio n)
  entry : ∀ i, i < n → i ≠ h → s.proot i = some (b i)
  heapIdx : ∀ i, i < n → i ≠ h → (s.elem (b i)).heapIdx = i
  keys : ∀ x, s.key x = key x

section Sifting

variable {key : ι → ℤ} {s : CocolHeapHeader ι} {b : ℕ → ι} {n h p : ℕ}

omit [DecidableEq ι] in
theorem read_of_some {i : ℕ} {x : ι} (hi : i < s.room) (hx : s.proot i = some x) :
    s.read i = .ok x := by
  have hr : (i : ℤ) < s.room := by exact_mod_cast hi
  simp [CocolHeapHeader.read, hr, hx]

theorem place_of_lt {i : ℕ} (hi : i < s.room) (x : ι) :
    s.place i x = .ok { s with
      proot := Function.update s.proot i (some x)
      elem := Function.update s.elem x { s.elem x with heapIdx := i } } := by
  have hr : (i : ℤ) < s.room := by exact_mod_cast hi
  simp [CocolHeapHeader.place, hr]

omit [DecidableEq ι] in
theorem Sifting.read (hs : Sifting key s b n h) (hp : p < n) (hne : p ≠ h) {z : ℤ}
    (hz : z = p) : s.read z = .ok (b p) := by
  subst hz
  exact read_of_some (hp.trans_le hs.room) (hs.entry p hp hne)

omit [DecidableEq ι] in
theorem Sifting.greater (hs : Sifting key s b n h) (x y : ι) :
    cocolHeapElemGreater s x y = decide (key y < key x) := by
  rw [← hs.keys, ← hs.keys]
  rfl

theorem place_key {t : CocolHeapHeader ι} {i : ℤ} {x : ι} (ht : s.place i x = .ok t) (y : ι) :
    t.key y = s.key y := by
  unfold CocolHeapHeader.place at ht
  split at ht
  · simp only [Except.ok.injEq] at ht
    subst ht
    by_cases hy : y = x
    · simp [CocolHeapHeader.key, hy]
    · simp [CocolHeapHeader.key, hy]
  · simp at ht

/-- One store of a sift: the entry at `p` goes into the hole, and the hole
is at `p` afterwards. -/
theorem Sifting.move (hs : Sifting key s b n h) (hp : p < n) (hne : p ≠ h) :
    ∃ t, s.place h (b p) = .ok t ∧ Sifting key t (swapAt b h p) n p ∧ SameSizes s t := by
  have hplace := place_of_lt (hs.lt.trans_le hs.room) (b p)
  refine ⟨_, hplace, ⟨hp, hs.room, swapAt_injOn b hs.inj hs.lt hp, ?_, ?_, ?_⟩, rfl, rfl, rfl⟩
  · intro i hi hip
    by_cases hih : i = h
    · subst hih
      simp
    · rw [swapAt_of_ne b hih hip]
      simpa [hih] using hs.entry i hi hih
  · intro i hi hip
    by_cases hih : i = h
    · subst hih
      simp
    · rw [swapAt_of_ne b hih hip]
      have hb : b i ≠ b p := fun heq ↦ hip (hs.inj hi hp heq)
      simpa [hb] using hs.heapIdx i hi hih
  · intro x
    exact (place_key hplace x).trans (hs.keys x)

theorem Sifting.finish (hs : Sifting key s b n h) :
    ∃ t, s.place h (b h) = .ok t ∧ Holds key t b n ∧ SameSizes s t := by
  have hplace := place_of_lt (hs.lt.trans_le hs.room) (b h)
  refine ⟨_, hplace, ⟨hs.room, ?_, ?_, ?_⟩, rfl, rfl, rfl⟩
  · intro i hi
    by_cases hih : i = h
    · subst hih
      simp
    · simpa [hih] using hs.entry i hi hih
  · intro i hi
    by_cases hih : i = h
    · subst hih
      simp
    · have hb : b i ≠ b h := fun heq ↦ hih (hs.inj hi hs.lt heq)
      simpa [hb] using hs.heapIdx i hi hih
  · intro x
    exact (place_key hplace x).trans (hs.keys x)

end Sifting

/-- `t` holds the first `n` entries of `b`, rearranged into a heap. -/
def HeapOf (key : ι → ℤ) (t : CocolHeapHeader ι) (b : ℕ → ι) (n : ℕ) : Prop :=
  ∃ c, Holds key t c n ∧ HeapOrdered key c n ∧ ((List.range n).map c).Perm ((List.range n).map b)

section Up

variable {key : ι → ℤ} {s : CocolHeapHeader ι} {b : ℕ → ι} {n h : ℕ}

theorem unsignedParent_eq (h0 : 0 < h) : unsignedParent h = parent h := by
  simp [unsignedParent, parent, h0.ne']

/-- Only the first `n` of the `N` entries need to be in order. -/
theorem shiftUpLoop_spec {N fuel : ℕ} (hfuel : h ≤ fuel) (hn : n ≤ N) (hh : h < n)
    (hs : Sifting key s b N h) (hu : UpHole key b n h) :
    ∃ i t c, shiftUpLoop (b h) fuel h s = .ok (i, t) ∧ Sifting key t c N i ∧
      HeapOrdered key c n ∧ c i = b h ∧ ((List.range N).map c).Perm ((List.range N).map b) ∧
      SameSizes s t := by
  induction fuel generalizing h s b with
  | zero =>
      obtain rfl : h = 0 := by omega
      exact ⟨0, s, b, rfl, hs, hu.ordered (by simp), rfl, .refl _, .refl s⟩
  | succ fuel ih =>
      rcases Nat.eq_zero_or_pos h with rfl | h0
      · exact ⟨0, s, b, by simp [shiftUpLoop], hs, hu.ordered (by simp), rfl, .refl _, .refl s⟩
      · have hlt := parent_lt h0
        have hpn : parent h < n := hlt.trans hh
        have hread := hs.read (hpn.trans_le hn) hlt.ne rfl
        by_cases hgt : key (b (parent h)) < key (b h)
        · obtain ⟨t, ht, hmoved, hsizes⟩ := hs.move (hpn.trans_le hn) hlt.ne
          have hup := hu.swap h0 hh hgt.le
          obtain ⟨i, u, c, hrun, hsift, hord, hc, hperm, hrest⟩ :=
            ih (by omega : parent h ≤ fuel) hpn hmoved hup
          rw [swapAt_right] at hrun hc
          refine ⟨i, u, c, ?_, hsift, hord, hc, ?_, hsizes.trans hrest⟩
          · simp [shiftUpLoop, h0.ne', unsignedParent_eq h0, hread, hs.greater, hgt, bind,
              Except.bind, ht, hrun]
          · exact hperm.trans (map_swapAt_perm b hs.lt (hpn.trans_le hn))
        · refine ⟨h, s, b, ?_, hs, hu.ordered fun _ ↦ not_lt.mp hgt, rfl, .refl _, .refl s⟩
          simp [shiftUpLoop, h0.ne', unsignedParent_eq h0, hread, hs.greater, hgt, bind,
            Except.bind]

theorem cocolHeapShiftUp_prefix {N : ℕ} (h0 : 0 < h) (hn : n ≤ N) (hh : h < n)
    (hs : Sifting key s b N h) (hu : UpHole key b n h) :
    ∃ t c, cocolHeapShiftUp s h (b h) = .ok t ∧ Holds key t c N ∧ HeapOrdered key c n ∧
      ((List.range N).map c).Perm ((List.range N).map b) ∧ SameSizes s t := by
  obtain ⟨i, t, c, hrun, hsift, hord, hc, hperm, hsizes⟩ := shiftUpLoop_spec le_rfl hn hh hs hu
  obtain ⟨u, hu, hholds, hrest⟩ := hsift.finish
  rw [hc] at hu
  refine ⟨u, c, ?_, hholds, hord, hperm, hsizes.trans hrest⟩
  simp [cocolHeapShiftUp, h0.ne', hrun, hu, bind, Except.bind]

theorem cocolHeapShiftUp_spec (h0 : 0 < h) (hs : Sifting key s b n h) (hu : UpHole key b n h) :
    ∃ t, cocolHeapShiftUp s h (b h) = .ok t ∧ HeapOf key t b n ∧ SameSizes s t := by
  obtain ⟨t, c, ht, hholds, hord, hperm, hsizes⟩ :=
    cocolHeapShiftUp_prefix h0 le_rfl hs.lt hs hu
  exact ⟨t, ht, ⟨c, hholds, hord, hperm⟩, hsizes⟩

/-- The forced first move is the one the loop would make. -/
theorem cocolHeapShiftUpFroce_spec (h0 : 0 < h) (hs : Sifting key s b n h)
    (hu : UpHole key b n h) (hgt : key (b (parent h)) ≤ key (b h)) :
    ∃ t, cocolHeapShiftUpFroce s h (b h) = .ok t ∧ HeapOf key t b n ∧ SameSizes s t := by
  have hlt := parent_lt h0
  have hpn : parent h < n := hlt.trans hs.lt
  have hread := hs.read hpn hlt.ne rfl
  obtain ⟨t, ht, hmoved, hsizes⟩ := hs.move hpn hlt.ne
  obtain ⟨i, u, c, hrun, hsift, hord, hc, hperm, hrest⟩ :=
    shiftUpLoop_spec (by omega : parent h ≤ h) le_rfl hpn hmoved (hu.swap h0 hs.lt hgt)
  obtain ⟨v, hv, hholds, hlast⟩ := hsift.finish
  rw [swapAt_right] at hrun hc
  rw [hc] at hv
  refine ⟨v, ?_, ⟨c, hholds, hord, hperm.trans (map_swapAt_perm b hs.lt hpn)⟩,
    (hsizes.trans hrest).trans hlast⟩
  simp [cocolHeapShiftUpFroce, unsignedParent_eq h0, hread, ht, hrun, hv, bind, Except.bind]

end Up

section Down

variable {key : ι → ℤ} {s : CocolHeapHeader ι} {b : ℕ → ι} {n h : ℕ}

/-- The child that the loop of `cocol_heap_shift_down` picks. -/
def greaterChild (key : ι → ℤ) (b : ℕ → ι) (h : ℕ) : ℕ :=
  if key (b (2 * h + 2)) < key (b (2 * h + 1)) then 2 * h + 1 else 2 * h + 2

omit [DecidableEq ι] in
theorem greaterChild_cases (key : ι → ℤ) (b : ℕ → ι) (h : ℕ) :
    greaterChild key b h = 2 * h + 1 ∨ greaterChild key b h = 2 * h + 2 := by
  unfold greaterChild
  split <;> simp

omit [DecidableEq ι] in
theorem parent_greaterChild : parent (greaterChild key b h) = h := by
  rcases greaterChild_cases key b h with hc | hc <;> rw [hc, parent] <;> omega

omit [DecidableEq ι] in
theorem le_greaterChild {k : ℕ} (hk : 0 < k) (hp : parent k = h) :
    key (b k) ≤ key (b (greaterChild key b h)) := by
  unfold greaterChild
  rcases (parent_eq_iff hk).mp hp with rfl | rfl
  · split
    · exact le_refl _
    · next hnot => exact not_lt.mp hnot
  · split
    · next hlt => exact hlt.le
    · exact le_refl _

/-- What one turn of the loop reads. -/
theorem shiftDownLoop_succ (fuel : ℕ) (hn : s.heapSize = n) (hs : Sifting key s b n h)
    (hlt : 2 * h + 2 < n) (x : ι) :
    shiftDownLoop x (fuel + 1) h s =
      if key (b (greaterChild key b h)) < key x then .ok (h, greaterChild key b h, s)
      else (s.place h (b (greaterChild key b h))).bind
        (shiftDownLoop x fuel (greaterChild key b h)) := by
  have hl : s.read (2 * ((h : ℤ) + 1) - 1) = .ok (b (2 * h + 1)) :=
    hs.read (by omega) (by omega) (by omega)
  have hr : s.read (2 * ((h : ℤ) + 1)) = .ok (b (2 * h + 2)) :=
    hs.read hlt (by omega) (by omega)
  have hcond : 2 * ((h : ℤ) + 1) < s.heapSize := by
    rw [hn]
    omega
  have hpick : (if key (b (2 * h + 2)) < key (b (2 * h + 1)) then 2 * ((h : ℤ) + 1) - 1
      else 2 * ((h : ℤ) + 1)) = (greaterChild key b h : ℤ) := by
    unfold greaterChild
    split <;> omega
  have hc : s.read (greaterChild key b h) = .ok (b (greaterChild key b h)) := by
    rcases greaterChild_cases key b h with hc | hc <;> rw [hc]
    · exact hs.read (by omega) (by omega) rfl
    · exact hs.read hlt (by omega) rfl
  rw [shiftDownLoop, if_pos hcond, hl]
  simp only [bind, Except.bind, hr, hs.greater, decide_eq_true_eq, hpick, hc]

theorem shiftDownLoop_spec {fuel : ℕ} (hfuel : n ≤ h + fuel) (hn : s.heapSize = n)
    (hs : Sifting key s b n h) (hd : DownHole key b n h) :
    ∃ (i : ℕ) (j : ℤ) (t : CocolHeapHeader ι) (c : ℕ → ι),
      shiftDownLoop (b h) fuel h s = .ok (i, j, t) ∧ Sifting key t c n i ∧
      DownHole key c n i ∧ c i = b h ∧ ((List.range n).map c).Perm ((List.range n).map b) ∧
      SameSizes s t ∧ (j = n → 2 * i + 2 = n) ∧
      (j ≠ n → ∀ k, 0 < k → k < n → parent k = i → key (c k) ≤ key (c i)) := by
  induction fuel generalizing h s b with
  | zero =>
      have := hs.lt
      omega
  | succ fuel ih =>
      by_cases hlt : 2 * h + 2 < n
      · have hc0 : 0 < greaterChild key b h := by
          rcases greaterChild_cases key b h with hc | hc <;> omega
        have hcn : greaterChild key b h < n := by
          rcases greaterChild_cases key b h with hc | hc <;> omega
        have hch : h < greaterChild key b h := by
          rcases greaterChild_cases key b h with hc | hc <;> omega
        have hturn := shiftDownLoop_succ fuel hn hs hlt (b h)
        by_cases hstop : key (b (greaterChild key b h)) < key (b h)
        · rw [if_pos hstop] at hturn
          refine ⟨h, _, s, b, hturn, hs, hd, rfl, .refl _, .refl s, ?_, ?_⟩
          · intro hj
            omega
          · intro _ k hk _ hp
            exact (le_greaterChild hk hp).trans hstop.le
        · rw [if_neg hstop] at hturn
          obtain ⟨t, ht, hmoved, hsizes⟩ := hs.move hcn hch.ne'
          have hdown := hd.swap hc0 hcn parent_greaterChild
            (fun k hk _ hp ↦ le_greaterChild hk hp) (not_lt.mp hstop)
          obtain ⟨i, j, u, c, hrun, hsift, hhole, hc, hperm, hrest, hend⟩ :=
            ih (by omega) (hsizes.heapSize.trans hn) hmoved hdown
          rw [swapAt_right] at hrun hc
          refine ⟨i, j, u, c, ?_, hsift, hhole, hc, ?_, hsizes.trans hrest, hend⟩
          · rw [hturn, ht]
            exact hrun
          · exact hperm.trans (map_swapAt_perm b hs.lt hcn)
      · have hcond : ¬ 2 * ((h : ℤ) + 1) < s.heapSize := by
          rw [hn]
          omega
        refine ⟨h, 2 * ((h : ℤ) + 1), s, b, by rw [shiftDownLoop, if_neg hcond], hs, hd, rfl,
          .refl _, .refl s, ?_, ?_⟩
        · intro hj
          omega
        · intro hj k hk hkn hp
          rcases (parent_eq_iff hk).mp hp with rfl | rfl <;> omega

theorem cocolHeapShiftDown_spec (hn : s.heapSize = n) (hs : Sifting key s b n h)
    (hd : DownHole key b n h) :
    ∃ t, cocolHeapShiftDown s h (b h) = .ok t ∧ HeapOf key t b n ∧ SameSizes s t := by
  obtain ⟨i, j, t, c, hrun, hsift, hhole, hc, hperm, hsizes, hleft, hfull⟩ :=
    shiftDownLoop_spec (by omega : n ≤ h + n) hn hs hd
  rw [← hn] at hrun
  have hsize : (t.heapSize : ℤ) = n := by exact_mod_cast hsizes.heapSize.trans hn
  by_cases hj : j = n
  · -- one child is left that the loop has not looked at
    have hi := hleft hj
    subst hj
    have hread : t.read ((n : ℤ) - 1) = .ok (c (2 * i + 1)) :=
      hsift.read (by omega) (by omega) (by omega)
    have honly : ∀ k, 0 < k → k < n → parent k = i → k = 2 * i + 1 := by
      intro k hk hkn hp
      rcases (parent_eq_iff hk).mp hp with h' | h' <;> omega
    by_cases hgt : key (b h) < key (c (2 * i + 1))
    · obtain ⟨u, hu, hmoved, hmove⟩ := hsift.move (p := 2 * i + 1) (by omega) (by omega)
      obtain ⟨v, hv, hholds, hlast⟩ := hmoved.finish
      rw [swapAt_right, hc, show ((2 * i + 1 : ℕ) : ℤ) = (n : ℤ) - 1 by omega] at hv
      have hdown : DownHole key (swapAt c i (2 * i + 1)) n (2 * i + 1) := by
        apply hhole.swap (by omega) (by omega) ((parent_eq_iff (by omega)).mpr (.inl rfl))
        · intro k hk hkn hp
          rw [honly k hk hkn hp]
        · rw [hc]
          exact hgt.le
      have hord : HeapOrdered key (swapAt c i (2 * i + 1)) n := by
        apply hdown.ordered
        intro k hk hkn hp
        rcases (parent_eq_iff hk).mp hp with h' | h' <;> omega
      refine ⟨v, ?_, ⟨_, hholds, hord, ?_⟩, (hsizes.trans hmove).trans hlast⟩
      · rw [cocolHeapShiftDown, hrun]
        simp only [bind, Except.bind, hsize, if_true, hread, hsift.greater, decide_eq_true_eq,
          if_pos hgt, hu, hv]
      · exact (map_swapAt_perm c hsift.lt (by omega)).trans hperm
    · obtain ⟨v, hv, hholds, hlast⟩ := hsift.finish
      rw [hc] at hv
      have hord : HeapOrdered key c n := by
        apply hhole.ordered
        intro k hk hkn hp
        rw [honly k hk hkn hp, hc]
        exact not_lt.mp hgt
      refine ⟨v, ?_, ⟨c, hholds, hord, hperm⟩, hsizes.trans hlast⟩
      rw [cocolHeapShiftDown, hrun]
      simp only [bind, Except.bind, hsize, if_true, hread, hsift.greater, decide_eq_true_eq,
        if_neg hgt, hv]
  · obtain ⟨v, hv, hholds, hlast⟩ := hsift.finish
    rw [hc] at hv
    refine ⟨v, ?_, ⟨c, hholds, hhole.ordered (hfull hj), hperm⟩, hsizes.trans hlast⟩
    rw [cocolHeapShiftDown, hrun]
    simp only [bind, Except.bind, hsize, if_neg hj, hv]

end Down

/-! ## Valid heaps -/

section Valid

variable {key : ι → ℤ} {s t : CocolHeapHeader ι} {b : ℕ → ι} {n i : ℕ} {x : ι}

omit [DecidableEq ι] in
theorem members_eq (hn : s.heapSize = n) (hb : ∀ i, i < n → s.proot i = some (b i)) :
    s.members = (List.range n).map b := by
  rw [CocolHeapHeader.members, hn, ← List.filterMap_eq_map]
  apply List.filterMap_congr
  intro i hi
  exact hb i (List.mem_range.mp hi)

omit [DecidableEq ι] in
theorem Holds.inj (hb : Holds key s b n) : Set.InjOn b (Set.Iio n) := by
  intro i hi j hj hij
  have h := hb.heapIdx i hi
  rw [hij, hb.heapIdx j hj] at h
  exact_mod_cast h.symm

omit [DecidableEq ι] in
theorem Holds.valid (hb : Holds key s b n) (ho : HeapOrdered key b n) (hn : s.heapSize = n) :
    s.Valid := by
  refine ⟨hn ▸ hb.room, fun i hi ↦ ?_, ?_, fun i x p h0 hi hx hp ↦ ?_⟩
  · rw [hn] at hi
    exact ⟨b i, hb.entry i hi, hb.heapIdx i hi⟩
  · rw [members_eq hn hb.entry]
    apply List.Nodup.map_on _ List.nodup_range
    intro i hi j hj hij
    exact hb.inj (List.mem_range.mp hi) (List.mem_range.mp hj) hij
  · rw [hn] at hi
    have hpi := parent_lt h0
    obtain rfl : b i = x := by simpa [hb.entry i hi] using hx
    obtain rfl : b (parent i) = p := by
      simpa [parent, hb.entry (parent i) (hpi.trans hi)] using
        (hb.entry (parent i) (hpi.trans hi)).symm.trans hp
    have h := ho i h0 hi
    rw [← hb.keys, ← hb.keys] at h
    exact h

omit [DecidableEq ι] in
/-- A non-empty header, read as an array of elements. -/
theorem CocolHeapHeader.Indexed.holds (hs : s.Indexed) (h0 : 0 < s.heapSize) :
    ∃ b, Holds s.key s b s.heapSize ∧ s.members = (List.range s.heapSize).map b := by
  obtain ⟨x₀, -, -⟩ := hs.entry 0 h0
  have hentry : ∀ i, i < s.heapSize → s.proot i = some ((s.proot i).getD x₀) := by
    intro i hi
    obtain ⟨x, hx, -⟩ := hs.entry i hi
    simp [hx]
  refine ⟨fun i ↦ (s.proot i).getD x₀, ⟨hs.room, hentry, ?_, fun _ ↦ rfl⟩,
    members_eq rfl hentry⟩
  intro i hi
  obtain ⟨x, hx, hidx⟩ := hs.entry i hi
  simpa [hx] using hidx

omit [DecidableEq ι] in
theorem CocolHeapHeader.Valid.indexed (hs : s.Valid) : s.Indexed := ⟨hs.room, hs.entry⟩

omit [DecidableEq ι] in
theorem CocolHeapHeader.Valid.holds (hs : s.Valid) (h0 : 0 < s.heapSize) :
    ∃ b, Holds s.key s b s.heapSize ∧ HeapOrdered s.key b s.heapSize ∧
      s.members = (List.range s.heapSize).map b := by
  obtain ⟨b, hb, hmem⟩ := hs.indexed.holds h0
  refine ⟨b, hb, ?_, hmem⟩
  intro i hpos hi
  have hpi := parent_lt hpos
  exact hs.ordered i _ _ hpos hi (hb.entry i hi) (hb.entry (parent i) (hpi.trans hi))

omit [DecidableEq ι] in
theorem HeapOf.valid (h : HeapOf key t b n) (hn : t.heapSize = n) :
    t.Valid ∧ t.members.Perm ((List.range n).map b) ∧ ∀ x, t.key x = key x := by
  obtain ⟨c, hc, hord, hperm⟩ := h
  refine ⟨hc.valid hord hn, ?_, hc.keys⟩
  rw [members_eq hn hc.entry]
  exact hperm

omit [DecidableEq ι] in
/-- Entry `i` taken out: the last entry is on its way to the hole. -/
theorem Holds.sifting_last (hb : Holds key s b (n + 1)) (hi : i < n) (k : ℕ) :
    Sifting key { s with heapSize := k } (Function.update b i (b n)) n i := by
  refine ⟨hi, (Nat.le_succ n).trans hb.room, update_last_injOn b hb.inj hi.le, ?_, ?_, hb.keys⟩
  · intro j hj hji
    rw [Function.update_of_ne hji]
    exact hb.entry j (by omega)
  · intro j hj hji
    rw [Function.update_of_ne hji]
    exact hb.heapIdx j (by omega)

/-- A position at or past the end has no children, so the element is
stored where the sift starts. -/
theorem cocolHeapShiftDown_last (hn : s.heapSize = n) (x : ι) :
    cocolHeapShiftDown s n x = s.place n x := by
  have hloop : shiftDownLoop x s.heapSize (n : ℤ) s = .ok (n, 2 * ((n : ℤ) + 1), s) := by
    rw [hn]
    cases n with
    | zero => rfl
    | succ n =>
        have hcond : ¬ 2 * (((n + 1 : ℕ) : ℤ) + 1) < s.heapSize := by
          rw [hn]
          omega
        rw [shiftDownLoop, if_neg hcond]
  have hend : ¬ 2 * ((n : ℤ) + 1) = s.heapSize := by
    rw [hn]
    omega
  rw [cocolHeapShiftDown, hloop]
  simp only [bind, Except.bind, if_neg hend]

theorem cocolHeapShiftDown_removes (hb : Holds key s b (n + 1)) (ho : HeapOrdered key b (n + 1))
    (hi : i ≤ n) (hle : 0 < i → key (b n) ≤ key (b (parent i))) :
    ∃ t, cocolHeapShiftDown { s with heapSize := n } i (b n) = .ok t ∧ t.heapSize = n ∧
      HeapOf key t (Function.update b i (b n)) n := by
  rcases hi.lt_or_eq with hlt | rfl
  · have hs := hb.sifting_last hlt n
    have hd := (ho.mono (by omega : n ≤ n + 1)).downHole_update hlt hle
    obtain ⟨t, ht, hheap, hsizes⟩ := cocolHeapShiftDown_spec rfl hs hd
    rw [Function.update_self] at ht
    exact ⟨t, ht, hsizes.heapSize, hheap⟩
  · -- the last element itself leaves, and is stored once more past the end
    have hplace := place_of_lt (s := { s with heapSize := i }) (by have := hb.room; exact this)
      (b i)
    refine ⟨_, (cocolHeapShiftDown_last rfl (b i)).trans hplace, rfl, b, ?_,
      ho.mono (by omega), by rw [Function.update_eq_self]⟩
    have hkeys := place_key hplace
    refine ⟨by have := hb.room; exact this.trans' (by omega), ?_, ?_, ?_⟩
    · intro j hj
      simpa [hj.ne] using hb.entry j (by omega)
    · intro j hj
      have hne : b j ≠ b i := fun heq ↦ hj.ne (hb.inj (by simp; omega) (by simp) heq)
      simpa [hne] using hb.heapIdx j (by omega)
    · intro x
      exact (hkeys x).trans (hb.keys x)

theorem cocolHeapShiftUpFroce_removes (hb : Holds key s b (n + 1))
    (ho : HeapOrdered key b (n + 1)) (h0 : 0 < i) (hi : i < n)
    (hgt : key (b (parent i)) ≤ key (b n)) :
    ∃ t, cocolHeapShiftUpFroce { s with heapSize := n } i (b n) = .ok t ∧ t.heapSize = n ∧
      HeapOf key t (Function.update b i (b n)) n := by
  have hs := hb.sifting_last hi n
  have hu := (ho.mono (by omega : n ≤ n + 1)).upHole_update hi h0 hgt
  obtain ⟨t, ht, hheap, hsizes⟩ := cocolHeapShiftUpFroce_spec h0 hs hu
    (by simpa [(parent_lt h0).ne] using hgt)
  rw [Function.update_self] at ht
  exact ⟨t, ht, hsizes.heapSize, hheap⟩

/-- `t` is a valid heap, has the members of `s` without `x`, and no count
has changed. -/
structure Removes (s t : CocolHeapHeader ι) (x : ι) : Prop where
  valid : t.Valid
  members : s.members.Perm (x :: t.members)
  counts : ∀ y, (t.elem y).refConut = (s.elem y).refConut

structure Adds (s t : CocolHeapHeader ι) (x : ι) : Prop where
  valid : t.Valid
  members : t.members.Perm (x :: s.members)
  counts : ∀ y, (t.elem y).refConut = (s.elem y).refConut

omit [DecidableEq ι] in
theorem HeapOf.removes [DecidableEq ι] (h : HeapOf s.key t (Function.update b i (b n)) n)
    (ht : t.heapSize = n) (hi : i ≤ n) (hs : s.members = (List.range (n + 1)).map b) :
    Removes s t (b i) := by
  obtain ⟨hvalid, hperm, hkeys⟩ := h.valid ht
  refine ⟨hvalid, ?_, hkeys⟩
  rw [hs]
  exact (map_update_last_perm b hi).trans (hperm.symm.cons (b i))

theorem insertElem_adds (hs : s.Valid) (h0 : 0 < s.heapSize) (hroom : s.heapSize < s.room)
    (hx : x ∉ s.members) : ∃ t, insertElem s x = .ok t ∧ Adds s t x := by
  obtain ⟨b, hb, ho, hmem⟩ := hs.holds h0
  generalize hn : s.heapSize = n at *
  have hother : ∀ j, j < n → Function.update b n x j = b j :=
    fun j hj ↦ Function.update_of_ne hj.ne _ _
  have hxb : ∀ j, j < n → b j ≠ x := by
    rintro j hj rfl
    exact hx (hmem ▸ List.mem_map_of_mem (List.mem_range.mpr hj))
  have hsift : Sifting s.key { s with heapSize := n + 1 } (Function.update b n x) (n + 1) n := by
    refine ⟨by omega, hroom, ?_, ?_, ?_, fun _ ↦ rfl⟩
    · intro j hj k hk hjk
      simp only [Set.mem_Iio] at hj hk
      rcases Nat.lt_succ_iff_lt_or_eq.mp hj with hj | rfl <;>
        rcases Nat.lt_succ_iff_lt_or_eq.mp hk with hk | rfl
      · rw [hother j hj, hother k hk] at hjk
        exact hb.inj hj hk hjk
      · rw [hother j hj, Function.update_self] at hjk
        exact absurd hjk (hxb j hj)
      · rw [hother k hk, Function.update_self] at hjk
        exact absurd hjk.symm (hxb k hk)
      · rfl
    · intro j hj hjn
      rw [hother j (by omega)]
      exact hb.entry j (by omega)
    · intro j hj hjn
      rw [hother j (by omega)]
      exact hb.heapIdx j (by omega)
  have hord : HeapOrdered s.key (Function.update b n x) n := by
    intro j h0 hj
    rw [hother j hj, hother _ ((parent_lt h0).trans hj)]
    exact ho j h0 hj
  obtain ⟨t, ht, hheap, hsizes⟩ := cocolHeapShiftUp_spec h0 hsift hord.upHole_last
  rw [Function.update_self] at ht
  obtain ⟨hvalid, hperm, hkeys⟩ := hheap.valid hsizes.heapSize
  refine ⟨t, ?_, hvalid, ?_, hkeys⟩
  · rw [insertElem, hn]
    exact ht
  · refine hperm.trans ?_
    have hlast := map_update_last_perm (Function.update b n x) (le_refl n)
    rw [Function.update_self, Function.update_idem, hmem] at *
    refine hlast.trans (.of_eq ?_)
    congr 1
    exact List.map_congr_left fun j hj ↦ hother j (List.mem_range.mp hj)

omit [DecidableEq ι] in
theorem Holds.read_last (hb : Holds key s b (n + 1)) (hn : s.heapSize = n + 1) :
    s.read ((s.heapSize : ℤ) - 1) = .ok (b n) := by
  rw [hn]
  simpa using read_of_some (Nat.lt_of_succ_le hb.room) (hb.entry n (Nat.lt_succ_self n))

theorem cocolHeapRootDelete_removes (hs : s.Valid) (h0 : 0 < s.heapSize) :
    ∃ t x, cocolHeapRootDelete s = .ok t ∧ Removes s t x ∧
      ∀ y ∈ s.members, (s.elem y).refConut ≤ (s.elem x).refConut := by
  obtain ⟨b, hb, ho, hmem⟩ := hs.holds h0
  obtain ⟨n, hn⟩ : ∃ n, s.heapSize = n + 1 := ⟨s.heapSize - 1, by omega⟩
  rw [hn] at hb ho hmem
  obtain ⟨t, ht, hsize, hheap⟩ :=
    cocolHeapShiftDown_removes hb ho (Nat.zero_le n) (fun h ↦ absurd h (lt_irrefl 0))
  refine ⟨t, b 0, ?_, hheap.removes hsize (Nat.zero_le n) hmem, ?_⟩
  · rw [cocolHeapRootDelete, if_neg h0.ne', hb.read_last hn]
    simpa [bind, Except.bind, hn] using ht
  · intro y hy
    rw [hmem] at hy
    obtain ⟨j, hj, rfl⟩ := List.mem_map.mp hy
    exact ho.le_root (List.mem_range.mp hj)

theorem cocolHeapElemDelete_eq (hb : Holds s.key s b (n + 1)) (hn : s.heapSize = n + 1)
    (hi : i < n + 1) :
    cocolHeapElemDelete s (b i) =
      (if 0 < i ∧ s.key (b (parent i)) < s.key (b n)
        then cocolHeapShiftUpFroce { s with heapSize := n } i (b n)
        else cocolHeapShiftDown { s with heapSize := n } i (b n)).map fun t ↦ (0, t) := by
  have hguard : ¬ ((i : ℤ) = -1 ∧ s.heapSize < 1) := by omega
  have hgreater : ∀ y z, cocolHeapElemGreater s y z = decide (s.key z < s.key y) :=
    fun _ _ ↦ rfl
  have hsize : s.heapSize - 1 = n := by omega
  simp only [cocolHeapElemDelete, hb.heapIdx i hi, if_neg hguard, hb.read_last hn, bind,
    Except.bind, hsize]
  rcases Nat.eq_zero_or_pos i with rfl | h0
  · simp
  · have hparent : s.read (((i : ℤ) - 1).tdiv 2) = .ok (b (parent i)) := by
      have htdiv : ((i : ℤ) - 1).tdiv 2 = (parent i : ℕ) := by
        rw [Int.tdiv_eq_ediv_of_nonneg (by omega)]
        unfold parent
        omega
      have hlt : parent i < n + 1 := (parent_lt h0).trans hi
      rw [htdiv]
      exact read_of_some (hlt.trans_le hb.room) (hb.entry _ hlt)
    have hpos : 0 < (i : ℤ) := by exact_mod_cast h0
    simp only [if_pos hpos, hparent, Except.map, hgreater, h0, true_and, decide_eq_true_eq,
      Int.toNat_natCast]
    split <;> rfl

theorem cocolHeapElemDelete_removes (hs : s.Valid) (hx : x ∈ s.members) :
    ∃ t, cocolHeapElemDelete s x = .ok (0, t) ∧ Removes s t x := by
  have h0 : 0 < s.heapSize := by
    by_contra hzero
    simp [CocolHeapHeader.members, Nat.eq_zero_of_not_pos hzero] at hx
  obtain ⟨b, hb, ho, hmem⟩ := hs.holds h0
  obtain ⟨n, hn⟩ : ∃ n, s.heapSize = n + 1 := ⟨s.heapSize - 1, by omega⟩
  rw [hn] at hb ho hmem
  obtain ⟨i, hi, rfl⟩ := List.mem_map.mp (hmem ▸ hx)
  rw [List.mem_range] at hi
  rw [cocolHeapElemDelete_eq hb hn hi]
  by_cases hup : 0 < i ∧ s.key (b (parent i)) < s.key (b n)
  · have hin : i < n := by
      -- the last element is not above its own parent
      rcases Nat.lt_succ_iff_lt_or_eq.mp hi with h | rfl
      · exact h
      · exact absurd (ho i hup.1 hi) (not_le.mpr hup.2)
    obtain ⟨t, ht, hsize, hheap⟩ := cocolHeapShiftUpFroce_removes hb ho hup.1 hin hup.2.le
    rw [if_pos hup, ht]
    exact ⟨t, rfl, hheap.removes hsize hin.le hmem⟩
  · have hle : 0 < i → s.key (b n) ≤ s.key (b (parent i)) :=
      fun h ↦ not_lt.mp fun h' ↦ hup ⟨h, h'⟩
    obtain ⟨t, ht, hsize, hheap⟩ := cocolHeapShiftDown_removes hb ho (by omega : i ≤ n) hle
    rw [if_neg hup, ht]
    exact ⟨t, rfl, hheap.removes hsize (by omega) hmem⟩

/-! ## Emptying the heap -/

/-- `k` calls of `cocol_heap_root_delete`. -/
def rootDeletes (s : CocolHeapHeader ι) (k : ℕ) : Except Fault (CocolHeapHeader ι) :=
  run (fun s (_ : Unit) ↦ cocolHeapRootDelete s) s (List.replicate k ())

theorem rootDeletes_succ {k : ℕ} (h : cocolHeapRootDelete s = .ok t) :
    rootDeletes s (k + 1) = rootDeletes t k := by
  rw [rootDeletes, List.replicate_succ]
  exact run_cons_ok h _

omit [DecidableEq ι] in
theorem CocolHeapHeader.Valid.length_members (hs : s.Valid) : s.members.length = s.heapSize := by
  rcases Nat.eq_zero_or_pos s.heapSize with h0 | h0
  · simp [CocolHeapHeader.members, h0]
  · obtain ⟨b, -, -, hmem⟩ := hs.holds h0
    simp [hmem]

/-- The order in which a valid heap gives its members away. -/
theorem rootDeletes_sorted (hs : s.Valid) :
    ∃ xs : List ι, xs.Perm s.members ∧
      xs.Pairwise (fun x y ↦ (s.elem y).refConut ≤ (s.elem x).refConut) ∧
      ∀ k, k ≤ s.heapSize → ∃ t, rootDeletes s k = .ok t ∧ t.Valid ∧
        t.members.Perm (xs.drop k) := by
  generalize hn : s.heapSize = n
  induction n generalizing s with
  | zero =>
      refine ⟨[], by simp [CocolHeapHeader.members, hn], List.Pairwise.nil, fun k hk ↦ ?_⟩
      obtain rfl : k = 0 := by omega
      exact ⟨s, rfl, hs, by simp [CocolHeapHeader.members, hn]⟩
  | succ n ih =>
      obtain ⟨t, x, ht, hrem, hmax⟩ := cocolHeapRootDelete_removes hs (by omega)
      have hsize : t.heapSize = n := by
        have hlen := hrem.members.length_eq
        rw [List.length_cons, hs.length_members, hrem.valid.length_members] at hlen
        omega
      obtain ⟨xs, hperm, hsorted, hruns⟩ := ih hrem.valid hsize
      refine ⟨x :: xs, (hperm.cons x).trans hrem.members.symm, ?_, ?_⟩
      · simp only [hrem.counts] at hsorted
        refine List.pairwise_cons.mpr ⟨fun y hy ↦ hmax y ?_, hsorted⟩
        exact hrem.members.mem_iff.mpr (List.mem_cons_of_mem x (hperm.mem_iff.mp hy))
      · intro k hk
        cases k with
        | zero => exact ⟨s, rfl, hs, hrem.members.trans (hperm.symm.cons x)⟩
        | succ k =>
            obtain ⟨u, hu, hvalid, hmem⟩ := hruns k (by omega)
            exact ⟨u, (rootDeletes_succ ht).trans hu, hvalid, hmem⟩

/-- The indexed heap keeps its order, its positions and its contents. -/
theorem cocolHeap_operations (s : CocolHeapHeader ι) (hs : s.Valid) :
    (∀ x, 0 < s.heapSize → s.heapSize < s.room → x ∉ s.members →
      ∃ t, insertElem s x = .ok t ∧ Adds s t x) ∧
    (0 < s.heapSize → ∃ t x, cocolHeapRootDelete s = .ok t ∧ Removes s t x ∧
      ∀ y ∈ s.members, (s.elem y).refConut ≤ (s.elem x).refConut) ∧
    (∀ x ∈ s.members, ∃ t, cocolHeapElemDelete s x = .ok (0, t) ∧ Removes s t x) ∧
    ∃ xs : List ι, xs.Perm s.members ∧
      xs.Pairwise (fun x y ↦ (s.elem y).refConut ≤ (s.elem x).refConut) ∧
      ∀ k, k ≤ s.heapSize → ∃ t, rootDeletes s k = .ok t ∧ t.Valid ∧
        t.members.Perm (xs.drop k) := by
  refine ⟨?_, ?_, ?_, rootDeletes_sorted hs⟩
  · intro x h0 hroom hx
    exact insertElem_adds hs h0 hroom hx
  · intro h0
    exact cocolHeapRootDelete_removes hs h0
  · intro x hx
    exact cocolHeapElemDelete_removes hs hx

/-- Elements `0`, `1` and `2` with counts 9, 5 and 9, in a block of four. -/
def threeHeap : CocolHeapHeader (Fin 4) where
  proot := fun i ↦ if i < 3 then some (Fin.ofNat 4 i) else none
  room := 4
  elem := fun x ↦ ⟨0, if x = 1 then 5 else 9, if x = 3 then -1 else x⟩
  heapSize := 3
  totalSize := 4

theorem threeHeap_valid : threeHeap.Valid := by
  refine ⟨by decide, by decide, by decide, ?_⟩
  intro i x p h0 hi
  change i < 3 at hi
  interval_cases i <;> revert x p <;> decide

theorem cocolHeap_operations_three :
    (∃ t, insertElem threeHeap 3 = .ok t ∧ Adds threeHeap t 3) ∧
    (∃ t x, cocolHeapRootDelete threeHeap = .ok t ∧ Removes threeHeap t x ∧
      ∀ y ∈ threeHeap.members, (threeHeap.elem y).refConut ≤ (threeHeap.elem x).refConut) ∧
    ∃ t, cocolHeapElemDelete threeHeap 1 = .ok (0, t) ∧ Removes threeHeap t 1 := by
  have h := cocolHeap_operations threeHeap threeHeap_valid
  exact ⟨h.1 3 (by decide) (by decide) (by decide), h.2.1 (by decide), h.2.2.1 1 (by decide)⟩

end Valid

end Cocool.Heap
