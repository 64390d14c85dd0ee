import Cocool.Heap.Order

/-!
# Rebuilding the heap

`cocol_heap_adjust` lowers `heapSize` to one and lets every further element
of the old array sift into the heap before it.  The sift of element `k`
stays inside of the first `k + 1` entries, so the entries that are still to
come and their noted positions are as they were.
-/

namespace Cocool.Heap

open Lib

variable {ι : Type} [DecidableEq ι] {key : ι → ℤ} {s : CocolHeapHeader ι} {b : ℕ → ι} {n k : ℕ}

omit [DecidableEq ι] in
theorem Holds.load (hb : Holds key s b n) (hk : k < n) : s.load k = .ok (some (b k)) := by
  have hr : (k : ℤ) < s.room := by exact_mod_cast hk.trans_le hb.room
  simp [CocolHeapHeader.load, hr, hb.entry k hk]

omit [DecidableEq ι] in
/-- The element that is about to sift stands in its hole already. -/
theorem Holds.sifting (hb : Holds key s b n) (hk : k < n) : Sifting key s b n k := by
  refine ⟨hk, hb.room, hb.inj, ?_, ?_, hb.keys⟩
  · intro i hi _
    exact hb.entry i hi
  · intro i hi _
    exact hb.heapIdx i hi

omit [DecidableEq ι] in
theorem Holds.resize (hb : Holds key s b n) (k : ℕ) : Holds key { s with heapSize := k } b n :=
  ⟨hb.room, hb.entry, hb.heapIdx, hb.keys⟩

theorem adjustLoop_spec {fuel : ℕ} (hfuel : n ≤ k + fuel) (h0 : 0 < k) (hk : k ≤ n)
    (hsize : s.heapSize = k) (hb : Holds key s b n) (ho : HeapOrdered key b k) :
    ∃ t, adjustLoop n fuel s = .ok t ∧ t.heapSize = n ∧ HeapOf key t b n := by
  induction fuel generalizing s b k with
  | zero =>
      obtain rfl : k = n := by omega
      exact ⟨s, rfl, hsize, b, hb, ho, .refl _⟩
  | succ fuel ih =>
      rcases hk.lt_or_eq with hlt | rfl
      · obtain ⟨t, c, ht, hholds, hord, hperm, hsizes⟩ :=
          cocolHeapShiftUp_prefix h0 hlt k.lt_succ_self (hb.sifting hlt) ho.upHole_last
        have htsize : t.heapSize + 1 = k + 1 := by rw [hsizes.heapSize, hsize]
        obtain ⟨u, hu, husize, d, hd, hdord, hdperm⟩ :=
          ih (by omega) k.succ_pos hlt htsize (hholds.resize _) hord
        refine ⟨u, ?_, husize, d, hd, hdord, hdperm.trans hperm⟩
        rw [adjustLoop, if_pos (hsize.trans_lt hlt), hsize, hb.load hlt]
        simp only [bind, Except.bind, ht]
        exact hu
      · refine ⟨s, ?_, hsize, b, hb, ho, .refl _⟩
        rw [adjustLoop, if_neg (by omega)]

theorem cocolHeapAdjust_spec (hs : s.Indexed) :
    ∃ t, cocolHeapAdjust s = .ok t ∧ t.heapSize = s.heapSize ∧ t.Valid ∧
      t.members.Perm s.members ∧ ∀ x, t.key x = s.key x := by
  rcases Nat.eq_zero_or_pos s.heapSize with hzero | hpos
  · have hempty : s.Valid := by
      refine ⟨hs.room, hs.entry, by simp [CocolHeapHeader.members, hzero], ?_⟩
      intro i x p _ hi
      omega
    exact ⟨s, if_pos (.inr (by omega)), rfl, hempty, .refl _, fun _ ↦ rfl⟩
  · obtain ⟨b, hb, hmem⟩ := hs.holds hpos
    -- a heap of one element needs no order
    have hfirst : HeapOrdered s.key b 1 := by
      intro i h0 hi
      omega
    by_cases hone : s.heapSize ≤ 1
    · have hsize : s.heapSize = 1 := by omega
      rw [hsize] at hb
      exact ⟨s, if_pos (.inr hone), rfl, hb.valid hfirst hsize, .refl _, fun _ ↦ rfl⟩
    · have hroom := hs.room
      obtain ⟨t, ht, hsize, hheap⟩ := adjustLoop_spec (Nat.le_add_left _ 1) one_pos hpos rfl
        (hb.resize 1) hfirst
      obtain ⟨hvalid, hperm, hkeys⟩ := hheap.valid hsize
      refine ⟨t, ?_, hsize, hvalid, hmem ▸ hperm, hkeys⟩
      rw [cocolHeapAdjust, if_neg (by omega)]
      exact ht

/-- Rebuilding needs nothing of the counts: what comes out is a heap of the
same elements, with every position noted. -/
theorem cocolHeapAdjust_heap (s : CocolHeapHeader ι) (hroom : s.heapSize ≤ s.room)
    (hentry : ∀ i, i < s.heapSize → ∃ x, s.proot i = some x ∧ (s.elem x).heapIdx = i) :
    ∃ t, cocolHeapAdjust s = .ok t ∧ t.heapSize = s.heapSize ∧ t.members.Perm s.members ∧
      (∀ x, (t.elem x).refConut = (s.elem x).refConut) ∧
      (∀ i x p, 0 < i → i < t.heapSize → t.proot i = some x → t.proot ((i - 1) / 2) = some p →
        (t.elem x).refConut ≤ (t.elem p).refConut) ∧
      ∀ i, i < t.heapSize → ∃ x, t.proot i = some x ∧ (t.elem x).heapIdx = i := by
  obtain ⟨t, ht, hsize, hvalid, hperm, hkeys⟩ := cocolHeapAdjust_spec ⟨hroom, hentry⟩
  exact ⟨t, ht, hsize, hperm, hkeys, hvalid.ordered, hvalid.entry⟩

/-- Elements `0` to `3` in this order, with counts that rise. -/
def risingHeap : CocolHeapHeader (Fin 4) where
  proot := fun i ↦ if h : i < 4 then some ⟨i, h⟩ else none
  room := 4
  elem := fun x ↦ ⟨0, x, x⟩
  heapSize := 4
  totalSize := 4

theorem cocolHeapAdjust_heap_rising :
    ∃ t, cocolHeapAdjust risingHeap = .ok t ∧ t.heapSize = risingHeap.heapSize ∧
      t.members.Perm risingHeap.members ∧ t.members = [3, 2, 1, 0] := by
  obtain ⟨t, ht, hsize, hperm, -⟩ := cocolHeapAdjust_heap risingHeap (by decide) (by decide)
  refine ⟨t, ht, hsize, hperm, ?_⟩
  have hrun : (cocolHeapAdjust risingHeap).map CocolHeapHeader.members = .ok [3, 2, 1, 0] := by
    decide
  rw [ht] at hrun
  exact Except.ok.inj hrun

end Cocool.Heap
