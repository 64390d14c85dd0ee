import Cocool.Timer.MinHeap
import Cocool.Lib.IndexedHeap
import Mathlib.Data.Prod.Lex
import Mathlib.Order.OrderDual

/-!
# Sifting in the timer heap

The loops of the two `min_heap_shift` functions move a hole through the array.
What stands in the array with the moving event in the hole is a heap again
where they stop.
-/

namespace Cocool.Timer

open Lib OrderDual

namespace Timeval

/-- The order in which timeouts come. -/
def key (t : Timeval) : ℤ ×ₗ ℤ := toLex (t.tvSec, t.tvUsec)

theorem key_injective : Function.Injective key := by
  rintro ⟨_, _⟩ ⟨_, _⟩ h
  obtain ⟨rfl, rfl⟩ := Prod.mk.inj (toLex_inj.1 h)
  rfl

instance : LinearOrder Timeval := LinearOrder.lift' key key_injective

theorem lt_iff {t u : Timeval} :
    t < u ↔ t.tvSec < u.tvSec ∨ t.tvSec = u.tvSec ∧ t.tvUsec < u.tvUsec :=
  Prod.Lex.lt_iff

end Timeval

theorem evutilTimercmp_gt (t u : Timeval) : evutilTimercmp t u (· > ·) = decide (u < t) := by
  rw [evutilTimercmp, Bool.eq_iff_iff]
  simp only [decide_eq_true_eq, Timeval.lt_iff]
  by_cases h : t.tvSec = u.tvSec
  · simp [h]
  · simp [h, Ne.symm h]

theorem evutilTimercmp_lt (t u : Timeval) : evutilTimercmp t u (· < ·) = decide (t < u) := by
  rw [evutilTimercmp, Bool.eq_iff_iff]
  simp only [decide_eq_true_eq, Timeval.lt_iff]
  by_cases h : t.tvSec = u.tvSec
  · simp [h]
  · simp [h]

theorem evutilTimercmp_le (t u : Timeval) : evutilTimercmp t u (· ≤ ·) = decide (t ≤ u) := by
  rw [evutilTimercmp, Bool.eq_iff_iff]
  simp only [decide_eq_true_eq, ← not_lt, Timeval.lt_iff]
  by_cases h : t.tvSec = u.tvSec
  · simp [h]
  · simp [h, Ne.symm h]

variable {ι : Type} [DecidableEq ι] {s t u : MinHeap ι} {time : ι → Timeval} {b c : ℕ → ι}
  {n h k fuel : ℕ} {e x y : ι} {l l' : List ι}

/-- The first `n` cells of an array. -/
def cells (b : ℕ → ι) (n : ℕ) : List ι := (List.range n).map b

omit [DecidableEq ι] in
theorem mem_cells : x ∈ cells b n ↔ ∃ i < n, b i = x := by
  simp [cells]

/-- The two heaps differ in the array, and in the positions of events of `l`. -/
structure Moved (l : List ι) (s t : MinHeap ι) : Prop where
  n : t.n = s.n
  a : t.a = s.a
  event : ∀ y, { t.ev y with minHeapIdx := 0 } = { s.ev y with minHeapIdx := 0 }
  other : ∀ y, y ∉ l → t.ev y = s.ev y

namespace Moved

omit [DecidableEq ι]

theorem refl (l : List ι) (s : MinHeap ι) : Moved l s s := ⟨rfl, rfl, fun _ ↦ rfl, fun _ _ ↦ rfl⟩

theorem trans (h : Moved l s t) (h' : Moved l' t u) (hl : ∀ y ∈ l', y ∈ l) : Moved l s u :=
  ⟨h'.n.trans h.n, h'.a.trans h.a, fun y ↦ (h'.event y).trans (h.event y),
    fun y hy ↦ (h'.other y fun hy' ↦ hy (hl y hy')).trans (h.other y hy)⟩

theorem evTimeout (h : Moved l s t) (y : ι) : (t.ev y).evTimeout = (s.ev y).evTimeout := by
  have hev := congrArg Event.evTimeout (h.event y)
  exact hev

end Moved

namespace MinHeap

@[simp] theorem placed_p (s : MinHeap ι) (i : ℕ) (e : ι) :
    (s.placed i e).p = Function.update s.p i (some e) := rfl

@[simp] theorem placed_a (s : MinHeap ι) (i : ℕ) (e : ι) : (s.placed i e).a = s.a := rfl

@[simp] theorem placed_n (s : MinHeap ι) (i : ℕ) (e : ι) : (s.placed i e).n = s.n := rfl

theorem withIdx_idx (s : MinHeap ι) (e : ι) (i : ℤ) :
    (s.withIdx e i).idx = Function.update s.idx e i := by
  funext y
  by_cases hy : y = e
  · simp [idx, withIdx, hy]
  · simp [idx, withIdx, hy]

theorem placed_idx (s : MinHeap ι) (e : ι) (hh : h < 2 ^ 31) :
    (s.placed h e).idx = Function.update s.idx e h := by
  rw [placed, withIdx_idx, wrapSigned_of_inSigned (by omega)]
  · rfl
  · rw [InSigned]
    omega

theorem withIdx_event (s : MinHeap ι) (e : ι) (i : ℤ) (y : ι) :
    { (s.withIdx e i).ev y with minHeapIdx := 0 } = { s.ev y with minHeapIdx := 0 } := by
  by_cases hy : y = e
  · simp [withIdx, hy]
  · simp [withIdx, hy]

theorem placed_moved (hx : e ∈ l) : Moved l s (s.placed h e) := by
  refine ⟨rfl, rfl, withIdx_event _ e _, fun y hy ↦ ?_⟩
  exact Function.update_of_ne (ne_of_mem_of_not_mem hx hy).symm _ _

end MinHeap

/-- The array holds `b`, but for the event `b h`, which is on its way to the
hole at `h`. -/
structure Sifting (time : ι → Timeval) (s : MinHeap ι) (b : ℕ → ι) (n h : ℕ) : Prop where
  hole : Hole s.p s.idx b n h
  room : n ≤ s.a
  small : n < 2 ^ 31
  time : ∀ x, (s.ev x).evTimeout = time x

namespace Sifting

omit [DecidableEq ι] in
theorem read (hs : Sifting time s b n h) (hk : k < n) (hkh : k ≠ h) : s.read k = .ok (b k) := by
  rw [MinHeap.read, if_pos (hk.trans_le hs.room), hs.hole.entry k hk hkh]

omit [DecidableEq ι] in
theorem greater (hs : Sifting time s b n h) (x y : ι) :
    minHeapElemGreater s x y = decide (time y < time x) := by
  rw [minHeapElemGreater, evutilTimercmp_gt, hs.time, hs.time]

theorem move (hs : Sifting time s b n h) (hk : k < n) :
    ∃ t, s.place h (b k) = .ok t ∧ Sifting time t (swapAt b h k) n k ∧
      Moved (cells b n) s t := by
  have hsmall : h < 2 ^ 31 := hs.hole.lt.trans hs.small
  have hmoved : Moved (cells b n) s (s.placed h (b k)) :=
    MinHeap.placed_moved (mem_cells.2 ⟨k, hk, rfl⟩)
  refine ⟨s.placed h (b k), if_pos (hs.hole.lt.trans_le hs.room), ⟨?_, hs.room, hs.small,
    fun x ↦ (hmoved.evTimeout x).trans (hs.time x)⟩, hmoved⟩
  rw [MinHeap.placed_p, MinHeap.placed_idx s (b k) hsmall]
  exact hs.hole.move hk

theorem fill (hs : Sifting time s b n h) :
    ∃ t, s.place h (b h) = .ok t ∧ Seated t.p t.idx b n ∧ Moved (cells b n) s t := by
  have hsmall : h < 2 ^ 31 := hs.hole.lt.trans hs.small
  refine ⟨s.placed h (b h), if_pos (hs.hole.lt.trans_le hs.room), ?_,
    MinHeap.placed_moved (mem_cells.2 ⟨h, hs.hole.lt, rfl⟩)⟩
  rw [MinHeap.placed_p, MinHeap.placed_idx s (b h) hsmall]
  exact hs.hole.fill

end Sifting

/-- The array holds the events of `b` in the order of a heap. -/
def Heaped (time : ι → Timeval) (t : MinHeap ι) (b : ℕ → ι) (n : ℕ) : Prop :=
  ∃ c, Seated t.p t.idx c n ∧ HeapOrdered (fun x ↦ toDual (time x)) c n ∧
    (cells c n).Perm (cells b n)

omit [DecidableEq ι] in
theorem cells_swapAt_perm (hh : h < n) (hk : k < n) :
    (cells (swapAt b h k) n).Perm (cells b n) :=
  map_swapAt_perm b hh hk

theorem holeParent_eq (h0 : 0 < h) (hh : h < 2 ^ 31) : holeParent h = parent h := by
  have hwrap := wrapUnsigned_of_lt (w := 32) (n := ((h : ℤ) - 1)) (by omega) (by omega)
  rw [holeParent, parent]
  omega

/-! ## Up -/

theorem shiftUpLoop_spec (hfuel : h < fuel) (hs : Sifting time s b n h)
    (hu : UpHole (fun x ↦ toDual (time x)) b n h) :
    ∃ i t c, shiftUpLoop (b h) fuel h s = .ok (i, t) ∧ Sifting time t c n i ∧
      HeapOrdered (fun x ↦ toDual (time x)) c n ∧ c i = b h ∧ (cells c n).Perm (cells b n) ∧
      Moved (cells b n) s t := by
  induction fuel generalizing h s b with
  | zero => omega
  | succ fuel ih =>
      rcases Nat.eq_zero_or_pos h with rfl | h0
      · exact ⟨0, s, b, rfl, hs, hu.ordered fun h ↦ absurd h (lt_irrefl 0), rfl, .refl _,
          .refl _ s⟩
      · have hlt := parent_lt h0
        have hpn : parent h < n := hlt.trans hs.hole.lt
        have hparent := holeParent_eq h0 (hs.hole.lt.trans hs.small)
        have hread := hs.read hpn hlt.ne
        by_cases hgt : time (b h) < time (b (parent h))
        · obtain ⟨t, ht, hsift, hmoved⟩ := hs.move hpn
          have hfuel' : parent h < fuel := by omega
          obtain ⟨i, u, c, hu', hsift', hord, hc, hperm, hmoved'⟩ :=
            ih hfuel' hsift (hu.swap h0 hs.hole.lt hgt.le)
          have hswap := cells_swapAt_perm (b := b) hs.hole.lt hpn
          rw [swapAt_right] at hu' hc
          refine ⟨i, u, c, ?_, hsift', hord, hc, hperm.trans hswap,
            hmoved.trans hmoved' fun y ↦ hswap.mem_iff.1⟩
          simp only [shiftUpLoop, h0.ne', if_false, hparent, hread, hs.greater, hgt,
            decide_true, if_true, bind, Except.bind, ht, hu']
        · refine ⟨h, s, b, ?_, hs, hu.ordered fun _ ↦ not_lt.1 hgt, rfl, .refl _, .refl _ s⟩
          simp only [shiftUpLoop, h0.ne', if_false, hparent, hread, hs.greater, hgt,
            decide_false, Bool.false_eq_true, bind, Except.bind, pure, Except.pure]

theorem minHeapShiftUp_spec (hs : Sifting time s b n h)
    (hu : UpHole (fun x ↦ toDual (time x)) b n h) :
    ∃ t, minHeapShiftUp s h (b h) = .ok t ∧ Heaped time t b n ∧ Moved (cells b n) s t := by
  obtain ⟨i, t, c, ht, hsift, hord, hc, hperm, hmoved⟩ :=
    shiftUpLoop_spec (Nat.lt_succ_self h) hs hu
  obtain ⟨u, hu, hseated, hmoved'⟩ := hsift.fill
  rw [hc] at hu
  refine ⟨u, ?_, ⟨c, hseated, hord, hperm⟩, hmoved.trans hmoved' fun y ↦ hperm.mem_iff.1⟩
  simp only [minHeapShiftUp, ht, bind, Except.bind, hu]

/-- The move before the first comparison is the one the loop would make. -/
theorem minHeapShiftUpUnconditional_spec (h0 : 0 < h) (hs : Sifting time s b n h)
    (hu : UpHole (fun x ↦ toDual (time x)) b n h) (hle : time (b h) ≤ time (b (parent h))) :
    ∃ t, minHeapShiftUpUnconditional s h (b h) = .ok t ∧ Heaped time t b n ∧
      Moved (cells b n) s t := by
  have hlt := parent_lt h0
  have hpn : parent h < n := hlt.trans hs.hole.lt
  have hparent := holeParent_eq h0 (hs.hole.lt.trans hs.small)
  have hread := hs.read hpn hlt.ne
  have hswap := cells_swapAt_perm (b := b) hs.hole.lt hpn
  obtain ⟨t, ht, hsift, hmoved⟩ := hs.move hpn
  obtain ⟨u, hu', ⟨c, hseated, hord, hperm⟩, hmoved'⟩ :=
    minHeapShiftUp_spec hsift (hu.swap h0 hs.hole.lt hle)
  rw [swapAt_right] at hu'
  refine ⟨u, ?_, ⟨c, hseated, hord, hperm.trans hswap⟩,
    hmoved.trans hmoved' fun y ↦ hswap.mem_iff.1⟩
  simp only [minHeapShiftUpUnconditional, hparent, hread, bind, Except.bind, ht, hu']

/-! ## Down -/

omit [DecidableEq ι] in
/-- The child with the earlier timeout, or the only one. -/
theorem minChildOf_spec (hn : s.n = n) (hs : Sifting time s b n h) (hle : 2 * h + 2 ≤ n) :
    ∃ k, minChildOf s (2 * h + 2) = .ok k ∧ 0 < k ∧ k < n ∧ parent k = h ∧
      ∀ i, 0 < i → i < n → parent i = h → time (b k) ≤ time (b i) := by
  have hleft : parent (2 * h + 1) = h := (parent_eq_iff (Nat.succ_pos _)).2 (.inl rfl)
  by_cases hlast : 2 * h + 2 = n
  · refine ⟨2 * h + 1, ?_, Nat.succ_pos _, by omega, hleft, fun i hi hin hp ↦ ?_⟩
    · rw [minChildOf, if_pos (hlast.trans hn.symm)]
      rfl
    · rcases (parent_eq_iff hi).1 hp with rfl | rfl
      · exact le_rfl
      · omega
  · have hright := hs.read (k := 2 * h + 2) (by omega) (by omega)
    have hread := hs.read (k := 2 * h + 1) (by omega) (by omega)
    have hne : 2 * h + 2 ≠ s.n := fun h' ↦ hlast (h'.trans hn)
    have hsub : 2 * h + 2 - 1 = 2 * h + 1 := rfl
    by_cases hgt : time (b (2 * h + 1)) < time (b (2 * h + 2))
    · refine ⟨2 * h + 1, ?_, Nat.succ_pos _, by omega, hleft, fun i hi hin hp ↦ ?_⟩
      · simp only [minChildOf, hne, if_false, hright, hsub, hread, bind, Except.bind, hs.greater,
          hgt, decide_true, if_true, pure, Except.pure]
      · rcases (parent_eq_iff hi).1 hp with rfl | rfl
        · exact le_rfl
        · exact hgt.le
    · refine ⟨2 * h + 2, ?_, Nat.succ_pos _, by omega,
        (parent_eq_iff (Nat.succ_pos _)).2 (.inr rfl), fun i hi hin hp ↦ ?_⟩
      · simp only [minChildOf, hne, if_false, hright, hsub, hread, bind, Except.bind, hs.greater,
          hgt, decide_false, Bool.false_eq_true, pure, Except.pure]
      · rcases (parent_eq_iff hi).1 hp with rfl | rfl
        · exact not_lt.1 hgt
        · exact le_rfl

theorem shiftDownLoop_spec (hfuel : n < h + fuel) (hn : s.n = n) (hs : Sifting time s b n h)
    (hd : DownHole (fun x ↦ toDual (time x)) b n h) :
    ∃ i t c, shiftDownLoop (b h) fuel h s = .ok (i, t) ∧ Sifting time t c n i ∧
      HeapOrdered (fun x ↦ toDual (time x)) c n ∧ c i = b h ∧ (cells c n).Perm (cells b n) ∧
      Moved (cells b n) s t := by
  induction fuel generalizing h s b with
  | zero =>
      have hlt := hs.hole.lt
      omega
  | succ fuel ih =>
      have hchild : wrapUnsigned 32 (2 * ((h : ℤ) + 1)) = 2 * h + 2 := by
        have hlt := hs.hole.lt
        have hsmall := hs.small
        have hwrap := wrapUnsigned_of_lt (w := 32) (n := 2 * ((h : ℤ) + 1)) (by omega) (by omega)
        omega
      by_cases hle : 2 * h + 2 ≤ n
      · obtain ⟨k, hk, hk0, hkn, hkp, hbest⟩ := minChildOf_spec hn hs hle
        have hhk : h < k := hkp ▸ parent_lt hk0
        have hread := hs.read hkn hhk.ne'
        by_cases hgt : time (b k) < time (b h)
        · obtain ⟨t, ht, hsift, hmoved⟩ := hs.move hkn
          have hfuel' : n < k + fuel := by omega
          obtain ⟨i, u, c, hu, hsift', hord, hc, hperm, hmoved'⟩ :=
            ih hfuel' (hmoved.n.trans hn) hsift (hd.swap hk0 hkn hkp hbest hgt.le)
          have hswap := cells_swapAt_perm (b := b) hs.hole.lt hkn
          rw [swapAt_right] at hu hc
          refine ⟨i, u, c, ?_, hsift', hord, hc, hperm.trans hswap,
            hmoved.trans hmoved' fun y ↦ hswap.mem_iff.1⟩
          simp only [shiftDownLoop, hchild, hn, hle, if_true, hk, hread, bind, Except.bind,
            hs.greater, hgt, decide_true, ht, hu]
        · have hord := hd.ordered fun i hi hin hp ↦
            (not_lt.1 hgt).trans (hbest i hi hin hp)
          refine ⟨h, s, b, ?_, hs, hord, rfl, .refl _, .refl _ s⟩
          simp only [shiftDownLoop, hchild, hn, hle, if_true, hk, hread, bind, Except.bind,
            hs.greater, hgt, decide_false, Bool.false_eq_true, if_false, pure, Except.pure]
      · have hord := hd.ordered fun i hi hin hp ↦ by
          have hchild := (parent_eq_iff hi).1 hp
          omega
        refine ⟨h, s, b, ?_, hs, hord, rfl, .refl _, .refl _ s⟩
        simp only [shiftDownLoop, hchild, hn, hle, if_false]

theorem minHeapShiftDown_spec (hn : s.n = n) (hs : Sifting time s b n h)
    (hd : DownHole (fun x ↦ toDual (time x)) b n h) :
    ∃ t, minHeapShiftDown s h (b h) = .ok t ∧ Heaped time t b n ∧ Moved (cells b n) s t := by
  have hfuel : n < h + (s.n + 1) := by omega
  obtain ⟨i, t, c, ht, hsift, hord, hc, hperm, hmoved⟩ := shiftDownLoop_spec hfuel hn hs hd
  obtain ⟨u, hu, hseated, hmoved'⟩ := hsift.fill
  rw [hc] at hu
  refine ⟨u, ?_, ⟨c, hseated, hord, hperm⟩, hmoved.trans hmoved' fun y ↦ hperm.mem_iff.1⟩
  simp only [minHeapShiftDown, ht, bind, Except.bind, hu]

end Cocool.Timer
