import Cocool.Lib.Slots
import Mathlib.Logic.Equiv.Basic
import Mathlib.Order.Basic

/-!
# Binary heaps in an array

The first `n` entries of an array form a heap when no entry has a larger
key than its parent.  A sift moves one entry along a path; while it is on
its way the array is a heap except above it or except below it.  The
entries themselves only ever change places.
-/

namespace Lib

def parent (i : ℕ) : ℕ := (i - 1) / 2

theorem parent_lt {i : ℕ} (hi : 0 < i) : parent i < i := by
  unfold parent
  omega

theorem parent_eq_iff {i h : ℕ} (hi : 0 < i) :
    parent i = h ↔ i = 2 * h + 1 ∨ i = 2 * h + 2 := by
  unfold parent
  omega

/-- The array with two entries exchanged. -/
def swapAt {α : Type*} (a : ℕ → α) (i j : ℕ) : ℕ → α := fun k ↦ a (Equiv.swap i j k)

section Swap

variable {α : Type*} (a : ℕ → α) {i j k n : ℕ}

@[simp] theorem swapAt_left : swapAt a i j i = a j := by simp [swapAt]

@[simp] theorem swapAt_right : swapAt a i j j = a i := by simp [swapAt]

theorem swapAt_of_ne (hi : k ≠ i) (hj : k ≠ j) : swapAt a i j k = a k := by
  simp [swapAt, Equiv.swap_apply_of_ne_of_ne hi hj]

theorem arranged_swap (hi : i < n) (hj : j < n) :
    Arranged (fun k ↦ Equiv.swap i j k) n := by
  apply (arranged_id n).swap hi hj (Equiv.swap_apply_left i j) (Equiv.swap_apply_right i j)
  intro k hki hkj
  exact Equiv.swap_apply_of_ne_of_ne hki hkj

theorem map_swapAt_perm (hi : i < n) (hj : j < n) :
    ((List.range n).map (swapAt a i j)).Perm ((List.range n).map a) := by
  have h := (arranged_iff_perm.mp (arranged_swap hi hj)).map a
  rw [List.map_map] at h
  exact h

theorem swapAt_injOn (ha : Set.InjOn a (Set.Iio n)) (hi : i < n) (hj : j < n) :
    Set.InjOn (swapAt a i j) (Set.Iio n) := by
  have hs := arranged_swap hi hj
  intro k hk l hl hkl
  have h := ha (hs.lt k hk) (hs.lt l hl) hkl
  exact hs.inj k l hk hl h

/-- Taking the last entry away and putting it in place of entry `i` removes
exactly that entry. -/
theorem map_update_last_perm (hi : i ≤ n) :
    ((List.range (n + 1)).map a).Perm
      (a i :: (List.range n).map (Function.update a i (a n))) := by
  have hself : ((List.range (n + 1)).map (swapAt a i n)).Perm ((List.range (n + 1)).map a) :=
    map_swapAt_perm a (by omega) (by omega)
  refine hself.symm.trans ?_
  have hrange : (List.range n).map (swapAt a i n) =
      (List.range n).map (Function.update a i (a n)) := by
    apply List.map_congr_left
    intro k hk
    have hkn : k ≠ n := (List.mem_range.mp hk).ne
    by_cases hki : k = i
    · simp [hki]
    · rw [swapAt_of_ne a hki hkn, Function.update_of_ne hki]
  rw [List.range_succ, List.map_append, hrange]
  simp [List.perm_append_singleton]

theorem update_last_injOn (ha : Set.InjOn a (Set.Iio (n + 1))) (hi : i ≤ n) :
    Set.InjOn (Function.update a i (a n)) (Set.Iio n) := by
  intro k hk l hl hkl
  simp only [Set.mem_Iio] at hk hl
  have hinj : ∀ p q, p < n + 1 → q < n + 1 → a p = a q → p = q := fun p q hp hq h ↦ ha hp hq h
  by_cases hki : k = i <;> by_cases hli : l = i
  · rw [hki, hli]
  · subst hki
    rw [Function.update_self, Function.update_of_ne hli] at hkl
    have := hinj n l (by omega) (by omega) hkl
    omega
  · subst hli
    rw [Function.update_self, Function.update_of_ne hki] at hkl
    have := hinj k n (by omega) (by omega) hkl
    omega
  · rw [Function.update_of_ne hki, Function.update_of_ne hli] at hkl
    exact hinj k l (by omega) (by omega) hkl

end Swap

section Order

variable {α β : Type*} [LinearOrder β] (key : α → β)

/-- No entry among the first `n` has a larger key than its parent. -/
def HeapOrdered (a : ℕ → α) (n : ℕ) : Prop :=
  ∀ i, 0 < i → i < n → key (a i) ≤ key (a (parent i))

/-- A heap but for entry `h`, which may be too large for its parent. -/
structure UpHole (a : ℕ → α) (n h : ℕ) : Prop where
  except : ∀ i, 0 < i → i < n → i ≠ h → key (a i) ≤ key (a (parent i))
  grand : ∀ i, 0 < h → 0 < i → i < n → parent i = h → key (a i) ≤ key (a (parent h))

/-- A heap but for entry `h`, which may be too small for its children. -/
structure DownHole (a : ℕ → α) (n h : ℕ) : Prop where
  except : ∀ i, 0 < i → i < n → parent i ≠ h → key (a i) ≤ key (a (parent i))
  grand : ∀ i, 0 < h → 0 < i → i < n → parent i = h → key (a i) ≤ key (a (parent h))

variable {key} {a : ℕ → α} {n h c : ℕ}

theorem HeapOrdered.le_root (ho : HeapOrdered key a n) {i : ℕ} (hi : i < n) :
    key (a i) ≤ key (a 0) := by
  induction i using Nat.strong_induction_on with
  | _ i ih =>
      rcases Nat.eq_zero_or_pos i with rfl | hpos
      · exact le_refl _
      · have hlt := parent_lt hpos
        exact (ho i hpos hi).trans (ih (parent i) hlt (by omega))

theorem HeapOrdered.mono {m : ℕ} (ho : HeapOrdered key a n) (hm : m ≤ n) :
    HeapOrdered key a m :=
  fun i hpos hi ↦ ho i hpos (by omega)

/-! ## Where a sift starts -/

/-- A new last entry has no children yet. -/
theorem HeapOrdered.upHole_last (ho : HeapOrdered key a n) : UpHole key a (n + 1) n := by
  constructor
  · intro i hpos hi hin
    exact ho i hpos (by omega)
  · intro i _ hpos hi hp
    have := parent_lt hpos
    omega

theorem HeapOrdered.upHole_update (ho : HeapOrdered key a n) {x : α} (hh : h < n)
    (h0 : 0 < h) (hx : key (a (parent h)) ≤ key x) :
    UpHole key (Function.update a h x) n h := by
  have hph : parent h ≠ h := (parent_lt h0).ne
  constructor
  · intro i hpos hi hih
    rw [Function.update_of_ne hih]
    by_cases hp : parent i = h
    · rw [hp, Function.update_self]
      have hup := ho i hpos hi
      rw [hp] at hup
      exact hup.trans ((ho h h0 hh).trans hx)
    · rw [Function.update_of_ne hp]
      exact ho i hpos hi
  · intro i _ hpos hi hp
    have hih : i ≠ h := by
      have := parent_lt hpos
      omega
    rw [Function.update_of_ne hih, Function.update_of_ne hph]
    have hup := ho i hpos hi
    rw [hp] at hup
    exact hup.trans (ho h h0 hh)

theorem HeapOrdered.downHole_update (ho : HeapOrdered key a n) {x : α} (hh : h < n)
    (hx : 0 < h → key x ≤ key (a (parent h))) : DownHole key (Function.update a h x) n h := by
  constructor
  · intro i hpos hi hp
    rw [Function.update_of_ne hp]
    by_cases hih : i = h
    · subst hih
      rw [Function.update_self]
      exact hx hpos
    · rw [Function.update_of_ne hih]
      exact ho i hpos hi
  · intro i h0 hpos hi hp
    have hih : i ≠ h := by
      have := parent_lt hpos
      omega
    rw [Function.update_of_ne hih, Function.update_of_ne (parent_lt h0).ne]
    have hup := ho i hpos hi
    rw [hp] at hup
    exact hup.trans (ho h h0 hh)

/-! ## One step up -/

theorem UpHole.swap (hu : UpHole key a n h) (h0 : 0 < h) (hh : h < n)
    (hlt : key (a (parent h)) ≤ key (a h)) :
    UpHole key (swapAt a h (parent h)) n (parent h) := by
  have hph := parent_lt h0
  constructor
  · intro i hpos hi hip
    by_cases hih : i = h
    · subst hih
      rw [swapAt_left, swapAt_right]
      exact hlt
    · rw [swapAt_of_ne a hih hip]
      by_cases hp : parent i = h
      · rw [hp, swapAt_left]
        exact hu.grand i h0 hpos hi hp
      · by_cases hpp : parent i = parent h
        · rw [hpp, swapAt_right]
          have hup := hu.except i hpos hi hih
          rw [hpp] at hup
          exact hup.trans hlt
        · rw [swapAt_of_ne a hp hpp]
          exact hu.except i hpos hi hih
  · intro i hp0 hpos hi hp
    have hpp := parent_lt hp0
    have hparent := hu.except (parent h) hp0 (by omega) hph.ne
    rw [swapAt_of_ne a (by omega : parent (parent h) ≠ h) hpp.ne]
    by_cases hih : i = h
    · subst hih
      rw [swapAt_left]
      exact hparent
    · have hip : i ≠ parent h := by
        have := parent_lt hpos
        omega
      rw [swapAt_of_ne a hih hip]
      have hup := hu.except i hpos hi hih
      rw [hp] at hup
      exact hup.trans hparent

theorem UpHole.ordered (hu : UpHole key a n h)
    (hstop : 0 < h → key (a h) ≤ key (a (parent h))) : HeapOrdered key a n := by
  intro i hpos hi
  by_cases hih : i = h
  · subst hih
    exact hstop hpos
  · exact hu.except i hpos hi hih

/-! ## One step down -/

theorem DownHole.swap (hd : DownHole key a n h) (hc : 0 < c) (hcn : c < n) (hp : parent c = h)
    (hbest : ∀ i, 0 < i → i < n → parent i = h → key (a i) ≤ key (a c))
    (hle : key (a h) ≤ key (a c)) : DownHole key (swapAt a h c) n c := by
  have hhc : h < c := hp ▸ parent_lt hc
  constructor
  · intro i hpos hi hic
    by_cases hih : i = h
    · -- the child that moved up fits under the parent of the hole
      subst hih
      rw [swapAt_left, swapAt_of_ne a (parent_lt hpos).ne hic]
      exact hd.grand c hpos hc hcn hp
    · by_cases hpi : parent i = h
      · rw [hpi, swapAt_left]
        by_cases hi' : i = c
        · rw [hi', swapAt_right]
          exact hle
        · rw [swapAt_of_ne a hih hi']
          exact hbest i hpos hi hpi
      · have hi' : i ≠ c := fun h' ↦ hpi (h' ▸ hp)
        rw [swapAt_of_ne a hih hi', swapAt_of_ne a hpi hic]
        exact hd.except i hpos hi hpi
  · intro i _ hpos hi hpi
    have hci : c < i := hpi ▸ parent_lt hpos
    rw [hp, swapAt_left, swapAt_of_ne a (by omega : i ≠ h) hci.ne']
    have hup := hd.except i hpos hi (by omega)
    rw [hpi] at hup
    exact hup

theorem DownHole.ordered (hd : DownHole key a n h)
    (hstop : ∀ i, 0 < i → i < n → parent i = h → key (a i) ≤ key (a h)) :
    HeapOrdered key a n := by
  intro i hpos hi
  by_cases hp : parent i = h
  · rw [hp]
    exact hstop i hpos hi hp
  · exact hd.except i hpos hi hp

end Order

end Lib
