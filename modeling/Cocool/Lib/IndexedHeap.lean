import Cocool.Lib.Heap
import Mathlib.Logic.Function.Basic

/-!
# Arrays whose cells know their places

An array of pointers to cells, each of which records the index it stands at.
While one cell is moved the array has a hole, and a store into the hole either
moves it on or fills it.
-/

namespace Lib

variable {ι : Type*}

/-- `p` begins with the `n` cells of `b`, and each of them records its index. -/
structure Seated (p : ℕ → Option ι) (idx : ι → ℤ) (b : ℕ → ι) (n : ℕ) : Prop where
  entry : ∀ i < n, p i = some (b i)
  idx : ∀ i < n, idx (b i) = i

/-- The same but for the cell `b h`, which is on its way to the hole at `h`. -/
structure Hole (p : ℕ → Option ι) (idx : ι → ℤ) (b : ℕ → ι) (n h : ℕ) : Prop where
  lt : h < n
  inj : Set.InjOn b (Set.Iio n)
  entry : ∀ i < n, i ≠ h → p i = some (b i)
  idx : ∀ i < n, i ≠ h → idx (b i) = i

variable {p : ℕ → Option ι} {idx : ι → ℤ} {b : ℕ → ι} {n h i : ℕ} {x : ι}

namespace Seated

theorem inj (hb : Seated p idx b n) : Set.InjOn b (Set.Iio n) := by
  intro i hi j hj hij
  have hidx := hb.idx i hi
  rw [hij, hb.idx j hj] at hidx
  exact_mod_cast hidx.symm

theorem hole_self (hb : Seated p idx b n) (hi : i < n) : Hole p idx b n i :=
  ⟨hi, hb.inj, fun j hj _ ↦ hb.entry j hj, fun j hj _ ↦ hb.idx j hj⟩

/-- Cell `i` is taken out, and the last one is on its way to its place. -/
theorem hole_last (hb : Seated p idx b (n + 1)) (hi : i < n) :
    Hole p idx (Function.update b i (b n)) n i := by
  refine ⟨hi, update_last_injOn b hb.inj hi.le, fun j hj hji ↦ ?_, fun j hj hji ↦ ?_⟩
  · rw [Function.update_of_ne hji]
    exact hb.entry j (by omega)
  · rw [Function.update_of_ne hji]
    exact hb.idx j (by omega)

/-- A new cell is on its way to the end. -/
theorem hole_new (hb : Seated p idx b n) (hx : ∀ i < n, b i ≠ x) :
    Hole p idx (Function.update b n x) (n + 1) n := by
  have hold : ∀ j < n, Function.update b n x j = b j :=
    fun j hj ↦ Function.update_of_ne hj.ne _ _
  refine ⟨Nat.lt_succ_self n, ?_, fun j hj hjn ↦ ?_, fun j hj hjn ↦ ?_⟩
  · intro j hj k hk hjk
    rcases Nat.lt_succ_iff_lt_or_eq.1 hj with hj | rfl
    · rcases Nat.lt_succ_iff_lt_or_eq.1 hk with hk | rfl
      · rw [hold j hj, hold k hk] at hjk
        exact hb.inj hj hk hjk
      · rw [hold j hj, Function.update_self] at hjk
        exact absurd hjk (hx j hj)
    · rcases Nat.lt_succ_iff_lt_or_eq.1 hk with hk | rfl
      · rw [hold k hk, Function.update_self] at hjk
        exact absurd hjk.symm (hx k hk)
      · rfl
  · have hlt : j < n := by omega
    rw [hold j hlt]
    exact hb.entry j hlt
  · have hlt : j < n := by omega
    rw [hold j hlt]
    exact hb.idx j hlt

end Seated

namespace Hole

variable [DecidableEq ι]

/-- Cell `k` is stored into the hole, which is at `k` afterwards. -/
theorem move {k : ℕ} (hs : Hole p idx b n h) (hk : k < n) :
    Hole (Function.update p h (some (b k))) (Function.update idx (b k) h) (swapAt b h k) n k := by
  refine ⟨hk, swapAt_injOn b hs.inj hs.lt hk, fun j hj hjk ↦ ?_, fun j hj hjk ↦ ?_⟩
  · by_cases hjh : j = h
    · rw [hjh, Function.update_self, swapAt_left]
    · rw [Function.update_of_ne hjh, swapAt_of_ne b hjh hjk]
      exact hs.entry j hj hjh
  · by_cases hjh : j = h
    · rw [hjh, swapAt_left, Function.update_self]
    · have hb : b j ≠ b k := fun heq ↦ hjk (hs.inj hj hk heq)
      rw [swapAt_of_ne b hjh hjk, Function.update_of_ne hb]
      exact hs.idx j hj hjh

/-- The moving cell is stored, and the array has no hole any more. -/
theorem fill (hs : Hole p idx b n h) :
    Seated (Function.update p h (some (b h))) (Function.update idx (b h) h) b n := by
  refine ⟨fun j hj ↦ ?_, fun j hj ↦ ?_⟩
  · by_cases hjh : j = h
    · rw [hjh, Function.update_self]
    · rw [Function.update_of_ne hjh]
      exact hs.entry j hj hjh
  · by_cases hjh : j = h
    · rw [hjh, Function.update_self]
    · have hb : b j ≠ b h := fun heq ↦ hjh (hs.inj hj hs.lt heq)
      rw [Function.update_of_ne hb]
      exact hs.idx j hj hjh

end Hole

section

variable {α β γ : Type*} [LinearOrder γ] {key : α → γ} {key' : β → γ} {a : ℕ → α} {a' : ℕ → β}

/-- An entry with a new key, which may be too large for its parent. -/
theorem HeapOrdered.upHole_of_ne (ho : HeapOrdered key a n) (hh : h < n) (h0 : 0 < h)
    (hne : ∀ i, i ≠ h → key' (a' i) = key (a i)) (hle : key' (a' (parent h)) ≤ key' (a' h)) :
    UpHole key' a' n h := by
  have hkeys : (fun i ↦ key' (a' i)) = Function.update (fun i ↦ key (a i)) h (key' (a' h)) := by
    funext i
    by_cases hi : i = h
    · rw [hi, Function.update_self]
    · rw [Function.update_of_ne hi, hne i hi]
  rw [hne (parent h) (parent_lt h0).ne] at hle
  have hids : HeapOrdered id (fun i ↦ key (a i)) n := ho
  have hu : UpHole id (Function.update (fun i ↦ key (a i)) h (key' (a' h))) n h :=
    hids.upHole_update hh h0 hle
  rw [← hkeys] at hu
  exact ⟨hu.except, hu.grand⟩

/-- An entry with a new key, which may be too small for its children. -/
theorem HeapOrdered.downHole_of_ne (ho : HeapOrdered key a n) (hh : h < n)
    (hne : ∀ i, i ≠ h → key' (a' i) = key (a i))
    (hle : 0 < h → key' (a' h) ≤ key' (a' (parent h))) : DownHole key' a' n h := by
  have hkeys : (fun i ↦ key' (a' i)) = Function.update (fun i ↦ key (a i)) h (key' (a' h)) := by
    funext i
    by_cases hi : i = h
    · rw [hi, Function.update_self]
    · rw [Function.update_of_ne hi, hne i hi]
  have hle' : 0 < h → key' (a' h) ≤ key (a (parent h)) := fun h0 ↦
    hne (parent h) (parent_lt h0).ne ▸ hle h0
  have hids : HeapOrdered id (fun i ↦ key (a i)) n := ho
  have hd : DownHole id (Function.update (fun i ↦ key (a i)) h (key' (a' h))) n h :=
    hids.downHole_update hh hle'
  rw [← hkeys] at hd
  exact ⟨hd.except, hd.grand⟩

end

end Lib
