import Mathlib.Data.Finset.Card
import Mathlib.Data.List.Range
import Mathlib.Data.List.Nodup
import Mathlib.Data.List.Perm.Subperm

/-!
# Arrays that hold a permutation of their own positions

An index array `f` on positions `0, …, n - 1` is arranged when its values
are the positions in some order.  Pointwise this is a bound and an
injectivity statement, which is the form that survives swaps and appends
without any list surgery.
-/

namespace Lib

/-- The values of `f` on the first `n` positions are those positions,
each once. -/
structure Arranged (f : ℕ → ℕ) (n : ℕ) : Prop where
  lt : ∀ i, i < n → f i < n
  inj : ∀ i j, i < n → j < n → f i = f j → i = j

theorem arranged_id (n : ℕ) : Arranged (fun i ↦ i) n :=
  ⟨fun _ hi ↦ hi, fun _ _ _ _ h ↦ h⟩

theorem arranged_iff_perm {f : ℕ → ℕ} {n : ℕ} :
    Arranged f n ↔ ((List.range n).map f).Perm (List.range n) := by
  constructor
  · intro h
    have hnodup : ((List.range n).map f).Nodup := by
      refine List.Nodup.map_on ?_ List.nodup_range
      intro i hi j hj hij
      exact h.inj i j (List.mem_range.mp hi) (List.mem_range.mp hj) hij
    have hsub : (List.range n).map f ⊆ List.range n := by
      intro x hx
      obtain ⟨i, hi, rfl⟩ := List.mem_map.mp hx
      exact List.mem_range.mpr (h.lt i (List.mem_range.mp hi))
    exact (List.subperm_of_subset hnodup hsub).perm_of_length_le (by simp)
  · intro h
    refine ⟨fun i hi ↦ ?_, fun i j hi hj hij ↦ ?_⟩
    · have hmem : f i ∈ (List.range n).map f :=
        List.mem_map_of_mem (List.mem_range.mpr hi)
      exact List.mem_range.mp (h.mem_iff.mp hmem)
    · have hnodup : ((List.range n).map f).Nodup := h.nodup_iff.mpr List.nodup_range
      exact List.inj_on_of_nodup_map hnodup (List.mem_range.mpr hi) (List.mem_range.mpr hj) hij

theorem Arranged.surj {f : ℕ → ℕ} {n : ℕ} (h : Arranged f n) {s : ℕ} (hs : s < n) :
    ∃ i, i < n ∧ f i = s := by
  have hmem : s ∈ (List.range n).map f :=
    (arranged_iff_perm.mp h).mem_iff.mpr (List.mem_range.mpr hs)
  obtain ⟨i, hi, his⟩ := List.mem_map.mp hmem
  exact ⟨i, List.mem_range.mp hi, his⟩

theorem Arranged.swap {f g : ℕ → ℕ} {n a b : ℕ} (h : Arranged f n) (ha : a < n) (hb : b < n)
    (hga : g a = f b) (hgb : g b = f a) (hg : ∀ i, i ≠ a → i ≠ b → g i = f i) :
    Arranged g n := by
  have hvalue : ∀ i, i < n → ∃ j, j < n ∧ g i = f j ∧
      (i = a → j = b) ∧ (i = b → j = a) ∧ (i ≠ a → i ≠ b → j = i) := by
    intro i hi
    by_cases hia : i = a
    · subst hia
      exact ⟨b, hb, hga, fun _ ↦ rfl, fun h ↦ h.symm, fun h ↦ absurd rfl h⟩
    · by_cases hib : i = b
      · subst hib
        exact ⟨a, ha, hgb, fun h ↦ h.symm, fun _ ↦ rfl, fun _ h ↦ absurd rfl h⟩
      · exact ⟨i, hi, hg i hia hib, fun h ↦ absurd h hia, fun h ↦ absurd h hib, fun _ _ ↦ rfl⟩
  refine ⟨fun i hi ↦ ?_, fun i j hi hj hij ↦ ?_⟩
  · obtain ⟨k, hk, hgk, -⟩ := hvalue i hi
    rw [hgk]
    exact h.lt k hk
  · obtain ⟨k, hk, hgk, hk₁, hk₂, hk₃⟩ := hvalue i hi
    obtain ⟨l, hl, hgl, hl₁, hl₂, hl₃⟩ := hvalue j hj
    have hkl : k = l := h.inj k l hk hl (by rw [← hgk, ← hgl, hij])
    by_cases hia : i = a <;> by_cases hib : i = b <;>
      by_cases hja : j = a <;> by_cases hjb : j = b <;> simp_all

theorem Arranged.snoc {f g : ℕ → ℕ} {n : ℕ} (h : Arranged f n) (hg : ∀ i, i < n → g i = f i)
    (hn : g n = n) : Arranged g (n + 1) := by
  refine ⟨fun i hi ↦ ?_, fun i j hi hj hij ↦ ?_⟩
  · rcases Nat.lt_succ_iff_lt_or_eq.mp hi with hlt | rfl
    · rw [hg i hlt]
      exact (h.lt i hlt).trans (Nat.lt_succ_self n)
    · omega
  · rcases Nat.lt_succ_iff_lt_or_eq.mp hi with hi | rfl <;>
      rcases Nat.lt_succ_iff_lt_or_eq.mp hj with hj | rfl
    · apply h.inj i j hi hj
      rw [← hg i hi, ← hg j hj, hij]
    · have hlt := h.lt i hi
      rw [← hg i hi] at hlt
      omega
    · have hlt := h.lt j hj
      rw [← hg j hj] at hlt
      omega
    · rfl

end Lib
