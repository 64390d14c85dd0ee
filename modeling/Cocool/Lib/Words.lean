import Mathlib.Algebra.Group.Nat.Even

/-!
# Words in a memory of bytes

A memory gives each address its byte.  A word of `n` bytes is read and
written with its least significant byte first.
-/

namespace Lib

/-- The value of the `n` bytes from `a` on. -/
def loadLe (m : ℕ → UInt8) : ℕ → ℕ → ℕ
  | _, 0 => 0
  | a, n + 1 => (m a).toNat + 256 * loadLe m (a + 1) n

def storeLe (m : ℕ → UInt8) (a n v : ℕ) : ℕ → UInt8 := fun b ↦
  if a ≤ b ∧ b < a + n then UInt8.ofNat (v / 256 ^ (b - a)) else m b

def fill (m : ℕ → UInt8) (a n : ℕ) (c : UInt8) : ℕ → UInt8 := fun b ↦
  if a ≤ b ∧ b < a + n then c else m b

variable {m m' : ℕ → UInt8}

theorem loadLe_congr {a n : ℕ} (h : ∀ b, a ≤ b → b < a + n → m' b = m b) :
    loadLe m' a n = loadLe m a n := by
  induction n generalizing a with
  | zero => rfl
  | succ n ih =>
      have hrest : loadLe m' (a + 1) n = loadLe m (a + 1) n :=
        ih fun b hb hb' ↦ h b (by omega) (by omega)
      rw [loadLe, loadLe, h a (by omega) (by omega), hrest]

theorem loadLe_mono {a n : ℕ} (h : ∀ b, a ≤ b → b < a + n → (m' b).toNat ≤ (m b).toNat) :
    loadLe m' a n ≤ loadLe m a n := by
  induction n generalizing a with
  | zero => exact Nat.le_refl 0
  | succ n ih =>
      have hfirst := h a (by omega) (by omega)
      have hrest : loadLe m' (a + 1) n ≤ loadLe m (a + 1) n :=
        ih fun b hb hb' ↦ h b (by omega) (by omega)
      rw [loadLe, loadLe]
      omega

/-- What was written is read back, if it fits. -/
theorem loadLe_storeLe {a n v : ℕ} (h : v < 256 ^ n) : loadLe (storeLe m a n v) a n = v := by
  induction n generalizing a v with
  | zero =>
      have hv : v = 0 := by simpa using h
      rw [hv, loadLe]
  | succ n ih =>
      have hlow : (storeLe m a (n + 1) v a).toNat = v % 256 := by
        simp [storeLe]
      have hrest : loadLe (storeLe m a (n + 1) v) (a + 1) n =
          loadLe (storeLe m (a + 1) n (v / 256)) (a + 1) n := by
        apply loadLe_congr
        intro b hb hb'
        have hexp : 256 ^ (b - a) = 256 * 256 ^ (b - (a + 1)) := by
          rw [← pow_succ', show b - (a + 1) + 1 = b - a by omega]
        rw [storeLe, storeLe, if_pos (by omega), if_pos (by omega), hexp, Nat.div_div_eq_div_mul]
      have hhigh : v / 256 < 256 ^ n := by
        rw [pow_succ] at h
        exact Nat.div_lt_of_lt_mul (by omega)
      rw [loadLe, hlow, hrest, ih hhigh]
      omega

theorem loadLe_storeLe_of_disjoint {a n a' n' v : ℕ} (h : a + n ≤ a' ∨ a' + n' ≤ a) :
    loadLe (storeLe m a' n' v) a n = loadLe m a n := by
  apply loadLe_congr
  intro b hb hb'
  exact if_neg (by omega)

theorem loadLe_fill_of_disjoint {a n a' n' : ℕ} {c : UInt8} (h : a + n ≤ a' ∨ a' + n' ≤ a) :
    loadLe (fill m a' n' c) a n = loadLe m a n := by
  apply loadLe_congr
  intro b hb hb'
  exact if_neg (by omega)

/-- Clearing bytes makes no word larger. -/
theorem loadLe_fill_zero_le (a n a' n' : ℕ) : loadLe (fill m a' n' 0) a n ≤ loadLe m a n := by
  apply loadLe_mono
  intro b _ _
  unfold fill
  split
  · simp
  · exact Nat.le_refl _

end Lib
