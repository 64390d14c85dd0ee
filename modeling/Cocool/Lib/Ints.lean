import Mathlib.Algebra.Order.Ring.Int
import Mathlib.Tactic.Ring

/-!
# Integers of a fixed width

A value of `w` bits is an integer in the range of its type, and converting
to such a type takes the remainder in that range.
-/

namespace Lib

/-- The range of the signed type of `w` bits. -/
def InSigned (w : ℕ) (n : ℤ) : Prop := -2 ^ (w - 1) ≤ n ∧ n < 2 ^ (w - 1)

instance (w : ℕ) (n : ℤ) : Decidable (InSigned w n) := inferInstanceAs (Decidable (_ ∧ _))

/-- Conversion to the signed type of `w` bits. -/
def wrapSigned (w : ℕ) (n : ℤ) : ℤ := (n + 2 ^ (w - 1)) % 2 ^ w - 2 ^ (w - 1)

/-- Conversion to the unsigned type of `w` bits. -/
def wrapUnsigned (w : ℕ) (n : ℤ) : ℕ := (n % 2 ^ w).toNat

/-- A signed operation with the exact result `n`, which faults where the type
of `w` bits does not have it. -/
def checkedSigned {ε : Type*} (fault : ε) (w : ℕ) (n : ℤ) : Except ε ℤ :=
  if InSigned w n then .ok n else .error fault

variable {w : ℕ} {n : ℤ}

theorem checkedSigned_of_inSigned {ε : Type*} {fault : ε} (hn : InSigned w n) :
    checkedSigned fault w n = .ok n := if_pos hn

theorem two_pow_pred (hw : 0 < w) : (2 : ℤ) ^ w = 2 * 2 ^ (w - 1) := by
  obtain ⟨v, rfl⟩ : ∃ v, w = v + 1 := ⟨w - 1, by omega⟩
  rw [Nat.add_sub_cancel, pow_succ]
  ring

theorem wrapSigned_of_inSigned (hw : 0 < w) (hn : InSigned w n) : wrapSigned w n = n := by
  have htwo := two_pow_pred hw
  obtain ⟨hlo, hhi⟩ := hn
  rw [wrapSigned, Int.emod_eq_of_lt (by omega) (by omega)]
  omega

/-- The upper half of the unsigned range turns negative. -/
theorem wrapSigned_of_upper (hw : 0 < w) (hlo : 2 ^ (w - 1) ≤ n) (hhi : n < 2 ^ w) :
    wrapSigned w n = n - 2 ^ w := by
  have htwo := two_pow_pred hw
  have hstep : n + 2 ^ (w - 1) = (n + 2 ^ (w - 1) - 2 ^ w) + 2 ^ w := by ring
  rw [wrapSigned, hstep, Int.add_emod_right, Int.emod_eq_of_lt (by omega) (by omega)]
  ring

theorem wrapUnsigned_of_lt (h0 : 0 ≤ n) (hn : n < 2 ^ w) : (wrapUnsigned w n : ℤ) = n := by
  rw [wrapUnsigned, Int.emod_eq_of_lt h0 hn, Int.toNat_of_nonneg h0]

/-- A negative value lands in the upper half. -/
theorem le_wrapUnsigned_of_neg (hw : 0 < w) (hlo : -2 ^ (w - 1) ≤ n) (hn : n < 0) :
    2 ^ (w - 1) ≤ (wrapUnsigned w n : ℤ) := by
  have htwo := two_pow_pred hw
  have hrem : n % 2 ^ w = n + 2 ^ w := by
    rw [← Int.add_emod_right, Int.emod_eq_of_lt (by omega) (by omega)]
  rw [wrapUnsigned, hrem, Int.toNat_of_nonneg (by omega)]
  omega

end Lib
