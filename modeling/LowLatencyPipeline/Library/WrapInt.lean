import Mathlib.Algebra.Order.Ring.Abs
import Mathlib.Algebra.Order.Ring.Int
import Mathlib.Data.Int.DivMod

/-!
# Two's complement integers inside `ℤ`

`wrap w x` is the value a signed integer of `w` bits has after the exact result `x` was stored
in it, and `Fits w x` says that nothing was cut. Sums and products may be wrapped at every step
or only once at the end (the `wrap_*` simp set), so an aggregate that is updated step by step
in a machine integer is the wrapped exact aggregate, and equal to it whenever that fits.
-/

namespace LowLatencyPipeline

/-- The `w`-bit two's complement value of `x`. -/
def wrap (w : ℕ) (x : ℤ) : ℤ := x.bmod (2 ^ w)

/-- `x` is a `w`-bit two's complement value. -/
def Fits (w : ℕ) (x : ℤ) : Prop := -2 ^ (w - 1) ≤ x ∧ x < 2 ^ (w - 1)

instance (w : ℕ) (x : ℤ) : Decidable (Fits w x) := inferInstanceAs (Decidable (_ ∧ _))

section Wrap

variable (w : ℕ) (x y : ℤ)

@[simp] theorem wrap_zero : wrap w 0 = 0 := Int.zero_bmod

@[simp] theorem wrap_wrap_add : wrap w (wrap w x + y) = wrap w (x + y) := Int.bmod_add_bmod

@[simp] theorem wrap_add_wrap : wrap w (x + wrap w y) = wrap w (x + y) := Int.add_bmod_bmod

@[simp] theorem wrap_wrap_sub : wrap w (wrap w x - y) = wrap w (x - y) := Int.bmod_sub_bmod

@[simp] theorem wrap_sub_wrap : wrap w (x - wrap w y) = wrap w (x - y) := Int.sub_bmod_bmod

@[simp] theorem wrap_mul_wrap : wrap w (x * wrap w y) = wrap w (x * y) := Int.mul_bmod_bmod

end Wrap

section Fits

variable {w : ℕ} {x y : ℤ}

private theorem two_pow_eq (hw : 0 < w) : (2 : ℤ) ^ w = 2 * 2 ^ (w - 1) := by
  obtain ⟨v, rfl⟩ : ∃ v, w = v + 1 := ⟨w - 1, by omega⟩
  rw [Nat.add_sub_cancel, pow_succ, mul_comm]

/-- Storing what fits changes nothing. -/
theorem wrap_eq_self (hw : 0 < w) (h : Fits w x) : wrap w x = x := by
  have h2 := two_pow_eq hw
  refine Int.bmod_eq_of_le_mul_two ?_ ?_ <;> push_cast <;> obtain ⟨hl, hr⟩ := h <;> omega

/-- What is stored fits. -/
theorem fits_wrap (hw : 0 < w) (x : ℤ) : Fits w (wrap w x) := by
  have h2 := two_pow_eq hw
  have hpos : 0 < 2 ^ w := Nat.two_pow_pos w
  have hlow := Int.le_bmod (x := x) hpos
  have hhigh := Int.bmod_lt (x := x) hpos
  push_cast at hlow hhigh
  constructor <;> unfold wrap <;> omega

/-- A product needs the bits of both factors. -/
theorem Fits.mul {v : ℕ} (hv : 0 < v) (hw : 0 < w) (hx : Fits v x) (hy : Fits w y) :
    Fits (v + w) (x * y) := by
  have hle : |x * y| ≤ 2 ^ (v - 1) * 2 ^ (w - 1) := by
    rw [abs_mul]
    exact mul_le_mul (abs_le.2 ⟨hx.1, hx.2.le⟩) (abs_le.2 ⟨hy.1, hy.2.le⟩) (abs_nonneg y)
      (pow_nonneg (by omega) _)
  have hpow : (2 : ℤ) ^ (v + w - 1) = 2 * (2 ^ (v - 1) * 2 ^ (w - 1)) := by
    rw [← pow_add, ← pow_succ']
    congr 1
    omega
  have hpos : (0 : ℤ) < 2 ^ (v - 1) * 2 ^ (w - 1) :=
    mul_pos (pow_pos (by omega) _) (pow_pos (by omega) _)
  have hbounds := abs_le.1 hle
  constructor <;> rw [hpow] <;> omega

/-- A cut changes a value by a multiple of the modulus, and by nothing else. -/
theorem wrap_eq_iff (hw : 0 < w) (hy : Fits w y) : wrap w x = y ↔ 2 ^ w ∣ x - y := by
  constructor
  · rintro rfl
    have hdvd := Int.dvd_self_sub_bmod (x := x) (m := 2 ^ w)
    push_cast at hdvd
    exact hdvd
  · rintro ⟨k, hk⟩
    obtain rfl : x = y + ((2 ^ w : ℕ) : ℤ) * k := by
      push_cast
      omega
    rw [wrap, Int.add_mul_bmod_self_left]
    exact wrap_eq_self hw hy

/-- A wider cut before a narrower one is lost. -/
theorem wrap_wrap_of_le {v : ℕ} (h : v ≤ w) (x : ℤ) : wrap v (wrap w x) = wrap v x :=
  Int.bmod_bmod_of_dvd (Nat.pow_dvd_pow 2 h)

end Fits

end LowLatencyPipeline
