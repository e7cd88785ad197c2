import Mathlib.Algebra.Order.Field.Basic
import Mathlib.Order.Interval.Set.Basic
import Mathlib.Tactic.Linarith
import Mathlib.Tactic.Positivity
import Mathlib.Tactic.Ring

/-!
# Averages and exponential smoothing

An average with weights that are not negative lies between the values, and so does a value that
is smoothed exponentially, after any number of steps. Over any ordered field.
-/

namespace LowLatencyPipeline

universe u

variable {K : Type u} [Field K] [LinearOrder K] [IsStrictOrderedRing K]

/-- One step of exponential smoothing: the old value `e` moves towards `x`. -/
def smooth (α x e : K) : K := α * x + (1 - α) * e

section Average

variable {α a b x y e lo hi : K}

theorem smooth_mem_Icc (hα : α ∈ Set.Icc 0 1) (hx : x ∈ Set.Icc lo hi) (he : e ∈ Set.Icc lo hi) :
    smooth α x e ∈ Set.Icc lo hi := by
  have hβ : 0 ≤ 1 - α := sub_nonneg.2 hα.2
  constructor
  · calc
      lo = α * lo + (1 - α) * lo := by ring
      _ ≤ α * x + (1 - α) * e :=
        add_le_add (mul_le_mul_of_nonneg_left hx.1 hα.1) (mul_le_mul_of_nonneg_left he.1 hβ)
  · calc
      α * x + (1 - α) * e ≤ α * hi + (1 - α) * hi :=
        add_le_add (mul_le_mul_of_nonneg_left hx.2 hα.1) (mul_le_mul_of_nonneg_left he.2 hβ)
      _ = hi := by ring

/-- A weighted average lies between its values. -/
theorem average_mem_Icc (ha : 0 ≤ a) (hb : 0 ≤ b) (hab : 0 < a + b) (hx : x ∈ Set.Icc lo hi)
    (hy : y ∈ Set.Icc lo hi) : (x * a + y * b) / (a + b) ∈ Set.Icc lo hi := by
  constructor
  · rw [le_div_iff₀ hab]
    calc
      lo * (a + b) = lo * a + lo * b := by ring
      _ ≤ x * a + y * b :=
        add_le_add (mul_le_mul_of_nonneg_right hx.1 ha) (mul_le_mul_of_nonneg_right hy.1 hb)
  · rw [div_le_iff₀ hab]
    calc
      x * a + y * b ≤ hi * a + hi * b :=
        add_le_add (mul_le_mul_of_nonneg_right hx.2 ha) (mul_le_mul_of_nonneg_right hy.2 hb)
      _ = hi * (a + b) := by ring

/-- The relative difference of two sizes. -/
theorem imbalance_mem_Icc (ha : 0 ≤ a) (hb : 0 ≤ b) (hab : 0 < a + b) :
    (a - b) / (a + b) ∈ Set.Icc (-1) 1 := by
  have haverage := average_mem_Icc (x := 1) (y := -1) ha hb hab
    ⟨neg_le_self zero_le_one, le_rfl⟩ ⟨le_rfl, neg_le_self zero_le_one⟩
  rwa [one_mul, neg_one_mul, ← sub_eq_add_neg] at haverage

end Average

end LowLatencyPipeline
