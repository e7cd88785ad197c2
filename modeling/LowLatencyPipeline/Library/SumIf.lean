import Mathlib.Algebra.BigOperators.Group.Multiset.Basic
import Mathlib.Algebra.Order.BigOperators.Group.Multiset

/-!
# Sums over a part of a multiset

`sumIf p f s` adds up `f a` over the elements `a` of `s` with `p a`: the open orders of one
side, the locks on one asset. The lemmas say how it follows the elements of `s` and `f`.
-/

namespace LowLatencyPipeline

universe u

variable {α : Type u}

/-- The sum of a quantity over the elements that satisfy `p`. -/
def sumIf (p : α → Prop) [DecidablePred p] (f : α → ℤ) (s : Multiset α) : ℤ :=
  (s.map fun a => if p a then f a else 0).sum

section SumIf

variable {p : α → Prop} [DecidablePred p] {f g : α → ℤ} {s : Multiset α} {a : α}

@[simp]
theorem sumIf_zero : sumIf p f 0 = 0 := rfl

@[simp]
theorem sumIf_cons : sumIf p f (a ::ₘ s) = (if p a then f a else 0) + sumIf p f s := by
  rw [sumIf, Multiset.map_cons, Multiset.sum_cons, sumIf]

@[simp]
theorem sumIf_singleton : sumIf p f {a} = if p a then f a else 0 := by
  rw [← Multiset.cons_zero, sumIf_cons, sumIf_zero, add_zero]

theorem sumIf_union (s₁ s₂ : Multiset α) : sumIf p f (s₁ + s₂) = sumIf p f s₁ + sumIf p f s₂ := by
  rw [sumIf, Multiset.map_add, Multiset.sum_add, sumIf, sumIf]

theorem sumIf_congr (h : ∀ a ∈ s, f a = g a) : sumIf p f s = sumIf p g s :=
  congrArg Multiset.sum (Multiset.map_congr rfl fun a ha => by rw [h a ha])

theorem sumIf_add : sumIf p (fun a => f a + g a) s = sumIf p f s + sumIf p g s := by
  rw [sumIf, sumIf, sumIf, ← Multiset.sum_map_add]
  congr 1
  refine Multiset.map_congr rfl fun a _ => ?_
  split_ifs <;> simp

theorem sumIf_nonneg (h : ∀ a ∈ s, 0 ≤ f a) : 0 ≤ sumIf p f s := by
  refine Multiset.sum_nonneg fun x hx => ?_
  obtain ⟨a, ha, rfl⟩ := Multiset.mem_map.mp hx
  split_ifs
  · exact h a ha
  · exact le_rfl

theorem sumIf_mono (h : ∀ a ∈ s, f a ≤ g a) : sumIf p f s ≤ sumIf p g s := by
  refine Multiset.sum_map_le_sum_map _ _ fun a ha => ?_
  split_ifs
  · exact h a ha
  · exact le_rfl

/-- Fewer elements of quantities that are not negative sum to less. -/
theorem sumIf_le_of_le {t : Multiset α} (hle : t ≤ s) (h : ∀ a ∈ s, 0 ≤ f a) :
    sumIf p f t ≤ sumIf p f s := by
  obtain ⟨extra, rfl⟩ := Multiset.le_iff_exists_add.mp hle
  have hextra : 0 ≤ sumIf p f extra :=
    sumIf_nonneg fun a ha => h a (Multiset.mem_add.mpr (.inr ha))
  rw [sumIf_union]
  exact le_add_of_nonneg_right hextra

/-- One element's share of a sum. -/
theorem le_sumIf_of_mem (ha : a ∈ s) (hp : p a) (h : ∀ a ∈ s, 0 ≤ f a) : f a ≤ sumIf p f s := by
  obtain ⟨rest, rfl⟩ := Multiset.exists_cons_of_mem ha
  rw [sumIf_cons, if_pos hp]
  exact le_add_of_nonneg_right (sumIf_nonneg fun a ha => h a (Multiset.mem_cons_of_mem ha))

/-- One element or none. -/
theorem sumIf_le_of_eq_singleton (hs : s = 0 ∨ s = {a}) (ha : 0 ≤ f a) :
    sumIf p f s ≤ if p a then f a else 0 := by
  rcases hs with rfl | rfl
  · rw [sumIf_zero]
    split_ifs
    · exact ha
    · exact le_rfl
  · exact sumIf_singleton.le

end SumIf

end LowLatencyPipeline
