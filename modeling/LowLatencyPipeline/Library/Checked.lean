import Mathlib.Data.Int.Notation

/-!
# Computations with checked divisions

`divide` is the truncated quotient of machine integers where the divisor is not zero. A function
whose divisions are written with it has a value exactly where the original divides by no zero;
over a list it has one exactly if it has one for every element (`mapM_eq_some`,
`isSome_of_mapM`).
-/

namespace LowLatencyPipeline

universe u v

/-- A division that is undefined where the divisor is zero. -/
def divide (a b : ℤ) : Option ℤ := if b = 0 then none else some (a.tdiv b)

theorem divide_eq {b : ℤ} (h : b ≠ 0) (a : ℤ) : divide a b = some (a.tdiv b) := if_neg h

@[simp]
theorem divide_zero (a : ℤ) : divide a 0 = none := if_pos rfl

section List

variable {α : Type u} {β : Type v} {f : α → Option β} {g : α → β} {l : List α}

theorem mapM_eq_some (h : ∀ x ∈ l, f x = some (g x)) : l.mapM f = some (l.map g) := by
  induction l with
  | nil => rfl
  | cons x l ih =>
    rw [List.mapM_cons, h x List.mem_cons_self, ih fun y hy => h y (List.mem_cons_of_mem x hy)]
    rfl

theorem isSome_of_mapM (h : (l.mapM f).isSome) : ∀ x ∈ l, (f x).isSome := by
  induction l with
  | nil => exact fun x hx => absurd hx List.not_mem_nil
  | cons y l ih =>
    rw [List.mapM_cons] at h
    obtain ⟨b, hb⟩ : ∃ b, f y = some b := by
      cases hf : f y with
      | none => rw [hf] at h; exact nomatch h
      | some b => exact ⟨b, rfl⟩
    have hrest : (l.mapM f).isSome := by
      rw [hb] at h
      cases hl : l.mapM f with
      | none => rw [hl] at h; exact nomatch h
      | some bs => rfl
    intro x hx
    rcases List.mem_cons.1 hx with rfl | hx
    · rw [hb]
      rfl
    · exact ih hrest x hx

end List

end LowLatencyPipeline
