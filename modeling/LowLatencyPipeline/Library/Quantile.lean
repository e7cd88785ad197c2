import Mathlib.Algebra.BigOperators.Intervals
import Mathlib.Data.List.Sort
import Mathlib.Order.Monotone.Basic

/-!
# Order statistics from class counts

`orderStat l r` is the `(r + 1)`-th smallest entry of a list. Where every entry has a class, and
larger entries have no lower class, the class of an order statistic can be found from the sizes of
the classes alone: it is the first one up to which more than `r` entries have been counted
(`firstAbove_countP`). The walk over the counts is `firstAbove`.
-/

namespace LowLatencyPipeline

namespace Quantile

/-! ### Order statistics -/

section OrderStat

variable {α : Type*} [LinearOrder α] {l : List α} {r : ℕ}

/-- The `(r + 1)`-th smallest entry. -/
def orderStat (l : List α) (r : ℕ) : Option α := (l.insertionSort (· ≤ ·))[r]?

theorem orderStat_isSome : (orderStat l r).isSome ↔ r < l.length := by
  simp [orderStat]

theorem mem_of_orderStat {x : α} (hx : orderStat l r = some x) : x ∈ l :=
  (List.mem_insertionSort (· ≤ ·)).1 (List.mem_of_getElem? hx)

/-- In a sorted list the entries with a downward closed property are the first ones. -/
theorem lt_countP_iff {p : α → Bool} (hp : ∀ x y, x ≤ y → p y = true → p x = true)
    (hl : l.Pairwise (· ≤ ·)) {x : α} (hx : l[r]? = some x) : r < l.countP p ↔ p x = true := by
  induction l generalizing r with
  | nil => exact absurd hx (by simp)
  | cons y l ih =>
    obtain ⟨hy, hl⟩ := List.pairwise_cons.1 hl
    by_cases hpy : p y = true
    · rw [List.countP_cons_of_pos hpy]
      cases r with
      | zero =>
        obtain rfl : y = x := by simpa using hx
        exact iff_of_true (Nat.succ_pos _) hpy
      | succ r =>
        rw [Nat.add_lt_add_iff_right]
        exact ih hl (by simpa using hx)
    · have hnone : ∀ z ∈ l, ¬p z = true := fun z hz hpz => hpy (hp y z (hy z hz) hpz)
      rw [List.countP_cons_of_neg hpy, List.countP_eq_zero.2 hnone]
      refine iff_of_false (Nat.not_lt_zero _) ?_
      rcases List.mem_cons.1 (List.mem_of_getElem? hx) with rfl | hmem
      · exact hpy
      · exact hnone x hmem

/-- How many entries a downward closed property has decides which order statistics have it. -/
theorem lt_countP_iff_orderStat {p : α → Bool} (hp : ∀ x y, x ≤ y → p y = true → p x = true)
    {x : α} (hx : orderStat l r = some x) : r < l.countP p ↔ p x = true := by
  rw [← (List.perm_insertionSort (· ≤ ·) l).countP_eq]
  exact lt_countP_iff hp (List.pairwise_insertionSort (· ≤ ·) l) hx

end OrderStat

/-! ### The walk over the counts -/

section FirstAbove

variable {size : ℕ → ℕ} {threshold n k cum : ℕ}

/-- The first of `n` classes from `k` on with which more than `threshold` entries are counted, when
`cum` were counted before. -/
def firstAbove (size : ℕ → ℕ) (threshold : ℕ) : ℕ → ℕ → ℕ → Option ℕ
  | 0, _, _ => none
  | n + 1, k, cum =>
    if threshold < cum + size k then some k
    else firstAbove size threshold n (k + 1) (cum + size k)

/-- The walk, in terms of the cumulative counts `total`. -/
theorem firstAbove_eq_some {total : ℕ → ℕ} (htotal : ∀ j, total (j + 1) = total j + size j) {i : ℕ}
    (hki : k ≤ i) (hin : i < k + n) (hbefore : total i ≤ threshold)
    (habove : threshold < total (i + 1)) :
    firstAbove size threshold n k (total k) = some i := by
  have hmono : Monotone total := monotone_nat_of_le_succ fun j => by
    rw [htotal]
    exact Nat.le_add_right _ _
  induction n generalizing k with
  | zero => omega
  | succ n ih =>
    rw [firstAbove, ← htotal]
    rcases Nat.eq_or_lt_of_le hki with rfl | hlt
    · rw [if_pos habove]
    · have hle : total (k + 1) ≤ total i := hmono hlt
      rw [if_neg (by omega)]
      exact ih hlt (by omega)

end FirstAbove

/-- The entries below a class, and those in it. -/
theorem countP_lt_succ {α : Type*} (cls : α → ℕ) (l : List α) (k : ℕ) :
    l.countP (cls · < k + 1) = l.countP (cls · < k) + l.countP (cls · = k) := by
  induction l with
  | nil => rfl
  | cons x l ih =>
    simp only [List.countP_cons, decide_eq_true_eq]
    split_ifs <;> omega

/-- Together the classes below `n` have the entries below `n`. -/
theorem sum_countP {α : Type*} (cls : α → ℕ) (l : List α) (n : ℕ) :
    ∑ k ∈ Finset.range n, l.countP (cls · = k) = l.countP (cls · < n) := by
  induction n with
  | zero => exact (List.countP_eq_zero.2 fun _ _ => by simp).symm
  | succ n ih => rw [Finset.sum_range_succ, ih, countP_lt_succ]

/-- **The walk finds the class of the order statistic.** -/
theorem firstAbove_countP {α : Type*} [LinearOrder α] {cls : α → ℕ} (hcls : Monotone cls)
    {l : List α} {n r : ℕ} {x : α} (hx : orderStat l r = some x) (hn : cls x < n) :
    firstAbove (fun k => l.countP (cls · = k)) r n 0 0 = some (cls x) := by
  have hclosed : ∀ j, ∀ x y : α, x ≤ y → decide (cls y < j) = true → decide (cls x < j) = true :=
    fun j x y hxy hy => decide_eq_true ((hcls hxy).trans_lt (of_decide_eq_true hy))
  have hzero : l.countP (cls · < 0) = 0 := List.countP_eq_zero.2 fun _ _ => by simp
  have hbefore : l.countP (cls · < cls x) ≤ r := Nat.le_of_not_lt fun h =>
    absurd ((lt_countP_iff_orderStat (hclosed _) hx).1 h) (by simp)
  have habove : r < l.countP (cls · < cls x + 1) :=
    (lt_countP_iff_orderStat (hclosed _) hx).2 (by simp)
  have hwalk := @firstAbove_eq_some _ r n 0 (fun k => l.countP (cls · < k)) (countP_lt_succ cls l)
    (cls x) (Nat.zero_le _) (by omega) hbefore habove
  rwa [hzero] at hwalk

end Quantile

end LowLatencyPipeline
