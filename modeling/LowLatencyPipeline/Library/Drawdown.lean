import Mathlib.Algebra.Order.Group.Defs
import Mathlib.Algebra.Order.Sub.Defs
import Mathlib.Order.Bounds.Basic
import Mathlib.Data.List.Basic

/-!
# The greatest drop of a sequence

The drops of a sequence are the differences from an entry to a later one. The greatest entry and
the greatest drop so far are enough to keep both when an entry is appended
(`isGreatest_mem_concat`, `isGreatest_drops_concat`): a new drop starts at the greatest entry.
-/

namespace LowLatencyPipeline

namespace Drawdown

universe u

variable {α : Type u}

/-- The differences from an entry to a later one, or to itself. -/
def drops [Sub α] (es : List α) : Set α :=
  {d | ∃ (i j : ℕ) (x y : α), i ≤ j ∧ es[i]? = some x ∧ es[j]? = some y ∧ d = x - y}

section Sub

variable [Sub α] {es : List α} {d e : α}

/-- A drop ends before the last entry, or there. -/
theorem mem_drops_concat :
    d ∈ drops (es ++ [e]) ↔ d ∈ drops es ∨ ∃ x ∈ es ++ [e], d = x - e := by
  constructor
  · rintro ⟨i, j, x, y, hij, hx, hy, rfl⟩
    have hjle : j < es.length + 1 := by
      simpa using (List.getElem?_eq_some_iff.1 hy).1
    rcases Nat.lt_succ_iff_lt_or_eq.1 hjle with hj | rfl
    · rw [List.getElem?_append_left hj] at hy
      rw [List.getElem?_append_left (hij.trans_lt hj)] at hx
      exact .inl ⟨i, j, x, y, hij, hx, hy, rfl⟩
    · rw [List.getElem?_concat_length, Option.some.injEq] at hy
      exact .inr ⟨x, List.mem_of_getElem? hx, by rw [hy]⟩
  · rintro (⟨i, j, x, y, hij, hx, hy, rfl⟩ | ⟨x, hx, rfl⟩)
    · refine ⟨i, j, x, y, hij, ?_, ?_, rfl⟩
      · rw [List.getElem?_append_left (List.getElem?_eq_some_iff.1 hx).1, hx]
      · rw [List.getElem?_append_left (List.getElem?_eq_some_iff.1 hy).1, hy]
    · obtain ⟨i, hi⟩ := List.getElem?_of_mem hx
      have hlt : i < es.length + 1 := by
        simpa using (List.getElem?_eq_some_iff.1 hi).1
      exact ⟨i, es.length, x, e, Nat.lt_succ_iff.1 hlt, hi, List.getElem?_concat_length, rfl⟩

theorem drops_subset_concat : drops es ⊆ drops (es ++ [e]) := fun _ h =>
  mem_drops_concat.2 (.inl h)

/-- A drop to the last entry. -/
theorem sub_mem_drops {x : α} (hx : x ∈ es) (hlast : es.getLast? = some e) :
    x - e ∈ drops es := by
  obtain ⟨front, rfl⟩ := List.getLast?_eq_some_iff.1 hlast
  exact mem_drops_concat.2 (.inr ⟨x, hx, rfl⟩)

/-- Appending the last entry again makes no new drop. -/
theorem drops_repeat (hlast : es.getLast? = some e) : drops (es ++ [e]) = drops es := by
  refine Set.Subset.antisymm (fun d hd => ?_) drops_subset_concat
  rcases mem_drops_concat.1 hd with hd | ⟨x, hx, rfl⟩
  · exact hd
  · refine sub_mem_drops ?_ hlast
    rcases List.mem_append.1 hx with hx | hx
    · exact hx
    · exact List.mem_singleton.1 hx ▸ List.mem_of_getLast? hlast

end Sub

/-- Appending the last entry again makes no new entry. -/
theorem mem_repeat {es : List α} {e : α} (hlast : es.getLast? = some e) :
    {x | x ∈ es ++ [e]} = {x | x ∈ es} := by
  ext x
  constructor
  · intro hx
    rcases List.mem_append.1 hx with hx | hx
    · exact hx
    · exact List.mem_singleton.1 hx ▸ List.mem_of_getLast? hlast
  · exact List.mem_append_left _

section LinearOrder

variable [LinearOrder α] {es : List α} {p m e : α}

/-- The greatest entry, when one is appended. -/
theorem isGreatest_mem_concat (hp : IsGreatest {x | x ∈ es} p) :
    IsGreatest {x | x ∈ es ++ [e]} (max p e) := by
  constructor
  · rcases max_choice p e with h | h
    · rw [h]
      exact List.mem_append_left _ hp.1
    · rw [h]
      exact List.mem_append_right _ (List.mem_singleton.2 rfl)
  · intro x hx
    rcases List.mem_append.1 hx with hx | hx
    · exact (hp.2 hx).trans (le_max_left p e)
    · exact (List.mem_singleton.1 hx).trans_le (le_max_right p e)

/-- The greatest drop, when an entry is appended: a drop to it from the greatest entry is the
only candidate. -/
theorem isGreatest_drops_concat [AddGroup α] [AddRightMono α] (hp : IsGreatest {x | x ∈ es} p)
    (hm : IsGreatest (drops es) m) : IsGreatest (drops (es ++ [e])) (max m (max p e - e)) := by
  have hpeak := isGreatest_mem_concat (e := e) hp
  constructor
  · rcases max_choice m (max p e - e) with h | h
    · rw [h]
      exact drops_subset_concat hm.1
    · rw [h]
      exact mem_drops_concat.2 (.inr ⟨_, hpeak.1, rfl⟩)
  · intro d hd
    rcases mem_drops_concat.1 hd with hd | ⟨x, hx, rfl⟩
    · exact (hm.2 hd).trans (le_max_left _ _)
    · exact (sub_le_sub_right (hpeak.2 hx) e).trans (le_max_right _ _)

end LinearOrder

end Drawdown

end LowLatencyPipeline
