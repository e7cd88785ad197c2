import Mathlib.Data.Finset.Sort

/-!
# Walking through a set in order

A finite set can be listed in order by asking only for its first element and, from an element on,
for the next one: `walk next d start` takes up to `d` such steps. `walk_eq_take` says that where
`start` is the first element of `s` and `next p` the first of those beyond `p`, the walk is the
sorted list of `s`, cut after `d` elements.
-/

namespace LowLatencyPipeline

namespace SortedWalk

universe u

variable {α : Type u}

/-- Up to `d` elements, from one on. -/
def walk (next : α → Option α) : ℕ → Option α → List α
  | 0, _ => []
  | _ + 1, none => []
  | d + 1, some p => p :: walk next d (next p)

/-- `o` is the first element of `s` in the order `r`, if `s` has any. -/
inductive IsFirst (r : α → α → Prop) (s : Finset α) : Option α → Prop
  | none : s = ∅ → IsFirst r s none
  | some {p : α} : p ∈ s → (∀ q ∈ s, r p q) → IsFirst r s (some p)

variable [DecidableEq α] (r : α → α → Prop) [DecidableRel r]

/-- The elements beyond `p`. -/
def beyond (s : Finset α) (p : α) : Finset α := s.filter fun q => r p q ∧ q ≠ p

variable {r} {s : Finset α} {p q : α}

theorem mem_beyond : q ∈ beyond r s p ↔ q ∈ s ∧ r p q ∧ q ≠ p := Finset.mem_filter

variable [IsTrans α r] [Std.Antisymm r] [Std.Total r]

omit [Std.Total r] in
/-- What is beyond an element that is beyond `p`. -/
theorem beyond_beyond (hq : q ∈ beyond r s p) : beyond r (beyond r s p) q = beyond r s q := by
  obtain ⟨-, hpq, hne⟩ := mem_beyond.1 hq
  ext d
  simp only [mem_beyond]
  constructor
  · rintro ⟨⟨hd, -, -⟩, hbeyond⟩
    exact ⟨hd, hbeyond⟩
  · rintro ⟨hd, hqd, hdq⟩
    refine ⟨⟨hd, IsTrans.trans _ _ _ hpq hqd, ?_⟩, hqd, hdq⟩
    rintro rfl
    exact hne (antisymm hqd hpq)

/-- The first element comes before those beyond it. -/
theorem sort_eq_cons (hp : p ∈ s) (hle : ∀ q ∈ s, r p q) :
    s.sort r = p :: (beyond r s p).sort r := by
  have hinsert : s = insert p (beyond r s p) := by
    ext q
    rw [Finset.mem_insert, mem_beyond]
    constructor
    · intro hq
      by_cases hqp : q = p
      · exact .inl hqp
      · exact .inr ⟨hq, hle q hq, hqp⟩
    · rintro (rfl | ⟨hq, -⟩)
      · exact hp
      · exact hq
  have hnot : p ∉ beyond r s p := fun h => (mem_beyond.1 h).2.2 rfl
  conv_lhs => rw [hinsert]
  exact Finset.sort_insert r (fun q hq => (mem_beyond.1 hq).2.1) hnot

/-- **The walk lists the set in order.** -/
theorem walk_eq_take {next : α → Option α} (d : ℕ) {start : Option α}
    (hstart : IsFirst r s start) (hnext : ∀ p ∈ s, IsFirst r (beyond r s p) (next p)) :
    walk next d start = (s.sort r).take d := by
  induction d generalizing s start with
  | zero => rfl
  | succ d ih =>
    cases hstart with
    | none hempty =>
      rw [hempty, Finset.sort_empty]
      rfl
    | @some p hp hle =>
      rw [sort_eq_cons hp hle, List.take_succ_cons, walk]
      congr 1
      refine ih (hnext p hp) fun q hq => ?_
      rw [beyond_beyond hq]
      exact hnext q (mem_beyond.1 hq).1

end SortedWalk

end LowLatencyPipeline
