import LowLatencyPipeline.Library.Bytes

/-!
# Computations that read bytes

A `Reading` is a computation over a byte string together with the offsets it reads. It carries its
**use** as a field: on bytes that agree at those offsets it takes the same steps and has the same
value. Since `read` is the only access there is, a computation written in the monad records every
byte that its value depends on.
-/

namespace LowLatencyPipeline

open Bytes

/-- A computation over a byte string, with the offsets it reads. -/
structure Reading (α : Type) where
  run : List UInt8 → α × List ℕ
  use : ∀ {bs bs' : List UInt8}, (∀ i ∈ (run bs).2, bs'[i]? = bs[i]?) → run bs' = run bs

namespace Reading

variable {α β : Type}

/-- Nothing is read. -/
protected def pure (a : α) : Reading α := ⟨fun _ => (a, []), fun _ => rfl⟩

/-- What the second reads may depend on what the first has read. -/
protected def bind (m : Reading α) (f : α → Reading β) : Reading β where
  run bs := (((f (m.run bs).1).run bs).1, (m.run bs).2 ++ ((f (m.run bs).1).run bs).2)
  use h := by
    have hm := m.use fun i hi => h i (List.mem_append_left _ hi)
    rw [hm, (f _).use fun i hi => h i (List.mem_append_right _ hi)]

/-- `n` bytes from an offset on. -/
def read (off n : ℕ) : Reading (List UInt8) where
  run bs := (slice off n bs, List.range' off n)
  use {bs bs'} h := by
    refine Prod.ext (List.ext_getElem? fun k => ?_) rfl
    rw [slice, slice, List.getElem?_take, List.getElem?_take]
    split_ifs with hk
    · rw [List.getElem?_drop, List.getElem?_drop]
      exact h _ (List.mem_range'_1.2 ⟨Nat.le_add_right _ _, Nat.add_lt_add_left hk _⟩)
    · rfl

instance : Monad Reading where
  pure := Reading.pure
  bind := Reading.bind

section Run

variable (bs : List UInt8) (m : Reading α) (f : α → Reading β) (off n : ℕ)

@[simp]
theorem pure_run (a : α) : (pure a : Reading α).run bs = (a, []) := rfl

@[simp]
theorem bind_run : (m >>= f).run bs =
    (((f (m.run bs).1).run bs).1, (m.run bs).2 ++ ((f (m.run bs).1).run bs).2) := rfl

@[simp]
theorem read_run : (read off n).run bs = (slice off n bs, List.range' off n) := rfl

@[simp]
theorem ite_run (c : Prop) [Decidable c] (m' : Reading α) :
    (if c then m else m').run bs = if c then m.run bs else m'.run bs := by
  split_ifs <;> rfl

end Run

end Reading

end LowLatencyPipeline
