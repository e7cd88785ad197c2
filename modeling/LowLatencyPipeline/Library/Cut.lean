import Mathlib.Data.List.Basic
import Mathlib.Data.List.DropRight

/-!
# Cutting strings at separators

A string of C is the list of the characters in front of its NUL. `cut p s` is what a search for the
first character with `p` (`strchr`, `strpbrk`) finds: the characters in front of it, and those
behind it if there is one. A loop that cuts off one part after another, as long as there is text
left, visits `parts p s` (`parts_eq`). These are the parts between separators, except that nothing
is visited behind a last separator (`splitOn_eq_parts`).

What is left when some characters are dropped in front and some behind is `Bare`, and it is the only
text of this kind that the rest can be put around (`strip_append`).
-/

namespace LowLatencyPipeline

namespace Cut

variable {α β : Type*} {p : α → Bool} {s front rest : List α} {a : α}

/-- The characters in front of the first one with `p`, and those behind it. -/
def cut (p : α → Bool) : List α → List α × Option (List α)
  | [] => ([], none)
  | a :: s => if p a then ([], some s) else (a :: (cut p s).1, (cut p s).2)

/-- The parts that are cut off one after another. -/
def parts (p : α → Bool) : List α → List (List α)
  | [] => []
  | a :: s =>
    if p a then [] :: parts p s
    else
      match parts p s with
      | [] => [[a]]
      | part :: rest => (a :: part) :: rest

/-! ### One cut -/

theorem cut_of_forall (h : ∀ a ∈ s, p a = false) : cut p s = (s, none) := by
  induction s with
  | nil => rfl
  | cons a s ih =>
    obtain ⟨ha, hs⟩ := List.forall_mem_cons.1 h
    rw [cut, ha, ih hs]
    rfl

theorem cut_append (hfront : ∀ b ∈ front, p b = false) (ha : p a = true) :
    cut p (front ++ a :: rest) = (front, some rest) := by
  induction front with
  | nil => rw [List.nil_append, cut, if_pos ha]
  | cons b front ih =>
    obtain ⟨hb, hfront⟩ := List.forall_mem_cons.1 hfront
    rw [List.cons_append, cut, hb, ih hfront]
    rfl

/-- Either there is no separator, or the cut is at the first one. -/
theorem forall_or_exists_append (p : α → Bool) (s : List α) :
    (∀ a ∈ s, p a = false) ∨
      ∃ front a rest, s = front ++ a :: rest ∧ (∀ b ∈ front, p b = false) ∧ p a = true := by
  induction s with
  | nil => exact .inl fun a ha => absurd ha List.not_mem_nil
  | cons b s ih =>
    cases hb : p b with
    | true => exact .inr ⟨[], b, s, rfl, fun _ h => absurd h List.not_mem_nil, hb⟩
    | false =>
      rcases ih with hall | ⟨front, a, rest, rfl, hfront, ha⟩
      · exact .inl (List.forall_mem_cons.2 ⟨hb, hall⟩)
      · exact .inr ⟨b :: front, a, rest, rfl, List.forall_mem_cons.2 ⟨hb, hfront⟩, ha⟩

/-! ### All cuts -/

/-- A part, and the parts behind its separator. -/
theorem parts_append (hfront : ∀ b ∈ front, p b = false) (ha : p a = true) :
    parts p (front ++ a :: rest) = front :: parts p rest := by
  induction front with
  | nil => rw [List.nil_append, parts, if_pos ha]
  | cons b front ih =>
    obtain ⟨hb, hfront⟩ := List.forall_mem_cons.1 hfront
    rw [List.cons_append, parts, hb, ih hfront]
    rfl

/-- The last part. -/
theorem parts_of_forall (hs : s ≠ []) (h : ∀ a ∈ s, p a = false) : parts p s = [s] := by
  induction s with
  | nil => exact absurd rfl hs
  | cons a s ih =>
    obtain ⟨ha, hall⟩ := List.forall_mem_cons.1 h
    rcases eq_or_ne s [] with rfl | hne
    · rw [parts, ha]
      rfl
    · rw [parts, ha, ih hne hall]
      rfl

/-- **The loop**: as long as there is text left, a part is cut off. -/
theorem parts_eq (p : α → Bool) (s : List α) :
    parts p s = if s.isEmpty then [] else (cut p s).1 :: parts p ((cut p s).2.getD []) := by
  split_ifs with hs
  · rw [List.isEmpty_iff.1 hs, parts]
  · rcases forall_or_exists_append p s with hall | ⟨front, a, rest, rfl, hfront, ha⟩
    · rw [cut_of_forall hall, parts_of_forall (fun h => hs (List.isEmpty_iff.2 h)) hall]
      rfl
    · rw [cut_append hfront ha, parts_append hfront ha]
      rfl

variable [BEq α] [LawfulBEq α]

/-- Splitting gives an empty last part where the loop has stopped. -/
theorem splitOn_eq_parts (a : α) (s : List α) :
    s.splitOn a = parts (· == a) s ∨ s.splitOn a = parts (· == a) s ++ [[]] := by
  induction hlen : s.length using Nat.strongRecOn generalizing s with
  | _ n ih =>
    rw [parts_eq]
    split_ifs with hs
    · rw [List.isEmpty_iff.1 hs]
      exact .inr rfl
    rcases forall_or_exists_append (· == a) s with hall | ⟨front, b, rest, rfl, hfront, hb⟩
    · have hmem : a ∉ s := fun h => absurd (hall a h) (by simp)
      rw [cut_of_forall hall, List.splitOn_eq_singleton hmem]
      exact .inl rfl
    · obtain rfl : b = a := beq_iff_eq.1 hb
      have hmem : b ∉ front := fun h => absurd (hfront b h) (by simp)
      have hrest : rest.length < n := by
        rw [← hlen, List.length_append, List.length_cons]
        omega
      rw [cut_append hfront hb, List.splitOn_append_cons_self_of_not_mem hmem]
      rcases ih _ hrest rest rfl with hsplit | hsplit
      · exact .inl (congrArg _ hsplit)
      · exact .inr (congrArg _ hsplit)

/-- Where no part is empty, the loop visits them all. -/
theorem parts_of_ne_nil (h : ∀ part ∈ s.splitOn a, part ≠ []) : parts (· == a) s = s.splitOn a := by
  rcases splitOn_eq_parts a s with hparts | hparts
  · exact hparts.symm
  · rw [hparts] at h
    exact absurd rfl (h [] (List.mem_append_right _ (List.mem_singleton_self _)))

/-- A loop that does nothing with an empty part goes through all of them. -/
theorem foldl_parts {f : β → List α → β} (hf : ∀ b, f b [] = b) (b : β) (a : α) (s : List α) :
    (parts (· == a) s).foldl f b = (s.splitOn a).foldl f b := by
  rcases splitOn_eq_parts a s with hparts | hparts
  · rw [hparts]
  · rw [hparts, List.foldl_append, List.foldl_cons, List.foldl_nil, hf]

/-- No part holds a separator. -/
theorem not_mem_of_mem_splitOn {part : List α} (h : part ∈ s.splitOn a) : a ∉ part := by
  induction hlen : s.length using Nat.strongRecOn generalizing s with
  | _ n ih =>
    rcases forall_or_exists_append (· == a) s with hall | ⟨front, b, rest, rfl, hfront, hb⟩
    · have hmem : a ∉ s := fun h => absurd (hall a h) (by simp)
      rw [List.splitOn_eq_singleton hmem] at h
      rwa [List.mem_singleton.1 h]
    · obtain rfl : b = a := beq_iff_eq.1 hb
      have hmem : b ∉ front := fun h => absurd (hfront b h) (by simp)
      have hrest : rest.length < n := by
        rw [← hlen, List.length_append, List.length_cons]
        omega
      rw [List.splitOn_append_cons_self_of_not_mem hmem] at h
      rcases List.mem_cons.1 h with rfl | h
      · exact hmem
      · exact ih _ hrest h rfl

/-! ### Trimming -/

section Trimming

omit [BEq α] [LawfulBEq α]

variable {q : α → Bool} {back : List α}

/-- There is nothing to drop at either end. -/
def Bare (p q : α → Bool) (s : List α) : Prop :=
  (∀ a ∈ s.head?, p a = false) ∧ ∀ a ∈ s.getLast?, q a = false

theorem bare_nil : Bare p q [] := by simp [Bare]

/-- What is dropped can be put back. -/
theorem exists_strip (p q : α → Bool) (s : List α) :
    ∃ front back, s = front ++ ((s.dropWhile p).rdropWhile q ++ back) ∧
      (∀ a ∈ front, p a = true) ∧ ∀ a ∈ back, q a = true :=
  ⟨s.takeWhile p, (s.dropWhile p).rtakeWhile q,
    by rw [List.rdropWhile_append_rtakeWhile, List.takeWhile_append_dropWhile],
    fun _ => List.mem_takeWhile_imp, fun _ => List.mem_rtakeWhile_imp⟩

theorem bare_strip (p q : α → Bool) (s : List α) : Bare p q ((s.dropWhile p).rdropWhile q) := by
  refine ⟨fun a ha => ?_, fun a ha => ?_⟩
  · obtain ⟨back, hback⟩ := List.rdropWhile_prefix q (s.dropWhile p)
    have hhead : a ∈ (s.dropWhile p).head? := by
      rw [← hback, List.head?_append, Option.mem_def.1 ha]
      rfl
    have hnot := List.head?_dropWhile_not p s
    rw [Option.mem_def.1 hhead] at hnot
    simpa using hnot
  · obtain ⟨hne, rfl⟩ := List.mem_getLast?_eq_getLast ha
    simpa using List.rdropWhile_last_not q _ hne

/-- **A bare text comes back**, whatever is put around it. -/
theorem strip_append (hfront : ∀ a ∈ front, p a = true) (hback : ∀ a ∈ back, q a = true)
    (hs : Bare p q s) : ((front ++ (s ++ back)).dropWhile p).rdropWhile q = s := by
  have hrdrop : (s ++ back).rdropWhile q = s := by
    induction back using List.reverseRecOn with
    | nil =>
      rw [List.append_nil, List.rdropWhile_eq_self_iff]
      exact fun hne => by simp [hs.2 _ (List.getLast_mem_getLast? hne)]
    | append_singleton back b ih =>
      rw [← List.append_assoc, List.rdropWhile_concat_pos _ _ _ (hback b (by simp))]
      exact ih fun a ha => hback a (List.mem_append_left _ ha)
  rw [List.dropWhile_append_of_pos hfront]
  cases s with
  | nil =>
    rw [List.rdropWhile_eq_nil_iff]
    exact fun a ha => hback a ((List.dropWhile_sublist _).mem ha)
  | cons a s =>
    rwa [List.cons_append, List.dropWhile_cons_of_neg (by simp [hs.1 a rfl])]

end Trimming

end Cut

end LowLatencyPipeline
