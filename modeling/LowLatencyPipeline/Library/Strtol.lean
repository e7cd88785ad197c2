import Mathlib.Data.Int.Order.Basic
import Mathlib.Data.List.TakeWhile

/-!
# Reading numbers as C does

`strtol` and its relatives in base 10: blanks, a sign and digits, in that order, with what follows
them left over, and the value cut off at the bounds of its type. `strtol_whole_iff` says which texts
are read as a whole, and `strtol_decimal` that what `%d` prints is read back.
-/

namespace LowLatencyPipeline

namespace Strtol

/-- `isspace`. -/
def isspace (a : Char) : Bool := a = ' ' ∨ '\t' ≤ a ∧ a ≤ '\r'

/-- The sign in front, if there is one: whether it is a minus, and the rest. -/
def sign : List Char → Bool × List Char
  | '-' :: s => (true, s)
  | '+' :: s => (false, s)
  | s => (false, s)

/-- The value cut off at the bounds. -/
def saturate (lo hi z : ℤ) : ℤ := max lo (min hi z)

/-- The number at the front of a text and what follows it, `none` if there is no number. -/
def strtol (lo hi : ℤ) (s : List Char) : Option (ℤ × List Char) :=
  let t := sign (s.dropWhile isspace)
  let digits := t.2.takeWhile Char.isDigit
  if digits = [] then none
  else
    let n : ℤ := Nat.ofDigitChars 10 digits 0
    some (saturate lo hi (if t.1 then -n else n), t.2.dropWhile Char.isDigit)

/-- What `%d` prints. -/
def decimal (z : ℤ) : List Char := (if z < 0 then ['-'] else []) ++ Nat.toDigits 10 z.natAbs

/-- The text is blanks, a sign and digits, of this value. -/
structure Spelling (s : List Char) (z : ℤ) where
  blanks : List Char
  sgn : List Char
  digits : List Char
  text : s = blanks ++ (sgn ++ digits)
  isspace : ∀ a ∈ blanks, isspace a = true
  sign : sgn = [] ∨ sgn = ['+'] ∨ sgn = ['-']
  ne_nil : digits ≠ []
  isDigit : ∀ a ∈ digits, a.isDigit = true
  value : z = if sgn = ['-'] then -(Nat.ofDigitChars 10 digits 0 : ℤ)
    else Nat.ofDigitChars 10 digits 0

/-- The text spells the number. -/
def Spells (s : List Char) (z : ℤ) : Prop := Nonempty (Spelling s z)

variable {lo hi z v : ℤ} {s rest : List Char} {a : Char}

theorem saturate_of_mem (hlo : lo ≤ z) (hhi : z ≤ hi) : saturate lo hi z = z := by
  rw [saturate, min_eq_right hhi, max_eq_right hlo]

/-- A value inside the bounds was not cut off. -/
theorem eq_of_saturate (hlo : lo < saturate lo hi z) (hhi : saturate lo hi z < hi) :
    saturate lo hi z = z := by
  unfold saturate at *
  omega

/-! ### Signs and digits -/

theorem isspace_of_isDigit (h : a.isDigit = true) : isspace a = false := by
  have hlow : 48 ≤ a.toNat := by
    simp only [Char.isDigit, Bool.and_eq_true, decide_eq_true_eq] at h
    exact UInt32.le_iff_toNat_le.1 h.1
  have hspace : a ≠ ' ' := by
    rintro rfl
    exact absurd hlow (by decide)
  have hhigh : ¬a ≤ '\r' := by
    intro hle
    have hnat : a.toNat ≤ 13 := UInt32.le_iff_toNat_le.1 hle
    omega
  simp [isspace, hspace, hhigh]

theorem sign_of_isDigit (h : ∀ a ∈ s.head?, a.isDigit = true) : sign s = (false, s) := by
  unfold sign
  split
  · exact absurd (h '-' rfl) (by decide)
  · exact absurd (h '+' rfl) (by decide)
  · rfl

/-- `sign` takes a sign apart from the digits behind it. -/
theorem sign_append {sgn : List Char} (hsgn : sgn = [] ∨ sgn = ['+'] ∨ sgn = ['-'])
    (h : ∀ a ∈ s.head?, a.isDigit = true) : sign (sgn ++ s) = (decide (sgn = ['-']), s) := by
  rcases hsgn with rfl | rfl | rfl
  · exact sign_of_isDigit h
  · rfl
  · rfl

/-- What `sign` leaves. -/
theorem exists_sign (s : List Char) : ∃ sgn, (sgn = [] ∨ sgn = ['+'] ∨ sgn = ['-']) ∧
    s = sgn ++ (sign s).2 ∧ (sign s).1 = decide (sgn = ['-']) := by
  unfold sign
  split
  · exact ⟨['-'], by simp⟩
  · exact ⟨['+'], by simp⟩
  · exact ⟨[], by simp⟩

theorem takeWhile_isDigit {digits : List Char} (hdigits : ∀ a ∈ digits, a.isDigit = true)
    (hrest : ∀ a ∈ rest.head?, a.isDigit = false) :
    (digits ++ rest).takeWhile Char.isDigit = digits ∧
      (digits ++ rest).dropWhile Char.isDigit = rest := by
  have hstop : rest.takeWhile Char.isDigit = [] ∧ rest.dropWhile Char.isDigit = rest := by
    cases rest with
    | nil => exact ⟨rfl, rfl⟩
    | cons a rest => simp [hrest a rfl]
  rw [List.takeWhile_append_of_pos hdigits, List.dropWhile_append_of_pos hdigits, hstop.1, hstop.2,
    List.append_nil]
  exact ⟨rfl, rfl⟩

/-- **A text that spells a number is read**, up to what follows it. -/
theorem Spelling.strtol_append (p : Spelling s z) (hrest : ∀ a ∈ rest.head?, a.isDigit = false) :
    strtol lo hi (s ++ rest) = some (saturate lo hi z, rest) := by
  obtain ⟨d, digits, hdigits⟩ := List.exists_cons_of_ne_nil p.ne_nil
  have hd : d.isDigit = true := p.isDigit d (by simp [hdigits])
  have hhead : ∀ a ∈ (p.digits ++ rest).head?, a.isDigit = true := by
    rw [hdigits]
    rintro a ⟨⟩
    exact hd
  have hdrop : (p.sgn ++ (p.digits ++ rest)).dropWhile Strtol.isspace =
      p.sgn ++ (p.digits ++ rest) := by
    rcases p.sign with hsgn | hsgn | hsgn <;> rw [hsgn]
    · rw [hdigits, List.nil_append, List.cons_append,
        List.dropWhile_cons_of_neg (by simp [isspace_of_isDigit hd])]
    · rfl
    · rfl
  obtain ⟨htake, hleft⟩ := takeWhile_isDigit p.isDigit hrest
  rw [p.text, strtol, List.append_assoc, List.append_assoc,
    List.dropWhile_append_of_pos p.isspace, hdrop, sign_append p.sign hhead]
  simp only [htake, hleft, p.ne_nil, if_false, decide_eq_true_eq]
  rw [← p.value]

/-- **The texts that are read as a whole.** -/
theorem strtol_whole_iff :
    strtol lo hi s = some (v, []) ↔ ∃ z, Spells s z ∧ v = saturate lo hi z := by
  constructor
  · intro h
    obtain ⟨sgn, hsgn, htext, hneg⟩ := exists_sign (s.dropWhile isspace)
    obtain ⟨digits, hdigits⟩ : ∃ digits, digits = (sign (s.dropWhile isspace)).2.takeWhile
      Char.isDigit := ⟨_, rfl⟩
    simp only [strtol, hneg, decide_eq_true_eq] at h
    rw [← hdigits] at h
    by_cases hnil : digits = []
    · rw [if_pos hnil] at h
      cases h
    rw [if_neg hnil] at h
    obtain ⟨hvalue, hrest⟩ := Prod.mk.inj (Option.some.inj h)
    have hall : (sign (s.dropWhile isspace)).2 = digits := by
      rw [← List.takeWhile_append_dropWhile (p := Char.isDigit) (l := (sign _).2), hrest,
        List.append_nil, hdigits]
    refine ⟨_, ⟨s.takeWhile isspace, sgn, digits, ?_, fun a ha => List.mem_takeWhile_imp ha, hsgn,
      hnil, fun a ha => ?_, rfl⟩, hvalue.symm⟩
    · rw [← hall, ← htext, List.takeWhile_append_dropWhile]
    · exact List.mem_takeWhile_imp (hdigits ▸ ha)
  · rintro ⟨z, ⟨p⟩, rfl⟩
    have hread : strtol lo hi (s ++ []) = some (saturate lo hi z, []) := p.strtol_append (by simp)
    rwa [List.append_nil] at hread

/-! ### Printing and reading -/

theorem spells_decimal (z : ℤ) : Spells (decimal z) z := by
  refine ⟨⟨[], if z < 0 then ['-'] else [], Nat.toDigits 10 z.natAbs, rfl, by simp, ?_,
    Nat.toDigits_ne_nil, fun a ha => Nat.isDigit_of_mem_toDigits (by decide) (by decide) ha, ?_⟩⟩
  · split_ifs <;> simp
  · rw [Nat.ofDigitChars_ten_toDigits]
    by_cases hneg : z < 0
    · rw [if_pos hneg, if_pos rfl]
      omega
    · rw [if_neg hneg, if_neg (by decide)]
      omega

/-- **What is printed is read back.** -/
theorem strtol_decimal (hlo : lo ≤ z) (hhi : z ≤ hi) (hrest : ∀ a ∈ rest.head?, a.isDigit = false) :
    strtol lo hi (decimal z ++ rest) = some (z, rest) := by
  obtain ⟨p⟩ := spells_decimal z
  rw [p.strtol_append hrest, saturate_of_mem hlo hhi]

/-- Different numbers are printed differently. -/
theorem decimal_injective : Function.Injective decimal := by
  intro y z heq
  have hy : strtol (min y z) (max y z) (decimal y ++ []) = some (y, []) :=
    strtol_decimal (min_le_left _ _) (le_max_left _ _) (by simp)
  have hz : strtol (min y z) (max y z) (decimal z ++ []) = some (z, []) :=
    strtol_decimal (min_le_right _ _) (le_max_right _ _) (by simp)
  rw [heq, hz] at hy
  exact (Prod.mk.inj (Option.some.inj hy)).1.symm

end Strtol

end LowLatencyPipeline
