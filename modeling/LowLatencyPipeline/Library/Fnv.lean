import LowLatencyPipeline.Library.Bytes
import Mathlib.Algebra.Order.Group.Abs
import Mathlib.Algebra.Order.Group.Int

/-!
# FNV-1a

The 32-bit hash FNV-1a. Each byte acts on the state by a bijection (`absorb_injective`), so texts
that differ in one byte never collide (`hashBytes_ne_of_byte`), whatever is hashed before and after
it. Up to three bytes in a row do not collide either (`three_bytes`); of four bytes there are more
than states.
-/

namespace LowLatencyPipeline

namespace Fnv

open Bytes

/-- The FNV prime for 32 bits. -/
def PRIME : UInt32 := 16777619

/-- The state before the first byte. -/
def OFFSET_BASIS : UInt32 := 2166136261

/-- One byte. -/
def absorb (h : UInt32) (b : UInt8) : UInt32 := (h ^^^ b.toUInt32) * PRIME

/-- The hash of bytes from some state on. -/
def hashBytes (h : UInt32) (bs : List UInt8) : UInt32 := bs.foldl absorb h

variable {h h' x y : UInt32} {a b : UInt8} {as bs : List UInt8}

@[simp]
theorem hashBytes_nil : hashBytes h [] = h := rfl

@[simp]
theorem hashBytes_cons : hashBytes h (b :: bs) = hashBytes (absorb h b) bs := rfl

theorem hashBytes_append : hashBytes h (as ++ bs) = hashBytes (hashBytes h as) bs :=
  List.foldl_append

/-! ### One byte -/

/-- The prime is odd. -/
theorem mul_prime_inj : x * PRIME = y * PRIME ↔ x = y := by
  refine ⟨fun heq => ?_, fun heq => congrArg (· * PRIME) heq⟩
  -- its inverse modulo 2^32
  have hinv : PRIME * 899433627 = 1 := by decide
  have hmul := congrArg (· * 899433627) heq
  simpa only [UInt32.mul_assoc, hinv, UInt32.mul_one] using hmul

theorem xor_byte_inj : h ^^^ a.toUInt32 = h ^^^ b.toUInt32 ↔ a = b := by
  rw [UInt32.xor_right_inj]
  refine ⟨fun heq => ?_, fun heq => congrArg _ heq⟩
  have hnat := congrArg UInt32.toNat heq
  rw [UInt8.toNat_toUInt32, UInt8.toNat_toUInt32] at hnat
  exact UInt8.toNat_inj.1 hnat

/-- **A byte acts by a bijection.** -/
theorem absorb_injective (b : UInt8) : Function.Injective fun h => absorb h b := by
  intro h h' heq
  exact (UInt32.xor_left_inj _).1 (mul_prime_inj.1 heq)

theorem absorb_inj : absorb h a = absorb h b ↔ a = b := mul_prime_inj.trans xor_byte_inj

theorem hashBytes_inj : hashBytes h bs = hashBytes h' bs ↔ h = h' := by
  induction bs generalizing h h' with
  | nil => rfl
  | cons b bs ih => rw [hashBytes_cons, hashBytes_cons, ih, (absorb_injective b).eq_iff]

/-- **Texts that differ in one byte do not collide.** -/
theorem hashBytes_ne_of_byte (hne : a ≠ b) :
    hashBytes h (as ++ a :: bs) ≠ hashBytes h (as ++ b :: bs) := by
  rw [hashBytes_append, hashBytes_append, hashBytes_cons, hashBytes_cons, Ne, hashBytes_inj,
    absorb_inj]
  exact hne

/-! ### Three bytes -/

/-- Only the low byte of a state is touched. -/
theorem xor_byte_div : (x ^^^ b.toUInt32).toNat / 256 = x.toNat / 256 := by
  have hb : b.toNat / 2 ^ 8 = 0 := Nat.div_eq_of_lt b.toNat_lt
  rw [UInt32.toNat_xor, UInt8.toNat_toUInt32]
  change (x.toNat ^^^ b.toNat) / 2 ^ 8 = x.toNat / 2 ^ 8
  rw [Nat.xor_div_two_pow, hb, Nat.xor_zero]

/-- States that take different bytes to the same state are close to each other. -/
theorem abs_sub_le_of_xor (heq : x ^^^ a.toUInt32 = y ^^^ b.toUInt32) :
    |(x.toNat : ℤ) - y.toNat| ≤ 255 := by
  have hx : (x ^^^ a.toUInt32).toNat / 256 = x.toNat / 256 := xor_byte_div
  have hy : (y ^^^ b.toUInt32).toNat / 256 = y.toNat / 256 := xor_byte_div
  rw [heq] at hx
  rw [abs_le]
  omega

/-- A byte moves a state a little. -/
theorem abs_xor_sub_le : |((x ^^^ b.toUInt32).toNat : ℤ) - x.toNat| ≤ 255 := by
  have hx : (x ^^^ b.toUInt32).toNat / 256 = x.toNat / 256 := xor_byte_div
  rw [abs_le]
  omega

theorem toNat_mul_prime :
    ∃ k : ℤ, ((x * PRIME).toNat : ℤ) = 16777619 * x.toNat - 4294967296 * k := by
  refine ⟨(16777619 * x.toNat / 4294967296 : ℕ), ?_⟩
  have hmul : (x * PRIME).toNat = x.toNat * 16777619 % 2 ^ 32 := UInt32.toNat_mul ..
  rw [hmul, mul_comm x.toNat]
  omega

/-- The square of the prime is `637696617` modulo 2^32. -/
theorem eq_zero_of_prime_sq {d e f k : ℤ} (hd : |d| ≤ 255) (he : |e| ≤ 510) (hf : |f| ≤ 255)
    (heq : 637696617 * d + 16777619 * e + f = 4294967296 * k) : d = 0 ∧ e = 0 := by
  rw [abs_le] at hd he hf
  -- the low 24 bits leave few cases, and the high 8 bits none of them
  obtain ⟨j, hj⟩ : ∃ j, j = 256 * k - 38 * d - e := ⟨_, rfl⟩
  have hlow : 162409 * d + 403 * e + f = 16777216 * j := by omega
  have hcases : j = 0 ∨ j = 1 ∨ j = -1 ∨ j = 2 ∨ j = -2 := by omega
  rcases hcases with rfl | rfl | rfl | rfl | rfl
  · have hd : d = -1 ∨ d = 0 ∨ d = 1 := by omega
    rcases hd with rfl | rfl | rfl <;> omega
  · have hd : d = 103 ∨ d = 104 := by omega
    rcases hd with rfl | rfl <;> omega
  · have hd : d = -103 ∨ d = -104 := by omega
    rcases hd with rfl | rfl <;> omega
  · have hd : d = 206 ∨ d = 207 := by omega
    rcases hd with rfl | rfl <;> omega
  · have hd : d = -206 ∨ d = -207 := by omega
    rcases hd with rfl | rfl <;> omega

/-- **Three bytes do not collide.** -/
theorem three_bytes {a₀ a₁ a₂ b₀ b₁ b₂ : UInt8} :
    hashBytes h [a₀, a₁, a₂] = hashBytes h [b₀, b₁, b₂] ↔ [a₀, a₁, a₂] = [b₀, b₁, b₂] := by
  refine ⟨fun heq => ?_, fun heq => congrArg _ heq⟩
  -- the states after each byte went in, before the multiplication
  obtain ⟨x₀, hx₀⟩ : ∃ x, x = h ^^^ a₀.toUInt32 := ⟨_, rfl⟩
  obtain ⟨y₀, hy₀⟩ : ∃ y, y = h ^^^ b₀.toUInt32 := ⟨_, rfl⟩
  obtain ⟨x₁, hx₁⟩ : ∃ x, x = x₀ * PRIME ^^^ a₁.toUInt32 := ⟨_, rfl⟩
  obtain ⟨y₁, hy₁⟩ : ∃ y, y = y₀ * PRIME ^^^ b₁.toUInt32 := ⟨_, rfl⟩
  have hlast : x₁ * PRIME ^^^ a₂.toUInt32 = y₁ * PRIME ^^^ b₂.toUInt32 := by
    rw [hx₁, hy₁, hx₀, hy₀]
    exact mul_prime_inj.1 heq
  have hd : |(x₀.toNat : ℤ) - y₀.toNat| ≤ 255 := by
    have hx : x₀.toNat / 256 = h.toNat / 256 := hx₀ ▸ xor_byte_div
    have hy : y₀.toNat / 256 = h.toNat / 256 := hy₀ ▸ xor_byte_div
    rw [abs_le]
    omega
  obtain ⟨i, hi⟩ := toNat_mul_prime (x := x₀)
  obtain ⟨i', hi'⟩ := toNat_mul_prime (x := y₀)
  obtain ⟨k, hk⟩ := toNat_mul_prime (x := x₁)
  obtain ⟨k', hk'⟩ := toNat_mul_prime (x := y₁)
  have hs : |(x₁.toNat : ℤ) - (x₀ * PRIME).toNat| ≤ 255 := hx₁ ▸ abs_xor_sub_le
  have ht : |(y₁.toNat : ℤ) - (y₀ * PRIME).toNat| ≤ 255 := hy₁ ▸ abs_xor_sub_le
  have hf := abs_sub_le_of_xor hlast
  rw [abs_le] at hs ht hf
  -- the last states differ by their difference after the first byte times the square of the prime
  obtain ⟨hd_zero, he_zero⟩ := eq_zero_of_prime_sq
    (d := (x₀.toNat : ℤ) - y₀.toNat)
    (e := (x₁.toNat - (x₀ * PRIME).toNat) - (y₁.toNat - (y₀ * PRIME).toNat))
    (f := (y₁ * PRIME).toNat - (x₁ * PRIME).toNat)
    (k := 16777619 * (i - i') + (k - k') - 65539 * (x₀.toNat - y₀.toNat))
    hd (by rw [abs_le]; omega) (by rw [abs_le]; omega) (by omega)
  have hfirst : x₀ = y₀ := UInt32.toNat_inj.1 (by omega)
  have hsecond : x₁ = y₁ := UInt32.toNat_inj.1 (by rw [hfirst] at he_zero; omega)
  rw [hx₀, hy₀] at hfirst
  obtain rfl := xor_byte_inj.1 hfirst
  rw [hsecond] at hlast
  obtain rfl := xor_byte_inj.1 hlast
  rw [hx₁, hy₁, hx₀, hy₀] at hsecond
  rw [xor_byte_inj.1 hsecond]

/-- **Numbers below `2 ^ 24` do not collide**, as words of eight bytes. -/
theorem hashBytes_toLE_inj {m n : ℕ} (hm : m < 2 ^ 24) (hn : n < 2 ^ 24) :
    hashBytes h (toLE 8 m) = hashBytes h (toLE 8 n) ↔ m = n := by
  have hsplit : ∀ n < 2 ^ 24, toLE 8 n = toLE 3 n ++ List.replicate 5 0 := by
    intro n hn
    have hzero : n / 256 / 256 / 256 = 0 := by omega
    simp [toLE, hzero, List.replicate]
  rw [hsplit m hm, hsplit n hn, hashBytes_append, hashBytes_append, hashBytes_inj]
  refine three_bytes.trans ⟨fun heq => ?_, fun heq => heq ▸ rfl⟩
  have hvalue : ofLE (toLE 3 m) = ofLE (toLE 3 n) := congrArg ofLE heq
  rw [ofLE_toLE, ofLE_toLE] at hvalue
  omega

end Fnv

end LowLatencyPipeline
