import Mathlib.Data.List.Basic
import Mathlib.Tactic.Ring

/-!
# Bytes and numbers

Numbers as bytes in either order: `ofLE` is how a little-endian machine reads memory, `toBE` how a
big-endian format writes a number, and `bswap` swaps the bytes of a number of a fixed width.
`bswap_ofLE` says that loading and swapping reads a big-endian number.

`slice off n bs` are the `n` bytes from an offset on; the lemmas `slice_skip` and `slice_front` walk
it through a concatenation.
-/

namespace LowLatencyPipeline

namespace Bytes

/-- The value of bytes, least significant first. -/
def ofLE (bs : List UInt8) : ℕ := bs.foldr (fun b n => b.toNat + 256 * n) 0

/-- The value of bytes, most significant first. -/
def ofBE (bs : List UInt8) : ℕ := ofLE bs.reverse

/-- The low bytes of a number, least significant first. -/
def toLE : ℕ → ℕ → List UInt8
  | 0, _ => []
  | width + 1, n => UInt8.ofNat n :: toLE width (n / 256)

/-- The low bytes of a number, most significant first. -/
def toBE (width n : ℕ) : List UInt8 := (toLE width n).reverse

/-- The number with its low bytes in the opposite order. -/
def bswap (width n : ℕ) : ℕ := ofBE (toLE width n)

variable {bs : List UInt8} {width n : ℕ}

theorem ofLE_cons (b : UInt8) : ofLE (b :: bs) = b.toNat + 256 * ofLE bs := rfl

@[simp]
theorem length_toLE : (toLE width n).length = width := by
  induction width generalizing n with
  | zero => rfl
  | succ width ih => exact congrArg Nat.succ ih

@[simp]
theorem length_toBE : (toBE width n).length = width := by
  rw [toBE, List.length_reverse, length_toLE]

/-- Writing and reading keeps what fits. -/
theorem ofLE_toLE : ofLE (toLE width n) = n % 256 ^ width := by
  induction width generalizing n with
  | zero => rw [pow_zero, Nat.mod_one]; rfl
  | succ width ih =>
    have hlow : (UInt8.ofNat n).toNat = n % 256 := rfl
    rw [toLE, ofLE_cons, ih, hlow, pow_succ', Nat.mod_mul]

theorem ofBE_toBE : ofBE (toBE width n) = n % 256 ^ width := by
  rw [ofBE, toBE, List.reverse_reverse, ofLE_toLE]

/-- Reading and writing gives the bytes back, in a wider number behind zeros. -/
theorem toLE_ofLE (bs : List UInt8) (k : ℕ) :
    toLE (bs.length + k) (ofLE bs) = bs ++ List.replicate k 0 := by
  induction bs with
  | nil =>
    rw [List.length_nil, zero_add, List.nil_append]
    induction k with
    | zero => rfl
    | succ k ih => exact congrArg (0 :: ·) ih
  | cons b bs ih =>
    have hb : b.toNat < 256 := b.toNat_lt
    have hlow : UInt8.ofNat (b.toNat + 256 * ofLE bs) = b := by
      refine UInt8.toNat_inj.1 ?_
      rw [UInt8.toNat_ofNat']
      omega
    have hhigh : (b.toNat + 256 * ofLE bs) / 256 = ofLE bs := by omega
    rw [List.length_cons, Nat.add_right_comm, toLE, ofLE_cons, hlow, hhigh, ih, List.cons_append]

/-- The bytes of a number are those that are read as it. -/
theorem ofLE_eq_iff (hn : n < 256 ^ bs.length) : ofLE bs = n ↔ bs = toLE bs.length n := by
  constructor
  · rintro rfl
    have h := toLE_ofLE bs 0
    rwa [List.replicate_zero, List.append_nil, Nat.add_zero, eq_comm] at h
  · intro h
    rw [h, ofLE_toLE, Nat.mod_eq_of_lt hn]

/-- **Load and swap.** -/
theorem bswap_ofLE (bs : List UInt8) : bswap bs.length (ofLE bs) = ofBE bs := by
  have h := toLE_ofLE bs 0
  rw [List.replicate_zero, List.append_nil, Nat.add_zero] at h
  rw [bswap, h]

/-- Writing what was read. -/
theorem toBE_ofBE (bs : List UInt8) : toBE bs.length (ofBE bs) = bs := by
  have h := toLE_ofLE bs.reverse 0
  rw [List.replicate_zero, List.append_nil, Nat.add_zero, List.length_reverse] at h
  rw [toBE, ofBE, h, List.reverse_reverse]

theorem ofBE_lt (bs : List UInt8) : ofBE bs < 256 ^ bs.length := by
  rw [← toBE_ofBE bs, ofBE_toBE, length_toBE]
  exact Nat.mod_lt _ (Nat.pow_pos (by omega))

theorem ofLE_replicate_append (k : ℕ) :
    ofLE (List.replicate k 0 ++ bs) = ofLE bs * 256 ^ k := by
  induction k with
  | zero => simp
  | succ k ih =>
    rw [List.replicate_succ, List.cons_append, ofLE_cons, ih, UInt8.toNat_zero, zero_add, pow_succ]
    ring

/-- Swapping in a wider number moves the bytes to its top. -/
theorem bswap_ofLE_wide (bs : List UInt8) (k : ℕ) :
    bswap (bs.length + k) (ofLE bs) = ofBE bs * 256 ^ k := by
  rw [bswap, toLE_ofLE, ofBE, List.reverse_append, List.reverse_replicate, ofLE_replicate_append,
    ofBE]

/-! ### Slices -/

/-- `n` bytes from an offset on. -/
def slice (off n : ℕ) (bs : List UInt8) : List UInt8 := (bs.drop off).take n

variable {front rest : List UInt8} {off : ℕ}

/-- What lies before the offset is skipped. -/
theorem slice_skip (h : front.length ≤ off) :
    slice off n (front ++ rest) = slice (off - front.length) n rest := by
  rw [slice, List.drop_append, List.drop_eq_nil_of_le h, List.nil_append, slice]

/-- The front itself. -/
theorem slice_front (h : front.length = n) : slice 0 n (front ++ rest) = front := by
  rw [slice, List.drop_zero, ← h, List.take_left']
  rfl

/-- A slice of a slice. -/
theorem slice_slice {off' n' : ℕ} (h : off' + n' ≤ n) :
    slice off' n' (slice off n bs) = slice off' n' (bs.drop off) := by
  rw [slice, slice, slice, List.drop_take, List.take_take, min_eq_left (by omega)]

end Bytes

end LowLatencyPipeline
