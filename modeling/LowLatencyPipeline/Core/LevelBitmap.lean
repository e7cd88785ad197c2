import Mathlib.Data.BitVec
import Mathlib.Data.Finset.Basic

/-!
# The occupancy bitmap

`OccupancyBitmap` of `core/level_bitmap.hpp`: a tree of 64-bit words of fan-out 64. A leaf is one
word; an interior node owns the words of its range and a bitmap of them, the summary. Bit
positions are natural numbers, shifts and masks by six bits are division and remainder by 64.

`Valid` is the invariant that the source states, "a summary bit is set iff its word is non-empty",
together with no bit being set beyond the range. On valid bitmaps `set` and `clear` change one bit,
and `nextSet` and `prevSet` find the nearest set bit: `test_set`, `test_clear`, `nextSet_isNext`,
`prevSet_isPrev`.

* **Against a linear scan** (`run_scans`): a bitmap run through any calls answers as the scan of a
  plain set that is run through the same calls, `scanNext` and `scanPrev`; for sizes up to `2 ^ 31`
  no 32-bit index of the code wraps (`NWORDS` is the largest one passed to the tier above).
-/

namespace LowLatencyPipeline

namespace Core

/-- `BITMAP_NPOS`. -/
def NPOS : ℕ := 2 ^ 32 - 1

/-- `OccupancyBitmap<n>`. Only the first `NWORDS` words of a node are its own. -/
inductive OccupancyBitmap : ℕ → Type
  | leaf {n : ℕ} (fits : n ≤ 64) (word : BitVec 64) : OccupancyBitmap n
  | node {n : ℕ} (wide : 64 < n) (words : ℕ → BitVec 64)
      (summary : OccupancyBitmap ((n + 63) / 64)) : OccupancyBitmap n

/-! ### Words -/

/-- `__builtin_ctzll` of a nonzero word: its lowest set bit. -/
def lowest (m : BitVec 64) : ℕ := m.ctz.toNat

/-- `63 - __builtin_clzll` of a nonzero word: its highest set bit. -/
def highest (m : BitVec 64) : ℕ := 63 - m.clz.toNat

/-- The bits of a word from `i` on. -/
def bitsFrom (word : BitVec 64) (i : ℕ) : BitVec 64 := word &&& ((~~~0#64) <<< i)

/-- The bits of a word up to `i`. -/
def bitsUpTo (word : BitVec 64) (i : ℕ) : BitVec 64 :=
  if 63 ≤ i then word else word &&& ((1#64 <<< (i + 1)) - 1#64)

/-- A word with bit `i` set. -/
def setBit (word : BitVec 64) (i : ℕ) : BitVec 64 := word ||| (1#64 <<< i)

/-- A word with bit `i` cleared. -/
def clearBit (word : BitVec 64) (i : ℕ) : BitVec 64 := word &&& ~~~(1#64 <<< i)

section Words

variable {word m : BitVec 64} {i j : ℕ}

theorem ne_zero_iff_exists_bit : m ≠ 0 ↔ ∃ j, m.getLsbD j = true := by
  constructor
  · intro hne
    by_contra hno
    push Not at hno
    exact hne (BitVec.eq_of_getLsbD_eq fun j _ => by simpa using hno j)
  · rintro ⟨j, hj⟩ rfl
    simp at hj

theorem getLsbD_lowest (h : m ≠ 0) : m.getLsbD (lowest m) = true :=
  BitVec.getLsbD_true_ctz_of_ne_zero h

theorem lowest_le (hj : m.getLsbD j = true) : lowest m ≤ j := by
  by_contra hlt
  rw [BitVec.getLsbD_false_of_lt_ctz (Nat.lt_of_not_le hlt)] at hj
  exact absurd hj (by decide)

theorem lowest_lt (h : m ≠ 0) : lowest m < 64 := BitVec.lt_of_getLsbD (getLsbD_lowest h)

theorem getLsbD_highest (h : m ≠ 0) : m.getLsbD (highest m) = true :=
  BitVec.getLsbD_true_clz_of_ne_zero (by decide) h

theorem le_highest (hj : m.getLsbD j = true) : j ≤ highest m := by
  have hpow : 2 ^ j < 2 ^ (64 - m.clz.toNat) :=
    (Nat.ge_two_pow_of_testBit hj).trans_lt BitVec.toNat_lt_two_pow_sub_clz
  have hlt := (Nat.pow_lt_pow_iff_right (by decide)).1 hpow
  rw [highest]
  omega

theorem highest_lt : highest m < 64 := by
  rw [highest]
  omega

theorem getLsbD_bitsFrom :
    (bitsFrom word i).getLsbD j = true ↔ i ≤ j ∧ word.getLsbD j = true := by
  have hlt : word.getLsbD j = true → j < 64 := BitVec.lt_of_getLsbD
  simp only [bitsFrom, BitVec.getLsbD_and, BitVec.getLsbD_shiftLeft, BitVec.getLsbD_not,
    Bool.and_eq_true]
  constructor
  · rintro ⟨hbit, hfrom⟩
    refine ⟨?_, hbit⟩
    simp at hfrom
    omega
  · rintro ⟨hle, hbit⟩
    refine ⟨hbit, ?_⟩
    have := hlt hbit
    simp
    omega

theorem getLsbD_bitsUpTo :
    (bitsUpTo word i).getLsbD j = true ↔ j ≤ i ∧ word.getLsbD j = true := by
  have hlt : word.getLsbD j = true → j < 64 := BitVec.lt_of_getLsbD
  rw [bitsUpTo]
  split_ifs with hi
  · exact ⟨fun hbit => ⟨by have := hlt hbit; omega, hbit⟩, And.right⟩
  · have hmask : ((1#64 <<< (i + 1)) - 1#64).getLsbD j = decide (j < i + 1) := by
      have hpow : 2 ^ (i + 1) < 2 ^ 64 := Nat.pow_lt_pow_right (by decide) (by omega)
      have hone : 0 < 2 ^ (i + 1) := Nat.two_pow_pos _
      have hnat : ((1#64 <<< (i + 1)) - 1#64).toNat = 2 ^ (i + 1) - 1 := by
        rw [BitVec.toNat_sub, BitVec.toNat_shiftLeft, BitVec.toNat_ofNat, Nat.shiftLeft_eq]
        omega
      rw [BitVec.getLsbD, hnat, Nat.testBit_two_pow_sub_one]
    rw [BitVec.getLsbD_and, hmask, Bool.and_eq_true, decide_eq_true_eq]
    constructor
    · rintro ⟨hbit, hle⟩
      exact ⟨by omega, hbit⟩
    · rintro ⟨hle, hbit⟩
      exact ⟨hbit, by omega⟩

theorem getLsbD_setBit (hi : i < 64) :
    (setBit word i).getLsbD j = true ↔ j = i ∨ word.getLsbD j = true := by
  have hone : (1#64 <<< i).getLsbD j = decide (i = j) :=
    (BitVec.getLsbD_twoPow i j).trans (by rw [decide_eq_true hi, Bool.true_and])
  rw [setBit, BitVec.getLsbD_or, hone, Bool.or_eq_true, decide_eq_true_eq, or_comm, eq_comm]

theorem getLsbD_clearBit :
    (clearBit word i).getLsbD j = true ↔ j ≠ i ∧ word.getLsbD j = true := by
  have hlt : word.getLsbD j = true → j < 64 := BitVec.lt_of_getLsbD
  have hone : (1#64 <<< i).getLsbD j = (decide (i < 64) && decide (i = j)) :=
    BitVec.getLsbD_twoPow i j
  rw [clearBit, BitVec.getLsbD_and, BitVec.getLsbD_not, hone]
  constructor
  · intro h
    simp at h
    exact ⟨fun heq => by omega, h.1⟩
  · rintro ⟨hne, hbit⟩
    have := hlt hbit
    simp [hbit, this, hne.symm]

end Words

/-! ### The bitmap -/

namespace OccupancyBitmap

/-- A bitmap in zero-initialised storage, which is also what `reset` leaves. -/
def clean (n : ℕ) : OccupancyBitmap n :=
  if fits : n ≤ 64 then .leaf fits 0
  else .node (by omega) (fun _ => 0) (clean ((n + 63) / 64))
termination_by n
decreasing_by omega

/-- Whether bit `i` is set. -/
def test {n : ℕ} : OccupancyBitmap n → ℕ → Bool
  | .leaf _ word, i => word.getLsbD i
  | .node _ words _, i => (words (i / 64)).getLsbD (i % 64)

/-- `set`. -/
def set {n : ℕ} : OccupancyBitmap n → ℕ → OccupancyBitmap n
  | .leaf fits word, i => .leaf fits (setBit word i)
  | .node wide words summary, i =>
    let w := i / 64
    .node wide (Function.update words w (setBit (words w) (i % 64))) (summary.set w)

/-- `clear`. -/
def clear {n : ℕ} : OccupancyBitmap n → ℕ → OccupancyBitmap n
  | .leaf fits word, i => .leaf fits (clearBit word i)
  | .node wide words summary, i =>
    let w := i / 64
    let word := clearBit (words w) (i % 64)
    .node wide (Function.update words w word) (if word = 0 then summary.clear w else summary)

/-- `next_set`: the lowest set bit `≥ i`. -/
def nextSet {n : ℕ} : OccupancyBitmap n → ℕ → ℕ
  | .leaf _ word, i =>
    if 64 ≤ i then NPOS
    else
      let m := bitsFrom word i
      if m ≠ 0 then lowest m else NPOS
  | .node _ words summary, i =>
    let w := i / 64
    if (n + 63) / 64 ≤ w then NPOS
    else
      let m := bitsFrom (words w) (i % 64)
      if m ≠ 0 then 64 * w + lowest m
      else
        let w := summary.nextSet (w + 1)
        if w = NPOS then NPOS else 64 * w + lowest (words w)

/-- `prev_set`: the highest set bit `≤ i`. -/
def prevSet {n : ℕ} : OccupancyBitmap n → ℕ → ℕ
  | .leaf _ word, i =>
    let m := bitsUpTo word i
    if m ≠ 0 then highest m else NPOS
  | .node _ words summary, i =>
    let w := i / 64
    let m := bitsUpTo (words w) (i % 64)
    if m ≠ 0 then 64 * w + highest m
    else if w = 0 then NPOS
    else
      let w := summary.prevSet (w - 1)
      if w = NPOS then NPOS else 64 * w + highest (words w)

/-- **The invariant of a bitmap.** -/
def Valid {n : ℕ} : OccupancyBitmap n → Prop
  | .leaf _ word => ∀ i, word.getLsbD i = true → i < n
  | .node _ words summary =>
    (∀ i, (words (i / 64)).getLsbD (i % 64) = true → i < n) ∧
      (∀ w, summary.test w = true ↔ words w ≠ 0) ∧ summary.Valid

/-- `r` is the least position from `i` on where `P` holds. -/
inductive IsNext (P : ℕ → Prop) (i : ℕ) : ℕ → Prop
  | none : (∀ j, P j → j < i) → IsNext P i NPOS
  | found {r : ℕ} : P r → i ≤ r → (∀ j, P j → i ≤ j → r ≤ j) → IsNext P i r

/-- `r` is the greatest position up to `i` where `P` holds. -/
inductive IsPrev (P : ℕ → Prop) (i : ℕ) : ℕ → Prop
  | none : (∀ j, P j → i < j) → IsPrev P i NPOS
  | found {r : ℕ} : P r → r ≤ i → (∀ j, P j → j ≤ i → j ≤ r) → IsPrev P i r

variable {n : ℕ} {b : OccupancyBitmap n} {i j : ℕ}

theorem Valid.lt (h : b.Valid) (hj : b.test j = true) : j < n := by
  cases b with
  | leaf fits word => exact h j hj
  | node wide words summary => exact h.1 j hj

theorem test_clean : (clean n).test j = false := by
  rw [clean]
  split_ifs <;> simp [test]

theorem clean_valid : (clean n).Valid := by
  induction n using Nat.strongRecOn with
  | ind n ih =>
    rw [clean]
    split_ifs with fits
    · intro i hi
      simp at hi
    · refine ⟨fun i hi => by simp at hi, fun w => ?_, ih _ (by omega)⟩
      simp [test_clean]

theorem test_set (hi : i < n) :
    (b.set i).test j = true ↔ j = i ∨ b.test j = true := by
  cases b with
  | leaf fits word => exact getLsbD_setBit (by omega)
  | node wide words summary =>
    simp only [set, test]
    rcases eq_or_ne (j / 64) (i / 64) with hw | hw
    · rw [hw, Function.update_self, getLsbD_setBit (Nat.mod_lt _ (by decide))]
      exact or_congr_left ⟨fun hmod => by omega, fun heq => heq ▸ rfl⟩
    · rw [Function.update_of_ne hw]
      exact (or_iff_right fun heq : j = i => hw (heq ▸ rfl)).symm

theorem Valid.set (h : b.Valid) (hi : i < n) : (b.set i).Valid := by
  induction b generalizing i with
  | leaf fits word =>
    intro j hj
    rcases (getLsbD_setBit (by omega)).1 hj with rfl | hj
    · exact hi
    · exact h j hj
  | @node n wide words summary ih =>
    obtain ⟨hlt, hsummary, hvalid⟩ := h
    have hw : i / 64 < (n + 63) / 64 := by omega
    refine ⟨fun j hj => ?_, fun w => ?_, ih hvalid hw⟩
    · have hset := (test_set (b := .node wide words summary) hi).1 hj
      rcases hset with rfl | hj
      · exact hi
      · exact hlt j hj
    · rw [test_set hw]
      rcases eq_or_ne w (i / 64) with rfl | hne
      · rw [Function.update_self]
        refine iff_of_true (.inl rfl) (ne_zero_iff_exists_bit.2 ⟨i % 64, ?_⟩)
        exact (getLsbD_setBit (Nat.mod_lt _ (by decide))).2 (.inl rfl)
      · rw [Function.update_of_ne hne, or_iff_right hne]
        exact hsummary w

theorem test_clear :
    (b.clear i).test j = true ↔ j ≠ i ∧ b.test j = true := by
  cases b with
  | leaf fits word => exact getLsbD_clearBit
  | node wide words summary =>
    simp only [clear, test]
    rcases eq_or_ne (j / 64) (i / 64) with hw | hw
    · rw [hw, Function.update_self, getLsbD_clearBit]
      exact and_congr_left' ⟨fun hmod heq => hmod (heq ▸ rfl), fun hne hmod => hne (by omega)⟩
    · rw [Function.update_of_ne hw]
      exact (and_iff_right fun heq : j = i => hw (heq ▸ rfl)).symm

theorem Valid.clear (h : b.Valid) : (b.clear i).Valid := by
  induction b generalizing i with
  | leaf fits word => exact fun j hj => h j (getLsbD_clearBit.1 hj).2
  | node wide words summary ih =>
    obtain ⟨hlt, hsummary, hvalid⟩ := h
    refine ⟨fun j hj => ?_, fun w => ?_, ?_⟩
    · have hcleared := (test_clear (b := .node wide words summary) (i := i) (j := j)).1 hj
      exact hlt j hcleared.2
    · rcases eq_or_ne w (i / 64) with rfl | hne
      · rw [Function.update_self]
        split_ifs with hzero
        · simp [test_clear, hzero]
        · rw [hsummary]
          refine iff_of_true (fun hold => hzero ?_) hzero
          simp [hold, clearBit]
      · rw [Function.update_of_ne hne]
        split_ifs with hzero
        · rw [test_clear, and_iff_right hne]
          exact hsummary w
        · exact hsummary w
    · split_ifs
      · exact ih hvalid
      · exact hvalid

/-- **A valid bitmap is its bits**: the summaries say nothing more. -/
theorem Valid.eq_of_test {c : OccupancyBitmap n} (hb : b.Valid) (hc : c.Valid)
    (htest : ∀ i, b.test i = c.test i) : b = c := by
  induction b with
  | leaf fits word =>
    cases c with
    | leaf _ word' => rw [BitVec.eq_of_getLsbD_eq fun i _ => htest i]
    | node wide => exact absurd wide (Nat.not_lt.2 fits)
  | node wide words summary ih =>
    cases c with
    | leaf fits => exact absurd wide (Nat.not_lt.2 fits)
    | node _ words' summary' =>
      have hwords : words = words' := by
        refine funext fun w => BitVec.eq_of_getLsbD_eq fun j hj => ?_
        have hbit := htest (64 * w + j)
        simp only [test] at hbit
        rwa [Nat.mul_add_div (by decide), Nat.div_eq_of_lt hj, Nat.mul_add_mod,
          Nat.mod_eq_of_lt hj] at hbit
      subst hwords
      rw [ih hb.2.2 hc.2.2 fun w => Bool.eq_iff_iff.2 ((hb.2.1 w).trans (hc.2.1 w).symm)]

/-- A summary's answer is a word of its own. -/
theorem Valid.word_lt {words : ℕ → BitVec 64} {summary : OccupancyBitmap ((n + 63) / 64)}
    (hsummary : ∀ w, summary.test w = true ↔ words w ≠ 0) {w : ℕ}
    (hw : (words w).getLsbD j = true) :
    summary.test w = true :=
  (hsummary w).2 (ne_zero_iff_exists_bit.2 ⟨j, hw⟩)

/-- **`next_set` finds the lowest set bit from `i` on.** -/
theorem nextSet_isNext (hn : n ≤ NPOS) (h : b.Valid) :
    IsNext (fun j => b.test j = true) i (b.nextSet i) := by
  induction b generalizing i with
  | leaf fits word =>
    simp only [nextSet, test]
    split_ifs with hi hm
    · exact .none fun j hj => by have := h j hj; omega
    · obtain ⟨hle, hbit⟩ := getLsbD_bitsFrom.1 (getLsbD_lowest hm)
      exact .found hbit hle fun j hj hij => lowest_le (getLsbD_bitsFrom.2 ⟨hij, hj⟩)
    · refine .none fun j hj => Nat.lt_of_not_le fun hij => hm ?_
      exact ne_zero_iff_exists_bit.2 ⟨j, getLsbD_bitsFrom.2 ⟨hij, hj⟩⟩
  | @node n wide words summary ih =>
    obtain ⟨hlt, hsummary, hvalid⟩ := h
    simp only [nextSet, test]
    split_ifs with hw hm hnpos
    · exact .none fun j hj => by have := hlt j hj; omega
    · -- the answer is in the word of `i`
      obtain ⟨hle, hbit⟩ := getLsbD_bitsFrom.1 (getLsbD_lowest hm)
      have hlow := lowest_lt hm
      refine .found ?_ (by omega) fun j hj hij => ?_
      · rwa [Nat.mul_add_div (by decide), Nat.div_eq_of_lt hlow, Nat.mul_add_mod,
          Nat.mod_eq_of_lt hlow]
      · rcases eq_or_ne (j / 64) (i / 64) with heq | hne
        · rw [heq] at hj
          have hmod : i % 64 ≤ j % 64 := by omega
          have := lowest_le (getLsbD_bitsFrom.2 ⟨hmod, hj⟩)
          omega
        · omega
    all_goals
      -- no bit of that word: every bit from `i` on is in a later word
      have hlater : ∀ j, (words (j / 64)).getLsbD (j % 64) = true → i ≤ j →
          i / 64 + 1 ≤ j / 64 := by
        intro j hj hij
        refine Nat.lt_of_le_of_ne (Nat.div_le_div_right hij) fun heq => hm ?_
        rw [← heq] at hj
        exact ne_zero_iff_exists_bit.2 ⟨j % 64, getLsbD_bitsFrom.2 ⟨by omega, hj⟩⟩
      have hnext := ih (by omega) hvalid (i := i / 64 + 1)
    · rw [hnpos] at hnext
      refine .none fun j hj => Nat.lt_of_not_le fun hij => ?_
      have hword := Valid.word_lt hsummary hj
      cases hnext with
      | none hnone => exact absurd (hlater j hj hij) (by have := hnone _ hword; omega)
      | found hset => exact absurd (hvalid.lt hset) (by omega)
    · generalize summary.nextSet (i / 64 + 1) = w at hnext hnpos
      cases hnext with
      | none => exact absurd rfl hnpos
      | found hset hle hleast =>
        have hne := (hsummary w).1 hset
        have hlow := lowest_lt hne
        refine .found ?_ (by omega) fun j hj hij => ?_
        · rw [Nat.mul_add_div (by decide), Nat.div_eq_of_lt hlow, Nat.mul_add_mod,
            Nat.mod_eq_of_lt hlow]
          exact getLsbD_lowest hne
        · have hword := hleast _ (Valid.word_lt hsummary hj) (hlater j hj hij)
          rcases eq_or_ne (j / 64) w with rfl | hjw
          · have := lowest_le hj
            omega
          · omega

/-- **`prev_set` finds the highest set bit up to `i`.** -/
theorem prevSet_isPrev (hn : n ≤ NPOS) (h : b.Valid) (hi : i < n) :
    IsPrev (fun j => b.test j = true) i (b.prevSet i) := by
  induction b generalizing i with
  | leaf fits word =>
    simp only [prevSet, test]
    split_ifs with hm
    · obtain ⟨hle, hbit⟩ := getLsbD_bitsUpTo.1 (getLsbD_highest hm)
      exact .found hbit hle fun j hj hij => le_highest (getLsbD_bitsUpTo.2 ⟨hij, hj⟩)
    · refine .none fun j hj => Nat.lt_of_not_le fun hij => hm ?_
      exact ne_zero_iff_exists_bit.2 ⟨j, getLsbD_bitsUpTo.2 ⟨hij, hj⟩⟩
  | @node n wide words summary ih =>
    obtain ⟨hlt, hsummary, hvalid⟩ := h
    simp only [prevSet, test]
    split_ifs with hm hzero hnpos
    · obtain ⟨hle, hbit⟩ := getLsbD_bitsUpTo.1 (getLsbD_highest hm)
      have hhigh := highest_lt (m := bitsUpTo (words (i / 64)) (i % 64))
      refine .found ?_ (by omega) fun j hj hij => ?_
      · rwa [Nat.mul_add_div (by decide), Nat.div_eq_of_lt hhigh, Nat.mul_add_mod,
          Nat.mod_eq_of_lt hhigh]
      · rcases eq_or_ne (j / 64) (i / 64) with heq | hne
        · rw [heq] at hj
          have hmod : j % 64 ≤ i % 64 := by omega
          have := le_highest (getLsbD_bitsUpTo.2 ⟨hmod, hj⟩)
          omega
        · omega
    all_goals
      -- no bit of that word: every bit up to `i` is in an earlier word
      have hearlier : ∀ j, (words (j / 64)).getLsbD (j % 64) = true → j ≤ i → j / 64 < i / 64 := by
        intro j hj hij
        refine Nat.lt_of_le_of_ne (Nat.div_le_div_right hij) fun heq => hm ?_
        rw [heq] at hj
        exact ne_zero_iff_exists_bit.2 ⟨j % 64, getLsbD_bitsUpTo.2 ⟨by omega, hj⟩⟩
    · exact .none fun j hj => Nat.lt_of_not_le fun hij => by have := hearlier j hj hij; omega
    all_goals have hprev := ih (by omega) hvalid (i := i / 64 - 1) (by omega)
    · rw [hnpos] at hprev
      refine .none fun j hj => Nat.lt_of_not_le fun hij => ?_
      have hword := Valid.word_lt hsummary hj
      have hbefore := hearlier j hj hij
      cases hprev with
      | none hnone => exact absurd (hnone _ hword) (by omega)
      | found hset => exact absurd (hvalid.lt hset) (by omega)
    · generalize summary.prevSet (i / 64 - 1) = w at hprev hnpos
      cases hprev with
      | none => exact absurd rfl hnpos
      | found hset hle hgreatest =>
        have hne := (hsummary w).1 hset
        have hhigh := highest_lt (m := words w)
        refine .found ?_ (by omega) fun j hj hij => ?_
        · rw [Nat.mul_add_div (by decide), Nat.div_eq_of_lt hhigh, Nat.mul_add_mod,
            Nat.mod_eq_of_lt hhigh]
          exact getLsbD_highest hne
        · have hbefore := hearlier j hj hij
          have hword := hgreatest _ (Valid.word_lt hsummary hj) (by omega)
          rcases eq_or_ne (j / 64) w with rfl | hjw
          · have := le_highest hj
            omega
          · omega

/-! ### Runs of calls -/

/-- `reset`. -/
def reset {n : ℕ} : OccupancyBitmap n → OccupancyBitmap n
  | .leaf fits _ => .leaf fits 0
  | .node wide _ summary => .node wide (fun _ => 0) summary.reset

theorem reset_eq_clean : b.reset = clean n := by
  induction b with
  | leaf fits word => rw [reset, clean, dif_pos fits]
  | @node n wide words summary ih => rw [reset, ih, clean.eq_1 n, dif_neg (by omega)]

/-- A call that changes a bitmap. -/
inductive Call
  | set (i : ℕ)
  | clear (i : ℕ)
  | reset
  deriving DecidableEq

/-- The bit of a call is one of the bitmap's. -/
def Call.InRange (n : ℕ) : Call → Prop
  | .set i => i < n
  | .clear i => i < n
  | .reset => True

instance (n : ℕ) : (call : Call) → Decidable (call.InRange n)
  | .set i => inferInstanceAs (Decidable (i < n))
  | .clear i => inferInstanceAs (Decidable (i < n))
  | .reset => inferInstanceAs (Decidable True)

/-- One call. -/
def apply (b : OccupancyBitmap n) : Call → OccupancyBitmap n
  | .set i => b.set i
  | .clear i => b.clear i
  | .reset => b.reset

/-- Calls in order, on the empty bitmap. -/
def run (n : ℕ) (calls : List Call) : OccupancyBitmap n := calls.foldl apply (clean n)

/-- One call on a plain set of positions. -/
def Call.mark (marks : Finset ℕ) : Call → Finset ℕ
  | .set i => insert i marks
  | .clear i => marks.erase i
  | .reset => ∅

/-- The positions marked after the calls. -/
def marked (calls : List Call) : Finset ℕ := calls.foldl Call.mark ∅

/-- The linear scan for the lowest mark from `i` on. -/
def scanNext (n : ℕ) (marks : Finset ℕ) (i : ℕ) : ℕ :=
  ((List.range n).find? fun k => i ≤ k ∧ k ∈ marks).getD NPOS

/-- The linear scan for the highest mark up to `i`. -/
def scanPrev (marks : Finset ℕ) (i : ℕ) : ℕ :=
  ((List.range (i + 1)).reverse.find? fun k => k ∈ marks).getD NPOS

/-- At every tier a summary bit is set iff its word is nonzero. -/
def SummaryMatches {n : ℕ} : OccupancyBitmap n → Prop
  | .leaf _ _ => True
  | .node _ words summary =>
    (∀ w < (n + 63) / 64, summary.test w = true ↔ words w ≠ 0) ∧ summary.SummaryMatches

theorem Valid.summaryMatches (h : b.Valid) : b.SummaryMatches := by
  induction b with
  | leaf fits word => trivial
  | node wide words summary ih => exact ⟨fun w _ => h.2.1 w, ih h.2.2⟩

/-- The bitmap holds the marks. -/
structure Holds (b : OccupancyBitmap n) (marks : Finset ℕ) : Prop where
  valid : b.Valid
  test : ∀ j, b.test j = true ↔ j ∈ marks

theorem clean_holds : (clean n).Holds ∅ where
  valid := clean_valid
  test j := by simp [test_clean]

/-- **The step of the run**: a call does to the bitmap what it does to the set. -/
theorem Holds.apply {marks : Finset ℕ} (h : b.Holds marks) {call : Call}
    (hcall : call.InRange n) : (b.apply call).Holds (call.mark marks) := by
  cases call with
  | set i =>
    refine ⟨h.valid.set hcall, fun j => ?_⟩
    rw [OccupancyBitmap.apply, test_set hcall, h.test, Call.mark, Finset.mem_insert]
  | clear i =>
    refine ⟨h.valid.clear, fun j => ?_⟩
    rw [OccupancyBitmap.apply, test_clear, h.test, Call.mark, Finset.mem_erase]
  | reset =>
    rw [OccupancyBitmap.apply, reset_eq_clean]
    exact clean_holds

theorem run_holds {calls : List Call} (hcalls : ∀ call ∈ calls, call.InRange n) :
    (run n calls).Holds (marked calls) := by
  induction calls using List.reverseRecOn with
  | nil => exact clean_holds
  | append_singleton calls call ih =>
    have hbefore := ih fun c hc => hcalls c (List.mem_append_left _ hc)
    rw [run, marked, List.foldl_append, List.foldl_append]
    exact hbefore.apply (hcalls call (by simp))

theorem IsNext.eq {P : ℕ → Prop} {r r' : ℕ} (h : IsNext P i r) (h' : IsNext P i r') : r = r' := by
  cases h with
  | none hno =>
    cases h' with
    | none => rfl
    | found hr hle => exact absurd (hno _ hr) (Nat.not_lt.2 hle)
  | found hr hle hleast =>
    cases h' with
    | none hno => exact absurd (hno _ hr) (Nat.not_lt.2 hle)
    | found hr' hle' hleast' => exact le_antisymm (hleast _ hr' hle') (hleast' _ hr hle)

theorem IsPrev.eq {P : ℕ → Prop} {r r' : ℕ} (h : IsPrev P i r) (h' : IsPrev P i r') : r = r' := by
  cases h with
  | none hno =>
    cases h' with
    | none => rfl
    | found hr hle => exact absurd (hno _ hr) (Nat.not_lt.2 hle)
  | found hr hle hgreatest =>
    cases h' with
    | none hno => exact absurd (hno _ hr) (Nat.not_lt.2 hle)
    | found hr' hle' hgreatest' => exact le_antisymm (hgreatest' _ hr hle) (hgreatest _ hr' hle')

theorem scanNext_isNext {marks : Finset ℕ} (hlt : ∀ j ∈ marks, j < n) :
    IsNext (· ∈ marks) i (scanNext n marks i) := by
  rw [scanNext]
  cases hfind : (List.range n).find? fun k => i ≤ k ∧ k ∈ marks with
  | none =>
    refine .none fun j hj => Nat.lt_of_not_le fun hij => ?_
    have hno := List.find?_eq_none.1 hfind j (List.mem_range.2 (hlt j hj))
    exact hno (decide_eq_true ⟨hij, hj⟩)
  | some r =>
    obtain ⟨hr, before, after, hsplit, hno⟩ := List.find?_eq_some_iff_append.1 hfind
    obtain ⟨hir, hmem⟩ := of_decide_eq_true hr
    refine .found hmem hir fun j hj hij => Nat.le_of_not_lt fun hjr => ?_
    -- a smaller mark would stand before `r` in the range
    have hin : j ∈ before ++ r :: after := hsplit ▸ List.mem_range.2 (hlt j hj)
    have hsorted : (before ++ r :: after).Pairwise (· < ·) := hsplit ▸ List.pairwise_lt_range
    have hafter := (List.pairwise_cons.1 (List.pairwise_append.1 hsorted).2.1).1
    rcases List.mem_append.1 hin with hj' | hj'
    · simpa [hij, hj] using hno j hj'
    · rcases List.mem_cons.1 hj' with rfl | hj'
      · exact lt_irrefl _ hjr
      · exact lt_asymm hjr (hafter j hj')

theorem scanPrev_isPrev {marks : Finset ℕ} : IsPrev (· ∈ marks) i (scanPrev marks i) := by
  rw [scanPrev]
  cases hfind : (List.range (i + 1)).reverse.find? fun k => k ∈ marks with
  | none =>
    refine .none fun j hj => Nat.lt_of_not_le fun hij => ?_
    have hno := List.find?_eq_none.1 hfind j (by simp; omega)
    exact hno (decide_eq_true hj)
  | some r =>
    obtain ⟨hr, before, after, hsplit, hno⟩ := List.find?_eq_some_iff_append.1 hfind
    have hir : r < i + 1 := List.mem_range.1 (List.mem_reverse.1 (hsplit ▸ by simp))
    refine .found (of_decide_eq_true hr) (Nat.le_of_lt_succ hir) fun j hj hij =>
      Nat.le_of_not_lt fun hrj => ?_
    -- a greater mark would stand before `r` in the reversed range
    have hin : j ∈ before ++ r :: after := hsplit ▸ by simp; omega
    have hsorted : (before ++ r :: after).Pairwise (· > ·) :=
      hsplit ▸ List.pairwise_reverse.2 List.pairwise_lt_range
    have hafter := (List.pairwise_cons.1 (List.pairwise_append.1 hsorted).2.1).1
    rcases List.mem_append.1 hin with hj' | hj'
    · simpa [hj] using hno j hj'
    · rcases List.mem_cons.1 hj' with rfl | hj'
      · exact lt_irrefl _ hrj
      · exact lt_asymm hrj (hafter j hj')

/-- **The bitmap is a linear scan.** After any calls on bits of the bitmap every summary bit tells
whether its word is nonzero, and both searches answer as the scans of the marked positions, whose
answers are the nearest marks. -/
theorem run_scans (hn : n ≤ 2 ^ 31) {calls : List Call}
    (hcalls : ∀ call ∈ calls, call.InRange n) :
    (run n calls).SummaryMatches ∧
      (∀ j, (run n calls).test j = true ↔ j ∈ marked calls) ∧
      (∀ i, (run n calls).nextSet i = scanNext n (marked calls) i ∧
        IsNext (· ∈ marked calls) i ((run n calls).nextSet i)) ∧
      ∀ i < n, (run n calls).prevSet i = scanPrev (marked calls) i ∧
        IsPrev (· ∈ marked calls) i ((run n calls).prevSet i) := by
  have hholds := run_holds hcalls
  have hnpos : n ≤ NPOS := hn.trans (by decide)
  have hlt : ∀ j ∈ marked calls, j < n := fun j hj => hholds.valid.lt ((hholds.test j).2 hj)
  have hmarks : (fun j => (run n calls).test j = true) = (· ∈ marked calls) :=
    funext fun j => propext (hholds.test j)
  refine ⟨hholds.valid.summaryMatches, hholds.test, fun i => ?_, fun i hi => ?_⟩
  · have hnext := nextSet_isNext (i := i) hnpos hholds.valid
    rw [hmarks] at hnext
    exact ⟨hnext.eq (scanNext_isNext hlt), hnext⟩
  · have hprev := prevSet_isPrev hnpos hholds.valid hi
    rw [hmarks] at hprev
    exact ⟨hprev.eq scanPrev_isPrev, hprev⟩

/-- Three tiers, both sides of a word boundary, a word that drains and the position past the
end. -/
theorem run_scans_boundary :
    (run 4100 [.set 63, .set 64, .set 4099, .clear 64]).nextSet 4100 =
      scanNext 4100 (marked [.set 63, .set 64, .set 4099, .clear 64]) 4100 :=
  ((run_scans (by decide) (by decide)).2.2.1 4100).1

end OccupancyBitmap

end Core

end LowLatencyPipeline
