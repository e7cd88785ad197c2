import LowLatencyPipeline.Library.Quantile
import Mathlib.Algebra.Order.Floor.Semiring
import Mathlib.Data.Rat.Floor
import Mathlib.Tactic.NormNum

/-!
# Latency histograms

`common::Histogram`, a histogram of cycle counts with one bucket for every power of two, and
`delta_pct` of the dashboard, which reads percentiles off the difference of two snapshots. The
counters are natural numbers, since no run records `2 ^ 64` samples, and a percentile is a rational
number, whose rank is taken exactly.

* `Histogram.Counts`: the buckets count the samples; kept by `record` (`counts_record`), and by
  the difference of two snapshots (`counts_since`).
* **Percentiles** (`percentile_orderStat`): both report the upper edge of the bucket of the order
  statistic.
-/

namespace LowLatencyPipeline

namespace Common

open Quantile Finset

/-- `Histogram`. -/
structure Histogram where
  buckets : ℕ → ℕ := fun _ => 0
  count : ℕ := 0
  maxCycles : UInt64 := 0

/-- `UINT64_MAX`. -/
def CYCLES_MAX : UInt64 := 0xFFFFFFFFFFFFFFFF

/-- The bucket of a sample. -/
def bucketOf (cycles : UInt64) : ℕ :=
  if cycles = 0 then 0 else 63 - cycles.toBitVec.clz.toNat

/-- What `percentile_cycles` returns for a bucket. -/
def upperEdge (b : ℕ) : UInt64 := if b < 63 then 1 <<< UInt64.ofNat (b + 1) else CYCLES_MAX

namespace Histogram

variable (h : Histogram)

/-- `record`. -/
def record (cycles : UInt64) : Histogram where
  buckets := Function.update h.buckets (bucketOf cycles) (h.buckets (bucketOf cycles) + 1)
  count := h.count + 1
  maxCycles := if h.maxCycles < cycles then cycles else h.maxCycles

/-- `percentile_cycles`. -/
def percentileCycles (p : ℚ) : UInt64 :=
  if h.count = 0 then 0
  else
    match firstAbove h.buckets ⌊p * h.count⌋₊ 64 0 0 with
    | some b => upperEdge b
    | none => h.maxCycles

/-- The histogram that `delta_pct` makes of a snapshot and an earlier one. -/
def since (prev : Histogram) : Histogram where
  buckets := fun b => h.buckets b - prev.buckets b
  count := h.count - prev.count

/-- A histogram after some samples. -/
def ofSamples (samples : List UInt64) : Histogram := samples.foldl record {}

/-- The buckets count these samples. -/
structure Counts (samples : List UInt64) : Prop where
  buckets : ∀ b, h.buckets b = samples.countP (bucketOf · = b)
  count : h.count = samples.length

end Histogram

/-- The powers of two that a bucket covers; the first one has 0 too. -/
structure InBucket (b cycles : ℕ) : Prop where
  lower : b = 0 ∨ 2 ^ b ≤ cycles
  upper : cycles < 2 ^ (b + 1)

/-- `v` is the upper edge of the bucket of the sample with the rank of `p`, or 0 without samples. -/
def IsPercentile (samples : List UInt64) (p : ℚ) (v : UInt64) : Prop :=
  (samples = [] ∧ v = 0) ∨
    ∃ x b, orderStat (samples.map UInt64.toNat) ⌊p * samples.length⌋₊ = some x ∧ InBucket b x ∧
      v = upperEdge b

/-! ### Buckets -/

section Buckets

variable {b x : ℕ}

/-- The bucket of a sample is its binary logarithm. -/
theorem bucketOf_eq_log2 (cycles : UInt64) : bucketOf cycles = cycles.toNat.log2 := by
  unfold bucketOf
  split_ifs with hx
  · rw [hx]
    rfl
  · have hne : cycles.toBitVec ≠ 0 := fun h => hx (UInt64.toBitVec_inj.1 h)
    have hne' : cycles.toNat ≠ 0 := fun h => hx (UInt64.toNat_inj.1 h)
    have hclz : cycles.toBitVec.clz.toNat < 64 := BitVec.clz_lt_iff_ne_zero.2 hne
    have hbit := BitVec.getLsbD_true_clz_of_ne_zero (by decide) hne
    have hlt : cycles.toNat < 2 ^ (64 - cycles.toBitVec.clz.toNat) :=
      BitVec.toNat_lt_two_pow_sub_clz
    refine ((Nat.log2_eq_iff hne').2 ⟨Nat.ge_two_pow_of_testBit hbit, ?_⟩).symm
    rwa [show 63 - cycles.toBitVec.clz.toNat + 1 = 64 - cycles.toBitVec.clz.toNat by omega]

/-- A number is in the bucket of its logarithm. -/
theorem inBucket_log2 (x : ℕ) : InBucket x.log2 x := by
  refine ⟨?_, Nat.lt_log2_self⟩
  rcases Nat.eq_zero_or_pos x with rfl | hx
  · exact .inl rfl
  · exact .inr (Nat.log2_self_le hx.ne')

theorem log2_mono : Monotone Nat.log2 := fun x y hxy => by
  rcases Nat.eq_zero_or_pos x with rfl | hx
  · exact Nat.zero_le _
  · exact (Nat.le_log2 (hx.trans_le hxy).ne').2 ((Nat.log2_self_le hx.ne').trans hxy)

theorem log2_toNat_lt (cycles : UInt64) : cycles.toNat.log2 < 64 := by
  rcases Nat.eq_zero_or_pos cycles.toNat with hx | hx
  · rw [hx]
    decide
  · exact (Nat.log2_lt hx.ne').2 cycles.toNat_lt

end Buckets

namespace Histogram

variable {h prev : Histogram} {samples old new : List UInt64}

/-! ### What the counters count -/

theorem counts_empty : Counts {} [] := ⟨fun _ => rfl, rfl⟩

/-- `record` counts one more sample. -/
theorem counts_record (hc : h.Counts samples) (cycles : UInt64) :
    (h.record cycles).Counts (samples ++ [cycles]) where
  buckets b := by
    rw [List.countP_append, List.countP_singleton, record]
    by_cases hb : b = bucketOf cycles
    · subst hb
      simp [hc.buckets]
    · simp [hc.buckets, hb, Ne.symm hb]
  count := by
    rw [List.length_append, record, hc.count]
    rfl

/-- The counters of a run of samples. -/
theorem counts_ofSamples (samples : List UInt64) : (ofSamples samples).Counts samples := by
  induction samples using List.reverseRecOn with
  | nil => exact counts_empty
  | append_singleton samples cycles ih =>
    rw [ofSamples, List.foldl_append]
    exact counts_record ih cycles

/-- The difference of two snapshots counts what was recorded between them. -/
theorem counts_since (hc : h.Counts (old ++ new)) (hprev : prev.Counts old) :
    (h.since prev).Counts new where
  buckets b := by
    change h.buckets b - prev.buckets b = _
    rw [hc.buckets, hprev.buckets, List.countP_append, Nat.add_sub_cancel_left]
  count := by
    change h.count - prev.count = _
    rw [hc.count, hprev.count, List.length_append, Nat.add_sub_cancel_left]

/-- Every sample is in one of the buckets. -/
theorem sum_buckets (hc : h.Counts samples) : ∑ b ∈ range 64, h.buckets b = h.count := by
  have hall : ∀ x ∈ samples, decide (bucketOf x < 64) = true := fun x _ => by
    rw [bucketOf_eq_log2]
    exact decide_eq_true (log2_toNat_lt x)
  calc ∑ b ∈ range 64, h.buckets b = ∑ b ∈ range 64, samples.countP (bucketOf · = b) :=
        sum_congr rfl fun b _ => hc.buckets b
    _ = samples.countP (bucketOf · < 64) := sum_countP bucketOf samples 64
    _ = h.count := by rw [hc.count, List.countP_eq_length.2 hall]

/-! ### Percentiles -/

/-- The rank of a percentile below 1 is that of a sample. -/
theorem rank_lt {p : ℚ} {n : ℕ} (h0 : 0 ≤ p) (h1 : p < 1) (hn : n ≠ 0) : ⌊p * n⌋₊ < n := by
  have hpos : (0 : ℚ) < n := Nat.cast_pos.2 (Nat.pos_of_ne_zero hn)
  rw [Nat.floor_lt (mul_nonneg h0 hpos.le)]
  calc p * n < 1 * n := mul_lt_mul_of_pos_right h1 hpos
    _ = n := one_mul _

/-- A histogram that counts some samples reports their percentiles. -/
theorem isPercentile_percentileCycles (hc : h.Counts samples) {p : ℚ} (h0 : 0 ≤ p) (h1 : p < 1) :
    IsPercentile samples p (h.percentileCycles p) := by
  rw [percentileCycles, hc.count]
  split_ifs with hempty
  · exact .inl ⟨List.length_eq_zero_iff.1 hempty, rfl⟩
  · have hrank : ⌊p * samples.length⌋₊ < (samples.map UInt64.toNat).length := by
      rw [List.length_map]
      exact rank_lt h0 h1 hempty
    obtain ⟨x, hx⟩ := Option.isSome_iff_exists.1 (orderStat_isSome.2 hrank)
    have hbuckets : h.buckets = fun k => (samples.map UInt64.toNat).countP (Nat.log2 · = k) := by
      funext k
      rw [hc.buckets, List.countP_map]
      simp only [bucketOf_eq_log2]
      rfl
    have hlt : x.log2 < 64 := by
      obtain ⟨cycles, -, rfl⟩ := List.mem_map.1 (mem_of_orderStat hx)
      exact log2_toNat_lt cycles
    refine .inr ⟨x, x.log2, hx, inBucket_log2 x, ?_⟩
    rw [hbuckets, firstAbove_countP log2_mono hx hlt]

/-- **Percentiles.** The buckets of a histogram count its samples; `percentile_cycles` is the upper
edge of the bucket of the order statistic; and so it is, of the samples recorded in between, for
the difference of two snapshots. -/
theorem percentile_orderStat (samples : List UInt64) {p : ℚ} (h0 : 0 ≤ p) (h1 : p < 1) :
    ∑ b ∈ range 64, (ofSamples samples).buckets b = (ofSamples samples).count ∧
      (ofSamples samples).count = samples.length ∧
      IsPercentile samples p ((ofSamples samples).percentileCycles p) ∧
      ∀ old new, samples = old ++ new →
        IsPercentile new p (((ofSamples samples).since (ofSamples old)).percentileCycles p) := by
  have hc := counts_ofSamples samples
  refine ⟨sum_buckets hc, hc.count, isPercentile_percentileCycles hc h0 h1, ?_⟩
  rintro old new rfl
  exact isPercentile_percentileCycles (counts_since hc (counts_ofSamples old)) h0 h1

/-- The median of three samples, and of the last one. -/
theorem percentile_orderStat_three :
    IsPercentile [3, 0, 100] (1 / 2) 4 ∧ IsPercentile [100] (1 / 2) 128 := by
  have hall : (ofSamples [3, 0, 100]).percentileCycles (1 / 2) = 4 := by decide +kernel
  have hlast :
      ((ofSamples [3, 0, 100]).since (ofSamples [3, 0])).percentileCycles (1 / 2) = 128 := by
    decide +kernel
  obtain ⟨-, -, hp, hdelta⟩ := percentile_orderStat [3, 0, 100] (by norm_num : (0 : ℚ) ≤ 1 / 2)
    (by norm_num)
  exact ⟨hall ▸ hp, hlast ▸ hdelta [3, 0] [100] rfl⟩

end Histogram

end Common

end LowLatencyPipeline
