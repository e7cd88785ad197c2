import Mathlib.Data.Rat.Defs
import LowLatencyPipeline.Common.MarketData
import LowLatencyPipeline.Library.WrapInt

/-!
# Exec's market view

`MarketView` of `exec/market_view.hpp`, fed one frame at a time. The `double` statistics are
read over the rationals, and the frame counters are natural numbers.
-/

namespace LowLatencyPipeline

namespace Exec

/-- `VOL_ALPHA`. -/
def VOL_ALPHA : ℚ := 1 / 100

/-- `MarketView`. -/
structure MarketView where
  u : MarketUpdate := .zero
  prevMid : ℚ := 0
  var : ℚ := 0
  haveMid : Bool := false
  haveSeq : Bool := false
  feedReset : Bool := false
  frameGaps : ℕ := 0

namespace MarketView

variable (v : MarketView)

/-- `two_sided`. -/
def twoSided : Bool := 0 < v.u.nb ∧ 0 < v.u.na

/-- `best_bid`. -/
def bestBid : ℤ := v.u.bestBid

/-- `best_ask`. -/
def bestAsk : ℤ := v.u.bestAsk

/-- `bid_size`. -/
def bidSize : ℤ := if 0 < v.u.nb then (v.u.bids 0).qty else 0

/-- `ask_size`. -/
def askSize : ℤ := if 0 < v.u.na then (v.u.asks 0).qty else 0

/-- `mid`. -/
def mid : ℚ := (v.u.bestBid + v.u.bestAsk : ℚ) / 2

/-- `mid2`: bid + ask in ticks, 0 unless two-sided. -/
def mid2 : ℤ := if v.twoSided then wrap 64 (v.u.bestBid + v.u.bestAsk) else 0

/-- `microprice`: each price weighted by the size of the other side. -/
def microprice : ℚ :=
  let bq : ℚ := (v.u.bids 0).qty
  let aq : ℚ := (v.u.asks 0).qty
  let q := bq + aq
  if 0 < q then (v.u.bestBid * aq + v.u.bestAsk * bq) / q else v.mid

/-- The sum of the sizes of the first `n` levels. -/
def totalQty (levels : ℕ → Level) (n : ℕ) : ℤ :=
  (List.range n).foldl (fun sum i => wrap 64 (sum + (levels i).qty)) 0

/-- `imbalance`, over the levels that count. -/
def imbalance : ℚ :=
  let bq : ℚ := totalQty v.u.bids v.u.nb
  let aq : ℚ := totalQty v.u.asks v.u.na
  let tot := bq + aq
  if 0 < tot then (bq - aq) / tot else 0

/-- `realized_vol`, over the square root of the machine. -/
def realizedVol (sqrt : ℚ → ℚ) : ℚ := sqrt v.var

/-- `bid_depth`. -/
def bidDepth : ℕ := v.u.nb

/-- `ask_depth`. -/
def askDepth : ℕ := v.u.na

/-- `bid_level`. -/
def bidLevel (i : ℕ) : Level := v.u.bids i

/-- `ask_level`. -/
def askLevel (i : ℕ) : Level := v.u.asks i

/-- `last_was_trade`. -/
def lastWasTrade : Bool := v.u.tradeQty ≠ 0

/-- `trade_price`. -/
def tradePrice : ℤ := v.u.tradePrice

/-- `trade_qty`. -/
def tradeQty : ℤ := v.u.tradeQty

/-- `trade_side`. -/
def tradeSide : Side := v.u.tradeSide

/-- `event_seq`. -/
def eventSeq : ℕ := v.u.eventSeq

/-- `event_time_ns`. -/
def eventTimeNs : UInt64 := v.u.eventTime

/-- `instrument`. -/
def instrument : UInt16 := v.u.instrument

/-- `flags`. -/
def flags : UInt8 := v.u.flags

/-- The gap check of `on_update`: the frames lost and whether the view was interrupted. -/
def checkSeq (u : MarketUpdate) : MarketView :=
  let expected := v.u.eventSeq + 1
  let gap : Bool := v.haveSeq && u.eventSeq ≠ expected
  let reset : Bool := u.flags &&& FEED_RESET ≠ 0 || gap
  { v with
    frameGaps := if gap && expected < u.eventSeq then v.frameGaps + (u.eventSeq - expected)
      else v.frameGaps
    feedReset := reset
    haveSeq := true
    haveMid := v.haveMid && !reset }

/-- The mid statistics of `on_update`. -/
def trackMid : MarketView :=
  if v.twoSided then
    let m := v.mid
    let dm := m - v.prevMid
    { v with
      var := if v.haveMid then (1 - VOL_ALPHA) * v.var + VOL_ALPHA * dm * dm else v.var
      prevMid := m
      haveMid := true }
  else v

/-- `on_update`. -/
def onUpdate (u : MarketUpdate) : MarketView := { v.checkSeq u with u := u }.trackMid

end MarketView

end Exec

end LowLatencyPipeline
