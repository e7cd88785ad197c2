import LowLatencyPipeline.Common.Messages

/-!
# Instruments and market-data frames

The reference data of `common/ipc/instrument.hpp` and the frame of
`common/ipc/market_update.hpp` that the feed producer publishes to exec. The level arrays of a
frame are functions of the position; only the first `nb` and `na` of them count.

The producer's event counter is a natural number: 2^64 events are out of reach.
-/

namespace LowLatencyPipeline

/-- `ref::InstrumentStatus`. -/
inductive InstrumentStatus
  | online
  | postOnly
  | limitOnly
  | cancelOnly
  | halted
  deriving DecidableEq, Repr

/-- `ref::Instrument`: price = ticks * tickMant * 10^tickExp, likewise for lots. -/
structure Instrument where
  tickMant : ℤ
  lotMant : ℤ
  minQtyLots : ℤ
  minNotional : ℤ
  tickExp : ℤ
  lotExp : ℤ
  status : InstrumentStatus
  deriving DecidableEq

/-- `exec::Level`. -/
structure Level where
  price : ℤ
  qty : ℤ
  orderCount : UInt32
  deriving DecidableEq

/-! ### Frame flags -/

def TWO_SIDED : UInt8 := 1
def FEED_RESET : UInt8 := 4
def LAST_IN_BATCH : UInt8 := 8
def CROSS : UInt8 := 16

def EMPTY_BID : ℤ := 0
def EMPTY_ASK : ℤ := 2 ^ 63 - 1

def EXEC_DEPTH : ℕ := 10

/-- `exec::MarketUpdate<EXEC_DEPTH>`. -/
structure MarketUpdate where
  eventSeq : ℕ
  eventTime : UInt64
  tscIn : UInt64
  bestBid : ℤ
  bestAsk : ℤ
  tradePrice : ℤ
  tradeQty : ℤ
  instrument : UInt16
  tradeSide : Side
  flags : UInt8
  nb : ℕ
  na : ℕ
  bids : ℕ → Level
  asks : ℕ → Level

/-- A frame in zero-initialised storage. -/
def MarketUpdate.zero : MarketUpdate where
  eventSeq := 0
  eventTime := 0
  tscIn := 0
  bestBid := 0
  bestAsk := 0
  tradePrice := 0
  tradeQty := 0
  instrument := 0
  tradeSide := .sell
  flags := 0
  nb := 0
  na := 0
  bids := fun _ => ⟨0, 0, 0⟩
  asks := fun _ => ⟨0, 0, 0⟩

end LowLatencyPipeline
