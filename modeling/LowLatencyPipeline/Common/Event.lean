import LowLatencyPipeline.Common.Messages

/-!
# Events

`common::Event` of `common/event.hpp`, which the parser fills and the core applies. Only some of
its fields mean anything for a message type; the others keep what the ring slot held before.
-/

namespace LowLatencyPipeline

/-- A ticker, padded with blanks. -/
abbrev Symbol := Vector UInt8 8

/-- `common::Event`. -/
structure Event where
  messageType : Char
  stockLocate : UInt16
  trackingNumber : UInt16
  timestamp : UInt64
  orderRefNumber : UInt64
  side : Side
  shares : UInt32
  stock : Symbol
  price : UInt32
  matchNumber : UInt64
  newOrderRefNumber : UInt64
  tscIn : UInt64
  deriving DecidableEq

/-- An event in zero-initialised storage. -/
def Event.zero : Event where
  messageType := Char.ofNat 0
  stockLocate := 0
  trackingNumber := 0
  timestamp := 0
  orderRefNumber := 0
  side := .sell
  shares := 0
  stock := .replicate 8 0
  price := 0
  matchNumber := 0
  newOrderRefNumber := 0
  tscIn := 0

end LowLatencyPipeline
