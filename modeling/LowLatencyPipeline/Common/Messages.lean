import Mathlib.Data.UInt

/-!
# Sides, order requests and execution reports

The wire records of `common/event.hpp` and `common/ipc/order_msgs.hpp` that exec and its router
exchange. Prices and quantities are `int64_t` ticks and lots; they are kept as integers, and
whatever the code computes from them is cut to its machine width where it is computed.
-/

namespace LowLatencyPipeline

/-- `common::Side`. -/
inductive Side
  | sell
  | buy
  deriving DecidableEq, Repr

/-- `oe::ReqType`. -/
inductive ReqType
  | new
  | cancel
  | replace
  | cancelAll
  deriving DecidableEq, Repr

/-- `oe::OrdType`. -/
inductive OrdType
  | limit
  | market
  deriving DecidableEq, Repr

/-- `oe::Tif`. -/
inductive Tif
  | gtc
  | ioc
  | fok
  | postOnly
  deriving DecidableEq, Repr

/-- `oe::OrderRequest`. -/
structure OrderRequest where
  clOrdId : UInt64
  origClOrdId : UInt64
  tscDecision : UInt64
  strategyTag : UInt64
  price : ℤ
  qty : ℤ
  instrument : UInt16
  type : ReqType
  side : Side
  ordType : OrdType
  tif : Tif
  deriving DecidableEq

/-- `oe::ExecType`. -/
inductive ExecType
  | ack
  | reject
  | partialFill
  | fill
  | canceled
  | cancelReject
  | replaced
  | expired
  | restated
  deriving DecidableEq, Repr

/-- `oe::OrdStatus`. -/
inductive OrdStatus
  | pendingNew
  | new
  | partiallyFilled
  | filled
  | canceled
  | rejected
  | expired
  deriving DecidableEq, Repr

/-- `oe::ExecReport`, as far as exec and the null router write or read it. -/
structure ExecReport where
  clOrdId : UInt64
  origClOrdId : UInt64 := 0
  strategyTag : UInt64 := 0
  tscSent : UInt64 := 0
  tscRecv : UInt64 := 0
  lastPx : ℤ := 0
  lastQty : ℤ := 0
  leavesQty : ℤ := 0
  fee : ℤ := 0
  instrument : UInt16 := 0
  execType : ExecType
  ordStatus : OrdStatus := .pendingNew
  /-- `fee_ccy == 1`: the fee is charged in the base asset -/
  feeInBase : Bool := false
  deriving DecidableEq

/-- Whether a report is of a fill. -/
def ExecReport.IsFill (rep : ExecReport) : Prop :=
  rep.execType = .partialFill ∨ rep.execType = .fill

instance (rep : ExecReport) : Decidable rep.IsFill := inferInstanceAs (Decidable (_ ∨ _))

end LowLatencyPipeline
