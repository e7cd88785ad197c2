import LowLatencyPipeline.Exec.Account
import LowLatencyPipeline.Exec.OrderTable
import LowLatencyPipeline.Exec.RateModel

/-!
# The pre-trade risk gate

`RiskGate` of `exec/risk.hpp`. The checks run in the source's order and the first one that
fails names its reason: a check is an `Except RejectReason Unit`, with `ok` for
`RejectReason::None`.
-/

namespace LowLatencyPipeline

namespace Exec

/-- `RejectReason`; `None` is an accepted request. -/
inductive RejectReason
  | kill
  | pause
  | notTraded
  | notAllowed
  | instrumentStatus
  | badOrder
  | minQty
  | minNotional
  | maxOrderQty
  | maxOrderNotional
  | maxPosition
  | maxPositionNotional
  | maxOpenOrders
  | priceBand
  | insufficientBase
  | insufficientQuote
  | rateLimit
  | openOrderLimit
  | unknownOrder
  | tableFull
  | ringFull
  deriving DecidableEq, Repr

/-! ### Control flags -/

def KILL : UInt32 := 2
def PAUSE : UInt32 := 4
def SWAP : UInt32 := 8

/-- `RiskLimits`; 0 disables a check. -/
structure RiskLimits where
  maxOrderQty : ℤ := 0
  maxOrderNotional : ℤ := 0
  maxPosition : ℤ := 0
  maxPositionNotional : ℤ := 0
  maxOpenOrders : ℕ := 0
  priceBandBp : ℚ := 0
  spotOnly : Bool := true

/-- `OrderCheck`. -/
structure OrderCheck where
  instrument : UInt16
  side : Side
  ordType : OrdType
  tif : Tif
  px : ℤ
  qty : ℤ
  mid2 : ℤ
  nowNs : ℤ

/-- `RiskGate`. -/
structure RiskGate where
  lim : RiskLimits
  allowedInst : UInt16 → Bool

/-- `if (c) return r;` -/
def rejectIf (c : Prop) [Decidable c] (r : RejectReason) : Except RejectReason Unit :=
  if c then .error r else .ok ()

@[simp]
theorem rejectIf_eq_ok {c : Prop} [Decidable c] {r : RejectReason} {u : Unit} :
    rejectIf c r = .ok u ↔ ¬ c := by
  by_cases h : c <;> simp [rejectIf, h]

/-- A sequence of checks passes when each of them does. -/
theorem check_bind_eq_ok {β : Type} {x : Except RejectReason Unit}
    {f : Unit → Except RejectReason β} {b : β} :
    (x >>= f) = .ok b ↔ x = .ok () ∧ f () = .ok b := by
  cases x with
  | error e => simp [bind, Except.bind]
  | ok a => simp [bind, Except.bind]

namespace RiskGate

variable (g : RiskGate)

/-- `status_check`. -/
def statusCheck (o : OrderCheck) (inst : Instrument) : Except RejectReason Unit :=
  match inst.status with
  | .online => .ok ()
  | .postOnly => rejectIf (o.tif ≠ .postOnly) .instrumentStatus
  | .limitOnly => rejectIf (o.ordType ≠ .limit) .instrumentStatus
  | .cancelOnly | .halted => .error .instrumentStatus

/-- The position if every open order on the order's side filled, plus this one. -/
def worstPosition (inst : UInt16) (side : Side) (addQty : ℤ) (acct : Account)
    (orders : OrderTable) : ℤ :=
  let pos := (acct.position inst).qty
  match side with
  | .buy => wrap 64 (wrap 64 (pos + orders.openLots .buy inst) + addQty)
  | .sell => wrap 64 (wrap 64 (pos - orders.openLots .sell inst) - addQty)

/-- `position_check`. -/
def positionCheck (inst : UInt16) (side : Side) (addQty px : ℤ) (acct : Account)
    (orders : OrderTable) : Except RejectReason Unit := do
  if g.lim.maxPosition = 0 ∧ g.lim.maxPositionNotional = 0 then return ()
  let worst := worstPosition inst side addQty acct orders
  let absWorst := if worst < 0 then wrap 64 (-worst) else worst
  rejectIf (g.lim.maxPosition ≠ 0 ∧ g.lim.maxPosition < absWorst) .maxPosition
  rejectIf (g.lim.maxPositionNotional ≠ 0 ∧
    g.lim.maxPositionNotional < acct.notional inst px absWorst) .maxPositionNotional

/-- `band_check`. -/
def bandCheck (px mid2 : ℤ) : Except RejectReason Unit := do
  if g.lim.priceBandBp ≤ 0 ∨ px ≤ 0 ∨ mid2 ≤ 0 then return ()
  let mid : ℚ := mid2 / 2
  let devBp := (px - mid) / mid * 10000
  rejectIf (g.lim.priceBandBp < devBp ∨ devBp < -g.lim.priceBandBp) .priceBand

/-- The reason for too little of the asset an order locks. -/
def insufficient : Side → RejectReason
  | .buy => .insufficientQuote
  | .sell => .insufficientBase

/-- `check_new`. -/
def checkNew (o : OrderCheck) (inst : Instrument) (acct : Account) (orders : OrderTable)
    (rate : RateModel) (control : UInt32) : Except RejectReason Unit := do
  rejectIf (control &&& KILL ≠ 0) .kill
  rejectIf (control &&& PAUSE ≠ 0) .pause
  rejectIf (¬ acct.trades o.instrument) .notTraded
  rejectIf (¬ g.allowedInst o.instrument) .notAllowed
  statusCheck o inst
  rejectIf (o.qty ≤ 0 ∨ o.ordType = .limit ∧ o.px ≤ 0) .badOrder
  let refPx := if 0 < o.px then o.px else o.mid2.tdiv 2
  rejectIf (0 < inst.minQtyLots ∧ o.qty < inst.minQtyLots) .minQty
  let notional := acct.notional o.instrument refPx o.qty
  rejectIf (0 < inst.minNotional ∧ notional < inst.minNotional) .minNotional
  rejectIf (g.lim.maxOrderQty ≠ 0 ∧ g.lim.maxOrderQty < o.qty) .maxOrderQty
  rejectIf (g.lim.maxOrderNotional ≠ 0 ∧ g.lim.maxOrderNotional < notional) .maxOrderNotional
  g.positionCheck o.instrument o.side o.qty refPx acct orders
  rejectIf (g.lim.maxOpenOrders ≠ 0 ∧ g.lim.maxOpenOrders ≤ orders.size) .maxOpenOrders
  rejectIf (rate.enabled ∧ rate.params.maxOpen ≤ orders.liveCount o.instrument) .openOrderLimit
  g.bandCheck o.px o.mid2
  rejectIf (g.lim.spotOnly ∧ (acct.sideBalance o.instrument o.side).available <
    acct.reservation o.instrument o.side refPx o.qty) (insufficient o.side)
  rejectIf (¬ rate.wouldAllow o.instrument .add 0 o.nowNs) .rateLimit

/-- The age of an order for the rate counter: 0 until it is acked. -/
def orderAge (row : OrderRow) (nowNs : ℤ) : ℤ :=
  if row.tAckNs ≠ 0 then wrap 64 (nowNs - row.tAckNs) else 0

/-- `check_replace`: an amend of a live order to `px` and the new total `qty`. -/
def checkReplace (row : OrderRow) (px qty mid2 nowNs : ℤ) (inst : Instrument) (acct : Account)
    (orders : OrderTable) (rate : RateModel) (control : UInt32) : Except RejectReason Unit := do
  rejectIf (control &&& KILL ≠ 0) .kill
  rejectIf (control &&& PAUSE ≠ 0) .pause
  rejectIf (inst.status = .halted ∨ inst.status = .cancelOnly) .instrumentStatus
  rejectIf (qty ≤ row.cum ∨ px ≤ 0) .badOrder
  rejectIf (0 < inst.minQtyLots ∧ qty < inst.minQtyLots) .minQty
  let notional := acct.notional row.instrument px qty
  rejectIf (g.lim.maxOrderQty ≠ 0 ∧ g.lim.maxOrderQty < qty) .maxOrderQty
  rejectIf (g.lim.maxOrderNotional ≠ 0 ∧ g.lim.maxOrderNotional < notional) .maxOrderNotional
  let newLeaves := wrap 64 (qty - row.cum)
  (if row.leaves < newLeaves then
    g.positionCheck row.instrument row.side (wrap 64 (newLeaves - row.leaves)) px acct orders
  else .ok ())
  g.bandCheck px mid2
  let held := acct.reservation row.instrument row.side row.px row.leaves
  let need := acct.reservation row.instrument row.side px newLeaves
  rejectIf (g.lim.spotOnly ∧ (acct.sideBalance row.instrument row.side).available <
    wrap 64 (need - held)) (insufficient row.side)
  rejectIf (¬ rate.wouldAllow row.instrument .amend (orderAge row nowNs) nowNs) .rateLimit

/-! ### What an accepted request has passed -/

section Accepted

variable {g : RiskGate}

theorem fits_worstPosition (inst : UInt16) (side : Side) (addQty : ℤ) (acct : Account)
    (orders : OrderTable) : Fits 64 (worstPosition inst side addQty acct orders) := by
  cases side <;> exact fits_wrap (by omega) _

/-- A passed position check bounds the worst case (unless its absolute value overflows). -/
theorem positionCheck_ok {inst : UInt16} {side : Side} {addQty px : ℤ} {acct : Account}
    {orders : OrderTable} (h : g.positionCheck inst side addQty px acct orders = .ok ())
    (hlim : g.lim.maxPosition ≠ 0)
    (hmin : -2 ^ 63 < worstPosition inst side addQty acct orders) :
    |worstPosition inst side addQty acct orders| ≤ g.lim.maxPosition := by
  rw [positionCheck, if_neg (fun h0 => hlim h0.1)] at h
  simp only [check_bind_eq_ok, rejectIf_eq_ok, not_and, not_lt] at h
  obtain ⟨hpos, -⟩ := h
  have hle := hpos hlim
  have hfits := fits_worstPosition inst side addQty acct orders
  generalize worstPosition inst side addQty acct orders = w at *
  split_ifs at hle with hw
  · rw [wrap_eq_self (by omega) ⟨by omega, by omega⟩] at hle
    rwa [abs_of_neg hw]
  · rwa [abs_of_nonneg (by omega)]

/-- What a new order that passes the gate satisfies. -/
structure NewOk (g : RiskGate) (o : OrderCheck) (acct : Account) (orders : OrderTable) : Prop where
  trades : acct.trades o.instrument = true
  qty_pos : 0 < o.qty
  px_pos : o.ordType = .limit → 0 < o.px
  position : g.positionCheck o.instrument o.side o.qty (if 0 < o.px then o.px else o.mid2.tdiv 2)
    acct orders = .ok ()
  funds : g.lim.spotOnly = true → acct.reservation o.instrument o.side
    (if 0 < o.px then o.px else o.mid2.tdiv 2) o.qty ≤
      (acct.sideBalance o.instrument o.side).available

theorem checkNew_ok {o : OrderCheck} {inst : Instrument} {acct : Account} {orders : OrderTable}
    {rate : RateModel} {control : UInt32}
    (h : g.checkNew o inst acct orders rate control = .ok ()) : NewOk g o acct orders := by
  simp only [checkNew, check_bind_eq_ok, rejectIf_eq_ok, not_not] at h
  obtain ⟨-, -, htrades, -, -, hbad, -, -, -, -, hpos, -, -, -, hfunds, -⟩ := h
  push Not at hbad
  exact ⟨htrades, hbad.1, hbad.2, hpos, fun hspot => not_lt.mp fun hlt => hfunds ⟨hspot, hlt⟩⟩

/-- What an amend that passes the gate satisfies. -/
structure ReplaceOk (g : RiskGate) (row : OrderRow) (px qty : ℤ) (acct : Account)
    (orders : OrderTable) : Prop where
  cum_lt : row.cum < qty
  px_pos : 0 < px
  position : row.leaves < wrap 64 (qty - row.cum) → g.positionCheck row.instrument row.side
    (wrap 64 (wrap 64 (qty - row.cum) - row.leaves)) px acct orders = .ok ()
  funds : g.lim.spotOnly = true → wrap 64
    (acct.reservation row.instrument row.side px (wrap 64 (qty - row.cum)) -
      acct.reservation row.instrument row.side row.px row.leaves) ≤
        (acct.sideBalance row.instrument row.side).available

theorem checkReplace_ok {row : OrderRow} {px qty mid2 nowNs : ℤ} {inst : Instrument}
    {acct : Account} {orders : OrderTable} {rate : RateModel} {control : UInt32}
    (h : g.checkReplace row px qty mid2 nowNs inst acct orders rate control = .ok ()) :
    ReplaceOk g row px qty acct orders := by
  simp only [checkReplace, check_bind_eq_ok, rejectIf_eq_ok] at h
  obtain ⟨-, -, -, hbad, -, -, -, hpos, -, hfunds, -⟩ := h
  push Not at hbad
  refine ⟨hbad.1, hbad.2, fun hgrow => ?_, fun hspot => not_lt.mp fun hlt => hfunds ⟨hspot, hlt⟩⟩
  rwa [if_pos hgrow] at hpos

end Accepted

end RiskGate

end Exec

end LowLatencyPipeline
