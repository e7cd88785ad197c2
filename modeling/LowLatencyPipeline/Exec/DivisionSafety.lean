import LowLatencyPipeline.Exec.Assets
import LowLatencyPipeline.Exec.Engine
import LowLatencyPipeline.Library.Checked

/-!
# Divisions by zero

`apply_report` and the reads of the account once more, with every division checked: a function
whose name ends in `?` is none where a division of the original would have the divisor zero, and
else what the original is. Two divisors may be zero: the power of ten in `tl_to_money`, which
wraps to zero from `10 ^ 128` on, and the product of lots and base units per lot in the fee of a
fill, where only the second factor is looked at.

* **Divisions** (`divides_safely_iff`): in every state that reports with any field values lead to,
  reading the account and applying a report divide by zero exactly if an instrument has such a
  scale, or the report is a fill of no lots with a fee in base units.
-/

namespace LowLatencyPipeline

namespace Exec

universe u

/-! ### The account with checked divisions -/

/-- `tl_to_money`. -/
def Inst.tlToMoney? (i : Inst) (tickLots : ℤ) : Option ℤ :=
  let v := wrap 128 (tickLots * i.tlMul)
  if 0 ≤ i.tlExp then some (wrap 64 (wrap 128 (v * pow10I128 i.tlExp.toNat)))
  else (divide v (pow10I128 (-i.tlExp).toNat)).map (wrap 64)

/-- The first half of the average-cost update of `on_fill`. -/
def Position.reduce? (p : Position) (px signedQty : ℤ) : Option (Position × ℤ) :=
  if p.qty ≠ 0 ∧ ¬ (0 < p.qty ↔ 0 < signedQty) then
    let openAbs := if 0 < p.qty then p.qty else wrap 64 (-p.qty)
    let restAbs := if 0 < signedQty then signedQty else wrap 64 (-signedQty)
    let r := if restAbs < openAbs then restAbs else openAbs
    (divide (wrap 128 (p.cost * r)) openAbs).map fun removed =>
      let sgn : ℤ := if 0 < p.qty then 1 else -1
      let qty := wrap 64 (if 0 < p.qty then p.qty - r else p.qty + r)
      let cost := if qty = 0 then 0 else wrap 128 (p.cost - removed)
      ({ p with realized := wrap 128 (p.realized + (sgn * px * r - removed)), cost, qty },
        wrap 64 (if 0 < signedQty then signedQty - r else signedQty + r))
  else some (p, signedQty)

/-- The average-cost update of `on_fill`. -/
def Position.trade? (p : Position) (px signedQty : ℤ) : Option Position :=
  (p.reduce? px signedQty).map fun (p, rest) =>
    if rest ≠ 0 then { p with cost := wrap 128 (p.cost + px * rest), qty := wrap 64 (p.qty + rest) }
    else p

namespace Account

variable (a : Account)

/-- `notional`. -/
def notional? (inst : UInt16) (px qty : ℤ) : Option ℤ :=
  (a.inst inst).tlToMoney? (wrap 128 (px * qty))

/-- `reservation`. -/
def reservation? (inst : UInt16) (side : Side) (px qty : ℤ) : Option ℤ :=
  match side with
  | .buy => a.notional? inst px qty
  | .sell => some (a.baseUnits inst qty)

/-- `reserve`. -/
def reserve? (inst : UInt16) (side : Side) (px qty : ℤ) : Option Account :=
  (a.reservation? inst side px qty).map fun funds =>
    a.setBal (a.sideAsset inst side) fun b => { b with reserved := wrap 64 (b.reserved + funds) }

/-- `release`. -/
def release? (inst : UInt16) (side : Side) (px qty : ℤ) : Option Account :=
  (a.reservation? inst side px qty).map fun funds =>
    a.setBal (a.sideAsset inst side) fun b => { b with reserved := wrap 64 (b.reserved - funds) }

/-- The balances after an execution. -/
def settle? (inst : UInt16) (side : Side) (px qty orderPx : ℤ) : Option Account := do
  let a ← a.release? inst side orderPx qty
  let base := a.baseUnits inst qty
  let value ← a.notional? inst px qty
  match side with
  | .buy => return (a.credit (a.inst inst).base base).credit (a.inst inst).quote (-value)
  | .sell => return (a.credit (a.inst inst).base (-base)).credit (a.inst inst).quote value

/-- The fee of an execution worth `value`. -/
def chargeFee? (inst : UInt16) (qty value fee : ℤ) (feeInBase : Bool) : Option Account := do
  let i := a.inst inst
  if feeInBase then
    let inQuote ← if i.basePerLot ≠ 0
      then (divide (wrap 128 (fee * value)) (wrap 128 (qty * i.basePerLot))).map (wrap 64)
      else some 0
    return (a.credit i.base (-fee)).setPos inst fun p => p.addFee inQuote
  else return (a.credit i.quote (-fee)).setPos inst fun p => p.addFee fee

/-- `realized`. -/
def realized? (inst : UInt16) : Option ℤ := (a.inst inst).tlToMoney? (a.position inst).realized

/-- `unrealized`. -/
def unrealized? (inst : UInt16) : Option ℤ :=
  let p := a.position inst
  if p.mark2 = 0 ∨ p.qty = 0 then some 0
  else (a.inst inst).tlToMoney? ((wrap 128 (p.qty * p.mark2 - 2 * p.cost)).tdiv 2)

/-- `equity`. -/
def equity? : Option ℤ := do
  let parts ← a.ids.mapM fun i => do
    return (← a.realized? i) + (← a.unrealized? i) - (a.position i).fees
  return wrap 64 parts.sum

/-- `track_equity`. -/
def trackEquity? : Option Account := do
  let e ← a.equity?
  let peak := if a.peak < e then e else a.peak
  let maxDd := if a.maxDd < wrap 64 (peak - e) then wrap 64 (peak - e) else a.maxDd
  return { a with peak, maxDd }

/-- `on_fill`. -/
def onFill? (inst : UInt16) (side : Side) (px qty orderPx fee : ℤ) (feeInBase : Bool) :
    Option Account := do
  let value ← a.notional? inst px qty
  let a ← a.settle? inst side px qty orderPx
  let a := a.setPos inst fun p => p.count side qty
  let a ← a.chargeFee? inst qty value fee feeInBase
  let p ← (a.position inst).trade? px (signedQty side qty)
  (a.setPos inst fun _ => p).trackEquity?

/-- `avg_px`. -/
def avgPx? (inst : UInt16) : Option ℤ :=
  let p := a.position inst
  if p.qty ≠ 0 then (divide p.cost p.qty).map (wrap 64) else some 0

end Account

/-- A row of `stats::PositionStats`, as far as the account writes it. -/
structure PositionRow where
  instrument : UInt16
  qtyLots : ℤ
  avgPxTicks : ℤ
  realizedPnl : ℤ
  unrealizedPnl : ℤ
  fees : ℤ
  bought : ℤ
  sold : ℤ
  peakEquity : ℤ
  maxDrawdown : ℤ
  fills : ℕ
  deriving DecidableEq

namespace Account

variable (a : Account)

/-- The row of an instrument in `snapshot`, with what is divided for it. -/
def positionRow (inst : UInt16) (avgPx realized unrealized : ℤ) : PositionRow where
  instrument := inst
  qtyLots := (a.position inst).qty
  avgPxTicks := avgPx
  realizedPnl := realized
  unrealizedPnl := unrealized
  fees := (a.position inst).fees
  bought := (a.position inst).bought
  sold := (a.position inst).sold
  peakEquity := a.peak
  maxDrawdown := a.maxDd
  fills := (a.position inst).fills

/-- `snapshot` of the positions. -/
def snapshot : List PositionRow :=
  a.ids.map fun i => a.positionRow i (a.avgPx i) (a.realized i) (a.unrealized i)

/-- `snapshot` of the positions. -/
def snapshot? : Option (List PositionRow) :=
  a.ids.mapM fun i => do
    return a.positionRow i (← a.avgPx? i) (← a.realized? i) (← a.unrealized? i)

end Account

/-! ### Reports with checked divisions -/

namespace ExecContext

variable (x : ExecContext)

/-- `finish`. -/
def finish? (row : OrderRow) : Option ExecContext := do
  let account ← x.account.release? row.instrument row.side row.px row.leaves
  return { x with account, orders := x.orders.erase row.id }

/-- `PartialFill` and `Fill`. -/
def applyFill? (row : OrderRow) (rep : ExecReport) : Option ExecContext := do
  let account ← x.account.onFill? row.instrument row.side rep.lastPx rep.lastQty row.px rep.fee
    rep.feeInBase
  let row' := filledRow row rep
  let orders := x.orders.modify row.id (addCum rep.lastQty)
  let orders := orders.setLeaves row.id row'.leaves
  let orders := orders.modify row.id (setStatus row'.status)
  let x := { x with account, orders, st := { x.st with fills := x.st.fills + 1 } }
  if row'.leaves = 0 then x.finish? row' else return x

/-- `Replaced`. -/
def applyReplaced? (row : OrderRow) : Option ExecContext := do
  let row' := replacedRow row
  let account ← x.account.release? row.instrument row.side row.px row.leaves
  let orders := x.orders.modify row.id setTerms
  let orders := orders.setLeaves row.id row'.leaves
  let account ← account.reserve? row.instrument row.side row'.px row'.leaves
  let orders := orders.modify row.id clearReplace
  return { x with account, orders, st := { x.st with replaced := x.st.replaced + 1 } }

/-- `apply_report`. -/
def applyReport? (rep : ExecReport) : Option ExecContext :=
  match x.orders.find rep.clOrdId with
  | none => some { x with st := { x.st with unsolicited := x.st.unsolicited + 1 } }
  | some row =>
    match rep.execType with
    | .ack => some (x.applyAck row)
    | .partialFill | .fill => x.applyFill? row rep
    | .replaced => x.applyReplaced? row
    | .canceled => { x with st := { x.st with canceled := x.st.canceled + 1 } }.finish? row
    | .expired => { x with st := { x.st with expired := x.st.expired + 1 } }.finish? row
    | .reject => { x with st := { x.st with venueRejects := x.st.venueRejects + 1 } }.finish? row
    | .cancelReject => some (x.applyCancelReject row)
    | .restated => some x

end ExecContext

/-! ### Divisors -/

/-- A power of ten wraps to zero from `10 ^ 128` on. -/
theorem pow10I128_eq_zero_iff {n : ℕ} : pow10I128 n = 0 ↔ 128 ≤ n := by
  rw [pow10I128, wrap_eq_iff (by omega) ⟨by decide, by decide⟩, sub_zero]
  have hnat : (2 ^ 128 : ℕ) ∣ 10 ^ n ↔ 128 ≤ n := by
    have hcoprime : Nat.Coprime (2 ^ 128) (5 ^ n) := Nat.Coprime.pow 128 n (by decide)
    rw [show 10 = 2 * 5 from rfl, mul_pow, hcoprime.dvd_mul_right, Nat.pow_dvd_pow_iff_le_right']
  rw [← hnat]
  exact_mod_cast Int.natCast_dvd_natCast (m := 2 ^ 128) (n := 10 ^ n)

section Scale

variable {i : Inst} {t : ℤ}

theorem tlToMoney?_eq (h : -128 < i.tlExp) : i.tlToMoney? t = some (i.tlToMoney t) := by
  rw [Inst.tlToMoney?, Inst.tlToMoney]
  split_ifs with hexp
  · rfl
  · rw [divide_eq (fun hzero => absurd (pow10I128_eq_zero_iff.1 hzero) (by omega))]
    rfl

theorem isSome_tlToMoney? : (i.tlToMoney? t).isSome ↔ -128 < i.tlExp := by
  constructor
  · intro h
    by_contra hexp
    have hzero : pow10I128 (-i.tlExp).toNat = 0 := pow10I128_eq_zero_iff.2 (by omega)
    rw [Inst.tlToMoney?, if_neg (by omega), hzero, divide_zero] at h
    exact nomatch h
  · intro h
    rw [tlToMoney?_eq h]
    rfl

end Scale

section Position

variable {p : Position} {px d : ℤ}

/-- The open quantity divides only where it is not zero. -/
theorem reduce?_eq (h : Fits 64 p.qty) : p.reduce? px d = some (p.reduce px d) := by
  rw [Position.reduce?, Position.reduce]
  by_cases hopp : p.qty ≠ 0 ∧ ¬ (0 < p.qty ↔ 0 < d)
  · have hopen : (if 0 < p.qty then p.qty else wrap 64 (-p.qty)) ≠ 0 := by
      split_ifs with hpos
      · exact hpos.ne'
      · intro hzero
        have hdvd := (wrap_eq_iff (by omega) ⟨by decide, by decide⟩).1 hzero
        obtain ⟨hlow, -⟩ := h
        exact hopp.1 (by omega)
    rw [if_pos hopp, if_pos hopp]
    dsimp only
    rw [divide_eq hopen]
    rfl
  · rw [if_neg hopp, if_neg hopp]

theorem trade?_eq (h : Fits 64 p.qty) : p.trade? px d = some (p.trade px d) := by
  rw [Position.trade?, reduce?_eq h]
  rfl

/-- A trade leaves a 64-bit quantity. -/
theorem fits_trade (h : Fits 64 p.qty) : Fits 64 (p.trade px d).qty := by
  have hreduce : Fits 64 (p.reduce px d).1.qty := by
    rw [Position.reduce]
    by_cases hopp : p.qty ≠ 0 ∧ ¬ (0 < p.qty ↔ 0 < d)
    · rw [if_pos hopp]
      exact fits_wrap (by omega) _
    · rw [if_neg hopp]
      exact h
  rw [Position.trade]
  dsimp only
  split_ifs
  · exact fits_wrap (by omega) _
  · exact hreduce

end Position

/-! ### The account -/

/-- Every traded instrument has a scale whose power of ten does not wrap to zero. -/
def Account.Scaled (a : Account) : Prop := ∀ inst ∈ a.ids, -128 < (a.terms inst).tlExp

/-- What the divisors depend on, apart from the scales. -/
structure Account.Sound (a : Account) : Prop where
  qty : ∀ inst, Fits 64 (a.position inst).qty
  basePerLot : ∀ inst, Fits 64 (a.terms inst).basePerLot
  unregistered : ∀ inst, inst ∉ a.ids → (a.terms inst).tlExp = 0

/-- A fee in base units divides by the product of no lots. -/
def Account.DividesFee (a : Account) (inst : UInt16) (qty : ℤ) (feeInBase : Bool) : Prop :=
  feeInBase = true ∧ qty = 0 ∧ (a.terms inst).basePerLot ≠ 0

section Account

variable {a : Account} {inst : UInt16} {side : Side} {px qty orderPx value fee : ℤ}
  {feeInBase : Bool}

theorem Account.Sound.tlExp (h : a.Sound) (hscaled : a.Scaled) (inst : UInt16) :
    -128 < (a.terms inst).tlExp := by
  by_cases hinst : inst ∈ a.ids
  · exact hscaled inst hinst
  · rw [h.unregistered inst hinst]
    decide

theorem notional?_eq (h : -128 < (a.terms inst).tlExp) :
    a.notional? inst px qty = some (a.notional inst px qty) := tlToMoney?_eq h

theorem reservation?_eq (h : -128 < (a.terms inst).tlExp) :
    a.reservation? inst side px qty = some (a.reservation inst side px qty) := by
  cases side with
  | buy => exact notional?_eq h
  | sell => rfl

theorem reserve?_eq (h : -128 < (a.terms inst).tlExp) :
    a.reserve? inst side px qty = some (a.reserve inst side px qty) := by
  rw [Account.reserve?, reservation?_eq h]
  rfl

theorem release?_eq (h : -128 < (a.terms inst).tlExp) :
    a.release? inst side px qty = some (a.release inst side px qty) := by
  rw [Account.release?, reservation?_eq h]
  rfl

theorem settle?_eq (h : -128 < (a.terms inst).tlExp) :
    a.settle? inst side px qty orderPx = some (a.settle inst side px qty orderPx) := by
  have hvalue : (a.release inst side orderPx qty).notional? inst px qty =
      some ((a.release inst side orderPx qty).notional inst px qty) := notional?_eq h
  rw [Account.settle?, release?_eq h, Option.bind_eq_bind, Option.bind_some, hvalue]
  cases side <;> rfl

theorem chargeFee?_eq (hlot : Fits 64 (a.terms inst).basePerLot) (hqty : Fits 64 qty)
    (hfee : ¬a.DividesFee inst qty feeInBase) :
    a.chargeFee? inst qty value fee feeInBase =
      some (a.chargeFee inst qty value fee feeInBase) := by
  rw [Account.chargeFee?, Account.chargeFee]
  cases feeInBase with
  | false => rfl
  | true =>
    by_cases hzero : (a.inst inst).basePerLot = 0
    · rw [if_pos rfl, if_pos rfl, if_neg (not_not_intro hzero), if_neg (not_not_intro hzero)]
      rfl
    · have hfits : Fits 128 (qty * (a.inst inst).basePerLot) :=
        hqty.mul (by omega) (by omega) hlot
      have hproduct : wrap 128 (qty * (a.inst inst).basePerLot) ≠ 0 := by
        rw [wrap_eq_self (by omega) hfits]
        exact mul_ne_zero (fun h => hfee ⟨rfl, h, hzero⟩) hzero
      rw [if_pos rfl, if_pos rfl, if_pos hzero, if_pos hzero, divide_eq hproduct]
      rfl

theorem chargeFee?_none (hfee : a.DividesFee inst qty feeInBase) :
    a.chargeFee? inst qty value fee feeInBase = none := by
  obtain ⟨rfl, rfl, hlot⟩ := hfee
  have hlot' : (a.inst inst).basePerLot ≠ 0 := hlot
  rw [Account.chargeFee?, if_pos rfl, if_pos hlot', zero_mul, wrap_zero, divide_zero]
  rfl

theorem realized?_eq (h : -128 < (a.terms inst).tlExp) :
    a.realized? inst = some (a.realized inst) := tlToMoney?_eq h

theorem unrealized?_eq (h : -128 < (a.terms inst).tlExp) :
    a.unrealized? inst = some (a.unrealized inst) := by
  rw [Account.unrealized?, Account.unrealized]
  split_ifs
  · rfl
  · exact tlToMoney?_eq h

theorem avgPx?_eq : a.avgPx? inst = some (a.avgPx inst) := by
  rw [Account.avgPx?, Account.avgPx]
  split_ifs with hqty
  · rw [divide_eq hqty]
    rfl
  · rfl

theorem equity?_eq (h : a.Scaled) : a.equity? = some a.equity := by
  have hparts : ∀ i ∈ a.ids, (do
      return (← a.realized? i) + (← a.unrealized? i) - (a.position i).fees) =
        some (a.realized i + a.unrealized i - (a.position i).fees) := fun i hi => by
    rw [realized?_eq (h i hi), unrealized?_eq (h i hi)]
    rfl
  rw [Account.equity?, mapM_eq_some hparts]
  rfl

/-- The equity is defined only where every instrument's scale is. -/
theorem scaled_of_equity? (h : a.equity?.isSome) : a.Scaled := by
  intro i hi
  have hparts : (a.ids.mapM fun i => do
      return (← a.realized? i) + (← a.unrealized? i) - (a.position i).fees).isSome := by
    rw [Account.equity?] at h
    exact Option.isSome_of_isSome_bind h
  have hpart := isSome_of_mapM hparts i hi
  exact isSome_tlToMoney?.1 (Option.isSome_of_isSome_bind hpart)

theorem snapshot?_eq (h : a.Scaled) : a.snapshot? = some a.snapshot := by
  refine mapM_eq_some fun i hi => ?_
  rw [avgPx?_eq, realized?_eq (h i hi), unrealized?_eq (h i hi)]
  rfl

theorem trackEquity?_eq (h : a.Scaled) : a.trackEquity? = some a.trackEquity := by
  rw [Account.trackEquity?, equity?_eq h]
  rfl

theorem onFill?_eq (hsound : a.Sound) (hscaled : a.Scaled) (hqty : Fits 64 qty)
    (hfee : ¬a.DividesFee inst qty feeInBase) :
    a.onFill? inst side px qty orderPx fee feeInBase =
      some (a.onFill inst side px qty orderPx fee feeInBase) := by
  have hexp := hsound.tlExp hscaled inst
  let c := (a.settle inst side px qty orderPx).setPos inst fun p => p.count side qty
  have hterms : c.terms = a.terms := (terms_setPos _).trans (terms_settle side px qty orderPx)
  have hcharge : c.chargeFee? inst qty (a.notional inst px qty) fee feeInBase =
      some (c.chargeFee inst qty (a.notional inst px qty) fee feeInBase) :=
    chargeFee?_eq (hterms ▸ hsound.basePerLot inst) hqty
      (by rwa [Account.DividesFee, hterms])
  let d := c.chargeFee inst qty (a.notional inst px qty) fee feeInBase
  have htrade : (d.position inst).trade? px (signedQty side qty) =
      some ((d.position inst).trade px (signedQty side qty)) := by
    refine trade?_eq ?_
    rw [position_chargeFee_qty, position_setPos, if_pos rfl, Position.count_qty, position_settle]
    exact hsound.qty inst
  have htrack : (d.setPos inst fun p => p.trade px (signedQty side qty)).Scaled := by
    intro j hj
    have hmem : j ∈ (a.onFill inst side px qty orderPx fee feeInBase).ids := hj
    rw [ids_onFill] at hmem
    rw [terms_setPos, terms_chargeFee, hterms]
    exact hscaled j hmem
  rw [Account.onFill?, notional?_eq hexp, settle?_eq hexp]
  change (c.chargeFee? inst qty (a.notional inst px qty) fee feeInBase >>= _) = _
  rw [hcharge]
  change ((d.position inst).trade? px (signedQty side qty) >>= _) = _
  rw [htrade]
  exact trackEquity?_eq htrack

theorem onFill?_none (hexp : -128 < (a.terms inst).tlExp)
    (hfee : a.DividesFee inst qty feeInBase) :
    a.onFill? inst side px qty orderPx fee feeInBase = none := by
  let c := (a.settle inst side px qty orderPx).setPos inst fun p => p.count side qty
  have hterms : c.terms = a.terms := (terms_setPos _).trans (terms_settle side px qty orderPx)
  have hcharge : c.chargeFee? inst qty (a.notional inst px qty) fee feeInBase = none :=
    chargeFee?_none (by rwa [Account.DividesFee, hterms])
  rw [Account.onFill?, notional?_eq hexp, settle?_eq hexp]
  change (c.chargeFee? inst qty (a.notional inst px qty) fee feeInBase >>= _) = _
  rw [hcharge]
  rfl

end Account

/-! ### The reports -/

/-- The report is a fill whose fee divides by zero. -/
def ExecContext.DividesFee (x : ExecContext) (rep : ExecReport) : Prop :=
  rep.IsFill ∧ ∃ row, x.orders.find rep.clOrdId = some row ∧
    x.account.DividesFee row.instrument rep.lastQty rep.feeInBase

section Reports

variable {x : ExecContext} {row : OrderRow} {rep : ExecReport}

theorem finish?_eq (h : -128 < (x.account.terms row.instrument).tlExp) :
    x.finish? row = some (x.finish row) := by
  rw [ExecContext.finish?, release?_eq h]
  rfl

theorem applyReplaced?_eq (h : -128 < (x.account.terms row.instrument).tlExp) :
    x.applyReplaced? row = some (x.applyReplaced row) := by
  have hreserve : (x.account.release row.instrument row.side row.px row.leaves).reserve?
      row.instrument row.side (ExecContext.replacedRow row).px
        (ExecContext.replacedRow row).leaves = some _ := reserve?_eq h
  rw [ExecContext.applyReplaced?, release?_eq h]
  change (Account.reserve? _ _ _ _ _ >>= _) = _
  rw [hreserve]
  rfl

theorem applyFill?_eq (hsound : x.account.Sound) (hscaled : x.account.Scaled)
    (hqty : Fits 64 rep.lastQty)
    (hfee : ¬x.account.DividesFee row.instrument rep.lastQty rep.feeInBase) :
    x.applyFill? row rep = some (x.applyFill row rep) := by
  rw [ExecContext.applyFill?, onFill?_eq hsound hscaled hqty hfee, ExecContext.applyFill]
  change (if _ then ExecContext.finish? _ _ else _) = _
  dsimp only
  split_ifs
  · refine finish?_eq ?_
    change -128 < ((Account.onFill _ _ _ _ _ _ _ _).terms row.instrument).tlExp
    rw [terms_onFill]
    exact hsound.tlExp hscaled row.instrument
  · rfl

/-- **A report** divides by zero exactly if it is a fill whose fee does. -/
theorem applyReport?_eq_iff (hsound : x.account.Sound) (hscaled : x.account.Scaled)
    (hqty : Fits 64 rep.lastQty) :
    x.applyReport? rep = some (x.applyReport rep) ↔ ¬x.DividesFee rep := by
  rw [ExecContext.applyReport?, ExecContext.applyReport, ExecContext.DividesFee]
  cases hfind : x.orders.find rep.clOrdId with
  | none => exact iff_of_true rfl fun h => by simpa using h.2
  | some row =>
    have hexp := hsound.tlExp hscaled row.instrument
    have hother : ¬rep.IsFill → ¬(rep.IsFill ∧ ∃ row', some row = some row' ∧
        x.account.DividesFee row'.instrument rep.lastQty rep.feeInBase) := fun h hfill =>
      h hfill.1
    have hfill : rep.IsFill → (x.applyFill? row rep = some (x.applyFill row rep) ↔
        ¬(rep.IsFill ∧ ∃ row', some row = some row' ∧
          x.account.DividesFee row'.instrument rep.lastQty rep.feeInBase)) := fun h => by
      constructor
      · rintro happly ⟨-, row', hrow, hfee⟩
        obtain rfl := Option.some.inj hrow
        rw [ExecContext.applyFill?, onFill?_none hexp hfee] at happly
        exact absurd happly (by simp)
      · intro hfee
        exact applyFill?_eq hsound hscaled hqty fun hdivides => hfee ⟨h, row, rfl, hdivides⟩
    dsimp only
    cases htype : rep.execType with
    | partialFill => exact hfill (.inl htype)
    | fill => exact hfill (.inr htype)
    | ack | cancelReject | restated =>
      exact iff_of_true rfl (hother (by simp [ExecReport.IsFill, htype]))
    | replaced =>
      exact iff_of_true (applyReplaced?_eq hexp) (hother (by simp [ExecReport.IsFill, htype]))
    | canceled | expired | reject =>
      exact iff_of_true (finish?_eq hexp) (hother (by simp [ExecReport.IsFill, htype]))

end Reports

/-! ### Runs -/

section Account

variable {a b : Account} {inst : UInt16} {side : Side} {px qty : ℤ}

/-- The divisors depend on the quantities, the terms and the ids. -/
theorem Account.Sound.congr (h : a.Sound) (hqty : ∀ j, Fits 64 (b.position j).qty)
    (hterms : b.terms = a.terms) (hids : b.ids = a.ids) : b.Sound where
  qty := hqty
  basePerLot j := hterms ▸ h.basePerLot j
  unregistered j hj := hterms ▸ h.unregistered j (hids ▸ hj)

theorem Account.Sound.of_inst (h : a.Sound) (hinst : b.inst = a.inst) (hids : b.ids = a.ids) :
    b.Sound := by
  refine h.congr (fun j => ?_) ?_ hids
  · rw [Account.position, hinst]
    exact h.qty j
  · unfold Account.terms
    rw [hinst]

theorem Account.Sound.mark (h : a.Sound) (inst : UInt16) (bid ask : ℤ) :
    (a.mark inst bid ask).Sound := by
  refine h.congr (fun j => ?_) (terms_mark bid ask) ?_
  · rw [position_mark_qty]
    exact h.qty j
  · unfold Account.mark
    split_ifs <;> rfl

theorem Account.Sound.onFill (h : a.Sound) (inst : UInt16) (side : Side)
    (px qty orderPx fee : ℤ) (feeInBase : Bool) :
    (a.onFill inst side px qty orderPx fee feeInBase).Sound := by
  refine h.congr (fun j => ?_) (terms_onFill fee feeInBase) (ids_onFill fee feeInBase)
  have hbefore : ∀ value, Fits 64 ((((a.settle inst side px qty orderPx).setPos inst
      fun p => p.count side qty).chargeFee inst qty value fee feeInBase).position j).qty := by
    intro value
    rw [position_chargeFee_qty, position_setPos]
    split_ifs with hj
    · rw [Position.count_qty, position_settle]
      exact h.qty inst
    · rw [position_settle]
      exact h.qty j
  unfold Account.onFill
  dsimp only
  rw [position_trackEquity, position_setPos]
  split_ifs with hj
  · exact fits_trade (hj ▸ hbefore _)
  · exact hbefore _

/-- A new row has quantity 0 and a 64-bit scale. -/
theorem Account.Sound.insertRow {c : NamedAccount} (h : c.toAccount.Sound) {inst : UInt16}
    (row : Instrument) (base quote : ℕ) : (c.insertRow inst row base quote).toAccount.Sound := by
  have hzero : Fits 64 0 := by decide
  have hinst : ∀ j, (c.insertRow inst row base quote).inst j =
      if j = inst then Inst.ofRow row base quote else c.inst j := fun j =>
    Function.update_apply ..
  refine ⟨fun j => ?_, fun j => ?_, fun j hj => ?_⟩
  · rw [Account.position, hinst]
    split_ifs
    · exact hzero
    · exact h.qty j
  · rw [Account.terms, hinst]
    split_ifs
    · exact fits_wrap (by omega) _
    · exact h.basePerLot j
  · have hne : j ≠ inst := fun heq => hj (heq ▸ List.mem_append_right _ (List.mem_singleton.2 rfl))
    rw [Account.terms, hinst, if_neg hne]
    exact h.unregistered j fun hmem => hj (List.mem_append_left _ hmem)

/-- The accounts that exec starts with. -/
theorem sound_of_registry {r : Registry} (hr : registry.Reachable r) : r.toAccount.Sound := by
  refine hr.invariant (P := fun r => r.toAccount.Sound) (fun r hinit => ?_)
    fun r c t _ _ h hP => ?_
  · rw [show r.toNamedAccount = .new from hinit]
    have hzero : Fits 64 0 := by decide
    exact ⟨fun _ => hzero, fun _ => hzero, fun _ _ => rfl⟩
  · rcases Registry.step_cases h with
      ⟨hkept, -⟩ | ⟨b, inst, row, symbol, base, quote, hkept, -, -, rfl⟩
    · exact hP.of_inst hkept.inst hkept.ids
    · have hb : b.toAccount.Sound := hP.of_inst hkept.inst hkept.ids
      exact hb.insertRow row base quote

end Account

/-- What reservations, releases and fills keep of the account, a report keeps. -/
theorem account_applyReport {P : Account → Prop}
    (hreserve : ∀ a inst side px qty, P a → P (Account.reserve a inst side px qty))
    (hrelease : ∀ a inst side px qty, P a → P (Account.release a inst side px qty))
    (hfill : ∀ a inst side px qty orderPx fee feeInBase, P a →
      P (Account.onFill a inst side px qty orderPx fee feeInBase))
    {x : ExecContext} (h : P x.account) (rep : ExecReport) : P (x.applyReport rep).account := by
  have heffect := applyReport_effect x rep
  generalize x.applyReport rep = y at heffect ⊢
  cases heffect with
  | unknown | kept => exact h
  | dropped => exact hrelease _ _ _ _ _ h
  | replaced => exact hreserve _ _ _ _ _ (hrelease _ _ _ _ _ h)
  | filled row rest _ _ _ _ =>
    have hfilled := hfill _ row.instrument row.side rep.lastPx rep.lastQty row.px rep.fee
      rep.feeInBase h
    unfold ExecContext.applyFill
    dsimp only
    split_ifs
    · exact hrelease _ _ _ _ _ hfilled
    · exact hfilled

/-- What reservations keep of the account, a call keeps. -/
theorem account_call {ρ : Type u} [Router ρ] {P : Account → Prop}
    (hreserve : ∀ a inst side px qty, P a → P (Account.reserve a inst side px qty))
    {c : StrategyContext ρ} (h : P c.x.account) (call : Call) : P (c.call call).x.account := by
  have hcancel : ∀ (d : StrategyContext ρ) id, P d.x.account → P (d.cancel id).1.x.account := by
    intro d id hd
    rcases d.cancel_cases id with
      ⟨lastReject, st, hx⟩ | ⟨row, rest, -, -, orders, rate, st, hx, -⟩
    all_goals
      rw [hx]
      exact hd
  cases call with
  | submit side px qty tif type =>
    change P (c.submit side px qty tif type).1.x.account
    rcases c.submit_cases side px qty tif type with
      ⟨orders, lastReject, st, hx, -⟩ | ⟨o, row, -, -, -, orders, rate, st, hx, -⟩
    · rw [hx]
      exact h
    · rw [hx]
      exact hreserve _ _ _ _ _ h
  | replace id px qty =>
    change P (c.replace id px qty).1.x.account
    rcases c.replace_cases id px qty with
      ⟨-, lastReject, st, hx⟩ | ⟨-, row, rest, -, -, -, -, -, orders, rate, st, hx, -⟩
    all_goals
      rw [hx]
      exact h
  | cancel id => exact hcancel c id h
  | cancelAll =>
    exact StrategyContext.cancelAll_induction (P := fun d => P d.x.account) hcancel h

/-- The numbers of a report are 64-bit. -/
def TypedReport (rep : ExecReport) : Prop :=
  Fits 64 rep.lastPx ∧ Fits 64 rep.lastQty ∧ Fits 64 rep.fee

instance (rep : ExecReport) : Decidable (TypedReport rep) :=
  inferInstanceAs (Decidable (_ ∧ _))

/-- One step where a report may say anything. A division by zero ends the process. -/
def Engine.stepAny {ρ : Type u} [Router ρ] (s : Engine ρ) : EngineStep ρ → Option (Engine ρ)
  | .report rep answersReplace =>
    if TypedReport rep ∧ (s.x.applyReport? rep).isSome then
      some (s.deliver rep answersReplace)
    else none
  | a => s.step a

/-- Exec in any environment, from any account that instruments and balances were given to. -/
def anyVenue {ρ : Type u} [Router ρ] : Machine (Engine ρ) (EngineStep ρ) where
  Init s := ∃ r, registry.Reachable r ∧ s.x.account = r.toAccount
  step := Engine.stepAny

section Machine

variable {ρ : Type u} [Router ρ] {s t : Engine ρ} {e : EngineStep ρ}

/-- **One step** keeps what the divisors depend on. -/
theorem sound_step (hs : s.x.account.Sound) (h : s.stepAny e = some t) : t.x.account.Sound := by
  have hreserve : ∀ a inst side px qty, Account.Sound a → (a.reserve inst side px qty).Sound :=
    fun a inst side px qty h => h.of_inst rfl rfl
  cases e with
  | clock | control | venue =>
    obtain rfl := Option.some.inj h
    exact hs
  | frame u =>
    obtain rfl := Option.some.inj h
    exact hs.mark _ _ _
  | call a =>
    change (if a.Typed then some (s.makeCall a) else none) = some t at h
    split_ifs at h
    obtain rfl := Option.some.inj h
    exact account_call hreserve hs a
  | report rep answersReplace =>
    rw [Engine.stepAny] at h
    split_ifs at h
    obtain rfl := Option.some.inj h
    exact account_applyReport hreserve (fun a inst side px qty h => h.of_inst rfl rfl)
      (fun a inst side px qty orderPx fee feeInBase h => h.onFill _ _ _ _ _ _ _) hs rep

theorem sound_of_reachable (hs : anyVenue.Reachable s) : s.x.account.Sound := by
  refine hs.invariant (P := fun s => s.x.account.Sound) (fun s hinit => ?_)
    fun s e t _ _ h hP => sound_step hP h
  obtain ⟨r, hr, haccount⟩ := hinit
  rw [haccount]
  exact sound_of_registry hr

/-- The reads of the account divide by no zero. -/
structure Account.Readable (a : Account) : Prop where
  avgPx : ∀ inst ∈ a.ids, a.avgPx? inst = some (a.avgPx inst)
  unrealized : ∀ inst ∈ a.ids, a.unrealized? inst = some (a.unrealized inst)
  equity : a.equity? = some a.equity
  snapshot : a.snapshot? = some a.snapshot

/-- **Divisions.** In every state that calls, frames and reports with any field values reach:
applying a report and reading the account divide by no zero iff every traded instrument has a scale
above `10 ^ -128` and the report is no fill of zero lots with a fee in base units (for a live order
whose instrument has any base units per lot). -/
theorem divides_safely_iff (hs : anyVenue.Reachable s) {rep : ExecReport}
    (hrep : TypedReport rep) :
    (s.x.applyReport? rep = some (s.x.applyReport rep) ∧ s.x.account.Readable) ↔
      s.x.account.Scaled ∧ ¬s.x.DividesFee rep := by
  have hsound := sound_of_reachable hs
  constructor
  · rintro ⟨happly, hread⟩
    have hscaled : s.x.account.Scaled := scaled_of_equity? (by rw [hread.equity]; rfl)
    exact ⟨hscaled, (applyReport?_eq_iff hsound hscaled hrep.2.1).1 happly⟩
  · rintro ⟨hscaled, hfee⟩
    refine ⟨(applyReport?_eq_iff hsound hscaled hrep.2.1).2 hfee, fun inst _ => avgPx?_eq,
      fun inst hinst => unrealized?_eq (hscaled inst hinst), equity?_eq hscaled,
      snapshot?_eq hscaled⟩

end Machine

/-- The calls that set up an account with one instrument and a balance. -/
private def coinSetup : List AssetCall :=
  [.addInstrument 0 unitRow "BTC/USD".toList, .setBalance "USD".toList 1000]

/-- Exec with that account and the null router. -/
private def coinEngine : Engine NullRouter :=
  let account := (NamedAccount.new.addInstrument 0 unitRow "BTC/USD".toList).1.setBalance
    "USD".toList 1000
  { demoEngine {} with x := { demoContext {} with account := account.toAccount } }

private theorem coinEngine_init : (anyVenue (ρ := NullRouter)).Init coinEngine :=
  ⟨_, Machine.Reachable.exec (M := registry)
    (.init (rfl : Registry.fresh.toNamedAccount = .new)) coinSetup rfl, rfl⟩

/-- A fill of the first order, with a fee in base units. -/
private def baseFill (lots : ℤ) : ExecReport where
  clOrdId := 1
  execType := .partialFill
  lastPx := 100
  lastQty := lots
  fee := 1
  feeInBase := true

theorem divides_safely_two_lots :
    ∃ s : Engine NullRouter, anyVenue.Reachable s ∧
      s.x.applyReport? (baseFill 2) = some (s.x.applyReport (baseFill 2)) ∧
      s.x.account.equity? = some s.x.account.equity := by
  have hrun : (anyVenue.exec coinEngine [.call (.submit .buy 100 5 .gtc .limit)]).map (fun s =>
      (s.x.account.ids, (s.x.account.terms 0).tlExp)) = some ([0], 0) := by
    decide +kernel
  obtain ⟨s, hs, hboth⟩ := Option.map_eq_some_iff.1 hrun
  obtain ⟨hids, hexp⟩ := Prod.ext_iff.1 hboth
  have hreach := Machine.Reachable.exec (.init coinEngine_init) _ hs
  have hscaled : s.x.account.Scaled := by
    intro inst hinst
    rw [show s.x.account.ids = [0] from hids, List.mem_singleton] at hinst
    rw [hinst, show (s.x.account.terms 0).tlExp = 0 from hexp]
    decide
  have hfee : ¬s.x.DividesFee (baseFill 2) := by
    rintro ⟨-, row, -, -, hlots, -⟩
    exact absurd hlots (by decide)
  have htyped : TypedReport (baseFill 2) := by decide
  obtain ⟨happly, hread⟩ := (divides_safely_iff hreach htyped).2 ⟨hscaled, hfee⟩
  exact ⟨s, hreach, happly, hread.equity⟩

/-- A fill of no lots with a fee in base units divides by zero. -/
theorem zero_lots_divide :
    ¬∀ s : Engine NullRouter, anyVenue.Reachable s → ∀ rep, TypedReport rep →
      s.x.applyReport? rep = some (s.x.applyReport rep) := by
  intro h
  have hrun : (anyVenue.exec coinEngine [.call (.submit .buy 100 5 .gtc .limit)]).map (fun s =>
      (s.x.applyReport? (baseFill 0)).isSome) = some false := by
    decide +kernel
  obtain ⟨s, hs, hnone⟩ := Option.map_eq_some_iff.1 hrun
  have hreach := Machine.Reachable.exec (.init coinEngine_init) _ hs
  rw [h s hreach (baseFill 0) (by decide)] at hnone
  exact nomatch hnone

end Exec

end LowLatencyPipeline
