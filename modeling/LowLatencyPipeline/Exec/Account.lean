import LowLatencyPipeline.Common.MarketData
import LowLatencyPipeline.Library.WrapInt
import Mathlib.Logic.Function.Basic

/-!
# Positions, PnL and spot balances

`Account` of `exec/account.hpp`. Money and balances are 64-bit, costs 128-bit; every result is
cut to its width (`wrap`) where the code stores it. The rows of the traded instruments are a
function of the instrument's number, with `ids` the registered ones in their order
(`slot_of_[inst]` is the place of `inst` in it); an instrument refers to its assets by number.
-/

namespace LowLatencyPipeline

namespace Exec

/-- `Account::Position`. -/
structure Position where
  qty : ℤ := 0
  cost : ℤ := 0
  realized : ℤ := 0
  fees : ℤ := 0
  bought : ℤ := 0
  sold : ℤ := 0
  mark2 : ℤ := 0
  fills : ℕ := 0
  deriving DecidableEq

/-- `Account::Balance`. -/
structure Balance where
  total : ℤ := 0
  reserved : ℤ := 0
  deriving DecidableEq

/-- `Balance::available`. -/
def Balance.available (b : Balance) : ℤ := wrap 64 (b.total - b.reserved)

/-- `Account::Inst`. -/
structure Inst where
  base : ℕ
  quote : ℕ
  tlExp : ℤ
  tlMul : ℤ
  basePerLot : ℤ
  pos : Position
  deriving DecidableEq

/-- The state of an `Account`. -/
structure Account where
  ids : List UInt16
  inst : UInt16 → Inst
  bal : ℕ → Balance
  peak : ℤ
  maxDd : ℤ

/-- `pow10_i128`. -/
def pow10I128 (e : ℕ) : ℤ := wrap 128 (10 ^ e)

/-- The row `add_instrument` makes of an instrument whose symbol names two assets. -/
def Inst.ofRow (row : Instrument) (base quote : ℕ) : Inst where
  base := base
  quote := quote
  tlExp := row.tickExp + row.lotExp + 8
  tlMul := wrap 128 (row.tickMant * row.lotMant)
  basePerLot := wrap 64 (wrap 128 (row.lotMant * pow10I128 (row.lotExp + 8).toNat))
  pos := {}

/-- `tl_to_money`: tick-lots in 1e-8 quote units, truncated toward zero. -/
def Inst.tlToMoney (i : Inst) (tickLots : ℤ) : ℤ :=
  let v := wrap 128 (tickLots * i.tlMul)
  if 0 ≤ i.tlExp then wrap 64 (wrap 128 (v * pow10I128 i.tlExp.toNat))
  else wrap 64 (v.tdiv (pow10I128 (-i.tlExp).toNat))

/-- `signed_qty` of `on_fill`. -/
def signedQty (side : Side) (qty : ℤ) : ℤ :=
  match side with
  | .buy => qty
  | .sell => wrap 64 (-qty)

/-- The volume counters of `on_fill`. -/
def Position.count (p : Position) (side : Side) (qty : ℤ) : Position :=
  match side with
  | .buy => { p with bought := wrap 64 (p.bought + qty), fills := p.fills + 1 }
  | .sell => { p with sold := wrap 64 (p.sold + qty), fills := p.fills + 1 }

/-- A fee in quote units. -/
def Position.addFee (p : Position) (fee : ℤ) : Position := { p with fees := wrap 64 (p.fees + fee) }

/-- The first half of the average-cost update of `on_fill`: an execution against the position
reduces it. Returned with the position is what is left of the execution. -/
def Position.reduce (p : Position) (px signedQty : ℤ) : Position × ℤ :=
  if p.qty ≠ 0 ∧ ¬ (0 < p.qty ↔ 0 < signedQty) then
    let openAbs := if 0 < p.qty then p.qty else wrap 64 (-p.qty)
    let restAbs := if 0 < signedQty then signedQty else wrap 64 (-signedQty)
    let r := if restAbs < openAbs then restAbs else openAbs
    let removed := (wrap 128 (p.cost * r)).tdiv openAbs
    let sgn : ℤ := if 0 < p.qty then 1 else -1
    let qty := wrap 64 (if 0 < p.qty then p.qty - r else p.qty + r)
    let cost := if qty = 0 then 0 else wrap 128 (p.cost - removed)
    ({ p with realized := wrap 128 (p.realized + (sgn * px * r - removed)), cost, qty },
      wrap 64 (if 0 < signedQty then signedQty - r else signedQty + r))
  else (p, signedQty)

/-- The average-cost update of `on_fill`: reduce first, then open any remainder. -/
def Position.trade (p : Position) (px signedQty : ℤ) : Position :=
  let (p, rest) := p.reduce px signedQty
  if rest ≠ 0 then { p with cost := wrap 128 (p.cost + px * rest), qty := wrap 64 (p.qty + rest) }
  else p

namespace Account

variable (a : Account)

/-- `trades`. -/
def trades (inst : UInt16) : Bool := inst ∈ a.ids

def MAX_TRADED : ℕ := 16

/-- `add_instrument`, with the assets found: false when the table is full. -/
def addInstrument (inst : UInt16) (row : Instrument) (base quote : ℕ) : Account × Bool :=
  if a.trades inst then (a, true)
  else if a.ids.length = MAX_TRADED then (a, false)
  else
    ({ a with
      ids := a.ids ++ [inst]
      inst := Function.update a.inst inst (Inst.ofRow row base quote) }, true)

/-- `position`. -/
def position (inst : UInt16) : Position := (a.inst inst).pos

/-- `notional`: the quote value of `px * qty`. -/
def notional (inst : UInt16) (px qty : ℤ) : ℤ := (a.inst inst).tlToMoney (wrap 128 (px * qty))

/-- `base_units`. -/
def baseUnits (inst : UInt16) (lots : ℤ) : ℤ := wrap 64 (lots * (a.inst inst).basePerLot)

/-- The asset an order locks: quote for a buy, base for a sell. -/
def sideAsset (inst : UInt16) (side : Side) : ℕ :=
  match side with
  | .buy => (a.inst inst).quote
  | .sell => (a.inst inst).base

/-- `side_balance`, for the checks `quote_balance` of a buy and `base_balance` of a sell. -/
def sideBalance (inst : UInt16) (side : Side) : Balance := a.bal (a.sideAsset inst side)

/-- `reservation`: the funds an order locks. -/
def reservation (inst : UInt16) (side : Side) (px qty : ℤ) : ℤ :=
  match side with
  | .buy => a.notional inst px qty
  | .sell => a.baseUnits inst qty

/-- A store into one balance. -/
def setBal (k : ℕ) (f : Balance → Balance) : Account :=
  { a with bal := Function.update a.bal k (f (a.bal k)) }

/-- `reserve`. -/
def reserve (inst : UInt16) (side : Side) (px qty : ℤ) : Account :=
  a.setBal (a.sideAsset inst side) fun b =>
    { b with reserved := wrap 64 (b.reserved + a.reservation inst side px qty) }

/-- `release`. -/
def release (inst : UInt16) (side : Side) (px qty : ℤ) : Account :=
  a.setBal (a.sideAsset inst side) fun b =>
    { b with reserved := wrap 64 (b.reserved - a.reservation inst side px qty) }

/-- A credit (or, negative, a debit) of one balance's total. -/
def credit (k : ℕ) (amount : ℤ) : Account :=
  a.setBal k fun b => { b with total := wrap 64 (b.total + amount) }

/-- A store into the position of one instrument. -/
def setPos (inst : UInt16) (f : Position → Position) : Account :=
  { a with inst := Function.update a.inst inst { a.inst inst with pos := f (a.inst inst).pos } }

/-- `realized`. -/
def realized (inst : UInt16) : ℤ := (a.inst inst).tlToMoney (a.position inst).realized

/-- `unrealized`: PnL at the last mark. -/
def unrealized (inst : UInt16) : ℤ :=
  let p := a.position inst
  if p.mark2 = 0 ∨ p.qty = 0 then 0
  else (a.inst inst).tlToMoney ((wrap 128 (p.qty * p.mark2 - 2 * p.cost)).tdiv 2)

/-- `equity`. -/
def equity : ℤ :=
  wrap 64 (a.ids.map fun i => a.realized i + a.unrealized i - (a.position i).fees).sum

/-- `track_equity`. -/
def trackEquity : Account :=
  let e := a.equity
  let peak := if a.peak < e then e else a.peak
  let maxDd := if a.maxDd < wrap 64 (peak - e) then wrap 64 (peak - e) else a.maxDd
  { a with peak, maxDd }

/-- The balances after an execution: the order's reservation for `qty` lots is released, base
and quote change hands. -/
def settle (inst : UInt16) (side : Side) (px qty orderPx : ℤ) : Account :=
  let a := a.release inst side orderPx qty
  let base := a.baseUnits inst qty
  let value := a.notional inst px qty
  match side with
  | .buy => (a.credit (a.inst inst).base base).credit (a.inst inst).quote (-value)
  | .sell => (a.credit (a.inst inst).base (-base)).credit (a.inst inst).quote value

/-- The fee of an execution worth `value`, in the base or the quote asset. -/
def chargeFee (inst : UInt16) (qty value fee : ℤ) (feeInBase : Bool) : Account :=
  let i := a.inst inst
  if feeInBase then
    (a.credit i.base (-fee)).setPos inst fun p => p.addFee <|
      if i.basePerLot ≠ 0
        then wrap 64 ((wrap 128 (fee * value)).tdiv (wrap 128 (qty * i.basePerLot))) else 0
  else (a.credit i.quote (-fee)).setPos inst fun p => p.addFee fee

/-- `on_fill`: an execution of `qty` lots at `px` for an order with limit `orderPx`. -/
def onFill (inst : UInt16) (side : Side) (px qty orderPx fee : ℤ) (feeInBase : Bool) : Account :=
  let value := a.notional inst px qty
  let a := a.settle inst side px qty orderPx
  let a := a.setPos inst fun p => p.count side qty
  let a := a.chargeFee inst qty value fee feeInBase
  let a := a.setPos inst fun p => p.trade px (signedQty side qty)
  a.trackEquity

/-- `mark`: ignored unless both sides are present. -/
def mark (inst : UInt16) (bid ask : ℤ) : Account :=
  if ¬ a.trades inst ∨ bid = EMPTY_BID ∨ ask = EMPTY_ASK then a
  else (a.setPos inst fun p => { p with mark2 := wrap 64 (bid + ask) }).trackEquity

/-- `avg_px`. -/
def avgPx (inst : UInt16) : ℤ :=
  let p := a.position inst
  if p.qty ≠ 0 then wrap 64 (p.cost.tdiv p.qty) else 0

end Account

/-! ### What the operations do to a position -/

section PositionLemmas

variable {a : Account} {inst j : UInt16}

/-- Reducing moves quantity from the execution to the position. -/
theorem Position.reduce_qty (p : Position) (px d : ℤ) (hp : -2 ^ 63 < p.qty ∧ p.qty < 2 ^ 63)
    (hd : -2 ^ 63 < d ∧ d < 2 ^ 63) :
    (p.reduce px d).1.qty + (p.reduce px d).2 = p.qty + d := by
  have hself : ∀ x : ℤ, -2 ^ 63 < x → x < 2 ^ 63 → wrap 64 x = x := fun x h₁ h₂ =>
    wrap_eq_self (by omega) ⟨h₁.le, h₂⟩
  unfold Position.reduce
  split_ifs with hopp <;> try rfl
  all_goals
    dsimp only
    repeat rw [hself] <;> try omega

/-- The average-cost update moves the position by the signed quantity. -/
theorem Position.trade_qty (p : Position) (px d : ℤ) (hp : -2 ^ 63 < p.qty ∧ p.qty < 2 ^ 63)
    (hd : -2 ^ 63 < d ∧ d < 2 ^ 63) (hsum : Fits 64 (p.qty + d)) :
    (p.trade px d).qty = p.qty + d := by
  have hreduce := p.reduce_qty px d hp hd
  unfold Position.trade
  dsimp only
  split_ifs with hrest
  · dsimp only
    rw [hreduce, wrap_eq_self (by omega) hsum]
  · omega

theorem position_setPos (f : Position → Position) :
    (a.setPos inst f).position j = if j = inst then f (a.position inst) else a.position j := by
  by_cases h : j = inst
  · subst h
    simp [Account.setPos, Account.position]
  · simp [Account.setPos, Account.position, h]

@[simp]
theorem position_trackEquity : a.trackEquity.position j = a.position j := rfl

/-- A mark moves no position. -/
theorem position_mark_qty (bid ask : ℤ) :
    ((a.mark inst bid ask).position j).qty = (a.position j).qty := by
  unfold Account.mark
  split_ifs
  · rfl
  · rw [position_trackEquity, position_setPos]
    split_ifs with h
    · rw [h]
    · rfl

@[simp]
theorem position_settle (side : Side) (px qty orderPx : ℤ) :
    (a.settle inst side px qty orderPx).position j = a.position j := by
  cases side <;> rfl

theorem position_chargeFee_qty (qty value fee : ℤ) (feeInBase : Bool) :
    ((a.chargeFee inst qty value fee feeInBase).position j).qty = (a.position j).qty := by
  have hset : ∀ (k : ℕ) (amount fee : ℤ),
      (((a.credit k amount).setPos inst fun p => p.addFee fee).position j).qty =
        (a.position j).qty := by
    intro k amount fee
    rw [position_setPos]
    split_ifs with h
    · rw [h]
      rfl
    · rfl
  cases feeInBase
  · exact hset _ _ _
  · exact hset _ _ _

@[simp]
theorem Position.count_qty (p : Position) (side : Side) (qty : ℤ) :
    (p.count side qty).qty = p.qty := by
  cases side <;> rfl

theorem signedQty_eq {side : Side} {qty : ℤ} (hq : 0 ≤ qty ∧ qty < 2 ^ 63) :
    signedQty side qty = match side with | .buy => qty | .sell => -qty := by
  cases side
  · exact wrap_eq_self (by omega) ⟨by omega, by omega⟩
  · rfl

/-- A fill moves the position of its instrument by the signed quantity, and no other. -/
theorem position_onFill_qty {side : Side} {px qty orderPx fee : ℤ} {feeInBase : Bool}
    (hp : -2 ^ 63 < (a.position inst).qty ∧ (a.position inst).qty < 2 ^ 63)
    (hq : 0 ≤ qty ∧ qty < 2 ^ 63) (hsum : Fits 64 ((a.position inst).qty + signedQty side qty)) :
    ((a.onFill inst side px qty orderPx fee feeInBase).position j).qty =
      (a.position j).qty + if j = inst then signedQty side qty else 0 := by
  have hrange : -2 ^ 63 < signedQty side qty ∧ signedQty side qty < 2 ^ 63 := by
    rw [signedQty_eq hq]
    cases side <;> dsimp only <;> omega
  unfold Account.onFill
  dsimp only
  rw [position_trackEquity, position_setPos]
  by_cases h : j = inst
  · subst h
    have hbefore : ∀ value, ((((a.settle j side px qty orderPx).setPos j
        fun p => p.count side qty).chargeFee j qty value fee feeInBase).position j).qty =
          (a.position j).qty := by
      intro value
      rw [position_chargeFee_qty, position_setPos, if_pos rfl, Position.count_qty, position_settle]
    rw [if_pos rfl, if_pos rfl, Position.trade_qty _ _ _ (by rwa [hbefore]) hrange
      (by rwa [hbefore]), hbefore]
  · rw [if_neg h, if_neg h, position_chargeFee_qty, position_setPos, if_neg h, position_settle,
      add_zero]

end PositionLemmas

/-! ### What the operations do to the balances -/

/-- The terms of an instrument: all of its row but the position. -/
def Inst.terms (i : Inst) : Inst := { i with pos := {} }

/-- The terms of the instruments. -/
def Account.terms (a : Account) (inst : UInt16) : Inst := (a.inst inst).terms

/-- What an execution adds to the total of one asset. -/
def Account.proceeds (a : Account) (inst : UInt16) (side : Side) (px qty : ℤ) (k : ℕ) : ℤ :=
  match side with
  | .buy => (if k = (a.inst inst).base then a.baseUnits inst qty else 0) +
      (if k = (a.inst inst).quote then -a.notional inst px qty else 0)
  | .sell => (if k = (a.inst inst).base then -a.baseUnits inst qty else 0) +
      (if k = (a.inst inst).quote then a.notional inst px qty else 0)

section BalanceLemmas

variable {a : Account} {inst : UInt16} {side : Side} {px qty orderPx : ℤ} {k : ℕ}

@[simp]
theorem terms_setPos (f : Position → Position) : (a.setPos inst f).terms = a.terms := by
  funext j
  by_cases h : j = inst
  · subst h
    simp [Account.setPos, Account.terms, Inst.terms]
  · simp [Account.setPos, Account.terms, h]

@[simp]
theorem terms_trackEquity : a.trackEquity.terms = a.terms := rfl

@[simp]
theorem terms_mark (bid ask : ℤ) : (a.mark inst bid ask).terms = a.terms := by
  unfold Account.mark
  split_ifs
  · rfl
  · rw [terms_trackEquity, terms_setPos]

@[simp]
theorem bal_mark (bid ask : ℤ) : (a.mark inst bid ask).bal = a.bal := by
  unfold Account.mark
  split_ifs
  · rfl
  · rfl

theorem bal_setBal (j : ℕ) (f : Balance → Balance) :
    (a.setBal j f).bal k = if k = j then f (a.bal k) else a.bal k := by
  by_cases h : k = j
  · subst h
    simp [Account.setBal]
  · simp [Account.setBal, h]

theorem total_reserve : ((a.reserve inst side px qty).bal k).total = (a.bal k).total := by
  rw [Account.reserve, bal_setBal]
  split_ifs
  · rfl
  · rfl

theorem reserved_reserve : ((a.reserve inst side px qty).bal k).reserved =
    if k = a.sideAsset inst side then wrap 64 ((a.bal k).reserved + a.reservation inst side px qty)
    else (a.bal k).reserved := by
  rw [Account.reserve, bal_setBal]
  split_ifs
  · rfl
  · rfl

theorem total_release : ((a.release inst side px qty).bal k).total = (a.bal k).total := by
  rw [Account.release, bal_setBal]
  split_ifs
  · rfl
  · rfl

theorem reserved_release : ((a.release inst side px qty).bal k).reserved =
    if k = a.sideAsset inst side then wrap 64 ((a.bal k).reserved - a.reservation inst side px qty)
    else (a.bal k).reserved := by
  rw [Account.release, bal_setBal]
  split_ifs
  · rfl
  · rfl

theorem total_credit (hfit : Fits 64 (a.bal k).total) (j : ℕ) (amount : ℤ) :
    ((a.credit j amount).bal k).total =
      wrap 64 ((a.bal k).total + if k = j then amount else 0) := by
  rw [Account.credit, bal_setBal]
  split_ifs
  · rfl
  · rw [add_zero, wrap_eq_self (by omega) hfit]

theorem reserved_credit (j : ℕ) (amount : ℤ) :
    ((a.credit j amount).bal k).reserved = (a.bal k).reserved := by
  rw [Account.credit, bal_setBal]
  split_ifs
  · rfl
  · rfl

theorem total_settle (hfit : Fits 64 (a.bal k).total) :
    ((a.settle inst side px qty orderPx).bal k).total =
      wrap 64 ((a.bal k).total + a.proceeds inst side px qty k) := by
  have hrel : Fits 64 ((a.release inst side orderPx qty).bal k).total := by
    rwa [total_release]
  cases side
  all_goals
    simp only [Account.settle, Account.proceeds]
    rw [total_credit (by rw [total_credit hrel]; exact fits_wrap (by omega) _), total_credit hrel,
      total_release, wrap_wrap_add, add_assoc]
    rfl

theorem reserved_settle : ((a.settle inst side px qty orderPx).bal k).reserved =
    if k = a.sideAsset inst side
      then wrap 64 ((a.bal k).reserved - a.reservation inst side orderPx qty)
    else (a.bal k).reserved := by
  cases side
  all_goals
    simp only [Account.settle]
    rw [reserved_credit, reserved_credit, reserved_release]

/-- Without a fee, an execution changes each total by its proceeds. -/
theorem total_onFill (hfit : Fits 64 (a.bal k).total) (feeInBase : Bool) :
    ((a.onFill inst side px qty orderPx 0 feeInBase).bal k).total =
      wrap 64 ((a.bal k).total + a.proceeds inst side px qty k) := by
  have hfree : ∀ (b : Account) j, Fits 64 (b.bal k).total →
      ((b.credit j (-0)).bal k).total = (b.bal k).total := fun b j hb => by
    rw [total_credit hb, neg_zero, ite_self, add_zero, wrap_eq_self (by omega) hb]
  have hsettle : Fits 64 ((a.settle inst side px qty orderPx).bal k).total := by
    rw [total_settle hfit]
    exact fits_wrap (by omega) _
  rw [← total_settle hfit]
  cases feeInBase <;> exact hfree _ _ hsettle

/-- An execution releases the order's reservation for the executed lots. -/
theorem reserved_onFill (fee : ℤ) (feeInBase : Bool) :
    ((a.onFill inst side px qty orderPx fee feeInBase).bal k).reserved =
      if k = a.sideAsset inst side
        then wrap 64 ((a.bal k).reserved - a.reservation inst side orderPx qty)
      else (a.bal k).reserved := by
  rw [← reserved_settle]
  cases feeInBase <;> exact reserved_credit _ _

theorem terms_settle (side : Side) (px qty orderPx : ℤ) :
    (a.settle inst side px qty orderPx).terms = a.terms := by
  cases side <;> rfl

theorem terms_chargeFee (qty value fee : ℤ) (feeInBase : Bool) :
    (a.chargeFee inst qty value fee feeInBase).terms = a.terms := by
  have hcharge : ∀ (j : ℕ) (amount fee : ℤ),
      ((a.credit j amount).setPos inst fun p => p.addFee fee).terms = a.terms :=
    fun j amount fee => terms_setPos _
  cases feeInBase
  · exact hcharge _ _ _
  · exact hcharge _ _ _

theorem terms_onFill (fee : ℤ) (feeInBase : Bool) :
    (a.onFill inst side px qty orderPx fee feeInBase).terms = a.terms := by
  unfold Account.onFill
  dsimp only
  rw [terms_trackEquity, terms_setPos, terms_chargeFee, terms_setPos, terms_settle]

/-- An execution registers no instrument. -/
theorem ids_onFill (fee : ℤ) (feeInBase : Bool) :
    (a.onFill inst side px qty orderPx fee feeInBase).ids = a.ids := by
  cases side <;> cases feeInBase <;> rfl

end BalanceLemmas

end Exec

end LowLatencyPipeline
