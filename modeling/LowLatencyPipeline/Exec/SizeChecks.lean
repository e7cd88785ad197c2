import LowLatencyPipeline.Exec.Funds
import LowLatencyPipeline.Exec.Risk

/-!
# Order sizes beyond 64 bits

The gate compares a notional, a worst-case position and a reservation with their limits after each
was cut to 64 bits. `SizesBounded` says that an order is within the enabled limits on exact
integers, `SizesFit` that no quantity of an enabled check is cut.

* **What an accepted order satisfies** (`checkNew_sizes`): its exact sizes are within the enabled
  limits exactly when they fit (where also the 128-bit product that is divided fits).
* **A fat finger** (`checkNew_fat_finger`): an order accepted with a limit of a thousand units
  although its notional is a multiple of `2 ^ 64`, cut to nothing.
-/

namespace LowLatencyPipeline

namespace Instrument

/-! ### Exact sizes -/

/-- The exponent of a tick-lot in units of money. -/
def moneyExp (row : Instrument) : ℤ := row.tickExp + row.lotExp + 8

/-- The exact notional, truncated toward zero. -/
def notional (row : Instrument) (px qty : ℤ) : ℤ :=
  let tickLots := px * qty * (row.tickMant * row.lotMant)
  if 0 ≤ row.moneyExp then tickLots * 10 ^ row.moneyExp.toNat
  else tickLots.tdiv (10 ^ (-row.moneyExp).toNat)

/-- The exact funds of an order. -/
def funds (row : Instrument) (side : Side) (px qty : ℤ) : ℤ :=
  match side with
  | .buy => row.notional px qty
  | .sell => qty * (row.lotMant * 10 ^ (row.lotExp + 8).toNat)

/-- A row with positive mantissas and base units of at least a lot's. -/
structure Positive (row : Instrument) : Prop where
  tickMant : 0 < row.tickMant ∧ row.tickMant < 2 ^ 63
  lotMant : 0 < row.lotMant ∧ row.lotMant < 2 ^ 63
  lotExp : -8 ≤ row.lotExp

/-- The product that is divided by a power of ten, and that power, fit 128 bits. -/
def Divides (row : Instrument) (px qty : ℤ) : Prop :=
  0 ≤ row.moneyExp ∨
    (-38 ≤ row.moneyExp ∧ px * qty * (row.tickMant * row.lotMant) < 2 ^ 127)

/-- No notional is cut. -/
def NotionalFits (row : Instrument) (px qty : ℤ) : Prop :=
  row.Divides px qty ∧ row.notional px qty < 2 ^ 63

variable {row : Instrument} {px qty : ℤ}

theorem Positive.mul (h : row.Positive) :
    0 < row.tickMant * row.lotMant ∧ row.tickMant * row.lotMant < 2 ^ 126 := by
  obtain ⟨ht, ht'⟩ := h.tickMant
  obtain ⟨hl, hl'⟩ := h.lotMant
  refine ⟨mul_pos ht hl, ?_⟩
  have hle : row.tickMant * row.lotMant ≤ (2 ^ 63 - 1) * (2 ^ 63 - 1) :=
    mul_le_mul (by omega) (by omega) hl.le (by omega)
  omega

theorem Positive.notional_nonneg (h : row.Positive) (hpx : 0 ≤ px) (hqty : 0 ≤ qty) :
    0 ≤ row.notional px qty := by
  have htickLots := mul_nonneg (mul_nonneg hpx hqty) h.mul.1.le
  unfold notional
  dsimp only
  split_ifs
  · exact mul_nonneg htickLots (pow_nonneg (by omega) _)
  · exact Int.tdiv_nonneg htickLots (pow_nonneg (by omega) _)

end Instrument

namespace Exec

/-! ### The checks -/

/-- The exact worst-case position. -/
def worstCase (inst : UInt16) (side : Side) (addQty : ℤ) (acct : Account) (orders : OrderTable) :
    ℤ :=
  match side with
  | .buy => (acct.position inst).qty + orders.openLots .buy inst + addQty
  | .sell => (acct.position inst).qty - orders.openLots .sell inst - addQty

/-- The exact sizes of an order are within the enabled limits. -/
structure SizesBounded (g : RiskGate) (row : Instrument) (o : OrderCheck) (acct : Account)
    (orders : OrderTable) : Prop where
  notional : g.lim.maxOrderNotional ≠ 0 → row.notional o.px o.qty ≤ g.lim.maxOrderNotional
  position : g.lim.maxPosition ≠ 0 →
    |worstCase o.instrument o.side o.qty acct orders| ≤ g.lim.maxPosition
  funds : g.lim.spotOnly = true → row.funds o.side o.px o.qty ≤
    (acct.sideBalance o.instrument o.side).total - (acct.sideBalance o.instrument o.side).reserved

/-- No quantity of an enabled check is cut. -/
structure SizesFit (g : RiskGate) (row : Instrument) (o : OrderCheck) (acct : Account)
    (orders : OrderTable) : Prop where
  notional : g.lim.maxOrderNotional ≠ 0 → row.NotionalFits o.px o.qty
  position : g.lim.maxPosition ≠ 0 → |worstCase o.instrument o.side o.qty acct orders| < 2 ^ 63
  funds : g.lim.spotOnly = true →
    (match o.side with
      | .buy => row.NotionalFits o.px o.qty
      | .sell => row.funds .sell o.px o.qty < 2 ^ 63) ∧
    Fits 64 ((acct.sideBalance o.instrument o.side).total -
      (acct.sideBalance o.instrument o.side).reserved)

section Sizes

variable {g : RiskGate} {row inst : Instrument} {o : OrderCheck} {acct : Account}
  {orders : OrderTable} {rate : RateModel} {control : UInt32} {px qty : ℤ} {base quote : ℕ}

/-- The account's row has the exact scale of the instrument's. -/
theorem tlMul_ofRow (h : row.Positive) :
    (Inst.ofRow row base quote).tlMul = row.tickMant * row.lotMant := by
  have hmul := h.mul
  exact wrap_eq_self (by omega) ⟨by omega, by omega⟩

theorem money_ofRow (h : row.Positive) :
    (Inst.ofRow row base quote).money (px * qty) = row.notional px qty := by
  rw [Inst.money, tlMul_ofRow h]
  rfl

/-- Where the notional fits, nothing of `tl_to_money` overflows. -/
theorem exact_ofRow (base quote : ℕ) (h : row.Positive) (hpx : 0 < px ∧ px < 2 ^ 63)
    (hqty : 0 < qty ∧ qty < 2 ^ 63) (hfits : row.NotionalFits px qty) :
    -38 ≤ (Inst.ofRow row base quote).tlExp ∧ (Inst.ofRow row base quote).Exact (px * qty) := by
  obtain ⟨hdiv, hlt⟩ := hfits
  have hnonneg := h.notional_nonneg hpx.1.le hqty.1.le
  have hticks : px * qty < 2 ^ 126 := by
    have hle : px * qty ≤ (2 ^ 63 - 1) * (2 ^ 63 - 1) :=
      mul_le_mul (by omega) (by omega) hqty.1.le (by omega)
    omega
  have hticks0 := mul_pos hpx.1 hqty.1
  have hprod0 := mul_pos hticks0 h.mul.1
  have hprod : px * qty * (row.tickMant * row.lotMant) < 2 ^ 127 := by
    rcases hdiv with hexp | ⟨-, hprod⟩
    · -- a product scaled up is no larger than the notional
      have hpow : (1 : ℤ) ≤ 10 ^ row.moneyExp.toNat := one_le_pow₀ (by omega)
      have hle := le_mul_of_one_le_right hprod0.le hpow
      rw [Instrument.notional, if_pos hexp] at hlt
      omega
    · exact hprod
  refine ⟨?_, ⟨by omega, by omega⟩, ?_, ?_⟩
  · change -38 ≤ row.moneyExp
    rcases hdiv with hexp | ⟨hexp, -⟩
    · omega
    · exact hexp
  · rw [tlMul_ofRow h]
    exact ⟨by omega, by omega⟩
  · rw [money_ofRow h]
    exact ⟨by omega, by omega⟩

/-- The code's notional is the exact one where it fits. -/
theorem notional_eq (hrow : row.Positive)
    (hterms : acct.terms o.instrument = Inst.ofRow row base quote)
    (hpx : 0 < px ∧ px < 2 ^ 63) (hqty : 0 < qty ∧ qty < 2 ^ 63)
    (hfits : row.NotionalFits px qty) :
    acct.notional o.instrument px qty = row.notional px qty := by
  obtain ⟨hexp, hexact⟩ := exact_ofRow base quote hrow hpx hqty hfits
  have hvalue : (acct.terms o.instrument).tlToMoney (wrap 128 (px * qty)) =
      (acct.terms o.instrument).money (px * qty) := by
    rw [hterms]
    exact Inst.tlToMoney_eq hexp hexact
  rw [hterms, money_ofRow hrow] at hvalue
  rw [← hvalue, ← hterms]
  rfl

/-- The base units of a lot are exact where those of an order fit. -/
theorem basePerLot_ofRow (base quote : ℕ) (hrow : row.Positive) (hqty : 0 < qty)
    (hfits : row.funds .sell px qty < 2 ^ 63) :
    (Inst.ofRow row base quote).basePerLot = row.lotMant * 10 ^ (row.lotExp + 8).toNat := by
  have hlot : 0 < row.lotMant * 10 ^ (row.lotExp + 8).toNat :=
    mul_pos hrow.lotMant.1 (pow_pos (by omega) _)
  have hle := le_mul_of_one_le_left hlot.le (show 1 ≤ qty by omega)
  have hlt := hle.trans_lt hfits
  change wrap 64 (wrap 128 (row.lotMant * wrap 128 _)) = _
  rw [wrap_mul_wrap, wrap_eq_self (w := 128) (by omega) ⟨by omega, by omega⟩,
    wrap_eq_self (by omega) ⟨by omega, by omega⟩]

/-- The code's reservation is the exact one where it fits. -/
theorem reservation_eq_row (hrow : row.Positive)
    (hterms : acct.terms o.instrument = Inst.ofRow row base quote)
    (hpx : 0 < px ∧ px < 2 ^ 63) (hqty : 0 < qty ∧ qty < 2 ^ 63) {side : Side}
    (hfits : match side with
      | .buy => row.NotionalFits px qty
      | .sell => row.funds .sell px qty < 2 ^ 63) :
    acct.reservation o.instrument side px qty = row.funds side px qty := by
  cases side with
  | buy => exact notional_eq hrow hterms hpx hqty hfits
  | sell =>
    have hlot := basePerLot_ofRow base quote hrow hqty.1 hfits
    have hnonneg : 0 ≤ row.funds .sell px qty :=
      mul_nonneg hqty.1.le (mul_nonneg hrow.lotMant.1.le (pow_nonneg (by omega) _))
    change wrap 64 (qty * (acct.terms o.instrument).basePerLot) = _
    have hfit : Fits 64 (row.funds .sell px qty) := ⟨by omega, hfits⟩
    rw [hterms, hlot]
    exact wrap_eq_self (by omega) hfit

theorem worstPosition_eq (h : |worstCase o.instrument o.side qty acct orders| < 2 ^ 63) :
    RiskGate.worstPosition o.instrument o.side qty acct orders =
      worstCase o.instrument o.side qty acct orders := by
  have hbounds := abs_lt.1 h
  have hfit : Fits 64 (worstCase o.instrument o.side qty acct orders) :=
    ⟨by omega, by omega⟩
  revert hfit
  unfold RiskGate.worstPosition worstCase
  cases o.side with
  | buy =>
    intro hfit
    dsimp only
    rw [wrap_wrap_add, wrap_eq_self (by omega) hfit]
  | sell =>
    intro hfit
    dsimp only
    rw [wrap_wrap_sub, wrap_eq_self (by omega) hfit]

/-- An order that passes the gate has passed the notional check. -/
theorem checkNew_notional (h : g.checkNew o inst acct orders rate control = .ok ())
    (hpx : 0 < o.px) (hlim : g.lim.maxOrderNotional ≠ 0) :
    acct.notional o.instrument o.px o.qty ≤ g.lim.maxOrderNotional := by
  simp only [RiskGate.checkNew, check_bind_eq_ok, rejectIf_eq_ok] at h
  obtain ⟨-, -, -, -, -, -, -, -, -, hnotional, -⟩ := h
  rw [if_pos hpx] at hnotional
  exact not_lt.1 fun hlt => hnotional ⟨hlim, hlt⟩

/-- **What an accepted order satisfies.** An order that passes the gate is within the enabled limits
on exact integers where no quantity of an enabled check is cut to 64 bits, and, where the product
that is divided and the available balance fit, only there. -/
theorem checkNew_sizes (hrow : row.Positive)
    (hterms : acct.terms o.instrument = Inst.ofRow row base quote)
    (hpx : 0 < o.px ∧ o.px < 2 ^ 63) (hqty : 0 < o.qty ∧ o.qty < 2 ^ 63)
    (hlim : g.lim.maxOrderNotional < 2 ^ 63 ∧ g.lim.maxPosition < 2 ^ 63)
    (h : g.checkNew o inst acct orders rate control = .ok ()) :
    (SizesFit g row o acct orders → SizesBounded g row o acct orders) ∧
      (row.Divides o.px o.qty →
        Fits 64 ((acct.sideBalance o.instrument o.side).total -
          (acct.sideBalance o.instrument o.side).reserved) →
        SizesBounded g row o acct orders → SizesFit g row o acct orders) := by
  have hok := RiskGate.checkNew_ok h
  constructor
  · intro hfit
    refine ⟨fun hset => ?_, fun hset => ?_, fun hset => ?_⟩
    · rw [← notional_eq hrow hterms hpx hqty (hfit.notional hset)]
      exact checkNew_notional h hpx.1 hset
    · have hworst := worstPosition_eq (hfit.position hset)
      have hbounds := abs_lt.1 (hfit.position hset)
      rw [← hworst]
      exact RiskGate.positionCheck_ok hok.position hset (by rw [hworst]; omega)
    · obtain ⟨hneed, havail⟩ := hfit.funds hset
      have hfunds := hok.funds hset
      rw [if_pos hpx.1, reservation_eq_row hrow hterms hpx hqty hneed, Balance.available,
        wrap_eq_self (by omega) havail] at hfunds
      exact hfunds
  · intro hdiv havail hbounded
    refine ⟨fun hset => ⟨hdiv, (hbounded.notional hset).trans_lt hlim.1⟩,
      fun hset => (hbounded.position hset).trans_lt hlim.2, fun hset => ⟨?_, havail⟩⟩
    have hlt := (hbounded.funds hset).trans_lt havail.2
    cases hside : o.side with
    | buy =>
      rw [hside] at hlt
      exact ⟨hdiv, hlt⟩
    | sell =>
      rw [hside] at hlt
      exact hlt

/-- A share with a tick of a cent. -/
def shareRow : Instrument where
  tickMant := 1
  lotMant := 1
  minQtyLots := 0
  minNotional := 0
  tickExp := -2
  lotExp := 0
  status := .online

/-- An account that has registered the share and holds nothing. -/
def shareAccount : Account :=
  (Account.addInstrument
    { ids := [], inst := fun _ => ⟨0, 0, 0, 0, 0, {}⟩, bal := fun _ => {}, peak := 0, maxDd := 0 }
    7 shareRow 0 1).1

/-- A gate with an order limit of a thousand units of the quote currency, on a spot account. -/
def thousandGate : RiskGate where
  lim := { maxOrderNotional := 100000000000, spotOnly := true }
  allowedInst _ := true

/-- A limit order to buy. -/
def buyOrder (px qty : ℤ) : OrderCheck where
  instrument := 7
  side := .buy
  ordType := .limit
  tif := .gtc
  px := px
  qty := qty
  mid2 := 0
  nowNs := 0

/-- The same account with a balance for one share. -/
def fundedAccount : Account := shareAccount.credit 1 100000000000

theorem checkNew_sizes_share :
    SizesBounded thousandGate shareRow (buyOrder 10000 10) fundedAccount .empty :=
  (checkNew_sizes ⟨by decide, by decide, by decide⟩
    (show fundedAccount.terms _ = Inst.ofRow shareRow 0 1 by decide) (by decide) (by decide)
    (by decide)
    (show thousandGate.checkNew _ shareRow fundedAccount .empty {} 0 = .ok () by
      decide +kernel)).1
    ⟨fun _ => ⟨.inl (by decide), by decide⟩, fun hset => absurd rfl hset,
      fun _ => ⟨⟨.inl (by decide), by decide⟩, by decide⟩⟩

/-- **A fat finger**: the gate accepts an order of `2 ^ 29` shares at `2 ^ 29` cents from an account
without funds. -/
theorem checkNew_fat_finger :
    ¬ ∀ o : OrderCheck, 0 < o.px ∧ o.px < 2 ^ 63 → 0 < o.qty ∧ o.qty < 2 ^ 63 →
      thousandGate.checkNew o shareRow shareAccount .empty {} 0 = .ok () →
      SizesBounded thousandGate shareRow o shareAccount .empty := by
  intro hall
  have hbounded := hall (buyOrder (2 ^ 29) (2 ^ 29)) (by decide) (by decide) (by decide +kernel)
  exact absurd (hbounded.notional (by decide)) (by decide)

end Sizes

end Exec

end LowLatencyPipeline
