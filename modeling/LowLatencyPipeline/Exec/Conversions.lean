import LowLatencyPipeline.Exec.Assets
import LowLatencyPipeline.Exec.SizeChecks
import LowLatencyPipeline.Library.Truncation
import Mathlib.Algebra.Order.Ring.Rat
import Mathlib.Data.Rat.Floor

/-!
# Unit conversions

What `notional` and `base_units` ought to be is a rational number truncated toward zero
(`exactNotional`, `exactBaseUnits`). `notional` is that wherever the integers involved fit. The
scale of a lot is folded into `base_per_lot` when an instrument is added, and a power of ten with
a negative exponent is 1 there (`pow10_i128`), so `base_units` leaves the division out.

* **Unit conversions** (`conversions_exact_iff`): for every instrument that is added, the notional
  is exact, and the base units are exactly if a lot is no fraction of a base unit, or nothing of
  the quantity is lost modulo `2 ^ 64`.
-/

namespace LowLatencyPipeline

namespace Instrument

variable {row : Instrument} {px qty : ℤ}

/-- `px * qty` in quote units of 1e-8, toward zero. -/
def exactNotional (row : Instrument) (px qty : ℤ) : ℤ :=
  trunc ((px * qty * row.tickMant * row.lotMant : ℤ) *
    ((10 : ℤ) : ℚ) ^ (row.tickExp + row.lotExp + 8))

/-- `qty` lots in base units of 1e-8, toward zero. -/
def exactBaseUnits (row : Instrument) (qty : ℤ) : ℤ :=
  trunc ((qty * row.lotMant : ℤ) * ((10 : ℤ) : ℚ) ^ (row.lotExp + 8))

/-- The intermediate products of a notional fit 128 bits. -/
structure ProductsFit (row : Instrument) (px qty : ℤ) : Prop where
  tickLots : Fits 128 (px * qty * (row.tickMant * row.lotMant))
  scale : Fits 128 (10 ^ (-row.moneyExp).toNat)

/-- A lot is a whole number of base units, or the products agree with the truncated quotient all
the same modulo `2 ^ 64`. -/
def LotsKept (row : Instrument) (qty : ℤ) : Prop :=
  -8 ≤ row.lotExp ∨
    2 ^ 64 ∣ qty * row.lotMant - (qty * row.lotMant).tdiv (10 ^ (-(row.lotExp + 8)).toNat)

theorem exactNotional_eq : row.exactNotional px qty = row.notional px qty := by
  rw [exactNotional, trunc_mul_zpow _ (by decide), notional, mul_assoc (px * qty)]
  rfl

theorem exactBaseUnits_eq : row.exactBaseUnits qty =
    if -8 ≤ row.lotExp then qty * row.lotMant * 10 ^ (row.lotExp + 8).toNat
    else (qty * row.lotMant).tdiv (10 ^ (-(row.lotExp + 8)).toNat) := by
  rw [exactBaseUnits, trunc_mul_zpow _ (by decide)]
  refine if_congr ?_ rfl rfl
  omega

/-- A power of ten that fits 128 bits has at most 38 zeros. -/
theorem ProductsFit.moneyExp (h : row.ProductsFit px qty) : -38 ≤ row.moneyExp := by
  by_contra hlt
  have hle : (10 : ℤ) ^ 39 ≤ 10 ^ (-row.moneyExp).toNat :=
    pow_le_pow_right₀ (by decide) (by omega)
  have hfit := h.scale.2
  omega

/-- A quotient by ten and more differs from what is divided, unless that is zero. -/
theorem lotsKept_iff (hmant : row.lotMant ≠ 0) (hsmall : |qty * row.lotMant| < 2 ^ 63) :
    row.LotsKept qty ↔ -8 ≤ row.lotExp ∨ qty = 0 := by
  refine or_congr_right' fun hexp => ?_
  obtain ⟨n, hn⟩ : ∃ n, (-(row.lotExp + 8)).toNat = n + 1 := ⟨_, (Nat.succ_pred (by omega)).symm⟩
  rw [hn]
  generalize hx : qty * row.lotMant = x at *
  have hle : (x.tdiv (10 ^ (n + 1))).natAbs ≤ x.natAbs := Int.natAbs_tdiv_le_natAbs _ _
  have hbounds := abs_lt.1 hsmall
  constructor
  · intro hdvd
    have hself : x - x.tdiv (10 ^ (n + 1)) = 0 :=
      Int.eq_zero_of_abs_lt_dvd hdvd (abs_lt.2 ⟨by omega, by omega⟩)
    by_contra hqty
    have hpos : 0 < x.natAbs := Int.natAbs_pos.2 (hx ▸ mul_ne_zero hqty hmant)
    have hlt := Nat.div_lt_self hpos (Nat.one_lt_pow (Nat.succ_ne_zero n) (by decide : 1 < 10))
    have habs := congrArg Int.natAbs (sub_eq_zero.1 hself)
    rw [Int.natAbs_tdiv, Int.natAbs_pow] at habs
    exact hlt.ne habs.symm
  · rintro rfl
    rw [← hx, zero_mul, Int.zero_tdiv, sub_zero]
    exact dvd_zero _

end Instrument

namespace Exec

variable {row : Instrument} {acct : Account} {inst : UInt16} {px qty : ℤ} {base quote : ℕ}

/-- An instrument that is added, for the first time and not in vain, has the terms of its row. -/
theorem exists_terms_addInstrument {a : NamedAccount} {symbol : List Char}
    (hnew : a.trades inst = false) (hok : (a.addInstrument inst row symbol).2 = true) :
    ∃ base quote, (a.addInstrument inst row symbol).1.terms inst = Inst.ofRow row base quote := by
  rcases a.addInstrument_cases inst row symbol with ⟨-, hhas⟩ | ⟨b, base, quote, -, -, -, hadd⟩
  · exact absurd (NamedAccount.trades_iff.2 (hhas hok)) (by simp [hnew])
  · refine ⟨base, quote, ?_⟩
    rw [hadd]
    change (Function.update b.inst inst (Inst.ofRow row base quote) inst).terms = _
    rw [Function.update_self]
    rfl

/-- The conversions are the exact ones where these fit 64 bits, and the products on the way to a
notional 128. -/
structure Account.Converts (acct : Account) (inst : UInt16) (row : Instrument) (px qty : ℤ) :
    Prop where
  notional : Fits 64 (row.exactNotional px qty) → row.ProductsFit px qty →
    acct.notional inst px qty = row.exactNotional px qty
  baseUnits : Fits 64 (row.exactBaseUnits qty) → acct.baseUnits inst qty = row.exactBaseUnits qty

/-- The notional is exact where the integers fit. -/
theorem notional_exact (hterms : acct.terms inst = Inst.ofRow row base quote)
    (htick : 0 < row.tickMant ∧ row.tickMant < 2 ^ 63)
    (hlot : 0 < row.lotMant ∧ row.lotMant < 2 ^ 63) (hpx : Fits 64 px) (hqty : Fits 64 qty)
    (hfits : Fits 64 (row.exactNotional px qty)) (hprods : row.ProductsFit px qty) :
    acct.notional inst px qty = row.exactNotional px qty := by
  have hmul : (Inst.ofRow row base quote).tlMul = row.tickMant * row.lotMant := by
    have hle : row.tickMant * row.lotMant ≤ (2 ^ 63 - 1) * (2 ^ 63 - 1) :=
      mul_le_mul (by omega) (by omega) hlot.1.le (by omega)
    have hpos := mul_pos htick.1 hlot.1
    exact wrap_eq_self (by omega) ⟨by omega, by omega⟩
  have hmoney : (Inst.ofRow row base quote).money (px * qty) = row.exactNotional px qty := by
    rw [Instrument.exactNotional_eq, Inst.money, hmul]
    rfl
  have hproduct : Fits 128 (px * qty) := hpx.mul (by omega) (by omega) hqty
  change (acct.terms inst).tlToMoney (wrap 128 (px * qty)) = _
  rw [hterms, Inst.tlToMoney_eq hprods.moneyExp ⟨hproduct, hmul ▸ hprods.tickLots, hmoney ▸ hfits⟩,
    hmoney]

/-- The base units, before any of it is cut, lack a division. -/
theorem baseUnits_eq (hterms : acct.terms inst = Inst.ofRow row base quote) (lots : ℤ) :
    acct.baseUnits inst lots =
      wrap 64 (lots * row.lotMant * 10 ^ (row.lotExp + 8).toNat) := by
  change wrap 64 (lots * (acct.terms inst).basePerLot) = _
  have hlot : (Inst.ofRow row base quote).basePerLot =
      wrap 64 (row.lotMant * 10 ^ (row.lotExp + 8).toNat) := by
    rw [Inst.ofRow, pow10I128, wrap_mul_wrap, wrap_wrap_of_le (by omega)]
  rw [hterms, hlot, wrap_mul_wrap, mul_assoc]

/-- The base units are exact exactly if the lots are kept. -/
theorem baseUnits_exact_iff (hterms : acct.terms inst = Inst.ofRow row base quote)
    (hfits : Fits 64 (row.exactBaseUnits qty)) :
    acct.baseUnits inst qty = row.exactBaseUnits qty ↔ row.LotsKept qty := by
  rw [baseUnits_eq hterms, wrap_eq_iff (by omega) hfits, Instrument.exactBaseUnits_eq,
    Instrument.LotsKept]
  split_ifs with hexp
  · rw [sub_self]
    exact iff_of_true (dvd_zero _) (.inl hexp)
  · rw [Int.toNat_of_nonpos (by omega), pow_zero, mul_one]
    exact ⟨.inr, fun h => h.resolve_left hexp⟩

/-- **Unit conversions.** For every instrument with positive mantissas that `add_instrument` has
accepted: the conversions of a price and a quantity are exact iff the lots are kept (where the base
units fit); where the product in `base_units` does not overflow, iff a lot is no fraction of a base
unit or the quantity is zero. -/
theorem conversions_exact_iff {a : NamedAccount} {symbol : List Char}
    (hnew : a.trades inst = false) (hok : (a.addInstrument inst row symbol).2 = true)
    (hterms : acct.terms inst = (a.addInstrument inst row symbol).1.terms inst)
    (htick : 0 < row.tickMant ∧ row.tickMant < 2 ^ 63)
    (hlot : 0 < row.lotMant ∧ row.lotMant < 2 ^ 63) (hpx : Fits 64 px) (hqty : Fits 64 qty) :
    (acct.Converts inst row px qty ↔ (Fits 64 (row.exactBaseUnits qty) → row.LotsKept qty)) ∧
      (|qty * row.lotMant| < 2 ^ 63 →
        (acct.Converts inst row px qty ↔ -8 ≤ row.lotExp ∨ qty = 0)) := by
  obtain ⟨base, quote, hrow⟩ := exists_terms_addInstrument hnew hok
  rw [hrow] at hterms
  have hconverts : acct.Converts inst row px qty ↔
      (Fits 64 (row.exactBaseUnits qty) → row.LotsKept qty) := by
    constructor
    · intro h hfits
      exact (baseUnits_exact_iff hterms hfits).1 (h.baseUnits hfits)
    · intro h
      exact ⟨notional_exact hterms htick hlot hpx hqty, fun hfits =>
        (baseUnits_exact_iff hterms hfits).2 (h hfits)⟩
  refine ⟨hconverts, fun hsmall => ?_⟩
  rw [hconverts, ← Instrument.lotsKept_iff hlot.1.ne' hsmall]
  refine ⟨fun h => ?_, fun h _ => h⟩
  by_cases hexp : -8 ≤ row.lotExp
  · exact .inl hexp
  · refine h ?_
    have hle := Int.natAbs_tdiv_le_natAbs (qty * row.lotMant) (10 ^ (-(row.lotExp + 8)).toNat)
    have hbounds := abs_lt.1 hsmall
    rw [Instrument.exactBaseUnits_eq, if_neg hexp]
    exact ⟨by omega, by omega⟩

/-- Whole shares, priced in ten-thousandths. -/
private def equityRow : Instrument := ⟨1, 1, 0, 0, -4, 0, .online⟩

/-- Lots of a billionth. -/
private def billionthRow : Instrument := ⟨1, 1, 0, 0, 0, -9, .online⟩

theorem conversions_exact_equity :
    (NamedAccount.new.addInstrument 7 equityRow "AAPL".toList).1.Converts 7 equityRow 1234567 100 :=
  ((conversions_exact_iff (by decide) (by decide +kernel) rfl (by decide) (by decide) (by decide)
    (by decide)).2 (by decide)).2 (.inl (by decide))

/-- Ten lots of a billionth are one base unit, and `base_units` says ten. -/
theorem conversions_billionth :
    (NamedAccount.new.addInstrument 7 billionthRow "BTC/USD".toList).2 = true ∧
      billionthRow.exactBaseUnits 10 = 1 ∧
      (NamedAccount.new.addInstrument 7 billionthRow "BTC/USD".toList).1.baseUnits 7 10 = 10 ∧
      ¬(NamedAccount.new.addInstrument 7 billionthRow "BTC/USD".toList).1.Converts 7 billionthRow
        1 10 := by
  have hexact : billionthRow.exactBaseUnits 10 = 1 := by
    rw [Instrument.exactBaseUnits_eq]
    decide
  have hcode :
      (NamedAccount.new.addInstrument 7 billionthRow "BTC/USD".toList).1.baseUnits 7 10 = 10 := by
    decide +kernel
  refine ⟨by decide +kernel, hexact, hcode, fun h => ?_⟩
  have hunits := h.baseUnits (hexact ▸ by decide)
  rw [hexact, hcode] at hunits
  exact absurd hunits (by decide)

end Exec

end LowLatencyPipeline
