import LowLatencyPipeline.Exec.Account

/-!
# Funds without rounding to 64 bits

`money` and `funds` are `tl_to_money` and `reservation` on exact integers. They are monotone, and
splitting an order into parts never needs more funds than the whole: the truncation of each part
only loses. Where no product overflows (`Covers`), the code computes exactly these values.
-/

namespace LowLatencyPipeline

namespace Exec

/-- `tl_to_money` on exact integers. -/
def Inst.money (i : Inst) (tickLots : ℤ) : ℤ :=
  if 0 ≤ i.tlExp then tickLots * i.tlMul * 10 ^ i.tlExp.toNat
  else (tickLots * i.tlMul).tdiv (10 ^ (-i.tlExp).toNat)

/-- The asset an order locks. -/
def Inst.asset (i : Inst) : Side → ℕ
  | .buy => i.quote
  | .sell => i.base

/-- `reservation` on exact integers. -/
def Inst.funds (i : Inst) (side : Side) (px qty : ℤ) : ℤ :=
  match side with
  | .buy => i.money (px * qty)
  | .sell => qty * i.basePerLot

/-- What an execution adds to the total of asset `k`, on exact integers. -/
def Inst.proceeds (i : Inst) (side : Side) (px qty : ℤ) (k : ℕ) : ℤ :=
  match side with
  | .buy => (if k = i.base then qty * i.basePerLot else 0) +
      (if k = i.quote then -i.money (px * qty) else 0)
  | .sell => (if k = i.base then -(qty * i.basePerLot) else 0) +
      (if k = i.quote then i.money (px * qty) else 0)

/-- An execution at `px` is at the order's limit or better. -/
def AtLimitOrBetter (side : Side) (limit px : ℤ) : Prop :=
  match side with
  | .buy => px ≤ limit
  | .sell => limit ≤ px

instance (side : Side) (limit px : ℤ) : Decidable (AtLimitOrBetter side limit px) := by
  cases side <;> unfold AtLimitOrBetter <;> infer_instance

/-- No product of `tl_to_money` overflows. -/
def Inst.Exact (i : Inst) (tickLots : ℤ) : Prop :=
  Fits 128 tickLots ∧ Fits 128 (tickLots * i.tlMul) ∧ Fits 64 (i.money tickLots)

/-- No product of `reservation` overflows. -/
def Inst.Covers (i : Inst) (side : Side) (px qty : ℤ) : Prop :=
  match side with
  | .buy => i.Exact (px * qty)
  | .sell => Fits 64 (qty * i.basePerLot)

instance (i : Inst) (tickLots : ℤ) : Decidable (i.Exact tickLots) :=
  inferInstanceAs (Decidable (_ ∧ _))

instance (i : Inst) (side : Side) (px qty : ℤ) : Decidable (i.Covers side px qty) := by
  cases side <;> unfold Inst.Covers <;> infer_instance

/-- The scales of an instrument are those of a tick and a lot. -/
structure Inst.Scaled (i : Inst) : Prop where
  tlMul : 0 ≤ i.tlMul
  basePerLot : 0 ≤ i.basePerLot
  tlExp : -38 ≤ i.tlExp

section Money

variable {i : Inst}

@[simp]
theorem Inst.money_zero (i : Inst) : i.money 0 = 0 := by
  simp [Inst.money]

theorem Inst.Scaled.money_mono (hi : i.Scaled) {a b : ℤ} (h : a ≤ b) : i.money a ≤ i.money b := by
  have hmul : a * i.tlMul ≤ b * i.tlMul := mul_le_mul_of_nonneg_right h hi.tlMul
  unfold Inst.money
  split_ifs
  · exact mul_le_mul_of_nonneg_right hmul (pow_nonneg (by omega) _)
  · exact Int.tdiv_le_tdiv (pow_pos (by omega) _) hmul

theorem Inst.Scaled.money_nonneg (hi : i.Scaled) {a : ℤ} (h : 0 ≤ a) : 0 ≤ i.money a :=
  i.money_zero ▸ hi.money_mono h

/-- Truncation loses more on two parts than on the whole. -/
theorem tdiv_add_tdiv_le {a b c : ℤ} (ha : 0 ≤ a) (hb : 0 ≤ b) (hc : 0 < c) :
    a.tdiv c + b.tdiv c ≤ (a + b).tdiv c := by
  rw [Int.tdiv_eq_ediv_of_nonneg ha, Int.tdiv_eq_ediv_of_nonneg hb,
    Int.tdiv_eq_ediv_of_nonneg (add_nonneg ha hb), Int.le_ediv_iff_mul_le hc, add_mul]
  exact add_le_add (Int.ediv_mul_le a hc.ne') (Int.ediv_mul_le b hc.ne')

theorem Inst.Scaled.money_add_le (hi : i.Scaled) {a b : ℤ} (ha : 0 ≤ a) (hb : 0 ≤ b) :
    i.money a + i.money b ≤ i.money (a + b) := by
  unfold Inst.money
  split_ifs
  · rw [add_mul, add_mul]
  · rw [add_mul]
    exact tdiv_add_tdiv_le (mul_nonneg ha hi.tlMul) (mul_nonneg hb hi.tlMul)
      (pow_pos (by omega) _)

/-- Where no product overflows, the code computes the exact value. -/
theorem Inst.tlToMoney_eq (hexp : -38 ≤ i.tlExp) {a : ℤ} (h : i.Exact a) :
    i.tlToMoney (wrap 128 a) = i.money a := by
  obtain ⟨ha, hmul, hmoney⟩ := h
  unfold Inst.tlToMoney Inst.money at *
  rw [wrap_eq_self (by omega) ha, wrap_eq_self (by omega) hmul]
  dsimp only
  split_ifs at * with hnonneg
  · have hmoney128 : Fits 128 (a * i.tlMul * 10 ^ i.tlExp.toNat) :=
      ⟨le_trans (by decide) hmoney.1, lt_trans hmoney.2 (by decide)⟩
    rw [pow10I128, wrap_mul_wrap, wrap_eq_self (by omega) hmoney128, wrap_eq_self (by omega) hmoney]
  · have hpow : Fits 128 (10 ^ (-i.tlExp).toNat) := by
      have hle : (10 : ℤ) ^ (-i.tlExp).toNat ≤ 10 ^ 38 :=
        pow_le_pow_right₀ (by omega) (by omega)
      have hpos : (0 : ℤ) < 10 ^ (-i.tlExp).toNat := pow_pos (by omega) _
      exact ⟨le_trans (by decide) hpos.le, lt_of_le_of_lt hle (by decide)⟩
    rw [pow10I128, wrap_eq_self (by omega) hpow, wrap_eq_self (by omega) hmoney]

theorem Inst.Scaled.tlToMoney_eq (hi : i.Scaled) {a : ℤ} (h : i.Exact a) :
    i.tlToMoney (wrap 128 a) = i.money a := Inst.tlToMoney_eq hi.tlExp h

end Money

section Funds

variable {i : Inst} {side : Side} {px qty q : ℤ} {k : ℕ}

@[simp]
theorem Inst.funds_zero (i : Inst) (side : Side) (px : ℤ) : i.funds side px 0 = 0 := by
  cases side <;> simp [Inst.funds]

theorem Inst.Scaled.funds_nonneg (hi : i.Scaled) (hpx : 0 ≤ px) (hqty : 0 ≤ qty) :
    0 ≤ i.funds side px qty := by
  cases side with
  | buy =>
    exact hi.money_nonneg (mul_nonneg hpx hqty)
  | sell =>
    exact mul_nonneg hqty hi.basePerLot

/-- A part and the rest of an order need no more funds than the order. -/
theorem Inst.Scaled.funds_add_le (hi : i.Scaled) (hpx : 0 ≤ px) (hq : 0 ≤ q) (hle : q ≤ qty) :
    i.funds side px q + i.funds side px (qty - q) ≤ i.funds side px qty := by
  have hrest : 0 ≤ qty - q := by omega
  cases side with
  | buy =>
    have h := hi.money_add_le (mul_nonneg hpx hq) (mul_nonneg hpx hrest)
    rwa [← mul_add, add_sub_cancel] at h
  | sell =>
    simp only [Inst.funds, sub_mul]
    omega

theorem Inst.Scaled.funds_le (hi : i.Scaled) (hpx : 0 ≤ px) (hq : 0 ≤ q) (hle : q ≤ qty) :
    i.funds side px q ≤ i.funds side px qty := by
  have h : i.funds side px q + i.funds side px (qty - q) ≤ _ := hi.funds_add_le hpx hq hle
  have hrest : 0 ≤ i.funds side px (qty - q) := hi.funds_nonneg hpx (by omega)
  omega

theorem Inst.proceeds_eq_zero (hbase : k ≠ i.base) (hquote : k ≠ i.quote) :
    i.proceeds side px qty k = 0 := by
  cases side with
  | buy => rw [Inst.proceeds, if_neg hbase, if_neg hquote, add_zero]
  | sell => rw [Inst.proceeds, if_neg hbase, if_neg hquote, add_zero]

theorem Inst.Covers.lt (h : i.Covers side px qty) : i.funds side px qty < 2 ^ 63 := by
  cases side with
  | buy =>
    exact h.2.2.2
  | sell =>
    exact h.2

/-- A part of an order is covered where the order is. -/
theorem Inst.Covers.part (h : i.Covers side px qty) (hi : i.Scaled) (hpx : 0 ≤ px) (hq : 0 ≤ q)
    (hle : q ≤ qty) : i.Covers side px q := by
  have hmin : ∀ w : ℕ, (-2 ^ (w - 1) : ℤ) ≤ 0 := fun w =>
    neg_nonpos.mpr (pow_nonneg (by omega) _)
  have hfunds : 0 ≤ i.funds side px q := hi.funds_nonneg hpx hq
  have hmono : i.funds side px q ≤ i.funds side px qty := hi.funds_le hpx hq hle
  cases side with
  | buy =>
    have hticks : px * q ≤ px * qty := mul_le_mul_of_nonneg_left hle hpx
    have hticks0 : 0 ≤ px * q := mul_nonneg hpx hq
    obtain ⟨h₁, h₂, h₃⟩ := h
    exact ⟨⟨(hmin 128).trans hticks0, hticks.trans_lt h₁.2⟩,
      ⟨(hmin 128).trans (mul_nonneg hticks0 hi.tlMul),
        (mul_le_mul_of_nonneg_right hticks hi.tlMul).trans_lt h₂.2⟩,
      ⟨(hmin 64).trans hfunds, hmono.trans_lt h₃.2⟩⟩
  | sell =>
    exact ⟨(hmin 64).trans hfunds, hmono.trans_lt h.2⟩

theorem Inst.covers_zero (i : Inst) (side : Side) (px : ℤ) : i.Covers side px 0 := by
  cases side with
  | buy =>
    simp only [Inst.Covers, mul_zero, Inst.Exact, zero_mul, Inst.money_zero]
    decide
  | sell =>
    simp only [Inst.Covers, zero_mul]
    decide

/-- The code computes the exact funds where nothing overflows. -/
theorem reservation_eq_funds {a : Account} {inst : UInt16}
    (hexp : side = .buy → -38 ≤ (a.terms inst).tlExp) (h : (a.terms inst).Covers side px qty) :
    a.reservation inst side px qty = (a.terms inst).funds side px qty := by
  cases side with
  | buy => exact Inst.tlToMoney_eq (hexp rfl) h
  | sell => exact wrap_eq_self (by omega) h

/-- The code reserves the exact funds. -/
theorem reservation_eq {a : Account} {inst : UInt16} (hi : (a.terms inst).Scaled)
    (h : (a.terms inst).Covers side px qty) :
    a.reservation inst side px qty = (a.terms inst).funds side px qty :=
  reservation_eq_funds (fun _ => hi.tlExp) h

theorem sideAsset_eq (a : Account) (inst : UInt16) (side : Side) :
    a.sideAsset inst side = (a.terms inst).asset side := by
  cases side <;> rfl

/-- `reserve` adds the exact funds. -/
theorem reserved_reserve_eq {a : Account} {inst : UInt16} (hi : (a.terms inst).Scaled)
    (h : (a.terms inst).Covers side px qty)
    (hfit : Fits 64 ((a.bal ((a.terms inst).asset side)).reserved +
      (a.terms inst).funds side px qty)) (k : ℕ) :
    ((a.reserve inst side px qty).bal k).reserved = (a.bal k).reserved +
      if (a.terms inst).asset side = k then (a.terms inst).funds side px qty else 0 := by
  rw [reserved_reserve, reservation_eq hi h, sideAsset_eq]
  by_cases hk : k = (a.terms inst).asset side
  · subst hk
    rw [if_pos rfl, if_pos rfl, wrap_eq_self (by omega) hfit]
  · rw [if_neg hk, if_neg fun hc => hk hc.symm, add_zero]

/-- `release` takes the exact funds away. -/
theorem reserved_release_eq {a : Account} {inst : UInt16} (hi : (a.terms inst).Scaled)
    (h : (a.terms inst).Covers side px qty)
    (hfit : Fits 64 ((a.bal ((a.terms inst).asset side)).reserved -
      (a.terms inst).funds side px qty)) (k : ℕ) :
    ((a.release inst side px qty).bal k).reserved = (a.bal k).reserved -
      if (a.terms inst).asset side = k then (a.terms inst).funds side px qty else 0 := by
  rw [reserved_release, reservation_eq hi h, sideAsset_eq]
  by_cases hk : k = (a.terms inst).asset side
  · subst hk
    rw [if_pos rfl, if_pos rfl, wrap_eq_self (by omega) hfit]
  · rw [if_neg hk, if_neg fun hc => hk hc.symm, sub_zero]

/-- `release` of the old terms and `reserve` of the new ones. -/
theorem reserved_release_reserve_eq {a : Account} {inst : UInt16} {px' qty' : ℤ}
    (hi : (a.terms inst).Scaled) (h : (a.terms inst).Covers side px qty)
    (h' : (a.terms inst).Covers side px' qty')
    (hfit : Fits 64 ((a.bal ((a.terms inst).asset side)).reserved +
      ((a.terms inst).funds side px' qty' - (a.terms inst).funds side px qty))) (k : ℕ) :
    (((a.release inst side px qty).reserve inst side px' qty').bal k).reserved =
      (a.bal k).reserved + if (a.terms inst).asset side = k
        then (a.terms inst).funds side px' qty' - (a.terms inst).funds side px qty else 0 := by
  have hasset : (a.release inst side px qty).sideAsset inst side = (a.terms inst).asset side :=
    sideAsset_eq a inst side
  have hres : (a.release inst side px qty).reservation inst side px' qty' =
      (a.terms inst).funds side px' qty' := reservation_eq hi h'
  rw [reserved_reserve, reserved_release, hasset, hres, reservation_eq hi h, sideAsset_eq]
  by_cases hk : k = (a.terms inst).asset side
  · subst hk
    rw [if_pos rfl, if_pos rfl, if_pos rfl, wrap_wrap_add,
      show ∀ x y z : ℤ, x - y + z = x + (z - y) by omega, wrap_eq_self (by omega) hfit]
  · rw [if_neg hk, if_neg hk, if_neg fun hc => hk hc.symm, add_zero]

/-- A fill takes the exact funds of the executed lots away. -/
theorem reserved_onFill_eq {a : Account} {inst : UInt16} {orderPx : ℤ}
    (hi : (a.terms inst).Scaled) (h : (a.terms inst).Covers side orderPx qty)
    (hfit : Fits 64 ((a.bal ((a.terms inst).asset side)).reserved -
      (a.terms inst).funds side orderPx qty)) (px fee : ℤ) (feeInBase : Bool) (k : ℕ) :
    ((a.onFill inst side px qty orderPx fee feeInBase).bal k).reserved = (a.bal k).reserved -
      if (a.terms inst).asset side = k then (a.terms inst).funds side orderPx qty else 0 := by
  rw [reserved_onFill, ← reserved_release]
  exact reserved_release_eq hi h hfit k

/-- The code's proceeds are the exact ones. -/
theorem proceeds_eq {a : Account} {inst : UInt16} (hi : (a.terms inst).Scaled)
    (hmoney : (a.terms inst).Exact (px * qty)) (hbase : Fits 64 (qty * (a.terms inst).basePerLot))
    (side : Side) (k : ℕ) :
    a.proceeds inst side px qty k = (a.terms inst).proceeds side px qty k := by
  have hvalue : a.notional inst px qty = (a.terms inst).money (px * qty) := hi.tlToMoney_eq hmoney
  have hlots : a.baseUnits inst qty = qty * (a.terms inst).basePerLot :=
    wrap_eq_self (by omega) hbase
  cases side with
  | buy => rw [Account.proceeds, hvalue, hlots]; rfl
  | sell => rw [Account.proceeds, hvalue, hlots]; rfl

/-- **A fill at the limit or better** costs no more than the funds it releases. -/
theorem Inst.Scaled.proceeds_ge (hi : i.Scaled) (hpx : 0 ≤ px) {lastPx : ℤ} (hq : 0 ≤ q)
    (hbetter : AtLimitOrBetter side px lastPx) (k : ℕ) :
    0 ≤ i.proceeds side lastPx q k + if k = i.asset side then i.funds side px q else 0 := by
  have hbase := mul_nonneg hq hi.basePerLot
  cases side with
  | buy =>
    have hvalue := hi.money_mono (mul_le_mul_of_nonneg_right hbetter hq)
    simp only [Inst.proceeds, Inst.asset, Inst.funds]
    split_ifs <;> omega
  | sell =>
    have hvalue := hi.money_nonneg (mul_nonneg (hpx.trans hbetter) hq)
    simp only [Inst.proceeds, Inst.asset, Inst.funds]
    split_ifs <;> omega

end Funds

end Exec

end LowLatencyPipeline
