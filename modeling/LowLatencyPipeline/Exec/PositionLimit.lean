import LowLatencyPipeline.Exec.Engine
import Mathlib.Algebra.Order.Group.Abs

/-!
# The position limit

With `max_position = M` set, exec is meant to stay within `M` even if every open order filled.
The gate counts the open lots of live orders, but not what the amends in flight will add to
them, so two requests may each pass and together exceed the limit: `positionLimit_exceeded` is
such a run. `position_within_limit` says that this is the only way: as long as no admitted
request relies on the room of an amend in flight (`GateCounts`), and no amend is confirmed
below what was filled already, the limit holds throughout.

The invariant `Within` charges every order with the larger of its open lots and those it will
have once its amend is confirmed. A fill moves lots from this charge into the position, and a
confirmation moves them within the charge.
-/

namespace LowLatencyPipeline

namespace Exec

universe u

variable {ρ : Type u}

/-- The lots an amend in flight will add to an order. -/
def growth (inFlight : List UInt64) (r : OrderRow) : ℤ :=
  if r.id ∈ inFlight then max 0 (r.newQty - r.cum - r.leaves) else 0

/-- The lots an order is charged with. -/
def charge (inFlight : List UInt64) (r : OrderRow) : ℤ := r.leaves + growth inFlight r

/-- A position seen from a side: lots held for a buy, lots short for a sell. -/
def toward (side : Side) (qty : ℤ) : ℤ :=
  match side with
  | .buy => qty
  | .sell => -qty

namespace Engine

variable (s : Engine ρ)

/-- The position of an instrument seen from a side. -/
def held (side : Side) (inst : UInt16) : ℤ := toward side (s.x.account.position inst).qty

/-- The open lots and the amends in flight of a side. -/
def load (side : Side) (inst : UInt16) : ℤ :=
  sumIf (OnSide side inst) (charge s.inFlight) s.x.orders.rows

/-- What the amends in flight of the other orders of a side will add. -/
def otherGrowth (id : UInt64) (side : Side) (inst : UInt16) : ℤ :=
  sumIf (OnSide side inst) (fun r => if r.id = id then 0 else growth s.inFlight r) s.x.orders.rows

/-- The gate sees all there is to see when it admits `add` more lots for an order: either no
other order of the side has an amend in flight that enlarges it, or the request also fits with
those amends counted. No 64-bit sum overflows. -/
def CountsAmends (M : ℤ) (id : UInt64) (side : Side) (inst : UInt16) (add : ℤ) : Prop :=
  s.held side inst + sumIf (OnSide side inst) OrderRow.leaves s.x.orders.rows + add < 2 ^ 63 ∧
  sumIf (OnSide side inst) OrderRow.leaves s.x.orders.rows + s.otherGrowth id side inst + add <
    2 ^ 63 ∧
  (s.otherGrowth id side inst = 0 ∨
    s.held side inst + sumIf (OnSide side inst) OrderRow.leaves s.x.orders.rows +
      s.otherGrowth id side inst + add ≤ M)

/-- **The condition on a step**: the gate does not overlook an amend in flight in a request that
it admits, and no amend is confirmed below the quantity filled already. -/
def GateCounts (M : ℤ) (s : Engine ρ) : EngineStep ρ → Prop
  | .call (.submit side px qty tif type) =>
    s.x.admits (s.x.orderCheck side px qty tif type) = .ok () →
      s.CountsAmends M 0 side s.x.view.instrument qty
  | .call (.replace id px qty) =>
    ∀ row, s.x.orders.find id = some row → s.x.admitsReplace row px qty = .ok () →
      row.leaves < qty - row.cum →
        s.CountsAmends M id row.side row.instrument (qty - row.cum - row.leaves)
  | .report rep _ =>
    rep.execType = .replaced → ∀ row, s.x.orders.find rep.clOrdId = some row → row.cum ≤ row.newQty
  | _ => True

end Engine

/-- What holds of every row: no count is negative, and the total is 64-bit. -/
structure RowOk (r : OrderRow) : Prop where
  leaves : 0 ≤ r.leaves
  cum : 0 ≤ r.cum
  total : r.cum + r.leaves < 2 ^ 63
  newQty : Fits 64 r.newQty

/-- **The invariant**: position and charged lots of each side are within the limit. -/
structure Within (M : ℤ) (s : Engine ρ) : Prop where
  limit : s.x.risk.lim.maxPosition = M
  row_ok : ∀ r ∈ s.x.orders.rows, RowOk r
  load_le : ∀ side inst, s.held side inst + s.load side inst ≤ M
  load_lt : ∀ side inst, s.load side inst < 2 ^ 63

section Invariant

variable {M : ℤ} {s t : Engine ρ}

theorem growth_nonneg (inFlight : List UInt64) (r : OrderRow) : 0 ≤ growth inFlight r := by
  unfold growth
  split_ifs
  · exact le_max_left _ _
  · exact le_rfl

theorem charge_nonneg {r : OrderRow} (h : RowOk r) (inFlight : List UInt64) :
    0 ≤ charge inFlight r := add_nonneg h.leaves (growth_nonneg _ _)

theorem Within.load_nonneg (h : Within M s) (side : Side) (inst : UInt16) :
    0 ≤ s.load side inst :=
  sumIf_nonneg fun r hr => charge_nonneg (h.row_ok r hr) _

/-- The two sides bound the position from both ends. -/
theorem Within.held_range (h : Within M s) (side : Side) (inst : UInt16) :
    -M ≤ s.held side inst ∧ s.held side inst ≤ M := by
  have hbuy := h.load_le .buy inst
  have hsell := h.load_le .sell inst
  have hbuy0 := h.load_nonneg .buy inst
  have hsell0 := h.load_nonneg .sell inst
  cases side <;> simp only [Engine.held, toward] at * <;> omega

/-- The load is made of the open lots and the growth. -/
theorem load_eq (s : Engine ρ) (side : Side) (inst : UInt16) :
    s.load side inst = sumIf (OnSide side inst) OrderRow.leaves s.x.orders.rows +
      sumIf (OnSide side inst) (growth s.inFlight) s.x.orders.rows := sumIf_add

/-- **The core of every step**: `d` lots move from the load of one side into the position. -/
theorem Within.of_load (h : Within M s) (hlimit : t.x.risk.lim.maxPosition = M)
    (hrow : ∀ r ∈ t.x.orders.rows, RowOk r) (side₀ : Side) (inst₀ : UInt16) {d : ℤ} (hd : 0 ≤ d)
    (hload : ∀ side inst, t.load side inst + (if side₀ = side ∧ inst₀ = inst then d else 0) ≤
      s.load side inst)
    (hheld : ∀ side inst, t.held side inst ≤
      s.held side inst + if side₀ = side ∧ inst₀ = inst then d else 0) : Within M t := by
  refine ⟨hlimit, hrow, fun side inst => ?_, fun side inst => ?_⟩
  · have h₁ := hload side inst
    have h₂ := hheld side inst
    have h₃ := h.load_le side inst
    omega
  · have h₁ := hload side inst
    have h₂ := h.load_lt side inst
    split_ifs at h₁ <;> omega

/-- Rows that were not touched keep their charge when the amends in flight of one id change. -/
theorem sumIf_charge_congr {rest : Multiset OrderRow} {l l' : List UInt64} {id : UInt64}
    (hid : ∀ r ∈ rest, r.id ≠ id) (hmem : ∀ i, i ≠ id → (i ∈ l' ↔ i ∈ l)) (side : Side)
    (inst : UInt16) :
    sumIf (OnSide side inst) (charge l') rest = sumIf (OnSide side inst) (charge l) rest :=
  sumIf_congr fun r hr => by simp only [charge, growth, hmem r.id (hid r hr)]

/-- **Replacing one row**: its new charge and the `d` lots executed come out of its old one. -/
theorem Within.swap (h : Within M s) {row row' : OrderRow} {rest : Multiset OrderRow}
    (hrows : s.x.orders.rows = row ::ₘ rest) (hrows' : t.x.orders.rows = row' ::ₘ rest)
    (hlimit : t.x.risk.lim.maxPosition = M) (hside : row'.side = row.side)
    (hinst : row'.instrument = row.instrument)
    (hmem : ∀ i, i ≠ row.id → (i ∈ t.inFlight ↔ i ∈ s.inFlight)) (hok : RowOk row') {d : ℤ}
    (hd : 0 ≤ d) (hcharge : charge t.inFlight row' + d ≤ charge s.inFlight row)
    (hheld : ∀ side inst, t.held side inst ≤
      s.held side inst + if row.side = side ∧ row.instrument = inst then d else 0) :
    Within M t := by
  refine h.of_load hlimit (fun r hr => ?_) row.side row.instrument hd (fun side inst => ?_) hheld
  · rw [hrows'] at hr
    rcases Multiset.mem_cons.mp hr with rfl | hr
    · exact hok
    · exact h.row_ok r (hrows ▸ Multiset.mem_cons_of_mem hr)
  · have hrest := sumIf_charge_congr (fun r hr => OrderTable.id_ne_of_cons hrows hr) hmem side inst
    rw [Engine.load, Engine.load, hrows, hrows', sumIf_cons, sumIf_cons, hrest]
    simp only [OnSide, hside, hinst]
    split_ifs <;> omega

/-- **Dropping rows** only frees load. -/
theorem Within.drop (h : Within M s) (hle : t.x.orders.rows ≤ s.x.orders.rows)
    (hlimit : t.x.risk.lim.maxPosition = M)
    (hgrowth : ∀ r, growth t.inFlight r ≤ growth s.inFlight r)
    (hheld : ∀ side inst, t.held side inst = s.held side inst) : Within M t := by
  have hok : ∀ r ∈ t.x.orders.rows, RowOk r := fun r hr => h.row_ok r (Multiset.mem_of_le hle hr)
  refine h.of_load hlimit hok .buy 0 le_rfl (fun side inst => ?_) (fun side inst => ?_)
  · have hsum : sumIf (OnSide side inst) (charge s.inFlight) t.x.orders.rows ≤
        sumIf (OnSide side inst) (charge s.inFlight) s.x.orders.rows :=
      sumIf_le_of_le hle fun r hr => charge_nonneg (h.row_ok r hr) _
    have hcharge : t.load side inst ≤
        sumIf (OnSide side inst) (charge s.inFlight) t.x.orders.rows :=
      sumIf_mono fun r _ => by
        have := hgrowth r
        simp only [charge]
        omega
    change _ ≤ sumIf (OnSide side inst) (charge s.inFlight) s.x.orders.rows
    split_ifs <;> omega
  · rw [hheld]
    split_ifs <;> omega

/-- **Raising the load** of one side, after the gate has counted it. -/
theorem Within.raise (h : Within M s) (hlimit : t.x.risk.lim.maxPosition = M)
    (hrow : ∀ r ∈ t.x.orders.rows, RowOk r) (side₀ : Side) (inst₀ : UInt16)
    (hother : ∀ side inst, ¬ (side₀ = side ∧ inst₀ = inst) → t.load side inst ≤ s.load side inst)
    (hle : s.held side₀ inst₀ + t.load side₀ inst₀ ≤ M) (hlt : t.load side₀ inst₀ < 2 ^ 63)
    (hheld : ∀ side inst, t.held side inst = s.held side inst) : Within M t := by
  refine ⟨hlimit, hrow, fun side inst => ?_, fun side inst => ?_⟩
  · by_cases hside : side₀ = side ∧ inst₀ = inst
    · obtain ⟨rfl, rfl⟩ := hside
      rw [hheld]
      exact hle
    · have h₁ := hother side inst hside
      have h₂ := h.load_le side inst
      rw [hheld]
      omega
  · by_cases hside : side₀ = side ∧ inst₀ = inst
    · obtain ⟨rfl, rfl⟩ := hside
      exact hlt
    · exact (hother side inst hside).trans_lt (h.load_lt side inst)

/-! ### The gate -/

theorem Within.openLots_nonneg (h : Within M s) (side : Side) (inst : UInt16) :
    0 ≤ sumIf (OnSide side inst) OrderRow.leaves s.x.orders.rows :=
  sumIf_nonneg fun r hr => (h.row_ok r hr).leaves

theorem Within.growthSum_nonneg (s : Engine ρ) (side : Side) (inst : UInt16) :
    0 ≤ sumIf (OnSide side inst) (growth s.inFlight) s.x.orders.rows :=
  sumIf_nonneg fun r _ => growth_nonneg s.inFlight r

/-- The worst case of the gate is exact. -/
theorem Within.worstPosition_eq (h : Within M s) (hM : M < 2 ^ 63) {side : Side} {inst : UInt16}
    {add : ℤ} (hadd : 0 ≤ add)
    (hroom : s.held side inst + sumIf (OnSide side inst) OrderRow.leaves s.x.orders.rows + add <
      2 ^ 63) :
    RiskGate.worstPosition inst side add s.x.account s.x.orders =
      toward side
        (s.held side inst + sumIf (OnSide side inst) OrderRow.leaves s.x.orders.rows + add) := by
  have hopen := h.openLots_nonneg side inst
  have hgrowth := Within.growthSum_nonneg s side inst
  have hload := load_eq s side inst
  have hlt := h.load_lt side inst
  have hle := h.load_le side inst
  obtain ⟨hlow, -⟩ := h.held_range side inst
  have hlots : s.x.orders.openLots side inst =
      sumIf (OnSide side inst) OrderRow.leaves s.x.orders.rows := by
    rw [OrderTable.openLots_eq, openLots_eq_sumIf, wrap_eq_self (by omega) ⟨by omega, by omega⟩]
  unfold RiskGate.worstPosition
  cases side <;> simp only [hlots, wrap_wrap_add, wrap_wrap_sub, Engine.held, toward] at *
  · rw [wrap_eq_self (by omega) ⟨by omega, by omega⟩]
    omega
  · rw [wrap_eq_self (by omega) ⟨by omega, by omega⟩]

/-- **A counted request fits**, with the amends in flight of the other orders. -/
theorem Within.admitted (h : Within M s) (hM0 : 0 < M) (hM : M < 2 ^ 63) {id : UInt64} {side : Side}
    {inst : UInt16} {add px : ℤ} (hadd : 0 ≤ add) (hcounts : s.CountsAmends M id side inst add)
    (hcheck : s.x.risk.positionCheck inst side add px s.x.account s.x.orders = .ok ()) :
    s.held side inst + sumIf (OnSide side inst) OrderRow.leaves s.x.orders.rows +
      s.otherGrowth id side inst + add ≤ M := by
  obtain ⟨hroom, -, hnone | hfits⟩ := hcounts
  · have hworst := h.worstPosition_eq hM hadd hroom
    have hopen := h.openLots_nonneg side inst
    obtain ⟨hlow, -⟩ := h.held_range side inst
    have habs := RiskGate.positionCheck_ok hcheck (by rw [h.limit]; omega) (by
      rw [hworst]
      cases side <;> simp only [toward] <;> omega)
    rw [hworst, h.limit, abs_le] at habs
    rw [hnone]
    cases side <;> simp only [toward] at habs <;> omega
  · exact hfits

/-! ### The calls -/

variable [Router ρ]

/-- A new order is charged with its quantity. -/
theorem charge_newRow {o : OrderCheck} (hqty : 0 < o.qty) (x : ExecContext) (id : UInt64)
    (inFlight : List UInt64) : charge inFlight (x.newRow id o) = o.qty := by
  have hgrowth :
      max 0 ((x.newRow id o).newQty - (x.newRow id o).cum - (x.newRow id o).leaves) = 0 :=
    max_eq_left (show 0 - 0 - o.qty ≤ 0 by omega)
  rw [charge, growth, hgrowth, ite_self, add_zero]
  rfl

theorem rowOk_newRow {o : OrderCheck} (hqty : 0 < o.qty) (hfits : Fits 64 o.qty) (x : ExecContext)
    (id : UInt64) : RowOk (x.newRow id o) :=
  ⟨hqty.le, le_rfl, show 0 + o.qty < 2 ^ 63 by rw [zero_add]; exact hfits.2,
    show Fits 64 0 by decide⟩

/-- A submit. -/
theorem Within.submit (h : Within M s) (hM0 : 0 < M) (hM : M < 2 ^ 63) {side : Side}
    {px qty : ℤ} {tif : Tif} {type : OrdType}
    (hcond : s.GateCounts M (.call (.submit side px qty tif type)))
    (htyped : Fits 64 qty) : Within M (s.makeCall (.submit side px qty tif type)) := by
  have hcall : (s.makeCall (.submit side px qty tif type)).x =
      (s.toStrategyContext.submit side px qty tif type).1.x := rfl
  rcases s.toStrategyContext.submit_cases side px qty tif type with
    ⟨orders, lastReject, st, heq, hle⟩ |
    ⟨o, row, ho, hadmits, hrow, orders, rate, st, heq, hrows⟩
  · rw [heq] at hcall
    exact h.drop (by rw [hcall]; exact hle) (by rw [hcall]; exact h.limit) (fun _ => le_rfl)
      fun side inst => by rw [Engine.held, hcall]; rfl
  · rw [heq] at hcall
    have hheld : ∀ side' inst, (s.makeCall (.submit side px qty tif type)).held side' inst =
        s.held side' inst := fun side' inst => by rw [Engine.held, hcall]; rfl
    rcases hrows with hrows | hrows
    · obtain ⟨hok, -⟩ := admits_ok hadmits
      have hcounts := hcond (ho ▸ hadmits)
      obtain ⟨hoside, hoinst, hoqty⟩ : o.side = side ∧ o.instrument = s.x.view.instrument ∧
          o.qty = qty := by
        subst ho
        exact ⟨rfl, rfl, rfl⟩
      have hadmitted := h.admitted hM0 hM hok.qty_pos.le (by rwa [hoside, hoinst, hoqty])
        hok.position
      rw [hoside, hoinst, hoqty] at hadmitted
      -- no live order has the id 0
      have hother : s.otherGrowth 0 side s.x.view.instrument =
          sumIf (OnSide side s.x.view.instrument) (growth s.inFlight) s.x.orders.rows :=
        sumIf_congr fun r hr => if_neg (OrderTable.id_ne_zero hr)
      have hload := load_eq s side s.x.view.instrument
      have hnew : ∀ side' inst, (s.makeCall (.submit side px qty tif type)).load side' inst =
          (if side = side' ∧ s.x.view.instrument = inst then qty else 0) + s.load side' inst := by
        intro side' inst
        rw [Engine.load, hcall]
        dsimp only
        rw [hrows, sumIf_cons, hrow, charge_newRow hok.qty_pos, ← hoside, ← hoinst, ← hoqty]
        rfl
      have hnew₀ := hnew side s.x.view.instrument
      rw [if_pos ⟨rfl, rfl⟩] at hnew₀
      have hlt := hcounts.2.1
      refine h.raise (by rw [hcall]; exact h.limit) (fun r hr => ?_) side s.x.view.instrument
        (fun side' inst hne => ?_) (by omega) (by omega) hheld
      · rw [hcall, hrows] at hr
        rcases Multiset.mem_cons.mp hr with rfl | hr
        · rw [hrow]
          exact rowOk_newRow hok.qty_pos (hoqty ▸ htyped) _ _
        · exact h.row_ok r hr
      · rw [hnew, if_neg hne, zero_add]
    · exact h.drop (by rw [hcall]; exact hrows.le) (by rw [hcall]; exact h.limit)
        (fun _ => le_rfl) hheld

/-- A replace. -/
theorem Within.replace (h : Within M s) (hM0 : 0 < M) (hM : M < 2 ^ 63) {id : UInt64}
    {px qty : ℤ} (hcond : s.GateCounts M (.call (.replace id px qty))) (htyped : Fits 64 qty) :
    Within M (s.makeCall (.replace id px qty)) := by
  have hcall : (s.makeCall (.replace id px qty)).x =
      (s.toStrategyContext.replace id px qty).1.x := rfl
  rcases s.toStrategyContext.replace_cases id px qty with
    ⟨hfalse, lastReject, st, heq⟩ |
    ⟨htrue, row, rest, rfl, hrows, -, -, hadmits, orders, rate, st, heq, hrows'⟩
  · rw [heq] at hcall
    exact h.drop (by rw [hcall]) (by rw [hcall]; exact h.limit)
      (fun r => by simp [Engine.makeCall, hfalse]) fun side inst => by rw [Engine.held, hcall]; rfl
  · rw [heq] at hcall
    have hin : (s.makeCall (.replace row.id px qty)).inFlight = row.id :: s.inFlight := by
      simp [Engine.makeCall, htrue]
    have hheld : ∀ side inst, (s.makeCall (.replace row.id px qty)).held side inst =
        s.held side inst := fun side inst => by rw [Engine.held, hcall]; rfl
    have hmem : ∀ i, i ≠ row.id → (i ∈ row.id :: s.inFlight ↔ i ∈ s.inFlight) := fun i hi => by
      simp [hi]
    obtain ⟨hcum, -, hcheck, -⟩ := admitsReplace_ok hadmits
    have hrow := h.row_ok row (OrderTable.mem_rows_of_cons hrows)
    have hleaves := hrow.leaves
    have hcum0 := hrow.cum
    have hok : RowOk ((setPendingReplace px qty).run row) :=
      ⟨hrow.leaves, hrow.cum, hrow.total, htyped⟩
    have hcharge : charge (row.id :: s.inFlight) ((setPendingReplace px qty).run row) =
        max row.leaves (qty - row.cum) := by
      have hin : ((setPendingReplace px qty).run row).id ∈ row.id :: s.inFlight :=
        List.mem_cons_self
      rw [charge, growth, if_pos hin]
      change row.leaves + max 0 (qty - row.cum - row.leaves) = _
      omega
    have hold : row.leaves ≤ charge s.inFlight row :=
      le_add_of_nonneg_right (growth_nonneg _ _)
    have hrows₁ : (s.makeCall (.replace row.id px qty)).x.orders.rows =
        (setPendingReplace px qty).run row ::ₘ rest := by rw [hcall]; exact hrows'
    by_cases hgrow : row.leaves < qty - row.cum
    · obtain ⟨hlow, hhigh⟩ := htyped
      have hleaves' : wrap 64 (qty - row.cum) = qty - row.cum :=
        wrap_eq_self (by omega) ⟨by omega, by omega⟩
      have hadd : wrap 64 (wrap 64 (qty - row.cum) - row.leaves) = qty - row.cum - row.leaves := by
        rw [hleaves', wrap_eq_self (by omega) ⟨by omega, by omega⟩]
      have hfind := OrderTable.find_eq_some.mpr ⟨OrderTable.mem_rows_of_cons hrows, rfl⟩
      have hcounts := hcond row hfind hadmits hgrow
      have hadmitted := h.admitted hM0 hM (by omega) hcounts
        (by rw [← hadd]; exact hcheck (by omega))
      have hlt := hcounts.2.1
      -- the other rows carry the growth that the gate was shown
      have hother : s.otherGrowth row.id row.side row.instrument =
          sumIf (OnSide row.side row.instrument) (growth s.inFlight) rest := by
        rw [Engine.otherGrowth, hrows, sumIf_cons, if_pos ⟨rfl, rfl⟩, if_pos rfl, zero_add]
        exact sumIf_congr fun r hr => if_neg (OrderTable.id_ne_of_cons hrows hr)
      have hrest := fun side inst => sumIf_charge_congr
        (fun r hr => OrderTable.id_ne_of_cons hrows hr) hmem side inst
      have hsplit : sumIf (OnSide row.side row.instrument) (charge s.inFlight) rest =
          sumIf (OnSide row.side row.instrument) OrderRow.leaves rest +
            sumIf (OnSide row.side row.instrument) (growth s.inFlight) rest := sumIf_add
      have hopen : sumIf (OnSide row.side row.instrument) OrderRow.leaves s.x.orders.rows =
          row.leaves + sumIf (OnSide row.side row.instrument) OrderRow.leaves rest := by
        rw [hrows, sumIf_cons, if_pos ⟨rfl, rfl⟩]
      have hnew : (s.makeCall (.replace row.id px qty)).load row.side row.instrument =
          qty - row.cum + sumIf (OnSide row.side row.instrument) (charge s.inFlight) rest := by
        rw [Engine.load, hrows₁, hin, sumIf_cons, if_pos ⟨rfl, rfl⟩, hcharge, hrest]
        omega
      refine h.raise (by rw [hcall]; exact h.limit) (fun r hr => ?_) row.side row.instrument
        (fun side inst hne => ?_) (by omega) (by omega) hheld
      · rw [hrows₁] at hr
        rcases Multiset.mem_cons.mp hr with rfl | hr
        · exact hok
        · exact h.row_ok r (hrows ▸ Multiset.mem_cons_of_mem hr)
      · rw [Engine.load, Engine.load, hrows₁, hrows, hin, sumIf_cons, sumIf_cons, hrest,
          if_neg hne]
        exact (congrArg (· + _) (if_neg hne)).le
    · refine h.swap hrows hrows₁ (by rw [hcall]; exact h.limit) rfl rfl (by rwa [hin]) hok le_rfl
        ?_ fun side inst => ?_
      · rw [hin, hcharge]
        omega
      · rw [hheld]
        split_ifs <;> omega

/-- A cancel. -/
theorem Within.cancel (h : Within M s) (id : UInt64) {c : StrategyContext ρ}
    (hc : c = (s.toStrategyContext.cancel id).1) : Within M { s with toStrategyContext := c } := by
  rcases s.toStrategyContext.cancel_cases id with
    ⟨lastReject, st, heq⟩ | ⟨row, rest, rfl, hrows, orders, rate, st, heq, hrows'⟩
  · rw [← hc] at heq
    exact h.drop (by rw [heq]) (by rw [heq]; exact h.limit) (fun _ => le_rfl)
      fun side inst => by rw [Engine.held, heq]; rfl
  · rw [← hc] at heq
    have hrow := h.row_ok row (OrderTable.mem_rows_of_cons hrows)
    refine h.swap hrows (show _ = setPendingCancel.run row ::ₘ _ by rw [heq]; exact hrows')
      (by rw [heq]; exact h.limit) rfl rfl (fun _ _ => Iff.rfl)
      ⟨hrow.leaves, hrow.cum, hrow.total, hrow.newQty⟩ le_rfl ?_ fun side inst => ?_
    · rw [add_zero]
      exact le_rfl
    · rw [Engine.held, Engine.held, heq]
      dsimp only
      split_ifs <;> omega

/-! ### The reports -/

omit [Router ρ] in
theorem growth_deliver_le (s : Engine ρ) (rep : ExecReport) (answersReplace : Bool)
    (r : OrderRow) : growth (s.deliver rep answersReplace).inFlight r ≤ growth s.inFlight r := by
  unfold growth
  split_ifs with h₁ h₂
  · exact le_rfl
  · exact absurd (s.deliver_inFlight_subset rep answersReplace h₁) h₂
  · exact le_max_left _ _
  · exact le_rfl

omit [Router ρ] in
/-- A report that drops the order. -/
theorem Within.finish (h : Within M s) {rep : ExecReport} {answersReplace : Bool} {row : OrderRow}
    {rest : Multiset OrderRow} (hid : row.id = rep.clOrdId)
    (hrows : s.x.orders.rows = row ::ₘ rest)
    (hrows' : (s.deliver rep answersReplace).x.orders.rows = rest)
    (hrisk : (s.deliver rep answersReplace).x.risk = s.x.risk) {d : ℤ} (hd : 0 ≤ d)
    (hle : d ≤ row.leaves)
    (hheld : ∀ side inst, (s.deliver rep answersReplace).held side inst ≤
      s.held side inst + if row.side = side ∧ row.instrument = inst then d else 0) :
    Within M (s.deliver rep answersReplace) := by
  have hids : ∀ r ∈ rest, r.id ≠ row.id := fun r hr => OrderTable.id_ne_of_cons hrows hr
  refine h.of_load (by rw [hrisk]; exact h.limit) (fun r hr => ?_) row.side row.instrument hd
    (fun side inst => ?_) hheld
  · rw [hrows'] at hr
    exact h.row_ok r (hrows ▸ Multiset.mem_cons_of_mem hr)
  · have hrest := sumIf_charge_congr hids
      (fun i hi => Engine.mem_deliver_inFlight s rep answersReplace (hid ▸ hi)) side inst
    have hgrowth := growth_nonneg s.inFlight row
    have hrow := (h.row_ok row (OrderTable.mem_rows_of_cons hrows)).leaves
    rw [Engine.load, Engine.load, hrows', hrows, sumIf_cons, hrest, charge]
    split_ifs <;> omega

omit [Router ρ] in
/-- A report that changes the row but not its charge (or lowers it). -/
theorem Within.touch (h : Within M s) {rep : ExecReport} {answersReplace : Bool}
    {row row' : OrderRow} {rest : Multiset OrderRow} (hid : row.id = rep.clOrdId)
    (hrows : s.x.orders.rows = row ::ₘ rest)
    (hrows' : (s.deliver rep answersReplace).x.orders.rows = row' ::ₘ rest)
    (hrisk : (s.deliver rep answersReplace).x.risk = s.x.risk) (hside : row'.side = row.side)
    (hinst : row'.instrument = row.instrument) (hok : RowOk row') {d : ℤ} (hd : 0 ≤ d)
    (hcharge : charge (s.deliver rep answersReplace).inFlight row' + d ≤ charge s.inFlight row)
    (hheld : ∀ side inst, (s.deliver rep answersReplace).held side inst ≤
      s.held side inst + if row.side = side ∧ row.instrument = inst then d else 0) :
    Within M (s.deliver rep answersReplace) :=
  h.swap hrows hrows' (by rw [hrisk]; exact h.limit) hside hinst
    (fun i hi => Engine.mem_deliver_inFlight s rep answersReplace (hid ▸ hi)) hok hd hcharge hheld

omit [Router ρ] in
/-- A fill. -/
theorem Within.fill (h : Within M s) (hM : M < 2 ^ 63) {rep : ExecReport} {answersReplace : Bool}
    {row : OrderRow} {rest : Multiset OrderRow} (hid : row.id = rep.clOrdId)
    (hrows : s.x.orders.rows = row ::ₘ rest)
    (hx : (s.deliver rep answersReplace).x = s.x.applyFill row rep) (hq : 0 ≤ rep.lastQty)
    (hle : rep.lastQty ≤ row.leaves) : Within M (s.deliver rep answersReplace) := by
  have hmem := OrderTable.mem_rows_of_cons hrows
  have hrow := h.row_ok row hmem
  have hcum := hrow.cum
  have htotal := hrow.total
  have hheld : ∀ side inst, (s.deliver rep answersReplace).held side inst ≤
      s.held side inst + if row.side = side ∧ row.instrument = inst then rep.lastQty else 0 := by
    intro side inst
    have hload : row.leaves ≤ sumIf (OnSide row.side row.instrument) OrderRow.leaves _ :=
      le_sumIf_of_mem hmem ⟨rfl, rfl⟩ fun r hr => (h.row_ok r hr).leaves
    have hopen := load_eq s row.side row.instrument
    have hgrowth := Within.growthSum_nonneg s row.side row.instrument
    have hlimit := h.load_le row.side row.instrument
    obtain ⟨hlow, hhigh⟩ := h.held_range row.side row.instrument
    have hsigned : signedQty row.side rep.lastQty = _ := signedQty_eq ⟨hq, by omega⟩
    have hpos : ((s.x.account.onFill row.instrument row.side rep.lastPx rep.lastQty row.px rep.fee
        rep.feeInBase).position inst).qty = _ := position_onFill_qty (by
        cases hside : row.side <;> simp only [hside, Engine.held, toward] at * <;> omega)
      ⟨hq, by omega⟩ (by
        rw [hsigned]
        constructor <;> cases hside : row.side <;> simp only [hside, Engine.held, toward] at * <;>
          omega)
    rw [Engine.held, hx, position_applyFill, hpos, hsigned, Engine.held]
    by_cases hinst : inst = row.instrument
    · subst hinst
      rw [if_pos rfl]
      cases hside : row.side <;> cases side <;> simp [toward] <;> omega
    · rw [if_neg hinst, if_neg fun hc => hinst hc.2.symm]
      simp
  have hleaves : (ExecContext.filledRow row rep).leaves = row.leaves - rep.lastQty :=
    filledRow_leaves hq hle (by omega)
  have hcum' : (ExecContext.filledRow row rep).cum = row.cum + rep.lastQty :=
    filledRow_cum hq hcum (by omega)
  have hrows' := hx ▸ rows_applyFill hrows rep
  rw [hleaves] at hrows'
  by_cases hdone : row.leaves - rep.lastQty = 0
  · rw [if_pos hdone] at hrows'
    exact h.finish hid hrows hrows' (by rw [hx, risk_applyFill]) hq hle hheld
  · rw [if_neg hdone] at hrows'
    refine h.touch hid hrows hrows' (by rw [hx, risk_applyFill]) rfl rfl
      ⟨by omega, by omega, by omega, hrow.newQty⟩ hq ?_ hheld
    -- the lots filled leave the charge; what the amend will add is as before
    have hgrowth := growth_deliver_le s rep answersReplace (ExecContext.filledRow row rep)
    have hsame : growth s.inFlight (ExecContext.filledRow row rep) = growth s.inFlight row := by
      simp only [growth, hleaves, hcum']
      rw [show (ExecContext.filledRow row rep).newQty - (row.cum + rep.lastQty) -
        (row.leaves - rep.lastQty) = row.newQty - row.cum - row.leaves by
          change row.newQty - _ - _ = _
          omega]
      rfl
    rw [charge, charge, hleaves]
    omega

omit [Router ρ] in
/-- The confirmation of an amend. -/
theorem Within.replaced (h : Within M s) {rep : ExecReport} {answersReplace : Bool}
    {row : OrderRow} {rest : Multiset OrderRow} (hid : row.id = rep.clOrdId)
    (hrows : s.x.orders.rows = row ::ₘ rest)
    (hx : (s.deliver rep answersReplace).x = s.x.applyReplaced row)
    (hin : rep.clOrdId ∈ s.inFlight) (hcum : row.cum ≤ row.newQty) :
    Within M (s.deliver rep answersReplace) := by
  have hrow := h.row_ok row (OrderTable.mem_rows_of_cons hrows)
  obtain ⟨hlow, hhigh⟩ := hrow.newQty
  have hcum0 := hrow.cum
  have hleaves : (ExecContext.replacedRow row).leaves = row.newQty - row.cum :=
    replacedRow_leaves hcum0 hcum (by omega)
  refine h.touch hid hrows
    (show _ = ExecContext.replacedRow row ::ₘ _ by rw [hx]; exact rows_applyReplaced hrows)
    (by rw [hx]; rfl) rfl rfl
    ⟨by omega, hrow.cum, ?_, hrow.newQty⟩ le_rfl ?_ fun side inst => ?_
  · change row.cum + (ExecContext.replacedRow row).leaves < 2 ^ 63
    omega
  · -- its growth has become open lots
    have hgrowth := growth_deliver_le s rep answersReplace (ExecContext.replacedRow row)
    have hnone : growth s.inFlight (ExecContext.replacedRow row) = 0 := by
      have hzero : max 0 ((ExecContext.replacedRow row).newQty - (ExecContext.replacedRow row).cum -
          (ExecContext.replacedRow row).leaves) = 0 := by
        refine max_eq_left ?_
        change row.newQty - row.cum - (ExecContext.replacedRow row).leaves ≤ 0
        omega
      rw [growth, hzero, ite_self]
    -- until now the gate counted the growth of the amend in flight
    have hbefore : growth s.inFlight row = max 0 (row.newQty - row.cum - row.leaves) :=
      if_pos (hid ▸ hin)
    rw [charge, charge, hleaves]
    omega
  · rw [Engine.held, Engine.held, hx]
    change toward side (s.x.account.position inst).qty ≤ _
    split_ifs <;> omega

omit [Router ρ] in
/-- A report. -/
theorem Within.report (h : Within M s) (hM : M < 2 ^ 63) {rep : ExecReport} {answersReplace : Bool}
    (hrep : s.Reports rep) (hcond : s.GateCounts M (.report rep answersReplace)) :
    Within M (s.deliver rep answersReplace) := by
  have heffect : ReportEffect s.x rep (s.deliver rep answersReplace).x :=
    applyReport_effect s.x rep
  have hgrowth := growth_deliver_le s rep answersReplace
  generalize hx : (s.deliver rep answersReplace).x = x at heffect
  cases heffect with
  | unknown st hfind =>
    exact h.drop (by rw [hx]) (by rw [hx]; exact h.limit) hgrowth
      fun side inst => by rw [Engine.held, hx]; rfl
  | kept row row' rest orders st hfind hid hrows hrows' hsame =>
    have hrow := h.row_ok row (OrderTable.mem_rows_of_cons hrows)
    have hg := hgrowth row'
    -- nothing the charge looks at has changed
    have hg' : growth s.inFlight row' = growth s.inFlight row := by
      simp only [growth, hsame.id, hsame.newQty, hsame.cum, hsame.leaves]
    refine h.touch hid hrows (by rw [hx]; exact hrows') (by rw [hx]) hsame.side hsame.instrument
      ⟨hsame.leaves ▸ hrow.leaves, hsame.cum ▸ hrow.cum, hsame.cum ▸ hsame.leaves ▸ hrow.total,
        hsame.newQty ▸ hrow.newQty⟩ le_rfl ?_ fun side inst => ?_
    · rw [charge, charge, hsame.leaves]
      omega
    · rw [Engine.held, Engine.held, hx]
      dsimp only
      split_ifs <;> omega
  | filled row rest hfind hid hrows hfill =>
    exact h.fill hM hid hrows hx (hrep.fill hfill).1 (hrep.lastQty_le hfind hfill)
  | replaced row rest hfind hid hrows htype =>
    exact h.replaced hid hrows hx (hrep.replaced htype) (hcond htype row hfind)
  | dropped row rest orders st hfind hid hrows hrows' =>
    have hrow := h.row_ok row (OrderTable.mem_rows_of_cons hrows)
    -- the open lots go, and the position stays
    refine h.finish hid hrows (by rw [hx]; exact hrows') (by rw [hx]) le_rfl hrow.leaves
      fun side inst => ?_
    rw [Engine.held, hx, Engine.held]
    change toward side (s.x.account.position inst).qty ≤ _
    split_ifs <;> omega

/-! ### Runs -/

omit [Router ρ] in
/-- A step that leaves orders, amends and limits alone and moves no position. -/
theorem Within.still (h : Within M s) (horders : t.x.orders = s.x.orders)
    (hrisk : t.x.risk = s.x.risk) (hin : t.inFlight = s.inFlight)
    (hpos : ∀ i, (t.x.account.position i).qty = (s.x.account.position i).qty) : Within M t :=
  h.drop (by rw [horders]) (by rw [hrisk]; exact h.limit) (fun r => by rw [hin])
    fun side inst => by rw [Engine.held, hpos, Engine.held]

/-- **The step lemma.** -/
theorem Within.step (h : Within M s) (hM0 : 0 < M) (hM : M < 2 ^ 63) {a : EngineStep ρ}
    (hcond : s.GateCounts M a) (hstep : s.step a = some t) : Within M t := by
  cases a with
  | clock tsc wallNs =>
    obtain rfl := Option.some_injective _ hstep
    exact h.still rfl rfl rfl fun _ => rfl
  | control flags =>
    obtain rfl := Option.some_injective _ hstep
    exact h.still rfl rfl rfl fun _ => rfl
  | venue router =>
    obtain rfl := Option.some_injective _ hstep
    exact h.still rfl rfl rfl fun _ => rfl
  | frame u =>
    obtain rfl := Option.some_injective _ hstep
    exact h.still rfl rfl rfl fun _ => position_mark_qty _ _
  | report rep answersReplace =>
    simp only [Engine.step, Option.ite_none_right_eq_some, Option.some.injEq] at hstep
    obtain ⟨hrep, rfl⟩ := hstep
    exact h.report hM hrep hcond
  | call a =>
    simp only [Engine.step, Option.ite_none_right_eq_some, Option.some.injEq] at hstep
    obtain ⟨htyped, rfl⟩ := hstep
    cases a with
    | submit side px qty tif type => exact h.submit hM0 hM hcond htyped.2
    | replace id px qty => exact h.replace hM0 hM hcond htyped.2
    | cancel id => exact h.cancel id rfl
    | cancelAll =>
      exact StrategyContext.cancelAll_induction (P := fun c => Within M ⟨c, s.inFlight⟩)
        (fun c id hc => hc.cancel id rfl) h

end Invariant

/-- Exec starts flat, with the position limit set. -/
structure Engine.Flat (M : ℤ) (s : Engine ρ) : Prop extends s.Fresh where
  limit : s.x.risk.lim.maxPosition = M
  position : ∀ i, (s.x.account.position i).qty = 0

theorem flat_demoEngine (M : ℤ) : (demoEngine { maxPosition := M, spotOnly := false }).Flat M :=
  ⟨⟨rfl, rfl⟩, rfl, fun _ => rfl⟩

/-- A buy of 4 lots at 100. -/
def demoOrder : Call := .submit .buy 100 4 .gtc .limit

/-- A fill of 3 lots at 100. -/
def demoFill : ExecReport where
  clOrdId := 1
  execType := .partialFill
  lastPx := 100
  lastQty := 3

/-- **The position limit holds** in every run in which the gate overlooks no amend in flight. -/
theorem position_within_limit [Router ρ] {M : ℤ} (hM0 : 0 < M) (hM : M < 2 ^ 63) {s : Engine ρ}
    (hs : (engine (Engine.Flat M)).ReachableWhen (Engine.GateCounts M) s) (inst : UInt16) :
    (s.x.account.position inst).qty + s.x.orders.openLots .buy inst ≤ M ∧
      -M ≤ (s.x.account.position inst).qty - s.x.orders.openLots .sell inst := by
  have h : Within M s := by
    refine hs.invariant (fun s hs => ?_) fun s a t _ hcond hstep h => h.step hM0 hM hcond hstep
    -- flat, with no orders
    have hload : ∀ side inst, s.load side inst = 0 := fun side inst => by
      rw [Engine.load, hs.rows, sumIf_zero]
    refine ⟨hs.limit, fun r hr => ?_, fun side inst => ?_, fun side inst => ?_⟩
    · rw [hs.rows] at hr
      exact absurd hr (Multiset.notMem_zero r)
    · rw [hload, Engine.held, hs.position]
      cases side <;> simp only [toward] <;> omega
    · rw [hload]
      decide
  -- the load counts the open lots and the growth of amends in flight
  have hlots : ∀ side, s.x.orders.openLots side inst ≤ s.load side inst := by
    intro side
    have hopen := h.openLots_nonneg side inst
    have hgrowth := Within.growthSum_nonneg s side inst
    have hlt := h.load_lt side inst
    rw [load_eq] at hlt ⊢
    rw [OrderTable.openLots_eq, openLots_eq_sumIf, wrap_eq_self (by omega) ⟨by omega, by omega⟩]
    omega
  have hbuy := h.load_le .buy inst
  have hsell := h.load_le .sell inst
  have hlbuy := hlots .buy
  have hlsell := hlots .sell
  simp only [Engine.held, toward] at hbuy hsell
  omega

/-- An order of 4 lots, 3 of them filled. -/
theorem position_within_limit_filled :
    ∃ s : Engine NullRouter, (engine (Engine.Flat 10)).ReachableWhen (Engine.GateCounts 10) s ∧
      (s.x.account.position 0).qty = 3 ∧ s.x.orders.openLots .buy 0 = 1 ∧
      (s.x.account.position 0).qty + s.x.orders.openLots .buy 0 ≤ 10 := by
  have hinit := flat_demoEngine 10
  have hbought : (engine (Engine.Flat 10)).ReachableWhen (Engine.GateCounts 10)
      ((demoEngine { maxPosition := 10, spotOnly := false }).makeCall demoOrder) := by
    refine .step (.init hinit) (a := .call demoOrder) (fun _ => ?_)
      (Engine.step_call (a := demoOrder) (by decide))
    refine ⟨?_, ?_, .inl ?_⟩ <;>
      simp only [Engine.held, Engine.otherGrowth, hinit.rows, hinit.position, sumIf_zero, toward]
    all_goals decide
  have hreports : ((demoEngine { maxPosition := 10, spotOnly := false }).makeCall
      demoOrder).Reports demoFill := by
    decide +kernel
  have hcond : Engine.GateCounts 10 ((demoEngine { maxPosition := 10, spotOnly := false }).makeCall
      demoOrder) (.report demoFill false) := fun h => absurd h (by decide)
  have hreach := hbought.step hcond (Engine.step_report hreports false)
  exact ⟨_, hreach, by decide +kernel, by decide +kernel,
    (position_within_limit (by decide) (by decide) hreach 0).1⟩

/-! ### An amend that the gate overlooks -/

/-- An order of 1 lot is being amended to 10 lots when an order of 9 more is admitted; then the
amend is confirmed. -/
def overlookedAmend : List (EngineStep NullRouter) :=
  [.call (.submit .buy 100 1 .gtc .limit), .call (.replace 1 100 10),
    .call (.submit .buy 100 9 .gtc .limit),
    .report { clOrdId := 1, execType := .replaced } false]

/-- **The limit is exceeded** when two requests share the room of an amend in flight. -/
theorem positionLimit_exceeded :
    ¬ ∀ s : Engine NullRouter, (engine (Engine.Flat 10)).Reachable s → ∀ inst,
      (s.x.account.position inst).qty + s.x.orders.openLots .buy inst ≤ 10 ∧
        -10 ≤ (s.x.account.position inst).qty - s.x.orders.openLots .sell inst := by
  intro hclaim
  have hrun : ((engine (Engine.Flat 10)).exec (demoEngine { maxPosition := 10, spotOnly := false })
      overlookedAmend).map (fun s =>
        ((s.x.account.position 0).qty, s.x.orders.openLots .buy 0)) = some (0, 19) := by
    decide +kernel
  obtain ⟨s, hs, hlots⟩ := Option.map_eq_some_iff.mp hrun
  obtain ⟨hqty, hopen⟩ := Prod.ext_iff.mp hlots
  have hreach := Machine.Reachable.exec
    (.init (M := engine (Engine.Flat 10)) (flat_demoEngine 10)) overlookedAmend hs
  have hle := (hclaim s hreach 0).1
  dsimp only at hqty hopen
  omega

end Exec

end LowLatencyPipeline
