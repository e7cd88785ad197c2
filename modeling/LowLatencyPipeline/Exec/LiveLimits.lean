import LowLatencyPipeline.Exec.Hosted
import LowLatencyPipeline.Exec.OpenRows

/-!
# Live orders keep to the limits

The gate looks at a request once, and much happens to an order afterwards: it is amended, filled
in parts, amended again before the venue has answered. `live_within_limits` says that what is in
the order table keeps to the limits that the gate enforces all the same: every live order to those
on one order, and their number to those on all of them. Only the market's least notional value is
not kept, since an amend is not held to it.
-/

namespace LowLatencyPipeline

namespace Exec

universe u

variable {ρ : Type u}

/-- The quantity and the price are within what one order may have. -/
structure Sized (x : ExecContext) (inst : UInt16) (px qty : ℤ) : Prop where
  minQty : 0 < (x.instruments inst).minQtyLots → (x.instruments inst).minQtyLots ≤ qty
  maxQty : x.risk.lim.maxOrderQty ≠ 0 → qty ≤ x.risk.lim.maxOrderQty
  maxNotional : x.risk.lim.maxOrderNotional ≠ 0 →
    x.account.notional inst px qty ≤ x.risk.lim.maxOrderNotional

/-- A live order is within the limits, and so is the amend that it waits for. An order that no
amend was accepted for has the market's least notional value, too. -/
structure RowWithin (x : ExecContext) (r : OrderRow) : Prop where
  trades : x.account.trades r.instrument = true
  allowed : x.risk.allowedInst r.instrument = true
  sized : Sized x r.instrument r.px r.qty
  px_pos : r.ordType = .limit → 0 < r.px
  amend : 0 < r.newQty → Sized x r.instrument r.newPx r.newQty ∧ 0 < r.newPx
  minNotional : r.newQty = 0 → 0 < (x.instruments r.instrument).minNotional →
    (x.instruments r.instrument).minNotional ≤ x.account.notional r.instrument r.px r.qty

/-- The invariant. -/
structure LiveWithin (x : ExecContext) : Prop where
  rows : ∀ r ∈ x.orders.rows, RowWithin x r
  size : x.risk.lim.maxOpenOrders ≠ 0 → x.orders.size ≤ x.risk.lim.maxOpenOrders
  live : x.rate.enabled = true → ∀ inst, x.orders.liveCount inst ≤ x.rate.params.maxOpen

/-! ### What the gate compares with -/

/-- The terms of the instruments and the limits are the same. -/
structure SameLimits (x y : ExecContext) : Prop where
  instruments : y.instruments = x.instruments
  risk : y.risk = x.risk
  terms : y.account.terms = x.account.terms
  ids : y.account.ids = x.account.ids
  params : y.rate.params = x.rate.params
  enabled : y.rate.enabled = x.rate.enabled

namespace SameLimits

variable {x y : ExecContext}

protected theorem refl (x : ExecContext) : SameLimits x x := ⟨rfl, rfl, rfl, rfl, rfl, rfl⟩

theorem trans {z : ExecContext} (h : SameLimits x y) (h' : SameLimits y z) : SameLimits x z :=
  ⟨h'.instruments.trans h.instruments, h'.risk.trans h.risk, h'.terms.trans h.terms,
    h'.ids.trans h.ids, h'.params.trans h.params, h'.enabled.trans h.enabled⟩

theorem notional (h : SameLimits x y) (inst : UInt16) (px qty : ℤ) :
    y.account.notional inst px qty = x.account.notional inst px qty := by
  change (y.account.terms inst).tlToMoney _ = (x.account.terms inst).tlToMoney _
  rw [h.terms]

theorem sized (h : SameLimits x y) {inst : UInt16} {px qty : ℤ} (hx : Sized x inst px qty) :
    Sized y inst px qty where
  minQty := h.instruments ▸ hx.minQty
  maxQty := h.risk ▸ hx.maxQty
  maxNotional := by
    rw [h.risk, h.notional]
    exact hx.maxNotional

theorem rowWithin (h : SameLimits x y) {r : OrderRow} (hr : RowWithin x r) : RowWithin y r where
  trades := by
    rw [Account.trades, h.ids]
    exact hr.trades
  allowed := h.risk ▸ hr.allowed
  sized := h.sized hr.sized
  px_pos := hr.px_pos
  amend hnew := (hr.amend hnew).imp h.sized id
  minNotional := by
    rw [h.instruments, h.notional]
    exact hr.minNotional

end SameLimits

/-- The limits are those of before, and every row is within them; there are no more orders than
before, or there is room for one more. -/
theorem LiveWithin.of_rows {x y : ExecContext} (h : LiveWithin x) (hsame : SameLimits x y)
    (hrows : ∀ r ∈ y.orders.rows, RowWithin x r)
    (hle : y.orders.rows.map OrderRow.instrument ≤ x.orders.rows.map OrderRow.instrument) :
    LiveWithin y where
  rows r hr := hsame.rowWithin (hrows r hr)
  size hmax := by
    rw [hsame.risk] at hmax ⊢
    refine le_trans ?_ (h.size hmax)
    simpa only [OrderTable.size_eq, Multiset.card_map] using Multiset.card_le_card hle
  live hon inst := by
    rw [hsame.enabled] at hon
    rw [hsame.params]
    refine le_trans ?_ (h.live hon inst)
    have hcount := Multiset.count_le_of_le inst hle
    simpa only [OrderTable.liveCount_eq, liveCount, Multiset.count, Multiset.countP_map,
      ← Multiset.countP_eq_card_filter, eq_comm] using hcount

/-! ### What the gate lets through -/

section Gate

variable {x : ExecContext}

/-- A new order. -/
theorem rowWithin_newRow {o : OrderCheck} (h : x.admits o = .ok ()) (id : UInt64) :
    RowWithin x (x.newRow id o) := by
  rw [ExecContext.admits, check_bind_eq_ok] at h
  have hgate := h.1
  simp only [RiskGate.checkNew, check_bind_eq_ok, rejectIf_eq_ok, not_and, not_lt, not_or,
    not_not] at hgate
  obtain ⟨-, -, htrades, hallowed, -, ⟨-, hlimit⟩, hmin, hnotional, hmaxQty, hmaxNotional, -⟩ :=
    hgate
  refine ⟨htrades, hallowed, ⟨hmin, hmaxQty, hmaxNotional⟩, fun htype => ?_,
    fun hnew => absurd hnew (lt_irrefl 0), fun _ => hnotional⟩
  have hpos := not_le.1 (hlimit htype)
  change 0 < if 0 < o.px then o.px else o.mid2.tdiv 2
  rwa [if_pos hpos]

/-- There was room for it. -/
theorem room_of_admits {o : OrderCheck} (h : x.admits o = .ok ()) :
    (x.risk.lim.maxOpenOrders ≠ 0 → x.orders.size < x.risk.lim.maxOpenOrders) ∧
      (x.rate.enabled = true → x.orders.liveCount o.instrument < x.rate.params.maxOpen) := by
  rw [ExecContext.admits, check_bind_eq_ok] at h
  have hgate := h.1
  simp only [RiskGate.checkNew, check_bind_eq_ok, rejectIf_eq_ok, not_and, not_le] at hgate
  obtain ⟨-, -, -, -, -, -, -, -, -, -, -, hsize, hlive, -⟩ := hgate
  exact ⟨hsize, hlive⟩

/-- An amend. -/
theorem sized_of_admitsReplace {row : OrderRow} {px qty : ℤ}
    (h : x.admitsReplace row px qty = .ok ()) : Sized x row.instrument px qty := by
  simp only [ExecContext.admitsReplace, RiskGate.checkReplace, check_bind_eq_ok, rejectIf_eq_ok,
    not_and, not_lt] at h
  obtain ⟨-, -, -, -, hmin, hmaxQty, hmaxNotional, -⟩ := h
  exact ⟨hmin, hmaxQty, hmaxNotional⟩

end Gate

/-! ### What no step changes -/

section Same

variable {x : ExecContext}

theorem ids_mark (a : Account) (inst : UInt16) (bid ask : ℤ) :
    (a.mark inst bid ask).ids = a.ids := by
  unfold Account.mark
  split_ifs
  · rfl
  · rfl

/-- A fill. -/
theorem sameLimits_applyFill (row : OrderRow) (rep : ExecReport) :
    SameLimits x (x.applyFill row rep) := by
  unfold ExecContext.applyFill
  dsimp only
  split_ifs
  all_goals exact ⟨rfl, rfl, terms_onFill _ _, ids_onFill _ _, rfl, rfl⟩

/-- A report. -/
theorem sameLimits_applyReport (rep : ExecReport) : SameLimits x (x.applyReport rep) := by
  unfold ExecContext.applyReport
  cases x.orders.find rep.clOrdId with
  | none => exact ⟨rfl, rfl, rfl, rfl, rfl, rfl⟩
  | some row =>
    cases rep.execType with
    | partialFill | fill => exact sameLimits_applyFill row rep
    | ack | replaced | canceled | expired | reject | cancelReject | restated =>
      exact ⟨rfl, rfl, rfl, rfl, rfl, rfl⟩

variable [Router ρ] {c : StrategyContext ρ}

open StrategyContext in
/-- What goes through the rate model's gate keeps its parameters. -/
theorem SameLimits.of_rate {x y : ExecContext} (hinst : y.instruments = x.instruments)
    (hrisk : y.risk = x.risk) (hterms : y.account.terms = x.account.terms)
    (hids : y.account.ids = x.account.ids) (hrate : RateRuns x y) : SameLimits x y := by
  obtain ⟨rs, hrs, -⟩ := hrate
  obtain ⟨hparams, henabled⟩ := RateModel.run_config hrs
  exact ⟨hinst, hrisk, hterms, hids, hparams, henabled⟩

theorem sameLimits_submit (side : Side) (px qty : ℤ) (tif : Tif) (type : OrdType) :
    SameLimits c.x (c.submit side px qty tif type).1.x := by
  have hrate := c.submit_rate side px qty tif type
  rcases c.submit_cases side px qty tif type with
    ⟨orders, lastReject, st, hx, -⟩ | ⟨o, row, -, -, -, orders, rate, st, hx, -⟩
  all_goals
    rw [hx] at hrate ⊢
    exact .of_rate rfl rfl rfl rfl hrate

theorem sameLimits_replace (id : UInt64) (px qty : ℤ) :
    SameLimits c.x (c.replace id px qty).1.x := by
  have hrate := c.replace_rate id px qty
  rcases c.replace_cases id px qty with
    ⟨-, lastReject, st, hx⟩ | ⟨-, row, rest, -, -, -, -, -, orders, rate, st, hx, -⟩
  all_goals
    rw [hx] at hrate ⊢
    exact .of_rate rfl rfl rfl rfl hrate

theorem sameLimits_cancel (id : UInt64) : SameLimits c.x (c.cancel id).1.x := by
  have hrate := c.cancel_rate id
  rcases c.cancel_cases id with
    ⟨lastReject, st, hx⟩ | ⟨row, rest, -, -, orders, rate, st, hx, -⟩
  all_goals
    rw [hx] at hrate ⊢
    exact .of_rate rfl rfl rfl rfl hrate

theorem sameLimits_call (a : Call) : SameLimits c.x (c.call a).x := by
  cases a with
  | submit side px qty tif type => exact sameLimits_submit side px qty tif type
  | replace id px qty => exact sameLimits_replace id px qty
  | cancel id => exact sameLimits_cancel id
  | cancelAll =>
    exact StrategyContext.cancelAll_induction (P := fun d => SameLimits c.x d.x)
      (fun d id hd => hd.trans (sameLimits_cancel id)) (.refl _)

theorem sameLimits_step {s t : Engine ρ} {a : EngineStep ρ} (ht : s.step a = some t) :
    SameLimits s.x t.x := by
  cases a with
  | clock | control | venue =>
    obtain rfl := Option.some.inj ht
    exact ⟨rfl, rfl, rfl, rfl, rfl, rfl⟩
  | frame u =>
    obtain rfl := Option.some.inj ht
    exact ⟨rfl, rfl, terms_mark _ _, ids_mark _ _ _ _, rfl, rfl⟩
  | call a =>
    simp only [Engine.step, Option.ite_none_right_eq_some, Option.some.injEq] at ht
    obtain ⟨-, rfl⟩ := ht
    exact sameLimits_call a
  | report rep answersReplace =>
    simp only [Engine.step, Option.ite_none_right_eq_some, Option.some.injEq] at ht
    obtain ⟨-, rfl⟩ := ht
    exact sameLimits_applyReport rep

/-- **The limits of a run are those that it started with.** -/
theorem exists_init_sameLimits {init : Engine ρ → Prop} {cond : Engine ρ → EngineStep ρ → Prop}
    {s : Engine ρ} (hs : (engine init).ReachableWhen cond s) :
    ∃ s₀, init s₀ ∧ SameLimits s₀.x s.x := by
  refine hs.invariant (P := fun s => ∃ s₀, init s₀ ∧ SameLimits s₀.x s.x)
    (fun s hinit => ⟨s, hinit, .refl _⟩) ?_
  rintro s a t - - ht ⟨s₀, hinit, hsame⟩
  exact ⟨s₀, hinit, hsame.trans (sameLimits_step ht)⟩

end Same

/-! ### Steps -/

section Steps

variable {s t : Engine ρ}

/-- A row after a report. -/
theorem RowWithin.rowAfter {x : ExecContext} {row r : OrderRow} {rep : ExecReport}
    (h : RowWithin x row) (hafter : x.rowAfter row rep = some r)
    (hconfirm : rep.execType = .replaced → 0 < row.newQty) : RowWithin x r := by
  unfold ExecContext.rowAfter at hafter
  cases htype : rep.execType with
  | ack | cancelReject | restated =>
    rw [htype, Option.some.injEq] at hafter
    subst hafter
    exact ⟨h.trades, h.allowed, h.sized, h.px_pos, h.amend, h.minNotional⟩
  | partialFill | fill =>
    rw [htype] at hafter
    dsimp only at hafter
    split_ifs at hafter
    rw [Option.some.injEq] at hafter
    subst hafter
    exact ⟨h.trades, h.allowed, h.sized, h.px_pos, h.amend, h.minNotional⟩
  | replaced =>
    rw [htype, Option.some.injEq] at hafter
    subst hafter
    -- the amend was within the limits when it was accepted, and they are the same
    have hnew := hconfirm htype
    obtain ⟨hsized, hpx⟩ := h.amend hnew
    exact ⟨h.trades, h.allowed, hsized, fun _ => hpx, h.amend,
      fun hzero => absurd hzero hnew.ne'⟩
  | canceled | expired | reject =>
    rw [htype] at hafter
    exact absurd hafter (by simp)

/-- A report adds no order. -/
theorem map_instrument_applyReport (x : ExecContext) (rep : ExecReport) :
    (x.applyReport rep).orders.rows.map OrderRow.instrument ≤
      x.orders.rows.map OrderRow.instrument := by
  cases hfind : x.orders.find rep.clOrdId with
  | none => rw [rows_applyReport_unknown hfind]
  | some row =>
    obtain ⟨-, rest, hrows⟩ := OrderTable.exists_rows_eq_cons hfind
    rw [rows_applyReport hfind hrows, hrows, Multiset.map_cons]
    cases hafter : x.rowAfter row rep with
    | none => exact Multiset.le_cons_self _ _
    | some r =>
      rw [Option.elim_some, Multiset.map_cons, (onSide_rowAfter hafter).2]

theorem LiveWithin.report (h : LiveWithin s.x) (hrange : RowsInRange s.x) {rep : ExecReport}
    {answersReplace : Bool} (hcond : s.ConfirmsAboveFilled (.report rep answersReplace)) :
    LiveWithin (s.x.applyReport rep) := by
  refine h.of_rows (sameLimits_applyReport rep) (fun r hr => ?_)
    (map_instrument_applyReport s.x rep)
  rcases mem_rows_applyReport hr with ⟨hr, -⟩ | ⟨row, hfind, hafter⟩
  · exact h.rows r hr
  · have hrow := (OrderTable.find_eq_some.1 hfind).1
    exact (h.rows row hrow).rowAfter hafter fun htype =>
      (hrange row hrow).cum_nonneg.trans_lt (hcond htype row hfind)

variable [Router ρ] {c : StrategyContext ρ}

theorem LiveWithin.submit (h : LiveWithin c.x) (side : Side) (px qty : ℤ) (tif : Tif)
    (type : OrdType) : LiveWithin (c.submit side px qty tif type).1.x := by
  have hsame := sameLimits_submit (c := c) side px qty tif type
  rcases c.submit_cases side px qty tif type with
    ⟨orders, lastReject, st, hx, hle⟩ |
    ⟨o, row, -, hadmits, rfl, orders, rate, st, hx, hrows | hrows⟩
  · rw [hx] at hsame ⊢
    exact h.of_rows hsame (fun r hr => h.rows r (Multiset.mem_of_le hle hr))
      (Multiset.map_le_map hle)
  · rw [hx] at hsame ⊢
    -- the gate has left room for the row that is new
    obtain ⟨hsize, hlive⟩ := room_of_admits hadmits
    refine ⟨fun r hr => hsame.rowWithin ?_, fun hmax => ?_, fun hon inst => ?_⟩
    · rcases Multiset.mem_cons.1 (hrows ▸ hr) with rfl | hr
      · exact rowWithin_newRow hadmits _
      · exact h.rows r hr
    · have hlt := hsize hmax
      rw [OrderTable.size_eq] at hlt
      change orders.size ≤ _
      rw [OrderTable.size_eq, hrows, Multiset.card_cons]
      exact hlt
    · rw [hsame.enabled] at hon
      rw [hsame.params]
      have hlt := hlive hon
      have hle := h.live hon inst
      rw [OrderTable.liveCount_eq] at hlt hle
      change orders.liveCount inst ≤ _
      rw [OrderTable.liveCount_eq, hrows, liveCount_cons]
      split_ifs with hinst
      · change o.instrument = inst at hinst
        rw [← hinst]
        exact hlt
      · exact hle
  · rw [hx] at hsame ⊢
    exact h.of_rows hsame (fun r hr => h.rows r (hrows ▸ hr)) (by rw [hrows])

theorem LiveWithin.replace (h : LiveWithin c.x) (hrange : RowsInRange c.x) (id : UInt64)
    (px qty : ℤ) : LiveWithin (c.replace id px qty).1.x := by
  refine h.of_rows (sameLimits_replace id px qty) (fun r hr => ?_) ?_
  · rcases StrategyContext.mem_rows_replace hr with hr | ⟨row, hrow, hadmits, rfl⟩
    · exact h.rows r hr
    · have hr := h.rows row hrow
      have hok := admitsReplace_ok hadmits
      have hpos := (hrange row hrow).cum_nonneg.trans_lt hok.cum_lt
      exact ⟨hr.trades, hr.allowed, hr.sized, hr.px_pos,
        fun _ => ⟨sized_of_admitsReplace hadmits, hok.px_pos⟩, fun hzero => absurd hzero hpos.ne'⟩
  · rcases c.replace_cases id px qty with
      ⟨-, lastReject, st, hx⟩ | ⟨-, row, rest, -, hrows, -, -, -, orders, rate, st, hx, hrows'⟩
    · rw [hx]
    · rw [hx]
      change orders.rows.map _ ≤ _
      rw [hrows', hrows, Multiset.map_cons, Multiset.map_cons]
      exact le_rfl

theorem LiveWithin.cancel (h : LiveWithin c.x) (id : UInt64) : LiveWithin (c.cancel id).1.x := by
  refine h.of_rows (sameLimits_cancel id) (fun r hr => ?_) ?_
  · rcases StrategyContext.mem_rows_cancel hr with hr | ⟨row, hrow, rfl⟩
    · exact h.rows r hr
    · have hr := h.rows row hrow
      exact ⟨hr.trades, hr.allowed, hr.sized, hr.px_pos, hr.amend, hr.minNotional⟩
  · rcases c.cancel_cases id with
      ⟨lastReject, st, hx⟩ | ⟨row, rest, -, hrows, orders, rate, st, hx, hrows'⟩
    · rw [hx]
    · rw [hx]
      change orders.rows.map _ ≤ _
      rw [hrows', hrows, Multiset.map_cons, Multiset.map_cons]
      exact le_rfl

theorem LiveWithin.call (h : LiveWithin c.x) (hrange : RowsInRange c.x) (a : Call) :
    LiveWithin (c.call a).x := by
  cases a with
  | submit side px qty tif type => exact h.submit side px qty tif type
  | replace id px qty => exact h.replace hrange id px qty
  | cancel id => exact h.cancel id
  | cancelAll =>
    exact StrategyContext.cancelAll_induction (P := fun d => LiveWithin d.x)
      (fun d id hd => hd.cancel id) h

/-- A step. -/
theorem LiveWithin.step (h : LiveWithin s.x) (hrange : RowsInRange s.x) {a : EngineStep ρ}
    (ha : s.ConfirmsAboveFilled a) (ht : s.step a = some t) : LiveWithin t.x := by
  cases a with
  | clock | control | venue =>
    obtain rfl := Option.some_injective _ ht
    exact h.of_rows ⟨rfl, rfl, rfl, rfl, rfl, rfl⟩ h.rows le_rfl
  | frame u =>
    obtain rfl := Option.some_injective _ ht
    exact h.of_rows ⟨rfl, rfl, terms_mark _ _, ids_mark _ _ _ _, rfl, rfl⟩ h.rows le_rfl
  | call a =>
    simp only [Engine.step, Option.ite_none_right_eq_some, Option.some.injEq] at ht
    obtain ⟨-, rfl⟩ := ht
    exact h.call hrange a
  | report rep answersReplace =>
    simp only [Engine.step, Option.ite_none_right_eq_some, Option.some.injEq] at ht
    obtain ⟨-, rfl⟩ := ht
    exact h.report hrange ha

/-- **A run.** -/
theorem liveWithin_of_reachable {init : Engine ρ → Prop} (hinit : ∀ s, init s → s.Fresh)
    (hs : (engine init).ReachableWhen Engine.ConfirmsAboveFilled s) : LiveWithin s.x := by
  have hfresh : (engine Engine.Fresh).ReachableWhen Engine.ConfirmsAboveFilled s := by
    induction hs with
    | init h => exact .init (hinit _ h)
    | step _ ha ht ih => exact .step ih ha ht
  refine hfresh.invariant (P := fun s => LiveWithin s.x) (fun s hfresh => ?_)
    fun s a t hs ha ht h => h.step (rowsInRange_of_reachable hs) ha ht
  have hrows := hfresh.rows
  refine ⟨fun r hr => absurd (hrows ▸ hr) (Multiset.notMem_zero r), fun _ => ?_, fun _ inst => ?_⟩
  · rw [OrderTable.size_eq, hrows]
    exact Nat.zero_le _
  · rw [OrderTable.liveCount_eq, hrows]
    exact Nat.zero_le _

end Steps

/-- Orders of at most 6 lots and 606 units, one at a time. -/
def tightLimits : RiskLimits :=
  { maxOrderQty := 6, maxOrderNotional := 606, maxOpenOrders := 1, spotOnly := false }

/-- An order is amended up to both limits while 3 lots are filled; an amend beyond them and a
second order are refused. -/
def limitedRun : List (EngineStep NullRouter) :=
  [.call (.submit .buy 100 4 .gtc .limit), .call (.replace 1 101 7), .call (.replace 1 101 6),
    .report { clOrdId := 1, execType := .partialFill, lastPx := 100, lastQty := 3 } false,
    .call (.submit .sell 100 4 .gtc .limit),
    .report { clOrdId := 1, execType := .replaced } false]

end Exec

end LowLatencyPipeline
