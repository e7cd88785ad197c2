import LowLatencyPipeline.Exec.PositionLimit

/-!
# A strategy between the feed and a venue

`hosted onTick` is exec running one strategy: every frame goes through `handle_frame`, whose
`on_tick` is the strategy's own code, and the reports of the venue come in any order between the
frames. The strategies built into exec have no other callback. Router and venue are arbitrary,
apart from one promise: a fill is of lots that are open.

Only fills move the positions, each by its own lots (`held_applyReport_fill`).
-/

namespace LowLatencyPipeline

namespace Exec

universe u

/-- Exec with its router and a strategy of state `S`. -/
structure Hosted (ρ : Type u) (S : Type) extends StrategyContext ρ where
  strategy : S

/-- What happens next. -/
inductive HostedStep (ρ : Type u)
  | clock (tsc : UInt64) (wallNs : ℤ)
  | control (flags : UInt32)
  /-- the router's state changes outside of exec's requests -/
  | venue (router : ρ)
  | frame (u : MarketUpdate)
  | report (rep : ExecReport)

/-- The venue's promise: a fill of a live order is of lots that are open. -/
def ExecContext.FillsOpen (x : ExecContext) (rep : ExecReport) : Prop :=
  rep.IsFill → 0 ≤ rep.lastQty ∧ ∀ row ∈ x.orders.find rep.clOrdId, rep.lastQty ≤ row.leaves

instance (x : ExecContext) (rep : ExecReport) : Decidable (x.FillsOpen rep) :=
  inferInstanceAs (Decidable (_ → _))

namespace Hosted

variable {ρ : Type u} {S : Type}

/-- `handle_frame`. -/
def handleFrame (onTick : S → StrategyContext ρ → StrategyContext ρ × S) (s : Hosted ρ S)
    (u : MarketUpdate) : Hosted ρ S :=
  let (c, strategy) := onTick s.strategy { s.toStrategyContext with x := s.x.onFrame u }
  ⟨c, strategy⟩

/-- One step. -/
def step (onTick : S → StrategyContext ρ → StrategyContext ρ × S) (s : Hosted ρ S) :
    HostedStep ρ → Option (Hosted ρ S)
  | .clock tsc wallNs => some { s with x := { s.x with tsc, wallNs } }
  | .control flags => some { s with x := { s.x with controlFlags := flags } }
  | .venue router => some { s with router }
  | .frame u => some (s.handleFrame onTick u)
  | .report rep => if s.x.FillsOpen rep then some { s with x := s.x.applyReport rep } else none

end Hosted

/-- Exec with a strategy, in any environment. -/
def hosted {ρ : Type u} {S : Type} (onTick : S → StrategyContext ρ → StrategyContext ρ × S)
    (init : Hosted ρ S → Prop) : Machine (Hosted ρ S) (HostedStep ρ) where
  Init := init
  step := Hosted.step onTick

/-- Exec starts without orders and without a position. -/
structure Hosted.Flat {ρ : Type u} {S : Type} (strategy : S) (s : Hosted ρ S) : Prop where
  rows : s.x.orders.rows = 0
  position : ∀ j, (s.x.account.position j).qty = 0
  strategy : s.strategy = strategy

/-! ### The positions -/

/-- The position of an instrument seen from a side. -/
def ExecContext.held (x : ExecContext) (side : Side) (j : UInt16) : ℤ :=
  toward side (x.account.position j).qty

theorem held_onFrame (x : ExecContext) (u : MarketUpdate) (side : Side) (j : UInt16) :
    (x.onFrame u).held side j = x.held side j :=
  congrArg (toward side) (position_mark_qty u.bestBid u.bestAsk)

theorem held_sell (x : ExecContext) (j : UInt16) : x.held .sell j = -x.held .buy j := rfl

/-- Two states between which neither the market view nor a position has changed. -/
structure SameMarket (x y : ExecContext) : Prop where
  view : y.view = x.view
  position : y.account.position = x.account.position

theorem SameMarket.refl (x : ExecContext) : SameMarket x x := ⟨rfl, rfl⟩

theorem SameMarket.held {x y : ExecContext} (h : SameMarket x y) (side : Side) (j : UInt16) :
    y.held side j = x.held side j := by
  rw [ExecContext.held, h.position, ExecContext.held]

namespace StrategyContext

variable {ρ : Type u} [Router ρ] (c : StrategyContext ρ)

theorem sameMarket_submit (side : Side) (px qty : ℤ) (tif : Tif) (type : OrdType) :
    SameMarket c.x (c.submit side px qty tif type).1.x := by
  rcases c.submit_cases side px qty tif type with
    ⟨orders, lastReject, st, hx, -⟩ | ⟨o, row, -, -, -, orders, rate, st, hx, -⟩
  all_goals
    rw [hx]
    exact ⟨rfl, rfl⟩

theorem sameMarket_replace (id : UInt64) (px qty : ℤ) :
    SameMarket c.x (c.replace id px qty).1.x := by
  rcases c.replace_cases id px qty with
    ⟨-, lastReject, st, hx⟩ | ⟨-, row, rest, -, -, -, -, -, orders, rate, st, hx, -⟩
  all_goals
    rw [hx]
    exact ⟨rfl, rfl⟩

/-- The rows after a submit, with the id it returns for the new one. -/
theorem rows_submit (side : Side) (px qty : ℤ) (tif : Tif) (type : OrdType) :
    (c.submit side px qty tif type).1.x.orders.rows ≤ c.x.orders.rows ∨
      (c.submit side px qty tif type).2 = c.x.orders.nextId.1 ∧
        (c.submit side px qty tif type).1.x.orders.rows =
          c.x.newRow c.x.orders.nextId.1 (c.x.orderCheck side px qty tif type) ::ₘ
            c.x.orders.rows := by
  unfold submit
  dsimp only
  cases c.x.admits (c.x.orderCheck side px qty tif type) with
  | error r => exact .inl le_rfl
  | ok _ =>
    dsimp only
    rcases Router.submit c.router (c.x.newRequest c.x.orders.nextId.1
      (c.x.orderCheck side px qty tif type)) with ⟨router, ok⟩
    cases ok with
    | false => exact .inl (rows_insert_erase_le c.x.orders.nextId.2 _)
    | true =>
      by_cases h : c.x.orders.nextId.2.Refuses (c.x.newRow c.x.orders.nextId.1
        (c.x.orderCheck side px qty tif type))
      · refine .inl ?_
        dsimp only
        rw [OrderTable.insert_of_refuses h]
        rfl
      · exact .inr ⟨rfl, (OrderTable.insert_of_not_refuses h).2.1⟩

theorem sameMarket_cancel (id : UInt64) : SameMarket c.x (c.cancel id).1.x := by
  rcases c.cancel_cases id with
    ⟨lastReject, st, hx⟩ | ⟨row, rest, -, -, orders, rate, st, hx, -⟩
  all_goals
    rw [hx]
    exact ⟨rfl, rfl⟩

end StrategyContext

section Report

variable {x : ExecContext} {rep : ExecReport}

theorem held_applyReport_unknown (hfind : x.orders.find rep.clOrdId = none) (side : Side)
    (j : UInt16) : (x.applyReport rep).held side j = x.held side j := by
  rw [ExecContext.applyReport, hfind]
  rfl

/-- Only fills move the positions. -/
theorem held_applyReport_of_not_fill (hfill : ¬ rep.IsFill) (side : Side) (j : UInt16) :
    (x.applyReport rep).held side j = x.held side j := by
  cases hfind : x.orders.find rep.clOrdId with
  | none => exact held_applyReport_unknown hfind side j
  | some row =>
    rw [ExecContext.applyReport, hfind]
    cases htype : rep.execType with
    | partialFill | fill => exact absurd (by simp [ExecReport.IsFill, htype]) hfill
    | ack | replaced | canceled | expired | reject | cancelReject | restated => rfl

theorem applyReport_of_fill {row : OrderRow} (hfind : x.orders.find rep.clOrdId = some row)
    (hfill : rep.IsFill) : x.applyReport rep = x.applyFill row rep := by
  rw [ExecContext.applyReport, hfind]
  rcases hfill with htype | htype <;> rw [htype]

/-- **A fill moves its lots into the position** of the order's instrument, while the position and
the lots are far from the bounds of their type. -/
theorem held_applyReport_fill {row : OrderRow} (hfind : x.orders.find rep.clOrdId = some row)
    (hfill : rep.IsFill) (hpos : |(x.account.position row.instrument).qty| < 2 ^ 62)
    (hq : 0 ≤ rep.lastQty ∧ rep.lastQty < 2 ^ 62) (side : Side) (j : UInt16) :
    (x.applyReport rep).held side j = x.held side j +
      if j = row.instrument then (if side = row.side then rep.lastQty else -rep.lastQty)
      else 0 := by
  obtain ⟨hlow, hhigh⟩ := abs_lt.1 hpos
  have hsigned : signedQty row.side rep.lastQty = _ := signedQty_eq ⟨hq.1, by omega⟩
  have hqty : ((x.account.onFill row.instrument row.side rep.lastPx rep.lastQty row.px rep.fee
      rep.feeInBase).position j).qty = _ :=
    position_onFill_qty ⟨by omega, by omega⟩ ⟨hq.1, by omega⟩ (by
      rw [hsigned]
      constructor <;> cases row.side <;> dsimp only <;> omega)
  rw [applyReport_of_fill hfind hfill, ExecContext.held, position_applyFill, hqty, hsigned,
    ExecContext.held]
  by_cases hj : j = row.instrument
  · rw [if_pos hj, if_pos hj]
    cases side <;> cases row.side <;> simp [toward] <;> omega
  · rw [if_neg hj, if_neg hj, add_zero, add_zero]

/-- A report keeps the side and the instrument of the row it finds. -/
theorem onSide_rowAfter {row row' : OrderRow} (h : x.rowAfter row rep = some row') :
    row'.side = row.side ∧ row'.instrument = row.instrument := by
  unfold ExecContext.rowAfter at h
  cases htype : rep.execType with
  | ack | replaced | cancelReject | restated =>
    rw [htype, Option.some.injEq] at h
    exact h ▸ ⟨rfl, rfl⟩
  | partialFill | fill =>
    rw [htype] at h
    dsimp only at h
    split_ifs at h
    exact Option.some_injective _ h ▸ ⟨rfl, rfl⟩
  | canceled | expired | reject =>
    rw [htype] at h
    exact absurd h (by simp)

end Report

/-! ### One order at a time

A strategy that asks for `lot` lots on a side only when no order of the side is live and the
position seen from the side is under `cap` stays under `cap + lot`. -/

/-- The order is of one lot at most, fills counted. -/
structure LotRow (lot : ℤ) (r : OrderRow) : Prop where
  cum : 0 ≤ r.cum ∧ r.cum ≤ lot
  total : r.cum + r.leaves ≤ lot
  qty : 0 ≤ r.qty ∧ r.qty ≤ lot
  newQty : 0 ≤ r.newQty ∧ r.newQty ≤ lot

/-- **The invariant**: a side has one live order at most, and the position was under the cap when
the order was sent. -/
structure Capped (lot cap : ℤ) (x : ExecContext) : Prop where
  bounds : 0 ≤ lot ∧ 0 ≤ cap ∧ cap + lot < 2 ^ 62
  eq_of_side : ∀ r ∈ x.orders.rows, ∀ r' ∈ x.orders.rows, r.side = r'.side → r = r'
  row : ∀ r ∈ x.orders.rows, LotRow lot r
  room : ∀ r ∈ x.orders.rows, x.held r.side r.instrument - r.cum < cap
  held : ∀ side j, x.held side j < cap + lot

theorem LotRow.filledRow {lot : ℤ} {r : OrderRow} (h : LotRow lot r) {rep : ExecReport}
    (hlot : lot < 2 ^ 62) (hq : 0 ≤ rep.lastQty) (hle : rep.lastQty ≤ r.leaves) :
    LotRow lot (ExecContext.filledRow r rep) ∧
      (ExecContext.filledRow r rep).cum = r.cum + rep.lastQty := by
  obtain ⟨hcum0, hcum⟩ := h.cum
  have htotal := h.total
  have hcum' : (ExecContext.filledRow r rep).cum = r.cum + rep.lastQty :=
    filledRow_cum hq hcum0 (by omega)
  have hleaves : (ExecContext.filledRow r rep).leaves = r.leaves - rep.lastQty :=
    filledRow_leaves hq hle (by omega)
  exact ⟨⟨by omega, by omega, h.qty, h.newQty⟩, hcum'⟩

theorem LotRow.replacedRow {lot : ℤ} {r : OrderRow} (h : LotRow lot r) (hlot : lot < 2 ^ 62) :
    LotRow lot (ExecContext.replacedRow r) := by
  obtain ⟨hcum0, hcum⟩ := h.cum
  obtain ⟨hnew0, hnew⟩ := h.newQty
  have hleaves : (ExecContext.replacedRow r).leaves = r.newQty - r.cum :=
    wrap_eq_self (by omega) ⟨by omega, by omega⟩
  refine ⟨⟨hcum0, hcum⟩, ?_, ⟨hnew0, hnew⟩, ⟨hnew0, hnew⟩⟩
  rw [hleaves]
  change r.cum + (r.newQty - r.cum) ≤ lot
  omega

namespace Capped

variable {lot cap : ℤ} {x y : ExecContext}

/-- The same positions, and rows that are each a version of one of before. -/
theorem of_rows (h : Capped lot cap x) (hheld : ∀ side j, y.held side j = x.held side j)
    (hrows : ∀ r ∈ y.orders.rows, ∃ r' ∈ x.orders.rows, r.id = r'.id ∧ r.side = r'.side ∧
      r.instrument = r'.instrument ∧ r.cum = r'.cum ∧ LotRow lot r) : Capped lot cap y where
  bounds := h.bounds
  eq_of_side r hr s hs hside := by
    obtain ⟨r', hr', hid, hrside, -⟩ := hrows r hr
    obtain ⟨s', hs', hid', hsside, -⟩ := hrows s hs
    have heq := h.eq_of_side r' hr' s' hs' (hrside.symm.trans (hside.trans hsside))
    exact OrderTable.eq_of_id_eq hr hs (by rw [hid, hid', heq])
  row r hr := by
    obtain ⟨-, -, -, -, -, -, hrow⟩ := hrows r hr
    exact hrow
  room r hr := by
    obtain ⟨r', hr', -, hside, hinst, hcum, -⟩ := hrows r hr
    rw [hheld, hside, hinst, hcum]
    exact h.room r' hr'
  held side j := by
    rw [hheld]
    exact h.held side j

/-- The same positions and no new row. -/
theorem of_subset (h : Capped lot cap x) (hheld : ∀ side j, y.held side j = x.held side j)
    (hrows : ∀ r ∈ y.orders.rows, r ∈ x.orders.rows) : Capped lot cap y :=
  h.of_rows hheld fun r hr => ⟨r, hrows r hr, rfl, rfl, rfl, rfl, h.row r (hrows r hr)⟩

/-- Exec starts flat. -/
theorem of_flat (hbounds : 0 ≤ lot ∧ 0 < cap ∧ cap + lot < 2 ^ 62) (hrows : x.orders.rows = 0)
    (hposition : ∀ j, (x.account.position j).qty = 0) : Capped lot cap x := by
  have hnone (r : OrderRow) (hr : r ∈ x.orders.rows) : False :=
    Multiset.notMem_zero r (hrows ▸ hr)
  refine ⟨⟨hbounds.1, hbounds.2.1.le, hbounds.2.2⟩, fun r hr => (hnone r hr).elim,
    fun r hr => (hnone r hr).elim, fun r hr => (hnone r hr).elim, fun side j => ?_⟩
  rw [ExecContext.held, hposition]
  obtain ⟨hlot, hcap, -⟩ := hbounds
  cases side <;> simp only [toward] <;> omega

theorem abs_position (h : Capped lot cap x) (j : UInt16) :
    |(x.account.position j).qty| < cap + lot := by
  have hbuy := h.held .buy j
  have hsell := h.held .sell j
  rw [held_sell] at hsell
  exact abs_lt.2 ⟨neg_lt.1 hsell, hbuy⟩

theorem countP_side_le (h : Capped lot cap x) (side : Side) :
    x.orders.rows.countP (fun r => r.side = side) ≤ 1 := by
  by_contra hcount
  obtain ⟨r, hr, hside⟩ := Multiset.countP_pos.1 (zero_lt_one.trans (not_le.1 hcount))
  obtain ⟨rest, hrest⟩ := Multiset.exists_cons_of_mem hr
  rw [hrest, Multiset.countP_cons, if_pos hside] at hcount
  have hmore : 0 < rest.countP fun r => r.side = side := by omega
  obtain ⟨r', hr', hside'⟩ := Multiset.countP_pos.1 hmore
  have heq := h.eq_of_side r hr r' (hrest ▸ Multiset.mem_cons_of_mem hr')
    (hside.trans hside'.symm)
  exact OrderTable.id_ne_of_cons hrest hr' (heq ▸ rfl)

/-- What is open cannot take the position beyond the cap by a lot. -/
theorem held_add_leaves_lt (h : Capped lot cap x) {r : OrderRow} (hr : r ∈ x.orders.rows) :
    x.held r.side r.instrument + r.leaves < cap + lot := by
  have hroom := h.room r hr
  have htotal := (h.row r hr).total
  omega

/-- A fill takes from the order what it adds to the position. -/
theorem fill (h : Capped lot cap x) {rep : ExecReport} (hopen : x.FillsOpen rep)
    (hfill : rep.IsFill) {row : OrderRow} (hfind : x.orders.find rep.clOrdId = some row) :
    Capped lot cap (x.applyReport rep) := by
  obtain ⟨hmem, hid⟩ := OrderTable.find_eq_some.1 hfind
  obtain ⟨hq, hle⟩ := hopen hfill
  have hle := hle row hfind
  obtain ⟨hlot, hcap, hsum⟩ := h.bounds
  obtain ⟨hcum0, hcum⟩ := (h.row row hmem).cum
  have htotal := (h.row row hmem).total
  have hroom := h.room row hmem
  obtain ⟨hfilled, hfilledCum⟩ := (h.row row hmem).filledRow (by omega) hq hle
  have hheld := held_applyReport_fill hfind hfill
    ((h.abs_position row.instrument).trans hsum) ⟨hq, by omega⟩
  have hrows (r : OrderRow) (hr : r ∈ (x.applyReport rep).orders.rows) :
      r ∈ x.orders.rows ∧ r.side ≠ row.side ∨ r = ExecContext.filledRow row rep := by
    rcases mem_rows_applyReport hr with ⟨hr, hne⟩ | ⟨row', hfind', hafter⟩
    · exact .inl ⟨hr, fun hside => hne (h.eq_of_side r hr row hmem hside ▸ hid)⟩
    · obtain rfl := Option.some_injective _ (hfind.symm.trans hfind')
      rw [ExecContext.rowAfter] at hafter
      rcases hfill with htype | htype
      all_goals
        rw [htype] at hafter
        dsimp only at hafter
        split_ifs at hafter
        exact .inr (Option.some_injective _ hafter).symm
  refine ⟨h.bounds, fun r hr r' hr' hside => ?_, fun r hr => ?_, fun r hr => ?_,
    fun side j => ?_⟩
  · rcases hrows r hr with ⟨hr, hne⟩ | rfl <;> rcases hrows r' hr' with ⟨hr', hne'⟩ | rfl
    · exact h.eq_of_side r hr r' hr' hside
    · exact absurd hside hne
    · exact absurd hside.symm hne'
    · rfl
  · rcases hrows r hr with ⟨hr, -⟩ | rfl
    · exact h.row r hr
    · exact hfilled
  · rw [hheld]
    rcases hrows r hr with ⟨hr, hside⟩ | rfl
    · have hroom' := h.room r hr
      rw [if_neg hside]
      split_ifs <;> omega
    · rw [hfilledCum]
      change x.held row.side row.instrument + (if row.instrument = row.instrument then
        (if row.side = row.side then rep.lastQty else -rep.lastQty) else 0) -
        (row.cum + rep.lastQty) < cap
      rw [if_pos rfl, if_pos rfl]
      omega
  · have hside' := h.held side j
    rw [hheld]
    split_ifs with hj hside
    · rw [hj, hside]
      omega
    · omega
    · omega

/-- **A report keeps the invariant.** -/
theorem report (h : Capped lot cap x) {rep : ExecReport} (hopen : x.FillsOpen rep) :
    Capped lot cap (x.applyReport rep) := by
  by_cases hfill : rep.IsFill
  · cases hfind : x.orders.find rep.clOrdId with
    | some row => exact h.fill hopen hfill hfind
    | none =>
      refine h.of_subset (held_applyReport_unknown hfind) fun r hr => ?_
      rwa [rows_applyReport_unknown hfind] at hr
  · refine h.of_rows (held_applyReport_of_not_fill hfill) fun r hr => ?_
    obtain ⟨hlot, hcap, hsum⟩ := h.bounds
    rcases mem_rows_applyReport hr with ⟨hr, -⟩ | ⟨row, hfind, hafter⟩
    · exact ⟨r, hr, rfl, rfl, rfl, rfl, h.row r hr⟩
    · have hmem := (OrderTable.find_eq_some.1 hfind).1
      have hrow := h.row row hmem
      unfold ExecContext.rowAfter at hafter
      cases htype : rep.execType with
      | partialFill | fill => exact absurd (by simp [ExecReport.IsFill, htype]) hfill
      | ack | cancelReject | restated =>
        rw [htype, Option.some.injEq] at hafter
        subst hafter
        exact ⟨row, hmem, rfl, rfl, rfl, rfl, hrow.cum, hrow.total, hrow.qty, hrow.newQty⟩
      | replaced =>
        rw [htype, Option.some.injEq] at hafter
        subst hafter
        exact ⟨row, hmem, rfl, rfl, rfl, rfl, hrow.replacedRow (by omega)⟩
      | canceled | expired | reject =>
        rw [htype] at hafter
        exact absurd hafter (by simp)

section Calls

variable {ρ : Type u} [Router ρ] {c : StrategyContext ρ}

/-- A side without a live order asks for one while its position is under the cap. -/
theorem submit (h : Capped lot cap c.x) {side : Side}
    (hnone : ∀ r ∈ c.x.orders.rows, r.side ≠ side)
    (hheld : c.x.held side c.x.view.instrument < cap) (px : ℤ) (tif : Tif) (type : OrdType) :
    Capped lot cap (c.submit side px lot tif type).1.x := by
  have hlot := h.bounds.1
  have hsame := (c.sameMarket_submit side px lot tif type).held
  rcases c.rows_submit side px lot tif type with hle | ⟨-, hrows⟩
  · exact h.of_subset hsame fun r hr => Multiset.mem_of_le hle hr
  · refine ⟨h.bounds, fun r hr r' hr' hside => ?_, fun r hr => ?_, fun r hr => ?_,
      fun side' j => hsame side' j ▸ h.held side' j⟩
    · rw [hrows] at hr hr'
      rcases Multiset.mem_cons.1 hr with rfl | hr <;> rcases Multiset.mem_cons.1 hr' with rfl | hr'
      · rfl
      · exact absurd hside.symm (hnone r' hr')
      · exact absurd hside (hnone r hr)
      · exact h.eq_of_side r hr r' hr' hside
    all_goals
      rw [hrows] at hr
      rcases Multiset.mem_cons.1 hr with rfl | hr
    · exact ⟨⟨le_rfl, hlot⟩, (zero_add lot).le, ⟨hlot, le_rfl⟩, ⟨le_rfl, hlot⟩⟩
    · exact h.row r hr
    · rw [hsame]
      exact (sub_zero _).trans_lt hheld
    · rw [hsame]
      exact h.room r hr

theorem cancel (h : Capped lot cap c.x) (id : UInt64) : Capped lot cap (c.cancel id).1.x := by
  refine h.of_rows (c.sameMarket_cancel id).held fun r hr => ?_
  rcases StrategyContext.mem_rows_cancel hr with hr | ⟨row, hmem, rfl⟩
  · exact ⟨r, hr, rfl, rfl, rfl, rfl, h.row r hr⟩
  · have hrow := h.row row hmem
    exact ⟨row, hmem, rfl, rfl, rfl, rfl, hrow.cum, hrow.total, hrow.qty, hrow.newQty⟩

/-- An amend that does not ask for more than a lot. -/
theorem replace (h : Capped lot cap c.x) (id : UInt64) (px : ℤ) {qty : ℤ}
    (hqty : 0 ≤ qty ∧ qty ≤ lot) : Capped lot cap (c.replace id px qty).1.x := by
  refine h.of_rows (c.sameMarket_replace id px qty).held fun r hr => ?_
  rcases StrategyContext.mem_rows_replace hr with hr | ⟨row, hmem, -, rfl⟩
  · exact ⟨r, hr, rfl, rfl, rfl, rfl, h.row r hr⟩
  · have hrow := h.row row hmem
    exact ⟨row, hmem, rfl, rfl, rfl, rfl, hrow.cum, hrow.total, hrow.qty, hqty⟩

end Calls

end Capped

end Exec

end LowLatencyPipeline
