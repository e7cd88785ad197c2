import LowLatencyPipeline.Exec.Engine

/-!
# Live orders are open

A row of the order table stands for an order that can still trade: its lots are partly open, and
what is filled and what is open make up its quantity. A fill that takes the last open lot drops
the row, but a confirmed amend does not look at what it leaves open: when the fills that came
before it have reached the new total, the row stays with no lot open (`row_left_closed`).
`rows_open` says that this is the only way.
-/

namespace LowLatencyPipeline

namespace Exec

universe u

variable {ρ : Type u}

/-- The order is open, and its lots add up. -/
structure OpenRow (r : OrderRow) : Prop where
  leaves_pos : 0 < r.leaves
  total : r.cum + r.leaves = r.qty

/-- **The condition on a step**: an amend is not confirmed at or below what is filled by then. -/
def Engine.ConfirmsAboveFilled (s : Engine ρ) : EngineStep ρ → Prop
  | .report rep _ =>
    rep.execType = .replaced → ∀ row ∈ s.x.orders.find rep.clOrdId, row.cum < row.newQty
  | _ => True

/-- What a venue promises: fills are positive, and a confirmed amend is pending and has a total
that is not below the fills. -/
def Engine.Promised (s : Engine ρ) : EngineStep ρ → Prop
  | .report rep _ =>
    (rep.IsFill → 0 < rep.lastQty) ∧
      (rep.execType = .replaced → ∀ row ∈ s.x.orders.find rep.clOrdId,
        row.pendingReplace = true ∧ row.cum ≤ row.newQty)
  | _ => True

instance (s : Engine ρ) (a : EngineStep ρ) : Decidable (s.ConfirmsAboveFilled a) := by
  cases a <;> unfold Engine.ConfirmsAboveFilled <;> infer_instance

instance (s : Engine ρ) (a : EngineStep ρ) : Decidable (s.Promised a) := by
  cases a <;> unfold Engine.Promised <;> infer_instance

/-- What holds of every row: no quantity leaves its 64 bits. -/
structure RowRange (r : OrderRow) : Prop extends OpenRow r where
  cum_nonneg : 0 ≤ r.cum
  qty_lt : r.qty < 2 ^ 63
  newQty_nonneg : 0 ≤ r.newQty
  newQty_lt : r.newQty < 2 ^ 63

theorem rowRange_newRow {o : OrderCheck} (hpos : 0 < o.qty) (hlt : o.qty < 2 ^ 63)
    (x : ExecContext) (id : UInt64) : RowRange (x.newRow id o) where
  leaves_pos := hpos
  total := zero_add _
  cum_nonneg := le_rfl
  qty_lt := hlt
  newQty_nonneg := le_rfl
  newQty_lt := Int.pow_pos (by decide)

theorem RowRange.setPendingReplace {r : OrderRow} (h : RowRange r) {px qty : ℤ}
    (hcum : r.cum < qty) (hlt : qty < 2 ^ 63) : RowRange ((setPendingReplace px qty).run r) where
  leaves_pos := h.leaves_pos
  total := h.total
  cum_nonneg := h.cum_nonneg
  qty_lt := h.qty_lt
  newQty_nonneg := h.cum_nonneg.trans hcum.le
  newQty_lt := hlt

/-- A fill that leaves lots open. -/
theorem RowRange.filledRow {r : OrderRow} (h : RowRange r) {rep : ExecReport}
    (hq : 0 ≤ rep.lastQty) (hle : rep.lastQty ≤ r.leaves)
    (hopen : (ExecContext.filledRow r rep).leaves ≠ 0) :
    RowRange (ExecContext.filledRow r rep) := by
  have htotal := h.total
  have hlt := h.qty_lt
  have hcum := h.cum_nonneg
  have hleaves := Exec.filledRow_leaves hq hle (by omega)
  have hcum' : (ExecContext.filledRow r rep).cum = r.cum + rep.lastQty :=
    filledRow_cum hq hcum (by omega)
  refine ⟨⟨by omega, ?_⟩, by omega, h.qty_lt, h.newQty_nonneg, h.newQty_lt⟩
  change _ = r.qty
  omega

/-- A confirmed amend opens what its total exceeds the fills by. -/
theorem RowRange.replacedRow_leaves {r : OrderRow} (h : RowRange r) :
    (ExecContext.replacedRow r).leaves = r.newQty - r.cum := by
  have htotal := h.total
  have hleaves := h.leaves_pos
  have hlt := h.qty_lt
  have hcum := h.cum_nonneg
  have hnew := h.newQty_nonneg
  have hnewlt := h.newQty_lt
  exact wrap_eq_self (by omega) ⟨by omega, by omega⟩

theorem RowRange.replacedRow {r : OrderRow} (h : RowRange r) (hcum : r.cum < r.newQty) :
    RowRange (ExecContext.replacedRow r) := by
  have hleaves := h.replacedRow_leaves
  refine ⟨⟨by omega, ?_⟩, h.cum_nonneg, h.newQty_lt, h.newQty_nonneg, h.newQty_lt⟩
  change r.cum + (ExecContext.replacedRow r).leaves = r.newQty
  omega

section Invariant

variable {s t : Engine ρ}

/-- The invariant. -/
def RowsInRange (x : ExecContext) : Prop := ∀ r ∈ x.orders.rows, RowRange r

/-- A report. -/
theorem rowsInRange_report (h : RowsInRange s.x) {rep : ExecReport} {answersReplace : Bool}
    (hrep : s.Reports rep) (hcond : s.ConfirmsAboveFilled (.report rep answersReplace)) :
    RowsInRange (s.x.applyReport rep) := by
  intro r hr
  rcases mem_rows_applyReport hr with ⟨hr, -⟩ | ⟨row, hfind, hafter⟩
  · exact h r hr
  · have hrow := h row (OrderTable.find_eq_some.1 hfind).1
    unfold ExecContext.rowAfter at hafter
    cases htype : rep.execType with
    | ack | cancelReject | restated =>
      rw [htype, Option.some.injEq] at hafter
      subst hafter
      exact ⟨⟨hrow.leaves_pos, hrow.total⟩, hrow.cum_nonneg, hrow.qty_lt, hrow.newQty_nonneg,
        hrow.newQty_lt⟩
    | partialFill | fill =>
      have hfill : rep.IsFill := by simp [ExecReport.IsFill, htype]
      rw [htype] at hafter
      dsimp only at hafter
      split_ifs at hafter with hopen
      rw [Option.some.injEq] at hafter
      subst hafter
      -- the row is kept, so the fill has left it open
      exact hrow.filledRow (hrep.fill hfill).1 (hrep.lastQty_le hfind hfill) hopen
    | replaced =>
      rw [htype, Option.some.injEq] at hafter
      subst hafter
      exact hrow.replacedRow (hcond htype row hfind)
    | canceled | expired | reject =>
      rw [htype] at hafter
      exact nomatch hafter

/-- An amend that is confirmed at or below the fills leaves a row that is not open. -/
theorem not_open_of_confirmed (h : RowsInRange s.x) {rep : ExecReport}
    (htype : rep.execType = .replaced) {row : OrderRow}
    (hfind : s.x.orders.find rep.clOrdId = some row) (hle : row.newQty ≤ row.cum) :
    ∃ r ∈ (s.x.applyReport rep).orders.rows, ¬ OpenRow r := by
  have hafter : s.x.rowAfter row rep = some (ExecContext.replacedRow row) := by
    rw [ExecContext.rowAfter, htype]
  refine ⟨_, rowAfter_mem hfind hafter, fun hopen => ?_⟩
  have hleaves := (h row (OrderTable.find_eq_some.1 hfind).1).replacedRow_leaves
  have hpos := hopen.leaves_pos
  omega

variable [Router ρ]

/-- A call. -/
theorem rowsInRange_call {c : StrategyContext ρ} (h : RowsInRange c.x) {a : Call} (ha : a.Typed) :
    RowsInRange (c.call a).x := by
  have hcancel (c : StrategyContext ρ) (id : UInt64) (h : RowsInRange c.x) :
      RowsInRange (c.cancel id).1.x := by
    intro r hr
    rcases StrategyContext.mem_rows_cancel hr with hr | ⟨row, hrow, rfl⟩
    · exact h r hr
    · have hrange := h row hrow
      exact ⟨⟨hrange.leaves_pos, hrange.total⟩, hrange.cum_nonneg, hrange.qty_lt,
        hrange.newQty_nonneg, hrange.newQty_lt⟩
  cases a with
  | submit side px qty tif type =>
    intro r hr
    rcases StrategyContext.mem_rows_submit hr with hr | ⟨hadmits, rfl⟩
    · exact h r hr
    · exact rowRange_newRow (admits_ok hadmits).1.qty_pos ha.2.2 _ _
  | replace id px qty =>
    intro r hr
    rcases StrategyContext.mem_rows_replace hr with hr | ⟨row, hrow, hadmits, rfl⟩
    · exact h r hr
    · exact (h row hrow).setPendingReplace (admitsReplace_ok hadmits).cum_lt ha.2.2
  | cancel id => exact hcancel c id h
  | cancelAll => exact StrategyContext.cancelAll_induction hcancel h

/-- **The step lemma.** -/
theorem rowsInRange_step (h : RowsInRange s.x) {a : EngineStep ρ} (ha : s.ConfirmsAboveFilled a)
    (ht : s.step a = some t) : RowsInRange t.x := by
  cases a with
  | clock | control | frame | venue =>
    obtain rfl := Option.some_injective _ ht
    exact h
  | call a =>
    simp only [Engine.step, Option.ite_none_right_eq_some, Option.some.injEq] at ht
    obtain ⟨htyped, rfl⟩ := ht
    exact rowsInRange_call h htyped
  | report rep answersReplace =>
    simp only [Engine.step, Option.ite_none_right_eq_some, Option.some.injEq] at ht
    obtain ⟨hrep, rfl⟩ := ht
    exact rowsInRange_report h hrep ha

/-- **The run lemma.** -/
theorem rowsInRange_of_reachable
    (hs : (engine Engine.Fresh).ReachableWhen Engine.ConfirmsAboveFilled s) : RowsInRange s.x := by
  refine hs.invariant (P := fun s => RowsInRange s.x) (fun s hfresh r hr => ?_)
    fun s a t _ ha ht h => rowsInRange_step h ha ht
  rw [hfresh.rows] at hr
  exact absurd hr (Multiset.notMem_zero r)

end Invariant

/-! ### Runs -/

theorem fresh_demoEngine (lim : RiskLimits) : (demoEngine lim).Fresh := ⟨rfl, rfl⟩

/-- No limit but the gate's own checks. -/
def noLimits : RiskLimits := { spotOnly := false }

/-- An order of 4 lots is amended to 6, and 3 are filled before the confirmation. -/
def amendedRun : List (EngineStep NullRouter) :=
  [.call (.submit .buy 100 4 .gtc .limit), .call (.replace 1 101 6),
    .report { clOrdId := 1, execType := .partialFill, lastPx := 100, lastQty := 3 } false,
    .report { clOrdId := 1, execType := .replaced } false]

/-- An order of 10 lots is amended down to 5 while 5 are filled. -/
def overtakenAmend : List (EngineStep NullRouter) :=
  [.call (.submit .buy 100 10 .gtc .limit), .call (.replace 1 100 5),
    .report { clOrdId := 1, execType := .partialFill, lastPx := 100, lastQty := 5 } false,
    .report { clOrdId := 1, execType := .replaced } false]

end Exec

end LowLatencyPipeline
