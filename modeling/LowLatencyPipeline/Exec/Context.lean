import LowLatencyPipeline.Exec.MarketView
import LowLatencyPipeline.Exec.Risk

/-!
# Exec's state and how reports change it

`ExecContext` of `exec/exec_context.hpp` with `apply_report`. The clock is part of the state:
`tsc` is what `read_tsc()` returns and `wallNs` the wall clock computed from it, both moved by
the environment between steps. The latency histograms and the text fields of the published
stats are left out.

`applyReport` is described once by the lemmas of the last section, which say what each report
does to the live rows and to the account.
-/

namespace LowLatencyPipeline

namespace Exec

/-- The counters of `stats::ExecStats`. -/
structure ExecStats where
  frames : ℕ := 0
  ordersNew : ℕ := 0
  ordersReplace : ℕ := 0
  ordersCancel : ℕ := 0
  riskRejects : ℕ := 0
  ringFullRejects : ℕ := 0
  acks : ℕ := 0
  venueRejects : ℕ := 0
  canceled : ℕ := 0
  replaced : ℕ := 0
  expired : ℕ := 0
  fills : ℕ := 0
  unsolicited : ℕ := 0
  rejects : RejectReason → ℕ := fun _ => 0

/-- `ExecContext`. -/
structure ExecContext where
  instruments : UInt16 → Instrument
  view : MarketView
  account : Account
  orders : OrderTable
  risk : RiskGate
  rate : RateModel
  eventClock : Bool
  eventNs : ℤ
  tsc : UInt64
  wallNs : ℤ
  controlFlags : UInt32
  lastReject : Option RejectReason
  st : ExecStats

/-! ### The stores of `apply_report` -/

def setAcked (nowNs : ℤ) : RowStore :=
  ⟨fun r => { r with status := .new, tAckNs := nowNs }, fun _ => ⟨rfl, rfl, rfl, rfl⟩⟩

def addCum (q : ℤ) : RowStore :=
  ⟨fun r => { r with cum := wrap 64 (r.cum + q) }, fun _ => ⟨rfl, rfl, rfl, rfl⟩⟩

def setStatus (status : OrdStatus) : RowStore :=
  ⟨fun r => { r with status }, fun _ => ⟨rfl, rfl, rfl, rfl⟩⟩

/-- Price and total quantity become those of the amend in flight. -/
def setTerms : RowStore :=
  ⟨fun r => { r with px := r.newPx, qty := r.newQty }, fun _ => ⟨rfl, rfl, rfl, rfl⟩⟩

def clearReplace : RowStore :=
  ⟨fun r => { r with pendingReplace := false }, fun _ => ⟨rfl, rfl, rfl, rfl⟩⟩

def clearPending : RowStore :=
  ⟨fun r => { r with pendingCancel := false, pendingReplace := false },
    fun _ => ⟨rfl, rfl, rfl, rfl⟩⟩

namespace ExecContext

variable (x : ExecContext)

/-- The counter of the ids drawn. -/
def drawn : ℕ := x.orders.source.2.toNat

/-- `now_ns`. -/
def nowNs : ℤ := if x.eventClock then x.eventNs else x.wallNs

/-- `count_reject`. -/
def countReject (r : RejectReason) : ExecContext :=
  { x with
    lastReject := some r
    st := { x.st with
      rejects := Function.update x.st.rejects r (x.st.rejects r + 1)
      ringFullRejects := if r = .ringFull then x.st.ringFullRejects + 1 else x.st.ringFullRejects
      riskRejects := if r = .ringFull then x.st.riskRejects else x.st.riskRejects + 1 } }

/-- `finish`: give back the reservation and drop the row. -/
def finish (row : OrderRow) : ExecContext :=
  { x with
    account := x.account.release row.instrument row.side row.px row.leaves
    orders := x.orders.erase row.id }

/-! ### `apply_report`, one branch for each kind of report -/

/-- `Ack`. -/
def applyAck (row : OrderRow) : ExecContext :=
  { x with
    orders := x.orders.modify row.id (setAcked x.nowNs)
    st := { x.st with acks := x.st.acks + 1 } }

/-- The row after a fill. -/
def filledRow (row : OrderRow) (rep : ExecReport) : OrderRow :=
  { row with
    cum := wrap 64 (row.cum + rep.lastQty)
    leaves := if rep.lastQty < row.leaves then wrap 64 (row.leaves - rep.lastQty) else 0
    status := if rep.execType = .fill then .filled else .partiallyFilled }

/-- `PartialFill` and `Fill`. -/
def applyFill (row : OrderRow) (rep : ExecReport) : ExecContext :=
  let row' := filledRow row rep
  let orders := x.orders.modify row.id (addCum rep.lastQty)
  let orders := orders.setLeaves row.id row'.leaves
  let orders := orders.modify row.id (setStatus row'.status)
  let x := { x with
    account := x.account.onFill row.instrument row.side rep.lastPx rep.lastQty row.px rep.fee
      rep.feeInBase
    orders
    st := { x.st with fills := x.st.fills + 1 } }
  if row'.leaves = 0 then x.finish row' else x

/-- The row after its amend is confirmed. -/
def replacedRow (row : OrderRow) : OrderRow :=
  { row with
    px := row.newPx
    qty := row.newQty
    leaves := wrap 64 (row.newQty - row.cum)
    pendingReplace := false }

/-- `Replaced`. -/
def applyReplaced (row : OrderRow) : ExecContext :=
  let row' := replacedRow row
  let account := x.account.release row.instrument row.side row.px row.leaves
  let orders := x.orders.modify row.id setTerms
  let orders := orders.setLeaves row.id row'.leaves
  let account := account.reserve row.instrument row.side row'.px row'.leaves
  let orders := orders.modify row.id clearReplace
  { x with account, orders, st := { x.st with replaced := x.st.replaced + 1 } }

/-- `CancelReject`. -/
def applyCancelReject (row : OrderRow) : ExecContext :=
  { x with
    orders := x.orders.modify row.id clearPending }

/-- `apply_report`. -/
def applyReport (rep : ExecReport) : ExecContext :=
  match x.orders.find rep.clOrdId with
  | none => { x with st := { x.st with unsolicited := x.st.unsolicited + 1 } }
  | some row =>
    match rep.execType with
    | .ack => x.applyAck row
    | .partialFill | .fill => x.applyFill row rep
    | .replaced => x.applyReplaced row
    | .canceled => { x with st := { x.st with canceled := x.st.canceled + 1 } }.finish row
    | .expired => { x with st := { x.st with expired := x.st.expired + 1 } }.finish row
    | .reject => { x with st := { x.st with venueRejects := x.st.venueRejects + 1 } }.finish row
    | .cancelReject => x.applyCancelReject row
    | .restated => x

/-- The parts of `handle_frame` before `on_tick`, apart from the router. -/
def onFrame (u : MarketUpdate) : ExecContext :=
  { x with
    view := x.view.onUpdate u
    eventNs := wrap 64 u.eventTime.toNat
    account := x.account.mark u.instrument u.bestBid u.bestAsk }

end ExecContext

/-! ### What a report does to the rows and the account -/

section Rows

variable {x : ExecContext} {row : OrderRow} {rest : Multiset OrderRow}

theorem rows_finish (h : x.orders.rows = row ::ₘ rest) : (x.finish row).orders.rows = rest :=
  OrderTable.erase_rows h

theorem rows_applyAck (h : x.orders.rows = row ::ₘ rest) :
    (x.applyAck row).orders.rows = (setAcked x.nowNs).run row ::ₘ rest :=
  OrderTable.modify_rows h _

theorem rows_applyCancelReject (h : x.orders.rows = row ::ₘ rest) :
    (x.applyCancelReject row).orders.rows = clearPending.run row ::ₘ rest :=
  OrderTable.modify_rows h _

theorem rows_applyReplaced (h : x.orders.rows = row ::ₘ rest) :
    (x.applyReplaced row).orders.rows = ExecContext.replacedRow row ::ₘ rest := by
  have hterms := OrderTable.modify_rows h setTerms
  have hleaves := OrderTable.setLeaves_rows hterms (ExecContext.replacedRow row).leaves
  exact OrderTable.modify_rows hleaves clearReplace

theorem rows_applyFill (h : x.orders.rows = row ::ₘ rest) (rep : ExecReport) :
    (x.applyFill row rep).orders.rows =
      if (ExecContext.filledRow row rep).leaves = 0 then rest
      else ExecContext.filledRow row rep ::ₘ rest := by
  have hcum := OrderTable.modify_rows h (addCum rep.lastQty)
  have hleaves := OrderTable.setLeaves_rows hcum (ExecContext.filledRow row rep).leaves
  have hstatus := OrderTable.modify_rows hleaves
    (setStatus (ExecContext.filledRow row rep).status)
  unfold ExecContext.applyFill
  dsimp only
  split_ifs
  · exact OrderTable.erase_rows hstatus
  · exact hstatus

theorem position_applyFill (rep : ExecReport) (j : UInt16) :
    (x.applyFill row rep).account.position j =
      (x.account.onFill row.instrument row.side rep.lastPx rep.lastQty row.px rep.fee
        rep.feeInBase).position j := by
  unfold ExecContext.applyFill
  dsimp only
  split_ifs
  · rfl
  · rfl

theorem risk_applyFill (rep : ExecReport) : (x.applyFill row rep).risk = x.risk := by
  unfold ExecContext.applyFill
  dsimp only
  split_ifs
  · rfl
  · rfl

/-- What the reports after the last fill would release is nothing. -/
theorem account_applyFill (rep : ExecReport) (k : ℕ)
    (hnone : ((x.account.onFill row.instrument row.side rep.lastPx rep.lastQty row.px rep.fee
        rep.feeInBase).reservation row.instrument row.side row.px 0) = 0)
    (hfit : Fits 64 ((x.account.onFill row.instrument row.side rep.lastPx rep.lastQty row.px rep.fee
        rep.feeInBase).bal k).reserved) :
    (x.applyFill row rep).account.bal k = (x.account.onFill row.instrument row.side rep.lastPx
      rep.lastQty row.px rep.fee rep.feeInBase).bal k := by
  unfold ExecContext.applyFill
  dsimp only
  split_ifs with hdone
  · change ((Account.release _ row.instrument row.side row.px
      (ExecContext.filledRow row rep).leaves).bal k) = _
    rw [hdone, Account.release, bal_setBal, hnone, sub_zero]
    split_ifs
    · rw [wrap_eq_self (by omega) hfit]
    · rfl
  · rfl

theorem terms_applyFill (rep : ExecReport) :
    (x.applyFill row rep).account.terms = x.account.terms := by
  unfold ExecContext.applyFill
  dsimp only
  split_ifs
  · exact terms_onFill _ _
  · exact terms_onFill _ _

/-- A fill of lots that are open leaves the others open. -/
theorem filledRow_leaves {rep : ExecReport} (hq : 0 ≤ rep.lastQty) (hle : rep.lastQty ≤ row.leaves)
    (hlt : row.leaves < 2 ^ 63) :
    (ExecContext.filledRow row rep).leaves = row.leaves - rep.lastQty := by
  change (if rep.lastQty < row.leaves then wrap 64 (row.leaves - rep.lastQty) else 0) = _
  split_ifs
  · exact wrap_eq_self (by omega) ⟨by omega, by omega⟩
  · omega

theorem filledRow_cum {rep : ExecReport} (hq : 0 ≤ rep.lastQty) (hcum : 0 ≤ row.cum)
    (hlt : row.cum + rep.lastQty < 2 ^ 63) :
    (ExecContext.filledRow row rep).cum = row.cum + rep.lastQty :=
  wrap_eq_self (by omega) ⟨by omega, by omega⟩

theorem replacedRow_leaves (hcum : 0 ≤ row.cum) (hle : row.cum ≤ row.newQty)
    (hlt : row.newQty < 2 ^ 63) :
    (ExecContext.replacedRow row).leaves = row.newQty - row.cum :=
  wrap_eq_self (by omega) ⟨by omega, by omega⟩

/-- What is left of the row that a report finds. -/
def ExecContext.rowAfter (x : ExecContext) (row : OrderRow) (rep : ExecReport) : Option OrderRow :=
  match rep.execType with
  | .ack => some ((setAcked x.nowNs).run row)
  | .partialFill | .fill =>
    if (ExecContext.filledRow row rep).leaves = 0 then none
    else some (ExecContext.filledRow row rep)
  | .replaced => some (ExecContext.replacedRow row)
  | .canceled | .expired | .reject => none
  | .cancelReject => some (clearPending.run row)
  | .restated => some row

/-- A report keeps the id of the row it finds. -/
theorem id_rowAfter {rep : ExecReport} {row' : OrderRow} (h : x.rowAfter row rep = some row') :
    row'.id = row.id := by
  unfold ExecContext.rowAfter at h
  cases htype : rep.execType with
  | ack | replaced | cancelReject | restated =>
    rw [htype, Option.some.injEq] at h
    exact h ▸ rfl
  | partialFill | fill =>
    rw [htype] at h
    dsimp only at h
    split_ifs at h
    exact Option.some_injective _ h ▸ rfl
  | canceled | expired | reject =>
    rw [htype] at h
    exact nomatch h

theorem rows_applyReport_unknown {rep : ExecReport} (h : x.orders.find rep.clOrdId = none) :
    (x.applyReport rep).orders.rows = x.orders.rows := by
  rw [ExecContext.applyReport, h]

/-- **A report changes the row it finds**, and no other. -/
theorem rows_applyReport {rep : ExecReport} (hfind : x.orders.find rep.clOrdId = some row)
    (h : x.orders.rows = row ::ₘ rest) :
    (x.applyReport rep).orders.rows = (x.rowAfter row rep).elim rest (· ::ₘ rest) := by
  unfold ExecContext.applyReport ExecContext.rowAfter
  rw [hfind]
  cases htype : rep.execType with
  | ack => exact rows_applyAck h
  | partialFill | fill =>
    refine (rows_applyFill h rep).trans ?_
    dsimp only
    split_ifs <;> rfl
  | replaced => exact rows_applyReplaced h
  | canceled | expired | reject => exact rows_finish h
  | cancelReject => exact rows_applyCancelReject h
  | restated => exact h

/-- Every row after a report was there before, or is what is left of the row it found. -/
theorem mem_rows_applyReport {rep : ExecReport} {r : OrderRow}
    (hr : r ∈ (x.applyReport rep).orders.rows) :
    r ∈ x.orders.rows ∧ r.id ≠ rep.clOrdId ∨
      ∃ row, x.orders.find rep.clOrdId = some row ∧ x.rowAfter row rep = some r := by
  cases hfind : x.orders.find rep.clOrdId with
  | none =>
    rw [rows_applyReport_unknown hfind] at hr
    exact .inl ⟨hr, OrderTable.find_eq_none.1 hfind r hr⟩
  | some row =>
    obtain ⟨hid, rest, hrows⟩ := OrderTable.exists_rows_eq_cons hfind
    have hrest (hr : r ∈ rest) : r ∈ x.orders.rows ∧ r.id ≠ rep.clOrdId :=
      ⟨hrows ▸ Multiset.mem_cons_of_mem hr, hid ▸ OrderTable.id_ne_of_cons hrows hr⟩
    rw [rows_applyReport hfind hrows] at hr
    cases hafter : x.rowAfter row rep with
    | none =>
      rw [hafter] at hr
      exact .inl (hrest hr)
    | some row' =>
      rw [hafter] at hr
      rcases Multiset.mem_cons.1 hr with rfl | hr
      · exact .inr ⟨row, rfl, hafter⟩
      · exact .inl (hrest hr)

/-- What stores, changes of leaves and erasures keep, a report keeps. -/
theorem orders_applyReport {P : OrderTable → Prop} (hmodify : ∀ t id f, P t → P (t.modify id f))
    (hleaves : ∀ t id leaves, P t → P (t.setLeaves id leaves))
    (herase : ∀ t id, P t → P (t.erase id)) (h : P x.orders) (rep : ExecReport) :
    P (x.applyReport rep).orders := by
  unfold ExecContext.applyReport
  cases x.orders.find rep.clOrdId with
  | none => exact h
  | some row =>
    cases rep.execType with
    | ack | cancelReject => exact hmodify _ _ _ h
    | canceled | expired | reject => exact herase _ _ h
    | restated => exact h
    | partialFill | fill =>
      have hfilled := hmodify _ row.id (setStatus (ExecContext.filledRow row rep).status)
        (hleaves _ row.id (ExecContext.filledRow row rep).leaves
          (hmodify _ row.id (addCum rep.lastQty) h))
      change P (x.applyFill row rep).orders
      unfold ExecContext.applyFill
      dsimp only
      split_ifs
      · exact herase _ _ hfilled
      · exact hfilled
    | replaced => exact hmodify _ _ _ (hleaves _ _ _ (hmodify _ _ _ h))

/-- A report draws no id. -/
theorem drawn_applyReport (x : ExecContext) (rep : ExecReport) :
    (x.applyReport rep).drawn = x.drawn := by
  have hsource := orders_applyReport (x := x) (P := fun t => t.source = x.orders.source)
    (fun t id f h => (OrderTable.modify_source t id f).trans h)
    (fun t id leaves h => (OrderTable.setLeaves_source t id leaves).trans h)
    (fun t id h => (OrderTable.erase_source t id).trans h) rfl rep
  rw [ExecContext.drawn, hsource]
  rfl

/-- The row that a report finds and keeps is there afterwards. -/
theorem rowAfter_mem {rep : ExecReport} {row' : OrderRow}
    (hfind : x.orders.find rep.clOrdId = some row) (hafter : x.rowAfter row rep = some row') :
    row' ∈ (x.applyReport rep).orders.rows := by
  obtain ⟨-, rest, hrows⟩ := OrderTable.exists_rows_eq_cons hfind
  rw [rows_applyReport hfind hrows, hafter]
  exact Multiset.mem_cons_self row' rest

end Rows

/-- Two rows of one order that differ in no price and no quantity. -/
structure SameTerms (r r' : OrderRow) : Prop extends SameLots r r' where
  px : r'.px = r.px
  cum : r'.cum = r.cum
  newPx : r'.newPx = r.newPx
  newQty : r'.newQty = r.newQty

/-- **What a report does**: nothing to an order it does not know, else it keeps the terms of the
row, fills it, confirms its amend or drops it. -/
inductive ReportEffect (x : ExecContext) (rep : ExecReport) : ExecContext → Prop
  | unknown (st : ExecStats) : x.orders.find rep.clOrdId = none → ReportEffect x rep { x with st }
  | kept (row row' : OrderRow) (rest : Multiset OrderRow) (orders : OrderTable) (st : ExecStats) :
      x.orders.find rep.clOrdId = some row → row.id = rep.clOrdId →
      x.orders.rows = row ::ₘ rest → orders.rows = row' ::ₘ rest → SameTerms row row' →
      ReportEffect x rep { x with orders, st }
  | filled (row : OrderRow) (rest : Multiset OrderRow) :
      x.orders.find rep.clOrdId = some row → row.id = rep.clOrdId →
      x.orders.rows = row ::ₘ rest → rep.IsFill → ReportEffect x rep (x.applyFill row rep)
  | replaced (row : OrderRow) (rest : Multiset OrderRow) :
      x.orders.find rep.clOrdId = some row → row.id = rep.clOrdId →
      x.orders.rows = row ::ₘ rest → rep.execType = .replaced →
      ReportEffect x rep (x.applyReplaced row)
  | dropped (row : OrderRow) (rest : Multiset OrderRow) (orders : OrderTable) (st : ExecStats) :
      x.orders.find rep.clOrdId = some row → row.id = rep.clOrdId →
      x.orders.rows = row ::ₘ rest → orders.rows = rest →
      ReportEffect x rep { x with
        orders, st, account := x.account.release row.instrument row.side row.px row.leaves }

theorem applyReport_effect (x : ExecContext) (rep : ExecReport) :
    ReportEffect x rep (x.applyReport rep) := by
  unfold ExecContext.applyReport
  cases hfind : x.orders.find rep.clOrdId with
  | none => exact .unknown _ hfind
  | some row =>
    obtain ⟨hid, rest, hrows⟩ := OrderTable.exists_rows_eq_cons hfind
    have hfill (h : rep.execType = .partialFill ∨ rep.execType = .fill) : rep.IsFill := h
    dsimp only
    cases htype : rep.execType with
    | ack =>
      exact .kept row _ rest _ _ hfind hid hrows (rows_applyAck hrows)
        ⟨⟨rfl, rfl, rfl, rfl⟩, rfl, rfl, rfl, rfl⟩
    | cancelReject =>
      exact .kept row _ rest _ _ hfind hid hrows (rows_applyCancelReject hrows)
        ⟨⟨rfl, rfl, rfl, rfl⟩, rfl, rfl, rfl, rfl⟩
    | restated =>
      exact .kept row row rest _ _ hfind hid hrows hrows
        ⟨⟨rfl, rfl, rfl, rfl⟩, rfl, rfl, rfl, rfl⟩
    | partialFill => exact .filled row rest hfind hid hrows (hfill (.inl htype))
    | fill => exact .filled row rest hfind hid hrows (hfill (.inr htype))
    | replaced => exact .replaced row rest hfind hid hrows htype
    | reject => exact .dropped row rest _ _ hfind hid hrows (OrderTable.erase_rows hrows)
    | canceled => exact .dropped row rest _ _ hfind hid hrows (OrderTable.erase_rows hrows)
    | expired => exact .dropped row rest _ _ hfind hid hrows (OrderTable.erase_rows hrows)

/-- One online instrument, ample balances and no limit but the given ones. -/
def demoContext (lim : RiskLimits) : ExecContext where
  instruments := fun _ => ⟨1, 1, 0, 0, 0, -8, .online⟩
  view := {}
  account := ⟨[0], fun _ => ⟨0, 1, 0, 1, 1, {}⟩, fun _ => ⟨1000, 0⟩, 0, 0⟩
  orders := .empty
  risk := ⟨lim, fun _ => true⟩
  rate := {}
  eventClock := true
  eventNs := 0
  tsc := 0
  wallNs := 0
  controlFlags := 0
  lastReject := none
  st := {}

end Exec

end LowLatencyPipeline
