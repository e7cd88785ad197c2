import LowLatencyPipeline.Exec.Context
import LowLatencyPipeline.Exec.Router

/-!
# The requests of a strategy

`StrategyContext` of `exec/strategy.hpp`: `submit`, `replace`, `cancel` and `cancel_all`, over
any router. `Call` names a request with its arguments, so that a strategy is a source of calls.

Every call either is refused or does one thing; `submit_effect`, `replace_effect` and
`cancel_effect` say which, for all the invariants that follow. What a call charges goes through
the rate model's own gate (`call_rate`), and it reaches the router as submits (`call_router`).
-/

namespace LowLatencyPipeline

namespace Exec

universe u

/-- `StrategyContext`: exec's state and the router. -/
structure StrategyContext (ρ : Type u) where
  x : ExecContext
  router : ρ

/-! ### The stores of the requests -/

def setPendingReplace (px qty : ℤ) : RowStore :=
  ⟨fun r => { r with pendingReplace := true, newPx := px, newQty := qty },
    fun _ => ⟨rfl, rfl, rfl, rfl⟩⟩

def setPendingCancel : RowStore :=
  ⟨fun r => { r with pendingCancel := true }, fun _ => ⟨rfl, rfl, rfl, rfl⟩⟩

namespace ExecContext

variable (x : ExecContext)

/-- The check a new order on the current frame's instrument goes through. -/
def orderCheck (side : Side) (px qty : ℤ) (tif : Tif) (type : OrdType) : OrderCheck where
  instrument := x.view.instrument
  side := side
  ordType := type
  tif := tif
  px := px
  qty := qty
  mid2 := x.view.mid2
  nowNs := x.nowNs

/-- The gate's verdict on a new order, with the full table last. -/
def admits (o : OrderCheck) : Except RejectReason Unit := do
  x.risk.checkNew o (x.instruments o.instrument) x.account x.orders x.rate x.controlFlags
  rejectIf x.orders.full .tableFull

/-- The row of a new order. A market order reserves (and later releases) at mid. -/
def newRow (id : UInt64) (o : OrderCheck) : OrderRow where
  id := id
  tscDecision := x.tsc
  tSubmitNs := o.nowNs
  px := if 0 < o.px then o.px else o.mid2.tdiv 2
  qty := o.qty
  leaves := o.qty
  instrument := o.instrument
  side := o.side
  tif := o.tif
  ordType := o.ordType

/-- The request of a new order; a market order's price stays 0. -/
def newRequest (id : UInt64) (o : OrderCheck) : OrderRequest where
  clOrdId := id
  origClOrdId := 0
  tscDecision := x.tsc
  strategyTag := 0
  price := o.px
  qty := o.qty
  instrument := o.instrument
  type := .new
  side := o.side
  ordType := o.ordType
  tif := o.tif

/-- The request that amends or cancels a live order. -/
def rowRequest (row : OrderRow) (type : ReqType) (px qty : ℤ) : OrderRequest where
  clOrdId := row.id
  origClOrdId := row.id
  tscDecision := x.tsc
  strategyTag := row.strategyTag
  price := px
  qty := qty
  instrument := row.instrument
  type := type
  side := row.side
  ordType := row.ordType
  tif := row.tif

/-- The gate's verdict on an amend of a live order. -/
def admitsReplace (row : OrderRow) (px qty : ℤ) : Except RejectReason Unit :=
  x.risk.checkReplace row px qty x.view.mid2 x.nowNs (x.instruments row.instrument) x.account
    x.orders x.rate x.controlFlags

end ExecContext

namespace StrategyContext

variable {ρ : Type u} [Router ρ] (c : StrategyContext ρ)

/-- `submit`: 0 (`INVALID_ORDER`) when refused. -/
def submit (side : Side) (px qty : ℤ) (tif : Tif) (type : OrdType) :
    StrategyContext ρ × UInt64 :=
  let x := c.x
  let o := x.orderCheck side px qty tif type
  match x.admits o with
  | .error r => ({ c with x := x.countReject r }, 0)
  | .ok () =>
    let (id, orders) := x.orders.nextId
    let row := x.newRow id o
    -- the row goes in before the router is asked, and out again if it refuses
    let (orders, _) := orders.insert row
    match Router.submit c.router (x.newRequest id o) with
    | (router, false) =>
      ({ x := { x with orders := orders.erase id }.countReject .ringFull, router }, 0)
    | (router, true) =>
      ({ x := { x with
          orders
          account := x.account.reserve o.instrument side row.px qty
          rate := x.rate.charge o.instrument .add 0 o.nowNs
          st := { x.st with ordersNew := x.st.ordersNew + 1 } }
         router }, id)

/-- `replace`. -/
def replace (id : UInt64) (px qty : ℤ) : StrategyContext ρ × Bool :=
  let x := c.x
  match x.orders.find id with
  | none => ({ c with x := x.countReject .unknownOrder }, false)
  | some row =>
    -- one request at a time for each order
    if row.pendingCancel || row.pendingReplace then
      ({ c with x := x.countReject .unknownOrder }, false)
    else
      match x.admitsReplace row px qty with
      | .error r => ({ c with x := x.countReject r }, false)
      | .ok () =>
        match Router.submit c.router (x.rowRequest row .replace px qty) with
        | (router, false) => ({ x := x.countReject .ringFull, router }, false)
        | (router, true) =>
          ({ x := { x with
              orders := x.orders.modify id (setPendingReplace px qty)
              rate := x.rate.charge row.instrument .amend (RiskGate.orderAge row x.nowNs) x.nowNs
              st := { x.st with ordersReplace := x.st.ordersReplace + 1 } }
             router }, true)

/-- `cancel`: never risk-rejected. -/
def cancel (id : UInt64) : StrategyContext ρ × Bool :=
  let x := c.x
  match x.orders.find id with
  | none => (c, false)
  | some row =>
    -- asked for already
    if row.pendingCancel then (c, true)
    else
      match Router.submit c.router (x.rowRequest row .cancel row.px row.leaves) with
      | (router, false) => ({ x := x.countReject .ringFull, router }, false)
      | (router, true) =>
        ({ x := { x with
            orders := x.orders.modify id setPendingCancel
            rate := x.rate.charge row.instrument .cancel (RiskGate.orderAge row x.nowNs) x.nowNs
            st := { x.st with ordersCancel := x.st.ordersCancel + 1 } }
           router }, true)

/-- `cancel_all`. No cancel adds or removes a row, so the number of rounds is fixed. -/
def cancelAll : StrategyContext ρ :=
  (List.range c.x.orders.size).foldl (fun c i => (c.cancel (c.x.orders.row i).id).1) c

end StrategyContext

/-- A strategy's call, with its arguments. -/
inductive Call
  | submit (side : Side) (px qty : ℤ) (tif : Tif) (type : OrdType)
  | replace (id : UInt64) (px qty : ℤ)
  | cancel (id : UInt64)
  | cancelAll
  deriving DecidableEq

/-- Prices and quantities are 64-bit. -/
def Call.Typed : Call → Prop
  | .submit _ px qty _ _ | .replace _ px qty => Fits 64 px ∧ Fits 64 qty
  | .cancel _ | .cancelAll => True

instance (a : Call) : Decidable a.Typed := by
  cases a <;> unfold Call.Typed <;> infer_instance

/-- Make a call. -/
def StrategyContext.call {ρ : Type u} [Router ρ] (c : StrategyContext ρ) : Call →
    StrategyContext ρ
  | .submit side px qty tif type => (c.submit side px qty tif type).1
  | .replace id px qty => (c.replace id px qty).1
  | .cancel id => (c.cancel id).1
  | .cancelAll => c.cancelAll

/-! ### What a call does -/

theorem admits_ok {x : ExecContext} {o : OrderCheck} (h : x.admits o = .ok ()) :
    x.risk.NewOk o x.account x.orders ∧ x.orders.full = false := by
  rw [ExecContext.admits, check_bind_eq_ok, rejectIf_eq_ok] at h
  exact ⟨RiskGate.checkNew_ok h.1, by simpa using h.2⟩

theorem admitsReplace_ok {x : ExecContext} {row : OrderRow} {px qty : ℤ}
    (h : x.admitsReplace row px qty = .ok ()) :
    x.risk.ReplaceOk row px qty x.account x.orders := RiskGate.checkReplace_ok h

namespace StrategyContext

variable {ρ : Type u} [Router ρ] {c : StrategyContext ρ}

/-- The table after the insertion and erasure of a row has no other rows than before. -/
theorem rows_insert_erase_le (t : OrderTable) (row : OrderRow) :
    ((t.insert row).1.erase row.id).rows ≤ t.rows := by
  by_cases h : t.Refuses row
  · rw [OrderTable.insert_of_refuses h]
    rcases t.raw.live_or_absent row.id with ⟨r, hr, hid⟩ | habs
    · obtain ⟨rest, hrest⟩ := Multiset.exists_cons_of_mem (show r ∈ t.rows from hr)
      rw [← hid, OrderTable.erase_rows hrest, hrest]
      exact Multiset.le_cons_self rest r
    · rw [OrderTable.erase_of_absent habs]
  · rw [OrderTable.erase_rows (OrderTable.insert_of_not_refuses h).2.1]

/-- **What a submit does**: it is refused by the gate or by the router, or it inserts the new row
(unless its id is taken) and reserves the order's funds. -/
inductive SubmitEffect (c : StrategyContext ρ) (o : OrderCheck) : StrategyContext ρ → Prop
  | refused (r : RejectReason) : SubmitEffect c o { c with x := c.x.countReject r }
  | unsent (orders : OrderTable) (router : ρ) :
      Router.submit c.router (c.x.newRequest c.x.orders.nextId.1 o) = (router, false) →
      orders = (c.x.orders.nextId.2.insert (c.x.newRow c.x.orders.nextId.1 o)).1.erase
        c.x.orders.nextId.1 →
      SubmitEffect c o ⟨{ c.x with orders }.countReject .ringFull, router⟩
  | sent (orders : OrderTable) (rate : RateModel) (router : ρ) :
      c.x.admits o = .ok () →
      Router.submit c.router (c.x.newRequest c.x.orders.nextId.1 o) = (router, true) →
      orders = (c.x.orders.nextId.2.insert (c.x.newRow c.x.orders.nextId.1 o)).1 →
      SubmitEffect c o ⟨{ c.x with
        orders, rate
        account := c.x.account.reserve o.instrument o.side
          (c.x.newRow c.x.orders.nextId.1 o).px o.qty
        st := { c.x.st with ordersNew := c.x.st.ordersNew + 1 } }, router⟩

theorem submit_effect (c : StrategyContext ρ) (side : Side) (px qty : ℤ) (tif : Tif)
    (type : OrdType) :
    SubmitEffect c (c.x.orderCheck side px qty tif type) (c.submit side px qty tif type).1 := by
  unfold submit
  dsimp only
  cases hadmits : c.x.admits (c.x.orderCheck side px qty tif type) with
  | error r => exact .refused r
  | ok u =>
    dsimp only
    rcases hrouter : Router.submit c.router (c.x.newRequest c.x.orders.nextId.1
      (c.x.orderCheck side px qty tif type)) with ⟨router, ok⟩
    cases ok with
    | false => exact .unsent _ router hrouter rfl
    | true => exact .sent _ _ router hadmits hrouter rfl

/-- **What a replace does**: it is refused, or notes the amend in the row. -/
inductive ReplaceEffect (c : StrategyContext ρ) (id : UInt64) (px qty : ℤ) :
    StrategyContext ρ × Bool → Prop
  | refused (r : RejectReason) :
    ReplaceEffect c id px qty ({ c with x := c.x.countReject r }, false)
  | unsent (req : OrderRequest) (router : ρ) : Router.submit c.router req = (router, false) →
      ReplaceEffect c id px qty (⟨c.x.countReject .ringFull, router⟩, false)
  | sent (row : OrderRow) (rest : Multiset OrderRow) (orders : OrderTable) (rate : RateModel)
      (router : ρ) : row.id = id → c.x.orders.rows = row ::ₘ rest →
      row.pendingCancel = false → row.pendingReplace = false →
      c.x.admitsReplace row px qty = .ok () →
      Router.submit c.router (c.x.rowRequest row .replace px qty) = (router, true) →
      orders = c.x.orders.modify id (setPendingReplace px qty) →
      ReplaceEffect c id px qty (⟨{ c.x with
        orders, rate, st := { c.x.st with ordersReplace := c.x.st.ordersReplace + 1 } }, router⟩,
        true)

theorem replace_effect (c : StrategyContext ρ) (id : UInt64) (px qty : ℤ) :
    ReplaceEffect c id px qty (c.replace id px qty) := by
  unfold replace
  dsimp only
  cases hfind : c.x.orders.find id with
  | none => exact .refused _
  | some row =>
    obtain ⟨hid, rest, hrows⟩ := OrderTable.exists_rows_eq_cons hfind
    dsimp only
    split_ifs with hpending
    · exact .refused _
    · simp only [Bool.or_eq_true, not_or, Bool.not_eq_true] at hpending
      cases hadmits : c.x.admitsReplace row px qty with
      | error r => exact .refused r
      | ok u =>
        dsimp only
        rcases hrouter : Router.submit c.router (c.x.rowRequest row .replace px qty) with
          ⟨router, ok⟩
        cases ok with
        | false => exact .unsent _ router hrouter
        | true =>
          exact .sent row rest _ _ router hid hrows hpending.1 hpending.2 hadmits hrouter rfl

/-- **What a cancel does**: nothing for an unknown order or one being cancelled already; it is
refused by the router, or sets the row's pending bit. -/
inductive CancelEffect (c : StrategyContext ρ) (id : UInt64) : StrategyContext ρ → Prop
  | kept : (∀ row, c.x.orders.find id = some row → row.pendingCancel = true) →
      CancelEffect c id c
  | unsent (row : OrderRow) (router : ρ) : c.x.orders.find id = some row →
      row.pendingCancel = false →
      Router.submit c.router (c.x.rowRequest row .cancel row.px row.leaves) = (router, false) →
      CancelEffect c id ⟨c.x.countReject .ringFull, router⟩
  | sent (row : OrderRow) (rest : Multiset OrderRow) (orders : OrderTable) (rate : RateModel)
      (router : ρ) : row.id = id → c.x.orders.rows = row ::ₘ rest → row.pendingCancel = false →
      Router.submit c.router (c.x.rowRequest row .cancel row.px row.leaves) = (router, true) →
      orders = c.x.orders.modify id setPendingCancel →
      CancelEffect c id ⟨{ c.x with
        orders, rate, st := { c.x.st with ordersCancel := c.x.st.ordersCancel + 1 } }, router⟩

theorem cancel_effect (c : StrategyContext ρ) (id : UInt64) :
    CancelEffect c id (c.cancel id).1 := by
  unfold cancel
  dsimp only
  cases hfind : c.x.orders.find id with
  | none => exact .kept fun row hrow => nomatch hfind.symm.trans hrow
  | some row =>
    obtain ⟨hid, rest, hrows⟩ := OrderTable.exists_rows_eq_cons hfind
    dsimp only
    split_ifs with hpending
    · exact .kept fun row' hrow' => Option.some_injective _ (hfind.symm.trans hrow') ▸ hpending
    · rcases hrouter : Router.submit c.router (c.x.rowRequest row .cancel row.px row.leaves) with
        ⟨router, ok⟩
      cases ok with
      | false => exact .unsent row router hfind (by simpa using hpending) hrouter
      | true => exact .sent row rest _ _ router hid hrows (by simpa using hpending) hrouter rfl

/-! ### The same without the router -/

theorem submit_cases (c : StrategyContext ρ) (side : Side) (px qty : ℤ) (tif : Tif)
    (type : OrdType) :
    (∃ orders lastReject st,
      (c.submit side px qty tif type).1.x = { c.x with orders, lastReject, st } ∧
        orders.rows ≤ c.x.orders.rows) ∨
    ∃ o row, o = c.x.orderCheck side px qty tif type ∧ c.x.admits o = .ok () ∧
      row = c.x.newRow c.x.orders.nextId.1 o ∧ ∃ orders rate st,
        (c.submit side px qty tif type).1.x = { c.x with
          orders, rate, st
          account := c.x.account.reserve row.instrument row.side row.px row.leaves } ∧
        (orders.rows = row ::ₘ c.x.orders.rows ∨ orders.rows = c.x.orders.rows) := by
  have heffect := c.submit_effect side px qty tif type
  generalize (c.submit side px qty tif type).1 = c' at heffect ⊢
  cases heffect with
  | refused r => exact .inl ⟨c.x.orders, _, _, rfl, le_rfl⟩
  | unsent orders router hrouter horders =>
    refine .inl ⟨orders, _, _, rfl, ?_⟩
    rw [horders]
    exact rows_insert_erase_le c.x.orders.nextId.2 _
  | sent orders rate router hadmits hrouter horders =>
    refine .inr ⟨_, _, rfl, hadmits, rfl, orders, rate, _, rfl, ?_⟩
    rw [horders]
    by_cases h : c.x.orders.nextId.2.Refuses (c.x.newRow c.x.orders.nextId.1
      (c.x.orderCheck side px qty tif type))
    · exact .inr (by rw [OrderTable.insert_of_refuses h]; rfl)
    · exact .inl (OrderTable.insert_of_not_refuses h).2.1

theorem replace_cases (c : StrategyContext ρ) (id : UInt64) (px qty : ℤ) :
    ((c.replace id px qty).2 = false ∧ ∃ lastReject st,
      (c.replace id px qty).1.x = { c.x with lastReject, st }) ∨
    (c.replace id px qty).2 = true ∧ ∃ row rest, row.id = id ∧ c.x.orders.rows = row ::ₘ rest ∧
      row.pendingCancel = false ∧ row.pendingReplace = false ∧
      c.x.admitsReplace row px qty = .ok () ∧ ∃ orders rate st,
        (c.replace id px qty).1.x = { c.x with orders, rate, st } ∧
        orders.rows = (setPendingReplace px qty).run row ::ₘ rest := by
  have heffect := c.replace_effect id px qty
  generalize c.replace id px qty = c' at heffect ⊢
  cases heffect with
  | refused r => exact .inl ⟨rfl, _, _, rfl⟩
  | unsent req router hrouter => exact .inl ⟨rfl, _, _, rfl⟩
  | sent row rest orders rate router hid hrows hcancel hreplace hadmits hrouter horders =>
    subst hid
    exact .inr ⟨rfl, row, rest, rfl, hrows, hcancel, hreplace, hadmits, orders, rate, _, rfl,
      by rw [horders]; exact OrderTable.modify_rows hrows _⟩

theorem cancel_cases (c : StrategyContext ρ) (id : UInt64) :
    (∃ lastReject st, (c.cancel id).1.x = { c.x with lastReject, st }) ∨
    ∃ row rest, row.id = id ∧ c.x.orders.rows = row ::ₘ rest ∧ ∃ orders rate st,
      (c.cancel id).1.x = { c.x with orders, rate, st } ∧
      orders.rows = setPendingCancel.run row ::ₘ rest := by
  have heffect := c.cancel_effect id
  generalize (c.cancel id).1 = c' at heffect ⊢
  cases heffect with
  | kept => exact .inl ⟨c.x.lastReject, c.x.st, rfl⟩
  | unsent row router hfind hpending hrouter => exact .inl ⟨_, _, rfl⟩
  | sent row rest orders rate router hid hrows hcancel hrouter horders =>
    subst hid
    exact .inr ⟨row, rest, rfl, hrows, orders, rate, _, rfl,
      by rw [horders]; exact OrderTable.modify_rows hrows _⟩

/-- What every cancel keeps, `cancel_all` keeps. -/
theorem cancelAll_induction {P : StrategyContext ρ → Prop}
    (hcancel : ∀ c id, P c → P (c.cancel id).1) (h : P c) : P c.cancelAll := by
  unfold cancelAll
  induction List.range c.x.orders.size generalizing c with
  | nil => exact h
  | cons i ids ih => exact ih (hcancel c _ h)

/-! ### The rows after a call -/

/-- Every row after a submit was there before, or is the new one. -/
theorem mem_rows_submit {side : Side} {px qty : ℤ} {tif : Tif} {type : OrdType} {r : OrderRow}
    (hr : r ∈ (c.submit side px qty tif type).1.x.orders.rows) :
    r ∈ c.x.orders.rows ∨
      c.x.admits (c.x.orderCheck side px qty tif type) = .ok () ∧
        r = c.x.newRow c.x.orders.nextId.1 (c.x.orderCheck side px qty tif type) := by
  rcases c.submit_cases side px qty tif type with
    ⟨orders, lastReject, st, hx, hle⟩ |
    ⟨o, row, rfl, hadmits, rfl, orders, rate, st, hx, hrows | hrows⟩
  all_goals rw [hx] at hr
  · exact .inl (Multiset.mem_of_le hle hr)
  · rcases Multiset.mem_cons.1 (hrows ▸ hr) with rfl | hr
    · exact .inr ⟨hadmits, rfl⟩
    · exact .inl hr
  · exact .inl (hrows ▸ hr)

/-- Every row after a replace was there before, or is the one whose amend was sent. -/
theorem mem_rows_replace {id : UInt64} {px qty : ℤ} {r : OrderRow}
    (hr : r ∈ (c.replace id px qty).1.x.orders.rows) :
    r ∈ c.x.orders.rows ∨
      ∃ row ∈ c.x.orders.rows, c.x.admitsReplace row px qty = .ok () ∧
        r = (setPendingReplace px qty).run row := by
  rcases c.replace_cases id px qty with
    ⟨-, lastReject, st, hx⟩ |
    ⟨-, row, rest, -, hrows, -, -, hadmits, orders, rate, st, hx, hrows'⟩
  all_goals rw [hx] at hr
  · exact .inl hr
  · rcases Multiset.mem_cons.1 (hrows' ▸ hr) with rfl | hr
    · exact .inr ⟨row, OrderTable.mem_rows_of_cons hrows, hadmits, rfl⟩
    · exact .inl (hrows ▸ Multiset.mem_cons_of_mem hr)

/-- Every row after a cancel was there before, or is the one whose cancel was sent. -/
theorem mem_rows_cancel {id : UInt64} {r : OrderRow} (hr : r ∈ (c.cancel id).1.x.orders.rows) :
    r ∈ c.x.orders.rows ∨ ∃ row ∈ c.x.orders.rows, r = setPendingCancel.run row := by
  rcases c.cancel_cases id with
    ⟨lastReject, st, hx⟩ | ⟨row, rest, -, hrows, orders, rate, st, hx, hrows'⟩
  all_goals rw [hx] at hr
  · exact .inl hr
  · rcases Multiset.mem_cons.1 (hrows' ▸ hr) with rfl | hr
    · exact .inr ⟨row, OrderTable.mem_rows_of_cons hrows, rfl⟩
    · exact .inl (hrows ▸ Multiset.mem_cons_of_mem hr)

/-! ### The rate counters after a call -/

theorem wouldAllow_of_admits {x : ExecContext} {o : OrderCheck} (h : x.admits o = .ok ()) :
    x.rate.wouldAllow o.instrument .add 0 o.nowNs = true := by
  rw [ExecContext.admits, check_bind_eq_ok] at h
  have hgate := h.1
  simp only [RiskGate.checkNew, check_bind_eq_ok, rejectIf_eq_ok, not_not] at hgate
  obtain ⟨-, -, -, -, -, -, -, -, -, -, -, -, -, -, -, hrate⟩ := hgate
  exact hrate

theorem wouldAllow_of_admitsReplace {x : ExecContext} {row : OrderRow} {px qty : ℤ}
    (h : x.admitsReplace row px qty = .ok ()) :
    x.rate.wouldAllow row.instrument .amend (RiskGate.orderAge row x.nowNs) x.nowNs = true := by
  rw [ExecContext.admitsReplace] at h
  simp only [RiskGate.checkReplace, check_bind_eq_ok, rejectIf_eq_ok, not_not] at h
  obtain ⟨-, -, -, -, -, -, -, -, -, -, hrate⟩ := h
  exact hrate

/-- The counters went through requests made at the context's clock reading. -/
def RateRuns (x x' : ExecContext) : Prop :=
  ∃ rs, x.rate.run rs = some x'.rate ∧ ∀ r ∈ rs, r.nowNs = x.nowNs

theorem RateRuns.refl {x x' : ExecContext} (hrate : x'.rate = x.rate) : RateRuns x x' :=
  ⟨[], by rw [hrate]; rfl, by simp⟩

theorem RateRuns.single {x x' : ExecContext} (r : RateRequest) (hr : r.nowNs = x.nowNs)
    (hreq : x.rate.request r = some x'.rate) : RateRuns x x' :=
  ⟨[r], by simpa [RateModel.run] using hreq, by simpa using hr⟩

theorem RateRuns.trans {x y z : ExecContext} (hxy : RateRuns x y) (hnow : y.nowNs = x.nowNs)
    (hyz : RateRuns y z) : RateRuns x z := by
  obtain ⟨rs, hrs, hnows⟩ := hxy
  obtain ⟨rs', hrs', hnows'⟩ := hyz
  refine ⟨rs ++ rs', ?_, fun r hr => ?_⟩
  · rw [RateModel.run_append, hrs]
    exact hrs'
  · rcases List.mem_append.1 hr with hr | hr
    · exact hnows r hr
    · rw [hnows' r hr, hnow]

theorem submit_rate (c : StrategyContext ρ) (side : Side) (px qty : ℤ) (tif : Tif)
    (type : OrdType) : RateRuns c.x (c.submit side px qty tif type).1.x := by
  unfold submit
  dsimp only
  cases hadmits : c.x.admits (c.x.orderCheck side px qty tif type) with
  | error r => exact .refl rfl
  | ok u =>
    dsimp only
    rcases Router.submit c.router (c.x.newRequest c.x.orders.nextId.1
      (c.x.orderCheck side px qty tif type)) with ⟨router, ok⟩
    cases ok with
    | false => exact .refl rfl
    | true =>
      exact .single ⟨_, .add, 0, _⟩ rfl
        (RateModel.request_of_wouldAllow (wouldAllow_of_admits hadmits))

theorem replace_rate (c : StrategyContext ρ) (id : UInt64) (px qty : ℤ) :
    RateRuns c.x (c.replace id px qty).1.x := by
  unfold replace
  dsimp only
  cases c.x.orders.find id with
  | none => exact .refl rfl
  | some row =>
    dsimp only
    split_ifs with hpending
    · exact .refl rfl
    · cases hadmits : c.x.admitsReplace row px qty with
      | error r => exact .refl rfl
      | ok u =>
        dsimp only
        rcases Router.submit c.router (c.x.rowRequest row .replace px qty) with ⟨router, ok⟩
        cases ok with
        | false => exact .refl rfl
        | true =>
          exact .single ⟨_, .amend, _, _⟩ rfl
            (RateModel.request_of_wouldAllow (wouldAllow_of_admitsReplace hadmits))

theorem cancel_rate (c : StrategyContext ρ) (id : UInt64) :
    RateRuns c.x (c.cancel id).1.x := by
  unfold cancel
  dsimp only
  cases c.x.orders.find id with
  | none => exact .refl rfl
  | some row =>
    dsimp only
    split_ifs with hpending
    · exact .refl rfl
    · rcases Router.submit c.router (c.x.rowRequest row .cancel row.px row.leaves) with
        ⟨router, ok⟩
      cases ok with
      | false => exact .refl rfl
      | true =>
        exact .single ⟨_, .cancel, _, _⟩ rfl (RateModel.request_of_cancel rfl)

/-- No cancel moves the clock. -/
theorem cancel_nowNs (c : StrategyContext ρ) (id : UInt64) :
    (c.cancel id).1.x.nowNs = c.x.nowNs := by
  rcases c.cancel_cases id with
    ⟨lastReject, st, hx⟩ | ⟨row, rest, -, -, orders, rate, st, hx, -⟩
  all_goals rw [hx]; rfl

/-- **The rate model of a run is a run of the rate model**: every call sends its requests through
`would_allow` and charges them at the clock reading of the call. -/
theorem call_rate (c : StrategyContext ρ) (a : Call) : RateRuns c.x (c.call a).x := by
  cases a with
  | submit side px qty tif type => exact c.submit_rate side px qty tif type
  | replace id px qty => exact c.replace_rate id px qty
  | cancel id => exact c.cancel_rate id
  | cancelAll =>
    have hall := cancelAll_induction (c := c)
      (P := fun d => d.x.nowNs = c.x.nowNs ∧ RateRuns c.x d.x)
      (fun d id h => ⟨(d.cancel_nowNs id).trans h.1, h.2.trans h.1 (d.cancel_rate id)⟩)
      ⟨rfl, .refl rfl⟩
    exact hall.2

/-! ### The router after a call -/

/-- The router went through submits. -/
def RouterRuns (n n' : ρ) : Prop :=
  ∃ reqs : List OrderRequest, n' = reqs.foldl (fun n req => (Router.submit n req).1) n

theorem RouterRuns.refl (n : ρ) : RouterRuns n n := ⟨[], rfl⟩

theorem RouterRuns.single {n n' : ρ} {req : OrderRequest} {ok : Bool}
    (h : Router.submit n req = (n', ok)) : RouterRuns n n' := ⟨[req], by simp [h]⟩

theorem RouterRuns.trans {n n' n'' : ρ} (h : RouterRuns n n') (h' : RouterRuns n' n'') :
    RouterRuns n n'' := by
  obtain ⟨reqs, rfl⟩ := h
  obtain ⟨reqs', rfl⟩ := h'
  exact ⟨reqs ++ reqs', by rw [List.foldl_append]⟩

theorem cancel_router (c : StrategyContext ρ) (id : UInt64) :
    RouterRuns c.router (c.cancel id).1.router := by
  have heffect := c.cancel_effect id
  generalize (c.cancel id).1 = c' at heffect ⊢
  cases heffect with
  | kept => exact .refl _
  | unsent row router _ _ hrouter => exact .single hrouter
  | sent row rest orders rate router _ _ _ hrouter => exact .single hrouter

/-- **A call reaches the router as submits only.** -/
theorem call_router (c : StrategyContext ρ) (a : Call) :
    RouterRuns c.router (c.call a).router := by
  cases a with
  | submit side px qty tif type =>
    change RouterRuns c.router (c.submit side px qty tif type).1.router
    have heffect := c.submit_effect side px qty tif type
    generalize (c.submit side px qty tif type).1 = c' at heffect ⊢
    cases heffect with
    | refused r => exact .refl _
    | unsent orders router hrouter => exact .single hrouter
    | sent orders rate router _ hrouter => exact .single hrouter
  | replace id px qty =>
    change RouterRuns c.router (c.replace id px qty).1.router
    have heffect := c.replace_effect id px qty
    generalize c.replace id px qty = c' at heffect ⊢
    cases heffect with
    | refused r => exact .refl _
    | unsent req router hrouter => exact .single hrouter
    | sent row rest orders rate router _ _ _ _ _ hrouter => exact .single hrouter
  | cancel id => exact c.cancel_router id
  | cancelAll =>
    exact cancelAll_induction (P := fun d => RouterRuns c.router d.router)
      (fun d id h => h.trans (d.cancel_router id)) (.refl _)

end StrategyContext

end Exec

end LowLatencyPipeline
