import LowLatencyPipeline.Exec.Strategy
import LowLatencyPipeline.Library.Machine
import LowLatencyPipeline.Library.SumIf

/-!
# Exec as a machine

`engine` runs exec against any router, any strategy and any venue: its labels are the frames,
the control flags, the clock, the strategy's calls and the venue's reports, in any order. Two
promises about the venue are part of the machine, as conditions on its reports: a fill is of
at least 0 and at most the order's open lots, and a `Replaced` answers an amend that exec has
sent. For the second one the state carries `inFlight`, the ids of the amends sent and not yet
answered; no code looks at it.
-/

namespace LowLatencyPipeline

namespace Exec

universe u

/-- Exec with its router and the amends in flight. -/
structure Engine (ρ : Type u) extends StrategyContext ρ where
  inFlight : List UInt64

/-- What happens next. -/
inductive EngineStep (ρ : Type u)
  | clock (tsc : UInt64) (wallNs : ℤ)
  | control (flags : UInt32)
  | frame (u : MarketUpdate)
  /-- the router's state changes outside of exec's requests -/
  | venue (router : ρ)
  | call (a : Call)
  /-- a report; a `CancelReject` may be the answer to an amend -/
  | report (rep : ExecReport) (answersReplace : Bool)

/-- The open lots of an order, 0 for an unknown one. -/
def ExecContext.leavesOf (x : ExecContext) (id : UInt64) : ℤ :=
  match x.orders.find id with
  | some row => row.leaves
  | none => 0

namespace Engine

variable {ρ : Type u}

/-- The venue's promises, and that its numbers are 64-bit. -/
structure Reports (s : Engine ρ) (rep : ExecReport) : Prop where
  typed : Fits 64 rep.lastPx ∧ Fits 64 rep.lastQty ∧ Fits 64 rep.fee
  fill : rep.IsFill → 0 ≤ rep.lastQty ∧
    (s.x.orders.find rep.clOrdId ≠ none → rep.lastQty ≤ s.x.leavesOf rep.clOrdId)
  replaced : rep.execType = .replaced → rep.clOrdId ∈ s.inFlight

instance (s : Engine ρ) (rep : ExecReport) : Decidable (s.Reports rep) :=
  decidable_of_iff ((Fits 64 rep.lastPx ∧ Fits 64 rep.lastQty ∧ Fits 64 rep.fee) ∧
    (rep.IsFill → 0 ≤ rep.lastQty ∧
      (s.x.orders.find rep.clOrdId ≠ none → rep.lastQty ≤ s.x.leavesOf rep.clOrdId)) ∧
    (rep.execType = .replaced → rep.clOrdId ∈ s.inFlight))
    ⟨fun h => ⟨h.1, h.2.1, h.2.2⟩, fun h => ⟨h.typed, h.fill, h.replaced⟩⟩

variable [Router ρ]

/-- A call, with the amends in flight kept up to date. -/
def makeCall (s : Engine ρ) (a : Call) : Engine ρ where
  toStrategyContext := s.toStrategyContext.call a
  inFlight :=
    match a with
    | .replace id px qty =>
      if (s.toStrategyContext.replace id px qty).2 then id :: s.inFlight else s.inFlight
    | _ => s.inFlight

/-- The delivery of a report. -/
def deliver (s : Engine ρ) (rep : ExecReport) (answersReplace : Bool) : Engine ρ where
  x := s.x.applyReport rep
  router := s.router
  inFlight :=
    if rep.execType = .replaced ∨ rep.execType = .cancelReject ∧ answersReplace then
      s.inFlight.erase rep.clOrdId
    else s.inFlight

/-- One step. -/
def step (s : Engine ρ) : EngineStep ρ → Option (Engine ρ)
  | .clock tsc wallNs => some { s with x := { s.x with tsc, wallNs } }
  | .control flags => some { s with x := { s.x with controlFlags := flags } }
  | .frame u => some { s with x := s.x.onFrame u }
  | .venue router => some { s with router }
  | .call a => if a.Typed then some (s.makeCall a) else none
  | .report rep answersReplace =>
    if s.Reports rep then some (s.deliver rep answersReplace) else none

theorem step_call {s : Engine ρ} {a : Call} (h : a.Typed) :
    s.step (.call a) = some (s.makeCall a) :=
  if_pos h

theorem step_report {s : Engine ρ} {rep : ExecReport} (h : s.Reports rep) (answersReplace : Bool) :
    s.step (.report rep answersReplace) = some (s.deliver rep answersReplace) := if_pos h

omit [Router ρ] in
/-- A report takes no other order's amend out of those in flight. -/
theorem mem_deliver_inFlight (s : Engine ρ) (rep : ExecReport) (answersReplace : Bool) {i : UInt64}
    (hi : i ≠ rep.clOrdId) : i ∈ (s.deliver rep answersReplace).inFlight ↔ i ∈ s.inFlight := by
  change i ∈ ite _ _ _ ↔ _
  split_ifs
  · exact List.mem_erase_of_ne hi
  · exact Iff.rfl

omit [Router ρ] in
theorem deliver_inFlight_subset (s : Engine ρ) (rep : ExecReport) (answersReplace : Bool) :
    (s.deliver rep answersReplace).inFlight ⊆ s.inFlight := by
  intro i
  change i ∈ ite _ _ _ → _
  split_ifs
  · exact List.mem_of_mem_erase
  · exact id

omit [Router ρ] in
/-- A fill of a live order is of lots that are open. -/
theorem Reports.lastQty_le {s : Engine ρ} {rep : ExecReport} (h : s.Reports rep) {row : OrderRow}
    (hfind : s.x.orders.find rep.clOrdId = some row) (hfill : rep.IsFill) :
    rep.lastQty ≤ row.leaves := by
  have hle := (h.fill hfill).2 (by rw [hfind]; simp)
  rwa [ExecContext.leavesOf, hfind] at hle

end Engine

/-- Exec in any environment, from the initial states `init`. -/
def engine {ρ : Type u} [Router ρ] (init : Engine ρ → Prop) :
    Machine (Engine ρ) (EngineStep ρ) where
  Init := init
  step := Engine.step

/-- Exec starts without orders and without amends in flight. -/
structure Engine.Fresh {ρ : Type u} (s : Engine ρ) : Prop where
  rows : s.x.orders.rows = 0
  inFlight : s.inFlight = []

/-- The row is of that side of that instrument. -/
abbrev OnSide (side : Side) (inst : UInt16) (r : OrderRow) : Prop :=
  r.side = side ∧ r.instrument = inst

theorem openLots_eq_sumIf (rows : Multiset OrderRow) (side : Side) (inst : UInt16) :
    openLots rows side inst = sumIf (OnSide side inst) OrderRow.leaves rows := rfl

/-- Exec with the null router and that context. -/
def demoEngine (lim : RiskLimits) : Engine NullRouter :=
  ⟨⟨demoContext lim, ⟨fun _ => { clOrdId := 0, execType := .ack }, 0, 0⟩⟩, []⟩

end Exec

end LowLatencyPipeline
