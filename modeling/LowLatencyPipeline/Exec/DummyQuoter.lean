import LowLatencyPipeline.Exec.Hosted

/-!
# The built-in quoter

`DummyQuoter` of `exec/strategies/dummy_quoter.hpp`, without its heartbeat line. It rests one lot
on each side at the touch and amends it when the touch moves; a side stops once the position
reaches the cap.

The cap is not a bound of the position: the order that rests when the position is just under the
cap may still fill. `quoter_bounded` is what holds instead, whatever the router does and however
the fills, confirmations and cancels of the venue are delayed. It rests on the order ids of the
two sides: a side asks for a new order only once it has seen the last one go.
-/

namespace LowLatencyPipeline

namespace Exec

universe u

/-- `DummyQuoter`. -/
structure DummyQuoter where
  bid : UInt64 := 0
  ask : UInt64 := 0
  ticks : UInt64 := 0

namespace DummyQuoter

def LOT : ℤ := 100

def POS_CAP : ℤ := 1000

section Source

variable {ρ : Type u} [Router ρ]

/-- `quote`, with the id that the side goes on with. -/
def quote (c : StrategyContext ρ) (id : UInt64) (side : Side) (px : ℤ) (want : Bool) :
    StrategyContext ρ × UInt64 :=
  let o := c.x.orders.find id
  if !want then
    if o.isSome then ((c.cancel id).1, id) else (c, id)
  else
    match o with
    | none => c.submit side px LOT .gtc .limit
    | some o =>
      if o.px ≠ px ∧ !o.pendingCancel ∧ !o.pendingReplace then ((c.replace id px o.qty).1, id)
      else (c, id)

/-- `on_tick`. -/
def onTick (q : DummyQuoter) (c : StrategyContext ρ) : StrategyContext ρ × DummyQuoter :=
  let m := c.x.view
  let q := { q with ticks := q.ticks + 1 }
  if !m.twoSided then (c, q)
  else
    let inv := (c.x.account.position m.instrument).qty
    let (c, bid) := quote c q.bid .buy m.bestBid (inv < POS_CAP)
    let (c, ask) := quote c q.ask .sell m.bestAsk (-POS_CAP < inv)
    (c, { q with bid, ask })

end Source

/-! ### The invariant -/

/-- **The invariant**, over the ids that the two sides go on with: every live order is its
side's, and none takes the position a lot beyond the cap. -/
structure Quotes (x : ExecContext) (slot : Side → UInt64) : Prop where
  id : ∀ r ∈ x.orders.rows, r.id = slot r.side
  capped : Capped LOT POS_CAP x

/-- The ids of the two sides. -/
def slot (q : DummyQuoter) : Side → UInt64
  | .buy => q.bid
  | .sell => q.ask

theorem slot_mk (q : DummyQuoter) (bid ask ticks : UInt64) : DummyQuoter.slot ⟨bid, ask, ticks⟩ =
    Function.update (Function.update q.slot .buy bid) .sell ask := by
  funext side
  cases side <;> rfl

section Tick

variable {ρ : Type u} [Router ρ] {c : StrategyContext ρ} {slot : Side → UInt64}

omit [Router ρ] in
/-- A side whose order is gone has no live order. -/
theorem Quotes.side_ne (h : Quotes c.x slot) {side : Side}
    (hfind : c.x.orders.find (slot side) = none) : ∀ r ∈ c.x.orders.rows, r.side ≠ side :=
  fun r hr hside => OrderTable.find_eq_none.1 hfind r hr (hside ▸ h.id r hr)

/-- A side whose order is gone asks for one while its position is under the cap. -/
theorem Quotes.submit (h : Quotes c.x slot) {side : Side}
    (hfind : c.x.orders.find (slot side) = none)
    (hheld : c.x.held side c.x.view.instrument < POS_CAP) (px : ℤ) :
    Quotes (c.submit side px LOT .gtc .limit).1.x
      (Function.update slot side (c.submit side px LOT .gtc .limit).2) := by
  have hrest (r : OrderRow) (hr : r ∈ c.x.orders.rows) (id : UInt64) :
      r.id = Function.update slot side id r.side := by
    rw [Function.update_of_ne (h.side_ne hfind r hr), h.id r hr]
  refine ⟨fun r hr => ?_, h.capped.submit (h.side_ne hfind) hheld px .gtc .limit⟩
  rcases c.rows_submit side px LOT .gtc .limit with hle | ⟨hid, hrows⟩
  · exact hrest r (Multiset.mem_of_le hle hr) _
  · rw [hrows] at hr
    rcases Multiset.mem_cons.1 hr with rfl | hr
    · exact hid.symm.trans (Function.update_self side _ slot).symm
    · exact hrest r hr _

omit [Router ρ] in
/-- An amend or a cancel keeps the ids. -/
theorem Quotes.of_call (h : Quotes c.x slot) {c' : StrategyContext ρ}
    (hcapped : Capped LOT POS_CAP c'.x)
    (hrows : ∀ r ∈ c'.x.orders.rows, ∃ r' ∈ c.x.orders.rows, r.id = r'.id ∧ r.side = r'.side) :
    Quotes c'.x slot := by
  refine ⟨fun r hr => ?_, hcapped⟩
  obtain ⟨r', hr', hid, hside⟩ := hrows r hr
  rw [hid, hside, h.id r' hr']

theorem Quotes.cancel (h : Quotes c.x slot) (id : UInt64) : Quotes (c.cancel id).1.x slot := by
  refine h.of_call (h.capped.cancel id) fun r hr => ?_
  rcases StrategyContext.mem_rows_cancel hr with hr | ⟨row, hmem, rfl⟩
  · exact ⟨r, hr, rfl, rfl⟩
  · exact ⟨row, hmem, rfl, rfl⟩

theorem Quotes.replace (h : Quotes c.x slot) (id : UInt64) (px : ℤ) {qty : ℤ}
    (hqty : 0 ≤ qty ∧ qty ≤ LOT) : Quotes (c.replace id px qty).1.x slot := by
  refine h.of_call (h.capped.replace id px hqty) fun r hr => ?_
  rcases StrategyContext.mem_rows_replace hr with hr | ⟨row, hmem, -, rfl⟩
  · exact ⟨r, hr, rfl, rfl⟩
  · exact ⟨row, hmem, rfl, rfl⟩

/-- **One side's quote keeps the invariant**, with the id it returns. -/
theorem Quotes.quote (h : Quotes c.x slot) (side : Side) (px : ℤ) (want : Bool)
    (hwant : want = true → c.x.held side c.x.view.instrument < POS_CAP) :
    Quotes (quote c (slot side) side px want).1.x
      (Function.update slot side (quote c (slot side) side px want).2) := by
  have hsame : Function.update slot side (slot side) = slot := Function.update_eq_self side slot
  unfold DummyQuoter.quote
  dsimp only
  split_ifs with hstop hlive
  · exact hsame.symm ▸ h.cancel _
  · exact hsame.symm ▸ h
  · simp only [Bool.not_eq_true', Bool.not_eq_false] at hstop
    cases hfind : c.x.orders.find (slot side) with
    | none => exact h.submit hfind (hwant hstop) px
    | some o =>
      have hqty := (h.capped.row o (OrderTable.find_eq_some.1 hfind).1).qty
      dsimp only
      split_ifs
      · exact hsame.symm ▸ h.replace _ px hqty
      · exact hsame.symm ▸ h

theorem sameMarket_quote (c : StrategyContext ρ) (id : UInt64) (side : Side) (px : ℤ)
    (want : Bool) : SameMarket c.x (quote c id side px want).1.x := by
  unfold quote
  dsimp only
  split_ifs
  · exact c.sameMarket_cancel id
  · exact .refl c.x
  · cases c.x.orders.find id with
    | none => exact c.sameMarket_submit side px LOT .gtc .limit
    | some o =>
      dsimp only
      split_ifs
      · exact c.sameMarket_replace id px o.qty
      · exact .refl c.x

/-- **A tick keeps the invariant.** -/
theorem Quotes.onTick {q : DummyQuoter} (h : Quotes c.x q.slot) :
    Quotes (q.onTick c).1.x (q.onTick c).2.slot := by
  unfold DummyQuoter.onTick
  dsimp only
  split_ifs
  · exact h
  · -- the sell side sees the frame and the position that the buy side saw
    have hbid := h.quote .buy c.x.view.bestBid
      ((c.x.account.position c.x.view.instrument).qty < POS_CAP) of_decide_eq_true
    have hmarket := sameMarket_quote c (q.slot .buy) .buy c.x.view.bestBid
      ((c.x.account.position c.x.view.instrument).qty < POS_CAP)
    have hask := hbid.quote .sell c.x.view.bestAsk
      (-POS_CAP < (c.x.account.position c.x.view.instrument).qty) fun hwant => by
        rw [hmarket.held, hmarket.view]
        exact neg_lt.1 (of_decide_eq_true hwant)
    exact (congrArg (Quotes _) (slot_mk q _ _ _)).mpr hask

end Tick

/-! ### Runs -/

section Runs

variable {ρ : Type u} [Router ρ] {s t : Hosted ρ DummyQuoter}

/-- A report keeps the ids. -/
theorem Quotes.report {x : ExecContext} {slot : Side → UInt64} (h : Quotes x slot)
    {rep : ExecReport} (hopen : x.FillsOpen rep) : Quotes (x.applyReport rep) slot := by
  refine ⟨fun r hr => ?_, h.capped.report hopen⟩
  rcases mem_rows_applyReport hr with ⟨hr, -⟩ | ⟨row, hfind, hafter⟩
  · exact h.id r hr
  · rw [id_rowAfter hafter, (onSide_rowAfter hafter).1,
      h.id row (OrderTable.find_eq_some.1 hfind).1]

/-- **The step lemma.** -/
theorem Quotes.step (h : Quotes s.x s.strategy.slot) {a : HostedStep ρ}
    (ht : s.step DummyQuoter.onTick a = some t) : Quotes t.x t.strategy.slot := by
  cases a with
  | clock | control | venue =>
    obtain rfl := Option.some_injective _ ht
    exact ⟨h.id, h.capped.of_subset (fun _ _ => rfl) fun _ hr => hr⟩
  | frame u =>
    obtain rfl := Option.some_injective _ ht
    have hframe : Quotes (s.x.onFrame u) s.strategy.slot :=
      ⟨h.id, h.capped.of_subset (held_onFrame s.x u) fun _ hr => hr⟩
    exact Quotes.onTick (c := { s.toStrategyContext with x := s.x.onFrame u }) hframe
  | report rep =>
    simp only [Hosted.step, Option.ite_none_right_eq_some, Option.some.injEq] at ht
    obtain ⟨hopen, rfl⟩ := ht
    exact h.report hopen

/-- **The run lemma.** -/
theorem quotes_of_reachable (hs : (hosted onTick (Hosted.Flat {})).Reachable s) :
    Quotes s.x s.strategy.slot := by
  refine hs.invariant (P := fun s => Quotes s.x s.strategy.slot) (fun s hflat => ⟨?_, ?_⟩)
    fun s a t _ _ ht h => h.step ht
  · rw [hflat.rows]
    exact fun r hr => absurd hr (Multiset.notMem_zero r)
  · exact Capped.of_flat (by decide) hflat.rows hflat.position

/-- **The quoter's orders and positions are bounded**: at any time each side has at most one live
order, no order is of more than a lot, fills counted, and the position of every instrument, even
with all that is open filled, is less than a lot beyond the cap. -/
theorem quoter_bounded (hs : (hosted onTick (Hosted.Flat {})).Reachable s) :
    (∀ side, s.x.orders.rows.countP (fun r => r.side = side) ≤ 1) ∧
      (∀ r ∈ s.x.orders.rows, 0 ≤ r.cum ∧ r.cum + r.leaves ≤ LOT) ∧
      (∀ j, |(s.x.account.position j).qty| < POS_CAP + LOT) ∧
      ∀ r ∈ s.x.orders.rows, s.x.held r.side r.instrument + r.leaves < POS_CAP + LOT := by
  have h := (quotes_of_reachable hs).capped
  exact ⟨h.countP_side_le, fun r hr => ⟨(h.row r hr).cum.1, (h.row r hr).total⟩, h.abs_position,
    fun r hr => h.held_add_leaves_lt hr⟩

end Runs

/-- The quoter with the null router and no limit of the gate's own. -/
def demo : Hosted NullRouter DummyQuoter :=
  ⟨(demoEngine { spotOnly := false }).toStrategyContext, {}⟩

/-- A frame with both sides at these prices. -/
def touch (bid ask : ℤ) : MarketUpdate :=
  { MarketUpdate.zero with nb := 1, na := 1, bestBid := bid, bestAsk := ask }

/-- Both sides are quoted, the bid is filled in part, and the ask follows the touch. -/
def quotedRun : List (HostedStep NullRouter) :=
  [.frame (touch 100 102), .report { clOrdId := 1, execType := .ack },
    .report { clOrdId := 1, execType := .partialFill, lastPx := 100, lastQty := 40 },
    .frame (touch 100 101), .report { clOrdId := 2, execType := .replaced }]

theorem quoter_bounded_quoted : ∃ s : Hosted NullRouter DummyQuoter,
    (hosted onTick (Hosted.Flat {})).exec demo quotedRun = some s ∧ s.x.orders.size = 2 ∧
      (s.x.account.position 0).qty = 40 ∧
      ∀ r ∈ s.x.orders.rows, s.x.held r.side r.instrument + r.leaves < POS_CAP + LOT := by
  have hrun : ((hosted onTick (Hosted.Flat {})).exec demo quotedRun).map
      (fun s => (s.x.orders.size, (s.x.account.position 0).qty)) = some (2, 40) := by
    decide +kernel
  obtain ⟨s, hs, hend⟩ := Option.map_eq_some_iff.mp hrun
  rw [Prod.mk.injEq] at hend
  have hreach := Machine.Reachable.exec (.init (M := hosted onTick (Hosted.Flat {}))
    ⟨rfl, fun _ => rfl, rfl⟩) quotedRun hs
  exact ⟨s, hs, hend.1, hend.2, (quoter_bounded hreach).2.2.2⟩

end DummyQuoter

end Exec

end LowLatencyPipeline
