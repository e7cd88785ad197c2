import LowLatencyPipeline.Common.Event
import LowLatencyPipeline.Common.MarketData
import LowLatencyPipeline.Core.Depth

/-!
# The primary feed

`BookArray` and `PrimaryFeed`, `BookSnapshot` and `capture`, and `build_market_update`: from an
event to the book it touches, and from the book to the frame for exec. A snapshot and a frame are
filled in place: levels past `nb` and `na` stay as they were.
-/

namespace LowLatencyPipeline

namespace Core

/-- `DASH_DEPTH`. -/
def DASH_DEPTH : ℕ := 15

/-- `HALF`, half of the window. -/
def HALF : UInt32 := 1048576 / 2 * PRICE_TICK

/-- `BookArray`: the books by stock locate. -/
abbrev BookArray := UInt16 → Option OrderBook

namespace BookArray

variable (engine : BookArray) (locate : UInt16)

/-- `ensure`: the book, made now if there is none. -/
def ensure (stockId : UInt64) (basePrice : UInt32) : OrderBook :=
  (engine locate).getD (.init stockId basePrice)

/-- The array with a changed book. -/
def set (b : OrderBook) : BookArray := Function.update engine locate (some b)

end BookArray

/-- The handler that an event of this type calls on a book, and the trade it resolves. -/
def OrderBook.handle (b : OrderBook) (ev : Event) : Option (OrderBook × Trade) :=
  match ev.messageType with
  | 'A' | 'F' => (b.onAdd ev.orderRefNumber ev.side ev.price ev.shares).map (·, {})
  | 'E' => b.onExecute ev.orderRefNumber ev.shares
  | 'C' => b.onExecuteWithPrice ev.orderRefNumber ev.shares ev.price
  | 'X' => (b.onCancel ev.orderRefNumber ev.shares).map (·, {})
  | 'D' => (b.onDelete ev.orderRefNumber).map (·, {})
  | 'U' => (b.onReplace ev.orderRefNumber ev.newOrderRefNumber ev.price ev.shares).map (·, {})
  -- a hidden trade and an auction cross never touch the visible book
  | 'P' => some (b, ⟨ev.price, ev.shares, ev.side⟩)
  | 'Q' => some (b, ⟨ev.price, ev.shares, .buy⟩)
  | _ => some (b, {})

/-- `PrimaryFeed`. -/
structure PrimaryFeed where
  engine : BookArray := fun _ => none
  symbol : Symbol
  /-- events applied to a book -/
  count : ℕ := 0

/-- The event is an add, the only kind that carries the ticker. -/
def IsAdd (ev : Event) : Prop := ev.messageType = 'A' ∨ ev.messageType = 'F'

instance (ev : Event) : Decidable (IsAdd ev) := inferInstanceAs (Decidable (_ ∨ _))

namespace PrimaryFeed

variable (feed : PrimaryFeed) (ev : Event)

/-- The base price that the first add of a symbol gives its book. -/
def seed : UInt32 := if ev.price > HALF then ev.price - HALF else 0

/-- The book that an event is for, `none` where it is filtered out. -/
def bookFor : Option OrderBook :=
  if IsAdd ev then
    if ev.stock ≠ feed.symbol then none
    else some (feed.engine.ensure ev.stockLocate ev.stockLocate.toUInt64 (seed ev))
  else feed.engine ev.stockLocate

/-- `apply`: the book the event touched and the trade it produced, `none` inside where it was
filtered out. -/
def apply : Option (PrimaryFeed × Option (OrderBook × Trade)) :=
  match feed.bookFor ev with
  | none => some (feed, none)
  | some b =>
    match b.handle ev with
    | none => none
    | some (b, trade) =>
      some ({ feed with
        engine := feed.engine.set ev.stockLocate b, count := feed.count + 1 }, some (b, trade))

end PrimaryFeed

/-! ### Snapshots and frames -/

/-- `BookSnapshot`. -/
structure BookSnapshot where
  eventSeq : ℕ
  stockId : Symbol
  bestBid : UInt32
  bestAsk : UInt32
  nb : ℕ
  na : ℕ
  bids : ℕ → OrderBook.Level
  asks : ℕ → OrderBook.Level

/-- A snapshot in zero-initialised storage. -/
def BookSnapshot.zero : BookSnapshot where
  eventSeq := 0
  stockId := .replicate 8 0
  bestBid := 0
  bestAsk := 0
  nb := 0
  na := 0
  bids := fun _ => ⟨0, 0, 0⟩
  asks := fun _ => ⟨0, 0, 0⟩

/-- Write a list to the front of an array. -/
def writeFront {α : Type*} (out : ℕ → α) (xs : List α) (i : ℕ) : α := xs[i]?.getD (out i)

/-- `capture<DASH_DEPTH>`. -/
def capture (out : BookSnapshot) (b : OrderBook) (symbol : Symbol) (eventSeq : ℕ) :
    BookSnapshot where
  eventSeq := eventSeq
  stockId := symbol
  bestBid := b.bestBid
  bestAsk := b.bestAsk
  nb := (b.topBids DASH_DEPTH).length
  na := (b.topAsks DASH_DEPTH).length
  bids := writeFront out.bids (b.topBids DASH_DEPTH)
  asks := writeFront out.asks (b.topAsks DASH_DEPTH)

/-- A level of a snapshot as a level of a frame. -/
def OrderBook.Level.widen (l : OrderBook.Level) : LowLatencyPipeline.Level :=
  ⟨l.price.toNat, l.shares.toNat, l.orderCount⟩

/-- The flag of the first frame after dropped ones. -/
def resetFlag (pendingReset : Bool) : UInt8 := if pendingReset then FEED_RESET else 0

/-- `build_market_update`. -/
def buildMarketUpdate (mu : MarketUpdate) (ev : Event) (snap : BookSnapshot) (trade : Trade)
    (instrument : UInt16) (extraFlags : UInt8) : MarketUpdate :=
  let nb := min snap.nb EXEC_DEPTH
  let na := min snap.na EXEC_DEPTH
  let flags := LAST_IN_BATCH ||| extraFlags
  let flags := if 0 < nb ∧ 0 < na then flags ||| TWO_SIDED else flags
  { eventSeq := snap.eventSeq
    eventTime := ev.timestamp
    tscIn := ev.tscIn
    bestBid := if 0 < snap.nb then snap.bestBid.toNat else EMPTY_BID
    bestAsk := if 0 < snap.na then snap.bestAsk.toNat else EMPTY_ASK
    tradePrice := trade.price.toNat
    tradeQty := trade.shares.toNat
    instrument := instrument
    tradeSide := trade.side
    flags := if ev.messageType = 'Q' then flags ||| CROSS else flags
    nb := nb
    na := na
    bids := fun i => if i < nb then (snap.bids i).widen else mu.bids i
    asks := fun i => if i < na then (snap.asks i).widen else mu.asks i }

/-! ### What an event does -/

/-- The call that an event makes on a book, if any. -/
def bookOp (ev : Event) : Option BookOp :=
  match ev.messageType with
  | 'A' | 'F' => some (.add ev.orderRefNumber ev.side ev.price ev.shares)
  | 'E' => some (.execute ev.orderRefNumber ev.shares)
  | 'C' => some (.executeWithPrice ev.orderRefNumber ev.shares ev.price)
  | 'X' => some (.cancel ev.orderRefNumber ev.shares)
  | 'D' => some (.delete ev.orderRefNumber)
  | 'U' => some (.replace ev.orderRefNumber ev.newOrderRefNumber ev.price ev.shares)
  | _ => none

/-- `handle` calls the handler of `bookOp`. -/
theorem OrderBook.handle_fst (b : OrderBook) (ev : Event) :
    (b.handle ev).map Prod.fst = (bookOp ev).elim (some b) fun op => op.run b := by
  unfold OrderBook.handle bookOp
  split <;> simp_all [BookOp.run, Function.comp_def]

section Apply

variable {feed feed' : PrimaryFeed} {ev : Event} {out : Option (OrderBook × Trade)}

/-- **What `apply` can do.** -/
theorem apply_cases (h : feed.apply ev = some (feed', out)) :
    (feed.bookFor ev = none ∧ feed' = feed ∧ out = none) ∨
      ∃ b b' trade, feed.bookFor ev = some b ∧ b.handle ev = some (b', trade) ∧
        feed' = { feed with
          engine := feed.engine.set ev.stockLocate b', count := feed.count + 1 } ∧
        out = some (b', trade) := by
  unfold PrimaryFeed.apply at h
  cases hbook : feed.bookFor ev with
  | none =>
    rw [hbook] at h
    obtain ⟨rfl, rfl⟩ := Prod.mk.inj (Option.some.inj h)
    exact .inl ⟨rfl, rfl, rfl⟩
  | some b =>
    simp only [hbook] at h
    cases hhandle : b.handle ev with
    | none => simp [hhandle] at h
    | some r =>
      simp only [hhandle] at h
      obtain ⟨rfl, rfl⟩ := Prod.mk.inj (Option.some.inj h)
      exact .inr ⟨b, r.1, r.2, rfl, hhandle, rfl, rfl⟩

/-- What `handle` leaves of a book. -/
theorem handle_cases {b b' : OrderBook} {trade : Trade} (h : b.handle ev = some (b', trade)) :
    (bookOp ev = none ∧ b' = b) ∨ ∃ op, bookOp ev = some op ∧ op.run b = some b' := by
  have hfst := b.handle_fst ev
  rw [h, Option.map_some] at hfst
  cases hop : bookOp ev with
  | none =>
    rw [hop, Option.elim_none] at hfst
    exact .inl ⟨rfl, Option.some.inj hfst⟩
  | some op =>
    rw [hop, Option.elim_some] at hfst
    exact .inr ⟨op, rfl, hfst.symm⟩

/-- `handle` returns where the call does. -/
theorem handle_isSome {b : OrderBook}
    (h : ∀ op, bookOp ev = some op → (op.run b).isSome) : (b.handle ev).isSome := by
  have hfst := b.handle_fst ev
  cases hop : bookOp ev with
  | none =>
    rw [hop, Option.elim_none] at hfst
    rw [← Option.isSome_map (f := Prod.fst), hfst]
    rfl
  | some op =>
    rw [hop, Option.elim_some] at hfst
    rw [← Option.isSome_map (f := Prod.fst), hfst]
    exact h op hop

/-- The book of an event is one of the array, or a new one. -/
theorem bookFor_cases {b : OrderBook} (h : feed.bookFor ev = some b) :
    feed.engine ev.stockLocate = some b ∨ feed.engine ev.stockLocate = none ∧ IsAdd ev ∧
      ev.stock = feed.symbol ∧ b = .init ev.stockLocate.toUInt64 (PrimaryFeed.seed ev) := by
  unfold PrimaryFeed.bookFor at h
  split_ifs at h with hadd hstock
  · rw [BookArray.ensure] at h
    cases hbook : feed.engine ev.stockLocate with
    | none =>
      rw [hbook] at h
      exact .inr ⟨rfl, hadd, not_not.1 hstock, (Option.some.inj h).symm⟩
    | some c =>
      rw [hbook] at h
      exact .inl h
  · exact .inl h

end Apply

end Core

end LowLatencyPipeline
