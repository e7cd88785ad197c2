import LowLatencyPipeline.Core.LevelBitmap
import LowLatencyPipeline.Core.OrderMap
import LowLatencyPipeline.Library.Machine

/-!
# The order book

`PriceLevelArray` and `OrderBook` of `core/core.hpp` and `core/core.cpp`. A book keeps, for each
side, an array of one-cent levels with its occupancy bitmap and the best price, and one map of all
orders. The source writes the body of every handler twice, once for each side; here a handler takes
the side as an argument, and what differs (which price is better, the sentinel of an empty side,
the search for the next level) is `Side.better`, `emptyBest` and `BookSide.beyond`.

The handlers give `none` where a loop of the order map would not end.
-/

namespace LowLatencyPipeline

namespace Core

/-- `PRICE_TICK`. -/
def PRICE_TICK : UInt32 := 100

/-- `DEFAULT_ORDER_CAPACITY`. -/
@[irreducible] def ORDER_CAPACITY : UInt32 := 1048576

/-- `DEFAULT_LEVEL_COUNT`. -/
@[irreducible] def LEVEL_COUNT : ℕ := 1048576

theorem toNat_orderCapacity : ORDER_CAPACITY.toNat = 1048576 := by
  unfold ORDER_CAPACITY
  rfl

/-- `UINT32_MAX`. -/
def PRICE_MAX : UInt32 := 0xFFFFFFFF

/-- `OrderMap::hash`. -/
def orderHash (ref : UInt64) : UInt32 := ((ref * 0x9e3779b97f4a7c15) >>> 44).toUInt32

/-! ### The level array -/

/-- `PriceLevel`. -/
structure PriceLevel where
  totalShares : UInt32
  orderCount : UInt32
  deriving DecidableEq

/-- `PriceLevelArray<n>`. Only the first `n` levels are its own. -/
structure PriceLevelArray (n : ℕ) where
  basePrice : UInt32
  levels : ℕ → PriceLevel
  occupied : OccupancyBitmap n

namespace PriceLevelArray

variable {n : ℕ} (a : PriceLevelArray n) (price : UInt32)

/-- An array in zero-initialised storage. -/
def empty (n : ℕ) : PriceLevelArray n := ⟨0, fun _ => ⟨0, 0⟩, .clean n⟩

/-- `init`. -/
def init (n : ℕ) (basePrice : UInt32) : PriceLevelArray n :=
  { empty n with basePrice := basePrice / PRICE_TICK * PRICE_TICK }

/-- `index_of`. -/
def indexOf : ℕ := ((price - a.basePrice) / PRICE_TICK).toNat

/-- `in_range`. -/
def InRange : Prop := a.indexOf price < n

instance : Decidable (a.InRange price) := inferInstanceAs (Decidable (_ < _))

/-- `at`. -/
def level : PriceLevel := a.levels (a.indexOf price)

/-- A store through the reference that `at` returns. -/
def modifyLevel (f : PriceLevel → PriceLevel) : PriceLevelArray n :=
  { a with levels := Function.update a.levels (a.indexOf price) (f (a.level price)) }

/-- `mark_occupied`. -/
def markOccupied : PriceLevelArray n := { a with occupied := a.occupied.set (a.indexOf price) }

/-- `mark_empty`. -/
def markEmpty : PriceLevelArray n := { a with occupied := a.occupied.clear (a.indexOf price) }

/-- The price of a level. -/
def priceOf (i : ℕ) : UInt32 := a.basePrice + UInt32.ofNat i * PRICE_TICK

/-- `next_occupied_above`; 0 when there is none. -/
def nextOccupiedAbove : UInt32 :=
  let i := a.occupied.nextSet (a.indexOf price + 1)
  if i = NPOS then 0 else a.priceOf i

/-- `prev_occupied_below`; 0 when there is none. -/
def prevOccupiedBelow : UInt32 :=
  let idx := a.indexOf price
  if idx = 0 then 0
  else
    let i := a.occupied.prevSet (idx - 1)
    if i = NPOS then 0 else a.priceOf i

end PriceLevelArray

/-! ### One side of the book -/

/-- The order of prices, and of levels, on a side: `a` is a higher bid, or a lower ask, than `b`. -/
def better {α : Type*} [LT α] (side : Side) (a b : α) : Prop :=
  match side with
  | .buy => b < a
  | .sell => a < b

instance {α : Type*} [LT α] [DecidableLT α] (side : Side) (a b : α) :
    Decidable (better side a b) := by
  cases side <;> unfold better <;> infer_instance

/-- `best_bid` and `best_ask` of an empty side. -/
def emptyBest : Side → UInt32
  | .buy => 0
  | .sell => PRICE_MAX

/-- One side of an `OrderBook`: `bids_` with `best_bid`, or `asks_` with `best_ask`. -/
structure BookSide where
  levels : PriceLevelArray LEVEL_COUNT
  best : UInt32

namespace BookSide

variable (side : Side) (b : BookSide) (price : UInt32)

/-- `init` of one side. -/
def init (basePrice : UInt32) : BookSide := ⟨.init LEVEL_COUNT basePrice, emptyBest side⟩

/-- The nearest price beyond `price`, away from the edge of the book, or the empty sentinel. -/
def beyond : UInt32 :=
  match side with
  | .buy => b.levels.prevOccupiedBelow price
  | .sell =>
    let next := b.levels.nextOccupiedAbove price
    if next ≠ 0 then next else PRICE_MAX

/-- `on_level_emptied`. -/
def onLevelEmptied : BookSide :=
  let b := { b with levels := b.levels.markEmpty price }
  if price = b.best then { b with best := b.beyond side price } else b

/-- The check that ends a handler in which an order left: was it the last one of its level? -/
def settle : BookSide :=
  if (b.levels.level price).orderCount = 0 then b.onLevelEmptied side price else b

/-- Shares leave the level. -/
def reduce (shares : UInt32) : BookSide :=
  { b with levels := b.levels.modifyLevel price fun lvl =>
      { lvl with totalShares := lvl.totalShares - shares } }

/-- An order leaves the level. -/
def leave : BookSide :=
  { b with levels := b.levels.modifyLevel price fun lvl =>
      { lvl with orderCount := lvl.orderCount - 1 } }

/-- An order joins the level: the level part of `on_add` and `on_replace`. -/
def join (shares : UInt32) : BookSide :=
  let levels := b.levels.modifyLevel price fun lvl =>
    ⟨lvl.totalShares + shares, lvl.orderCount + 1⟩
  { levels := if (b.levels.level price).orderCount = 0 then levels.markOccupied price else levels
    best := if better side price b.best then price else b.best }

end BookSide

/-! ### The book -/

/-- `OrderBook::Trade`. -/
structure Trade where
  price : UInt32 := 0
  shares : UInt32 := 0
  side : Side := .buy
  deriving DecidableEq

/-- `OrderBook`. -/
structure OrderBook where
  stockId : UInt64
  sides : Side → BookSide
  orders : OrderMap
  /-- the book's share of `g_drops` -/
  drops : ℕ := 0

namespace OrderBook

/-- `init` on a fresh book. -/
def init (stockId : UInt64) (basePrice : UInt32) : OrderBook where
  stockId := stockId
  sides := fun side => .init side basePrice
  orders := .empty

variable (b : OrderBook)

/-- A change of one side. -/
def setSide (side : Side) (s : BookSide) : OrderBook :=
  { b with sides := Function.update b.sides side s }

theorem sides_setSide (side : Side) (s : BookSide) (other : Side) :
    (b.setSide side s).sides other = if other = side then s else b.sides other :=
  Function.update_apply b.sides side s other

/-- A side with the same window leaves all windows as they are. -/
theorem basePrice_setSide {b : OrderBook} {side other : Side} {s : BookSide}
    (hs : s.levels.basePrice = (b.sides side).levels.basePrice) :
    ((b.setSide side s).sides other).levels.basePrice = (b.sides other).levels.basePrice := by
  rw [sides_setSide]
  split_ifs with h
  · rw [h, hs]
  · rfl

/-- `orders_.find`, with the entry that the pointer refers to. -/
def find (ref : UInt64) : Option (Option (ℕ × OrderEntry)) := do
  return (← b.orders.find ORDER_CAPACITY orderHash ref).map fun i => (i, (b.orders.slots i).entry)

/-- `on_add`. -/
def onAdd (ref : UInt64) (side : Side) (price shares : UInt32) : Option OrderBook := do
  -- out of the level array: counted in g_drops
  if ¬(b.sides side).levels.InRange price then return { b with drops := b.drops + 1 }
  let orders ← b.orders.insert ORDER_CAPACITY orderHash ref price shares side
  return { b.setSide side ((b.sides side).join side price shares) with orders }

/-- The common body of `on_execute` and `on_cancel`: shares leave an order, and the order leaves
the book with its last one. `none` inside where the ref is unknown. -/
def take (ref : UInt64) (shares : UInt32) : Option (OrderBook × Option OrderEntry) := do
  match ← b.find ref with
  | none => return (b, none)
  | some (i, entry) =>
    let s := (b.sides entry.side).reduce entry.price shares
    let orders := b.orders.store i fun entry => { entry with shares := entry.shares - shares }
    -- the last share: the level's count falls and the map forgets the ref
    if entry.shares - shares = 0 then
      let s := s.leave entry.price
      let orders ← orders.erase ORDER_CAPACITY orderHash ref
      return ({ b.setSide entry.side (s.settle entry.side entry.price) with orders }, some entry)
    else return ({ b.setSide entry.side s with orders }, some entry)

/-- `on_execute`. -/
def onExecute (ref : UInt64) (executed : UInt32) : Option (OrderBook × Trade) := do
  let (b, entry) ← b.take ref executed
  return (b, entry.elim {} fun entry => ⟨entry.price, executed, entry.side⟩)

/-- `on_execute_with_price`. -/
def onExecuteWithPrice (ref : UInt64) (executed executionPrice : UInt32) :
    Option (OrderBook × Trade) := do
  let (b, t) ← b.onExecute ref executed
  -- an unknown ref has no trade to reprice
  return (b, if t.shares ≠ 0 then { t with price := executionPrice } else t)

/-- `on_cancel`. -/
def onCancel (ref : UInt64) (cancelled : UInt32) : Option OrderBook := do
  let (b, _) ← b.take ref cancelled
  return b

/-- `on_delete`. -/
def onDelete (ref : UInt64) : Option OrderBook := do
  match ← b.find ref with
  | none => return b
  | some (_, entry) =>
    let s := ((b.sides entry.side).reduce entry.price entry.shares).leave entry.price
    let orders ← b.orders.erase ORDER_CAPACITY orderHash ref
    return { b.setSide entry.side (s.settle entry.side entry.price) with orders }

/-- `on_replace`. The check on the old level comes last. -/
def onReplace (oldRef newRef : UInt64) (newPrice newShares : UInt32) : Option OrderBook := do
  match ← b.find oldRef with
  | none => return b
  | some (_, old) =>
    let s := ((b.sides old.side).reduce old.price old.shares).leave old.price
    let orders ← b.orders.erase ORDER_CAPACITY orderHash oldRef
    if s.levels.InRange newPrice then
      let orders ← orders.insert ORDER_CAPACITY orderHash newRef newPrice newShares old.side
      let s := s.join old.side newPrice newShares
      return { b.setSide old.side (s.settle old.side old.price) with orders }
    -- the old order is gone and the new one is dropped
    else
      return { b.setSide old.side (s.settle old.side old.price) with
        orders, drops := b.drops + 1 }

/-- `best_bid`. -/
def bestBid : UInt32 := (b.sides .buy).best

/-- `best_ask`. -/
def bestAsk : UInt32 := (b.sides .sell).best

/-- `OrderBook::Level`. -/
structure Level where
  price : UInt32
  shares : UInt32
  orderCount : UInt32
  deriving DecidableEq

/-- The walk of `top_bids` and `top_asks` from a price on. -/
def walk (side : Side) : ℕ → UInt32 → List Level
  | 0, _ => []
  | maxOut + 1, p =>
    if p = emptyBest side then []
    else
      let lvl := (b.sides side).levels.level p
      ⟨p, lvl.totalShares, lvl.orderCount⟩ :: walk side maxOut ((b.sides side).beyond side p)

/-- `top_bids`. -/
def topBids (maxOut : ℕ) : List Level := b.walk .buy maxOut b.bestBid

/-- `top_asks`. -/
def topAsks (maxOut : ℕ) : List Level := b.walk .sell maxOut b.bestAsk

end OrderBook

/-- The calls of a book's handlers. -/
inductive BookOp
  | add (ref : UInt64) (side : Side) (price shares : UInt32)
  | execute (ref : UInt64) (executed : UInt32)
  | executeWithPrice (ref : UInt64) (executed executionPrice : UInt32)
  | cancel (ref : UInt64) (cancelled : UInt32)
  | delete (ref : UInt64)
  | replace (oldRef newRef : UInt64) (newPrice newShares : UInt32)

/-- A call, without the trade it resolves. -/
def BookOp.run (b : OrderBook) : BookOp → Option OrderBook
  | .add ref side price shares => b.onAdd ref side price shares
  | .execute ref executed => (b.onExecute ref executed).map Prod.fst
  | .executeWithPrice ref executed executionPrice =>
    (b.onExecuteWithPrice ref executed executionPrice).map Prod.fst
  | .cancel ref cancelled => b.onCancel ref cancelled
  | .delete ref => b.onDelete ref
  | .replace oldRef newRef newPrice newShares => b.onReplace oldRef newRef newPrice newShares

/-- A book and the calls of its handlers, from any base price. -/
def orderBook : Machine OrderBook BookOp where
  Init b := ∃ stockId basePrice, b = .init stockId basePrice
  step := BookOp.run

end Core

end LowLatencyPipeline
