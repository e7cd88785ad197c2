import LowLatencyPipeline.Core.PrimaryFeed
import LowLatencyPipeline.Core.TopOfBook

/-!
# The price window of a book

The levels of a book cover a window of prices whose base lies half a window below the first price
of the symbol (`PrimaryFeed.seed`), rounded down to a whole level. The range check subtracts the
base mod `2 ^ 32` and compares an index, so a price far enough below a high base wraps back into
the window.

* **Which prices alias** (`priceWindow_exact`): the check is exact for a price iff the base is less
  than `2 ^ 32` minus a window above it, and exact for all prices iff the first one was below
  `4242538500`.
* The window never moves: no handler writes the base (`basePrice_exec`).
-/

namespace LowLatencyPipeline

namespace Core

/-- The width of the window in price units. -/
def WINDOW : ℕ := 104857600

/-- The base above which the window reaches the lowest prices of 32 bits again. -/
def WRAP_BASE : ℕ := 2 ^ 32 - WINDOW

theorem levelCount_eq : LEVEL_COUNT = 1048576 := by
  unfold LEVEL_COUNT
  rfl

/-! ### No handler moves the window -/

section BasePrice

variable {b b' : OrderBook} {other : Side}

theorem basePrice_take {ref : UInt64} {shares : UInt32} {entry : Option OrderEntry}
    (h : b.take ref shares = some (b', entry)) :
    (b'.sides other).levels.basePrice = (b.sides other).levels.basePrice := by
  unfold OrderBook.take at h
  obtain ⟨found, -, h⟩ := Option.bind_eq_some_iff.1 h
  cases found with
  | none =>
    obtain ⟨rfl, -⟩ := Prod.mk.inj (Option.some.inj h)
    rfl
  | some found =>
    dsimp only at h
    split_ifs at h with hlast
    · obtain ⟨m, -, h⟩ := Option.bind_eq_some_iff.1 h
      obtain ⟨rfl, -⟩ := Prod.mk.inj (Option.some.inj h)
      exact OrderBook.basePrice_setSide BookSide.basePrice_settle
    · obtain ⟨rfl, -⟩ := Prod.mk.inj (Option.some.inj h)
      exact OrderBook.basePrice_setSide rfl

theorem basePrice_onExecute {ref : UInt64} {executed : UInt32} {trade : Trade}
    (h : b.onExecute ref executed = some (b', trade)) :
    (b'.sides other).levels.basePrice = (b.sides other).levels.basePrice := by
  obtain ⟨⟨c, entry⟩, htake, h⟩ := Option.bind_eq_some_iff.1 h
  obtain ⟨rfl, -⟩ := Prod.mk.inj (Option.some.inj h)
  exact basePrice_take htake

/-- No handler writes the base price. -/
theorem basePrice_run {op : BookOp} (h : op.run b = some b') :
    (b'.sides other).levels.basePrice = (b.sides other).levels.basePrice := by
  cases op with
  | add ref side price shares =>
    change b.onAdd ref side price shares = some b' at h
    unfold OrderBook.onAdd at h
    split_ifs at h with hrange
    · obtain ⟨m, -, h⟩ := Option.bind_eq_some_iff.1 h
      obtain rfl := Option.some.inj h
      exact OrderBook.basePrice_setSide BookSide.basePrice_join
    · obtain rfl := Option.some.inj h
      rfl
  | execute ref executed =>
    obtain ⟨⟨c, trade⟩, hexec, rfl⟩ := Option.map_eq_some_iff.1 h
    exact basePrice_onExecute hexec
  | executeWithPrice ref executed price =>
    obtain ⟨⟨c, trade⟩, hexec, rfl⟩ := Option.map_eq_some_iff.1 h
    obtain ⟨⟨d, resolved⟩, hresolved, h⟩ := Option.bind_eq_some_iff.1 hexec
    obtain ⟨rfl, -⟩ := Prod.mk.inj (Option.some.inj h)
    exact basePrice_onExecute hresolved
  | cancel ref cancelled =>
    obtain ⟨⟨c, entry⟩, htake, h⟩ := Option.bind_eq_some_iff.1 h
    obtain rfl := Option.some.inj h
    exact basePrice_take htake
  | delete ref =>
    obtain ⟨found, -, h⟩ := Option.bind_eq_some_iff.1 h
    cases found with
    | none =>
      obtain rfl := Option.some.inj h
      rfl
    | some found =>
      obtain ⟨m, -, h⟩ := Option.bind_eq_some_iff.1 h
      obtain rfl := Option.some.inj h
      exact OrderBook.basePrice_setSide BookSide.basePrice_settle
  | replace oldRef newRef newPrice newShares =>
    obtain ⟨found, -, h⟩ := Option.bind_eq_some_iff.1 h
    cases found with
    | none =>
      obtain rfl := Option.some.inj h
      rfl
    | some found =>
      obtain ⟨m, -, h⟩ := Option.bind_eq_some_iff.1 h
      split_ifs at h with hrange
      · obtain ⟨m', -, h⟩ := Option.bind_eq_some_iff.1 h
        obtain rfl := Option.some.inj h
        exact OrderBook.basePrice_setSide (BookSide.basePrice_settle.trans BookSide.basePrice_join)
      · obtain rfl := Option.some.inj h
        exact OrderBook.basePrice_setSide BookSide.basePrice_settle

/-- The base price of a book is the one it was made with, whatever was called since. -/
theorem basePrice_exec {ops : List BookOp} (h : orderBook.exec b ops = some b') :
    (b'.sides other).levels.basePrice = (b.sides other).levels.basePrice := by
  induction ops generalizing b with
  | nil => rw [Option.some.inj h]
  | cons op ops ih =>
    obtain ⟨c, hop, hrest⟩ := Option.bind_eq_some_iff.1 h
    exact (ih hrest).trans (basePrice_run hop)

end BasePrice

/-! ### Prices and levels -/

namespace PriceLevelArray

variable (a : PriceLevelArray LEVEL_COUNT) (p q : UInt32)

/-- The check and the index are those of exact arithmetic for a price. -/
structure ExactAt : Prop where
  inRange_iff : a.InRange p ↔
    a.basePrice.toNat ≤ p.toNat ∧ p.toNat < a.basePrice.toNat + WINDOW
  price_indexOf : a.InRange p → a.basePrice.toNat + 100 * a.indexOf p = p.toNat / 100 * 100

/-- Accepted prices are ordered as their levels. -/
def Ordered : Prop := a.InRange p → a.InRange q → p ≤ q → a.indexOf p ≤ a.indexOf q

variable {a p q}

/-- What the range check computes: the price is in the window, or wraps into it. -/
theorem inRange_iff : a.InRange p ↔
    (a.basePrice.toNat ≤ p.toNat ∧ p.toNat < a.basePrice.toNat + WINDOW) ∨
      p.toNat + WRAP_BASE < a.basePrice.toNat := by
  have hp := p.toNat_lt
  have hbase := a.basePrice.toNat_lt
  have hlevels := levelCount_eq
  rw [InRange, indexOf, UInt32.toNat_div, UInt32.toNat_sub, show PRICE_TICK.toNat = 100 from rfl]
  simp only [WRAP_BASE, WINDOW]
  omega

theorem exactAt_iff (hbase : a.basePrice.toNat % 100 = 0) :
    a.ExactAt p ↔ a.basePrice.toNat ≤ p.toNat + WRAP_BASE := by
  constructor
  · intro h
    have hexact := h.inRange_iff
    rw [inRange_iff] at hexact
    omega
  · intro hwrap
    have hrange : a.InRange p ↔
        a.basePrice.toNat ≤ p.toNat ∧ p.toNat < a.basePrice.toNat + WINDOW := by
      rw [inRange_iff]
      omega
    refine ⟨hrange, fun h => ?_⟩
    rw [indexOf_eq (hrange.1 h).1]
    have hle := (hrange.1 h).1
    omega

/-- Prices that do not wrap are ordered as their levels. -/
theorem ordered_of_exactAt (hp : a.ExactAt p) (hq : a.ExactAt q) : a.Ordered p q := by
  intro hprange hqrange hle
  have hpq : p.toNat ≤ q.toNat := UInt32.le_iff_toNat_le.1 hle
  rw [indexOf_eq (hp.inRange_iff.1 hprange).1, indexOf_eq (hq.inRange_iff.1 hqrange).1]
  exact Nat.div_le_div_right (Nat.sub_le_sub_right hpq _)

end PriceLevelArray

/-- The base of a book whose symbol was first seen at the price of `ev`. -/
theorem toNat_basePrice_seed (ev : Event) (n : ℕ) :
    (PriceLevelArray.init n (PrimaryFeed.seed ev)).basePrice.toNat =
      (ev.price.toNat - 52428800) / 100 * 100 := by
  have hhalf : HALF.toNat = 52428800 := by decide
  have hseed : (PrimaryFeed.seed ev).toNat = ev.price.toNat - 52428800 := by
    unfold PrimaryFeed.seed
    split_ifs with h
    · rw [gt_iff_lt, UInt32.lt_iff_toNat_lt] at h
      rw [UInt32.toNat_sub_of_le _ _ (UInt32.le_iff_toNat_le.2 h.le), hhalf]
    · rw [gt_iff_lt, UInt32.lt_iff_toNat_lt] at h
      change 0 = _
      omega
  have hprice := ev.price.toNat_lt
  change (PrimaryFeed.seed ev / PRICE_TICK * PRICE_TICK).toNat = _
  rw [UInt32.toNat_mul, UInt32.toNat_div, show PRICE_TICK.toNat = 100 from rfl, hseed]
  omega

open PriceLevelArray

/-- **The price window.** In a book made at the first price of its symbol, after any calls of its
handlers, the range check is exact for a price iff the base is at most `WRAP_BASE` above it; such
prices are ordered as their levels. All prices are so iff the first one was below `4242538500`. -/
theorem priceWindow_exact {ev : Event} {stockId : UInt64} {ops : List BookOp} {b : OrderBook}
    (h : orderBook.exec (.init stockId (PrimaryFeed.seed ev)) ops = some b) (side : Side) :
    (∀ p, (b.sides side).levels.ExactAt p ↔
      (b.sides side).levels.basePrice.toNat ≤ p.toNat + WRAP_BASE) ∧
    (∀ p q, (b.sides side).levels.basePrice.toNat ≤ p.toNat + WRAP_BASE →
      (b.sides side).levels.basePrice.toNat ≤ q.toNat + WRAP_BASE →
        (b.sides side).levels.Ordered p q) ∧
    (((∀ p, (b.sides side).levels.ExactAt p) ∧ ∀ p q, (b.sides side).levels.Ordered p q) ↔
      ev.price.toNat < 4242538500) := by
  have hbase : (b.sides side).levels.basePrice.toNat = (ev.price.toNat - 52428800) / 100 * 100 := by
    rw [basePrice_exec h]
    exact toNat_basePrice_seed ev _
  have hexact : ∀ p, (b.sides side).levels.ExactAt p ↔
      (b.sides side).levels.basePrice.toNat ≤ p.toNat + WRAP_BASE := fun p =>
    exactAt_iff (by omega)
  have hordered : ∀ p q, (b.sides side).levels.basePrice.toNat ≤ p.toNat + WRAP_BASE →
      (b.sides side).levels.basePrice.toNat ≤ q.toNat + WRAP_BASE →
        (b.sides side).levels.Ordered p q := fun p q hp hq =>
    ordered_of_exactAt ((hexact p).2 hp) ((hexact q).2 hq)
  have hwrap : WRAP_BASE = 4190109696 := by decide
  refine ⟨hexact, hordered, fun hall => ?_, fun hfirst => ?_⟩
  · -- the lowest price decides
    have hzero := (hexact 0).1 (hall.1 0)
    rw [show (0 : UInt32).toNat = 0 from rfl] at hzero
    omega
  · have hle : ∀ p : UInt32,
        (b.sides side).levels.basePrice.toNat ≤ p.toNat + WRAP_BASE := fun p => by omega
    exact ⟨fun p => (hexact p).2 (hle p), fun p q => hordered p q (hle p) (hle q)⟩

/-- The first add of a symbol, at the highest price of 32 bits. -/
def highestAdd : Event := { Event.zero with messageType := 'A', price := PRICE_MAX }

/-- One cent is in the range of the book of `highestAdd`. -/
theorem priceWindow_alias :
    ¬∀ (ev : Event) (p q : UInt32),
      let a := PriceLevelArray.init LEVEL_COUNT (PrimaryFeed.seed ev)
      a.ExactAt p ∧ a.Ordered p q := by
  intro h
  obtain ⟨hexact, -⟩ := h highestAdd 100 PRICE_MAX
  have hbase : (PriceLevelArray.init LEVEL_COUNT (PrimaryFeed.seed highestAdd)).basePrice.toNat =
      4242538400 := toNat_basePrice_seed highestAdd _
  have hwrap : WRAP_BASE = 4190109696 := by decide
  have hle := (exactAt_iff (by omega)).1 hexact
  rw [show (100 : UInt32).toNat = 100 from rfl] at hle
  omega

/-- There an ask of one cent is stored a level above the first one. -/
theorem priceWindow_exact_highest :
    ∃ b : OrderBook,
      orderBook.exec (.init 0 (PrimaryFeed.seed highestAdd))
          [.add 1 .sell PRICE_MAX 1, .add 2 .sell 100 1] = some b ∧
        (b.sides .sell).levels.levels 524289 = ⟨1, 1⟩ ∧ ¬(b.sides .sell).levels.ExactAt 100 := by
  have hread : ((orderBook.exec (.init 0 (PrimaryFeed.seed highestAdd))
      [.add 1 .sell PRICE_MAX 1, .add 2 .sell 100 1]).map fun b =>
        ((b.sides .sell).levels.levels 524289, (b.sides .sell).levels.basePrice)) =
          some (⟨1, 1⟩, 4242538400) := by
    decide +kernel
  obtain ⟨b, hrun, hlevel⟩ := Option.map_eq_some_iff.1 hread
  obtain ⟨hlevel, hbase⟩ := Prod.mk.inj hlevel
  refine ⟨b, hrun, hlevel, fun hexact => ?_⟩
  have hle := ((priceWindow_exact hrun .sell).1 100).1 hexact
  rw [hbase] at hle
  exact absurd hle (by decide)

end Core

end LowLatencyPipeline
