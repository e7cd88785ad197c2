import Mathlib.Algebra.BigOperators.Group.Multiset.Basic
import LowLatencyPipeline.Core.OrderBook

/-!
# The representation invariant of the book

The order map, the level arrays and the bitmaps of a book agree: `BookInv` says that every level
holds the tally of the stored orders of its side and index, and that its occupancy bit is set iff
there are any. `SideInv` is the invariant of one side; while a handler is under way the bit of one
level, the pending one, may be set for nothing, until `settle` looks at it.

`run_effect` says once what a call does: `Effect` lists the ways the stored orders and the sides
may change. It holds whenever new refs are not stored and the map does not fill up, and then every
call returns; `bookInv_of_reachable` is the run lemma.
-/

namespace LowLatencyPipeline

namespace Core

/-- What a level should read that holds these orders. -/
def tally (held : Multiset (UInt64 × OrderEntry)) : PriceLevel where
  totalShares := UInt32.ofNat (held.map fun e => e.2.shares.toNat).sum
  orderCount := UInt32.ofNat held.card

theorem tally_cons (e : UInt64 × OrderEntry) (held : Multiset (UInt64 × OrderEntry)) :
    tally (e ::ₘ held) =
      ⟨(tally held).totalShares + e.2.shares, (tally held).orderCount + 1⟩ := by
  rw [tally, Multiset.map_cons, Multiset.sum_cons, Multiset.card_cons, UInt32.ofNat_add,
    UInt32.ofNat_toNat, UInt32.ofNat_add, add_comm e.2.shares]
  rfl

/-- The count is exact, as no map holds that many orders. -/
theorem tally_orderCount_eq_zero {held : Multiset (UInt64 × OrderEntry)}
    (hcard : held.card < 2 ^ 32) : (tally held).orderCount = 0 ↔ held = 0 := by
  rw [tally, ← UInt32.toNat_inj, UInt32.toNat_ofNat', Nat.mod_eq_of_lt hcard]
  exact Multiset.card_eq_zero

namespace PriceLevelArray

variable {n : ℕ} (a : PriceLevelArray n)

/-- The orders of a side that a level holds. -/
def held (entries : Multiset (UInt64 × OrderEntry)) (side : Side) (i : ℕ) :
    Multiset (UInt64 × OrderEntry) :=
  entries.filter fun e => e.2.side = side ∧ a.indexOf e.2.price = i

variable {a} {entries : Multiset (UInt64 × OrderEntry)} {side : Side} {i : ℕ}
  {e : UInt64 × OrderEntry}

theorem held_cons_of_pos (hside : e.2.side = side) (hindex : a.indexOf e.2.price = i) :
    a.held (e ::ₘ entries) side i = e ::ₘ a.held entries side i :=
  Multiset.filter_cons_of_pos _ ⟨hside, hindex⟩

theorem held_cons_of_side (hside : e.2.side ≠ side) :
    a.held (e ::ₘ entries) side i = a.held entries side i :=
  Multiset.filter_cons_of_neg _ fun h => hside h.1

theorem held_cons_of_index (hindex : a.indexOf e.2.price ≠ i) :
    a.held (e ::ₘ entries) side i = a.held entries side i :=
  Multiset.filter_cons_of_neg _ fun h => hindex h.2

theorem card_held_le : (a.held entries side i).card ≤ entries.card :=
  Multiset.card_le_card (Multiset.filter_le _ _)

theorem mem_held : e ∈ a.held entries side i ↔
    e ∈ entries ∧ e.2.side = side ∧ a.indexOf e.2.price = i := Multiset.mem_filter

variable {price : UInt32} {f : PriceLevel → PriceLevel}

theorem modifyLevel_levels (j : ℕ) : (a.modifyLevel price f).levels j =
    if j = a.indexOf price then f (a.levels j) else a.levels j := by
  split_ifs with h
  · subst h
    exact Function.update_self _ _ _
  · exact Function.update_of_ne h _ _

end PriceLevelArray

open PriceLevelArray

namespace BookSide

variable {side : Side} {b : BookSide} {price shares : UInt32}

@[simp]
theorem held_reduce : (b.reduce price shares).levels.held = b.levels.held := rfl

@[simp]
theorem held_leave : (b.leave price).levels.held = b.levels.held := rfl

theorem join_levels : (b.join side price shares).levels =
    let levels := b.levels.modifyLevel price fun lvl =>
      ⟨lvl.totalShares + shares, lvl.orderCount + 1⟩
    if (b.levels.level price).orderCount = 0 then levels.markOccupied price else levels := rfl

theorem join_occupied : (b.join side price shares).levels.occupied =
    if (b.levels.level price).orderCount = 0 then b.levels.occupied.set (b.levels.indexOf price)
    else b.levels.occupied := by
  rw [join_levels]
  dsimp only
  split_ifs <;> rfl

@[simp]
theorem indexOf_join : (b.join side price shares).levels.indexOf = b.levels.indexOf := by
  rw [join_levels]
  dsimp only
  split_ifs <;> rfl

@[simp]
theorem basePrice_join :
    (b.join side price shares).levels.basePrice = b.levels.basePrice := by
  rw [join_levels]
  dsimp only
  split_ifs <;> rfl

@[simp]
theorem held_join : (b.join side price shares).levels.held = b.levels.held := by
  rw [join_levels]
  dsimp only
  split_ifs <;> rfl

theorem join_level (i : ℕ) : (b.join side price shares).levels.levels i =
    if i = b.levels.indexOf price then
      ⟨(b.levels.levels i).totalShares + shares, (b.levels.levels i).orderCount + 1⟩
    else b.levels.levels i := by
  have hlevels : (b.join side price shares).levels.levels =
      (b.levels.modifyLevel price fun lvl =>
        ⟨lvl.totalShares + shares, lvl.orderCount + 1⟩).levels := by
    rw [join_levels]
    dsimp only
    split_ifs <;> rfl
  rw [hlevels, modifyLevel_levels]

theorem onLevelEmptied_levels :
    (b.onLevelEmptied side price).levels = b.levels.markEmpty price := by
  rw [onLevelEmptied]
  split_ifs <;> rfl

@[simp]
theorem basePrice_settle :
    (b.settle side price).levels.basePrice = b.levels.basePrice := by
  rw [settle]
  split_ifs
  · rw [onLevelEmptied_levels]
    rfl
  · rfl

end BookSide

open BookSide

/-! ### One side -/

/-- **The invariant of one side.** The bit of the pending level, if there is one, may be set. -/
structure SideInv (side : Side) (entries : Multiset (UInt64 × OrderEntry)) (b : BookSide)
    (pending : Option ℕ) : Prop where
  valid : b.levels.occupied.Valid
  inRange : ∀ e ∈ entries, e.2.side = side → b.levels.InRange e.2.price
  tallied : ∀ i, b.levels.levels i = tally (b.levels.held entries side i)
  marked : ∀ i, b.levels.occupied.test i = true ↔
    b.levels.held entries side i ≠ 0 ∨ pending = some i

namespace SideInv

variable {side : Side} {entries : Multiset (UInt64 × OrderEntry)} {b : BookSide}
  {pending : Option ℕ} {e : UInt64 × OrderEntry}

theorem init (side : Side) (basePrice : UInt32) : SideInv side 0 (.init side basePrice) none where
  valid := OccupancyBitmap.clean_valid
  inRange := fun e he => absurd he (Multiset.notMem_zero e)
  tallied := fun _ => rfl
  marked := fun i => by
    refine iff_of_false ?_ (by simp [held])
    rw [Bool.not_eq_true]
    exact OccupancyBitmap.test_clean

/-- Orders of the other side do not matter. -/
theorem cons_other (hside : e.2.side ≠ side) :
    SideInv side (e ::ₘ entries) b pending ↔ SideInv side entries b pending := by
  constructor
  · intro h
    refine ⟨h.valid, fun e' he' => h.inRange e' (Multiset.mem_cons_of_mem he'), fun i => ?_,
      fun i => ?_⟩
    · rw [h.tallied, held_cons_of_side hside]
    · rw [h.marked, held_cons_of_side hside]
  · intro h
    refine ⟨h.valid, fun e' he' hside' => ?_, fun i => ?_, fun i => ?_⟩
    · rcases Multiset.mem_cons.1 he' with rfl | he'
      · exact absurd hside' hside
      · exact h.inRange e' he' hside'
    · rw [h.tallied, held_cons_of_side hside]
    · rw [h.marked, held_cons_of_side hside]

/-- Shares leave an order and its level. -/
theorem reduce (h : SideInv side (e ::ₘ entries) b pending) (hside : e.2.side = side)
    (shares : UInt32) {e' : UInt64 × OrderEntry} (hside' : e'.2.side = side)
    (hprice' : e'.2.price = e.2.price) (hshares' : e'.2.shares = e.2.shares - shares) :
    SideInv side (e' ::ₘ entries) (b.reduce e.2.price shares) pending := by
  have hindex' : b.levels.indexOf e'.2.price = b.levels.indexOf e.2.price := by rw [hprice']
  refine ⟨h.valid, fun d hd hdside => ?_, fun i => ?_, fun i => (h.marked i).trans ?_⟩
  · rcases Multiset.mem_cons.1 hd with rfl | hd
    · rw [hprice']
      exact h.inRange e (Multiset.mem_cons_self e _) hside
    · exact h.inRange d (Multiset.mem_cons_of_mem hd) hdside
  · rw [held_reduce, BookSide.reduce, modifyLevel_levels, h.tallied]
    split_ifs with hi
    · rw [held_cons_of_pos hside hi.symm, held_cons_of_pos hside' (hindex'.trans hi.symm),
        tally_cons, tally_cons, hshares', add_sub_assoc]
    · rw [held_cons_of_index (Ne.symm hi),
        held_cons_of_index fun hi' => hi (hi'.symm.trans hindex')]
  · rw [held_reduce]
    rcases eq_or_ne (b.levels.indexOf e.2.price) i with hi | hi
    · rw [held_cons_of_pos hside hi, held_cons_of_pos hside' (hindex'.trans hi)]
      simp
    · rw [held_cons_of_index hi, held_cons_of_index fun hi' => hi (hindex'.symm.trans hi')]

/-- An order without shares leaves its level; the level's bit is pending. -/
theorem leave (h : SideInv side (e ::ₘ entries) b none) (hside : e.2.side = side)
    (hshares : e.2.shares = 0) :
    SideInv side entries (b.leave e.2.price) (some (b.levels.indexOf e.2.price)) := by
  refine ⟨h.valid, fun e' he' => h.inRange e' (Multiset.mem_cons_of_mem he'), fun i => ?_,
    fun i => (h.marked i).trans ?_⟩
  · rw [held_leave, BookSide.leave, modifyLevel_levels, h.tallied]
    split_ifs with hi
    · rw [held_cons_of_pos hside hi.symm, tally_cons, hshares, add_zero, add_sub_cancel_right]
    · rw [held_cons_of_index (Ne.symm hi)]
  · rw [held_leave]
    rcases eq_or_ne (b.levels.indexOf e.2.price) i with hi | hi
    · rw [held_cons_of_pos hside hi]
      simp [hi]
    · rw [held_cons_of_index hi]
      simp [hi]

/-- The emptiness tests of the handlers see whether a level holds an order. -/
theorem orderCount_eq_zero_iff (h : SideInv side entries b pending) (hcard : entries.card < 2 ^ 32)
    (price : UInt32) : (b.levels.level price).orderCount = 0 ↔
      b.levels.held entries side (b.levels.indexOf price) = 0 := by
  rw [PriceLevelArray.level, h.tallied]
  exact tally_orderCount_eq_zero (card_held_le.trans_lt hcard)

/-- An order joins its level. -/
theorem join (h : SideInv side entries b pending) (hcard : entries.card < 2 ^ 32)
    (hside : e.2.side = side) (hrange : b.levels.InRange e.2.price) :
    SideInv side (e ::ₘ entries) (b.join side e.2.price e.2.shares) pending := by
  -- the bit is set only where the count was 0
  have hbit : ∀ i, (b.join side e.2.price e.2.shares).levels.occupied.test i = true ↔
      i = b.levels.indexOf e.2.price ∨ b.levels.occupied.test i = true := by
    intro i
    rw [join_occupied]
    split_ifs with hzero
    · exact OccupancyBitmap.test_set hrange
    · -- the level was occupied before
      refine (or_iff_right_of_imp ?_).symm
      rintro rfl
      exact (h.marked _).2 (.inl fun heq => hzero ((h.orderCount_eq_zero_iff hcard _).2 heq))
  refine ⟨?_, fun d hd hdside => ?_, fun i => ?_, fun i => ?_⟩
  · rw [join_occupied]
    split_ifs
    · exact h.valid.set hrange
    · exact h.valid
  · rw [PriceLevelArray.InRange, indexOf_join]
    rcases Multiset.mem_cons.1 hd with rfl | hd
    · exact hrange
    · exact h.inRange d hd hdside
  · rw [join_level, held_join, h.tallied]
    split_ifs with hi
    · rw [held_cons_of_pos hside hi.symm, tally_cons]
    · rw [held_cons_of_index (Ne.symm hi)]
  · rw [held_join, hbit, h.marked]
    rcases eq_or_ne (b.levels.indexOf e.2.price) i with hi | hi
    · rw [held_cons_of_pos hside hi]
      simp [hi]
    · rw [held_cons_of_index hi]
      simp [Ne.symm hi]

/-- The check at the end of a handler settles the pending level. -/
theorem settle {price : UInt32}
    (h : SideInv side entries b (some (b.levels.indexOf price))) (hcard : entries.card < 2 ^ 32) :
    SideInv side entries (b.settle side price) none := by
  rw [BookSide.settle]
  split_ifs with hzero
  · have hempty := (h.orderCount_eq_zero_iff hcard price).1 hzero
    refine ⟨?_, ?_, fun i => ?_, fun i => ?_⟩ <;> rw [onLevelEmptied_levels]
    · exact h.valid.clear
    · exact h.inRange
    · exact h.tallied i
    · refine OccupancyBitmap.test_clear.trans ?_
      rw [h.marked]
      change _ ↔ b.levels.held entries side i ≠ 0 ∨ _
      rcases eq_or_ne i (b.levels.indexOf price) with rfl | hi
      · simp [hempty]
      · simp [hi, Ne.symm hi]
  · have hne : b.levels.held entries side (b.levels.indexOf price) ≠ 0 :=
      fun heq => hzero ((h.orderCount_eq_zero_iff hcard price).2 heq)
    refine ⟨h.valid, h.inRange, h.tallied, fun i => (h.marked i).trans ?_⟩
    simp only [Option.some.injEq, reduceCtorEq, or_false]
    exact or_iff_left_of_imp fun heq => heq ▸ hne

/-- An order leaves with all its shares. -/
theorem without (h : SideInv side (e ::ₘ entries) b none) (hside : e.2.side = side) :
    SideInv side entries ((b.reduce e.2.price e.2.shares).leave e.2.price)
      (some (b.levels.indexOf e.2.price)) := by
  have hreduced : SideInv side ((e.1, { e.2 with shares := 0 }) ::ₘ entries)
      (b.reduce e.2.price e.2.shares) none :=
    h.reduce hside e.2.shares hside rfl (sub_self _).symm
  exact hreduced.leave hside rfl

end SideInv

/-! ### The book -/

/-- The stored orders. -/
def OrderBook.entries (b : OrderBook) : Multiset (UInt64 × OrderEntry) :=
  b.orders.entries ORDER_CAPACITY

/-- A well-formed order map with these entries. -/
structure Stores (m : OrderMap) (entries : Multiset (UInt64 × OrderEntry)) : Prop where
  valid : m.Valid ORDER_CAPACITY orderHash
  entries_eq : m.entries ORDER_CAPACITY = entries

/-- **The representation invariant of the book.** -/
structure BookInv (b : OrderBook) : Prop where
  orders : b.orders.Valid ORDER_CAPACITY orderHash
  card_lt : b.entries.card < ORDER_CAPACITY.toNat
  sides : ∀ side, SideInv side b.entries (b.sides side) none

/-- The side without an order, its level not yet checked. -/
def BookSide.without (b : BookSide) (entry : OrderEntry) : BookSide :=
  (b.reduce entry.price entry.shares).leave entry.price

namespace BookOp

/-- The order, and the shares, that an execution or a cancel takes from. -/
def taking : BookOp → Option (UInt64 × UInt32)
  | .execute ref shares | .executeWithPrice ref shares _ | .cancel ref shares => some (ref, shares)
  | _ => none

/-- The order that a call refers to. -/
def target : BookOp → Option UInt64
  | .add _ _ _ _ => none
  | .execute ref _ | .executeWithPrice ref _ _ | .cancel ref _ | .delete ref
  | .replace ref _ _ _ => some ref

/-- New refs are not stored, and the map does not fill up. -/
def Allowed (b : OrderBook) : BookOp → Prop
  | .add ref _ _ _ =>
    (∀ e ∈ b.entries, e.1 ≠ ref) ∧ b.entries.card + 1 < ORDER_CAPACITY.toNat
  | .replace oldRef newRef _ _ => ∀ e ∈ b.entries, e.1 = newRef → newRef = oldRef
  | _ => True

/-- A call takes the whole order `e` from the book. -/
def Removes (e : UInt64 × OrderEntry) (op : BookOp) : Prop :=
  op = .delete e.1 ∨ op.taking = some (e.1, e.2.shares)

end BookOp

/-- **What a call can do**: the book after it. -/
inductive Effect (b : OrderBook) : BookOp → OrderBook → Prop
  /-- an add out of range -/
  | dropped {ref : UInt64} {side : Side} {price shares : UInt32} :
      ¬(b.sides side).levels.InRange price →
      Effect b (.add ref side price shares) { b with drops := b.drops + 1 }
  | added {ref : UInt64} {side : Side} {price shares : UInt32} {m : OrderMap} :
      (b.sides side).levels.InRange price →
      Stores m ((ref, ⟨price, shares, side⟩) ::ₘ b.entries) →
      Effect b (.add ref side price shares)
        { b.setSide side ((b.sides side).join side price shares) with orders := m }
  /-- the ref is not stored -/
  | unknown {op : BookOp} {ref : UInt64} :
      op.target = some ref → (∀ e ∈ b.entries, e.1 ≠ ref) → Effect b op b
  /-- an execution or a cancel of a part -/
  | reduced {op : BookOp} {e : UInt64 × OrderEntry} {rest : Multiset (UInt64 × OrderEntry)}
      {shares : UInt32} {m : OrderMap} :
      op.taking = some (e.1, shares) → e.2.shares - shares ≠ 0 → b.entries = e ::ₘ rest →
      Stores m ((e.1, { e.2 with shares := e.2.shares - shares }) ::ₘ rest) →
      Effect b op
        { b.setSide e.2.side ((b.sides e.2.side).reduce e.2.price shares) with orders := m }
  | removed {op : BookOp} {e : UInt64 × OrderEntry} {rest : Multiset (UInt64 × OrderEntry)}
      {m : OrderMap} :
      op.Removes e → b.entries = e ::ₘ rest → Stores m rest →
      Effect b op
        { b.setSide e.2.side (((b.sides e.2.side).without e.2).settle e.2.side e.2.price) with
          orders := m }
  | replaced {newRef : UInt64} {newPrice newShares : UInt32} {e : UInt64 × OrderEntry}
      {rest : Multiset (UInt64 × OrderEntry)} {m : OrderMap} :
      (b.sides e.2.side).levels.InRange newPrice → b.entries = e ::ₘ rest →
      Stores m ((newRef, ⟨newPrice, newShares, e.2.side⟩) ::ₘ rest) →
      Effect b (.replace e.1 newRef newPrice newShares)
        { b.setSide e.2.side ((((b.sides e.2.side).without e.2).join e.2.side newPrice
            newShares).settle e.2.side e.2.price) with orders := m }
  /-- a replacement out of range -/
  | lost {newRef : UInt64} {newPrice newShares : UInt32} {e : UInt64 × OrderEntry}
      {rest : Multiset (UInt64 × OrderEntry)} {m : OrderMap} :
      ¬(b.sides e.2.side).levels.InRange newPrice → b.entries = e ::ₘ rest → Stores m rest →
      Effect b (.replace e.1 newRef newPrice newShares)
        { b.setSide e.2.side (((b.sides e.2.side).without e.2).settle e.2.side e.2.price) with
          orders := m, drops := b.drops + 1 }

theorem orderCapacity_powerOfTwo : Common.SpscRing.PowerOfTwo ORDER_CAPACITY :=
  ⟨20, toNat_orderCapacity⟩

namespace BookInv

variable {b : OrderBook}

theorem init (stockId : UInt64) (basePrice : UInt32) : BookInv (.init stockId basePrice) := by
  have hentries : (OrderBook.init stockId basePrice).entries = 0 := OrderMap.entries_empty _
  refine ⟨OrderMap.valid_empty _ _, ?_, fun side => ?_⟩
  · rw [hentries, toNat_orderCapacity]
    decide
  · rw [hentries]
    exact SideInv.init side basePrice

theorem find_stored (h : BookInv b) {e : UInt64 × OrderEntry} (he : e ∈ b.entries) :
    ∃ i < ORDER_CAPACITY.toNat, b.find e.1 = some (some (i, e.2)) ∧
      OrderMap.view b.orders.slots i = some e := by
  obtain ⟨i, hi, hfind, hview⟩ := OrderMap.find_stored orderCapacity_powerOfTwo h.orders he
  refine ⟨i, hi, ?_, hview⟩
  rw [OrderBook.find, hfind]
  simp [(OrderMap.view_eq_some.1 hview).2.2]

theorem find_unknown (h : BookInv b) {ref : UInt64} (habsent : ∀ e ∈ b.entries, e.1 ≠ ref) :
    b.find ref = some none := by
  rw [OrderBook.find, OrderMap.find_absent orderCapacity_powerOfTwo h.card_lt habsent]
  rfl

/-- `erase` of a stored order, at the map of this book. -/
theorem erase_stored (h : BookInv b) {e : UInt64 × OrderEntry}
    {rest : Multiset (UInt64 × OrderEntry)} (hentries : b.entries = e ::ₘ rest) :
    ∃ m, b.orders.erase ORDER_CAPACITY orderHash e.1 = some m ∧ Stores m rest := by
  have he : e ∈ b.entries := hentries ▸ Multiset.mem_cons_self e rest
  obtain ⟨m, hrun, hvalid, hcons⟩ :=
    OrderMap.erase_stored orderCapacity_powerOfTwo h.orders h.card_lt he
  refine ⟨m, hrun, hvalid, ?_⟩
  exact (Multiset.cons_inj_right e).1 (hcons.symm.trans hentries)

/-- A ref of another order. -/
theorem ref_ne (h : BookInv b) {e : UInt64 × OrderEntry} {rest : Multiset (UInt64 × OrderEntry)}
    (hentries : b.entries = e ::ₘ rest) : ∀ d ∈ rest, d.1 ≠ e.1 :=
  LinearProbe.Probed.key_ne h.orders hentries

/-- A store through the pointer to a stored order. -/
theorem store_stored (h : BookInv b) {e : UInt64 × OrderEntry}
    {rest : Multiset (UInt64 × OrderEntry)} (hentries : b.entries = e ::ₘ rest) {i : ℕ}
    (hi : i < ORDER_CAPACITY.toNat) (hview : OrderMap.view b.orders.slots i = some e)
    (f : OrderEntry → OrderEntry) : Stores (b.orders.store i f) ((e.1, f e.2) ::ₘ rest) := by
  obtain ⟨hvalid, -, hcons⟩ := OrderMap.store_stored h.orders hi hview f
  refine ⟨hvalid, (Multiset.cons_inj_right e).1 (hcons.trans ?_)⟩
  change (e.1, f e.2) ::ₘ b.entries = _
  rw [hentries, Multiset.cons_swap]

/-- The common body of executions and cancels. -/
theorem take_effect (h : BookInv b) (op : BookOp) {ref : UInt64} {shares : UInt32}
    (hop : op.taking = some (ref, shares)) :
    ∃ b' entry, b.take ref shares = some (b', entry) ∧ Effect b op b' := by
  have htarget : op.target = some ref := by
    cases op <;> simp_all [BookOp.taking, BookOp.target]
  by_cases hstored : ∃ e ∈ b.entries, e.1 = ref
  · obtain ⟨e, he, rfl⟩ := hstored
    obtain ⟨rest, hentries⟩ := Multiset.exists_cons_of_mem he
    obtain ⟨i, hi, hfind, hview⟩ := h.find_stored he
    have hstored := h.store_stored hentries hi hview
      fun entry => { entry with shares := entry.shares - shares }
    by_cases hzero : e.2.shares - shares = 0
    · have hshares : shares = e.2.shares := (sub_eq_zero.1 hzero).symm
      -- the order leaves: `erase` runs on the map as stored
      obtain ⟨m, hrun, hvalid, hcons⟩ := OrderMap.erase_stored orderCapacity_powerOfTwo
        hstored.valid (e := (e.1, { e.2 with shares := e.2.shares - shares })) (by
          rw [hstored.entries_eq, Multiset.card_cons, ← Multiset.card_cons e, ← hentries]
          exact h.card_lt) (by
          rw [hstored.entries_eq]
          exact Multiset.mem_cons_self _ _)
      rw [hstored.entries_eq] at hcons
      refine ⟨_, some e.2, ?_, .removed (.inr (hshares ▸ hop)) hentries
        ⟨hvalid, ((Multiset.cons_inj_right _).1 hcons).symm⟩⟩
      rw [OrderBook.take, hfind]
      simp only [Option.bind_eq_bind, Option.bind_some, hzero, if_true]
      rw [hrun, hshares]
      rfl
    · refine ⟨_, some e.2, ?_, .reduced hop hzero hentries hstored⟩
      rw [OrderBook.take, hfind]
      simp [hzero]
  · push Not at hstored
    refine ⟨b, none, ?_, .unknown htarget hstored⟩
    rw [OrderBook.take, h.find_unknown hstored]
    rfl

/-- **Every call returns**, and does one of the things that `Effect` lists. -/
theorem run_effect (h : BookInv b) {op : BookOp} (hop : op.Allowed b) :
    ∃ b', op.run b = some b' ∧ Effect b op b' := by
  cases op with
  | add ref side price shares =>
    by_cases hrange : (b.sides side).levels.InRange price
    · obtain ⟨m, hrun, hvalid, hentries⟩ := OrderMap.insert_absent orderCapacity_powerOfTwo
        h.orders h.card_lt hop.1 price shares side
      refine ⟨_, ?_, .added hrange ⟨hvalid, hentries⟩⟩
      simp [BookOp.run, OrderBook.onAdd, hrange, hrun]
    · exact ⟨_, by simp [BookOp.run, OrderBook.onAdd, hrange], .dropped hrange⟩
  | execute ref executed =>
    -- the three handlers that take shares are one case, `take_effect`
    obtain ⟨b', entry, hrun, heffect⟩ := h.take_effect (.execute ref executed) rfl
    exact ⟨b', by simp [BookOp.run, OrderBook.onExecute, hrun], heffect⟩
  | executeWithPrice ref executed executionPrice =>
    obtain ⟨b', entry, hrun, heffect⟩ :=
      h.take_effect (.executeWithPrice ref executed executionPrice) rfl
    refine ⟨b', ?_, heffect⟩
    simp [BookOp.run, OrderBook.onExecuteWithPrice, OrderBook.onExecute, hrun]
  | cancel ref cancelled =>
    obtain ⟨b', entry, hrun, heffect⟩ := h.take_effect (.cancel ref cancelled) rfl
    exact ⟨b', by simp [BookOp.run, OrderBook.onCancel, hrun], heffect⟩
  | delete ref =>
    by_cases hstored : ∃ e ∈ b.entries, e.1 = ref
    · obtain ⟨e, he, rfl⟩ := hstored
      obtain ⟨rest, hentries⟩ := Multiset.exists_cons_of_mem he
      obtain ⟨i, -, hfind, -⟩ := h.find_stored he
      obtain ⟨m, hrun, hstores⟩ := h.erase_stored hentries
      refine ⟨_, ?_, .removed (.inl rfl) hentries hstores⟩
      simp [BookOp.run, OrderBook.onDelete, hfind, hrun, BookSide.without]
    · push Not at hstored
      refine ⟨b, ?_, .unknown rfl hstored⟩
      simp [BookOp.run, OrderBook.onDelete, h.find_unknown hstored]
  | replace oldRef newRef newPrice newShares =>
    by_cases hstored : ∃ e ∈ b.entries, e.1 = oldRef
    · obtain ⟨e, he, rfl⟩ := hstored
      obtain ⟨rest, hentries⟩ := Multiset.exists_cons_of_mem he
      obtain ⟨i, -, hfind, -⟩ := h.find_stored he
      obtain ⟨m, hrun, hstores⟩ := h.erase_stored hentries
      have hindex : (((b.sides e.2.side).reduce e.2.price e.2.shares).leave
          e.2.price).levels.InRange newPrice ↔ (b.sides e.2.side).levels.InRange newPrice := .rfl
      by_cases hrange : (b.sides e.2.side).levels.InRange newPrice
      · -- the old ref is erased, so the new one may repeat it
        have hnew : ∀ d ∈ m.entries ORDER_CAPACITY, d.1 ≠ newRef := by
          intro d hd hkey
          rw [hstores.entries_eq] at hd
          have hdb : d ∈ b.entries := hentries ▸ Multiset.mem_cons_of_mem hd
          exact h.ref_ne hentries d hd (hkey.trans (hop d hdb hkey))
        have hroom : (m.entries ORDER_CAPACITY).card < ORDER_CAPACITY.toNat := by
          have hcard := h.card_lt
          rw [hentries, Multiset.card_cons] at hcard
          rw [hstores.entries_eq]
          omega
        obtain ⟨m', hrun', hvalid', hentries'⟩ := OrderMap.insert_absent orderCapacity_powerOfTwo
          hstores.valid hroom hnew newPrice newShares e.2.side
        rw [hstores.entries_eq] at hentries'
        refine ⟨_, ?_, .replaced hrange hentries ⟨hvalid', hentries'⟩⟩
        simp [BookOp.run, OrderBook.onReplace, hfind, hrun, hindex, hrange, hrun',
          BookSide.without]
      · refine ⟨_, ?_, .lost hrange hentries hstores⟩
        simp [BookOp.run, OrderBook.onReplace, hfind, hrun, hindex, hrange, BookSide.without]
    · push Not at hstored
      refine ⟨b, ?_, .unknown rfl hstored⟩
      simp [BookOp.run, OrderBook.onReplace, h.find_unknown hstored]

/-! ### Steps and runs -/

/-- A change of the map and of one side. -/
theorem setSide (h : BookInv b) {side : Side} {s : BookSide} {m : OrderMap}
    {entries : Multiset (UInt64 × OrderEntry)} {drops : ℕ} (hm : Stores m entries)
    (hcard : entries.card < ORDER_CAPACITY.toNat) (hs : SideInv side entries s none)
    (hother : ∀ other ≠ side, SideInv other b.entries (b.sides other) none →
      SideInv other entries (b.sides other) none) :
    BookInv { b.setSide side s with orders := m, drops := drops } := by
  obtain ⟨hvalid, rfl⟩ := hm
  refine ⟨hvalid, hcard, fun other => ?_⟩
  rw [OrderBook.sides_setSide]
  split_ifs with heq
  · exact heq ▸ hs
  · exact hother other heq (h.sides other)

end BookInv

/-- **The step lemma**: what a call can do keeps the invariant. -/
theorem Effect.bookInv {b b' : OrderBook} {op : BookOp} (he : Effect b op b') (h : BookInv b)
    (hop : op.Allowed b) : BookInv b' := by
  have hcapacity : b.entries.card < 2 ^ 32 := h.card_lt.trans (UInt32.toNat_lt _)
  cases he with
  | dropped => exact ⟨h.orders, h.card_lt, h.sides⟩
  | unknown => exact h
  | @added ref side price shares m hrange hm =>
    refine h.setSide hm ?_ ?_ fun other hne hother => ?_
    · rw [Multiset.card_cons]
      exact hop.2
    · exact (h.sides side).join hcapacity rfl hrange
    · exact (SideInv.cons_other (Ne.symm hne)).2 hother
  | @reduced _ e rest shares m _ _ hentries hm =>
    have hside := h.sides e.2.side
    rw [hentries] at hside
    refine h.setSide hm ?_ ?_ fun other hne hother => ?_
    · rw [Multiset.card_cons, ← Multiset.card_cons e, ← hentries]
      exact h.card_lt
    · exact hside.reduce rfl shares rfl rfl rfl
    · rw [hentries] at hother
      refine (SideInv.cons_other ?_).2 ((SideInv.cons_other (Ne.symm hne)).1 hother)
      exact Ne.symm hne
  | @removed _ e rest m _ hentries hm | @lost _ _ _ e rest m _ hentries hm =>
    have hside := h.sides e.2.side
    rw [hentries] at hside
    have hcard : rest.card < b.entries.card := by
      rw [hentries, Multiset.card_cons]
      exact Nat.lt_succ_self _
    refine h.setSide hm (hcard.trans h.card_lt) ?_ fun other hne hother => ?_
    · exact (hside.without rfl).settle (hcard.trans hcapacity)
    · rw [hentries] at hother
      exact (SideInv.cons_other (Ne.symm hne)).1 hother
  | @replaced newRef newPrice newShares e rest m hrange hentries hm =>
    have hside := h.sides e.2.side
    rw [hentries] at hside
    have hcard : rest.card < b.entries.card := by
      rw [hentries, Multiset.card_cons]
      exact Nat.lt_succ_self _
    have hcons : (((newRef, ⟨newPrice, newShares, e.2.side⟩) : UInt64 × OrderEntry) ::ₘ
        rest).card = b.entries.card := by
      rw [hentries, Multiset.card_cons, Multiset.card_cons]
    refine h.setSide hm (hcons ▸ h.card_lt) ?_ fun other hne hother => ?_
    · -- the old level's bit is settled last, after the new order has joined
      have hjoined := (hside.without rfl).join (e := (newRef, ⟨newPrice, newShares, e.2.side⟩))
        (hcard.trans hcapacity) rfl hrange
      refine SideInv.settle ?_ (hcons ▸ hcapacity)
      rwa [BookSide.indexOf_join]
    · rw [hentries] at hother
      refine (SideInv.cons_other ?_).2 ((SideInv.cons_other (Ne.symm hne)).1 hother)
      exact Ne.symm hne

variable {b : OrderBook}

/-- **The run lemma.** -/
theorem bookInv_of_reachable (hb : orderBook.ReachableWhen (fun b op => op.Allowed b) b) :
    BookInv b := by
  refine hb.invariant (fun b hinit => ?_) fun b op b' _ hop hrun h => ?_
  · obtain ⟨stockId, basePrice, rfl⟩ := hinit
    exact BookInv.init stockId basePrice
  · obtain ⟨b₁, hrun₁, heffect⟩ := h.run_effect hop
    obtain rfl : b₁ = b' := Option.some.inj (hrun₁.symm.trans hrun)
    exact heffect.bookInv h hop

/-- **The three structures agree**: on both sides every level has the count, and the shares mod
2^32, of the stored orders of its index, and its occupancy bit is set iff it has any. And every
further call returns. -/
theorem levels_match_orders (hb : orderBook.ReachableWhen (fun b op => op.Allowed b) b) :
    (∀ side i,
      ((b.sides side).levels.levels i).orderCount.toNat =
          ((b.sides side).levels.held b.entries side i).card ∧
        ((b.sides side).levels.levels i).totalShares.toNat =
          (((b.sides side).levels.held b.entries side i).map
            fun e => e.2.shares.toNat).sum % 2 ^ 32 ∧
        ((b.sides side).levels.occupied.test i = true ↔
          0 < ((b.sides side).levels.levels i).orderCount.toNat)) ∧
      ∀ op : BookOp, op.Allowed b → (op.run b).isSome := by
  have h := bookInv_of_reachable hb
  refine ⟨fun side i => ?_, fun op hop => ?_⟩
  · have hcount : ((b.sides side).levels.levels i).orderCount.toNat =
        ((b.sides side).levels.held b.entries side i).card := by
      rw [(h.sides side).tallied, tally, UInt32.toNat_ofNat', Nat.mod_eq_of_lt]
      exact card_held_le.trans_lt (h.card_lt.trans (UInt32.toNat_lt _))
    refine ⟨hcount, ?_, ?_⟩
    · rw [(h.sides side).tallied, tally, UInt32.toNat_ofNat']
    · rw [(h.sides side).marked, hcount, Multiset.card_pos]
      simp
  · obtain ⟨b', hrun, -⟩ := h.run_effect hop
    rw [hrun]
    rfl

/-! ### Runs on given calls -/

/-- `find` does not find the new ref of a call. -/
def BookOp.Fresh (b : OrderBook) : BookOp → Prop
  | .add ref _ _ _ => b.find ref = some none
  | .replace _ newRef _ _ => b.find newRef = some none
  | _ => True

instance (b : OrderBook) : (op : BookOp) → Decidable (op.Fresh b)
  | .add .. | .replace .. => inferInstanceAs (Decidable (_ = _))
  | .execute .. | .executeWithPrice .. | .cancel .. | .delete .. => instDecidableTrue

/-- What `find` does not find is not stored. -/
theorem BookInv.allowed_of_fresh (h : BookInv b) (hroom : b.entries.card + 1 < ORDER_CAPACITY.toNat)
    {op : BookOp} (hfresh : op.Fresh b) : op.Allowed b := by
  have habsent : ∀ ref, b.find ref = some none → ∀ e ∈ b.entries, e.1 ≠ ref := by
    rintro ref hfind e he rfl
    obtain ⟨i, -, hfound, -⟩ := h.find_stored he
    rw [hfind] at hfound
    cases hfound
  cases op with
  | add ref side price shares => exact ⟨habsent ref hfresh, hroom⟩
  | replace oldRef newRef newPrice newShares =>
    exact fun e he heq => absurd heq (habsent newRef hfresh e he)
  | execute | executeWithPrice | cancel | delete => trivial

/-- A call stores at most one more order. -/
theorem Effect.card_le {b' : OrderBook} {op : BookOp} (he : Effect b op b') :
    b'.entries.card ≤ b.entries.card + 1 := by
  cases he with
  | dropped | unknown => exact Nat.le_succ _
  | added hrange hm => exact (congrArg Multiset.card hm.entries_eq).le.trans (by simp)
  | reduced _ _ hentries hm | replaced _ hentries hm =>
    refine (congrArg Multiset.card hm.entries_eq).le.trans ?_
    rw [hentries]
    simp
  | removed _ hentries hm | lost _ hentries hm =>
    refine (congrArg Multiset.card hm.entries_eq).le.trans ?_
    rw [hentries, Multiset.card_cons]
    omega

/-- A run of a book whose calls pass a check that the book can be asked for. -/
theorem reachable_of_execWhen {M : Machine OrderBook BookOp} (hM : M.step = BookOp.run)
    {check cond : OrderBook → BookOp → Prop} [∀ b op, Decidable (check b op)]
    (hcheck : ∀ b op, BookInv b → b.entries.card + 1 < ORDER_CAPACITY.toNat → check b op →
      op.Allowed b ∧ cond b op) (ops : List BookOp) {b b' : OrderBook} (hinv : BookInv b)
    (hb : M.ReachableWhen cond b)
    (hroom : b.entries.card + ops.length < ORDER_CAPACITY.toNat)
    (hrun : M.execWhen check b ops = some b') : M.ReachableWhen cond b' := by
  induction ops generalizing b with
  | nil => exact Option.some.inj hrun ▸ hb
  | cons op ops ih =>
    rw [Machine.execWhen, List.foldlM_cons, Option.bind_eq_bind, Option.bind_eq_some_iff] at hrun
    obtain ⟨b₁, hop, hrun⟩ := hrun
    rw [List.length_cons] at hroom
    split_ifs at hop with hchecked
    obtain ⟨hallowed, hcond⟩ := hcheck b op hinv (by omega) hchecked
    obtain ⟨b₂, hrun₂, heffect⟩ := hinv.run_effect hallowed
    have hsame : b₂ = b₁ := by
      rw [hM] at hop
      exact Option.some.inj (hrun₂.symm.trans hop)
    subst hsame
    have hcard := heffect.card_le
    exact ih (heffect.bookInv hinv hallowed) (.step hb hcond hop) (by omega) hrun

theorem BookInv.room_init {stockId : UInt64} {basePrice : UInt32} {n : ℕ} (hn : n < 1048576) :
    (OrderBook.init stockId basePrice).entries.card + n < ORDER_CAPACITY.toNat := by
  have hentries : (OrderBook.init stockId basePrice).entries = 0 := OrderMap.entries_empty _
  rw [hentries, toNat_orderCapacity, Multiset.card_zero, zero_add]
  exact hn

/-- An order of 100 shares, of which 60 are executed, and a replacement within its level. -/
theorem levels_match_orders_replaced :
    ∃ b : OrderBook,
      orderBook.exec (.init 1 999900)
          [.add 1 .buy 1000000 100, .execute 1 60, .replace 1 2 1000050 30] = some b ∧
        ((b.sides .buy).levels.held b.entries .buy 1).card = 1 ∧
        (((b.sides .buy).levels.held b.entries .buy 1).map
          fun e => e.2.shares.toNat).sum % 2 ^ 32 = 30 := by
  have hread : ((orderBook.execWhen (fun b op => op.Fresh b) (.init 1 999900)
      [.add 1 .buy 1000000 100, .execute 1 60, .replace 1 2 1000050 30]).map
        fun b => (b.sides .buy).levels.levels 1) = some ⟨30, 1⟩ := by
    decide +kernel
  obtain ⟨b, hrun, hlevel⟩ := Option.map_eq_some_iff.1 hread
  have hreachable : orderBook.ReachableWhen (fun b op => op.Allowed b) b :=
    reachable_of_execWhen rfl (fun b op hinv hroom hfresh =>
      ⟨hinv.allowed_of_fresh hroom hfresh, hinv.allowed_of_fresh hroom hfresh⟩) _
      (BookInv.init 1 999900) (.init ⟨1, 999900, rfl⟩) (BookInv.room_init (by decide)) hrun
  obtain ⟨hcount, htotal, -⟩ := (levels_match_orders hreachable).1 .buy 1
  rw [hlevel] at hcount htotal
  exact ⟨b, Machine.exec_of_execWhen _ hrun, hcount.symm, htotal.symm⟩

end Core

end LowLatencyPipeline
