import LowLatencyPipeline.Core.Depth

/-!
# Replace is delete and add

`on_replace` adds the new order before it looks whether the old level is empty; `on_delete` and
`on_add` one after the other settle that level first. In whole cents a side of the book is a
function of its orders and its base price (`PennySide.unique`): both ways keep `PennySide` and end
with the same orders, so they end in the same side, whichever levels fill and drain on the way.

Nothing is asked of the order refs: they may repeat, and the map may be full, as long as the calls
return. The entries of the map follow its calls without the invariant of `BookInvariant`.
-/

namespace LowLatencyPipeline

namespace Core

open PriceLevelArray BookSide

/-! ### A side in whole cents -/

/-- The prices of a side's orders, and that of an order that left a level not yet checked. -/
def Shown (entries : Multiset (UInt64 × OrderEntry)) (side : Side) (gone : Option UInt32)
    (p : UInt32) : Prop :=
  Quotes entries side p ∨ gone = some p

/-- **The invariant of a side in whole cents.** `gone` is the price of the order that left, until
`settle` looks at its level. -/
structure PennySide (side : Side) (entries : Multiset (UInt64 × OrderEntry)) (gone : Option UInt32)
    (b : BookSide) : Prop where
  inv : SideInv side entries b (gone.map b.levels.indexOf)
  inRange : ∀ p, gone = some p → b.levels.InRange p
  window : Window side (Shown entries side gone) b
  top : Top side (Shown entries side gone) b
  base : Penny b.levels.basePrice
  shown : ∀ p, Shown entries side gone p → Penny p
  best : b.best = emptyBest side ∨ Penny b.best

namespace PennySide

variable {side : Side} {entries : Multiset (UInt64 × OrderEntry)} {gone : Option UInt32}
  {b : BookSide} {e : UInt64 × OrderEntry}

theorem init (side : Side) {basePrice : UInt32} (hbase : basePrice.toNat ≤ FEED_PRICE_MAX) :
    PennySide side 0 none (.init side basePrice) := by
  have hno : ∀ p, ¬Shown 0 side none p := by
    rintro p (hp | hp)
    · exact quotes_zero hp
    · cases hp
  have hdiv := Nat.div_mul_le_self basePrice.toNat 100
  have hnat : (BookSide.init side basePrice).levels.basePrice.toNat =
      basePrice.toNat / 100 * 100 := by
    change (basePrice / PRICE_TICK * PRICE_TICK).toNat = _
    rw [UInt32.toNat_mul, UInt32.toNat_div, show PRICE_TICK.toNat = 100 from rfl,
      Nat.mod_eq_of_lt (hdiv.trans_lt (UInt32.toNat_lt _))]
  exact {
    inv := .init side basePrice
    inRange := fun p hp => by cases hp
    window := ⟨hnat ▸ hdiv.trans hbase, fun p hp => absurd hp (hno p),
      fun p hp => absurd hp (hno p), fun p hp => absurd hp (hno p)⟩
    top := .none hno rfl
    base := by rw [Penny, hnat, Nat.mul_mod_left]
    shown := fun p hp => absurd hp (hno p)
    best := .inl rfl }

/-- What is shown depends on the prices of the side's orders only. -/
theorem congr (h : PennySide side entries gone b) {entries' : Multiset (UInt64 × OrderEntry)}
    {gone' : Option UInt32} {c : BookSide}
    (hinv : SideInv side entries' c (gone'.map c.levels.indexOf))
    (hshown : ∀ p, Shown entries' side gone' p ↔ Shown entries side gone p)
    (hrange : ∀ p, gone' = some p → c.levels.InRange p)
    (hbest : c.best = b.best) (hbase : c.levels.basePrice = b.levels.basePrice) :
    PennySide side entries' gone' c where
  inv := hinv
  inRange := hrange
  window := h.window.mono hbase fun p hp => .inl ((hshown p).1 hp)
  top := (h.top.of_eq hbest hbase).congr fun p => (hshown p).symm
  base := hbase ▸ h.base
  shown p hp := h.shown p ((hshown p).1 hp)
  best := hbest ▸ h.best

/-- Orders of the other side do not matter. -/
theorem cons_other (hside : e.2.side ≠ side) :
    PennySide side (e ::ₘ entries) gone b ↔ PennySide side entries gone b := by
  have hshown : ∀ p, Shown (e ::ₘ entries) side gone p ↔ Shown entries side gone p :=
    fun p => or_congr_left (quotes_cons_other hside)
  constructor
  · intro h
    exact h.congr ((SideInv.cons_other hside).1 h.inv) (fun p => (hshown p).symm) h.inRange rfl rfl
  · intro h
    exact h.congr ((SideInv.cons_other hside).2 h.inv) hshown h.inRange rfl rfl

/-- Shares leave an order and its level. -/
theorem reduce (h : PennySide side (e ::ₘ entries) none b) (hside : e.2.side = side)
    (shares : UInt32) {e' : UInt64 × OrderEntry} (hside' : e'.2.side = side)
    (hprice' : e'.2.price = e.2.price) (hshares' : e'.2.shares = e.2.shares - shares) :
    PennySide side (e' ::ₘ entries) none (b.reduce e.2.price shares) := by
  refine h.congr (h.inv.reduce hside shares hside' hprice' hshares') (fun p => ?_)
    (fun p hp => by cases hp) rfl rfl
  exact or_congr_left (quotes_exchange (hside'.trans hside.symm) hprice')

/-- An order leaves, its level not yet checked. -/
theorem without (h : PennySide side (e ::ₘ entries) none b) (hside : e.2.side = side) :
    PennySide side entries (some e.2.price) (b.without e.2) := by
  refine h.congr (h.inv.without hside) (fun p => ?_) (fun p hp => ?_) rfl rfl
  · simp only [Shown, quotes_cons hside, Option.some.injEq, reduceCtorEq, or_false, eq_comm]
  · cases hp
    exact h.inv.inRange e (Multiset.mem_cons_self e _) hside

/-- An order joins its level. -/
theorem join (h : PennySide side entries gone b) (hcard : entries.card < 2 ^ 32)
    (hside : e.2.side = side) (hrange : b.levels.InRange e.2.price) (hpos : 0 < e.2.price.toNat)
    (hmax : e.2.price.toNat ≤ FEED_PRICE_MAX) (hpenny : Penny e.2.price) :
    PennySide side (e ::ₘ entries) gone (b.join side e.2.price e.2.shares) := by
  have hle := hrange.base_le levelCount_le h.window.base_le hmax
  have hshown : ∀ p, Shown (e ::ₘ entries) side gone p ↔ Shown entries side gone p ∨
      p = e.2.price := by
    intro p
    rw [Shown, quotes_cons hside, or_right_comm]
    rfl
  refine ⟨?_, fun p hp => ?_, ?_, ?_, ?_, fun p hp => ?_, ?_⟩
  · rw [indexOf_join]
    exact h.inv.join hcard hside hrange
  · rw [PriceLevelArray.InRange, indexOf_join]
    exact h.inRange p hp
  · refine h.window.mono basePrice_join fun p hp => ?_
    rcases (hshown p).1 hp with hp | rfl
    · exact .inl hp
    · exact .inr ⟨hle, hpos, hmax⟩
  · exact (h.top.join hle h.window hpos hmax).congr fun p => (hshown p).symm
  · rw [basePrice_join]
    exact h.base
  · rcases (hshown p).1 hp with hp | rfl
    · exact h.shown p hp
    · exact hpenny
  · change (if better side e.2.price b.best then e.2.price else b.best) = _ ∨ Penny (ite _ _ _)
    split_ifs
    · exact .inr hpenny
    · exact h.best

/-- In whole cents the level left is that of the price shown if no order at another one is as
good. -/
theorem seen {price : UInt32} (h : PennySide side entries (some price) b) :
    Top.Seen side (Quotes entries side) b price := by
  have hgone : Shown entries side (some price) price := .inr rfl
  intro hall
  refine ⟨?_, fun ⟨q, hq⟩ => ⟨q, hq, ?_⟩⟩
  · cases h.top with
    | none hnone => exact absurd hgone (hnone price)
    | @some p hp hindex hle hne hno =>
      have hprice : p = price := by
        rcases hp with hp | hp
        · exact absurd (hall p hp) (hno price hgone)
        · exact (Option.some.inj hp).symm
      subst hprice
      exact (eq_of_indexOf_eq h.base (h.best.resolve_left hne) (h.shown p hgone) hle
        (h.window.le_price p hgone) hindex).symm
  · obtain ⟨d, hd, hside, rfl⟩ := hq
    have hq : Shown entries side (some price) d.2.price := .inl ⟨d, hd, hside, rfl⟩
    rw [priceOf_indexOf levelCount_le h.base h.window.base_le (h.shown _ hq)
      (h.window.le_price _ hq) (h.inv.inRange d hd hside)]
    exact Top.ne_emptyBest (h.window.pos _ hq) (h.window.price_le _ hq)

/-- The check at the end of a handler. -/
theorem settle {price : UInt32} (h : PennySide side entries (some price) b)
    (hcard : entries.card < 2 ^ 32) : PennySide side entries none (b.settle side price) := by
  have hshown : ∀ p, Shown entries side none p ↔ Quotes entries side p :=
    fun p => or_iff_left fun hp => by cases hp
  have hsub : ∀ p, Shown entries side none p → Shown entries side (some price) p :=
    fun p hp => .inl ((hshown p).1 hp)
  have hrange := h.inRange price rfl
  refine ⟨h.inv.settle hcard, fun p hp => ?_, ?_, ?_, ?_, fun p hp => h.shown p (hsub p hp), ?_⟩
  · cases hp
  · exact h.window.mono basePrice_settle fun p hp => .inl (hsub p hp)
  · have hwindow : Window side (Quotes entries side) b :=
      h.window.mono rfl fun p hp => .inl (.inl hp)
    have htop : Top side (fun p => Quotes entries side p ∨ p = price) b :=
      h.top.congr fun p => by rw [Shown, Option.some.injEq, eq_comm (a := price)]
    exact (Top.settle h.inv hcard hrange hwindow htop h.seen).congr fun p => (hshown p).symm
  · rw [basePrice_settle]
    exact h.base
  · rcases best_settle h.inv.valid h.window.base_le hrange with heq | heq | ⟨i, hi, heq⟩
    · rw [heq]
      exact h.best
    · exact .inl heq
    · rw [heq]
      exact .inr (penny_priceOf levelCount_le h.base h.window.base_le hi)

/-- The best price is the sentinel of an empty side, or the best price of the orders. -/
theorem best_cases (h : PennySide side entries none b) :
    (∀ p, ¬Quotes entries side p) ∧ b.best = emptyBest side ∨
      Quotes entries side b.best ∧ ∀ q, Quotes entries side q → ¬better side q b.best := by
  cases h.top with
  | none hnone heq => exact .inl ⟨fun p hp => hnone p (.inl hp), heq⟩
  | @some p hp hindex hle hne hno =>
    have heq : b.best = p := eq_of_indexOf_eq h.base (h.best.resolve_left hne) (h.shown p hp) hle
      (h.window.le_price p hp) hindex
    subst heq
    refine .inr ⟨hp.resolve_right (by simp), fun q hq hbetter => hno q (.inl hq) ?_⟩
    exact (better_iff_indexOf h.base (h.shown q (.inl hq)) (h.shown _ hp)
      (h.window.le_price q (.inl hq)) hle).2 hbetter

/-- **A side is a function of its orders and its base price.** -/
theorem unique {c : BookSide} (hb : PennySide side entries none b)
    (hc : PennySide side entries none c) (hbase : b.levels.basePrice = c.levels.basePrice) :
    b = c := by
  have hindex : b.levels.indexOf = c.levels.indexOf := by
    funext p
    rw [indexOf, indexOf, hbase]
  have hheld : b.levels.held entries side = c.levels.held entries side := by
    funext i
    rw [held, held, hindex]
  have hlevels : b.levels.levels = c.levels.levels := by
    funext i
    rw [hb.inv.tallied, hc.inv.tallied, hheld]
  have hoccupied : b.levels.occupied = c.levels.occupied := by
    refine hb.inv.valid.eq_of_test hc.inv.valid fun i => Bool.eq_iff_iff.2 ?_
    rw [hb.inv.marked, hc.inv.marked, hheld]
    rfl
  have hbest : b.best = c.best := by
    rcases hb.best_cases with ⟨hnone, heq⟩ | ⟨hquote, hno⟩ <;>
      rcases hc.best_cases with ⟨hnone', heq'⟩ | ⟨hquote', hno'⟩
    · exact heq.trans heq'.symm
    · exact absurd hquote' (hnone _)
    · exact absurd hquote (hnone' _)
    · -- neither best price is better than the other one
      have hbc := hno' _ hquote
      have hcb := hno _ hquote'
      refine UInt32.toNat_inj.1 ?_
      cases side <;> simp only [better, UInt32.lt_iff_toNat_lt] at hbc hcb <;> omega
  obtain ⟨⟨_, _, _⟩, _⟩ := b
  obtain ⟨⟨_, _, _⟩, _⟩ := c
  simp only at hbase hlevels hoccupied hbest
  rw [hbase, hlevels, hoccupied, hbest]

end PennySide

/-! ### The book -/

/-- No map holds as many orders as a level can count. -/
theorem card_entries_lt (m : OrderMap) : (m.entries ORDER_CAPACITY).card < 2 ^ 32 :=
  LinearProbe.card_content_le.trans_lt (UInt32.toNat_lt _)

/-- Both sides in whole cents. -/
def PennyBook (b : OrderBook) : Prop :=
  ∀ side, PennySide side b.entries none (b.sides side)

/-- A price of the feed in whole cents. -/
def PennyPrice (p : UInt32) : Prop := 0 < p.toNat ∧ p.toNat ≤ FEED_PRICE_MAX ∧ Penny p

instance (p : UInt32) : Decidable (PennyPrice p) := inferInstanceAs (Decidable (_ ∧ _ ∧ _))

/-- The price of a call, if it has one, is a price of the feed in whole cents. -/
def BookOp.PennyPriced : BookOp → Prop
  | .add _ _ price _ | .replace _ _ price _ => PennyPrice price
  | _ => True

instance : (op : BookOp) → Decidable op.PennyPriced
  | .add .. | .replace .. => inferInstanceAs (Decidable (PennyPrice _))
  | .execute .. | .executeWithPrice .. | .cancel .. | .delete .. => instDecidableTrue

namespace PennyBook

variable {b : OrderBook} {ref : UInt64} {i : ℕ} {entry : OrderEntry}

theorem init (stockId : UInt64) {basePrice : UInt32} (hbase : basePrice.toNat ≤ FEED_PRICE_MAX) :
    PennyBook (.init stockId basePrice) := by
  have hentries : (OrderBook.init stockId basePrice).entries = 0 := OrderMap.entries_empty _
  intro side
  rw [hentries]
  exact .init side hbase

/-- A change of the map and of one side. -/
theorem setSide (h : PennyBook b) {side : Side} {s : BookSide} {m : OrderMap} {drops : ℕ}
    (hs : PennySide side (m.entries ORDER_CAPACITY) none s)
    (hother : ∀ other ≠ side, PennySide other b.entries none (b.sides other) →
      PennySide other (m.entries ORDER_CAPACITY) none (b.sides other)) :
    PennyBook { b.setSide side s with orders := m, drops := drops } := by
  intro other
  rw [OrderBook.sides_setSide]
  split_ifs with heq
  · exact heq ▸ hs
  · exact hother other heq (h other)

end PennyBook

/-- What `find` returns is a stored order, whatever the map. -/
theorem OrderBook.find_inv {b : OrderBook} {ref : UInt64} {i : ℕ} {entry : OrderEntry}
    (hfind : b.find ref = some (some (i, entry))) :
    b.orders.find ORDER_CAPACITY orderHash ref = some (some i) ∧
      (b.orders.slots i).entry = entry := by
  rw [OrderBook.find, Option.bind_eq_bind, Option.bind_eq_some_iff] at hfind
  obtain ⟨found, hfound, hentry⟩ := hfind
  obtain ⟨j, rfl, hj⟩ := Option.map_eq_some_iff.1 (Option.some.inj hentry)
  obtain ⟨rfl, rfl⟩ := Prod.mk.inj hj
  exact ⟨hfound, rfl⟩

section Handlers

variable {b b' : OrderBook} {ref : UInt64} {i : ℕ} {entry : OrderEntry} {m : OrderMap}

/-! The handlers, as equations. -/

theorem onDelete_found (hfind : b.find ref = some (some (i, entry))) :
    b.onDelete ref = (b.orders.erase ORDER_CAPACITY orderHash ref).bind fun m =>
      some { b.setSide entry.side (((b.sides entry.side).without entry).settle entry.side
        entry.price) with orders := m } := by
  rw [OrderBook.onDelete, hfind]
  rfl

theorem onReplace_found (hfind : b.find ref = some (some (i, entry))) (newRef : UInt64)
    (newPrice newShares : UInt32) :
    b.onReplace ref newRef newPrice newShares =
      (b.orders.erase ORDER_CAPACITY orderHash ref).bind fun m =>
        if (b.sides entry.side).levels.InRange newPrice then
          (m.insert ORDER_CAPACITY orderHash newRef newPrice newShares entry.side).bind fun m =>
            some { b.setSide entry.side ((((b.sides entry.side).without entry).join entry.side
              newPrice newShares).settle entry.side entry.price) with orders := m }
        else some { b.setSide entry.side
          (((b.sides entry.side).without entry).settle entry.side entry.price) with
            orders := m, drops := b.drops + 1 } := by
  rw [OrderBook.onReplace, hfind]
  rfl

theorem onAdd_eq (b : OrderBook) (ref : UInt64) (side : Side) (price shares : UInt32) :
    b.onAdd ref side price shares =
      if (b.sides side).levels.InRange price then
        (b.orders.insert ORDER_CAPACITY orderHash ref price shares side).bind fun m =>
          some { b.setSide side ((b.sides side).join side price shares) with orders := m }
      else some { b with drops := b.drops + 1 } := by
  rw [OrderBook.onAdd]
  split_ifs <;> rfl

/-- A side changed twice. -/
theorem setSide_setSide (b : OrderBook) (side : Side) (s t : BookSide) (m m' : OrderMap) :
    ({ ({ b.setSide side s with orders := m } : OrderBook).setSide side t with orders := m' } :
      OrderBook) = { b.setSide side t with orders := m' } := by
  simp only [OrderBook.setSide, Function.update_idem]

/-- The order that `erase` takes. -/
theorem entries_erased (hfind : b.find ref = some (some (i, entry)))
    (herase : b.orders.erase ORDER_CAPACITY orderHash ref = some m) :
    b.entries = (ref, entry) ::ₘ m.entries ORDER_CAPACITY := by
  obtain ⟨hslot, rfl⟩ := OrderBook.find_inv hfind
  exact OrderMap.entries_of_erase orderCapacity_powerOfTwo hslot herase

/-- The order that a store through the pointer exchanges. -/
theorem entries_stored (hfind : b.find ref = some (some (i, entry)))
    (f : OrderEntry → OrderEntry) :
    ∃ rest, b.entries = (ref, entry) ::ₘ rest ∧
      (b.orders.store i f).entries ORDER_CAPACITY = (ref, f entry) ::ₘ rest := by
  obtain ⟨hslot, rfl⟩ := OrderBook.find_inv hfind
  obtain ⟨hi, hview⟩ := OrderMap.view_of_find orderCapacity_powerOfTwo hslot
  obtain ⟨rest, hrest⟩ := Multiset.exists_cons_of_mem (OrderMap.mem_entries hi hview)
  have hstored := OrderMap.entries_of_store orderCapacity_powerOfTwo hslot f
  rw [hrest, Multiset.cons_swap] at hstored
  exact ⟨rest, hrest, (Multiset.cons_inj_right _).1 hstored⟩

namespace PennyBook

/-- A side without the order that `erase` took. -/
theorem without (h : PennyBook b)
    (hentries : b.entries = (ref, entry) ::ₘ m.entries ORDER_CAPACITY) :
    PennySide entry.side (m.entries ORDER_CAPACITY) (some entry.price)
      ((b.sides entry.side).without entry) := by
  have hside := h entry.side
  rw [hentries] at hside
  exact hside.without rfl

/-- An order leaves the book. -/
theorem removed (h : PennyBook b)
    (hentries : b.entries = (ref, entry) ::ₘ m.entries ORDER_CAPACITY) (drops : ℕ) :
    PennyBook { b.setSide entry.side
      (((b.sides entry.side).without entry).settle entry.side entry.price) with
        orders := m, drops := drops } := by
  refine h.setSide ((h.without hentries).settle (card_entries_lt m)) fun other hne hother => ?_
  rw [hentries] at hother
  exact (PennySide.cons_other (Ne.symm hne)).1 hother

/-- The step of `on_add`. -/
theorem onAdd (h : PennyBook b) {side : Side} {price shares : UInt32} (hprice : PennyPrice price)
    (hrun : b.onAdd ref side price shares = some b') : PennyBook b' := by
  rw [OrderBook.onAdd] at hrun
  split_ifs at hrun with hrange
  · rw [Option.bind_eq_bind, Option.bind_eq_some_iff] at hrun
    obtain ⟨m, hinsert, hb'⟩ := hrun
    obtain rfl := Option.some.inj hb'
    have hentries := OrderMap.entries_of_insert orderCapacity_powerOfTwo hinsert
    refine h.setSide ?_ fun other hne hother => ?_ <;> rw [hentries]
    · exact (h side).join (card_entries_lt b.orders) rfl hrange hprice.1 hprice.2.1 hprice.2.2
    · exact (PennySide.cons_other (Ne.symm hne)).2 hother
  · obtain rfl := Option.some.inj hrun
    exact h

/-- The step of executions and cancels. -/
theorem take (h : PennyBook b) {shares : UInt32} {taken : Option OrderEntry}
    (hrun : b.take ref shares = some (b', taken)) : PennyBook b' := by
  rw [OrderBook.take, Option.bind_eq_bind, Option.bind_eq_some_iff] at hrun
  obtain ⟨_ | ⟨i, entry⟩, hfind, hrun⟩ := hrun
  · obtain ⟨rfl, -⟩ := Prod.mk.inj (Option.some.inj hrun)
    exact h
  · obtain ⟨rest, hentries, hstored⟩ :=
      entries_stored hfind fun entry => { entry with shares := entry.shares - shares }
    dsimp only at hrun
    split_ifs at hrun with hzero
    · -- the order leaves with all its shares
      rw [Option.bind_eq_bind, Option.bind_eq_some_iff] at hrun
      obtain ⟨m, herase, hb'⟩ := hrun
      obtain ⟨rfl, -⟩ := Prod.mk.inj (Option.some.inj hb')
      obtain rfl : entry.shares = shares := sub_eq_zero.1 hzero
      obtain ⟨hslot, hentry⟩ := OrderBook.find_inv hfind
      rw [← OrderMap.find_store] at hslot
      have herased := OrderMap.entries_of_erase orderCapacity_powerOfTwo hslot herase
      rw [OrderMap.entry_store, hentry, hstored] at herased
      obtain rfl := (Multiset.cons_inj_right _).1 herased
      exact h.removed hentries b.drops
    · obtain ⟨rfl, -⟩ := Prod.mk.inj (Option.some.inj hrun)
      refine h.setSide ?_ fun other hne hother => ?_ <;> rw [hstored]
      · have hside := h entry.side
        rw [hentries] at hside
        exact hside.reduce rfl shares rfl rfl rfl
      · rw [hentries] at hother
        exact (PennySide.cons_other (Ne.symm hne)).2
          ((PennySide.cons_other (Ne.symm hne)).1 hother)

theorem onExecute (h : PennyBook b) {executed : UInt32} {trade : Trade}
    (hrun : b.onExecute ref executed = some (b', trade)) : PennyBook b' := by
  rw [OrderBook.onExecute, Option.bind_eq_bind, Option.bind_eq_some_iff] at hrun
  obtain ⟨⟨b₁, taken⟩, htake, hb'⟩ := hrun
  obtain ⟨rfl, -⟩ := Prod.mk.inj (Option.some.inj hb')
  exact h.take htake

/-- The step of `on_delete`. -/
theorem onDelete (h : PennyBook b) (hrun : b.onDelete ref = some b') : PennyBook b' := by
  rw [OrderBook.onDelete, Option.bind_eq_bind, Option.bind_eq_some_iff] at hrun
  obtain ⟨_ | ⟨i, entry⟩, hfind, hrun⟩ := hrun
  · exact Option.some.inj hrun ▸ h
  · dsimp only at hrun
    rw [Option.bind_eq_bind, Option.bind_eq_some_iff] at hrun
    obtain ⟨m, herase, hb'⟩ := hrun
    obtain rfl := Option.some.inj hb'
    exact h.removed (entries_erased hfind herase) b.drops

end PennyBook

/-- **The two ways meet**: the side after a replacement has the orders of the side after the
deletion and the addition, so it is that side. -/
theorem PennyBook.replace_side (h : PennyBook b)
    (hentries : b.entries = (ref, entry) ::ₘ m.entries ORDER_CAPACITY) {newPrice : UInt32}
    (hprice : PennyPrice newPrice) (hrange : (b.sides entry.side).levels.InRange newPrice)
    (newShares : UInt32) :
    (((b.sides entry.side).without entry).join entry.side newPrice newShares).settle entry.side
        entry.price =
      (((b.sides entry.side).without entry).settle entry.side entry.price).join entry.side newPrice
        newShares := by
  have hcard : (m.entries ORDER_CAPACITY).card + 1 < 2 ^ 32 := by
    rw [← Multiset.card_cons (ref, entry), ← hentries]
    exact card_entries_lt b.orders
  have hwithout := h.without hentries
  have hsettled := hwithout.settle (card_entries_lt m)
  have hrange' : (((b.sides entry.side).without entry).settle entry.side
      entry.price).levels.InRange newPrice := by
    rw [PriceLevelArray.InRange, indexOf, basePrice_settle]
    exact hrange
  -- the ref of the new order is no part of a side
  have hreplaced := hwithout.join (e := (ref, ⟨newPrice, newShares, entry.side⟩))
    (card_entries_lt m) rfl hrange hprice.1 hprice.2.1 hprice.2.2
  have hadded := hsettled.join (e := (ref, ⟨newPrice, newShares, entry.side⟩))
    (card_entries_lt m) rfl hrange' hprice.1 hprice.2.1 hprice.2.2
  refine (hreplaced.settle (by rwa [Multiset.card_cons])).unique hadded ?_
  rw [basePrice_settle, basePrice_join, basePrice_join, basePrice_settle]

/-- `on_replace` of a stored order. -/
theorem PennyBook.onReplace_eq (h : PennyBook b) (hfind : b.find ref = some (some (i, entry)))
    {newPrice : UInt32} (hprice : PennyPrice newPrice) (newRef : UInt64) (newShares : UInt32) :
    b.onReplace ref newRef newPrice newShares =
      (b.onDelete ref).bind fun b => b.onAdd newRef entry.side newPrice newShares := by
  rw [onReplace_found hfind, onDelete_found hfind, Option.bind_assoc]
  refine Option.bind_congr fun m herase => ?_
  have hside := h.replace_side (entries_erased hfind herase) hprice
  have hbase : (((b.sides entry.side).without entry).settle entry.side
      entry.price).levels.basePrice = (b.sides entry.side).levels.basePrice := basePrice_settle
  generalize ((b.sides entry.side).without entry).settle entry.side entry.price = s at *
  have hleft : ({ b.setSide entry.side s with orders := m } : OrderBook).sides entry.side = s :=
    Function.update_self _ _ _
  have hsame : s.levels.InRange newPrice ↔ (b.sides entry.side).levels.InRange newPrice := by
    rw [PriceLevelArray.InRange, indexOf, hbase]
    rfl
  rw [Option.bind_some, onAdd_eq, hleft]
  by_cases hrange : (b.sides entry.side).levels.InRange newPrice
  · rw [if_pos hrange, if_pos (hsame.2 hrange), hside hrange]
    simp only [setSide_setSide]
  · rw [if_neg hrange, if_neg fun hin => hrange (hsame.1 hin)]
    rfl

/-- The step of `on_replace`. -/
theorem PennyBook.onReplace (h : PennyBook b) {newRef : UInt64} {newPrice newShares : UInt32}
    (hprice : PennyPrice newPrice) (hrun : b.onReplace ref newRef newPrice newShares = some b') :
    PennyBook b' := by
  cases hfind : b.find ref with
  | none =>
    rw [OrderBook.onReplace, hfind] at hrun
    cases hrun
  | some found =>
    rcases found with _ | ⟨i, entry⟩
    · rw [OrderBook.onReplace, hfind] at hrun
      exact Option.some.inj hrun ▸ h
    · rw [h.onReplace_eq hfind hprice, Option.bind_eq_some_iff] at hrun
      obtain ⟨left, hdelete, hadd⟩ := hrun
      exact (h.onDelete hdelete).onAdd hprice hadd

/-- **The step lemma**, for every call that returns. -/
theorem PennyBook.run (h : PennyBook b) {op : BookOp} (hop : op.PennyPriced)
    (hrun : op.run b = some b') : PennyBook b' := by
  cases op with
  | add ref side price shares => exact h.onAdd hop hrun
  | execute ref executed =>
    obtain ⟨⟨b₁, trade⟩, hexecute, rfl⟩ := Option.map_eq_some_iff.1 hrun
    exact h.onExecute hexecute
  | executeWithPrice ref executed executionPrice =>
    obtain ⟨⟨b₁, trade⟩, hexecute, rfl⟩ := Option.map_eq_some_iff.1 hrun
    rw [OrderBook.onExecuteWithPrice, Option.bind_eq_bind, Option.bind_eq_some_iff] at hexecute
    obtain ⟨⟨b₂, t⟩, htrade, hb⟩ := hexecute
    obtain ⟨rfl, -⟩ := Prod.mk.inj (Option.some.inj hb)
    exact h.onExecute htrade
  | cancel ref cancelled =>
    rw [BookOp.run, OrderBook.onCancel, Option.bind_eq_bind, Option.bind_eq_some_iff] at hrun
    obtain ⟨⟨b₂, taken⟩, htake, hb⟩ := hrun
    obtain rfl := Option.some.inj hb
    exact h.take htake
  | delete ref => exact h.onDelete hrun
  | replace oldRef newRef newPrice newShares => exact h.onReplace hop hrun

end Handlers

/-! ### Replace, and delete and add -/

variable {b : OrderBook} {cond : OrderBook → BookOp → Prop}

/-- **The run lemma.** -/
theorem pennyBook_of_reachable (hcond : ∀ b op, cond b op → op.PennyPriced)
    (hb : seededBook.ReachableWhen cond b) : PennyBook b := by
  refine hb.invariant (fun b hinit => ?_) fun b op b' _ hop hrun h => h.run (hcond b op hop) hrun
  obtain ⟨stockId, basePrice, hbase, rfl⟩ := hinit
  exact PennyBook.init stockId hbase

theorem bookInv_of_seeded (hcond : ∀ b op, cond b op → op.Allowed b)
    (hb : seededBook.ReachableWhen cond b) : BookInv b := by
  refine hb.invariant (fun b hinit => ?_) fun b op b' _ hop hrun h => ?_
  · obtain ⟨stockId, basePrice, -, rfl⟩ := hinit
    exact BookInv.init stockId basePrice
  · obtain ⟨b₁, hrun₁, heffect⟩ := h.run_effect (hcond b op hop)
    obtain rfl : b₁ = b' := Option.some.inj (hrun₁.symm.trans hrun)
    exact heffect.bookInv h (hcond b op hop)

/-- **Replace is delete and add**: in every book built from prices in whole cents, `on_replace` of
a stored order does what `on_delete` and `on_add` on its side do, to the levels, the bits, the best
prices, the slots of the map and the drops. It returns if the map has room and the new ref is not
stored, or is the old one. -/
theorem replace_eq_delete_add (hb : seededBook.ReachableWhen (fun _ op => op.PennyPriced) b)
    {oldRef : UInt64} {i : ℕ} {entry : OrderEntry}
    (hlive : b.find oldRef = some (some (i, entry))) {newPrice : UInt32}
    (hprice : PennyPrice newPrice) (newRef : UInt64) (newShares : UInt32) :
    b.onReplace oldRef newRef newPrice newShares =
        (b.onDelete oldRef).bind (fun b => b.onAdd newRef entry.side newPrice newShares) ∧
      (seededBook.ReachableWhen (fun b op => op.Allowed b ∧ op.PennyPriced) b →
        (∀ e ∈ b.entries, e.1 = newRef → newRef = oldRef) →
        (b.onReplace oldRef newRef newPrice newShares).isSome) := by
  refine ⟨(pennyBook_of_reachable (fun _ _ hop => hop) hb).onReplace_eq hlive hprice newRef
    newShares, fun hallowed hnew => ?_⟩
  have hinv := bookInv_of_seeded (fun _ _ hop => hop.1) hallowed
  have hop : (BookOp.replace oldRef newRef newPrice newShares).Allowed b := hnew
  obtain ⟨b', hrun, -⟩ := hinv.run_effect hop
  exact Option.isSome_iff_exists.2 ⟨b', hrun⟩

/-- The only order of the best bid moves two cents down, beyond the next bid. -/
theorem replace_eq_delete_add_worse :
    ∃ b : OrderBook,
      seededBook.exec (.init 1 999900)
          [.add 1 .buy 1000000 100, .add 2 .buy 1000100 50] = some b ∧
        b.onReplace 2 2 999900 70 =
          (b.onDelete 2).bind fun b => b.onAdd 2 .buy 999900 70 := by
  have hread : ((seededBook.execWhen (fun _ op => op.PennyPriced) (.init 1 999900)
      [.add 1 .buy 1000000 100, .add 2 .buy 1000100 50]).map
        fun b => (b.find 2).map fun found => found.map Prod.snd) =
      some (some (some ⟨1000100, 50, .buy⟩)) := by
    decide +kernel
  obtain ⟨b, hrun, hfind⟩ := Option.map_eq_some_iff.1 hread
  obtain ⟨found, hfound, hentry⟩ := Option.map_eq_some_iff.1 hfind
  obtain ⟨⟨i, entry⟩, rfl, rfl⟩ := Option.map_eq_some_iff.1 hentry
  have hseeded : seededBook.ReachableWhen (fun _ op => op.PennyPriced) (.init 1 999900) :=
    .init ⟨1, 999900, by decide, rfl⟩
  have hreachable := hseeded.execWhen _ hrun
  exact ⟨b, Machine.exec_of_execWhen _ hrun,
    (replace_eq_delete_add hreachable hfound (by decide) 2 70).1⟩

end Core

end LowLatencyPipeline
