import LowLatencyPipeline.Core.PrimaryFeed

/-!
# The reference book

What an unbounded book would hold of each symbol: `ReferenceBook` keeps every live order, wherever
its price lies, and remembers the prices the order has had. `trackedFeed` runs `PrimaryFeed` beside
the reference books of all symbols.

The code's book forgets an order that is added or replaced out of its window, by design: the order
stays unknown when a replacement brings it back (`forgotten`). `stored_iff_live` says that the book
is the reference book restricted to the orders that have never been out of the window.
-/

namespace LowLatencyPipeline

namespace Core

/-- A live order of the feed. -/
structure LiveOrder where
  side : Side
  price : UInt32
  shares : UInt32
  /-- the prices before replacements, newest first -/
  past : List UInt32
  deriving DecidableEq

/-- The live orders of one symbol, without any bound. -/
abbrev ReferenceBook := UInt64 → Option LiveOrder

namespace ReferenceBook

variable (live : ReferenceBook)

/-- Shares leave an order, and the order leaves with its last one. -/
def take (ref : UInt64) (shares : UInt32) : ReferenceBook :=
  Function.update live ref ((live ref).bind fun o =>
    if o.shares ≤ shares then none else some { o with shares := o.shares - shares })

/-- What a call means. -/
def run : BookOp → ReferenceBook
  | .add ref side price shares => Function.update live ref (some ⟨side, price, shares, []⟩)
  | .execute ref shares | .executeWithPrice ref shares _ | .cancel ref shares =>
    live.take ref shares
  | .delete ref => Function.update live ref none
  | .replace oldRef newRef price shares =>
    match live oldRef with
    | none => live
    | some o =>
      Function.update (Function.update live oldRef none) newRef
        (some ⟨o.side, price, shares, o.price :: o.past⟩)

/-- The call of a well-formed feed: new refs are not live, shares taken are at most the order's,
and prices are at most the feed's highest. -/
def Admits : BookOp → Prop
  | .add ref _ price _ => live ref = none ∧ price.toNat ≤ FEED_PRICE_MAX
  | .execute ref shares | .executeWithPrice ref shares _ | .cancel ref shares =>
    ∀ o ∈ live ref, shares ≤ o.shares
  | .delete _ => True
  | .replace oldRef newRef price _ =>
    (live newRef = none ∨ newRef = oldRef) ∧ price.toNat ≤ FEED_PRICE_MAX

instance : (op : BookOp) → Decidable (live.Admits op)
  | .add .. | .replace .. => inferInstanceAs (Decidable (_ ∧ _))
  | .execute .. | .executeWithPrice .. | .cancel .. => inferInstanceAs (Decidable (∀ _ ∈ _, _))
  | .delete _ => instDecidableTrue

/-- Fewer than `n` orders are live. -/
def FewerThan (n : ℕ) : Prop := ∃ refs : Finset UInt64, (∀ ref, live ref ≠ none → ref ∈ refs) ∧
  refs.card < n

end ReferenceBook

/-- The entry of an order. -/
def LiveOrder.entry (o : LiveOrder) : OrderEntry := ⟨o.price, o.shares, o.side⟩

/-- The base of a book's window. -/
def OrderBook.base (b : OrderBook) : ℕ := (b.sides .buy).levels.basePrice.toNat

/-- The window `[base, base + 1048576 * 100)`. -/
def InWindow (base : ℕ) (p : UInt32) : Prop := base ≤ p.toNat ∧ p.toNat < base + 1048576 * 100

/-- The order has been in the window since its add. -/
def LiveOrder.AlwaysIn (o : LiveOrder) (base : ℕ) : Prop := ∀ p ∈ o.price :: o.past, InWindow base p

/-! ### One book -/

/-- **The simulation relation**: the book stores the live orders that have always been in its
window. -/
structure Tracks (live : ReferenceBook) (b : OrderBook) : Prop where
  inv : BookInv b
  base_eq : ∀ side, (b.sides side).levels.basePrice.toNat = b.base
  base_le : b.base ≤ FEED_PRICE_MAX
  stored : ∀ ref entry, (ref, entry) ∈ b.entries ↔
    ∃ o, live ref = some o ∧ o.entry = entry ∧ o.AlwaysIn b.base

section Book

variable {live : ReferenceBook} {b b' : OrderBook} {op : BookOp}

/-- For a feed price, `in_range` is the window. -/
theorem Tracks.inRange_iff (h : Tracks live b) {p : UInt32} (hp : p.toNat ≤ FEED_PRICE_MAX)
    (side : Side) : (b.sides side).levels.InRange p ↔ InWindow b.base p := by
  have hbase := h.base_eq side
  have hlevels : LEVEL_COUNT = 1048576 := by
    unfold LEVEL_COUNT
    rfl
  constructor
  · intro hrange
    have hle := hrange.base_le levelCount_le (hbase ▸ h.base_le) hp
    rw [PriceLevelArray.InRange, PriceLevelArray.indexOf_eq hle, hbase, hlevels] at hrange
    rw [hbase] at hle
    exact ⟨hle, by omega⟩
  · rintro ⟨hle, hlt⟩
    rw [PriceLevelArray.InRange, PriceLevelArray.indexOf_eq (hbase ▸ hle), hbase, hlevels]
    omega

/-- A stored order is live. -/
theorem Tracks.live_of_mem (h : Tracks live b) {e : UInt64 × OrderEntry} (he : e ∈ b.entries) :
    ∃ o, live e.1 = some o ∧ o.entry = e.2 ∧ o.AlwaysIn b.base := (h.stored e.1 e.2).1 he

/-- The orders other than one. -/
theorem BookInv.mem_rest (h : BookInv b) {e d : UInt64 × OrderEntry}
    {rest : Multiset (UInt64 × OrderEntry)} (hentries : b.entries = e ::ₘ rest) :
    d ∈ rest ↔ d ∈ b.entries ∧ d.1 ≠ e.1 := by
  constructor
  · intro hd
    exact ⟨hentries ▸ Multiset.mem_cons_of_mem hd, h.ref_ne hentries d hd⟩
  · rintro ⟨hd, hne⟩
    rw [hentries] at hd
    rcases Multiset.mem_cons.1 hd with rfl | hd
    · exact absurd rfl hne
    · exact hd

theorem BookInv.nodup_refs (h : BookInv b) : (b.entries.map Prod.fst).Nodup :=
  LinearProbe.Probed.nodup_keys h.orders

/-- Calls on live orders, in the book's terms. -/
theorem Tracks.allowed (h : Tracks live b) (hop : live.Admits op)
    (hfew : (live.run op).FewerThan 1048576) : op.Allowed b := by
  have habsent : ∀ ref, live ref = none → ∀ e ∈ b.entries, e.1 ≠ ref := by
    rintro ref hnone e he rfl
    obtain ⟨o, ho, -⟩ := h.live_of_mem he
    rw [hnone] at ho
    cases ho
  cases op with
  | add ref side price shares =>
    refine ⟨habsent ref hop.1, ?_⟩
    obtain ⟨refs, hrefs, hcard⟩ := hfew
    have href : ref ∈ refs := hrefs ref (by simp [ReferenceBook.run])
    -- the refs of the stored orders are distinct, live, and not the new one
    have hle : b.entries.card ≤ (refs.erase ref).card := by
      rw [← Multiset.card_map Prod.fst b.entries,
        ← Multiset.toFinset_card_of_nodup h.inv.nodup_refs]
      refine Finset.card_le_card fun r hr => ?_
      obtain ⟨e, he, rfl⟩ := Multiset.mem_map.1 (Multiset.mem_toFinset.1 hr)
      have hne : e.1 ≠ ref := habsent ref hop.1 e he
      refine Finset.mem_erase.2 ⟨hne, hrefs _ ?_⟩
      rw [ReferenceBook.run, Function.update_of_ne hne]
      exact fun hnone => habsent _ hnone e he rfl
    rw [Finset.card_erase_of_mem href] at hle
    have hpos := Finset.card_pos.2 ⟨ref, href⟩
    rw [toNat_orderCapacity]
    omega
  | replace oldRef newRef price shares =>
    intro e he heq
    rcases hop.1 with hnone | rfl
    · exact absurd heq (habsent _ hnone e he)
    · rfl
  | execute | executeWithPrice | cancel | delete => trivial

/-- `entries` are those of the live orders that have always been in the window from `base`. -/
def ReferenceBook.EntriesOf (live : ReferenceBook) (base : ℕ)
    (entries : Multiset (UInt64 × OrderEntry)) : Prop :=
  ∀ ref entry, (ref, entry) ∈ entries ↔
    ∃ o, live ref = some o ∧ o.entry = entry ∧ o.AlwaysIn base

/-- A change of the map and of one side keeps the windows. -/
theorem Tracks.setSide (h : Tracks live b) {side : Side} {s : BookSide} {m : OrderMap} {drops : ℕ}
    {live' : ReferenceBook} {entries : Multiset (UInt64 × OrderEntry)} (hm : Stores m entries)
    (hbase : s.levels.basePrice = (b.sides side).levels.basePrice)
    (hinv : BookInv { b.setSide side s with orders := m, drops := drops })
    (hstored : live'.EntriesOf b.base entries) :
    Tracks live' { b.setSide side s with orders := m, drops := drops } := by
  obtain ⟨-, rfl⟩ := hm
  have hsides : ∀ other, ((OrderBook.sides { b.setSide side s with
      orders := m, drops := drops } other).levels.basePrice) =
        (b.sides other).levels.basePrice := fun other => OrderBook.basePrice_setSide hbase
  have hsame : OrderBook.base { b.setSide side s with orders := m, drops := drops } = b.base := by
    rw [OrderBook.base, hsides, OrderBook.base]
  refine ⟨hinv, fun other => ?_, ?_, ?_⟩
  · rw [hsides, hsame]
    exact h.base_eq other
  · rw [hsame]
    exact h.base_le
  · rw [hsame]
    exact hstored

namespace ReferenceBook.EntriesOf

variable {base : ℕ} {entries : Multiset (UInt64 × OrderEntry)} {ref : UInt64}

/-- The reference book has other orders than the book's only where the book stores none. -/
theorem update (h : live.EntriesOf base entries) (habsent : ∀ e ∈ entries, e.1 ≠ ref)
    {o : Option LiveOrder} (ho : ∀ o', o = some o' → ¬o'.AlwaysIn base) :
    EntriesOf (Function.update live ref o) base entries := by
  intro r entry
  rcases eq_or_ne r ref with rfl | hne
  · rw [Function.update_self]
    refine iff_of_false (fun hmem => habsent _ hmem rfl) ?_
    rintro ⟨o', rfl, -, halways⟩
    exact ho o' rfl halways
  · rw [Function.update_of_ne hne]
    exact h r entry

/-- An order joins the book and the reference book. -/
theorem cons (h : live.EntriesOf base entries) (habsent : ∀ e ∈ entries, e.1 ≠ ref)
    {o : LiveOrder} (ho : o.AlwaysIn base) :
    EntriesOf (Function.update live ref (some o)) base ((ref, o.entry) ::ₘ entries) := by
  intro r entry
  rw [Multiset.mem_cons]
  rcases eq_or_ne r ref with rfl | hne
  · rw [Function.update_self]
    constructor
    · rintro (heq | hmem)
      · exact ⟨o, rfl, (Prod.mk.inj heq).2.symm, ho⟩
      · exact absurd rfl (habsent _ hmem)
    · rintro ⟨o', heq, rfl, -⟩
      exact .inl (by rw [Option.some.inj heq])
  · rw [Function.update_of_ne hne, ← h]
    refine or_iff_right fun heq => hne (Prod.mk.inj heq).1

end ReferenceBook.EntriesOf

/-- Part of an order is taken. -/
theorem ReferenceBook.take_of_lt {ref : UInt64} {o : LiveOrder} (ho : live ref = some o)
    {shares : UInt32} (hmore : ¬o.shares ≤ shares) : live.take ref shares =
      Function.update live ref (some { o with shares := o.shares - shares }) := by
  rw [take, ho, Option.bind_some, if_neg hmore]

/-- The whole of an order is taken. -/
theorem ReferenceBook.take_of_le {ref : UInt64} {o : LiveOrder} (ho : live ref = some o)
    {shares : UInt32} (hle : o.shares ≤ shares) :
    live.take ref shares = Function.update live ref none := by
  rw [take, ho, Option.bind_some, if_pos hle]

/-- The book and the reference book without one stored order. -/
theorem Tracks.rest (h : Tracks live b) {e : UInt64 × OrderEntry}
    {rest : Multiset (UInt64 × OrderEntry)} (hentries : b.entries = e ::ₘ rest) :
    ReferenceBook.EntriesOf (Function.update live e.1 none) b.base rest := by
  intro r entry
  rw [h.inv.mem_rest hentries, h.stored]
  rcases eq_or_ne r e.1 with rfl | hne
  · simp
  · rw [Function.update_of_ne hne]
    exact and_iff_left hne

/-- The new ref of a replacement is not that of another stored order. -/
theorem Tracks.ne_newRef (h : Tracks live b) {e : UInt64 × OrderEntry}
    {rest : Multiset (UInt64 × OrderEntry)} (hentries : b.entries = e ::ₘ rest)
    {newRef : UInt64} {price shares : UInt32}
    (hallowed : (BookOp.replace e.1 newRef price shares).Allowed b) : ∀ d ∈ rest, d.1 ≠ newRef := by
  intro d hd heq
  obtain ⟨hmem, hne⟩ := (h.inv.mem_rest hentries).1 hd
  exact hne (heq.trans (hallowed d hmem heq))

/-- A call on an order the book does not store: the order has been out of the window, and stays
so. -/
theorem Tracks.unknown (h : Tracks live b) {ref : UInt64} (htarget : op.target = some ref)
    (habsent : ∀ e ∈ b.entries, e.1 ≠ ref) (hallowed : op.Allowed b) :
    (live.run op).EntriesOf b.base b.entries := by
  have hout : ∀ o, live ref = some o → ¬o.AlwaysIn b.base := fun o ho halways =>
    habsent _ ((h.stored ref o.entry).2 ⟨o, ho, rfl, halways⟩) rfl
  have hentries : live.EntriesOf b.base b.entries := h.stored
  have htake : ∀ shares, (live.take ref shares).EntriesOf b.base b.entries := by
    intro shares
    refine hentries.update habsent fun o' ho' halways => ?_
    obtain ⟨o, ho, htaken⟩ := Option.bind_eq_some_iff.1 ho'
    split_ifs at htaken
    obtain rfl := Option.some.inj htaken
    exact hout o ho halways
  -- a delete, or the first half of a replacement
  have hgone : ReferenceBook.EntriesOf (Function.update live ref none) b.base b.entries :=
    hentries.update habsent fun o' ho' => by cases ho'
  cases op with
  | add => cases htarget
  | execute | executeWithPrice | cancel =>
    cases htarget
    exact htake _
  | delete =>
    cases htarget
    exact hgone
  | replace oldRef newRef newPrice shares =>
    cases htarget
    rw [ReferenceBook.run]
    cases hold : live ref with
    | none => exact hentries
    | some o =>
      refine hgone.update (fun e hmem heq => ?_) fun o' ho' halways => ?_
      · exact habsent e hmem (heq.trans (hallowed e hmem heq))
      · obtain rfl := Option.some.inj ho'
        exact hout o hold fun p hp => halways p (List.mem_cons_of_mem _ hp)

/-- **The step lemma**: the book and the reference book move together. -/
theorem Effect.tracks (he : Effect b op b') (h : Tracks live b) (hop : live.Admits op)
    (hallowed : op.Allowed b) : Tracks (live.run op) b' := by
  have hinv := he.bookInv h.inv hallowed
  have hstored : live.EntriesOf b.base b.entries := h.stored
  cases he with
  | @dropped ref side price shares hrange =>
    refine ⟨hinv, h.base_eq, h.base_le, hstored.update hallowed.1 ?_⟩
    intro o' ho' halways
    obtain rfl := Option.some.inj ho'
    exact hrange ((h.inRange_iff hop.2 side).2 (halways price (List.mem_cons_self ..)))
  | @added ref side price shares m hrange hm =>
    refine h.setSide hm BookSide.basePrice_join hinv ?_
    refine hstored.cons hallowed.1 (o := ⟨side, price, shares, []⟩) ?_
    intro p hp
    rw [List.mem_singleton.1 hp]
    exact (h.inRange_iff hop.2 side).1 hrange
  | @unknown _ ref htarget habsent =>
    exact ⟨hinv, h.base_eq, h.base_le, h.unknown htarget habsent hallowed⟩
  | @reduced _ e rest shares m htaking hleft hentries hm =>
    obtain ⟨o, ho, hentry, halways⟩ :=
      h.live_of_mem (hentries ▸ Multiset.mem_cons_self e rest : e ∈ b.entries)
    have hshares : o.shares = e.2.shares := congrArg OrderEntry.shares hentry
    have htake : shares ≤ o.shares → (live.take e.1 shares).EntriesOf b.base
        ((e.1, { e.2 with shares := e.2.shares - shares }) ::ₘ rest) := by
      intro hle
      have hmore : ¬o.shares ≤ shares := by
        intro hge
        refine hleft ?_
        rw [← hshares, UInt32.le_antisymm hle hge, sub_self]
      have hcons := (h.rest hentries).cons (h.inv.ref_ne hentries)
        (o := { o with shares := o.shares - shares }) halways
      rw [Function.update_idem] at hcons
      rw [ReferenceBook.take_of_lt ho hmore, ← hentry]
      exact hcons
    refine h.setSide hm rfl hinv ?_
    cases op with
    | execute | executeWithPrice | cancel =>
      cases htaking
      exact htake (hop o ho)
    | add | delete | replace => cases htaking
  | @removed _ e rest m hremoves hentries hm =>
    refine h.setSide hm BookSide.basePrice_settle hinv ?_
    obtain ⟨o, ho, hentry, -⟩ :=
      h.live_of_mem (hentries ▸ Multiset.mem_cons_self e rest : e ∈ b.entries)
    have htake : live.take e.1 e.2.shares = Function.update live e.1 none :=
      ReferenceBook.take_of_le ho (hentry ▸ UInt32.le_refl _)
    rcases hremoves with rfl | htaking
    · exact h.rest hentries
    · cases op with
      | execute | executeWithPrice | cancel =>
        cases htaking
        rw [ReferenceBook.run, htake]
        exact h.rest hentries
      | add | delete | replace => cases htaking
  | @replaced newRef newPrice newShares e rest m hrange hentries hm =>
    obtain ⟨o, ho, hentry, halways⟩ :=
      h.live_of_mem (hentries ▸ Multiset.mem_cons_self e rest : e ∈ b.entries)
    have hside : o.side = e.2.side := congrArg OrderEntry.side hentry
    refine h.setSide hm (BookSide.basePrice_settle.trans BookSide.basePrice_join) hinv ?_
    rw [ReferenceBook.run, ho, ← hside]
    refine (h.rest hentries).cons (h.ne_newRef hentries hallowed)
      (o := ⟨o.side, newPrice, newShares, o.price :: o.past⟩) ?_
    intro p hp
    rcases List.mem_cons.1 hp with rfl | hp
    · exact (h.inRange_iff hop.2 e.2.side).1 hrange
    · exact halways p hp
  | @lost newRef newPrice newShares e rest m hrange hentries hm =>
    obtain ⟨o, ho, -, -⟩ :=
      h.live_of_mem (hentries ▸ Multiset.mem_cons_self e rest : e ∈ b.entries)
    refine h.setSide hm BookSide.basePrice_settle hinv ?_
    rw [ReferenceBook.run, ho]
    refine (h.rest hentries).update (h.ne_newRef hentries hallowed) ?_
    intro o' ho' halways
    obtain rfl := Option.some.inj ho'
    exact hrange ((h.inRange_iff hop.2 e.2.side).2 (halways newPrice (List.mem_cons_self ..)))

/-- A new book tracks an empty reference book. -/
theorem Tracks.init (stockId : UInt64) {basePrice : UInt32}
    (hbase : basePrice.toNat ≤ FEED_PRICE_MAX) (hlive : ∀ ref, live ref = none) :
    Tracks live (.init stockId basePrice) := by
  refine ⟨BookInv.init stockId basePrice, fun _ => rfl, ?_, fun ref entry => ?_⟩
  · exact (TopInv.init stockId hbase).window .buy |>.base_le
  · rw [show (OrderBook.init stockId basePrice).entries = 0 from OrderMap.entries_empty _]
    simp [hlive]

/-- Only an add makes an order live where none is. -/
theorem run_of_empty (hlive : ∀ ref, live ref = none) {target : UInt64}
    (hop : op.target = some target) (ref : UInt64) : live.run op ref = none := by
  cases op with
  | add => cases hop
  | execute r | executeWithPrice r | cancel r =>
    rw [ReferenceBook.run, ReferenceBook.take, hlive, Option.bind_none]
    rcases eq_or_ne ref r with rfl | hne
    · rw [Function.update_self]
    · rw [Function.update_of_ne hne, hlive]
  | delete r =>
    rcases eq_or_ne ref r with rfl | hne
    · exact Function.update_self ..
    · exact (Function.update_of_ne hne ..).trans (hlive ref)
  | replace oldRef =>
    rw [ReferenceBook.run, hlive]
    exact hlive ref

end Book

/-! ### The feed beside the reference books -/

/-- The feed and the reference books of all symbols, by stock locate. -/
structure Tracked where
  feed : PrimaryFeed
  reference : UInt16 → ReferenceBook

namespace Tracked

variable (s : Tracked) (ev : Event)

/-- The reference books after an event. -/
def referenceAfter : UInt16 → ReferenceBook :=
  match bookOp ev with
  | none => s.reference
  | some op =>
    Function.update s.reference ev.stockLocate ((s.reference ev.stockLocate).run op)

variable {s ev}

theorem referenceAfter_of_none (hop : bookOp ev = none) : s.referenceAfter ev = s.reference := by
  rw [referenceAfter, hop]

theorem referenceAfter_of_some {op : BookOp} (hop : bookOp ev = some op) :
    s.referenceAfter ev ev.stockLocate = (s.reference ev.stockLocate).run op := by
  rw [referenceAfter, hop]
  exact Function.update_self ..

theorem referenceAfter_of_ne {locate : UInt16} (hne : locate ≠ ev.stockLocate) :
    s.referenceAfter ev locate = s.reference locate := by
  rw [referenceAfter]
  cases bookOp ev with
  | none => rfl
  | some op => exact Function.update_of_ne hne ..

variable (s ev)

/-- An event of a feed with one stock locate for each symbol: new refs are not live, shares taken
are at most the order's, prices are at most the feed's highest, and fewer than 1048576 orders are
live. Of other symbols only the locate matters. -/
structure WellFormed (locate : UInt16) : Prop where
  locate_iff : IsAdd ev → (ev.stock = s.feed.symbol ↔ ev.stockLocate = locate)
  admits : ev.stockLocate = locate → ∀ op, bookOp ev = some op → (s.reference locate).Admits op
  fewer : (s.referenceAfter ev locate).FewerThan 1048576

end Tracked

/-- The feed of one symbol, with the reference books. -/
def trackedFeed (symbol : Symbol) : Machine Tracked Event where
  Init s := s = ⟨{ symbol }, fun _ _ => none⟩
  step s ev := (s.feed.apply ev).map fun r => ⟨r.1, s.referenceAfter ev⟩

/-- **The simulation over the feed**: there is no book but that of the symbol, which tracks the
symbol's live orders, and no order of the symbol is live before it has a book. -/
structure TracksFeed (symbol : Symbol) (locate : UInt16) (s : Tracked) : Prop where
  symbol_eq : s.feed.symbol = symbol
  other : ∀ l ≠ locate, s.feed.engine l = none
  fresh : s.feed.engine locate = none → ∀ ref, s.reference locate ref = none
  tracks : ∀ b, s.feed.engine locate = some b → Tracks (s.reference locate) b

section Feed

variable {symbol : Symbol} {locate : UInt16} {s t : Tracked} {ev : Event}

/-- The call of an event that is no add has a target. -/
theorem target_of_not_isAdd {op : BookOp} (hop : bookOp ev = some op) (hadd : ¬IsAdd ev) :
    ∃ ref, op.target = some ref := by
  unfold bookOp at hop
  unfold IsAdd at hadd
  split at hop <;> simp_all <;> subst hop <;> exact ⟨_, rfl⟩

theorem bookOp_of_isAdd (hadd : IsAdd ev) :
    bookOp ev = some (.add ev.orderRefNumber ev.side ev.price ev.shares) := by
  unfold bookOp
  rcases hadd with h | h <;> simp [h]

theorem seed_le : (PrimaryFeed.seed ev).toNat ≤ ev.price.toNat := by
  unfold PrimaryFeed.seed
  split_ifs with h
  · rw [UInt32.toNat_sub_of_le _ _ (UInt32.le_of_lt h)]
    exact Nat.sub_le _ _
  · exact Nat.zero_le _

/-- The book of a well-formed event. -/
theorem TracksFeed.bookFor (h : TracksFeed symbol locate s) (hev : s.WellFormed ev locate)
    {b : OrderBook} (hb : s.feed.bookFor ev = some b) :
    ev.stockLocate = locate ∧ Tracks (s.reference locate) b := by
  have hlocate : ev.stockLocate = locate := by
    rcases bookFor_cases hb with hstored | ⟨-, hadd, hstock, -⟩
    · by_contra hne
      rw [h.other _ hne] at hstored
      cases hstored
    · exact (hev.locate_iff hadd).1 hstock
  refine ⟨hlocate, ?_⟩
  rcases bookFor_cases hb with hstored | ⟨hnone, hadd, -, rfl⟩
  · exact h.tracks b (hlocate ▸ hstored)
  · have hprice := (hev.admits hlocate _ (bookOp_of_isAdd hadd)).2
    exact Tracks.init _ (seed_le.trans hprice) (h.fresh (hlocate ▸ hnone))

/-- An event that is filtered out leaves the symbol without live orders. -/
theorem TracksFeed.filtered (h : TracksFeed symbol locate s) (hev : s.WellFormed ev locate)
    (hb : s.feed.bookFor ev = none) : TracksFeed symbol locate ⟨s.feed, s.referenceAfter ev⟩ := by
  have hsame : ev.stockLocate ≠ locate → s.referenceAfter ev locate = s.reference locate :=
    fun hne => Tracked.referenceAfter_of_ne (Ne.symm hne)
  unfold PrimaryFeed.bookFor at hb
  refine ⟨h.symbol_eq, h.other, fun hnone => ?_, fun b hbook => ?_⟩
  · -- no book yet: calls on refs that are not live change nothing
    change s.feed.engine locate = none at hnone
    by_cases hlocate : ev.stockLocate = locate
    · have hadd : ¬IsAdd ev := by
        intro hadd
        rw [if_pos hadd, if_neg (not_not.2 ((hev.locate_iff hadd).2 hlocate))] at hb
        cases hb
      change ∀ ref, s.referenceAfter ev locate ref = none
      cases hop : bookOp ev with
      | none =>
        rw [Tracked.referenceAfter_of_none hop]
        exact h.fresh hnone
      | some op =>
        obtain ⟨target, htarget⟩ := target_of_not_isAdd hop hadd
        rw [← hlocate, Tracked.referenceAfter_of_some hop, hlocate]
        exact run_of_empty (h.fresh hnone) htarget
    · change ∀ ref, s.referenceAfter ev locate ref = none
      rw [hsame hlocate]
      exact h.fresh hnone
  · change s.feed.engine locate = some b at hbook
    -- once there is a book, the events filtered out are those of other symbols
    have hlocate : ev.stockLocate ≠ locate := by
      intro hlocate
      split_ifs at hb with hadd hstock
      · exact hstock ((hev.locate_iff hadd).2 hlocate)
      · rw [hlocate, hbook] at hb
        cases hb
    change Tracks (s.referenceAfter ev locate) b
    rw [hsame hlocate]
    exact h.tracks b hbook

/-- A well-formed call on the book, seen from the book. -/
theorem TracksFeed.effect (h : TracksFeed symbol locate s) (hev : s.WellFormed ev locate)
    {b b' : OrderBook} {trade : Trade} (hb : s.feed.bookFor ev = some b)
    (hhandle : b.handle ev = some (b', trade)) :
    (bookOp ev = none ∧ b' = b) ∨
      ∃ op, bookOp ev = some op ∧ op.Allowed b ∧ Effect b op b' := by
  obtain ⟨hlocate, htracks⟩ := h.bookFor hev hb
  rcases handle_cases hhandle with hnone | ⟨op, hop, hrun⟩
  · exact .inl hnone
  · have hfew := hev.fewer
    rw [← hlocate, Tracked.referenceAfter_of_some hop, hlocate] at hfew
    have hallowed := htracks.allowed (hev.admits hlocate op hop) hfew
    obtain ⟨b₁, hrun₁, heffect⟩ := htracks.inv.run_effect hallowed
    obtain rfl : b₁ = b' := Option.some.inj (hrun₁.symm.trans hrun)
    exact .inr ⟨op, hop, hallowed, heffect⟩

/-- **The simulation is kept.** -/
theorem TracksFeed.step (h : TracksFeed symbol locate s) (hev : s.WellFormed ev locate)
    (hstep : (trackedFeed symbol).step s ev = some t) : TracksFeed symbol locate t := by
  obtain ⟨⟨feed', out⟩, happly, rfl⟩ := Option.map_eq_some_iff.1 hstep
  rcases apply_cases happly with ⟨hb, rfl, -⟩ | ⟨b, b', trade, hb, hhandle, rfl, -⟩
  · exact h.filtered hev hb
  · obtain ⟨hlocate, htracks⟩ := h.bookFor hev hb
    have htracks' : Tracks (s.referenceAfter ev locate) b' := by
      rcases h.effect hev hb hhandle with ⟨hop, rfl⟩ | ⟨op, hop, hallowed, heffect⟩
      · rw [Tracked.referenceAfter_of_none hop]
        exact htracks
      · rw [← hlocate, Tracked.referenceAfter_of_some hop, hlocate]
        exact heffect.tracks htracks (hev.admits hlocate op hop) hallowed
    refine ⟨h.symbol_eq, fun l hne => ?_, fun hnone => ?_, fun c hc => ?_⟩
    · exact (Function.update_of_ne (hlocate ▸ hne) ..).trans (h.other l hne)
    · change Function.update s.feed.engine ev.stockLocate (some b') locate = none at hnone
      rw [hlocate, Function.update_self] at hnone
      cases hnone
    · change Function.update s.feed.engine ev.stockLocate (some b') locate = some c at hc
      rw [hlocate, Function.update_self] at hc
      exact Option.some.inj hc ▸ htracks'

/-- A well-formed event is applied. -/
theorem TracksFeed.apply_isSome (h : TracksFeed symbol locate s) (hev : s.WellFormed ev locate) :
    (s.feed.apply ev).isSome := by
  unfold PrimaryFeed.apply
  cases hb : s.feed.bookFor ev with
  | none => rfl
  | some b =>
    obtain ⟨hlocate, htracks⟩ := h.bookFor hev hb
    have hhandle : (b.handle ev).isSome := by
      refine handle_isSome fun op hop => ?_
      have hfew := hev.fewer
      rw [← hlocate, Tracked.referenceAfter_of_some hop, hlocate] at hfew
      obtain ⟨b', hrun, -⟩ :=
        htracks.inv.run_effect (htracks.allowed (hev.admits hlocate op hop) hfew)
      rw [hrun]
      rfl
    obtain ⟨r, hr⟩ := Option.isSome_iff_exists.1 hhandle
    simp [hr]

/-- **The run lemma.** -/
theorem tracksFeed_of_reachable {cond : Tracked → Event → Prop}
    (hcond : ∀ s ev, cond s ev → s.WellFormed ev locate)
    (hs : (trackedFeed symbol).ReachableWhen cond s) : TracksFeed symbol locate s := by
  refine hs.invariant ?_ fun s ev t _ hev hstep h => h.step (hcond s ev hev) hstep
  rintro _ rfl
  exact ⟨rfl, fun _ _ => rfl, fun _ _ => rfl, fun b hb => by cases hb⟩

/-- **A property of the book over a run**: what holds of a new book, and what the effects of
well-formed calls keep. -/
theorem book_invariant {cond : Tracked → Event → Prop} {P : OrderBook → Prop}
    (hcond : ∀ s ev, cond s ev → s.WellFormed ev locate)
    (hfresh : ∀ s ev, cond s ev → ev.stockLocate = locate → IsAdd ev →
      P (.init ev.stockLocate.toUInt64 (PrimaryFeed.seed ev)))
    (heffect : ∀ s ev b b' op, cond s ev → ev.stockLocate = locate → bookOp ev = some op →
      BookInv b → Effect b op b' → P b → P b')
    (hs : (trackedFeed symbol).ReachableWhen cond s) :
    ∀ b, s.feed.engine locate = some b → P b := by
  refine hs.invariant (P := fun s => ∀ b, s.feed.engine locate = some b → P b) ?_ ?_
  · rintro _ rfl b hb
    cases hb
  · intro s ev t hs hc hstep hP c hcb
    have htracks := tracksFeed_of_reachable hcond hs
    obtain ⟨⟨feed', out⟩, happly, rfl⟩ := Option.map_eq_some_iff.1 hstep
    rcases apply_cases happly with ⟨-, rfl, -⟩ | ⟨b, b', trade, hb, hhandle, rfl, -⟩
    · exact hP c hcb
    · obtain ⟨hlocate, hbook⟩ := htracks.bookFor (hcond s ev hc) hb
      change Function.update s.feed.engine ev.stockLocate (some b') locate = some c at hcb
      rw [hlocate, Function.update_self] at hcb
      obtain rfl := Option.some.inj hcb
      -- the book is stored already, or this add makes it
      have hPb : P b := by
        rcases bookFor_cases hb with hstored | ⟨-, hadd, -, rfl⟩
        · exact hP b (hlocate ▸ hstored)
        · exact hfresh s ev hc hlocate hadd
      rcases htracks.effect (hcond s ev hc) hb hhandle with ⟨-, rfl⟩ | ⟨op, hop, -, heff⟩
      · exact hPb
      · exact heffect s ev b b' op hc hlocate hop hbook.inv heff hPb

/-- **The book is the reference book restricted to its window**, for good: it stores exactly the
live orders of the symbol that have been in its window since their add, each once and with its
side, price and remaining shares. Every event is applied, and those of other symbols change
nothing. -/
theorem stored_iff_live
    (hs : (trackedFeed symbol).ReachableWhen (fun s ev => s.WellFormed ev locate) s) :
    (∀ b, s.feed.engine locate = some b → b.entries.Nodup ∧
      ∀ ref entry, (ref, entry) ∈ b.entries ↔
        ∃ o, s.reference locate ref = some o ∧ o.entry = entry ∧ o.AlwaysIn b.base) ∧
      (s.feed.engine locate = none → ∀ ref, s.reference locate ref = none) ∧
      ∀ ev, s.WellFormed ev locate → ∃ feed' out, s.feed.apply ev = some (feed', out) ∧
        (ev.stockLocate ≠ locate → feed' = s.feed) := by
  have h := tracksFeed_of_reachable (fun _ _ h => h) hs
  refine ⟨fun b hb => ?_, h.fresh, fun ev hev => ?_⟩
  · have htracks := h.tracks b hb
    exact ⟨.of_map _ htracks.inv.nodup_refs, htracks.stored⟩
  · obtain ⟨⟨feed', out⟩, happly⟩ := Option.isSome_iff_exists.1 (h.apply_isSome hev)
    refine ⟨feed', out, happly, fun hne => ?_⟩
    rcases apply_cases happly with ⟨-, hsame, -⟩ | ⟨b, b', trade, hb, -⟩
    · exact hsame
    · exact absurd (h.bookFor hev hb).1 hne

/-! ### Runs on given events -/

namespace ReferenceBook

variable {live : ReferenceBook} {n : ℕ}

/-- A call makes at most one more order live. -/
theorem FewerThan.run (h : live.FewerThan n) (op : BookOp) : (live.run op).FewerThan (n + 1) := by
  obtain ⟨refs, hrefs, hcard⟩ := h
  have hupdate : ∀ (live' : ReferenceBook) ref o, (∀ r, live' r ≠ none → r ∈ refs) →
      FewerThan (Function.update live' ref o) (n + 1) := by
    intro live' ref o hlive'
    refine ⟨insert ref refs, fun r hr => ?_, (Finset.card_insert_le ref refs).trans_lt (by omega)⟩
    rcases eq_or_ne r ref with rfl | hne
    · exact Finset.mem_insert_self _ _
    · rw [Function.update_of_ne hne] at hr
      exact Finset.mem_insert_of_mem (hlive' r hr)
  cases op with
  | add | execute | executeWithPrice | cancel | delete => exact hupdate _ _ _ hrefs
  | replace oldRef newRef price shares =>
    rw [ReferenceBook.run]
    split
    · exact ⟨refs, hrefs, by omega⟩
    · refine hupdate _ _ _ fun r hr => ?_
      rcases eq_or_ne r oldRef with rfl | hne
      · simp at hr
      · rw [Function.update_of_ne hne] at hr
        exact hrefs r hr

end ReferenceBook

/-- The part of `WellFormed` that can be computed. -/
def Tracked.Checked (locate : UInt16) (s : Tracked) (ev : Event) : Prop :=
  (IsAdd ev → (ev.stock = s.feed.symbol ↔ ev.stockLocate = locate)) ∧
    (ev.stockLocate = locate → ∀ op ∈ bookOp ev, (s.reference locate).Admits op)

instance (s : Tracked) (ev : Event) : Decidable (s.Checked locate ev) :=
  inferInstanceAs (Decidable (_ ∧ _))

/-- A short run whose events pass a check. -/
theorem reachable_of_checked {check cond : Tracked → Event → Prop} [∀ s ev, Decidable (check s ev)]
    (hcheck : ∀ s ev, check s ev → s.Checked locate ev)
    (hcond : ∀ s ev, check s ev → s.WellFormed ev locate → cond s ev) (events : List Event) {n : ℕ}
    (hs : (trackedFeed symbol).ReachableWhen cond s) (hfew : (s.reference locate).FewerThan n)
    (hn : n + events.length ≤ 1048576)
    (hrun : (trackedFeed symbol).execWhen check s events = some t) :
    (trackedFeed symbol).ReachableWhen cond t := by
  induction events generalizing s n with
  | nil => exact Option.some.inj hrun ▸ hs
  | cons ev events ih =>
    rw [Machine.execWhen, List.foldlM_cons, Option.bind_eq_bind, Option.bind_eq_some_iff] at hrun
    obtain ⟨s', hstep, hrun⟩ := hrun
    rw [List.length_cons] at hn
    split_ifs at hstep with hchecked
    -- an event makes at most one more order live
    have hafter : (s.referenceAfter ev locate).FewerThan (n + 1) := by
      have hmono : (s.reference locate).FewerThan (n + 1) := by
        obtain ⟨refs, hrefs, hcard⟩ := hfew
        exact ⟨refs, hrefs, by omega⟩
      rcases eq_or_ne locate ev.stockLocate with rfl | hne
      · cases hop : bookOp ev with
        | none =>
          rw [Tracked.referenceAfter_of_none hop]
          exact hmono
        | some op =>
          rw [Tracked.referenceAfter_of_some hop]
          exact hfew.run op
      · rw [Tracked.referenceAfter_of_ne hne]
        exact hmono
    have hs' : s'.reference = s.referenceAfter ev := by
      obtain ⟨r, -, rfl⟩ := Option.map_eq_some_iff.1 hstep
      rfl
    have hfewer : (s.referenceAfter ev locate).FewerThan 1048576 := by
      obtain ⟨refs, hrefs, hcard⟩ := hafter
      exact ⟨refs, hrefs, by omega⟩
    have hwf : s.WellFormed ev locate :=
      ⟨(hcheck s ev hchecked).1, (hcheck s ev hchecked).2, hfewer⟩
    exact ih (.step hs (hcond s ev hchecked hwf) hstep) (hs' ▸ hafter) (by omega) hrun

end Feed

/-- The ticker of the runs below. -/
def sampleSymbol : Symbol := #v[84, 81, 81, 81, 32, 32, 32, 32]

/-- An event on `sampleSymbol` at stock locate 7. -/
def sampleEvent (messageType : Char) (ref : UInt64) (side : Side) (price shares : UInt32)
    (newRef : UInt64) : Event :=
  { Event.zero with
    messageType, side, price, shares
    stockLocate := 7
    stock := sampleSymbol
    orderRefNumber := ref
    newOrderRefNumber := newRef }

theorem init_tracked (symbol : Symbol) : (trackedFeed symbol).Init ⟨{ symbol }, fun _ _ => none⟩ :=
  rfl

theorem fewerThan_init : ReferenceBook.FewerThan (fun _ => none) 1 :=
  ⟨∅, fun _ h => absurd rfl h, by simp⟩

/-- An order that is replaced within the window stays stored. -/
theorem stored_iff_live_replaced :
    ∃ (s : Tracked) (b : OrderBook), s.feed.engine 7 = some b ∧
      (2, ⟨200, 5, .buy⟩) ∈ b.entries := by
  have hread : ((trackedFeed sampleSymbol).execWhen (fun s ev => s.Checked 7 ev)
      ⟨{ symbol := sampleSymbol }, fun _ _ => none⟩
      [sampleEvent 'A' 1 .buy 100 10 0, sampleEvent 'U' 1 .buy 200 5 2]).map
        (fun s => ((s.feed.engine 7).map OrderBook.base, s.reference 7 2)) =
      some (some 0, some ⟨.buy, 200, 5, [100]⟩) := by
    decide +kernel
  obtain ⟨s, hrun, hvalues⟩ := Option.map_eq_some_iff.1 hread
  obtain ⟨hbase, hlive⟩ := Prod.mk.inj hvalues
  obtain ⟨b, hb, hbase⟩ := Option.map_eq_some_iff.1 hbase
  have hs := reachable_of_checked (fun _ _ h => h) (fun _ _ _ h => h) _ (.init (init_tracked _))
    fewerThan_init (by decide) hrun
  refine ⟨s, b, hb, (((stored_iff_live hs).1 b hb).2 2 _).2 ⟨_, hlive, rfl, ?_⟩⟩
  rw [hbase]
  simp [LiveOrder.AlwaysIn, InWindow]

/-- An order is added out of the window and replaced by one in the window: the book does not know
it. -/
theorem forgotten :
    ∃ (s : Tracked) (b : OrderBook) (o : LiveOrder),
      (trackedFeed sampleSymbol).ReachableWhen (fun s ev => s.WellFormed ev 7) s ∧
        s.feed.engine 7 = some b ∧ s.reference 7 3 = some o ∧ InWindow b.base o.price ∧
        ∀ entry, (3, entry) ∉ b.entries := by
  -- an add out of the window is dropped, and its ref stays unknown when a replacement moves it into
  -- the window
  have hread : ((trackedFeed sampleSymbol).execWhen (fun s ev => s.Checked 7 ev)
      ⟨{ symbol := sampleSymbol }, fun _ _ => none⟩
      [sampleEvent 'A' 1 .buy 100 10 0, sampleEvent 'A' 2 .buy 200000000 10 0,
        sampleEvent 'U' 2 .buy 100 5 3]).map
        (fun s => ((s.feed.engine 7).map fun b => (b.base, (b.find 3).map Option.isNone),
          s.reference 7 3)) =
      some (some (0, some true), some ⟨.buy, 100, 5, [200000000]⟩) := by
    decide +kernel
  obtain ⟨s, hrun, hvalues⟩ := Option.map_eq_some_iff.1 hread
  obtain ⟨hbook, hlive⟩ := Prod.mk.inj hvalues
  obtain ⟨b, hb, hvalues⟩ := Option.map_eq_some_iff.1 hbook
  obtain ⟨hbase, hfind⟩ := Prod.mk.inj hvalues
  have hs := reachable_of_checked (fun _ _ h => h) (fun _ _ _ h => h) _ (.init (init_tracked _))
    fewerThan_init (by decide) hrun
  refine ⟨s, b, _, hs, hb, hlive, ?_, fun entry hmem => ?_⟩
  · rw [hbase]
    simp [InWindow]
  · have htracks := (tracksFeed_of_reachable (fun _ _ h => h) hs).tracks b hb
    obtain ⟨i, -, hfound, -⟩ := htracks.inv.find_stored hmem
    rw [hfound] at hfind
    cases hfind

end Core

end LowLatencyPipeline
