import LowLatencyPipeline.Core.PriceWindow
import LowLatencyPipeline.Core.Published
import LowLatencyPipeline.Pipeline.DashboardFeed
import LowLatencyPipeline.Pipeline.StaleSlots

/-!
# What a file says

The events of a file of messages, and the reference books after any number of them, apart from all
processes and rings. `eventOf` is what a message means to the core: the parser's event says the same
(`tells_of_carries`), but its other fields are what the ring slot held before.

`Shows` relates a frame for exec with a place in the file. `Follows` is the feed at such a place:
each well-formed event takes it to the next one (`Follows.step`), and any frame that is built there
shows it (`Follows.shows`).
-/

namespace LowLatencyPipeline

namespace Pipeline

open LowLatencyPipeline.Core Exchange

/-! ### Messages as events -/

/-- The header of an event, and nothing else. -/
def headerEvent (h : Header) (type : Char) : Event :=
  { Event.zero with
    messageType := type
    stockLocate := h.stockLocate
    trackingNumber := h.trackingNumber
    timestamp := UInt64.ofNat h.timestamp.toNat }

/-- The event of a message, if it is one of those the parser makes events of. -/
def eventOf : Message → Option Event
  | .addOrder h ref side shares stock price =>
    some { headerEvent h 'A' with orderRefNumber := ref, side, shares, stock, price }
  | .addOrderWithMPID h ref side shares stock price _ =>
    some { headerEvent h 'F' with orderRefNumber := ref, side, shares, stock, price }
  | .execOrder h ref shares matchNumber =>
    some { headerEvent h 'E' with orderRefNumber := ref, shares, matchNumber }
  | .execOrderWithMessage h ref shares matchNumber _ price =>
    some { headerEvent h 'C' with orderRefNumber := ref, shares, matchNumber, price }
  | .cancelOrder h ref shares => some { headerEvent h 'X' with orderRefNumber := ref, shares }
  | .deleteOrder h ref => some { headerEvent h 'D' with orderRefNumber := ref }
  | .replaceOrder h ref newRef shares price =>
    some { headerEvent h 'U' with
      orderRefNumber := ref, newOrderRefNumber := newRef, shares, price }
  | .tradeNonCross h ref side shares stock price matchNumber =>
    some { headerEvent h 'P' with orderRefNumber := ref, side, shares, stock, price, matchNumber }
  | .tradeCross h shares stock price matchNumber _ =>
    some { headerEvent h 'Q' with shares := shares.toUInt32, stock, price, matchNumber }
  | .other _ _ _ _ => none

/-- The events of a file. -/
def eventsOf (messages : List Message) : List Event := messages.filterMap eventOf

/-- The event `ev` says what `c` says, up to the time stamp of the parser. -/
structure Tells (c ev : Event) : Prop where
  same : SameEvent Read { c with tscIn := ev.tscIn } ev

theorem tells_of_header {h : Header} {type : Char} {c ev : Event} (hev : CarriesHeader type h ev)
    (htype : c.messageType = type) (hlocate : c.stockLocate = h.stockLocate)
    (htracking : c.trackingNumber = h.trackingNumber)
    (htime : c.timestamp = UInt64.ofNat h.timestamp.toNat)
    (hfields : ∀ f ∈ Read type, f.Same { c with tscIn := ev.tscIn } ev) : Tells c ev := by
  obtain ⟨htype', hlocate', htracking', htime'⟩ := hev
  refine ⟨htype'.trans htype.symm, hlocate'.trans hlocate.symm, htracking'.trans htracking.symm,
    ?_, rfl, ?_⟩
  · change ev.timestamp = c.timestamp
    rw [htime, ← htime', UInt64.ofNat_toNat]
  · change ∀ f ∈ Read c.messageType, _
    rw [htype]
    exact hfields

/-- **The parser's event says what its message says.** -/
theorem tells_of_carries {m : Message} {ev : Event} (h : Carries m ev) :
    ∃ c, eventOf m = some c ∧ Tells c ev := by
  cases m with
  | addOrder | addOrderWithMPID =>
    obtain ⟨hheader, rfl, rfl, rfl, rfl, rfl⟩ := h
    exact ⟨_, rfl, tells_of_header hheader rfl rfl rfl rfl (by simp [Read, Field.Same])⟩
  | execOrder =>
    obtain ⟨hheader, rfl, rfl, rfl⟩ := h
    exact ⟨_, rfl, tells_of_header hheader rfl rfl rfl rfl (by simp [Read, Field.Same])⟩
  | execOrderWithMessage =>
    obtain ⟨hheader, rfl, rfl, rfl, rfl⟩ := h
    exact ⟨_, rfl, tells_of_header hheader rfl rfl rfl rfl (by simp [Read, Field.Same])⟩
  | cancelOrder =>
    obtain ⟨hheader, rfl, rfl⟩ := h
    exact ⟨_, rfl, tells_of_header hheader rfl rfl rfl rfl (by simp [Read, Field.Same])⟩
  | deleteOrder =>
    obtain ⟨hheader, rfl⟩ := h
    exact ⟨_, rfl, tells_of_header hheader rfl rfl rfl rfl (by simp [Read, Field.Same])⟩
  | replaceOrder =>
    obtain ⟨hheader, rfl, rfl, rfl, rfl⟩ := h
    exact ⟨_, rfl, tells_of_header hheader rfl rfl rfl rfl (by simp [Read, Field.Same])⟩
  | tradeNonCross =>
    obtain ⟨hheader, rfl, rfl, rfl, rfl, rfl, rfl⟩ := h
    exact ⟨_, rfl, tells_of_header hheader rfl rfl rfl rfl (by simp [Read, Field.Same])⟩
  | tradeCross =>
    obtain ⟨hheader, hshares, rfl, rfl, rfl⟩ := h
    refine ⟨_, rfl, tells_of_header hheader rfl rfl rfl rfl ?_⟩
    -- an event has the low 32 bits of the shares
    have hlow := UInt32.toNat_inj.1 (hshares.trans (UInt64.toNat_toUInt32 _).symm)
    simp [Read, Field.Same, hlow]
  | other => exact absurd h id

namespace Tells

variable {c ev : Event} (h : Tells c ev)
include h

theorem stockLocate : ev.stockLocate = c.stockLocate := h.same.stockLocate

theorem isAdd : IsAdd ev ↔ IsAdd c := (isAdd_same h.same :)

/-- Adds say the same about ticker and price. -/
theorem add (hadd : IsAdd c) : ev.stock = c.stock ∧ ev.price = c.price := by
  have hread : Read c.messageType = Read 'A' := by
    rcases hadd with hA | hF
    · rw [hA]
    · rw [hF]
      rfl
  have hfields : ∀ f ∈ Read c.messageType, f.Same { c with tscIn := ev.tscIn } ev := h.same.fields
  exact ⟨hfields .stock (hread ▸ by decide), hfields .price (hread ▸ by decide)⟩

/-- They make the same call on a book. -/
theorem bookOp : bookOp ev = bookOp c := by
  have hfields : ∀ f ∈ Read c.messageType, f.Same { c with tscIn := ev.tscIn } ev := h.same.fields
  have htype : ev.messageType = c.messageType := h.same.messageType
  unfold Core.bookOp
  rw [htype]
  split
  case h_8 => rfl
  all_goals
    rename_i htype
    rw [htype] at hfields
    simp only [Read, Field.Same, List.forall_mem_cons] at hfields
    simp only [hfields]

end Tells

/-! ### Places in a file -/

/-- The reference books after some events of the symbol's feed. -/
def referenceAt (symbol : Symbol) (events : List Event) : Tracked :=
  events.foldl (fun s ev => { s with reference := s.referenceAfter ev })
    ⟨{ symbol }, fun _ _ => none⟩

/-- The events are well formed and in whole cents, each in view of those before it. -/
def WellFormedEvents (symbol : Symbol) (locate : UInt16) (events : List Event) : Prop :=
  ∀ front ev rest, events = front ++ ev :: rest →
    (referenceAt symbol front).WellFormed ev locate ∧ InPennies locate ev

/-- The events that touch the symbol's book: those at its stock locate, from its first add on. -/
def bookEvents (locate : UInt16) (events : List Event) : List Event :=
  (events.filter fun ev => ev.stockLocate = locate).dropWhile fun ev => ¬IsAdd ev

/-- The least price that the symbol's book can hold, which its first add decides. -/
def windowBase (locate : UInt16) (events : List Event) : ℕ :=
  (bookEvents locate events).head?.elim 0 fun ev => (ev.price.toNat - 52428800) / 100 * 100

/-- **The frame shows the symbol's book after these events**: the orders of the reference book that
have always been in the window. -/
structure Shows (symbol : Symbol) (locate : UInt16) (events : List Event) (u : MarketUpdate) :
    Prop where
  eventSeq : u.eventSeq = (bookEvents locate events).length
  depth : ∃ entries : Multiset (UInt64 × OrderEntry), entries.Nodup ∧
    ((referenceAt symbol events).reference locate).EntriesOf (windowBase locate events) entries ∧
      ShowsDepth u entries

section Places

variable {symbol : Symbol} {locate : UInt16} {events : List Event} {c ev : Event}

theorem referenceAt_feed : (referenceAt symbol events).feed = { symbol } := by
  unfold referenceAt
  induction events using List.reverseRecOn with
  | nil => rfl
  | append_singleton events ev ih => rw [List.foldl_concat, ih]

theorem referenceAt_concat : (referenceAt symbol (events ++ [c])).reference =
    (referenceAt symbol events).referenceAfter c := by
  rw [referenceAt, List.foldl_concat]
  rfl

theorem bookEvents_concat_of_ne (hne : c.stockLocate ≠ locate) :
    bookEvents locate (events ++ [c]) = bookEvents locate events := by
  rw [bookEvents, List.filter_append, List.filter_cons_of_neg (by simpa using hne),
    List.filter_nil, List.append_nil, bookEvents]

/-- Nothing touches a book that is not there. -/
theorem bookEvents_concat_of_nil (hnil : bookEvents locate events = []) (hadd : ¬IsAdd c) :
    bookEvents locate (events ++ [c]) = [] := by
  rw [bookEvents, List.filter_append, List.dropWhile_append,
    if_pos (by rw [← bookEvents, hnil]; rfl)]
  by_cases hlocate : c.stockLocate = locate
  · simp [hlocate, hadd]
  · simp [hlocate]

theorem bookEvents_concat (hlocate : c.stockLocate = locate)
    (hbook : bookEvents locate events ≠ [] ∨ IsAdd c) :
    bookEvents locate (events ++ [c]) = bookEvents locate events ++ [c] := by
  rw [bookEvents, List.filter_append, List.filter_cons_of_pos (by simpa using hlocate),
    List.filter_nil, List.dropWhile_append]
  by_cases hnil : bookEvents locate events = []
  · have hadd := hbook.resolve_left (not_not.2 hnil)
    rw [if_pos (by rw [← bookEvents, hnil]; rfl), hnil]
    simp [hadd]
  · rw [if_neg (by rw [← bookEvents, List.isEmpty_iff]; exact hnil), ← bookEvents]

theorem windowBase_concat (hne : bookEvents locate events ≠ [])
    (hbook : bookEvents locate (events ++ [c]) = bookEvents locate events ++ [c]) :
    windowBase locate (events ++ [c]) = windowBase locate events := by
  rw [windowBase, hbook, List.head?_append_of_ne_nil _ hne, windowBase]

/-- An event makes at most one more order live. -/
theorem fewerThan_referenceAfter {s : Tracked} {n : ℕ} (h : (s.reference locate).FewerThan n)
    (ev : Event) : (s.referenceAfter ev locate).FewerThan (n + 1) := by
  have hmono : (s.reference locate).FewerThan (n + 1) := by
    obtain ⟨refs, hrefs, hcard⟩ := h
    exact ⟨refs, hrefs, by omega⟩
  rcases eq_or_ne locate ev.stockLocate with rfl | hne
  · cases hop : Core.bookOp ev with
    | none => exact Tracked.referenceAfter_of_none hop ▸ hmono
    | some op => exact Tracked.referenceAfter_of_some hop ▸ h.run op
  · exact Tracked.referenceAfter_of_ne hne ▸ hmono

theorem fewerThan_referenceAt :
    ((referenceAt symbol events).reference locate).FewerThan (events.length + 1) := by
  induction events using List.reverseRecOn with
  | nil => exact fewerThan_init
  | append_singleton events ev ih =>
    rw [referenceAt_concat, List.length_append, List.length_singleton]
    exact fewerThan_referenceAfter ih ev

/-- **A file of fewer than `2 ^ 20` events is well formed by its checks alone**: its orders have
room in the map. -/
theorem wellFormedEvents_of_checked (hlength : events.length < 1048576)
    (hchecked : ∀ i ∈ List.range events.length, ∀ ev ∈ events[i]?,
      (referenceAt symbol (events.take i)).Checked locate ev ∧ InPennies locate ev) :
    WellFormedEvents symbol locate events := by
  intro front ev rest hevents
  have hlt : front.length < events.length := by simp [hevents]
  obtain ⟨hcheck, hpennies⟩ := hchecked front.length (List.mem_range.2 hlt) ev (by simp [hevents])
  rw [show events.take front.length = front by simp [hevents]] at hcheck
  have hfront : ((referenceAt symbol front).reference locate).FewerThan (front.length + 1) :=
    fewerThan_referenceAt
  obtain ⟨refs, hrefs, hcard⟩ := fewerThan_referenceAfter hfront ev
  exact ⟨⟨hcheck.1, hcheck.2, refs, hrefs, by omega⟩, hpennies⟩

/-! ### The feed at a place -/

/-- **The feed is where these events lead to.** -/
structure Follows (symbol : Symbol) (locate : UInt16) (events : List Event) (feed : PrimaryFeed) :
    Prop where
  reachable : (trackedFeed symbol).ReachableWhen
    (fun s ev => s.WellFormed ev locate ∧ InPennies locate ev)
    ⟨feed, (referenceAt symbol events).reference⟩
  count : feed.count = (bookEvents locate events).length
  fresh : feed.engine locate = none → bookEvents locate events = []
  base : ∀ b, feed.engine locate = some b →
    b.base = windowBase locate events ∧ bookEvents locate events ≠ []

variable {feed feed' : PrimaryFeed} {out : Option (OrderBook × Trade)}

theorem Follows.init (symbol : Symbol) (locate : UInt16) : Follows symbol locate [] { symbol } where
  reachable := .init (init_tracked symbol)
  count := rfl
  fresh _ := rfl
  base b hb := by cases hb

/-- What is well formed in view of the reference books alone. -/
theorem Follows.wellFormed (h : Follows symbol locate events feed) (htells : Tells c ev)
    (hc : (referenceAt symbol events).WellFormed c locate ∧ InPennies locate c) :
    Tracked.WellFormed ⟨feed, (referenceAt symbol events).reference⟩ ev locate ∧
      InPennies locate ev := by
  have hsymbol : feed.symbol = symbol := (tracksFeed_of_reachable (fun _ _ h => h.1)
    h.reachable).symbol_eq
  obtain ⟨⟨hlocate, hadmits, hfewer⟩, hpennies⟩ := hc
  rw [referenceAt_feed] at hlocate
  refine ⟨⟨fun hadd => ?_, fun heq op hop => ?_, ?_⟩, fun heq op hop => ?_⟩
  · have hadd := htells.isAdd.1 hadd
    rw [(htells.add hadd).1, htells.stockLocate, hsymbol]
    exact hlocate hadd
  · exact hadmits (htells.stockLocate ▸ heq) op (htells.bookOp ▸ hop)
  · rw [Tracked.referenceAfter, htells.bookOp, htells.stockLocate]
    exact hfewer
  · exact hpennies (htells.stockLocate ▸ heq) op (htells.bookOp ▸ hop)

/-- The book of an event is that of the place, or the event makes it. -/
theorem Follows.base_of_bookFor (h : Follows symbol locate events feed) (htells : Tells c ev)
    {b : OrderBook} (hb : feed.bookFor ev = some b) (hlocate : ev.stockLocate = locate) :
    bookEvents locate (events ++ [c]) = bookEvents locate events ++ [c] ∧
      b.base = windowBase locate (events ++ [c]) := by
  have hlocate' : c.stockLocate = locate := htells.stockLocate ▸ hlocate
  rcases bookFor_cases hb with hstored | ⟨hnone, hadd, -, rfl⟩
  · obtain ⟨hbase, hne⟩ := h.base b (hlocate ▸ hstored)
    have hconcat := bookEvents_concat hlocate' (.inl hne)
    exact ⟨hconcat, hbase.trans (windowBase_concat hne hconcat).symm⟩
  · have hadd' := htells.isAdd.1 hadd
    have hconcat : bookEvents locate (events ++ [c]) = bookEvents locate events ++ [c] :=
      bookEvents_concat hlocate' (.inr hadd')
    refine ⟨hconcat, ?_⟩
    rw [windowBase, hconcat, h.fresh (hlocate ▸ hnone), List.nil_append, List.head?_cons,
      Option.elim_some, ← (htells.add hadd').2]
    exact toNat_basePrice_seed ev LEVEL_COUNT

/-- An event that is filtered out touches no book. -/
theorem Follows.filtered (h : Follows symbol locate events feed) (htells : Tells c ev)
    (hev : Tracked.WellFormed ⟨feed, (referenceAt symbol events).reference⟩ ev locate)
    (hb : feed.bookFor ev = none) :
    bookEvents locate (events ++ [c]) = bookEvents locate events := by
  have hsymbol : feed.symbol = symbol := (tracksFeed_of_reachable (fun _ _ h => h.1)
    h.reachable).symbol_eq
  by_cases hlocate : c.stockLocate = locate
  · have hlocate' : ev.stockLocate = locate := htells.stockLocate.trans hlocate
    unfold PrimaryFeed.bookFor at hb
    split_ifs at hb with hadd hstock
    · exact absurd ((hev.locate_iff hadd).2 hlocate') hstock
    · have hnil := h.fresh (hlocate' ▸ hb)
      rw [bookEvents_concat_of_nil hnil (hadd ∘ htells.isAdd.2), hnil]
  · exact bookEvents_concat_of_ne hlocate

/-- **An event takes the feed to the next place**, with the book that it has touched. -/
theorem Follows.step (h : Follows symbol locate events feed) (htells : Tells c ev)
    (hc : (referenceAt symbol events).WellFormed c locate ∧ InPennies locate c)
    (happly : feed.apply ev = some (feed', out)) :
    Follows symbol locate (events ++ [c]) feed' ∧
      ∀ b trade, out = some (b, trade) → feed'.engine locate = some b := by
  have hev := h.wellFormed htells hc
  have htracks := tracksFeed_of_reachable (fun _ _ h => h.1) h.reachable
  have hreference : Tracked.referenceAfter ⟨feed, (referenceAt symbol events).reference⟩ ev =
      (referenceAt symbol (events ++ [c])).reference := by
    rw [referenceAt_concat, Tracked.referenceAfter, htells.bookOp, htells.stockLocate]
    rfl
  have hreach : (trackedFeed symbol).ReachableWhen
      (fun s ev => s.WellFormed ev locate ∧ InPennies locate ev)
      ⟨feed', (referenceAt symbol (events ++ [c])).reference⟩ := by
    rw [← hreference]
    refine .step h.reachable hev ?_
    change (feed.apply ev).map _ = _
    rw [happly]
    rfl
  rcases apply_cases happly with ⟨hb, rfl, rfl⟩ | ⟨b, b', trade, hb, hhandle, rfl, rfl⟩
  · have hsame := h.filtered htells hev.1 hb
    refine ⟨⟨hreach, hsame ▸ h.count, hsame ▸ h.fresh, fun b hb => ?_⟩, fun b trade hout => ?_⟩
    · rw [windowBase, hsame]
      exact h.base b hb
    · cases hout
  · obtain ⟨hlocate, -⟩ := htracks.bookFor hev.1 hb
    obtain ⟨hconcat, hbase⟩ := h.base_of_bookFor htells hb hlocate
    -- no handler moves the window
    have hkept : b'.base = b.base := by
      rcases handle_cases hhandle with ⟨-, rfl⟩ | ⟨op, -, hrun⟩
      · rfl
      · exact congrArg UInt32.toNat (basePrice_run hrun)
    have hengine : feed.engine.set ev.stockLocate b' locate = some b' := by
      rw [BookArray.set, hlocate, Function.update_self]
    refine ⟨⟨hreach, ?_, fun hnone => ?_, fun d hd => ?_⟩, fun d trade' hout => ?_⟩
    · rw [hconcat, List.length_append, ← h.count]
      rfl
    · exact absurd (hengine.symm.trans hnone) (by simp)
    · obtain rfl := Option.some.inj (hengine.symm.trans hd)
      exact ⟨hkept.trans hbase, by simp [hconcat]⟩
    · obtain ⟨rfl, -⟩ := Prod.mk.inj (Option.some.inj hout)
      exact hengine

/-- **Any frame that is built at a place shows it.** -/
theorem Follows.shows (h : Follows symbol locate events feed) {b : OrderBook}
    (hb : feed.engine locate = some b) (out : BookSnapshot) {u : MarketUpdate}
    (hu : Draws u (capture out b feed.symbol feed.count)) : Shows symbol locate events u := by
  have hbook := (tracksFeed_of_reachable (fun _ _ h => h.1) h.reachable).tracks b hb
  obtain ⟨htop, hpenny⟩ := topInv_pennyInv_of_reachable h.reachable hb
  have hseq : u.eventSeq = feed.count := hu.eventSeq
  have hdepth : ShowsDepth u b.entries := by
    obtain ⟨mu, ev, trade, instrument, reset, rfl⟩ := hu
    exact showsDepth hbook.inv htop hpenny
  refine ⟨hseq.trans h.count, b.entries, .of_map _ hbook.inv.nodup_refs, ?_, hdepth⟩
  rw [← (h.base b hb).1]
  exact hbook.stored

/-- The core never hangs on an event of the file. -/
theorem Follows.apply_isSome (h : Follows symbol locate events feed) (htells : Tells c ev)
    (hc : (referenceAt symbol events).WellFormed c locate ∧ InPennies locate c) :
    (feed.apply ev).isSome := by
  have htracks := tracksFeed_of_reachable (fun _ _ h => h.1) h.reachable
  exact htracks.apply_isSome (h.wellFormed htells hc).1

end Places

end Pipeline

end LowLatencyPipeline
