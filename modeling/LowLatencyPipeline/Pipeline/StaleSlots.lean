import LowLatencyPipeline.Common.RingCalls
import LowLatencyPipeline.Exchange.ItchParser
import LowLatencyPipeline.Pipeline.FrameFeed

/-!
# Stale slots

Events and frames are written in place into ring slots that were used before, and each message type
sets only some of the fields. `Replay` is the pipeline from the parser to exec's view over two rings
whose slots may hold anything at first.

**Coverage**: `Written` are the fields that the parser sets for a type, `Read` those that the core
looks at; `read_subset_written` compares the two. Two replays that differ in what their slots held
then stay alike step by step (`Alike.step`), so that nothing exec can ask its view, no book and no
counted level depends on it (`stale_slots_hidden`).
-/

namespace LowLatencyPipeline

namespace Pipeline

open Common LowLatencyPipeline.Core Exchange Exec SpscRing

/-! ### The pipeline -/

/-- The three processes with their rings, by whole calls. -/
structure Replay where
  parser : ItchParser
  exchangeToCore : SlotRing Event
  feed : PrimaryFeed
  scratch : BookSnapshot := .zero
  pendingReset : Bool := false
  feedToExec : SlotRing MarketUpdate
  view : MarketView := {}
  events : List Event := []
  books : List OrderBook := []
  frames : List MarketUpdate := []

/-- Which process does something next. -/
inductive ReplayStep
  | parse
  | process
  | pop

namespace Replay

variable (tsc : ℕ → UInt64) (instrument : UInt16) (s : Replay)

/-- The exchange calls `ItchParser::next`, and spins while its ring is full. -/
def parse : Replay :=
  if s.parser.Done then s
  else
    match s.exchangeToCore.tryClaim CORE_RING_CAPACITY with
    | none => s
    | some slot =>
      match s.parser.next (some slot) (tsc s.events.length) with
      | (parser, none) => { s with parser }
      | (parser, some ev) => { s with
          parser
          exchangeToCore := s.exchangeToCore.publish CORE_RING_CAPACITY ev
          events := s.events ++ [ev] }

/-- The end of `process`: the frame is built in the slot, or dropped. -/
def send (ev : Event) (trade : Trade) : Replay :=
  match s.feedToExec.tryClaim FEED_RING_CAPACITY with
  | none => { s with pendingReset := true }
  | some slot =>
    let frame := buildMarketUpdate slot ev s.scratch trade instrument (resetFlag s.pendingReset)
    { s with
      pendingReset := false
      feedToExec := s.feedToExec.publish FEED_RING_CAPACITY frame
      frames := s.frames ++ [frame] }

/-- The core pops an event, and `process`. A handler that does not return leaves the core where it
is. -/
def process : Replay :=
  match s.exchangeToCore.tryPop CORE_RING_CAPACITY with
  | none => s
  | some (ev, exchangeToCore) =>
    match s.feed.apply ev with
    | none => s
    | some (feed, none) => { s with exchangeToCore, feed }
    | some (feed, some (book, trade)) =>
      { s with
        exchangeToCore
        feed
        scratch := capture s.scratch book feed.symbol feed.count
        books := s.books ++ [book] }.send instrument ev trade

/-- Exec pops a frame. -/
def pop : Replay :=
  match s.feedToExec.tryPop FEED_RING_CAPACITY with
  | none => s
  | some (frame, feedToExec) => { s with feedToExec, view := s.view.onUpdate frame }

/-- One step. -/
def step : ReplayStep → Replay
  | .parse => s.parse tsc
  | .process => s.process instrument
  | .pop => s.pop

/-- The processes take turns in any order. -/
def run (steps : List ReplayStep) : Replay := steps.foldl (step tsc instrument) s

/-- A file is mapped, the rings are empty, and their slots hold anything. -/
def start (data : List UInt8) (symbol : Symbol) (eventSlots : ℕ → Event)
    (frameSlots : ℕ → MarketUpdate) : Replay where
  parser := { data }
  exchangeToCore := ⟨eventSlots, 0, 0⟩
  feed := { symbol }
  feedToExec := ⟨frameSlots, 0, 0⟩

end Replay

/-! ### Fields written and fields read -/

/-- The fields of an event that not all types carry. -/
inductive Field
  | orderRefNumber
  | side
  | shares
  | stock
  | price
  | matchNumber
  | newOrderRefNumber
  deriving DecidableEq

/-- The events have the same value in a field. -/
def Field.Same (ev ev' : Event) : Field → Prop
  | .orderRefNumber => ev'.orderRefNumber = ev.orderRefNumber
  | .side => ev'.side = ev.side
  | .shares => ev'.shares = ev.shares
  | .stock => ev'.stock = ev.stock
  | .price => ev'.price = ev.price
  | .matchNumber => ev'.matchNumber = ev.matchNumber
  | .newOrderRefNumber => ev'.newOrderRefNumber = ev.newOrderRefNumber

/-- What the parser sets for a type, beside the header. -/
def Written : Char → List Field
  | 'A' | 'F' => [.orderRefNumber, .side, .shares, .stock, .price]
  | 'E' => [.orderRefNumber, .shares, .matchNumber]
  | 'C' => [.orderRefNumber, .shares, .matchNumber, .price]
  | 'X' => [.orderRefNumber, .shares]
  | 'D' => [.orderRefNumber]
  | 'U' => [.orderRefNumber, .newOrderRefNumber, .shares, .price]
  | 'P' => [.orderRefNumber, .side, .shares, .stock, .price, .matchNumber]
  | 'Q' => [.shares, .stock, .price, .matchNumber]
  | _ => []

/-- What the core looks at for a type, beside the header. -/
def Read : Char → List Field
  | 'A' | 'F' => [.stock, .orderRefNumber, .side, .price, .shares]
  | 'E' => [.orderRefNumber, .shares]
  | 'C' => [.orderRefNumber, .shares, .price]
  | 'X' => [.orderRefNumber, .shares]
  | 'D' => [.orderRefNumber]
  | 'U' => [.orderRefNumber, .newOrderRefNumber, .price, .shares]
  | 'P' => [.price, .shares, .side]
  | 'Q' => [.price, .shares]
  | _ => []

/-- **Coverage.** -/
theorem read_subset_written (type : Char) : Read type ⊆ Written type := by
  unfold Read Written
  split <;> decide

/-- The events agree in the header, the TSC and the given fields of their type. -/
structure SameEvent (fields : Char → List Field) (ev ev' : Event) : Prop where
  messageType : ev'.messageType = ev.messageType
  stockLocate : ev'.stockLocate = ev.stockLocate
  trackingNumber : ev'.trackingNumber = ev.trackingNumber
  timestamp : ev'.timestamp = ev.timestamp
  tscIn : ev'.tscIn = ev.tscIn
  fields : ∀ f ∈ fields ev.messageType, f.Same ev ev'

theorem SameEvent.of_subset {fields fields' : Char → List Field} {ev ev' : Event}
    (h : SameEvent fields ev ev') (hsub : ∀ type, fields' type ⊆ fields type) :
    SameEvent fields' ev ev' :=
  { h with fields := fun f hf => h.fields f (hsub _ hf) }

/-- The parser makes the same event of a message in any slot, or none in any. -/
theorem fill_same (type : Char) (msg : List UInt8) (slot slot' : Event) (tsc : UInt64) :
    (fill type msg slot = none ∧ fill type msg slot' = none) ∨
      ∃ ev ev', fill type msg slot = some ev ∧ fill type msg slot' = some ev' ∧
        SameEvent Written { ev with tscIn := tsc } { ev' with tscIn := tsc } := by
  unfold fill
  split
  case h_10 => exact .inl ⟨rfl, rfl⟩
  all_goals
    refine .inr ⟨_, _, rfl, rfl, rfl, rfl, rfl, rfl, rfl, fun f hf => ?_⟩
    simp only [fillAddOrder, fillExecOrder, fillExecOrderWithMessage, fillCancelOrder,
      fillDeleteOrder, fillReplaceOrder, fillTradeMessageNonCross, fillTradeMessageCross,
      fillHeader, Written, List.mem_cons, List.not_mem_nil, or_false] at hf
    rcases hf with rfl | rfl | rfl | rfl | rfl | rfl <;> rfl

theorem next_same (p : ItchParser) (slot slot' : Event) (tsc : UInt64) :
    (∃ p', p.next (some slot) tsc = (p', none) ∧ p.next (some slot') tsc = (p', none)) ∨
      ∃ p' ev ev', p.next (some slot) tsc = (p', some ev) ∧
        p.next (some slot') tsc = (p', some ev') ∧ SameEvent Written ev ev' := by
  unfold ItchParser.next
  rcases fill_same (p.data[p.cursor + 2]?.getD 0).toChar (p.data.drop (p.cursor + 2)) slot slot'
      tsc with ⟨hfill, hfill'⟩ | ⟨ev, ev', hfill, hfill', hsame⟩
  · simp only [hfill, hfill']
    exact .inl ⟨_, rfl, rfl⟩
  · simp only [hfill, hfill']
    exact .inr ⟨_, _, _, rfl, rfl, hsame⟩

section Apply

variable {ev ev' : Event} (h : SameEvent Read ev ev')
include h

theorem isAdd_same : IsAdd ev' ↔ IsAdd ev := by rw [IsAdd, h.messageType, IsAdd]

/-- An add finds its book by ticker and price, the others by their locate alone. -/
theorem bookFor_same (feed : PrimaryFeed) : feed.bookFor ev' = feed.bookFor ev := by
  unfold PrimaryFeed.bookFor
  by_cases hadd : IsAdd ev
  · have hread : Read ev.messageType = Read 'A' := by
      rcases hadd with hA | hF
      · rw [hA]
      · rw [hF]
        rfl
    have hstock : ev'.stock = ev.stock := h.fields .stock (hread ▸ by decide)
    have hprice : ev'.price = ev.price := h.fields .price (hread ▸ by decide)
    rw [if_pos hadd, if_pos ((isAdd_same h).2 hadd), hstock, PrimaryFeed.seed, hprice,
      h.stockLocate, PrimaryFeed.seed]
  · rw [if_neg hadd, if_neg (hadd ∘ (isAdd_same h).1), h.stockLocate]

theorem handle_same (b : OrderBook) : b.handle ev' = b.handle ev := by
  have hfields := h.fields
  unfold OrderBook.handle
  rw [h.messageType]
  split
  case h_10 => rfl
  all_goals
    rename_i htype
    rw [htype] at hfields
    simp only [Read, Field.Same, List.forall_mem_cons] at hfields
    simp only [hfields]

/-- **What the core does with an event depends on the fields that it reads.** -/
theorem apply_same (feed : PrimaryFeed) : feed.apply ev' = feed.apply ev := by
  unfold PrimaryFeed.apply
  rw [bookFor_same h]
  cases feed.bookFor ev with
  | none => rfl
  | some b =>
    simp only [handle_same h, h.stockLocate]

end Apply

/-! ### Frames and views -/

/-- The frames agree, up to the levels past `nb` and `na`. -/
structure SameFrame (u u' : MarketUpdate) : Prop where
  rest : u' = { u with bids := u'.bids, asks := u'.asks }
  bids : ∀ i < u.nb, u'.bids i = u.bids i
  asks : ∀ i < u.na, u'.asks i = u.asks i

/-- A frame built in any slot. -/
theorem buildMarketUpdate_same {ev ev' : Event} (h : SameEvent Read ev ev') (mu mu' : MarketUpdate)
    (snap : BookSnapshot) (trade : Trade) (instrument : UInt16) (extraFlags : UInt8) :
    SameFrame (buildMarketUpdate mu ev snap trade instrument extraFlags)
      (buildMarketUpdate mu' ev' snap trade instrument extraFlags) where
  rest := by simp only [buildMarketUpdate, h.timestamp, h.tscIn, h.messageType]
  bids i hi := (if_pos hi).trans (if_pos hi).symm
  asks i hi := (if_pos hi).trans (if_pos hi).symm

/-- The views agree, up to the levels past `nb` and `na` of their last frame. -/
structure SameView (v v' : MarketView) : Prop where
  rest : v' = { v with u := v'.u }
  u : SameFrame v.u v'.u

theorem trackMid_levels (v : MarketView) (bids asks : ℕ → Level) :
    MarketView.trackMid { v with u := { v.u with bids := bids, asks := asks } } =
      { v.trackMid with u := { v.u with bids := bids, asks := asks } } := by
  by_cases htwo : v.twoSided
  · have htwo' : MarketView.twoSided { v with u := { v.u with bids := bids, asks := asks } } := htwo
    rw [MarketView.trackMid, if_pos htwo', MarketView.trackMid, if_pos htwo]
    rfl
  · have htwo' : ¬MarketView.twoSided { v with u := { v.u with bids := bids, asks := asks } } :=
      htwo
    rw [MarketView.trackMid, if_neg htwo', MarketView.trackMid, if_neg htwo]

/-- `on_update` looks at no level. -/
theorem onUpdate_levels (v : MarketView) (w u : MarketUpdate) (bids asks bids' asks' : ℕ → Level)
    (hw : w = { v.u with bids := bids, asks := asks }) :
    MarketView.onUpdate { v with u := w } { u with bids := bids', asks := asks' } =
      { v.onUpdate u with u := { u with bids := bids', asks := asks' } } := by
  subst hw
  exact trackMid_levels { v.checkSeq u with u := u } bids' asks'

theorem onUpdate_same {v v' : MarketView} {u u' : MarketUpdate} (h : SameView v v')
    (hu : SameFrame u u') : SameView (v.onUpdate u) (v'.onUpdate u') := by
  have hview : v'.onUpdate u' = { v.onUpdate u with u := u' } := by
    rw [h.rest, hu.rest]
    exact onUpdate_levels v v'.u u _ _ _ _ h.u.rest
  have hlast : (v'.onUpdate u').u = u' := onUpdate_u
  refine ⟨by rw [hlast]; exact hview, ?_⟩
  rw [hlast, onUpdate_u]
  exact hu

/-- All that exec can ask a view has the same answer: a level where it counts, and the microprice
where both sides have one. -/
structure SameAnswers (v v' : MarketView) : Prop where
  twoSided : v'.twoSided = v.twoSided
  bestBid : v'.bestBid = v.bestBid
  bestAsk : v'.bestAsk = v.bestAsk
  bidSize : v'.bidSize = v.bidSize
  askSize : v'.askSize = v.askSize
  mid2 : v'.mid2 = v.mid2
  mid : v'.mid = v.mid
  microprice : v.twoSided → v'.microprice = v.microprice
  imbalance : v'.imbalance = v.imbalance
  realizedVol : v'.realizedVol = v.realizedVol
  bidDepth : v'.bidDepth = v.bidDepth
  askDepth : v'.askDepth = v.askDepth
  bidLevel : ∀ i < v.bidDepth, v'.bidLevel i = v.bidLevel i
  askLevel : ∀ i < v.askDepth, v'.askLevel i = v.askLevel i
  lastWasTrade : v'.lastWasTrade = v.lastWasTrade
  tradePrice : v'.tradePrice = v.tradePrice
  tradeQty : v'.tradeQty = v.tradeQty
  tradeSide : v'.tradeSide = v.tradeSide
  eventSeq : v'.eventSeq = v.eventSeq
  eventTimeNs : v'.eventTimeNs = v.eventTimeNs
  instrument : v'.instrument = v.instrument
  flags : v'.flags = v.flags
  feedReset : v'.feedReset = v.feedReset
  frameGaps : v'.frameGaps = v.frameGaps

/-- The sizes of the levels that count add up to the same. -/
theorem totalQty_congr {levels levels' : ℕ → Level} {n : ℕ} (h : ∀ i < n, levels' i = levels i) :
    MarketView.totalQty levels' n = MarketView.totalQty levels n := by
  refine List.foldl_ext _ _ _ fun sum i hi => ?_
  rw [h i (List.mem_range.1 hi)]

theorem SameView.answers {v v' : MarketView} (h : SameView v v') : SameAnswers v v' := by
  obtain ⟨hrest, hu, hbids, hasks⟩ := h
  have hnb : v'.u.nb = v.u.nb := (congrArg MarketUpdate.nb hu :)
  have hna : v'.u.na = v.u.na := (congrArg MarketUpdate.na hu :)
  have hbid : v'.u.bestBid = v.u.bestBid := (congrArg MarketUpdate.bestBid hu :)
  have hask : v'.u.bestAsk = v.u.bestAsk := (congrArg MarketUpdate.bestAsk hu :)
  have htwo : v'.twoSided = v.twoSided := by rw [MarketView.twoSided, hnb, hna, MarketView.twoSided]
  have hmid : v'.mid = v.mid := by rw [MarketView.mid, hbid, hask, MarketView.mid]
  -- sizes look at level 0 only where there is one
  have hqty : ∀ {n : ℕ} {levels levels' : ℕ → Level}, (∀ i < n, levels' i = levels i) →
      (if 0 < n then (levels' 0).qty else 0) = if 0 < n then (levels 0).qty else 0 := by
    intro n levels levels' hlevels
    split_ifs with hpos
    · rw [hlevels 0 hpos]
    · rfl
  exact {
    twoSided := htwo
    bestBid := hbid
    bestAsk := hask
    bidSize := by rw [MarketView.bidSize, hnb, hqty hbids, MarketView.bidSize]
    askSize := by rw [MarketView.askSize, hna, hqty hasks, MarketView.askSize]
    mid2 := by rw [MarketView.mid2, htwo, hbid, hask, MarketView.mid2]
    mid := hmid
    microprice := by
      intro hsided
      -- microprice reads the first level of both sides
      obtain ⟨hb, ha⟩ : 0 < v.u.nb ∧ 0 < v.u.na := of_decide_eq_true hsided
      rw [MarketView.microprice, hbids 0 hb, hasks 0 ha, hbid, hask, hmid, MarketView.microprice]
    imbalance := by
      rw [MarketView.imbalance, hnb, hna, totalQty_congr hbids, totalQty_congr hasks,
        MarketView.imbalance]
    realizedVol := by
      have hvar : v'.var = v.var := (congrArg MarketView.var hrest :)
      funext sqrt
      rw [MarketView.realizedVol, hvar, MarketView.realizedVol]
    bidDepth := hnb
    askDepth := hna
    bidLevel := hbids
    askLevel := hasks
    lastWasTrade := by
      have hqty : v'.u.tradeQty = v.u.tradeQty := (congrArg MarketUpdate.tradeQty hu :)
      rw [MarketView.lastWasTrade, hqty, MarketView.lastWasTrade]
    tradePrice := (congrArg MarketUpdate.tradePrice hu :)
    tradeQty := (congrArg MarketUpdate.tradeQty hu :)
    tradeSide := (congrArg MarketUpdate.tradeSide hu :)
    eventSeq := (congrArg MarketUpdate.eventSeq hu :)
    eventTimeNs := (congrArg MarketUpdate.eventTime hu :)
    instrument := (congrArg MarketUpdate.instrument hu :)
    flags := (congrArg MarketUpdate.flags hu :)
    feedReset := (congrArg MarketView.feedReset hrest :)
    frameGaps := (congrArg MarketView.frameGaps hrest :) }

/-! ### Two replays -/

theorem coreRingCapacity_powerOfTwo : PowerOfTwo CORE_RING_CAPACITY := ⟨13, rfl⟩

/-- Two replays that differ in what nothing reads. -/
structure Alike (s s' : Replay) : Prop where
  parser : s'.parser = s.parser
  exchangeToCore : SlotRing.Agree CORE_RING_CAPACITY (SameEvent Read) s.exchangeToCore
    s'.exchangeToCore
  feed : s'.feed = s.feed
  scratch : s'.scratch = s.scratch
  pendingReset : s'.pendingReset = s.pendingReset
  feedToExec : SlotRing.Agree FEED_RING_CAPACITY SameFrame s.feedToExec s'.feedToExec
  view : SameView s.view s'.view
  events : List.Forall₂ (SameEvent Written) s.events s'.events
  books : s'.books = s.books
  frames : List.Forall₂ SameFrame s.frames s'.frames

namespace Alike

variable {tsc : ℕ → UInt64} {instrument : UInt16} {s s' : Replay}

theorem parse (h : Alike s s') : Alike (s.parse tsc) (s'.parse tsc) := by
  unfold Replay.parse
  rw [h.parser, ← h.events.length_eq]
  split_ifs
  · exact h
  rcases h.exchangeToCore.tryClaim with ⟨hfull, hfull'⟩ | ⟨slot, slot', hslot, hslot'⟩
  · rw [hfull, hfull']
    exact h
  have hroom : s.exchangeToCore.tryClaim CORE_RING_CAPACITY ≠ none := by
    rw [hslot]
    exact Option.some_ne_none _
  rw [hslot, hslot']
  rcases next_same s.parser slot slot' (tsc s.events.length) with
    ⟨p, hnext, hnext'⟩ | ⟨p, ev, ev', hnext, hnext', hev⟩
  · simp only [hnext, hnext']
    exact { h with parser := rfl }
  · simp only [hnext, hnext']
    exact { h with
      parser := rfl
      exchangeToCore := h.exchangeToCore.publish coreRingCapacity_powerOfTwo hroom
        (hev.of_subset read_subset_written)
      events := List.rel_append h.events (.cons hev .nil) }

theorem send (h : Alike s s') {ev ev' : Event} (hev : SameEvent Read ev ev') (trade : Trade) :
    Alike (s.send instrument ev trade) (s'.send instrument ev' trade) := by
  unfold Replay.send
  rcases h.feedToExec.tryClaim with ⟨hfull, hfull'⟩ | ⟨slot, slot', hslot, hslot'⟩
  · rw [hfull, hfull']
    exact { h with pendingReset := rfl }
  have hroom : s.feedToExec.tryClaim FEED_RING_CAPACITY ≠ none := by
    rw [hslot]
    exact Option.some_ne_none _
  have hframe : SameFrame
      (buildMarketUpdate slot ev s.scratch trade instrument (resetFlag s.pendingReset))
      (buildMarketUpdate slot' ev' s'.scratch trade instrument (resetFlag s'.pendingReset)) := by
    rw [h.scratch, h.pendingReset]
    exact buildMarketUpdate_same hev slot slot' s.scratch trade instrument _
  rw [hslot, hslot']
  exact { h with
    pendingReset := rfl
    feedToExec := h.feedToExec.publish feedRingCapacity_powerOfTwo hroom hframe
    frames := List.rel_append h.frames (.cons hframe .nil) }

theorem process (h : Alike s s') : Alike (s.process instrument) (s'.process instrument) := by
  unfold Replay.process
  rcases h.exchangeToCore.tryPop with
    ⟨hempty, hempty'⟩ | ⟨ev, ev', rest, rest', hpop, hpop', hev, hrest⟩
  · rw [hempty, hempty']
    exact h
  rw [hpop, hpop']
  simp only [h.feed, apply_same hev]
  match s.feed.apply ev with
  | none => exact h
  | some (feed, none) => exact { h with exchangeToCore := hrest, feed := rfl }
  | some (feed, some (book, trade)) =>
    have happlied : Alike
        { s with
          exchangeToCore := rest
          feed
          scratch := capture s.scratch book feed.symbol feed.count
          books := s.books ++ [book] }
        { s' with
          exchangeToCore := rest'
          feed
          scratch := capture s'.scratch book feed.symbol feed.count
          books := s'.books ++ [book] } :=
      { h with
        exchangeToCore := hrest
        feed := rfl
        scratch := by rw [h.scratch]
        books := by rw [h.books] }
    exact happlied.send hev trade

theorem pop (h : Alike s s') : Alike s.pop s'.pop := by
  unfold Replay.pop
  rcases h.feedToExec.tryPop with
    ⟨hempty, hempty'⟩ | ⟨frame, frame', rest, rest', hpop, hpop', hframe, hrest⟩
  · rw [hempty, hempty']
    exact h
  rw [hpop, hpop']
  exact { h with feedToExec := hrest, view := onUpdate_same h.view hframe }

/-- **The step lemma.** -/
theorem step (h : Alike s s') (a : ReplayStep) :
    Alike (s.step tsc instrument a) (s'.step tsc instrument a) := by
  cases a with
  | parse => exact h.parse
  | process => exact h.process
  | pop => exact h.pop

/-- **The run lemma.** -/
theorem run (h : Alike s s') (steps : List ReplayStep) :
    Alike (s.run tsc instrument steps) (s'.run tsc instrument steps) := by
  induction steps generalizing s s' with
  | nil => exact h
  | cons a steps ih => exact ih (h.step a)

/-- Replays start alike. -/
theorem start (data : List UInt8) (symbol : Symbol) (eventSlots eventSlots' : ℕ → Event)
    (frameSlots frameSlots' : ℕ → MarketUpdate) :
    Alike (.start data symbol eventSlots frameSlots)
      (.start data symbol eventSlots' frameSlots') where
  parser := rfl
  exchangeToCore := .empty _ _
  feed := rfl
  scratch := rfl
  pendingReset := rfl
  feedToExec := .empty _ _
  view := ⟨rfl, rfl, fun _ _ => rfl, fun _ _ => rfl⟩
  events := .nil
  books := rfl
  frames := .nil

end Alike

/-- **Stale slot bytes never leak.** Two replays of a well-formed file, in any order of steps, that
differ only in what the slots of the two rings held at first: their frames agree but for the levels
past `nb` and `na`, their books are the same, and so is every answer of exec's view. -/
theorem stale_slots_hidden (messages : List Message) (symbol : Symbol) (tsc : ℕ → UInt64)
    (instrument : UInt16) (eventSlots eventSlots' : ℕ → Event)
    (frameSlots frameSlots' : ℕ → MarketUpdate) (steps : List ReplayStep) :
    let data := messages.flatMap Message.frame
    let s := (Replay.start data symbol eventSlots frameSlots).run tsc instrument steps
    let s' := (Replay.start data symbol eventSlots' frameSlots').run tsc instrument steps
    List.Forall₂ SameFrame s.frames s'.frames ∧ s'.books = s.books ∧
      SameAnswers s.view s'.view := by
  intro data s s'
  have h : Alike s s' := (Alike.start data symbol eventSlots eventSlots' frameSlots frameSlots').run
    steps
  exact ⟨h.frames, h.books, h.view.answers⟩

end Pipeline

end LowLatencyPipeline
