import LowLatencyPipeline.Core.Reference

/-!
# The published depth

Over a well-formed feed in whole cents, `top_bids`, `top_asks`, the best prices and the frames of
`capture` and `build_market_update` show the ladder of the live orders that the book stores:
`published_depth`.
-/

namespace LowLatencyPipeline

namespace Core

/-- The prices of an event at this stock locate are positive multiples of 100. -/
def InPennies (locate : UInt16) (ev : Event) : Prop :=
  ev.stockLocate = locate → ∀ op ∈ bookOp ev, op.Priced ∧ op.InPennies

instance (locate : UInt16) (ev : Event) : Decidable (InPennies locate ev) :=
  inferInstanceAs (Decidable (_ → _))

/-! ### The book -/

section Book

variable {symbol : Symbol} {locate : UInt16} {s : Tracked} {b : OrderBook}

theorem PennyInv.init (stockId : UInt64) (basePrice : UInt32) :
    PennyInv (.init stockId basePrice) := by
  have hentries : (OrderBook.init stockId basePrice).entries = 0 := OrderMap.entries_empty _
  refine ⟨fun side => ?_, fun side p hp => ?_, fun side => .inl rfl⟩
  · change (basePrice / PRICE_TICK * PRICE_TICK).toNat % 100 = 0
    have hdiv := Nat.div_mul_le_self basePrice.toNat 100
    have hlt := basePrice.toNat_lt
    rw [UInt32.toNat_mul, UInt32.toNat_div, show PRICE_TICK.toNat = 100 from rfl,
      Nat.mod_eq_of_lt (hdiv.trans_lt hlt)]
    exact Nat.mul_mod_left _ _
  · rw [hentries] at hp
    exact absurd hp quotes_zero

/-- The book of a well-formed feed in whole cents. -/
theorem topInv_pennyInv_of_reachable
    (hs : (trackedFeed symbol).ReachableWhen
      (fun s ev => s.WellFormed ev locate ∧ InPennies locate ev) s)
    (hb : s.feed.engine locate = some b) : TopInv b ∧ PennyInv b := by
  refine book_invariant (P := fun b => TopInv b ∧ PennyInv b) (fun _ _ h => h.1) ?_ ?_ hs b hb
  · intro s ev hc hlocate hadd
    have hprice := (hc.1.admits hlocate _ (bookOp_of_isAdd hadd)).2
    exact ⟨TopInv.init _ (seed_le.trans hprice), PennyInv.init _ _⟩
  · intro s ev b b' op hc hlocate hop hinv heffect ⟨htop, hpenny⟩
    obtain ⟨hpriced, hpennies⟩ := hc.2 hlocate op hop
    have hseen := topSeen_of_penny hinv htop hpenny hpriced hpennies
    exact ⟨heffect.topInv hinv htop hpriced hseen, heffect.pennyInv hinv htop hpenny hpennies⟩

/-- The prices of a ladder go from better to worse. -/
theorem pairwise_ladder (entries : Multiset (UInt64 × OrderEntry)) (side : Side) :
    (ladder entries side).Pairwise fun l m => better side l.1 m.1 := by
  rw [ladder, List.pairwise_map]
  have hsorted := (prices entries side).pairwise_sort (noWorse side)
  have hnodup := (prices entries side).sort_nodup (noWorse side)
  refine (hsorted.and hnodup).imp fun {p q} h => ?_
  obtain ⟨hle, hne⟩ := h
  rw [noWorse] at hle
  rw [ne_eq, ← UInt32.toNat_inj] at hne
  cases side <;> simp only [better, UInt32.lt_iff_toNat_lt] at hle ⊢ <;> omega

/-- The best price is the first of the ladder, or the sentinel of an empty side. -/
theorem best_eq_head (hb : BookInv b) (h : TopInv b) (hpenny : PennyInv b) (side : Side) :
    (b.sides side).best = (ladder b.entries side).head?.elim (emptyBest side) (·.1) := by
  have hwalk := walk_eq_ladder hb h hpenny side 1
  rw [OrderBook.walk] at hwalk
  split_ifs at hwalk with hempty
  · cases hladder : ladder b.entries side with
    | nil => exact hempty
    | cons l ladder => simp [hladder] at hwalk
  · cases hladder : ladder b.entries side with
    | nil => simp [hladder] at hwalk
    | cons l ladder =>
      rw [hladder] at hwalk
      simp only [List.map_cons, List.take_succ_cons, List.cons.injEq] at hwalk
      rw [List.head?_cons, Option.elim_some, ← hwalk.1]
      rfl

end Book

/-! ### The frame -/

/-- What a level of a frame says. -/
def shownLevel (l : LowLatencyPipeline.Level) : ℤ × ℤ × ℕ := (l.price, l.qty, l.orderCount.toNat)

/-- The counted bids, or asks, of a frame. -/
def shownLevels (u : MarketUpdate) : Side → List (ℤ × ℤ × ℕ)
  | .buy => (List.range u.nb).map fun i => shownLevel (u.bids i)
  | .sell => (List.range u.na).map fun i => shownLevel (u.asks i)

/-- A level of a ladder in a frame's integers. -/
def widened (l : UInt32 × ℕ × ℕ) : ℤ × ℤ × ℕ := (l.1.toNat, l.2.1, l.2.2)

/-- A frame shows the depth of these orders. -/
structure ShowsDepth (u : MarketUpdate) (entries : Multiset (UInt64 × OrderEntry)) : Prop where
  levels : ∀ side, shownLevels u side = ((ladder entries side).take EXEC_DEPTH).map widened
  bestBid : u.bestBid = (ladder entries .buy).head?.elim EMPTY_BID fun l => l.1.toNat
  bestAsk : u.bestAsk = (ladder entries .sell).head?.elim EMPTY_ASK fun l => l.1.toNat
  twoSided : u.flags &&& TWO_SIDED ≠ 0 ↔ ladder entries .buy ≠ [] ∧ ladder entries .sell ≠ []

/-- The front of an array that a list was written to. -/
theorem map_range_writeFront {α β : Type*} (out : ℕ → α) (xs : List α) (k : ℕ) (f : α → β) :
    (List.range (min xs.length k)).map (fun i => f (writeFront out xs i)) =
      (xs.take k).map f := by
  refine List.ext_getElem (by simp [min_comm]) fun i hi _ => ?_
  have hlt : i < xs.length := by
    rw [List.length_map, List.length_range] at hi
    omega
  simp [writeFront, hlt]

section Frame

variable {b : OrderBook} {out : BookSnapshot} {symbol : Symbol} {eventSeq : ℕ} {mu : MarketUpdate}
  {ev : Event} {trade : Trade} {instrument : UInt16} {reset : Bool}

/-- A side of a frame. -/
theorem levels_of_walk {xs : List OrderBook.Level} {ladder : List (UInt32 × ℕ × ℕ)}
    {old : ℕ → OrderBook.Level} {stale : ℕ → LowLatencyPipeline.Level}
    (hxs : xs.map OrderBook.Level.shown = ladder.take DASH_DEPTH) :
    (List.range (min xs.length EXEC_DEPTH)).map (fun i => shownLevel
        (if i < min xs.length EXEC_DEPTH then (writeFront old xs i).widen else stale i)) =
      (ladder.take EXEC_DEPTH).map widened := by
  have hcounted : (List.range (min xs.length EXEC_DEPTH)).map (fun i => shownLevel
      (if i < min xs.length EXEC_DEPTH then (writeFront old xs i).widen else stale i)) =
        (xs.take EXEC_DEPTH).map fun l => shownLevel l.widen := by
    rw [← map_range_writeFront old xs EXEC_DEPTH]
    refine List.map_congr_left fun i hi => ?_
    rw [if_pos (List.mem_range.1 hi)]
  calc _ = (xs.take EXEC_DEPTH).map fun l => shownLevel l.widen := hcounted
    _ = ((xs.map OrderBook.Level.shown).take EXEC_DEPTH).map widened := by
        rw [← List.map_take, List.map_map]
        rfl
    _ = (ladder.take EXEC_DEPTH).map widened := by
        rw [hxs, List.take_take]
        rfl

/-- The bit TWO_SIDED among the flags. -/
theorem twoSided_flag {two cross : Prop} [Decidable two] [Decidable cross] (reset : Bool) :
    (if cross then
        (if two then LAST_IN_BATCH ||| resetFlag reset ||| TWO_SIDED
          else LAST_IN_BATCH ||| resetFlag reset) ||| CROSS
      else if two then LAST_IN_BATCH ||| resetFlag reset ||| TWO_SIDED
      else LAST_IN_BATCH ||| resetFlag reset) &&& TWO_SIDED ≠ 0 ↔ two := by
  by_cases htwo : two <;> by_cases hcross : cross <;> cases reset <;>
    simp only [htwo, hcross, if_true, if_false, iff_true, iff_false] <;> decide

/-- **The frame shows the ladder.** -/
theorem showsDepth (hb : BookInv b) (h : TopInv b) (hpenny : PennyInv b) :
    ShowsDepth (buildMarketUpdate mu ev (capture out b symbol eventSeq) trade instrument
      (resetFlag reset)) b.entries := by
  have hwalk := fun side => walk_eq_ladder hb h hpenny side DASH_DEPTH
  -- a walk is empty only where the side is
  have hpos : ∀ side, 0 < (b.walk side DASH_DEPTH (b.sides side).best).length ↔
      ladder b.entries side ≠ [] := by
    intro side
    rw [← List.length_map OrderBook.Level.shown, hwalk side, List.length_take,
      ← List.length_pos_iff]
    simp [DASH_DEPTH]
  have hbids : 0 < (b.topBids DASH_DEPTH).length ↔ ladder b.entries .buy ≠ [] := hpos .buy
  have hasks : 0 < (b.topAsks DASH_DEPTH).length ↔ ladder b.entries .sell ≠ [] := hpos .sell
  refine ⟨fun side => ?_, ?_, ?_, ?_⟩
  · cases side with
    | buy => exact levels_of_walk (hwalk .buy)
    | sell => exact levels_of_walk (hwalk .sell)
  · change (if 0 < (b.topBids DASH_DEPTH).length then (b.bestBid.toNat : ℤ) else EMPTY_BID) = _
    have hbest := best_eq_head hb h hpenny .buy
    cases hladder : ladder b.entries .buy with
    | nil => exact if_neg fun hlt => hbids.1 hlt hladder
    | cons l rest =>
      rw [hladder] at hbest
      rw [if_pos (hbids.2 (by simp [hladder])), OrderBook.bestBid, hbest]
      rfl
  · change (if 0 < (b.topAsks DASH_DEPTH).length then (b.bestAsk.toNat : ℤ) else EMPTY_ASK) = _
    have hbest := best_eq_head hb h hpenny .sell
    cases hladder : ladder b.entries .sell with
    | nil => exact if_neg fun hlt => hasks.1 hlt hladder
    | cons l rest =>
      rw [hladder] at hbest
      rw [if_pos (hasks.2 (by simp [hladder])), OrderBook.bestAsk, hbest]
      rfl
  · -- the flag needs a level on both sides of the frame
    have hcount : (0 < min (b.topBids DASH_DEPTH).length EXEC_DEPTH ∧
        0 < min (b.topAsks DASH_DEPTH).length EXEC_DEPTH) ↔
          ladder b.entries .buy ≠ [] ∧ ladder b.entries .sell ≠ [] := by
      rw [← hbids, ← hasks]
      simp only [EXEC_DEPTH]
      omega
    exact (twoSided_flag reset).trans hcount

end Frame

/-- **The published depth is the true book.** -/
theorem published_depth {symbol : Symbol} {locate : UInt16} {s : Tracked}
    (hs : (trackedFeed symbol).ReachableWhen
      (fun s ev => s.WellFormed ev locate ∧ InPennies locate ev) s) :
    (∀ b, s.feed.engine locate = some b →
      (∀ d, (b.topBids d).map OrderBook.Level.shown = (ladder b.entries .buy).take d ∧
        (b.topAsks d).map OrderBook.Level.shown = (ladder b.entries .sell).take d) ∧
      b.bestBid = (ladder b.entries .buy).head?.elim 0 (·.1) ∧
      b.bestAsk = (ladder b.entries .sell).head?.elim PRICE_MAX (·.1) ∧
      (∀ out mu ev trade instrument reset, ShowsDepth (buildMarketUpdate mu ev
        (capture out b symbol s.feed.count) trade instrument (resetFlag reset)) b.entries) ∧
      b.entries.Nodup ∧ ∀ ref entry, (ref, entry) ∈ b.entries ↔
        ∃ o, s.reference locate ref = some o ∧ o.entry = entry ∧ o.AlwaysIn b.base) ∧
      ∀ ev, s.WellFormed ev locate → (s.feed.apply ev).isSome := by
  have htracks := tracksFeed_of_reachable (fun _ _ h => h.1) hs
  refine ⟨fun b hb => ?_, fun ev hev => htracks.apply_isSome hev⟩
  have hbook := htracks.tracks b hb
  -- in whole cents no price of a level is mistaken for another's
  obtain ⟨htop, hpenny⟩ := topInv_pennyInv_of_reachable hs hb
  have hinv := hbook.inv
  refine ⟨fun d => ⟨?_, ?_⟩, ?_, ?_, fun out mu ev trade instrument reset => ?_, ?_, ?_⟩
  · exact walk_eq_ladder hinv htop hpenny .buy d
  · exact walk_eq_ladder hinv htop hpenny .sell d
  · exact best_eq_head hinv htop hpenny .buy
  · exact best_eq_head hinv htop hpenny .sell
  · exact showsDepth hinv htop hpenny
  · exact .of_map _ hinv.nodup_refs
  · exact hbook.stored

/-- Two bids, of which the better one is cancelled in part. -/
theorem published_depth_cancelled :
    ∃ (s : Tracked) (b : OrderBook), s.feed.engine 7 = some b ∧
      (b.topBids 1).map OrderBook.Level.shown = (ladder b.entries .buy).take 1 ∧
        (b.topBids 2).map OrderBook.Level.shown = [(300, 6, 1), (200, 5, 1)] := by
  have hread : ((trackedFeed sampleSymbol).execWhen
      (fun s ev => s.Checked 7 ev ∧ InPennies 7 ev) ⟨{ symbol := sampleSymbol }, fun _ _ => none⟩
      [sampleEvent 'A' 1 .buy 200 5 0, sampleEvent 'A' 2 .buy 300 10 0,
        sampleEvent 'X' 2 .buy 0 4 0]).map
        (fun s => (s.feed.engine 7).map fun b => (b.topBids 2).map OrderBook.Level.shown) =
      some (some [(300, 6, 1), (200, 5, 1)]) := by
    decide +kernel
  obtain ⟨s, hrun, hvalues⟩ := Option.map_eq_some_iff.1 hread
  obtain ⟨b, hb, hshown⟩ := Option.map_eq_some_iff.1 hvalues
  have hs : (trackedFeed sampleSymbol).ReachableWhen
      (fun s ev => s.WellFormed ev 7 ∧ InPennies 7 ev) s :=
    reachable_of_checked (fun _ _ h => h.1) (fun _ _ hc h => ⟨h, hc.2⟩) _
      (.init (init_tracked _)) fewerThan_init (by decide) hrun
  exact ⟨s, b, hb, (((published_depth hs).1 b hb).1 1).1, hshown⟩

end Core

end LowLatencyPipeline
