import LowLatencyPipeline.Common.PushCalls
import LowLatencyPipeline.Common.Seqlock
import LowLatencyPipeline.Core.DashboardPublisher
import LowLatencyPipeline.Pipeline.FrameFeed

/-!
# The feed to the dashboard

The rest of `process` of `core/core_main.cpp` (the store of the snapshot), `run_snapshotter` of
`core/snapshot/book_snapshotter.hpp` with `DashboardPublisher` as its callback, and the dashboard
that drains its ring. `dashboardFeed` runs on top of `frameFeed`: the hot thread, the snapshotter,
exec and the dashboard in every interleaving of their accesses. The layouts of a snapshot and of a
dashboard frame in words are parameters, like that of a frame for exec.

`dashboard_faithful`: what the dashboard shows are conversions of snapshots that the hot thread has
stored as a whole, in order, and no frame of it disagrees with the frame of the same event that
went to exec.
-/

namespace LowLatencyPipeline

namespace Pipeline

open Common LowLatencyPipeline.Core Exec SpscRing

universe u v w x y z

/-- `DASH_RING_CAPACITY`. -/
def DASH_RING_CAPACITY : UInt32 := 64

/-- How often the snapshotter tries to load. -/
def LOAD_TRIES : ℕ := 64

/-- The job is one to be finished. -/
def Job.isBusy {ι : Type u} : Job ι → Bool
  | .idle => false
  | _ => true

/-- The core with its snapshotter, exec and the dashboard. -/
structure DashboardFeed (ι : Type u) (V : Type v) (κ : Type w) (W : Type x) (μ : Type y)
    (X : Type z) extends FrameFeed ι V where
  /-- `process` has yet to store its snapshot -/
  owed : Bool := false
  bookSeq : SeqlockState Unit κ W
  /-- the failed tries of the snapshotter, if it is not asleep or publishing -/
  tries : Option ℕ := none
  publisher : DashboardPublisher
  dashRing : PushState μ X
  /-- what the callback was called with -/
  converted : List (BookSnapshot × Surroundings) := []

/-- What happens next. -/
inductive DashboardStep (ι : Type u) (κ : Type w) (μ : Type y) (X : Type z)
  | feed (a : FrameStep ι)
  | storeLoad
  | storeOdd
  | storeCopy (k : κ)
  | storeEven
  | wake
  | loadPre
  | loadCopy (k : κ)
  | loadPost (o : Surroundings)
  | dash (a : PushStep μ X)

variable {ι : Type u} {V : Type v} {κ : Type w} {W : Type x} {μ : Type y} {X : Type z}
  [DecidableEq ι] [Fintype ι] [DecidableEq κ] [Fintype κ] [DecidableEq μ] [Fintype μ]

/-- How things lie in words. -/
structure Layouts (ι : Type u) (V : Type v) (κ : Type w) (W : Type x) (μ : Type y)
    (X : Type z) where
  frame : MarketUpdate ≃ (ι → V)
  book : BookSnapshot ≃ (κ → W)
  dash : DashSnapshot ≃ (μ → X)

/-- After a `try_load` that has returned false. -/
def nextTry (n : ℕ) : Option ℕ := if n + 1 < LOAD_TRIES then some (n + 1) else none

/-- One step. -/
def dashboardStep (L : Layouts ι V κ W μ X) (instrument : UInt16) (s : DashboardFeed ι V κ W μ X) :
    DashboardStep ι κ μ X → Option (DashboardFeed ι V κ W μ X)
  | .feed (.process ev) =>
    if s.owed then none
    else (frameStep L.frame instrument s.toFrameFeed (.process ev)).map fun feed =>
      { s with toFrameFeed := feed, owed := feed.job.isBusy }
  | .feed a => (frameStep L.frame instrument s.toFrameFeed a).map fun feed =>
      { s with toFrameFeed := feed }
  | .storeLoad =>
    -- the frame for exec is done with
    if s.owed ∧ ¬s.job.isBusy then
      (seqlockStep s.bookSeq (.storeLoad (L.book s.scratch))).map fun bookSeq => { s with bookSeq }
    else none
  | .storeOdd => (seqlockStep s.bookSeq .storeOdd).map fun bookSeq => { s with bookSeq }
  | .storeCopy k => (seqlockStep s.bookSeq (.storeCopy k)).map fun bookSeq => { s with bookSeq }
  | .storeEven => (seqlockStep s.bookSeq .storeEven).map fun bookSeq =>
      { s with bookSeq, owed := false }
  | .wake =>
    match s.tries, s.dashRing.call with
    | none, .idle => some { s with tries := some 0 }
    | _, _ => none
  | .loadPre =>
    match s.tries with
    | none => none
    | some n => (seqlockStep s.bookSeq (.loadPre ())).map fun bookSeq =>
      match bookSeq.readers () with
      | .idle => { s with bookSeq, tries := nextTry n }
      | .copying _ _ _ => { s with bookSeq }
  | .loadCopy k => (seqlockStep s.bookSeq (.loadCopy () k)).map fun bookSeq => { s with bookSeq }
  | .loadPost o =>
    match s.tries with
    | none => none
    | some n =>
      match seqlockStep s.bookSeq (.loadPost ()) with
      | none => none
      | some bookSeq =>
        match bookSeq.loads.head?.bind Load.result with
        | none => some { s with bookSeq, tries := nextTry n }
        | some words =>
          let book := L.book.symm words
          -- nothing is stored yet
          if book.eventSeq = 0 then some { s with bookSeq, tries := none }
          else
            let frame := s.publisher.convert book o
            (pushStep DASH_RING_CAPACITY s.dashRing (.tryPush (L.dash frame.1))).map fun dashRing =>
              { s with
                bookSeq
                tries := none
                publisher := frame.2
                dashRing
                converted := s.converted ++ [(book, o)] }
  | .dash (.tryPush _) => none
  | .dash a => (pushStep DASH_RING_CAPACITY s.dashRing a).map fun dashRing => { s with dashRing }

/-- All interleavings, from empty rings and a zeroed snapshot. -/
def dashboardFeed (L : Layouts ι V κ W μ X) (instrument : UInt16) (priceExp : ℤ) :
    Machine (DashboardFeed ι V κ W μ X) (DashboardStep ι κ μ X) where
  Init s := ∃ feed bookSeq dashRing, (frameFeed L.frame instrument).Init feed ∧
    (seqlock Unit κ W).Init bookSeq ∧ bookSeq.data = L.book .zero ∧
    (pushRing μ X DASH_RING_CAPACITY).Init dashRing ∧
    s = { toFrameFeed := feed, bookSeq, publisher := { instrument, priceExp }, dashRing }
  step := dashboardStep L instrument

/-- Fewer than `2 ^ 63` snapshots. -/
def FewStores (s : DashboardFeed ι V κ W μ X) : DashboardStep ι κ μ X → Prop
  | .storeLoad => s.bookSeq.stored.length + 1 < 2 ^ 63
  | _ => True

instance (s : DashboardFeed ι V κ W μ X) (a : DashboardStep ι κ μ X) :
    Decidable (FewStores s a) := by
  cases a <;> unfold FewStores <;> infer_instance

namespace DashboardFeed

variable (L : Layouts ι V κ W μ X) (s : DashboardFeed ι V κ W μ X)

/-- The snapshots stored, oldest first. -/
def stored : List BookSnapshot := s.bookSeq.stored.map L.book.symm

/-- The frames for the dashboard that the ring took. -/
def published : List DashSnapshot := s.dashRing.accepted.map L.dash.symm

/-- The frames that the dashboard has drained. -/
def shown : List DashSnapshot := s.dashRing.ring.popped.map L.dash.symm

end DashboardFeed

/-! ### A frame and a snapshot -/

/-- The frame for exec was built from the snapshot. -/
def Draws (u : MarketUpdate) (b : BookSnapshot) : Prop :=
  ∃ slot ev trade instrument reset,
    u = buildMarketUpdate slot ev b trade instrument (resetFlag reset)

/-- The frame for the dashboard and the one for exec show the same book. -/
structure SameBook (f : DashSnapshot) (u : MarketUpdate) : Prop where
  nb : u.nb = min f.nb EXEC_DEPTH
  na : u.na = min f.na EXEC_DEPTH
  bids : ∀ i < u.nb, u.bids i = f.bids i
  asks : ∀ i < u.na, u.asks i = f.asks i
  bestBid : u.bestBid = f.bestBid
  bestAsk : f.bestAsk ≠ 0 → u.bestAsk = f.bestAsk

/-- Two frames of one snapshot. -/
theorem Draws.sameBook {u : MarketUpdate} {b : BookSnapshot} (h : Draws u b)
    (p : DashboardPublisher) (o : Surroundings) : SameBook (p.convert b o).1 u := by
  obtain ⟨slot, ev, trade, instrument, flags, rfl⟩ := h
  refine ⟨rfl, rfl, fun i hi => ?_, fun i hi => ?_, ?_, fun hne => ?_⟩
  · have hlt : i < b.nb := hi.trans_le (min_le_left _ _)
    exact (if_pos hi).trans (if_pos hlt).symm
  · have hlt : i < b.na := hi.trans_le (min_le_left _ _)
    exact (if_pos hi).trans (if_pos hlt).symm
  · change (if 0 < b.nb then (b.bestBid.toNat : ℤ) else 0) =
      if DashboardPublisher.haveBid b then (b.bestBid.toNat : ℤ) else 0
    -- a best bid of 0 is shown as no bid, which is 0 as well
    by_cases hnb : 0 < b.nb <;> by_cases hbest : b.bestBid = 0 <;>
      simp [DashboardPublisher.haveBid, hnb, hbest]
  · change (if DashboardPublisher.haveAsk b then (b.bestAsk.toNat : ℤ) else 0) ≠ 0 at hne
    change (if 0 < b.na then (b.bestAsk.toNat : ℤ) else EMPTY_ASK) =
      if DashboardPublisher.haveAsk b then (b.bestAsk.toNat : ℤ) else 0
    split_ifs at hne with hask
    · have hna : 0 < b.na ∧ b.bestAsk ≠ 4294967295 := by
        simpa [DashboardPublisher.haveAsk] using hask
      rw [if_pos hna.1, if_pos hask]
    · exact absurd rfl hne

theorem Draws.eventSeq {u : MarketUpdate} {b : BookSnapshot} (h : Draws u b) :
    u.eventSeq = b.eventSeq := by
  obtain ⟨_, _, _, _, _, rfl⟩ := h
  rfl

/-! ### What the parts can do -/

section Parts

omit [DecidableEq κ] [Fintype κ] [DecidableEq μ] [Fintype μ]

/-- **What a step of the feed does** to the hot thread, the beginning of `process` apart. -/
theorem frameStep_cases {layout : MarketUpdate ≃ (ι → V)} {instrument : UInt16}
    {s t : FrameFeed ι V} {a : FrameStep ι} (ha : ∀ ev, a ≠ .process ev)
    (h : frameStep layout instrument s a = some t) :
    t.feed = s.feed ∧ t.scratch = s.scratch ∧ (t.job.isBusy = true → s.job.isBusy = true) ∧
    (t.pushed = s.pushed ∨
      ∃ frame written, s.job = .building frame written ∧ t.pushed = s.pushed ++ [frame]) ∧
    ∀ frame written, t.job = .building frame written →
      (∃ before, s.job = .building frame before) ∨ Draws frame s.scratch := by
  cases a with
  | process ev => exact absurd rfl (ha ev)
  | claimLoadTail =>
    simp only [frameStep] at h
    split at h
    · obtain ⟨ring, -, rfl⟩ := Option.map_eq_some_iff.1 h
      exact ⟨rfl, rfl, id, .inl rfl, fun frame written hjob => .inl ⟨written, hjob⟩⟩
    · cases h
  | claimLoadHead =>
    simp only [frameStep] at h
    split at h
    · next ev trade hjob =>
      obtain ⟨ring, -, rfl⟩ := Option.map_eq_some_iff.1 h
      have hbusy : s.job.isBusy = true := by
        rw [hjob]
        rfl
      split
      · refine ⟨rfl, rfl, fun _ => hbusy, .inl rfl, fun frame written hjob' => .inr ?_⟩
        obtain ⟨rfl, -⟩ := Job.building.inj hjob'
        exact ⟨_, _, _, _, _, rfl⟩
      · refine ⟨rfl, rfl, fun _ => hbusy, .inl rfl, fun frame written hjob' => ?_⟩
        cases hjob'
    · cases h
  | write k =>
    simp only [frameStep] at h
    split at h
    · next frame written hjob =>
      obtain ⟨ring, -, rfl⟩ := Option.map_eq_some_iff.1 h
      refine ⟨rfl, rfl, fun _ => ?_, .inl rfl, fun frame' written' hjob' => .inl ⟨written, ?_⟩⟩
      · rw [hjob]
        rfl
      · obtain ⟨rfl, -⟩ := Job.building.inj hjob'
        exact hjob
    · cases h
  | publishLoadTail =>
    simp only [frameStep] at h
    split at h
    · split_ifs at h
      obtain ⟨ring, -, rfl⟩ := Option.map_eq_some_iff.1 h
      exact ⟨rfl, rfl, id, .inl rfl, fun frame written hjob => .inl ⟨written, hjob⟩⟩
    · cases h
  | publishStoreTail =>
    simp only [frameStep] at h
    split at h
    · next frame written hjob =>
      obtain ⟨ring, -, rfl⟩ := Option.map_eq_some_iff.1 h
      refine ⟨rfl, rfl, fun hbusy => ?_, .inr ⟨frame, written, hjob, rfl⟩, fun _ _ hjob' => ?_⟩
      · cases hbusy
      · cases hjob'
    · cases h
  | popLoadHead | popLoadTail | copy =>
    obtain ⟨ring, -, rfl⟩ := Option.map_eq_some_iff.1 h
    exact ⟨rfl, rfl, id, .inl rfl, fun frame written hjob => .inl ⟨written, hjob⟩⟩
  | popStoreHead =>
    simp only [frameStep] at h
    split at h
    · cases h
    · split at h
      · cases h
      · obtain rfl := Option.some.inj h
        exact ⟨rfl, rfl, id, .inl rfl, fun frame written hjob => .inl ⟨written, hjob⟩⟩

/-- **What the beginning of `process` does**, from an idle hot thread. -/
theorem process_cases {layout : MarketUpdate ≃ (ι → V)} {instrument : UInt16}
    {s t : FrameFeed ι V} {ev : Event} (h : frameStep layout instrument s (.process ev) = some t) :
    t.pushed = s.pushed ∧ s.job = .idle ∧
    (t.job = .idle ∧ t.feed.count = s.feed.count ∨
      (∃ trade, t.job = .claiming ev trade) ∧ t.feed.count = s.feed.count + 1 ∧
        t.scratch.eventSeq = s.feed.count + 1) := by
  simp only [frameStep] at h
  split at h
  · next hjob =>
    split at h
    · cases h
    · next feed happly =>
      obtain rfl := Option.some.inj h
      refine ⟨rfl, hjob, .inl ⟨hjob, ?_⟩⟩
      rcases apply_cases happly with ⟨-, rfl, -⟩ | ⟨_, _, _, -, -, -, hout⟩
      · rfl
      · cases hout
    · next feed book trade happly =>
      obtain rfl := Option.some.inj h
      have hcount : feed.count = s.feed.count + 1 := by
        rcases apply_cases happly with ⟨-, -, hout⟩ | ⟨_, _, _, -, -, rfl, -⟩
        · cases hout
        · rfl
      exact ⟨rfl, hjob, .inr ⟨⟨trade, rfl⟩, hcount, hcount⟩⟩
  · cases h

omit [DecidableEq ι] [Fintype ι]

/-- What the writer stores. -/
def writing {κ : Type w} {W : Type x} : Writer κ W → Option (κ → W)
  | .idle => none
  | .loaded _ input | .copying _ input _ => some input

/-- What the producer pushes. -/
def pushing {μ : Type y} {X : Type z} : PushCall μ X → Option (μ → X)
  | .idle => none
  | .claiming item | .filling item _ => some item

/-- **What a step of a push does**: the item goes to the accepted ones, or is dropped. -/
theorem pushStep_sublist [DecidableEq μ] [Fintype μ] {capacity : UInt32} {s t : PushState μ X}
    {a : PushStep μ X} (ha : ∀ item, a ≠ .tryPush item) (h : pushStep capacity s a = some t) :
    (t.accepted ++ (pushing t.call).toList).Sublist (s.accepted ++ (pushing s.call).toList) := by
  cases a with
  | tryPush item => exact absurd rfl (ha item)
  | claimLoadTail =>
    simp only [pushStep] at h
    split at h
    · obtain ⟨ring, -, rfl⟩ := Option.map_eq_some_iff.1 h
      exact .refl _
    · cases h
  | claimLoadHead =>
    simp only [pushStep] at h
    split at h
    · next item hcall =>
      obtain ⟨ring, -, rfl⟩ := Option.map_eq_some_iff.1 h
      rw [hcall]
      split
      · exact .refl _
      · exact (List.append_nil s.accepted).symm ▸ List.sublist_append_left _ _
    · cases h
  | write k =>
    simp only [pushStep] at h
    split at h
    · next item written hcall =>
      obtain ⟨ring, -, rfl⟩ := Option.map_eq_some_iff.1 h
      rw [hcall]
      exact .refl _
    · cases h
  | publishLoadTail =>
    simp only [pushStep] at h
    split at h
    · split_ifs at h
      obtain ⟨ring, -, rfl⟩ := Option.map_eq_some_iff.1 h
      exact .refl _
    · cases h
  | publishStoreTail =>
    simp only [pushStep] at h
    split at h
    · next item written hcall =>
      obtain ⟨ring, -, rfl⟩ := Option.map_eq_some_iff.1 h
      rw [hcall]
      exact (List.append_nil (s.accepted ++ [item])).symm ▸ .refl _
    · cases h
  | popLoadHead | popLoadTail | copy | popStoreHead =>
    obtain ⟨ring, -, rfl⟩ := Option.map_eq_some_iff.1 h
    exact .refl _

end Parts

/-! ### The invariant -/

/-- Where the hot thread is between two events. -/
inductive Hot (L : Layouts ι V κ W μ X) (s : DashboardFeed ι V κ W μ X) : Prop
  | free : s.owed = false → s.job.isBusy = false → s.bookSeq.writer = .idle →
      s.feed.count = (s.stored L).length → Hot L s
  | owing : s.owed = true → s.feed.count = (s.stored L).length + 1 →
      s.scratch.eventSeq = (s.stored L).length + 1 →
      (s.bookSeq.writer = .idle ∨
        s.job.isBusy = false ∧ writing s.bookSeq.writer = some (L.book s.scratch)) → Hot L s

/-- The snapshotter's conversions so far. -/
structure Converted (L : Layouts ι V κ W μ X) (s : DashboardFeed ι V κ W μ X) : Prop where
  stored : ∀ x ∈ s.converted, 0 < x.1.eventSeq ∧ (s.stored L)[x.1.eventSeq - 1]? = some x.1
  ordered : s.converted.Pairwise fun x y => x.1.eventSeq ≤ y.1.eventSeq
  /-- a load under way began after them -/
  reading : ∀ x ∈ s.converted, ∀ pre out start, s.bookSeq.readers () = .copying pre out start →
    x.1.eventSeq ≤ start.stores

/-- **The invariant of the feed to the dashboard.** -/
structure DashInv (L : Layouts ι V κ W μ X) (instrument : UInt16) (priceExp : ℤ)
    (s : DashboardFeed ι V κ W μ X) : Prop where
  feed : (frameFeed L.frame instrument).Reachable s.toFrameFeed
  bookSeq : (seqlock Unit κ W).ReachableWhen OneWriter s.bookSeq
  initial : s.bookSeq.initial = L.book .zero
  dashRing : (pushRing μ X DASH_RING_CAPACITY).Reachable s.dashRing
  hot : Hot L s
  numbered : ∀ (i : ℕ) (b : BookSnapshot), (s.stored L)[i]? = some b → b.eventSeq = i + 1
  drawn : ∀ u ∈ s.pushed, (∃ b ∈ s.stored L, Draws u b) ∨ s.owed = true ∧ Draws u s.scratch
  building : ∀ frame written, s.job = .building frame written → Draws frame s.scratch
  converted : Converted L s
  publisher : s.publisher = ({ instrument, priceExp } : DashboardPublisher).after s.converted
  published : ((s.dashRing.accepted ++ (pushing s.dashRing.call).toList).map L.dash.symm).Sublist
    (({ instrument, priceExp } : DashboardPublisher).frames s.converted)

section Steps

variable {L : Layouts ι V κ W μ X} {instrument : UInt16} {priceExp : ℤ}
  {s t : DashboardFeed ι V κ W μ X}

/-- The hot thread takes an event. -/
theorem DashInv.process (h : DashInv L instrument priceExp s) {ev : Event}
    (hstep : dashboardStep L instrument s (.feed (.process ev)) = some t) :
    DashInv L instrument priceExp t := by
  simp only [dashboardStep] at hstep
  split_ifs at hstep with howed
  obtain ⟨feed, hfeed, rfl⟩ := Option.map_eq_some_iff.1 hstep
  obtain ⟨hpushed, hidle, hcases⟩ := process_cases hfeed
  rcases h.hot with ⟨-, hbusy, hwriter, hcount⟩ | ⟨htrue, -⟩
  · refine ⟨.step (a := .process ev) h.feed trivial hfeed, h.bookSeq, h.initial, h.dashRing, ?_,
      h.numbered, fun u hu => ?_, fun frame written hjob => ?_,
      ⟨h.converted.stored, h.converted.ordered, h.converted.reading⟩, h.publisher, h.published⟩
    · rcases hcases with ⟨hjob, hsame⟩ | ⟨⟨trade, hjob⟩, hnext, hscratch⟩
      · refine .free ?_ ?_ hwriter (hsame.trans hcount)
        · exact congrArg Job.isBusy hjob
        · exact congrArg Job.isBusy hjob
      · refine .owing ?_ (hnext.trans (congrArg _ hcount)) (hscratch.trans (congrArg _ hcount))
          (.inl hwriter)
        exact congrArg Job.isBusy hjob
    · -- what was pushed before is stored
      have hu : u ∈ s.pushed := hpushed ▸ hu
      rcases h.drawn u hu with hstored | ⟨htrue, -⟩
      · exact .inl hstored
      · exact absurd htrue howed
    · change feed.job = .building frame written at hjob
      rcases hcases with ⟨hjob', -⟩ | ⟨⟨trade, hjob'⟩, -⟩
      · cases hjob'.symm.trans hjob
      · cases hjob'.symm.trans hjob
  · exact absurd htrue howed

/-- The feed goes on. -/
theorem DashInv.feed_step (h : DashInv L instrument priceExp s) {a : FrameStep ι}
    (ha : ∀ ev, a ≠ .process ev) {feed : FrameFeed ι V}
    (hfeed : frameStep L.frame instrument s.toFrameFeed a = some feed) :
    DashInv L instrument priceExp { s with toFrameFeed := feed } := by
  obtain ⟨hcount, hscratch, hbusy, hpushed, hbuilding⟩ := frameStep_cases ha hfeed
  -- while a frame is built its snapshot is owed
  have howed : s.job.isBusy = true → s.owed = true := by
    intro htrue
    rcases h.hot with ⟨-, hfalse, -⟩ | ⟨howed, -⟩
    · exact absurd (htrue.symm.trans hfalse) (by decide)
    · exact howed
  refine ⟨.step h.feed trivial hfeed, h.bookSeq, h.initial, h.dashRing, ?_, h.numbered,
    fun u hu => ?_, fun frame written hjob => ?_,
    ⟨h.converted.stored, h.converted.ordered, h.converted.reading⟩, h.publisher, h.published⟩
  · have hidle : s.job.isBusy = false → feed.job.isBusy = false := by
      intro hfalse
      rw [← Bool.not_eq_true] at hfalse ⊢
      exact fun htrue => hfalse (hbusy htrue)
    rcases h.hot with ⟨hfalse, hjob, hwriter, hn⟩ | ⟨htrue, hn, hseq, hwriter⟩
    · exact .free hfalse (hidle hjob) hwriter ((congrArg _ hcount).trans hn)
    · refine .owing htrue ((congrArg _ hcount).trans hn) ((congrArg _ hscratch).trans hseq) ?_
      refine hwriter.imp_right fun hw => ⟨hidle hw.1, ?_⟩
      change writing s.bookSeq.writer = some (L.book feed.scratch)
      rw [hscratch]
      exact hw.2
  · change _ ∨ s.owed = true ∧ Draws u feed.scratch
    rw [hscratch]
    rcases hpushed with hsame | ⟨frame, written, hjob, hmore⟩
    · exact h.drawn u (hsame ▸ hu)
    · have hu : u ∈ s.pushed ++ [frame] := hmore ▸ hu
      rcases List.mem_append.1 hu with hu | hu
      · exact h.drawn u hu
      · obtain rfl := List.mem_singleton.1 hu
        exact .inr ⟨howed (congrArg Job.isBusy hjob), h.building u written hjob⟩
  · change Draws frame feed.scratch
    rw [hscratch]
    rcases hbuilding frame written hjob with ⟨before, hbefore⟩ | hdraws
    · exact h.building frame before hbefore
    · exact hdraws

/-- What a load under way has seen, before and after a step of the lock. -/
def SeesAs (lock lock' : SeqlockState Unit κ W) : Prop :=
  ∀ pre out start, lock'.readers () = .copying pre out start →
    start.stores = lock.stored.length ∨
      ∃ pre' out' start', lock.readers () = .copying pre' out' start' ∧
        start'.stores = start.stores

/-- A step of the lock that completes no store, and what follows for the snapshotter. -/
theorem DashInv.lock_step (h : DashInv L instrument priceExp s) {lock : SeqlockState Unit κ W}
    (hlock : (seqlock Unit κ W).ReachableWhen OneWriter lock)
    (hinitial : lock.initial = s.bookSeq.initial) (hstored : lock.stored = s.bookSeq.stored)
    (hwriter : lock.writer = s.bookSeq.writer ∨ s.owed = true ∧ s.job.isBusy = false ∧
      writing lock.writer = some (L.book s.scratch))
    (hsees : SeesAs s.bookSeq lock) (tries : Option ℕ) :
    DashInv L instrument priceExp { s with bookSeq := lock, tries } := by
  have hlist : DashboardFeed.stored L { s with bookSeq := lock, tries } = s.stored L :=
    congrArg (List.map L.book.symm) hstored
  refine ⟨h.feed, hlock, hinitial.trans h.initial, h.dashRing, ?_, ?_, ?_, h.building,
    ⟨?_, h.converted.ordered, fun x hx pre out start hreader => ?_⟩, h.publisher, h.published⟩
  · rcases h.hot with ⟨hfalse, hjob, hidle, hn⟩ | ⟨htrue, hn, hseq, hbusy⟩
    · refine .free hfalse hjob ?_ (hn.trans (congrArg _ hlist.symm))
      rcases hwriter with hsame | ⟨htrue, -⟩
      · exact hsame.trans hidle
      · exact absurd (htrue.symm.trans hfalse) (by decide)
    · refine .owing htrue (hlist ▸ hn) (hlist ▸ hseq) ?_
      rcases hwriter with hsame | ⟨-, hjob, hwriting⟩
      · change lock.writer = _ ∨ _ ∧ writing lock.writer = _
        rw [hsame]
        exact hbusy
      · exact .inr ⟨hjob, hwriting⟩
  · rw [hlist]
    exact h.numbered
  · rw [hlist]
    exact h.drawn
  · rw [hlist]
    exact h.converted.stored
  · rcases hsees pre out start hreader with hnow | ⟨pre', out', start', hreader', hsame⟩
    · obtain ⟨hpos, hx⟩ := h.converted.stored x hx
      have hlt := (List.getElem?_eq_some_iff.1 hx).1
      have hlength : (s.stored L).length = s.bookSeq.stored.length := List.length_map _
      omega
    · exact hsame ▸ h.converted.reading x hx _ _ _ hreader'

omit [DecidableEq κ] [Fintype κ] in
/-- A step of the writer leaves a load where it is. -/
theorem seesAs_of_readers {lock lock' : SeqlockState Unit κ W}
    (h : lock'.readers () = lock.readers ()) : SeesAs lock lock' :=
  fun pre out start hreader => .inr ⟨pre, out, start, h ▸ hreader, rfl⟩

/-- The hot thread begins to store. -/
theorem DashInv.storeLoad (h : DashInv L instrument priceExp s)
    (hfew : FewStores s (.storeLoad : DashboardStep ι κ μ X))
    (hstep : dashboardStep L instrument s .storeLoad = some t) :
    DashInv L instrument priceExp t := by
  simp only [dashboardStep] at hstep
  split_ifs at hstep with howed
  obtain ⟨lock, hlock, rfl⟩ := Option.map_eq_some_iff.1 hstep
  have hreach : (seqlock Unit κ W).ReachableWhen OneWriter lock :=
    .step (a := .storeLoad (L.book s.scratch)) h.bookSeq hfew hlock
  cases SeqlockEffect.of_step hlock with
  | storeLoad input hidle =>
    refine h.lock_step hreach rfl rfl (.inr ⟨howed.1, by simpa using howed.2, rfl⟩) ?_ s.tries
    intro pre out start hreader
    change (s.bookSeq.readers ()).disturb = _ at hreader
    cases hbefore : s.bookSeq.readers () with
    | idle =>
      rw [hbefore] at hreader
      cases hreader
    | copying pre' out' start' =>
      rw [hbefore] at hreader
      obtain ⟨-, -, rfl⟩ := Reader.copying.inj hreader
      exact .inr ⟨_, _, _, rfl, rfl⟩

omit [DecidableEq ι] [Fintype ι] [DecidableEq κ] [Fintype κ] [DecidableEq μ] [Fintype μ] in
/-- The writer is at work only on what is owed. -/
theorem Hot.of_writing (h : Hot L s) {input : κ → W}
    (hwriting : writing s.bookSeq.writer = some input) :
    s.owed = true ∧ s.job.isBusy = false ∧ input = L.book s.scratch ∧
      s.feed.count = (s.stored L).length + 1 ∧ s.scratch.eventSeq = (s.stored L).length + 1 := by
  rcases h with ⟨-, -, hidle, -⟩ | ⟨htrue, hn, hseq, hidle | ⟨hjob, hbook⟩⟩
  · rw [hidle] at hwriting
    cases hwriting
  · rw [hidle] at hwriting
    cases hwriting
  · exact ⟨htrue, hjob, Option.some.inj (hwriting.symm.trans hbook), hn, hseq⟩

/-- The hot thread is in its store. -/
theorem DashInv.storeOdd (h : DashInv L instrument priceExp s)
    (hstep : dashboardStep L instrument s .storeOdd = some t) :
    DashInv L instrument priceExp t := by
  obtain ⟨lock, hlock, rfl⟩ := Option.map_eq_some_iff.1 hstep
  have hreach : (seqlock Unit κ W).ReachableWhen OneWriter lock :=
    .step (a := .storeOdd) h.bookSeq trivial hlock
  cases SeqlockEffect.of_step hlock with
  | storeOdd seq input hwriter =>
    have hwriting : writing s.bookSeq.writer = some input := by
      rw [hwriter]
      rfl
    obtain ⟨howed, hjob, rfl, -⟩ := h.hot.of_writing hwriting
    exact h.lock_step hreach rfl rfl (.inr ⟨howed, hjob, rfl⟩) (seesAs_of_readers rfl) s.tries

theorem DashInv.storeCopy (h : DashInv L instrument priceExp s) {k : κ}
    (hstep : dashboardStep L instrument s (.storeCopy k) = some t) :
    DashInv L instrument priceExp t := by
  obtain ⟨lock, hlock, rfl⟩ := Option.map_eq_some_iff.1 hstep
  have hreach : (seqlock Unit κ W).ReachableWhen OneWriter lock :=
    .step (a := .storeCopy k) h.bookSeq trivial hlock
  cases SeqlockEffect.of_step hlock with
  | storeCopy k seq input copied hwriter =>
    have hwriting : writing s.bookSeq.writer = some input := by
      rw [hwriter]
      rfl
    obtain ⟨howed, hjob, rfl, -⟩ := h.hot.of_writing hwriting
    exact h.lock_step hreach rfl rfl (.inr ⟨howed, hjob, rfl⟩) (seesAs_of_readers rfl) s.tries

/-- **The snapshot is stored**, and `process` returns. -/
theorem DashInv.storeEven (h : DashInv L instrument priceExp s)
    (hstep : dashboardStep L instrument s .storeEven = some t) :
    DashInv L instrument priceExp t := by
  obtain ⟨lock, hlock, rfl⟩ := Option.map_eq_some_iff.1 hstep
  have hreach : (seqlock Unit κ W).ReachableWhen OneWriter lock :=
    .step (a := .storeEven) h.bookSeq trivial hlock
  cases SeqlockEffect.of_step hlock with
  | storeEven seq input hwriter =>
    have hwriting : writing s.bookSeq.writer = some input := by
      rw [hwriter]
      rfl
    obtain ⟨-, hjob, rfl, hn, hseq⟩ := h.hot.of_writing hwriting
    -- one more snapshot
    have hlist : (s.bookSeq.stored ++ [L.book s.scratch]).map L.book.symm =
        s.stored L ++ [s.scratch] := by
      rw [List.map_append, List.map_singleton, Equiv.symm_apply_apply]
      rfl
    refine ⟨h.feed, hreach, h.initial, h.dashRing, ?_, fun i b hb => ?_, fun u hu => .inl ?_,
      h.building, ⟨fun x hx => ?_, h.converted.ordered, h.converted.reading⟩, h.publisher,
      h.published⟩
    · refine .free rfl hjob rfl ?_
      change s.feed.count = ((s.bookSeq.stored ++ [L.book s.scratch]).map L.book.symm).length
      rw [hlist, List.length_append, List.length_singleton]
      exact hn
    · change ((s.bookSeq.stored ++ [L.book s.scratch]).map L.book.symm)[i]? = some b at hb
      rw [hlist] at hb
      rcases getElem?_concat_iff.1 hb with hb | ⟨rfl, rfl⟩
      · exact h.numbered i b hb
      · exact hseq
    · change ∃ b ∈ (s.bookSeq.stored ++ [L.book s.scratch]).map L.book.symm, Draws u b
      rw [hlist]
      rcases h.drawn u hu with ⟨b, hb, hdraws⟩ | ⟨-, hdraws⟩
      · exact ⟨b, List.mem_append_left _ hb, hdraws⟩
      · exact ⟨s.scratch, by simp, hdraws⟩
    · obtain ⟨hpos, hget⟩ := h.converted.stored x hx
      refine ⟨hpos, ?_⟩
      change ((s.bookSeq.stored ++ [L.book s.scratch]).map L.book.symm)[_]? = _
      rw [hlist]
      exact getElem?_concat_iff.2 (.inl hget)

/-- The snapshotter wakes up. -/
theorem DashInv.wake (h : DashInv L instrument priceExp s)
    (hstep : dashboardStep L instrument s .wake = some t) : DashInv L instrument priceExp t := by
  simp only [dashboardStep] at hstep
  split at hstep
  · obtain rfl := Option.some.inj hstep
    exact h.lock_step h.bookSeq rfl rfl (.inl rfl) (seesAs_of_readers rfl) _
  · cases hstep

/-- The first load of the counter. -/
theorem DashInv.loadPre (h : DashInv L instrument priceExp s)
    (hstep : dashboardStep L instrument s .loadPre = some t) : DashInv L instrument priceExp t := by
  simp only [dashboardStep] at hstep
  split at hstep
  · cases hstep
  · next n htries =>
    obtain ⟨lock, hlock, rfl⟩ := Option.map_eq_some_iff.1 hstep
    have hreach : (seqlock Unit κ W).ReachableWhen OneWriter lock :=
      .step (a := .loadPre ()) h.bookSeq trivial hlock
    cases SeqlockEffect.of_step hlock with
    | loadOdd r hidle hodd =>
      have hreader : s.bookSeq.readers () = .idle := hidle
      simp only [hreader]
      exact h.lock_step hreach rfl rfl (.inl rfl) (seesAs_of_readers rfl) _
    | loadPre r hidle heven =>
      simp only [Function.update_self]
      refine h.lock_step hreach rfl rfl (.inl rfl) (fun pre out start hreader => .inl ?_) s.tries
      -- it sees what is stored now
      change Function.update s.bookSeq.readers () _ () = _ at hreader
      rw [Function.update_self] at hreader
      obtain ⟨-, -, rfl⟩ := Reader.copying.inj hreader
      rfl

/-- A word is copied. -/
theorem DashInv.loadCopy (h : DashInv L instrument priceExp s) {k : κ}
    (hstep : dashboardStep L instrument s (.loadCopy k) = some t) :
    DashInv L instrument priceExp t := by
  obtain ⟨lock, hlock, rfl⟩ := Option.map_eq_some_iff.1 hstep
  have hreach : (seqlock Unit κ W).ReachableWhen OneWriter lock :=
    .step (a := .loadCopy () k) h.bookSeq trivial hlock
  cases SeqlockEffect.of_step hlock with
  | loadCopy r k pre out start hbefore =>
    refine h.lock_step hreach rfl rfl (.inl rfl) (fun pre' out' start' hreader => .inr ?_) s.tries
    change Function.update s.bookSeq.readers () _ () = _ at hreader
    rw [Function.update_self] at hreader
    obtain ⟨-, -, rfl⟩ := Reader.copying.inj hreader
    exact ⟨_, _, _, hbefore, rfl⟩

/-- What a load has returned is the snapshot it has found stored, or the zeroed one. -/
theorem DashInv.exists_stored (h : DashInv L instrument priceExp s) {copy : κ → W} {n : ℕ}
    (hvalue : s.bookSeq.value n = some copy) (hpos : (L.book.symm copy).eventSeq ≠ 0) :
    (L.book.symm copy).eventSeq = n ∧
      (s.stored L)[(L.book.symm copy).eventSeq - 1]? = some (L.book.symm copy) := by
  cases n with
  | zero =>
    have hzero : s.bookSeq.initial = copy := Option.some.inj hvalue
    rw [← hzero, h.initial, Equiv.symm_apply_apply] at hpos
    exact absurd rfl hpos
  | succ n =>
    have hget : (s.stored L)[n]? = some (L.book.symm copy) := by
      have hcopy : s.bookSeq.stored[n]? = some copy := hvalue
      rw [DashboardFeed.stored, List.getElem?_map, hcopy]
      rfl
    have hseq := h.numbered n _ hget
    exact ⟨hseq, by rw [hseq]; exact hget⟩

/-- **A snapshot is converted**, and its frame is to be pushed. -/
theorem DashInv.convert (h : DashInv L instrument priceExp s) {b : BookSnapshot} {o : Surroundings}
    (hpos : b.eventSeq ≠ 0) (hstored : (s.stored L)[b.eventSeq - 1]? = some b)
    (hlast : ∀ x ∈ s.converted, x.1.eventSeq ≤ b.eventSeq)
    (hreader : s.bookSeq.readers () = .idle) {dashRing : PushState μ X}
    (hpush : pushStep DASH_RING_CAPACITY s.dashRing
      (.tryPush (L.dash (s.publisher.convert b o).1)) = some dashRing) :
    DashInv L instrument priceExp { s with
      publisher := (s.publisher.convert b o).2
      dashRing
      converted := s.converted ++ [(b, o)] } := by
  have hring : (pushRing μ X DASH_RING_CAPACITY).Reachable dashRing :=
    .step (a := .tryPush _) h.dashRing trivial hpush
  refine ⟨h.feed, h.bookSeq, h.initial, hring, ?_, h.numbered, h.drawn, h.building,
    ⟨fun x hx => ?_, ?_, fun x hx pre out start hcopying => ?_⟩, ?_, ?_⟩
  · rcases h.hot with ⟨hfalse, hjob, hidle, hn⟩ | ⟨htrue, hn, hseq, hbusy⟩
    · exact .free hfalse hjob hidle hn
    · exact .owing htrue hn hseq hbusy
  · rcases List.mem_append.1 hx with hx | hx
    · exact h.converted.stored x hx
    · obtain rfl := List.mem_singleton.1 hx
      exact ⟨Nat.pos_of_ne_zero hpos, hstored⟩
  · refine List.pairwise_append.2 ⟨h.converted.ordered, List.pairwise_singleton _ _, ?_⟩
    intro x hx y hy
    obtain rfl := List.mem_singleton.1 hy
    exact hlast x hx
  · cases hreader.symm.trans hcopying
  · change (s.publisher.convert b o).2 = _
    rw [DashboardPublisher.after_concat, ← h.publisher]
  · change ((dashRing.accepted ++ (pushing dashRing.call).toList).map L.dash.symm).Sublist
      (DashboardPublisher.frames _ (s.converted ++ [(b, o)]))
    rw [DashboardPublisher.frames_concat, ← h.publisher]
    simp only [pushStep] at hpush
    split at hpush
    · next hcall =>
      obtain rfl := Option.some.inj hpush
      have hbefore := h.published
      rw [hcall] at hbefore
      simp only [pushing, Option.toList_none, List.append_nil] at hbefore
      simpa [pushing] using hbefore
    · cases hpush

/-- **The second load of the counter.** -/
theorem DashInv.loadPost (h : DashInv L instrument priceExp s) {o : Surroundings}
    (hstep : dashboardStep L instrument s (.loadPost o) = some t) :
    DashInv L instrument priceExp t := by
  simp only [dashboardStep] at hstep
  split at hstep
  · cases hstep
  next n htries =>
  split at hstep
  · cases hstep
  next lock hlock =>
  have hreach : (seqlock Unit κ W).ReachableWhen OneWriter lock :=
    .step (a := .loadPost ()) h.bookSeq trivial hlock
  -- the load is over
  have hidle : ∀ readers : Unit → Reader κ W, Function.update readers () .idle () = .idle :=
    fun readers => Function.update_self ..
  have hlater : ∀ tries, SeesAs s.bookSeq lock → lock.initial = s.bookSeq.initial →
      lock.stored = s.bookSeq.stored → lock.writer = s.bookSeq.writer →
        DashInv L instrument priceExp { s with bookSeq := lock, tries } :=
    fun tries hsees hinitial hstored hwriter =>
      h.lock_step hreach hinitial hstored (.inl hwriter) hsees tries
  obtain ⟨first, huntorn⟩ := exists_untorn hreach
  cases SeqlockEffect.of_step hlock with
  | loadFalse r pre out start hreader hne =>
    simp only [List.head?_cons, Option.bind_some] at hstep
    obtain rfl := Option.some.inj hstep
    refine hlater _ (fun pre out start hcopying => ?_) rfl rfl rfl
    cases (hidle s.bookSeq.readers).symm.trans hcopying
  | loadTrue r copy start hreader =>
    simp only [List.head?_cons, Option.bind_some] at hstep
    have hsleep := hlater none (fun pre out start hcopying => by
      cases (hidle s.bookSeq.readers).symm.trans hcopying) rfl rfl rfl
    split_ifs at hstep with hzero
    · obtain rfl := Option.some.inj hstep
      exact hsleep
    · obtain ⟨dashRing, hpush, rfl⟩ := Option.map_eq_some_iff.1 hstep
      have hvalue := huntorn.loads _ List.mem_cons_self copy rfl
      obtain ⟨hseq, hstored⟩ := hsleep.exists_stored hvalue hzero
      refine hsleep.convert hzero hstored (fun x hx => ?_) (hidle s.bookSeq.readers) hpush
      rw [hseq]
      exact h.converted.reading x hx _ _ _ hreader

/-- The frame is pushed, or the dashboard drains its ring. -/
theorem DashInv.dash_step (h : DashInv L instrument priceExp s) {a : PushStep μ X}
    (ha : ∀ item, a ≠ .tryPush item) {dashRing : PushState μ X}
    (hpush : pushStep DASH_RING_CAPACITY s.dashRing a = some dashRing) :
    DashInv L instrument priceExp { s with dashRing } := by
  refine ⟨h.feed, h.bookSeq, h.initial, .step h.dashRing trivial hpush, ?_, h.numbered, h.drawn,
    h.building, ⟨h.converted.stored, h.converted.ordered, h.converted.reading⟩, h.publisher, ?_⟩
  · rcases h.hot with ⟨hfalse, hjob, hidle, hn⟩ | ⟨htrue, hn, hseq, hbusy⟩
    · exact .free hfalse hjob hidle hn
    · exact .owing htrue hn hseq hbusy
  · exact ((pushStep_sublist ha hpush).map _).trans h.published

/-- **The step lemma.** -/
theorem DashInv.step (h : DashInv L instrument priceExp s) {a : DashboardStep ι κ μ X}
    (hfew : FewStores s a) (hstep : dashboardStep L instrument s a = some t) :
    DashInv L instrument priceExp t := by
  cases a with
  | feed a =>
    by_cases ha : ∃ ev, a = .process ev
    · obtain ⟨ev, rfl⟩ := ha
      exact h.process hstep
    · have hne : ∀ ev, a ≠ .process ev := fun ev heq => ha ⟨ev, heq⟩
      have hmap : (frameStep L.frame instrument s.toFrameFeed a).map
          (fun feed => { s with toFrameFeed := feed }) = some t := by
        cases a with
        | process ev => exact absurd rfl (hne ev)
        | _ => exact hstep
      obtain ⟨feed, hfeed, rfl⟩ := Option.map_eq_some_iff.1 hmap
      exact h.feed_step hne hfeed
  | storeLoad => exact h.storeLoad hfew hstep
  | storeOdd => exact h.storeOdd hstep
  | storeCopy k => exact h.storeCopy hstep
  | storeEven => exact h.storeEven hstep
  | wake => exact h.wake hstep
  | loadPre => exact h.loadPre hstep
  | loadCopy k => exact h.loadCopy hstep
  | loadPost o => exact h.loadPost hstep
  | dash a =>
    by_cases ha : ∃ item, a = .tryPush item
    · obtain ⟨item, rfl⟩ := ha
      cases hstep
    · have hne : ∀ item, a ≠ .tryPush item := fun item heq => ha ⟨item, heq⟩
      have hmap : (pushStep DASH_RING_CAPACITY s.dashRing a).map
          (fun dashRing => { s with dashRing }) = some t := by
        cases a with
        | tryPush item => exact absurd rfl (hne item)
        | _ => exact hstep
      obtain ⟨dashRing, hpush, rfl⟩ := Option.map_eq_some_iff.1 hmap
      exact h.dash_step hne hpush

/-- **The run lemma.** -/
theorem dashInv_of_reachable
    (hs : (dashboardFeed L instrument priceExp).ReachableWhen FewStores s) :
    DashInv L instrument priceExp s := by
  refine hs.invariant ?_ fun s a t _ hfew hstep h => h.step hfew hstep
  rintro _ ⟨feed, lock, dashRing, hfeed, hlock, hzero, hring, rfl⟩
  have hfeed' := hfeed
  have hlock' := hlock
  have hring' := hring
  obtain ⟨symbol, scratch, ring, rfl, -⟩ := hfeed'
  obtain ⟨-, hwriter, hreaders, hinitial, hstored, -⟩ := hlock'
  obtain ⟨ring', -, rfl⟩ := hring'
  have hnil : lock.stored.map L.book.symm = [] := by
    rw [hstored]
    rfl
  refine ⟨.init hfeed, .init hlock, hinitial.trans hzero, .init hring, ?_, ?_, ?_, ?_, ?_, rfl,
    .refl _⟩
  · refine .free rfl rfl hwriter ?_
    change 0 = (lock.stored.map L.book.symm).length
    rw [hnil]
    rfl
  · intro i b hb
    change (lock.stored.map L.book.symm)[i]? = some b at hb
    rw [hnil] at hb
    cases hb
  · exact fun u hu => absurd hu (List.not_mem_nil)
  · intro frame written hjob
    cases hjob
  · exact ⟨fun x hx => absurd hx List.not_mem_nil, .nil, fun x hx => absurd hx List.not_mem_nil⟩

theorem dashRingCapacity_powerOfTwo : PowerOfTwo DASH_RING_CAPACITY := ⟨6, rfl⟩

omit [DecidableEq ι] [Fintype ι] [DecidableEq κ] [Fintype κ] [DecidableEq μ] [Fintype μ] in
/-- A frame made is one of a snapshot converted. -/
theorem exists_converted {p : DashboardPublisher} {run : List (BookSnapshot × Surroundings)}
    {f : DashSnapshot} (hf : f ∈ p.frames run) :
    ∃ (x : BookSnapshot × Surroundings) (q : DashboardPublisher), x ∈ run ∧
      f = (q.convert x.1 x.2).1 := by
  obtain ⟨k, hk⟩ := List.mem_iff_getElem?.1 hf
  obtain ⟨q, x, hx, hconvert⟩ := DashboardPublisher.exists_convert hk
  exact ⟨x, q, List.mem_of_getElem? hx, hconvert⟩

/-- **The dashboard shows what exec was shown.** In every interleaving of the hot thread, the
snapshotter, exec and the dashboard, as long as there are fewer than 2^63 snapshots:

* the frames drained are the frames the ring took, each once and in order, but for those in it;
* a frame drained is the conversion of a snapshot that the hot thread stored as a whole, the one of
  the event that the frame names;
* no frame is older than the one drained before it;
* where exec was sent a frame for the same event, both show the same book. -/
theorem dashboard_faithful
    (hs : (dashboardFeed L instrument priceExp).ReachableWhen FewStores s) :
    (∃ inFlight, s.published L = s.shown L ++ inFlight ∧
      inFlight.length ≤ DASH_RING_CAPACITY.toNat) ∧
    (∀ f ∈ s.shown L, 0 < f.eventSeq ∧ ∃ b, (s.stored L)[f.eventSeq - 1]? = some b ∧
      ∃ (p : DashboardPublisher) (o : Surroundings), f = (p.convert b o).1) ∧
    (s.shown L).Pairwise (fun f g => f.eventSeq ≤ g.eventSeq) ∧
    ∀ f ∈ s.shown L, ∀ u ∈ s.pushed, u.eventSeq = f.eventSeq → SameBook f u := by
  have h := dashInv_of_reachable hs
  obtain ⟨inFlight, haccepted, hle⟩ := pushRing_lossless dashRingCapacity_powerOfTwo h.dashRing
  have hpublished : s.published L = s.shown L ++ inFlight.map L.dash.symm := by
    rw [DashboardFeed.published, haccepted, List.map_append]
    rfl
  have hframes : (s.shown L).Sublist
      (DashboardPublisher.frames { instrument, priceExp } s.converted) := by
    refine .trans ?_ h.published
    rw [List.map_append]
    exact (hpublished ▸ List.sublist_append_left _ _).trans (List.sublist_append_left _ _)
  refine ⟨⟨_, hpublished, (List.length_map _).trans_le hle⟩, fun f hf => ?_, ?_,
    fun f hf u hu hseq => ?_⟩
  · obtain ⟨x, p, hx, rfl⟩ := exists_converted (hframes.subset hf)
    obtain ⟨hpos, hstored⟩ := h.converted.stored x hx
    exact ⟨hpos, x.1, hstored, p, x.2, rfl⟩
  · have hordered : ((DashboardPublisher.frames { instrument, priceExp } s.converted).map
        DashSnapshot.eventSeq).Pairwise (· ≤ ·) := by
      rw [DashboardPublisher.frames_eventSeq]
      exact List.pairwise_map.2 h.converted.ordered
    exact (List.pairwise_map.1 hordered).sublist hframes
  · obtain ⟨x, p, hx, rfl⟩ := exists_converted (hframes.subset hf)
    obtain ⟨hpos, hstored⟩ := h.converted.stored x hx
    have hlt := (List.getElem?_eq_some_iff.1 hstored).1
    have hseq : u.eventSeq = x.1.eventSeq := hseq
    rcases h.drawn u hu with ⟨b, hb, hdraws⟩ | ⟨howed, hdraws⟩
    · -- the snapshot of an event is stored once
      obtain ⟨i, hi⟩ := List.mem_iff_getElem?.1 hb
      have hnumber := h.numbered i b hi
      have hplace : x.1.eventSeq - 1 = i := by
        rw [← hseq, hdraws.eventSeq, hnumber]
        rfl
      rw [hplace, hi] at hstored
      obtain rfl := Option.some.inj hstored
      exact hdraws.sameBook p x.2
    · -- a snapshot that is still owed is of a later event
      rcases h.hot with ⟨hfalse, -⟩ | ⟨-, -, hscratch, -⟩
      · exact absurd (howed.symm.trans hfalse) (by decide)
      · have := hdraws.eventSeq
        omega

end Steps

/-- Everything a single word. -/
def wordLayouts : Layouts Unit MarketUpdate Unit BookSnapshot Unit DashSnapshot where
  frame := (Equiv.funUnique Unit MarketUpdate).symm
  book := (Equiv.funUnique Unit BookSnapshot).symm
  dash := (Equiv.funUnique Unit DashSnapshot).symm

/-- The frames of one add reach exec and the dashboard. -/
theorem dashboard_faithful_add :
    ∃ (s : DashboardFeed Unit MarketUpdate Unit BookSnapshot Unit DashSnapshot)
      (f : DashSnapshot) (u : MarketUpdate), s.shown wordLayouts = [f] ∧ s.pushed = [u] ∧
        f.eventSeq = 1 ∧ SameBook f u := by
  have hread : ((dashboardFeed wordLayouts 0 0).execWhen FewStores
      { feed := { symbol := .replicate 8 32 }
        scratch := .zero
        ring := ⟨⟨0, 0, fun _ _ => .zero⟩, .idle, .idle, [], []⟩
        bookSeq := ⟨⟨0, fun _ => .zero⟩, .idle, fun _ => .idle, fun _ => .zero, [], 0, none, []⟩
        publisher := ⟨0, 0, false, 0, 0, false, 0⟩
        dashRing := ⟨⟨⟨0, 0, fun _ _ => {}⟩, .idle, .idle, [], []⟩, .idle, []⟩ }
      [.feed (.process { Event.zero with
          messageType := 'A', stock := .replicate 8 32, side := .buy, price := 100, shares := 5 }),
        .feed .claimLoadTail, .feed .claimLoadHead, .feed (.write ()), .feed .publishLoadTail,
        .feed .publishStoreTail, .storeLoad, .storeOdd, .storeCopy (), .storeEven, .wake, .loadPre,
        .loadCopy (), .loadPost ⟨0, 0, none⟩, .dash .claimLoadTail, .dash .claimLoadHead,
        .dash (.write ()), .dash .publishLoadTail, .dash .publishStoreTail, .dash .popLoadHead,
        .dash .popLoadTail, .dash (.copy ()), .dash .popStoreHead]).map
      (fun s => ((s.shown wordLayouts).map DashSnapshot.eventSeq,
        s.pushed.map MarketUpdate.eventSeq)) = some ([1], [1]) := by
    decide +kernel
  obtain ⟨s, hrun, hvalues⟩ := Option.map_eq_some_iff.1 hread
  obtain ⟨hshown, hpushed⟩ := Prod.mk.inj hvalues
  have hs : (dashboardFeed wordLayouts 0 0).ReachableWhen FewStores s := by
    refine Machine.ReachableWhen.execWhen (.init ?_) _ hrun
    exact ⟨_, _, _, init_frameFeed _ _ ⟨rfl, rfl, rfl, rfl, rfl⟩,
      ⟨rfl, rfl, fun _ => rfl, rfl, rfl, rfl, rfl, rfl⟩, rfl,
      ⟨_, ⟨rfl, rfl, rfl, rfl, rfl⟩, rfl⟩, rfl⟩
  obtain ⟨f, hf⟩ : ∃ f, s.shown wordLayouts = [f] := by
    have hlength := congrArg List.length hshown
    rw [List.length_map] at hlength
    exact List.length_eq_one_iff.1 hlength
  obtain ⟨u, hu⟩ : ∃ u, s.pushed = [u] := by
    have hlength := congrArg List.length hpushed
    rw [List.length_map] at hlength
    exact List.length_eq_one_iff.1 hlength
  rw [hf] at hshown
  rw [hu] at hpushed
  have hfseq : f.eventSeq = 1 := (List.cons.inj hshown).1
  have huseq : u.eventSeq = 1 := (List.cons.inj hpushed).1
  refine ⟨s, f, u, hf, hu, hfseq, ?_⟩
  exact (dashboard_faithful hs).2.2.2 f (by simp [hf]) u (by simp [hu]) (huseq.trans hfseq.symm)

end Pipeline

end LowLatencyPipeline
