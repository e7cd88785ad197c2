import LowLatencyPipeline.Common.SpscRing
import LowLatencyPipeline.Core.PrimaryFeed
import LowLatencyPipeline.Exec.MarketView

/-!
# The feed to exec

`process` of `core/core_main.cpp` with the feed ring and exec's `MarketView` at its other end.
`frameFeed` is the machine of all interleavings: the core applies events of any kind, claims a slot,
fills it word by word and publishes it, or drops the frame when the ring is full; exec pops frames
and updates its view. How a frame is laid out in words is a parameter.

The core flags the frame after dropped ones, and the view compares sequence numbers. Both mean the
same (`Fed.flag_iff`, `Fed.dropped_between`), so that `frames_accounted`: no frame is lost in the
ring, the view is reset exactly where frames were dropped, and its count of them is exact.
-/

namespace LowLatencyPipeline

namespace Pipeline

open Common LowLatencyPipeline.Core Exec SpscRing

universe u v

/-- `FEED_RING_CAPACITY`. -/
def FEED_RING_CAPACITY : UInt32 := 8192

/-- Where `process` is. -/
inductive Job (ι : Type u)
  /-- waiting for an event -/
  | idle
  /-- the event is applied and the book captured -/
  | claiming (ev : Event) (trade : Trade)
  /-- a slot is claimed: what it will hold, and the words of it that are written -/
  | building (frame : MarketUpdate) (written : Finset ι)

/-- A frame that exec has seen, and what the view says after it. -/
structure Sight where
  frame : MarketUpdate
  feedReset : Bool
  frameGaps : ℕ

/-- The core, the ring and exec, and what has happened so far. -/
structure FrameFeed (ι : Type u) (V : Type v) where
  feed : PrimaryFeed
  scratch : BookSnapshot
  framesPushed : ℕ := 0
  framesDropped : ℕ := 0
  pendingReset : Bool := false
  job : Job ι := .idle
  ring : RingState ι V
  view : MarketView := {}
  pushed : List MarketUpdate := []
  /-- the sequence numbers of the dropped frames -/
  dropped : List ℕ := []
  sights : List Sight := []

/-- What happens next. -/
inductive FrameStep (ι : Type u)
  | process (ev : Event)
  | claimLoadTail
  | claimLoadHead
  | write (k : ι)
  | publishLoadTail
  | publishStoreTail
  | popLoadHead
  | popLoadTail
  | copy (k : ι)
  | popStoreHead

variable {ι : Type u} {V : Type v} [DecidableEq ι] [Fintype ι]

/-- The ring's side of a step. -/
def ringStep? (s : FrameFeed ι V) (a : RingStep ι V) : Option (RingState ι V) :=
  ringStep FEED_RING_CAPACITY s.ring a

/-- One step. -/
def frameStep (layout : MarketUpdate ≃ (ι → V)) (instrument : UInt16) (s : FrameFeed ι V) :
    FrameStep ι → Option (FrameFeed ι V)
  | .process ev =>
    match s.job with
    | .idle =>
      match s.feed.apply ev with
      | none => none
      -- the event is not one of the symbol's book
      | some (feed, none) => some { s with feed }
      | some (feed, some (book, trade)) => some { s with
          feed
          scratch := capture s.scratch book feed.symbol feed.count
          job := .claiming ev trade }
    | _ => none
  | .claimLoadTail =>
    match s.job with
    | .claiming _ _ => (ringStep? s .claimLoadTail).map fun ring => { s with ring }
    | _ => none
  | .claimLoadHead =>
    match s.job with
    | .claiming ev trade =>
      (ringStep? s .claimLoadHead).map fun ring =>
        match ring.producer with
        | .claimed writeIdx =>
          -- the frame is built over what the slot held before
          let slot := layout.symm (ring.slots (slotOf FEED_RING_CAPACITY writeIdx))
          { s with
            ring
            job := .building (buildMarketUpdate slot ev s.scratch trade instrument
              (resetFlag s.pendingReset)) ∅ }
        | _ => { s with
            ring
            -- full: the frame is dropped, and the next one pushed says so
            framesDropped := s.framesDropped + 1
            pendingReset := true
            job := .idle
            dropped := s.dropped ++ [s.scratch.eventSeq] }
    | _ => none
  | .write k =>
    match s.job with
    | .building frame written =>
      (ringStep? s (.write k (layout frame k))).map fun ring => { s with
        ring, job := .building frame (insert k written) }
    | _ => none
  | .publishLoadTail =>
    match s.job with
    | .building _ written =>
      -- publish comes after build_market_update
      if ∀ k, k ∈ written then (ringStep? s .publishLoadTail).map fun ring => { s with ring }
      else none
    | _ => none
  | .publishStoreTail =>
    match s.job with
    | .building frame _ =>
      (ringStep? s .publishStoreTail).map fun ring => { s with
        ring
        framesPushed := s.framesPushed + 1
        pendingReset := false
        job := .idle
        pushed := s.pushed ++ [frame] }
    | _ => none
  | .popLoadHead => (ringStep? s .popLoadHead).map fun ring => { s with ring }
  | .popLoadTail => (ringStep? s .popLoadTail).map fun ring => { s with ring }
  | .copy k => (ringStep? s (.copy k)).map fun ring => { s with ring }
  | .popStoreHead =>
    match ringStep? s .popStoreHead with
    | none => none
    | some ring =>
      match ring.popped.getLast? with
      | none => none
      | some words =>
        let frame := layout.symm words
        let view := s.view.onUpdate frame
        some { s with
          ring, view, sights := s.sights ++ [⟨frame, view.feedReset, view.frameGaps⟩] }

/-- All interleavings of the core and exec, from an empty ring with any indices and contents. -/
def frameFeed (layout : MarketUpdate ≃ (ι → V)) (instrument : UInt16) :
    Machine (FrameFeed ι V) (FrameStep ι) where
  Init s := ∃ symbol scratch ring, s = { feed := { symbol }, scratch, ring } ∧
    (spscRing ι V FEED_RING_CAPACITY).Init ring
  step := frameStep layout instrument

/-! ### What the core can have done -/

/-- What stands where in a list that grew by one. -/
theorem getElem?_concat_iff {α : Type*} {l : List α} {a x : α} {i : ℕ} :
    (l ++ [a])[i]? = some x ↔ l[i]? = some x ∨ i = l.length ∧ a = x := by
  rcases lt_trichotomy i l.length with hlt | rfl | hgt
  · rw [List.getElem?_append_left hlt]
    exact (or_iff_left fun h => hlt.ne h.1).symm
  · rw [List.getElem?_concat_length, List.getElem?_eq_none le_rfl]
    simp
  · rw [List.getElem?_eq_none (by simpa using Nat.succ_le_of_lt hgt), List.getElem?_eq_none hgt.le]
    simp [hgt.ne']

/-- `n` events of the symbol are applied and their frames pushed or dropped; the flag is
`pending_reset`. -/
inductive Fed : ℕ → List MarketUpdate → List ℕ → Bool → Prop
  | start : Fed 0 [] [] false
  | push {n : ℕ} {pushed : List MarketUpdate} {dropped : List ℕ} {reset : Bool}
      {frame : MarketUpdate} : Fed n pushed dropped reset → frame.eventSeq = n + 1 →
      (frame.flags &&& FEED_RESET ≠ 0 ↔ reset) → Fed (n + 1) (pushed ++ [frame]) dropped false
  | drop {n : ℕ} {pushed : List MarketUpdate} {dropped : List ℕ} {reset : Bool} :
      Fed n pushed dropped reset → pushed ≠ [] → Fed (n + 1) pushed (dropped ++ [n + 1]) true

namespace Fed

variable {n : ℕ} {pushed : List MarketUpdate} {dropped : List ℕ} {reset : Bool}

theorem length_add_length (h : Fed n pushed dropped reset) :
    pushed.length + dropped.length = n := by
  induction h with
  | start => rfl
  | push _ _ _ ih => simp only [List.length_append, List.length_singleton]; omega
  | drop _ _ ih => simp only [List.length_append, List.length_singleton]; omega

theorem eventSeq_le (h : Fed n pushed dropped reset) : ∀ u ∈ pushed, u.eventSeq ≤ n := by
  induction h with
  | start => simp
  | push _ hseq _ ih =>
    intro u hu
    rcases List.mem_append.1 hu with hu | hu
    · exact (ih u hu).trans (Nat.le_succ _)
    · exact List.mem_singleton.1 hu ▸ hseq.le
  | drop _ _ ih => exact fun u hu => (ih u hu).trans (Nat.le_succ _)

/-- Sequence numbers increase. -/
theorem pairwise (h : Fed n pushed dropped reset) :
    pushed.Pairwise fun u v => u.eventSeq < v.eventSeq := by
  induction h with
  | start => exact .nil
  | push h hseq _ ih =>
    refine List.pairwise_append.2 ⟨ih, List.pairwise_singleton _ _, fun u hu v hv => ?_⟩
    rw [List.mem_singleton.1 hv, hseq]
    exact Nat.lt_succ_of_le (h.eventSeq_le u hu)
  | drop _ _ ih => exact ih

/-- Every event has its frame pushed or dropped. -/
theorem cover (h : Fed n pushed dropped reset) {k : ℕ} (hpos : 0 < k) (hle : k ≤ n) :
    k ∈ dropped ∨ ∃ u ∈ pushed, u.eventSeq = k := by
  induction h with
  | start => omega
  | @push n pushed dropped reset frame _ hseq _ ih =>
    rcases Nat.lt_or_ge n k with hlt | hge
    · exact .inr ⟨frame, by simp, by omega⟩
    · rcases ih hge with hd | ⟨u, hu, heq⟩
      · exact .inl hd
      · exact .inr ⟨u, List.mem_append_left _ hu, heq⟩
  | @drop n pushed dropped reset _ _ ih =>
    rcases Nat.lt_or_ge n k with hlt | hge
    · exact .inl (List.mem_append_right _ (by simp; omega))
    · rcases ih hge with hd | hu
      · exact .inl (List.mem_append_left _ hd)
      · exact .inr hu

/-- No frame is dropped before one is pushed. -/
theorem eq_zero_of_nil (h : Fed n pushed dropped reset) (hnil : pushed = []) : n = 0 := by
  cases h with
  | start => rfl
  | push => simp at hnil
  | drop _ hne => exact absurd hnil hne

/-- The first frame is never dropped. -/
theorem head_eq_one (h : Fed n pushed dropped reset) {u : MarketUpdate}
    (hu : pushed[0]? = some u) : u.eventSeq = 1 := by
  induction h with
  | start => cases hu
  | @push n pushed dropped reset frame h hseq _ ih =>
    cases pushed with
    | nil =>
      simp only [List.nil_append, List.getElem?_cons_zero, Option.some.injEq] at hu
      rw [← hu, hseq, h.eq_zero_of_nil rfl]
    | cons v rest => exact ih hu
  | drop _ _ ih => exact ih hu

/-- `pending_reset` is set iff the last frame was dropped. -/
theorem reset_iff (h : Fed n pushed dropped reset) {i : ℕ} {u : MarketUpdate}
    (hu : pushed[i]? = some u) (hlast : i + 1 = pushed.length) : reset ↔ u.eventSeq < n := by
  cases h with
  | start => cases hu
  | push _ hseq =>
    simp only [List.length_append, List.length_singleton, Nat.add_right_cancel_iff] at hlast
    rw [hlast, List.getElem?_concat_length, Option.some.injEq] at hu
    simp [← hu, hseq]
  | drop h _ =>
    have hle := h.eventSeq_le u (List.mem_of_getElem? hu)
    simp only [true_iff]
    omega

/-- **The flag of the core** says that frames are missing before this one. -/
theorem flag_iff (h : Fed n pushed dropped reset) {i : ℕ} {u v : MarketUpdate}
    (hu : pushed[i]? = some u) (hv : pushed[i + 1]? = some v) :
    v.flags &&& FEED_RESET ≠ 0 ↔ u.eventSeq + 1 < v.eventSeq := by
  induction h with
  | start => cases hu
  | @push n pushed dropped reset frame h hseq hflag ih =>
    have hi := (List.getElem?_eq_some_iff.1 hv).1
    simp only [List.length_append, List.length_singleton] at hi
    have hu' : pushed[i]? = some u := by
      rwa [List.getElem?_append_left (by omega)] at hu
    rcases getElem?_concat_iff.1 hv with hv | ⟨hlast, rfl⟩
    · exact ih hu' hv
    · rw [hflag, h.reset_iff hu' hlast, hseq]
      omega
  | drop _ _ ih => exact ih hu hv

/-- **The gap the view sees** is where frames were dropped. -/
theorem dropped_between (h : Fed n pushed dropped reset) {i : ℕ} {u v : MarketUpdate}
    (hu : pushed[i]? = some u) (hv : pushed[i + 1]? = some v) :
    u.eventSeq + 1 < v.eventSeq ↔ ∃ d ∈ dropped, u.eventSeq < d ∧ d < v.eventSeq := by
  constructor
  · intro hlt
    have hvn := h.eventSeq_le v (List.mem_of_getElem? hv)
    rcases h.cover (Nat.succ_pos u.eventSeq) (by omega) with hd | ⟨w, hw, heq⟩
    · exact ⟨_, hd, Nat.lt_succ_self _, hlt⟩
    · -- no frame lies between two neighbours
      obtain ⟨j, hj, rfl⟩ := List.mem_iff_getElem.1 hw
      obtain ⟨hi, rfl⟩ := List.getElem?_eq_some_iff.1 hu
      obtain ⟨hi', rfl⟩ := List.getElem?_eq_some_iff.1 hv
      have hpair := List.pairwise_iff_getElem.1 h.pairwise
      rcases Nat.lt_or_ge i j with hij | hji
      · rcases Nat.lt_or_ge j (i + 1) with hlt' | hge
        · omega
        · rcases eq_or_lt_of_le hge with rfl | hlt'
          · omega
          · have := hpair (i + 1) j hi' hj hlt'
            omega
      · rcases eq_or_lt_of_le hji with rfl | hlt'
        · omega
        · have := hpair j i hj hi hlt'
          omega
  · rintro ⟨d, -, hlow, hhigh⟩
    omega

end Fed

/-! ### What the view makes of it -/

section View

variable {v : MarketView} {u : MarketUpdate}

theorem onUpdate_u : (v.onUpdate u).u = u := by
  unfold MarketView.onUpdate MarketView.trackMid
  split_ifs <;> rfl

theorem onUpdate_checkSeq : (v.onUpdate u).haveSeq = true ∧
    (v.onUpdate u).feedReset = (v.checkSeq u).feedReset ∧
      (v.onUpdate u).frameGaps = (v.checkSeq u).frameGaps := by
  unfold MarketView.onUpdate MarketView.trackMid
  split_ifs <;> exact ⟨rfl, rfl, rfl⟩

/-- The view's count after a frame that is not the first. -/
theorem frameGaps_onUpdate (hseq : v.haveSeq = true) (hlt : v.u.eventSeq < u.eventSeq) :
    (v.onUpdate u).frameGaps = v.frameGaps + (u.eventSeq - (v.u.eventSeq + 1)) := by
  rw [onUpdate_checkSeq.2.2, MarketView.checkSeq]
  simp only [hseq, Bool.true_and, Bool.and_eq_true, decide_eq_true_eq]
  split_ifs with hgap
  · rfl
  · omega

/-- The view is reset by the flag or by a gap. -/
theorem feedReset_onUpdate (hseq : v.haveSeq = true) : (v.onUpdate u).feedReset ↔
    u.flags &&& FEED_RESET ≠ 0 ∨ u.eventSeq ≠ v.u.eventSeq + 1 := by
  rw [onUpdate_checkSeq.2.1, MarketView.checkSeq]
  simp [hseq]

end View

/-- What exec has seen: the frames pushed so far, each with what it should say. -/
structure Seen (pushed : List MarketUpdate) (dropped : List ℕ) (sights : List Sight) : Prop where
  length_le : sights.length ≤ pushed.length
  frame : ∀ (i : ℕ) (σ : Sight), sights[i]? = some σ → pushed[i]? = some σ.frame
  gaps : ∀ (i : ℕ) (σ : Sight), sights[i]? = some σ → σ.frameGaps + (i + 1) = σ.frame.eventSeq
  reset : ∀ (i : ℕ) (σ τ : Sight), sights[i]? = some σ → sights[i + 1]? = some τ →
    (τ.feedReset ↔ ∃ d ∈ dropped, σ.frame.eventSeq < d ∧ d < τ.frame.eventSeq)

/-- The view is the one after the last frame seen. -/
structure Views (view : MarketView) (sights : List Sight) : Prop where
  fresh : sights = [] → view.haveSeq = false ∧ view.frameGaps = 0
  last : ∀ (i : ℕ) (σ : Sight), sights[i]? = some σ → i + 1 = sights.length →
    view.haveSeq = true ∧ view.u = σ.frame ∧ view.frameGaps = σ.frameGaps

section Seen

variable {n : ℕ} {pushed : List MarketUpdate} {dropped : List ℕ} {reset : Bool}
  {sights : List Sight} {view : MarketView}

theorem Seen.push (h : Seen pushed dropped sights) (frame : MarketUpdate) :
    Seen (pushed ++ [frame]) dropped sights := by
  refine ⟨?_, fun i σ hσ => ?_, h.gaps, h.reset⟩
  · rw [List.length_append]
    exact h.length_le.trans (Nat.le_add_right _ _)
  · have hlt := (List.getElem?_eq_some_iff.1 hσ).1
    rw [List.getElem?_append_left (hlt.trans_le h.length_le)]
    exact h.frame i σ hσ

/-- A frame dropped now lies beyond all frames pushed. -/
theorem Seen.drop (h : Seen pushed dropped sights) (hfed : Fed n pushed dropped reset) :
    Seen pushed (dropped ++ [n + 1]) sights := by
  refine ⟨h.length_le, h.frame, h.gaps, fun i σ τ hσ hτ => (h.reset i σ τ hσ hτ).trans ?_⟩
  have hle := hfed.eventSeq_le _ (List.mem_of_getElem? (h.frame _ _ hτ))
  constructor
  · rintro ⟨d, hd, hbetween⟩
    exact ⟨d, List.mem_append_left _ hd, hbetween⟩
  · rintro ⟨d, hd, hbetween⟩
    rcases List.mem_append.1 hd with hd | hd
    · exact ⟨d, hd, hbetween⟩
    · rw [List.mem_singleton.1 hd] at hbetween
      omega

/-- The view before the next frame is the one after the frame before it. -/
theorem Views.before (hview : Views view sights) (h : Seen pushed dropped sights)
    (hfed : Fed n pushed dropped reset) {u : MarketUpdate} (hu : pushed[sights.length]? = some u)
    {i : ℕ} {σ : Sight} (hσ : sights[i]? = some σ) (hlast : i + 1 = sights.length) :
    view.haveSeq = true ∧ view.u = σ.frame ∧ view.u.eventSeq < u.eventSeq ∧
      view.frameGaps + (i + 1) = view.u.eventSeq := by
  obtain ⟨hseq, hvu, hgaps⟩ := hview.last i σ hσ hlast
  obtain ⟨hi, hpi⟩ := List.getElem?_eq_some_iff.1 (h.frame i σ hσ)
  obtain ⟨hj, hpj⟩ := List.getElem?_eq_some_iff.1 hu
  have hlt := List.pairwise_iff_getElem.1 hfed.pairwise i _ hi hj (by omega)
  rw [hpi, hpj] at hlt
  exact ⟨hseq, hvu, hvu ▸ hlt, by rw [hgaps, hvu, h.gaps i σ hσ]⟩

/-- The view counts every frame missing before the next one. -/
theorem Views.gaps_onUpdate (hview : Views view sights) (h : Seen pushed dropped sights)
    (hfed : Fed n pushed dropped reset) {u : MarketUpdate}
    (hu : pushed[sights.length]? = some u) :
    (view.onUpdate u).frameGaps + (sights.length + 1) = u.eventSeq := by
  cases hlength : sights.length with
  | zero =>
    obtain ⟨hseq, hzero⟩ := hview.fresh (List.eq_nil_of_length_eq_zero hlength)
    rw [hlength] at hu
    rw [hfed.head_eq_one hu, onUpdate_checkSeq.2.2, MarketView.checkSeq]
    simp [hseq, hzero]
  | succ i =>
    have hi : i < sights.length := by omega
    obtain ⟨hseq, -, hlt, heq⟩ :=
      hview.before h hfed hu (List.getElem?_eq_getElem hi) hlength.symm
    rw [frameGaps_onUpdate hseq hlt]
    omega

/-- **A frame is seen**, the next one pushed. -/
theorem Seen.see (h : Seen pushed dropped sights) (hview : Views view sights)
    (hfed : Fed n pushed dropped reset) {u : MarketUpdate} (hu : pushed[sights.length]? = some u) :
    Seen pushed dropped
        (sights ++ [⟨u, (view.onUpdate u).feedReset, (view.onUpdate u).frameGaps⟩]) ∧
      Views (view.onUpdate u)
        (sights ++ [⟨u, (view.onUpdate u).feedReset, (view.onUpdate u).frameGaps⟩]) := by
  refine ⟨⟨?_, fun i σ hσ => ?_, fun i σ hσ => ?_, fun i σ τ hσ hτ => ?_⟩, ?_, ?_⟩
  · have hlt := (List.getElem?_eq_some_iff.1 hu).1
    rw [List.length_append, List.length_singleton]
    omega
  · rcases getElem?_concat_iff.1 hσ with hσ | ⟨rfl, rfl⟩
    · exact h.frame i σ hσ
    · exact hu
  · rcases getElem?_concat_iff.1 hσ with hσ | ⟨rfl, rfl⟩
    · exact h.gaps i σ hσ
    · exact hview.gaps_onUpdate h hfed hu
  · have hi := (List.getElem?_eq_some_iff.1 hτ).1
    simp only [List.length_append, List.length_singleton] at hi
    rw [List.getElem?_append_left (by omega)] at hσ
    rcases getElem?_concat_iff.1 hτ with hτ | ⟨hlast, rfl⟩
    · exact h.reset i σ τ hσ hτ
    · -- the flag or the gap: either way frames are missing since the last one seen
      obtain ⟨hseq, hvu, hlt, -⟩ := hview.before h hfed hu hσ hlast
      have hpi := h.frame i σ hσ
      rw [← hlast] at hu
      dsimp only
      rw [← hfed.dropped_between hpi hu, feedReset_onUpdate hseq, hfed.flag_iff hpi hu, hvu]
      rw [hvu] at hlt
      omega
  · simp
  · intro i σ hσ hlast
    rw [List.length_append, List.length_singleton, Nat.add_right_cancel_iff] at hlast
    rw [hlast, List.getElem?_concat_length, Option.some.injEq] at hσ
    rw [← hσ]
    exact ⟨onUpdate_checkSeq.1, onUpdate_u, rfl⟩

end Seen

/-! ### The invariant -/

theorem feedRingCapacity_powerOfTwo : PowerOfTwo FEED_RING_CAPACITY := ⟨13, rfl⟩

/-- The bit FEED_RESET among the flags. -/
theorem feedReset_flag {mu : MarketUpdate} {ev : Event} {snap : BookSnapshot} {trade : Trade}
    {instrument : UInt16} (reset : Bool) :
    (buildMarketUpdate mu ev snap trade instrument (resetFlag reset)).flags &&& FEED_RESET ≠ 0 ↔
      reset := by
  simp only [buildMarketUpdate]
  split_ifs <;> cases reset <;> decide

/-- What `process` and the ring know of each other. -/
inductive Working (layout : MarketUpdate ≃ (ι → V)) (s : FrameFeed ι V) : Job ι → Prop
  | idle : s.ring.producer = .idle → Fed s.feed.count s.pushed s.dropped s.pendingReset →
      Working layout s .idle
  | claiming {ev : Event} {trade : Trade} {n : ℕ} :
      (s.ring.producer = .idle ∨ ∃ w, s.ring.producer = .claiming w) → s.feed.count = n + 1 →
      s.scratch.eventSeq = n + 1 → Fed n s.pushed s.dropped s.pendingReset →
      Working layout s (.claiming ev trade)
  | building {frame : MarketUpdate} {written : Finset ι} {n : ℕ} :
      ((∃ w, s.ring.producer = .claimed w) ∨
        (∃ w, s.ring.producer = .publishing w) ∧ ∀ k, k ∈ written) →
      (∀ k ∈ written,
        s.ring.slots (slotOf FEED_RING_CAPACITY s.ring.tail) k = layout frame k) →
      s.feed.count = n + 1 → frame.eventSeq = n + 1 →
      (frame.flags &&& FEED_RESET ≠ 0 ↔ s.pendingReset) →
      Fed n s.pushed s.dropped s.pendingReset → Working layout s (.building frame written)

/-- **The invariant of the feed.** -/
structure FrameInv (layout : MarketUpdate ≃ (ι → V)) (s : FrameFeed ι V) : Prop where
  ring : (spscRing ι V FEED_RING_CAPACITY).Reachable s.ring
  published : s.ring.published = s.pushed.map layout
  popped : s.ring.popped = s.sights.map fun σ => layout σ.frame
  framesPushed : s.framesPushed = s.pushed.length
  framesDropped : s.framesDropped = s.dropped.length
  working : Working layout s s.job
  seen : Seen s.pushed s.dropped s.sights
  views : Views s.view s.sights

section Steps

variable {layout : MarketUpdate ≃ (ι → V)} {instrument : UInt16} {s t : FrameFeed ι V}
  {ring : RingState ι V}

omit [DecidableEq ι] [Fintype ι] in
/-- The consumer's steps do not disturb the core. -/
theorem Working.consume {job : Job ι} (h : Working layout s job)
    (hslots : ring.slots = s.ring.slots) (htail : ring.tail = s.ring.tail)
    (hproducer : ring.producer = s.ring.producer) {view : MarketView} {sights : List Sight} :
    Working layout { s with ring, view, sights } job := by
  cases h with
  | idle hidle hfed => exact .idle (hproducer.trans hidle) hfed
  | claiming hclaim hcount hseq hfed => exact .claiming (hproducer ▸ hclaim) hcount hseq hfed
  | building hbuild hwritten hcount hseq hflag hfed =>
    refine .building (hproducer ▸ hbuild) ?_ hcount hseq hflag hfed
    change ∀ k ∈ _, ring.slots (slotOf FEED_RING_CAPACITY ring.tail) k = _
    rw [hslots, htail]
    exact hwritten

omit [DecidableEq ι] [Fintype ι] in
theorem Working.exists_fed {job : Job ι} (h : Working layout s job) :
    ∃ n ≤ s.feed.count, Fed n s.pushed s.dropped s.pendingReset := by
  cases h with
  | idle _ hfed => exact ⟨_, Nat.le_refl _, hfed⟩
  | claiming _ hcount _ hfed => exact ⟨_, hcount ▸ Nat.le_succ _, hfed⟩
  | building _ _ hcount _ _ hfed => exact ⟨_, hcount ▸ Nat.le_succ _, hfed⟩

/-- A step of the consumer that pops nothing. -/
theorem FrameInv.consume (h : FrameInv layout s) {a : RingStep ι V} (ha : a.Consumes)
    (hne : a ≠ .popStoreHead) (hring : ringStep? s a = some ring) :
    FrameInv layout { s with ring } := by
  obtain ⟨hslots, htail, hproducer, hpublished, hpopped⟩ := consumer_frame ha hring
  refine ⟨.step h.ring trivial hring, hpublished.trans h.published, (hpopped hne).trans h.popped,
    h.framesPushed, h.framesDropped, ?_, h.seen, h.views⟩
  exact h.working.consume hslots htail hproducer

/-- **A frame is popped and seen.** -/
theorem FrameInv.popStoreHead (h : FrameInv layout s)
    (hstep : frameStep layout instrument s .popStoreHead = some t) : FrameInv layout t := by
  simp only [frameStep] at hstep
  split at hstep
  · cases hstep
  next ring hring =>
  obtain ⟨pending, hpending⟩ := exists_pending feedRingCapacity_powerOfTwo h.ring
  obtain ⟨item, rest, hitem, hpopped, -⟩ := hpending.popStoreHead hring
  have hconsumes : (RingStep.popStoreHead : RingStep ι V).Consumes := trivial
  obtain ⟨hslots, htail, hproducer, hpublished, -⟩ := consumer_frame hconsumes hring
  simp only [hpopped, List.getLast?_concat, Option.some.injEq] at hstep
  -- the item is the next of the frames pushed
  have hnext : s.pushed[s.sights.length]? = some (layout.symm item) := by
    have hitems : s.pushed.map layout = (s.sights.map fun σ => layout σ.frame) ++ pending := by
      rw [← h.published, ← h.popped]
      exact hpending.published_eq
    have hget : (s.pushed.map layout)[s.sights.length]? = some item := by
      rw [hitems, hitem, List.getElem?_append_right (by simp)]
      simp
    rw [List.getElem?_map] at hget
    obtain ⟨u, hu, rfl⟩ := Option.map_eq_some_iff.1 hget
    rw [hu, Equiv.symm_apply_apply]
  obtain ⟨n, -, hfed⟩ := h.working.exists_fed
  obtain ⟨hseen, hviews⟩ := h.seen.see h.views hfed hnext
  subst hstep
  refine ⟨.step (a := .popStoreHead) h.ring trivial hring, hpublished.trans h.published, ?_,
    h.framesPushed, h.framesDropped, h.working.consume hslots htail hproducer, hseen, hviews⟩
  rw [hpopped, h.popped, List.map_append]
  simp

/-- An event is applied. -/
theorem FrameInv.process (h : FrameInv layout s) {ev : Event}
    (hstep : frameStep layout instrument s (.process ev) = some t) : FrameInv layout t := by
  have hworking := h.working
  simp only [frameStep] at hstep
  split at hstep
  · next hjob =>
    rw [hjob] at hworking
    cases hworking with
    | idle hidle hfed =>
      split at hstep
      · cases hstep
      · next feed happly =>
        obtain rfl := Option.some.inj hstep
        rcases apply_cases happly with ⟨-, rfl, -⟩ | ⟨_, _, _, -, -, -, hout⟩
        · exact ⟨h.ring, h.published, h.popped, h.framesPushed, h.framesDropped, h.working,
            h.seen, h.views⟩
        · cases hout
      · next feed book trade happly =>
        obtain rfl := Option.some.inj hstep
        -- the event counts, and its frame is to be pushed or dropped
        have hcount : feed.count = s.feed.count + 1 := by
          rcases apply_cases happly with ⟨-, -, hout⟩ | ⟨_, _, _, -, -, rfl, -⟩
          · cases hout
          · rfl
        exact ⟨h.ring, h.published, h.popped, h.framesPushed, h.framesDropped,
          .claiming (.inl hidle) hcount hcount hfed, h.seen, h.views⟩
  · cases hstep

/-- `try_claim` loads `tail`. -/
theorem FrameInv.claimLoadTail (h : FrameInv layout s)
    (hstep : frameStep layout instrument s .claimLoadTail = some t) : FrameInv layout t := by
  have hworking := h.working
  simp only [frameStep] at hstep
  split at hstep
  · next ev trade hjob =>
    obtain ⟨ring, hring, rfl⟩ := Option.map_eq_some_iff.1 hstep
    rw [hjob] at hworking
    cases hworking with
    | claiming hclaim hcount hseq hfed =>
      cases producerEffect_of_step (by exact id) hring with
      | claimLoadTail =>
        refine ⟨.step (a := .claimLoadTail) h.ring trivial hring, h.published, h.popped,
          h.framesPushed, h.framesDropped, ?_, h.seen, h.views⟩
        rw [hjob]
        exact .claiming (.inr ⟨_, rfl⟩) hcount hseq hfed
  · cases hstep

/-- `try_claim` loads `head`: a slot is claimed, or the frame is dropped. -/
theorem FrameInv.claimLoadHead (h : FrameInv layout s)
    (hstep : frameStep layout instrument s .claimLoadHead = some t) : FrameInv layout t := by
  have hworking := h.working
  simp only [frameStep] at hstep
  split at hstep
  · next ev trade hjob =>
    obtain ⟨ring, hring, rfl⟩ := Option.map_eq_some_iff.1 hstep
    have hreach : (spscRing ι V FEED_RING_CAPACITY).Reachable ring :=
      .step (a := .claimLoadHead) h.ring trivial hring
    rw [hjob] at hworking
    cases hworking with
    | claiming hclaim hcount hseq hfed =>
      cases producerEffect_of_step (by exact id) hring with
      | full hw hfull =>
        -- the ring is full, so it holds frames
        have hne : s.pushed ≠ [] := by
          obtain ⟨pending, hpending⟩ := exists_pending feedRingCapacity_powerOfTwo h.ring
          have hknows := hpending.producer
          rw [hw] at hknows
          obtain rfl := hknows
          have hlength := hpending.full_iff.1 hfull
          rintro hnil
          have hempty := hpending.published_eq
          rw [h.published, hnil, List.map_nil, eq_comm, List.append_eq_nil_iff] at hempty
          rw [hempty.2] at hlength
          cases hlength
        refine ⟨hreach, h.published, h.popped, h.framesPushed, ?_, ?_, ?_, h.views⟩
        · simp [h.framesDropped]
        · refine .idle rfl ?_
          change Fed s.feed.count _ (s.dropped ++ [s.scratch.eventSeq]) true
          rw [hcount, hseq]
          exact hfed.drop hne
        · change Seen _ (s.dropped ++ [s.scratch.eventSeq]) _
          rw [hseq]
          exact h.seen.drop hfed
      | claimed hw =>
        refine ⟨hreach, h.published, h.popped, h.framesPushed, h.framesDropped, ?_, h.seen,
          h.views⟩
        exact .building (.inl ⟨_, rfl⟩) (fun k hk => absurd hk (Finset.notMem_empty k)) hcount hseq
          (feedReset_flag _) hfed
  · cases hstep

/-- A word of the frame is written. -/
theorem FrameInv.write (h : FrameInv layout s) {k : ι}
    (hstep : frameStep layout instrument s (.write k) = some t) : FrameInv layout t := by
  have hworking := h.working
  simp only [frameStep] at hstep
  split at hstep
  · next frame written hjob =>
    obtain ⟨ring, hring, rfl⟩ := Option.map_eq_some_iff.1 hstep
    have hreach : (spscRing ι V FEED_RING_CAPACITY).Reachable ring :=
      .step (a := .write k (layout frame k)) h.ring trivial hring
    rw [hjob] at hworking
    cases hworking with
    | building hbuild hwritten hcount hseq hflag hfed =>
      cases producerEffect_of_step (by exact id) hring with
      | @write writeIdx _ _ hw =>
        obtain ⟨pending, hpending⟩ := exists_pending feedRingCapacity_powerOfTwo h.ring
        have hknows := hpending.producer
        rw [hw] at hknows
        obtain ⟨rfl, -⟩ := hknows
        refine ⟨hreach, h.published, h.popped, h.framesPushed, h.framesDropped, ?_, h.seen,
          h.views⟩
        refine .building (.inl ⟨_, hw⟩) (fun j hj => ?_) hcount hseq hflag hfed
        dsimp only
        rw [Function.update_self]
        rcases eq_or_ne j k with rfl | hne
        · rw [Function.update_self]
        · rw [Function.update_of_ne hne]
          exact hwritten j (Finset.mem_of_mem_insert_of_ne hj hne)
  · cases hstep

/-- `publish` loads `tail`. -/
theorem FrameInv.publishLoadTail (h : FrameInv layout s)
    (hstep : frameStep layout instrument s .publishLoadTail = some t) : FrameInv layout t := by
  have hworking := h.working
  simp only [frameStep] at hstep
  split at hstep
  · next frame written hjob =>
    split_ifs at hstep with hall
    obtain ⟨ring, hring, rfl⟩ := Option.map_eq_some_iff.1 hstep
    rw [hjob] at hworking
    cases hworking with
    | building hbuild hwritten hcount hseq hflag hfed =>
      cases producerEffect_of_step (by exact id) hring with
      | publishLoadTail hw =>
        refine ⟨.step (a := .publishLoadTail) h.ring trivial hring, h.published, h.popped,
          h.framesPushed, h.framesDropped, ?_, h.seen, h.views⟩
        rw [hjob]
        exact .building (.inr ⟨⟨_, rfl⟩, hall⟩) hwritten hcount hseq hflag hfed
  · cases hstep

/-- **A frame is published.** -/
theorem FrameInv.publishStoreTail (h : FrameInv layout s)
    (hstep : frameStep layout instrument s .publishStoreTail = some t) : FrameInv layout t := by
  have hworking := h.working
  simp only [frameStep] at hstep
  split at hstep
  · next frame written hjob =>
    obtain ⟨ring, hring, rfl⟩ := Option.map_eq_some_iff.1 hstep
    have hreach : (spscRing ι V FEED_RING_CAPACITY).Reachable ring :=
      .step (a := .publishStoreTail) h.ring trivial hring
    rw [hjob] at hworking
    cases hworking with
    | building hbuild hwritten hcount hseq hflag hfed =>
      cases producerEffect_of_step (by exact id) hring with
      | @publishStoreTail writeIdx hw =>
        obtain ⟨pending, hpending⟩ := exists_pending feedRingCapacity_powerOfTwo h.ring
        have hknows := hpending.producer
        rw [hw] at hknows
        obtain ⟨rfl, -⟩ := hknows
        have hall : ∀ k, k ∈ written := by
          rcases hbuild with ⟨w, hclaimed⟩ | ⟨-, hall⟩
          · rw [hw] at hclaimed
            cases hclaimed
          · exact hall
        -- every word of the slot is the frame's
        have hslot : s.ring.slots (slotOf FEED_RING_CAPACITY s.ring.tail) = layout frame :=
          funext fun k => hwritten k (hall k)
        refine ⟨hreach, ?_, h.popped, ?_, h.framesDropped, ?_, h.seen.push frame, h.views⟩
        · simp [h.published, hslot]
        · simp [h.framesPushed]
        · refine .idle rfl ?_
          rw [hcount]
          exact hfed.push hseq hflag
  · cases hstep

/-- **The step lemma.** -/
theorem FrameInv.step (h : FrameInv layout s) {a : FrameStep ι}
    (hstep : frameStep layout instrument s a = some t) : FrameInv layout t := by
  cases a with
  | process ev => exact h.process hstep
  | claimLoadTail => exact h.claimLoadTail hstep
  | claimLoadHead => exact h.claimLoadHead hstep
  | write k => exact h.write hstep
  | publishLoadTail => exact h.publishLoadTail hstep
  | publishStoreTail => exact h.publishStoreTail hstep
  | popLoadHead =>
    obtain ⟨ring, hring, rfl⟩ := Option.map_eq_some_iff.1 hstep
    exact h.consume (a := .popLoadHead) trivial (by simp) hring
  | popLoadTail =>
    obtain ⟨ring, hring, rfl⟩ := Option.map_eq_some_iff.1 hstep
    exact h.consume (a := .popLoadTail) trivial (by simp) hring
  | copy k =>
    obtain ⟨ring, hring, rfl⟩ := Option.map_eq_some_iff.1 hstep
    exact h.consume (a := .copy k) trivial (by simp) hring
  | popStoreHead => exact h.popStoreHead hstep

theorem init_frameFeed (symbol : Symbol) (scratch : BookSnapshot)
    (hring : (spscRing ι V FEED_RING_CAPACITY).Init ring) :
    (frameFeed layout instrument).Init { feed := { symbol }, scratch, ring } :=
  ⟨symbol, scratch, ring, rfl, hring⟩

/-- **The run lemma.** -/
theorem frameInv_of_reachable (hs : (frameFeed layout instrument).Reachable s) :
    FrameInv layout s := by
  refine hs.invariant ?_ fun s a t _ _ hstep h => h.step hstep
  rintro _ ⟨symbol, scratch, ring, rfl, hinit⟩
  have hparts := hinit
  obtain ⟨-, hproducer, -, hpublished, hpopped⟩ := hparts
  refine ⟨.init hinit, hpublished, hpopped, rfl, rfl, .idle hproducer .start, ?_, ?_⟩
  · exact ⟨Nat.le_refl _, fun i σ hσ => (by cases hσ), fun i σ hσ => (by cases hσ),
      fun i σ τ hσ => by cases hσ⟩
  · exact ⟨fun _ => ⟨rfl, rfl⟩, fun i σ hσ => by cases hσ⟩

/-- **Dropped frames are always noticed and exactly counted.** In every interleaving the frames
seen are the frames pushed, each once and in order, but for those still in the ring; the view is
reset at a frame after the first iff a frame was dropped between it and the one before; the view's
count and the frames seen make up the sequence number of the frame; and when the frame of the last
event applied has been seen, the count is that of the core. -/
theorem frames_accounted (hs : (frameFeed layout instrument).Reachable s) :
    (∃ inFlight, s.pushed = s.sights.map Sight.frame ++ inFlight ∧
      inFlight.length ≤ FEED_RING_CAPACITY.toNat) ∧
    (∀ i (σ τ : Sight), s.sights[i]? = some σ → s.sights[i + 1]? = some τ →
      (τ.feedReset ↔ ∃ d ∈ s.dropped, σ.frame.eventSeq < d ∧ d < τ.frame.eventSeq)) ∧
    (∀ i (σ : Sight), s.sights[i]? = some σ → σ.frameGaps + (i + 1) = σ.frame.eventSeq) ∧
    ∀ σ, s.sights.getLast? = some σ → σ.frame.eventSeq = s.feed.count →
      s.view.frameGaps = s.framesDropped := by
  have h := frameInv_of_reachable hs
  obtain ⟨pending, hpending⟩ := exists_pending feedRingCapacity_powerOfTwo h.ring
  obtain ⟨n, hn, hfed⟩ := h.working.exists_fed
  refine ⟨⟨pending.map layout.symm, ?_, ?_⟩, h.seen.reset, h.seen.gaps, fun σ hσ hcount => ?_⟩
  · have hitems : s.pushed.map layout = (s.sights.map fun σ => layout σ.frame) ++ pending := by
      rw [← h.published, ← h.popped]
      exact hpending.published_eq
    have hframes := congrArg (List.map layout.symm) hitems
    simpa [Function.comp_def] using hframes
  · rw [List.length_map]
    exact hpending.length_le
  · -- the last frame seen is the last one pushed
    rw [List.getLast?_eq_getElem?] at hσ
    have hlt := (List.getElem?_eq_some_iff.1 hσ).1
    have hlast : s.sights.length - 1 + 1 = s.sights.length := by omega
    have hgaps := h.seen.gaps _ σ hσ
    obtain ⟨hi, hframe⟩ := List.getElem?_eq_some_iff.1 (h.seen.frame _ σ hσ)
    have hle := hfed.eventSeq_le _ (hframe ▸ List.getElem_mem hi)
    -- a frame pushed later would have a larger number than the last event
    have hlength : s.pushed.length = s.sights.length := by
      by_contra hne
      have hmore : s.sights.length < s.pushed.length :=
        lt_of_le_of_ne h.seen.length_le (Ne.symm hne)
      have hnext := List.pairwise_iff_getElem.1 hfed.pairwise _ _ hi hmore (by omega)
      have hnext_le := hfed.eventSeq_le _ (List.getElem_mem hmore)
      rw [hframe] at hnext
      omega
    have hsum := hfed.length_add_length
    rw [(h.views.last _ σ hσ hlast).2.2, h.framesDropped]
    omega

end Steps

/-- One add goes through, with the frame as a single word. -/
theorem frames_accounted_add :
    ∃ s : FrameFeed Unit MarketUpdate,
      s.sights.length = 1 ∧ s.view.frameGaps = s.framesDropped := by
  have hread : ((frameFeed (Equiv.funUnique Unit MarketUpdate).symm 0).exec
      { feed := { symbol := .replicate 8 32 }
        scratch := .zero
        ring := ⟨⟨0, 0, fun _ _ => .zero⟩, .idle, .idle, [], []⟩ }
      [.process { Event.zero with
          messageType := 'A', stock := .replicate 8 32, side := .buy, price := 100, shares := 5 },
        .claimLoadTail, .claimLoadHead, .write (), .publishLoadTail, .publishStoreTail,
        .popLoadHead, .popLoadTail, .copy (), .popStoreHead]).map
      (fun s => (s.sights.map fun σ => σ.frame.eventSeq, s.feed.count)) = some ([1], 1) := by
    decide +kernel
  obtain ⟨s, hrun, hvalues⟩ := Option.map_eq_some_iff.1 hread
  obtain ⟨hseqs, hcount⟩ := Prod.mk.inj hvalues
  have hs : (frameFeed (Equiv.funUnique Unit MarketUpdate).symm 0).Reachable s :=
    Machine.Reachable.exec (.init (init_frameFeed _ _ ⟨rfl, rfl, rfl, rfl, rfl⟩)) _ hrun
  obtain ⟨σ, hsights⟩ : ∃ σ, s.sights = [σ] := by
    have hlength := congrArg List.length hseqs
    rw [List.length_map] at hlength
    exact List.length_eq_one_iff.1 hlength
  rw [hsights] at hseqs
  refine ⟨s, by rw [hsights]; rfl, (frames_accounted hs).2.2.2 σ (by rw [hsights]; rfl) ?_⟩
  rw [hcount]
  exact (List.cons.inj hseqs).1

end Pipeline

end LowLatencyPipeline
