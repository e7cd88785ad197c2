import LowLatencyPipeline.Pipeline.EventFeed

/-!
# From the file to exec

The feed to the core and the feed to exec, with the core between them: it pops an event, runs
`process` on it, and pops the next one when the frame is pushed or dropped. `fullFeed` is the
machine of all interleavings of the exchange, the core and exec over one file; its halves are runs
of `eventFeed` and of `frameFeed`.

`end_to_end`: every frame that exec sees shows the reference book at a place in the file.
-/

namespace LowLatencyPipeline

namespace Pipeline

open Common LowLatencyPipeline.Core Exchange Exec SpscRing

universe u v w x

/-- The exchange, the core and exec, with their two rings. -/
structure FullFeed (ι : Type u) (V : Type v) (κ : Type w) (W : Type x) where
  events : EventFeed ι V
  frames : FrameFeed κ W

/-- What happens next. -/
inductive FullStep (ι : Type u) (κ : Type w)
  | event (a : EventStep ι)
  /-- `process` is called with the event popped -/
  | process
  | frame (a : FrameStep κ)

variable {ι : Type u} {V : Type v} {κ : Type w} {W : Type x}
  [DecidableEq ι] [Fintype ι] [DecidableEq κ] [Fintype κ]

/-- One step. -/
def fullStep (E : Event ≃ (ι → V)) (F : MarketUpdate ≃ (κ → W)) (instrument : UInt16)
    (s : FullFeed ι V κ W) : FullStep ι κ → Option (FullFeed ι V κ W)
  | .event .processed => none
  | .event .popLoadHead =>
    -- the frame of the last event is done with
    if s.frames.job.isBusy then none
    else (eventStep E s.events .popLoadHead).map fun events => { s with events }
  | .event a => (eventStep E s.events a).map fun events => { s with events }
  | .process =>
    match s.events.taken with
    | none => none
    | some ev =>
      match eventStep E s.events .processed, frameStep F instrument s.frames (.process ev) with
      | some events, some frames => some { events, frames }
      | _, _ => none
  | .frame (.process _) => none
  | .frame a => (frameStep F instrument s.frames a).map fun frames => { s with frames }

/-- All interleavings over a file, for the symbol that the core builds the book of. -/
def fullFeed (E : Event ≃ (ι → V)) (F : MarketUpdate ≃ (κ → W)) (messages : List Message)
    (symbol : Symbol) (instrument : UInt16) : Machine (FullFeed ι V κ W) (FullStep ι κ) where
  Init s := (eventFeed E messages).Init s.events ∧
    ∃ scratch ring, s.frames = { feed := { symbol }, scratch, ring } ∧
      (spscRing κ W FEED_RING_CAPACITY).Init ring
  step := fullStep E F instrument

/-- The events of the file that the core has gone through. -/
def FullFeed.front (messages : List Message) (s : FullFeed ι V κ W) : List Event :=
  (eventsOf messages).take s.events.processed.length

/-! ### The steps -/

section Steps

variable {E : Event ≃ (ι → V)} {F : MarketUpdate ≃ (κ → W)} {messages : List Message}
  {symbol : Symbol} {instrument : UInt16} {locate : UInt16} {s t : FullFeed ι V κ W}

/-- **What a step of the whole does**: the exchange or `try_pop` moves, the core calls `process`, or
the rest of `process` or exec moves. -/
inductive FullEffect (E : Event ≃ (ι → V)) (F : MarketUpdate ≃ (κ → W)) (instrument : UInt16)
    (s : FullFeed ι V κ W) : FullFeed ι V κ W → Prop
  | event {a : EventStep ι} {events : EventFeed ι V} : a ≠ .processed →
      eventStep E s.events a = some events → FullEffect E F instrument s { s with events }
  | process {ev : Event} {events : EventFeed ι V} {frames : FrameFeed κ W} :
      s.events.taken = some ev → eventStep E s.events .processed = some events →
      frameStep F instrument s.frames (.process ev) = some frames →
      FullEffect E F instrument s { events, frames }
  | frame {a : FrameStep κ} {frames : FrameFeed κ W} : (∀ ev, a ≠ .process ev) →
      frameStep F instrument s.frames a = some frames →
      FullEffect E F instrument s { s with frames }

theorem FullEffect.of_step {a : FullStep ι κ} (h : fullStep E F instrument s a = some t) :
    FullEffect E F instrument s t := by
  cases a with
  | event a =>
    by_cases hprocessed : a = .processed
    · subst hprocessed
      cases h
    · have hmap : (eventStep E s.events a).map (fun events => { s with events }) = some t := by
        cases a with
        | processed => exact absurd rfl hprocessed
        | popLoadHead =>
          simp only [fullStep] at h
          split_ifs at h
          exact h
        | _ => exact h
      obtain ⟨events, hevents, rfl⟩ := Option.map_eq_some_iff.1 hmap
      exact .event hprocessed hevents
  | process =>
    simp only [fullStep] at h
    split at h
    · cases h
    · next ev htaken =>
      split at h
      · next events frames hevents hframes =>
        obtain rfl := Option.some.inj h
        exact .process htaken hevents hframes
      · cases h
  | frame a =>
    by_cases hprocess : ∃ ev, a = .process ev
    · obtain ⟨ev, rfl⟩ := hprocess
      cases h
    · have hne : ∀ ev, a ≠ .process ev := fun ev heq => hprocess ⟨ev, heq⟩
      have hmap : (frameStep F instrument s.frames a).map (fun frames => { s with frames }) =
          some t := by
        cases a with
        | process ev => exact absurd rfl (hne ev)
        | _ => exact h
      obtain ⟨frames, hframes, rfl⟩ := Option.map_eq_some_iff.1 hmap
      exact .frame hne hframes

/-- Only the core's own step goes on in the file. -/
theorem processed_eventStep {events events' : EventFeed ι V} {a : EventStep ι}
    (ha : a ≠ .processed) (h : eventStep E events a = some events') :
    events'.processed = events.processed := by
  cases a with
  | processed => exact absurd rfl ha
  | signal =>
    obtain rfl := Option.some.inj h
    rfl
  | next =>
    simp only [eventStep] at h
    split at h
    · split_ifs at h <;> exact (congrArg EventFeed.processed (Option.some.inj h)).symm
    · cases h
  | claimLoadHead tsc =>
    simp only [eventStep] at h
    split at h
    · obtain ⟨ring, -, rfl⟩ := Option.map_eq_some_iff.1 h
      split
      · split <;> rfl
      · split_ifs <;> rfl
    · cases h
  | claimLoadTail | write | publishStoreTail | popLoadHead =>
    simp only [eventStep] at h
    split at h
    · obtain ⟨ring, -, rfl⟩ := Option.map_eq_some_iff.1 h
      rfl
    · cases h
  | publishLoadTail =>
    simp only [eventStep] at h
    split at h
    · split_ifs at h
      obtain ⟨ring, -, rfl⟩ := Option.map_eq_some_iff.1 h
      rfl
    · cases h
  | popLoadTail | copy =>
    obtain ⟨ring, -, rfl⟩ := Option.map_eq_some_iff.1 h
    rfl
  | popStoreHead =>
    simp only [eventStep] at h
    split at h
    · cases h
    · split at h
      · cases h
      · exact (congrArg EventFeed.processed (Option.some.inj h)).symm

/-- **The invariant of the whole.** -/
structure FullInv (E : Event ≃ (ι → V)) (F : MarketUpdate ≃ (κ → W)) (messages : List Message)
    (symbol : Symbol) (instrument : UInt16) (locate : UInt16) (s : FullFeed ι V κ W) : Prop where
  events : (eventFeed E messages).Reachable s.events
  frames : (frameFeed F instrument).Reachable s.frames
  follows : Follows symbol locate (s.front messages) s.frames.feed
  drawn : s.frames.job.isBusy = true →
    ∀ u, Draws u s.frames.scratch → Shows symbol locate (s.front messages) u
  building : ∀ frame written, s.frames.job = .building frame written →
    Shows symbol locate (s.front messages) frame
  pushed : ∀ u ∈ s.frames.pushed, ∃ front, front <+: eventsOf messages ∧
    Shows symbol locate front u

omit [DecidableEq ι] [Fintype ι] [DecidableEq κ] [Fintype κ] in
theorem front_isPrefix (s : FullFeed ι V κ W) : s.front messages <+: eventsOf messages :=
  List.take_prefix _ _

/-- The next event of the file is well formed in view of those before it. -/
theorem FullInv.next (h : FullInv E F messages symbol instrument locate s)
    (hfile : WellFormedEvents symbol locate (eventsOf messages)) {ev : Event}
    (htaken : s.events.taken = some ev) : ∃ c, Tells c ev ∧
      (eventsOf messages).take (s.events.processed.length + 1) = s.front messages ++ [c] ∧
      (referenceAt symbol (s.front messages)).WellFormed c locate ∧ InPennies locate c := by
  obtain ⟨c, hc, htells⟩ := (eventInv_of_reachable h.events).taken_next htaken
  have htake : (eventsOf messages).take (s.events.processed.length + 1) =
      s.front messages ++ [c] := by
    rw [List.take_add_one, hc, Option.toList_some, FullFeed.front]
  refine ⟨c, htells, htake,
    hfile _ c ((eventsOf messages).drop (s.events.processed.length + 1)) ?_⟩
  rw [List.append_cons, ← htake, List.take_append_drop]

/-- **The core goes on to the next event.** -/
theorem FullInv.process (h : FullInv E F messages symbol instrument locate s)
    (hfile : WellFormedEvents symbol locate (eventsOf messages)) {ev : Event}
    {events : EventFeed ι V} {frames : FrameFeed κ W} (htaken : s.events.taken = some ev)
    (hevents : eventStep E s.events .processed = some events)
    (hframes : frameStep F instrument s.frames (.process ev) = some frames) :
    FullInv E F messages symbol instrument locate ⟨events, frames⟩ := by
  obtain ⟨c, htells, htake, hc⟩ := h.next hfile htaken
  have hprocessed : events.processed = s.events.processed ++ [ev] := by
    simp only [eventStep, htaken, Option.some.injEq] at hevents
    rw [← hevents]
  have hfront : FullFeed.front messages (⟨events, frames⟩ : FullFeed ι V κ W) =
      s.front messages ++ [c] := by
    rw [← htake, FullFeed.front, hprocessed, List.length_append, List.length_singleton]
  have hreach : (frameFeed F instrument).Reachable frames :=
    .step (a := .process ev) h.frames trivial hframes
  obtain ⟨hpushed, hidle, -⟩ := process_cases hframes
  simp only [frameStep, hidle] at hframes
  split at hframes
  · cases hframes
  · next feed happly =>
    obtain ⟨hfollows, -⟩ := h.follows.step htells hc happly
    obtain rfl := Option.some.inj hframes
    exact ⟨.step (a := .processed) h.events trivial hevents, hreach, hfront ▸ hfollows,
      fun hbusy => (by cases hbusy), fun frame written hjob => (by cases hjob), h.pushed⟩
  · next feed book trade happly =>
    obtain ⟨hfollows, hbook⟩ := h.follows.step htells hc happly
    obtain rfl := Option.some.inj hframes
    refine ⟨.step (a := .processed) h.events trivial hevents, hreach, hfront ▸ hfollows,
      fun _ u hu => ?_, fun frame written hjob => (by cases hjob), h.pushed⟩
    rw [hfront]
    exact hfollows.shows (hbook _ _ rfl) _ hu

/-- **The step lemma.** -/
theorem FullInv.step (h : FullInv E F messages symbol instrument locate s)
    (hfile : WellFormedEvents symbol locate (eventsOf messages)) {a : FullStep ι κ}
    (hstep : fullStep E F instrument s a = some t) :
    FullInv E F messages symbol instrument locate t := by
  cases FullEffect.of_step hstep with
  | event hne hevents =>
    have hfront : ∀ events : EventFeed ι V, events.processed = s.events.processed →
        ({ s with events } : FullFeed ι V κ W).front messages = s.front messages :=
      fun events heq => by rw [FullFeed.front, heq, FullFeed.front]
    have hsame := hfront _ (processed_eventStep hne hevents)
    exact ⟨h.events.step trivial hevents, h.frames, hsame ▸ h.follows, hsame ▸ h.drawn,
      hsame ▸ h.building, h.pushed⟩
  | process htaken hevents hframes => exact h.process hfile htaken hevents hframes
  | @frame a frames hne hframes =>
    obtain ⟨hfeed, hscratch, hbusy, hpushed, hbuilding⟩ := frameStep_cases hne hframes
    refine ⟨h.events, h.frames.step trivial hframes, ?_, fun hjob u hu => ?_,
      fun frame written hjob => ?_, fun u hu => ?_⟩
    · change Follows symbol locate (s.front messages) frames.feed
      rw [hfeed]
      exact h.follows
    · exact h.drawn (hbusy hjob) u (hscratch ▸ hu)
    · rcases hbuilding frame written hjob with ⟨before, hbefore⟩ | hdraws
      · exact h.building frame before hbefore
      · have hframes_busy : frames.job.isBusy = true := by
          rw [show frames.job = .building frame written from hjob]
          rfl
        exact h.drawn (hbusy hframes_busy) frame hdraws
    · rcases hpushed with hsame | ⟨frame, written, hjob, hconcat⟩
      · exact h.pushed u (hsame ▸ hu)
      · have hu : u ∈ s.frames.pushed ++ [frame] := hconcat ▸ hu
        rcases List.mem_append.1 hu with hu | hu
        · exact h.pushed u hu
        · rw [List.mem_singleton.1 hu]
          exact ⟨_, front_isPrefix s, h.building frame written hjob⟩

/-- **The run lemma.** -/
theorem fullInv_of_reachable (hfile : WellFormedEvents symbol locate (eventsOf messages))
    (hs : (fullFeed E F messages symbol instrument).Reachable s) :
    FullInv E F messages symbol instrument locate s := by
  refine hs.invariant ?_ fun s a t _ _ hstep h => h.step hfile hstep
  rintro ⟨events, frames⟩ ⟨hevents, scratch, ring, hframes, hring⟩
  have hstart := hevents
  obtain ⟨ring', -, rfl⟩ := hstart
  obtain rfl : frames = { feed := { symbol }, scratch, ring } := hframes
  exact ⟨.init hevents, .init (init_frameFeed symbol scratch hring), .init symbol locate,
    fun hbusy => (by cases hbusy), fun frame written hjob => (by cases hjob),
    fun u hu => absurd hu List.not_mem_nil⟩

omit [DecidableEq ι] [Fintype ι] in
/-- Exec has seen the first frames pushed. -/
theorem exists_inFlight {frames : FrameFeed κ W} (h : FrameInv F frames) :
    ∃ inFlight, frames.pushed = frames.sights.map Sight.frame ++ inFlight ∧
      (frames.ring.tail = frames.ring.head → inFlight = []) := by
  obtain ⟨pending, hpending⟩ := exists_pending feedRingCapacity_powerOfTwo h.ring
  have hitems := hpending.published_eq
  rw [h.published, h.popped] at hitems
  have hframes := congrArg (List.map F.symm) hitems
  simp only [List.map_append, List.map_map, Equiv.symm_comp_self, List.map_id] at hframes
  refine ⟨pending.map F.symm, ?_, fun hempty => ?_⟩
  · simpa [Function.comp_def] using hframes
  · rw [hpending.empty_iff.1 hempty, List.map_nil]

/-- The file is through: the exchange has come to its end, the rings are empty, and the core has
nothing to do. -/
structure FullFeed.Settled (s : FullFeed ι V κ W) : Prop where
  stopped : s.events.job.isStopped = true
  signal : s.events.shutdown = false
  events : s.events.ring.tail = s.events.ring.head
  taken : s.events.taken = none
  job : s.frames.job.isBusy = false
  frames : s.frames.ring.tail = s.frames.ring.head

/-- **Of a file that is through no book event is lost**, but for the frames dropped. -/
theorem FullInv.settled (h : FullInv E F messages symbol instrument locate s) (hend : s.Settled) :
    s.frames.sights.length + s.frames.framesDropped =
      (bookEvents locate (eventsOf messages)).length := by
  have hframes := frameInv_of_reachable h.frames
  have hall := (eventInv_of_reachable h.events).processed_all hend.stopped hend.signal hend.events
    hend.taken
  have hfront : s.front messages = eventsOf messages := by
    rw [FullFeed.front, hall, List.take_length]
  obtain ⟨inFlight, hpushed, hnone⟩ := exists_inFlight hframes
  have hlength : s.frames.sights.length = s.frames.pushed.length := by
    rw [hpushed, hnone hend.frames, List.append_nil, List.length_map]
  have hworking := hframes.working
  cases hjob : s.frames.job with
  | idle =>
    rw [hjob] at hworking
    cases hworking with
    | idle _ hfed =>
      rw [hlength, hframes.framesDropped, hfed.length_add_length, h.follows.count, hfront]
  | claiming ev trade =>
    have hbusy := hend.job
    rw [hjob] at hbusy
    cases hbusy
  | building frame written =>
    have hbusy := hend.job
    rw [hjob] at hbusy
    cases hbusy

end Steps

/-- The steps that bring a message with an event from the file to exec. -/
def hopSteps : List (FullStep Unit Unit) :=
  [.event .next, .event .claimLoadTail, .event (.claimLoadHead 0), .event (.write ()),
    .event .publishLoadTail, .event .publishStoreTail, .event .popLoadHead, .event .popLoadTail,
    .event (.copy ()), .event .popStoreHead, .process, .frame .claimLoadTail,
    .frame .claimLoadHead, .frame (.write ()), .frame .publishLoadTail, .frame .publishStoreTail,
    .frame .popLoadHead, .frame .popLoadTail, .frame (.copy ()), .frame .popStoreHead]

/-- A file of an add, a message that is no event, and a cancel. -/
def sampleFile : List Message :=
  [.addOrder ⟨7, 0, 1⟩ 1 .buy 5 sampleSymbol 200, .other 83 [] (by decide) (by decide),
    .cancelOrder ⟨7, 0, 2⟩ 1 2]

end Pipeline

end LowLatencyPipeline
