import LowLatencyPipeline.Pipeline.FileEvents

/-!
# The feed to the core

The exchange process with its parser, the ring to the core, and the core's `try_pop` at the other
end, access by access: `eventFeed`. The exchange asks for a slot until it gets one, fills it in
place and publishes it; a message of another type leaves it with the slot, for the next one. A
signal ends its loop between two messages, or in one while the ring is full.

`EventInv`: what the core has popped is what the first messages of the file say, in their order.
-/

namespace LowLatencyPipeline

namespace Pipeline

open Common LowLatencyPipeline.Core Exchange SpscRing

universe u v

/-- Where the exchange is. -/
inductive ParseJob (ι : Type u)
  /-- at the head of its loop -/
  | idle
  /-- in `next`, asking for a slot -/
  | claiming
  /-- a slot is claimed: what it will hold, and the words of it that are written -/
  | filling (ev : Event) (written : Finset ι)
  | stopped

/-- The exchange has left its loop. -/
def ParseJob.isStopped {ι : Type u} : ParseJob ι → Bool
  | .stopped => true
  | _ => false

/-- The exchange, the ring and the core's end of it. -/
structure EventFeed (ι : Type u) (V : Type v) where
  parser : ItchParser
  job : ParseJob ι := .idle
  /-- the exchange's `shutdown_flag` -/
  shutdown : Bool := false
  ring : RingState ι V
  /-- the event that the core has popped and works on -/
  taken : Option Event := none
  published : List Event := []
  processed : List Event := []

/-- What happens next. -/
inductive EventStep (ι : Type u)
  | signal
  | next
  | claimLoadTail
  | claimLoadHead (tsc : UInt64)
  | write (k : ι)
  | publishLoadTail
  | publishStoreTail
  | popLoadHead
  | popLoadTail
  | copy (k : ι)
  | popStoreHead
  /-- the core is done with the event -/
  | processed

variable {ι : Type u} {V : Type v} [DecidableEq ι] [Fintype ι]

/-- One step. -/
def eventStep (layout : Event ≃ (ι → V)) (s : EventFeed ι V) :
    EventStep ι → Option (EventFeed ι V)
  | .signal => some { s with shutdown := true }
  | .next =>
    match s.job with
    | .idle =>
      if s.parser.Done ∨ s.shutdown then some { s with job := .stopped }
      else some { s with job := .claiming }
    | _ => none
  | .claimLoadTail =>
    match s.job with
    | .claiming => (ringStep CORE_RING_CAPACITY s.ring .claimLoadTail).map fun ring =>
      { s with ring }
    | _ => none
  | .claimLoadHead tsc =>
    match s.job with
    | .claiming => (ringStep CORE_RING_CAPACITY s.ring .claimLoadHead).map fun ring =>
      match ring.producer with
      | .claimed writeIdx =>
        -- the event is filled in over what the slot held before
        match s.parser.next (some (layout.symm (ring.slots (slotOf CORE_RING_CAPACITY writeIdx))))
            tsc with
        | (parser, none) => { s with ring, parser, job := .idle }
        | (parser, some ev) => { s with ring, parser, job := .filling ev ∅ }
      | _ =>
        -- full: spin, unless the exchange is to stop
        if s.shutdown then { s with ring, parser := (s.parser.next none tsc).1, job := .stopped }
        else { s with ring }
    | _ => none
  | .write k =>
    match s.job with
    | .filling ev written => (ringStep CORE_RING_CAPACITY s.ring (.write k (layout ev k))).map
      fun ring => { s with ring, job := .filling ev (insert k written) }
    | _ => none
  | .publishLoadTail =>
    match s.job with
    | .filling _ written =>
      if ∀ k, k ∈ written then
        (ringStep CORE_RING_CAPACITY s.ring .publishLoadTail).map fun ring => { s with ring }
      else none
    | _ => none
  | .publishStoreTail =>
    match s.job with
    | .filling ev _ => (ringStep CORE_RING_CAPACITY s.ring .publishStoreTail).map fun ring =>
      { s with ring, job := .idle, published := s.published ++ [ev] }
    | _ => none
  | .popLoadHead =>
    -- the core pops its next event when it is done with the last one
    match s.taken with
    | none => (ringStep CORE_RING_CAPACITY s.ring .popLoadHead).map fun ring => { s with ring }
    | some _ => none
  | .popLoadTail =>
    (ringStep CORE_RING_CAPACITY s.ring .popLoadTail).map fun ring => { s with ring }
  | .copy k => (ringStep CORE_RING_CAPACITY s.ring (.copy k)).map fun ring => { s with ring }
  | .popStoreHead =>
    match ringStep CORE_RING_CAPACITY s.ring .popStoreHead with
    | none => none
    | some ring =>
      match ring.popped.getLast? with
      | none => none
      | some words => some { s with ring, taken := some (layout.symm words) }
  | .processed =>
    match s.taken with
    | none => none
    | some ev => some { s with taken := none, processed := s.processed ++ [ev] }

/-- The exchange has mapped a file, and the ring is empty. -/
def EventFeed.start (messages : List Message) (ring : RingState ι V) : EventFeed ι V :=
  { parser := { data := messages.flatMap Message.frame }, ring }

/-- All interleavings of the exchange and the core over a file. -/
def eventFeed (layout : Event ≃ (ι → V)) (messages : List Message) :
    Machine (EventFeed ι V) (EventStep ι) where
  Init s := ∃ ring, (spscRing ι V CORE_RING_CAPACITY).Init ring ∧ s = .start messages ring
  step := eventStep layout

/-! ### One message -/

theorem eventOf_eq_none {m : Message} (hm : m.IsEvent = false) : eventOf m = none := by
  cases m with
  | other => rfl
  | _ => cases hm

theorem eventsOf_concat (done : List Message) (m : Message) :
    eventsOf (done ++ [m]) = eventsOf done ++ (eventOf m).toList := by
  rw [eventsOf, List.filterMap_append, eventsOf]
  cases h : eventOf m with
  | none => simp [h]
  | some c => simp [h]

/-- **`next` at a frame**, with any slot: the cursor is behind the frame, and the event says what
the message says. -/
theorem next_event {p : ItchParser} {front rest : List UInt8} {m : Message}
    (hdata : p.data = front ++ (m.frame ++ rest)) (hcursor : p.cursor = front.length)
    (slot : Event) (tsc : UInt64) :
    (p.next (some slot) tsc = ({ p with cursor := (front ++ m.frame).length }, none) ∧
      eventOf m = none) ∨
      ∃ ev c, p.next (some slot) tsc = ({ p with cursor := (front ++ m.frame).length }, some ev) ∧
        eventOf m = some c ∧ Tells c ev := by
  rw [ItchParser.next_frame hdata hcursor]
  cases hm : m.IsEvent with
  | false =>
    rw [fill_other hm]
    exact .inl ⟨rfl, eventOf_eq_none hm⟩
  | true =>
    obtain ⟨ev, hev, hcarries⟩ := fill_encode slot rest hm
    obtain ⟨c, hc, htells⟩ := tells_of_carries (hcarries tsc)
    rw [hev]
    exact .inr ⟨_, c, rfl, hc, htells⟩

/-! ### The invariant -/

/-- The exchange has gone through the first messages of the file. -/
structure Parsed (messages : List Message) (parser : ItchParser) (done rest : List Message)
    (published : List Event) : Prop where
  data : parser.data = messages.flatMap Message.frame
  messages_eq : messages = done ++ rest
  cursor : parser.cursor = (done.flatMap Message.frame).length
  tells : List.Forall₂ Tells (eventsOf done) published

/-- What the exchange, its parser and the ring know of each other. -/
inductive Parsing (layout : Event ≃ (ι → V)) (messages : List Message) (s : EventFeed ι V) :
    ParseJob ι → Prop
  | idle {done rest : List Message} : Parsed messages s.parser done rest s.published →
      Parsing layout messages s .idle
  | claiming {done rest : List Message} {m : Message} :
      Parsed messages s.parser done (m :: rest) s.published → Parsing layout messages s .claiming
  | filling {done rest : List Message} {ev : Event} {written : Finset ι} :
      Parsed messages s.parser done rest (s.published ++ [ev]) →
      ((∃ w, s.ring.producer = .claimed w) ∨
        (∃ w, s.ring.producer = .publishing w) ∧ ∀ k, k ∈ written) →
      (∀ k ∈ written,
        s.ring.slots (slotOf CORE_RING_CAPACITY s.ring.tail) k = layout ev k) →
      Parsing layout messages s (.filling ev written)
  | stopped {done rest : List Message} : messages = done ++ rest →
      List.Forall₂ Tells (eventsOf done) s.published → (rest = [] ∨ s.shutdown = true) →
      Parsing layout messages s .stopped

/-- **The invariant of the feed.** -/
structure EventInv (layout : Event ≃ (ι → V)) (messages : List Message) (s : EventFeed ι V) :
    Prop where
  ring : (spscRing ι V CORE_RING_CAPACITY).Reachable s.ring
  published : s.ring.published = s.published.map layout
  popped : s.ring.popped = (s.processed ++ s.taken.toList).map layout
  working : ∀ ev, s.taken = some ev → s.ring.consumer = .idle
  parsing : Parsing layout messages s s.job

section Steps

variable {layout : Event ≃ (ι → V)} {messages : List Message} {s t : EventFeed ι V}
  {ring : RingState ι V}

/-- A file that is not done has a next message. -/
theorem Parsed.exists_next {parser : ItchParser} {done rest : List Message}
    {published : List Event} (h : Parsed messages parser done rest published)
    (hmore : ¬parser.Done) : ∃ m rest', rest = m :: rest' := by
  refine List.exists_cons_of_ne_nil fun hnil => hmore ?_
  rw [ItchParser.Done, h.data, h.cursor, h.messages_eq, hnil, List.append_nil]

/-- At the end of the file nothing is left. -/
theorem Parsed.rest_eq_nil {parser : ItchParser} {done rest : List Message}
    {published : List Event} (h : Parsed messages parser done rest published)
    (hdone : parser.Done) : rest = [] := by
  cases rest with
  | nil => rfl
  | cons m rest =>
    rw [ItchParser.Done, h.data, h.cursor, h.messages_eq, List.flatMap_append, List.length_append,
      List.flatMap_cons, List.length_append, Message.frame, List.length_append,
      Bytes.length_toBE] at hdone
    omega

omit [DecidableEq ι] [Fintype ι] in
/-- The consumer's steps do not disturb the exchange. -/
theorem Parsing.consume {job : ParseJob ι} (h : Parsing layout messages s job)
    (hslots : ring.slots = s.ring.slots) (htail : ring.tail = s.ring.tail)
    (hproducer : ring.producer = s.ring.producer) {taken : Option Event} {processed : List Event} :
    Parsing layout messages { s with ring, taken, processed } job := by
  cases h with
  | idle hparsed => exact .idle hparsed
  | claiming hparsed => exact .claiming hparsed
  | filling hparsed hfill hwritten =>
    refine .filling hparsed (hproducer ▸ hfill) ?_
    change ∀ k ∈ _, ring.slots (slotOf CORE_RING_CAPACITY ring.tail) k = _
    rw [hslots, htail]
    exact hwritten
  | stopped hmessages htells hend => exact .stopped hmessages htells hend

/-- A step of the consumer other than its last. -/
theorem EventInv.consume (h : EventInv layout messages s) {a : RingStep ι V} (ha : a.Consumes)
    (hne : a ≠ .popStoreHead) (hring : ringStep CORE_RING_CAPACITY s.ring a = some ring)
    (htaken : s.taken = none) : EventInv layout messages { s with ring } := by
  obtain ⟨hslots, htail, hproducer, hpublished, hpopped⟩ := consumer_frame ha hring
  refine ⟨.step h.ring trivial hring, hpublished.trans h.published, (hpopped hne).trans h.popped,
    fun ev hev => ?_, h.parsing.consume hslots htail hproducer⟩
  rw [htaken] at hev
  cases hev

/-- The core that is in `try_pop` works on no event. -/
theorem EventInv.taken_eq_none (h : EventInv layout messages s)
    (hbusy : s.ring.consumer ≠ .idle) : s.taken = none := by
  rw [Option.eq_none_iff_forall_ne_some]
  exact fun ev hev => hbusy (h.working ev hev)

/-- **An event is popped.** -/
theorem EventInv.popStoreHead (h : EventInv layout messages s)
    (hstep : eventStep layout s .popStoreHead = some t) : EventInv layout messages t := by
  simp only [eventStep] at hstep
  split at hstep
  · cases hstep
  next ring hring =>
  obtain ⟨pending, hpending⟩ := exists_pending coreRingCapacity_powerOfTwo h.ring
  obtain ⟨item, rest, -, hpopped, -⟩ := hpending.popStoreHead hring
  have hconsumes : (RingStep.popStoreHead : RingStep ι V).Consumes := trivial
  obtain ⟨hslots, htail, hproducer, hpublished, -⟩ := consumer_frame hconsumes hring
  simp only [hpopped, List.getLast?_concat, Option.some.injEq] at hstep
  have hnone : s.taken = none := by
    refine h.taken_eq_none fun hidle => ?_
    rw [ringStep, hidle] at hring
    cases hring
  subst hstep
  refine ⟨.step (a := .popStoreHead) h.ring trivial hring, hpublished.trans h.published, ?_,
    fun ev _ => ?_, h.parsing.consume hslots htail hproducer⟩
  · rw [hpopped, h.popped, hnone]
    simp
  · simp only [ringStep] at hring
    split at hring
    · split_ifs at hring
      exact (congrArg RingState.consumer (Option.some.inj hring)).symm
    · cases hring

/-- **`try_claim` returns**: a message is read, or the exchange spins or stops. -/
theorem EventInv.claimLoadHead (h : EventInv layout messages s) {tsc : UInt64}
    (hstep : eventStep layout s (.claimLoadHead tsc) = some t) : EventInv layout messages t := by
  have hparsing := h.parsing
  simp only [eventStep] at hstep
  split at hstep
  · next hjob =>
    obtain ⟨ring, hring, rfl⟩ := Option.map_eq_some_iff.1 hstep
    have hreach : (spscRing ι V CORE_RING_CAPACITY).Reachable ring :=
      .step (a := .claimLoadHead) h.ring trivial hring
    rw [hjob] at hparsing
    cases hparsing with
    | @claiming done rest m hparsed =>
      obtain ⟨hdata, hmessages, hcursor, htells⟩ := hparsed
      cases producerEffect_of_step (by exact id) hring with
      | full hw hfull =>
        dsimp only
        split_ifs with hshutdown
        · exact ⟨hreach, h.published, h.popped, h.working,
            .stopped hmessages htells (.inr hshutdown)⟩
        · refine ⟨hreach, h.published, h.popped, h.working, ?_⟩
          rw [hjob]
          exact .claiming ⟨hdata, hmessages, hcursor, htells⟩
      | @claimed writeIdx hw =>
        have hframe : s.parser.data = done.flatMap Message.frame ++
            (m.frame ++ rest.flatMap Message.frame) := by
          rw [hdata, hmessages, List.flatMap_append, List.flatMap_cons]
        have hmessages' : messages = (done ++ [m]) ++ rest := by
          rw [hmessages, List.append_assoc, List.singleton_append]
        have hcursor' : (done.flatMap Message.frame ++ m.frame).length =
            ((done ++ [m]).flatMap Message.frame).length := by
          rw [List.flatMap_append, List.flatMap_singleton]
        dsimp only
        rcases next_event hframe hcursor
          (layout.symm (s.ring.slots (slotOf CORE_RING_CAPACITY writeIdx))) tsc with
          ⟨hnext, hnone⟩ | ⟨ev, c, hnext, hc, hev⟩
        · rw [hnext]
          refine ⟨hreach, h.published, h.popped, h.working,
            .idle ⟨hdata, hmessages', hcursor', ?_⟩⟩
          rw [eventsOf_concat, hnone, Option.toList_none, List.append_nil]
          exact htells
        · rw [hnext]
          refine ⟨hreach, h.published, h.popped, h.working,
            .filling ⟨hdata, hmessages', hcursor', ?_⟩ (.inl ⟨_, rfl⟩)
              fun k hk => absurd hk (Finset.notMem_empty k)⟩
          rw [eventsOf_concat, hc, Option.toList_some]
          exact List.rel_append htells (.cons hev .nil)
  · cases hstep

/-- A word of the event is written. -/
theorem EventInv.write (h : EventInv layout messages s) {k : ι}
    (hstep : eventStep layout s (.write k) = some t) : EventInv layout messages t := by
  have hparsing := h.parsing
  simp only [eventStep] at hstep
  split at hstep
  · next ev written hjob =>
    obtain ⟨ring, hring, rfl⟩ := Option.map_eq_some_iff.1 hstep
    rw [hjob] at hparsing
    cases hparsing with
    | filling hparsed hfill hwritten =>
      have hreach : (spscRing ι V CORE_RING_CAPACITY).Reachable ring :=
        .step (a := .write k (layout ev k)) h.ring trivial hring
      cases producerEffect_of_step (by exact id) hring with
      | write hw =>
        obtain ⟨pending, hpending⟩ := exists_pending coreRingCapacity_powerOfTwo h.ring
        have hknows := hpending.producer
        rw [hw] at hknows
        obtain ⟨rfl, -⟩ := hknows
        refine ⟨hreach, h.published, h.popped, h.working,
          .filling hparsed (.inl ⟨_, hw⟩) fun j hj => ?_⟩
        dsimp only
        rw [Function.update_self]
        rcases eq_or_ne j k with rfl | hne
        · rw [Function.update_self]
        · rw [Function.update_of_ne hne]
          exact hwritten j (Finset.mem_of_mem_insert_of_ne hj hne)
  · cases hstep

/-- **An event is published.** -/
theorem EventInv.publishStoreTail (h : EventInv layout messages s)
    (hstep : eventStep layout s .publishStoreTail = some t) : EventInv layout messages t := by
  have hparsing := h.parsing
  simp only [eventStep] at hstep
  split at hstep
  · next ev written hjob =>
    obtain ⟨ring, hring, rfl⟩ := Option.map_eq_some_iff.1 hstep
    rw [hjob] at hparsing
    cases hparsing with
    | filling hparsed hfill hwritten =>
      have hreach : (spscRing ι V CORE_RING_CAPACITY).Reachable ring :=
        .step (a := .publishStoreTail) h.ring trivial hring
      cases producerEffect_of_step (by exact id) hring with
      | publishStoreTail hw =>
        obtain ⟨pending, hpending⟩ := exists_pending coreRingCapacity_powerOfTwo h.ring
        have hknows := hpending.producer
        rw [hw] at hknows
        obtain ⟨rfl, -⟩ := hknows
        have hall : ∀ k, k ∈ written := by
          rcases hfill with ⟨w, hclaimed⟩ | ⟨-, hall⟩
          · rw [hw] at hclaimed
            cases hclaimed
          · exact hall
        -- the slot is the event as a whole
        have hslot : s.ring.slots (slotOf CORE_RING_CAPACITY s.ring.tail) = layout ev :=
          funext fun k => hwritten k (hall k)
        refine ⟨hreach, ?_, h.popped, h.working, .idle hparsed⟩
        rw [hslot, h.published, List.map_append]
        rfl
  · cases hstep

/-- **The step lemma.** -/
theorem EventInv.step (h : EventInv layout messages s) {a : EventStep ι}
    (hstep : eventStep layout s a = some t) : EventInv layout messages t := by
  have hparsing := h.parsing
  cases a with
  | signal =>
    obtain rfl := Option.some.inj hstep
    refine ⟨h.ring, h.published, h.popped, h.working, ?_⟩
    cases hjob : s.job <;> rw [hjob] at hparsing <;> cases hparsing
    · next hparsed => exact .idle hparsed
    · next hparsed => exact .claiming hparsed
    · next hparsed hfill hwritten => exact .filling hparsed hfill hwritten
    · next hmessages htells hend => exact .stopped hmessages htells (.inr rfl)
  | next =>
    simp only [eventStep] at hstep
    split at hstep
    · next hjob =>
      rw [hjob] at hparsing
      cases hparsing with
      | idle hparsed =>
        split_ifs at hstep with hstop
        · obtain rfl := Option.some.inj hstep
          refine ⟨h.ring, h.published, h.popped, h.working,
            .stopped hparsed.messages_eq hparsed.tells ?_⟩
          exact hstop.imp hparsed.rest_eq_nil id
        · obtain rfl := Option.some.inj hstep
          obtain ⟨m, rest, rfl⟩ := hparsed.exists_next fun hdone => hstop (.inl hdone)
          exact ⟨h.ring, h.published, h.popped, h.working, .claiming hparsed⟩
    · cases hstep
  | claimLoadTail =>
    simp only [eventStep] at hstep
    split at hstep
    · next hjob =>
      obtain ⟨ring, hring, rfl⟩ := Option.map_eq_some_iff.1 hstep
      rw [hjob] at hparsing
      cases hparsing with
      | claiming hparsed =>
        cases producerEffect_of_step (by exact id) hring with
        | claimLoadTail =>
          refine ⟨.step (a := .claimLoadTail) h.ring trivial hring, h.published, h.popped,
            h.working, ?_⟩
          rw [hjob]
          exact .claiming hparsed
    · cases hstep
  | claimLoadHead tsc => exact h.claimLoadHead hstep
  | write k => exact h.write hstep
  | publishLoadTail =>
    simp only [eventStep] at hstep
    split at hstep
    · next ev written hjob =>
      split_ifs at hstep with hall
      obtain ⟨ring, hring, rfl⟩ := Option.map_eq_some_iff.1 hstep
      rw [hjob] at hparsing
      cases hparsing with
      | filling hparsed hfill hwritten =>
        cases producerEffect_of_step (by exact id) hring with
        | publishLoadTail hw =>
          refine ⟨.step (a := .publishLoadTail) h.ring trivial hring, h.published, h.popped,
            h.working, ?_⟩
          rw [hjob]
          exact .filling hparsed (.inr ⟨⟨_, rfl⟩, hall⟩) hwritten
    · cases hstep
  | publishStoreTail => exact h.publishStoreTail hstep
  | popLoadHead =>
    simp only [eventStep] at hstep
    split at hstep
    · next htaken =>
      obtain ⟨ring, hring, rfl⟩ := Option.map_eq_some_iff.1 hstep
      exact h.consume (a := .popLoadHead) trivial (by simp) hring htaken
    · cases hstep
  | popLoadTail =>
    obtain ⟨ring, hring, rfl⟩ := Option.map_eq_some_iff.1 hstep
    refine h.consume (a := .popLoadTail) trivial (by simp) hring (h.taken_eq_none fun hidle => ?_)
    rw [ringStep, hidle] at hring
    cases hring
  | copy k =>
    obtain ⟨ring, hring, rfl⟩ := Option.map_eq_some_iff.1 hstep
    refine h.consume (a := .copy k) trivial (by simp) hring (h.taken_eq_none fun hidle => ?_)
    rw [ringStep, hidle] at hring
    cases hring
  | popStoreHead => exact h.popStoreHead hstep
  | processed =>
    simp only [eventStep] at hstep
    split at hstep
    · cases hstep
    · next ev htaken =>
      obtain rfl := Option.some.inj hstep
      refine ⟨h.ring, h.published, ?_, fun ev hev => absurd hev (by simp),
        h.parsing.consume rfl rfl rfl⟩
      rw [h.popped, htaken]
      simp

/-- **The run lemma.** -/
theorem eventInv_of_reachable (hs : (eventFeed layout messages).Reachable s) :
    EventInv layout messages s := by
  refine hs.invariant ?_ fun s a t _ _ hstep h => h.step hstep
  rintro _ ⟨ring, hinit, rfl⟩
  have hparts := hinit
  obtain ⟨-, -, -, hpublished, hpopped⟩ := hparts
  have hparsed : Parsed messages { data := messages.flatMap Message.frame } [] messages [] :=
    ⟨rfl, rfl, rfl, .nil⟩
  exact ⟨.init hinit, hpublished, hpopped, fun ev hev => absurd hev (by simp [EventFeed.start]),
    .idle hparsed⟩

/-! ### Where the core is in the file -/

omit [DecidableEq ι] [Fintype ι] in
/-- What is published says what the first messages of the file say. -/
theorem Parsing.published_tells {job : ParseJob ι} (h : Parsing layout messages s job) :
    ∃ done rest more, messages = done ++ rest ∧
      List.Forall₂ Tells (eventsOf done) (s.published ++ more) := by
  cases h with
  | idle hparsed =>
    exact ⟨_, _, [], hparsed.messages_eq, (List.append_nil _).symm ▸ hparsed.tells⟩
  | claiming hparsed =>
    exact ⟨_, _, [], hparsed.messages_eq, (List.append_nil _).symm ▸ hparsed.tells⟩
  | filling hparsed => exact ⟨_, _, _, hparsed.messages_eq, hparsed.tells⟩
  | stopped hmessages htells =>
    exact ⟨_, _, [], hmessages, (List.append_nil _).symm ▸ htells⟩

/-- What the core has popped are the first events published. -/
theorem EventInv.exists_waiting (h : EventInv layout messages s) : ∃ waiting : List Event,
    s.published = s.processed ++ s.taken.toList ++ waiting ∧
      (s.ring.tail = s.ring.head → waiting = []) := by
  obtain ⟨pending, hpending⟩ := exists_pending coreRingCapacity_powerOfTwo h.ring
  have hitems := hpending.published_eq
  rw [h.published, h.popped] at hitems
  have hevents := congrArg (List.map layout.symm) hitems
  simp only [List.map_append, List.map_map, Equiv.symm_comp_self, List.map_id] at hevents
  refine ⟨pending.map layout.symm, hevents, fun hempty => ?_⟩
  rw [hpending.empty_iff.1 hempty, List.map_nil]

/-- **The core works on the event of the file that is next.** -/
theorem EventInv.taken_next (h : EventInv layout messages s) {ev : Event}
    (htaken : s.taken = some ev) :
    ∃ c, (eventsOf messages)[s.processed.length]? = some c ∧ Tells c ev := by
  obtain ⟨done, rest, more, hmessages, htells⟩ := h.parsing.published_tells
  obtain ⟨waiting, hwaiting, -⟩ := h.exists_waiting
  rw [hwaiting, htaken, Option.toList_some, List.append_assoc, List.append_assoc] at htells
  obtain ⟨c, later, hc, -, hdrop⟩ := List.forall₂_cons_right_iff.1
    (List.forall₂_drop_append _ _ _ htells)
  refine ⟨c, ?_, hc⟩
  have hget : (eventsOf done)[s.processed.length]? = some c := by
    rw [← List.head?_drop, hdrop, List.head?_cons]
  have hlt := (List.getElem?_eq_some_iff.1 hget).1
  rw [hmessages, eventsOf, List.filterMap_append]
  exact (List.getElem?_append_left hlt).trans hget

/-- **Nothing is left** when the exchange has come to the end of the file and the ring is empty. -/
theorem EventInv.processed_all (h : EventInv layout messages s) (hstopped : s.job.isStopped)
    (hsignal : s.shutdown = false) (hempty : s.ring.tail = s.ring.head) (htaken : s.taken = none) :
    s.processed.length = (eventsOf messages).length := by
  have hparsing := h.parsing
  cases hjob : s.job with
  | stopped =>
    rw [hjob] at hparsing
    cases hparsing with
    | @stopped done rest hmessages htells hend =>
      have hrest : rest = [] := hend.resolve_right (by simp [hsignal])
      obtain ⟨waiting, hwaiting, hnone⟩ := h.exists_waiting
      rw [hnone hempty, htaken, Option.toList_none, List.append_nil, List.append_nil] at hwaiting
      rw [hmessages, hrest, List.append_nil, htells.length_eq, hwaiting]
  | idle | claiming | filling =>
    rw [hjob] at hstopped
    cases hstopped

end Steps

end Pipeline

end LowLatencyPipeline
