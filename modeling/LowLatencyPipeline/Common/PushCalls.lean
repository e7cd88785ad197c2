import LowLatencyPipeline.Common.SpscRing

/-!
# A producer that pushes

`try_push` of `common/spsc_ring.hpp` by a producer that calls nothing else, with the consumer's
`try_pop` in between at any point. `pushRing` runs on top of `spscRing`: it adds the call under way
and the items of the calls that have returned true.

`pushRing_lossless`: what is popped is what was accepted, in order, but for the items in the ring.
-/

namespace LowLatencyPipeline

namespace Common

universe u v

open SpscRing

/-- Where a call of `try_push(item)` is. -/
inductive PushCall (ι : Type u) (V : Type v)
  | idle
  /-- in `try_claim` -/
  | claiming (item : ι → V)
  /-- a slot is claimed, and these words of it hold the item -/
  | filling (item : ι → V) (written : Finset ι)

/-- A ring whose producer pushes, and the items for which `try_push` has returned true. -/
structure PushState (ι : Type u) (V : Type v) where
  ring : RingState ι V
  call : PushCall ι V := .idle
  accepted : List (ι → V) := []

/-- The accesses, and the beginning of a call. -/
inductive PushStep (ι : Type u) (V : Type v)
  | tryPush (item : ι → V)
  | claimLoadTail
  | claimLoadHead
  | write (k : ι)
  | publishLoadTail
  | publishStoreTail
  | popLoadHead
  | popLoadTail
  | copy (k : ι)
  | popStoreHead

variable {ι : Type u} {V : Type v} [DecidableEq ι] [Fintype ι]

/-- One access of the call under way or of `try_pop`. -/
def pushStep (capacity : UInt32) (s : PushState ι V) : PushStep ι V → Option (PushState ι V)
  | .tryPush item =>
    match s.call with
    | .idle => some { s with call := .claiming item }
    | _ => none
  | .claimLoadTail =>
    match s.call with
    | .claiming _ => (ringStep capacity s.ring .claimLoadTail).map fun ring => { s with ring }
    | _ => none
  | .claimLoadHead =>
    match s.call with
    | .claiming item => (ringStep capacity s.ring .claimLoadHead).map fun ring =>
      match ring.producer with
      | .claimed _ => { s with ring, call := .filling item ∅ }
      -- full: try_push returns false
      | _ => { s with ring, call := .idle }
    | _ => none
  | .write k =>
    match s.call with
    | .filling item written => (ringStep capacity s.ring (.write k (item k))).map fun ring =>
      { s with ring, call := .filling item (insert k written) }
    | _ => none
  | .publishLoadTail =>
    match s.call with
    | .filling _ written =>
      if ∀ k, k ∈ written then
        (ringStep capacity s.ring .publishLoadTail).map fun ring => { s with ring }
      else none
    | _ => none
  | .publishStoreTail =>
    match s.call with
    | .filling item _ => (ringStep capacity s.ring .publishStoreTail).map fun ring =>
      { s with ring, call := .idle, accepted := s.accepted ++ [item] }
    | _ => none
  | .popLoadHead => (ringStep capacity s.ring .popLoadHead).map fun ring => { s with ring }
  | .popLoadTail => (ringStep capacity s.ring .popLoadTail).map fun ring => { s with ring }
  | .copy k => (ringStep capacity s.ring (.copy k)).map fun ring => { s with ring }
  | .popStoreHead => (ringStep capacity s.ring .popStoreHead).map fun ring => { s with ring }

/-- A ring whose producer pushes, from any equal indices. -/
def pushRing (ι : Type u) (V : Type v) [DecidableEq ι] [Fintype ι] (capacity : UInt32) :
    Machine (PushState ι V) (PushStep ι V) where
  Init s := ∃ ring, (spscRing ι V capacity).Init ring ∧ s = { ring }
  step := pushStep capacity

/-! ### The call and the ring -/

/-- What the call and the ring know of each other. -/
inductive Pushing (capacity : UInt32) (ring : RingState ι V) : PushCall ι V → Prop
  | idle : ring.producer = .idle → Pushing capacity ring .idle
  | claiming {item : ι → V} : (ring.producer = .idle ∨ ∃ w, ring.producer = .claiming w) →
      Pushing capacity ring (.claiming item)
  | filling {item : ι → V} {written : Finset ι} :
      ((∃ w, ring.producer = .claimed w) ∨
        (∃ w, ring.producer = .publishing w) ∧ ∀ k, k ∈ written) →
      (∀ k ∈ written, ring.slots (slotOf capacity ring.tail) k = item k) →
      Pushing capacity ring (.filling item written)

/-- **The invariant of a ring whose producer pushes.** -/
structure PushInv (capacity : UInt32) (s : PushState ι V) : Prop where
  ring : (spscRing ι V capacity).Reachable s.ring
  published : s.ring.published = s.accepted
  pushing : Pushing capacity s.ring s.call

section Steps

variable {capacity : UInt32} {s t : PushState ι V} {ring : RingState ι V}

/-- A step of the consumer. -/
theorem PushInv.consume (h : PushInv capacity s) {a : RingStep ι V} (ha : a.Consumes)
    (hring : ringStep capacity s.ring a = some ring) : PushInv capacity { s with ring } := by
  obtain ⟨hslots, htail, hproducer, hpublished, -⟩ := consumer_frame ha hring
  refine ⟨.step h.ring trivial hring, hpublished.trans h.published, ?_⟩
  have hpushing := h.pushing
  change Pushing capacity ring s.call
  cases hcall : s.call with
  | idle =>
    rw [hcall] at hpushing
    cases hpushing with
    | idle hidle => exact .idle (hproducer.trans hidle)
  | claiming item =>
    rw [hcall] at hpushing
    cases hpushing with
    | claiming hclaim => exact .claiming (hproducer ▸ hclaim)
  | filling item written =>
    rw [hcall] at hpushing
    cases hpushing with
    | filling hfill hwritten =>
      refine .filling (hproducer ▸ hfill) ?_
      rw [hslots, htail]
      exact hwritten

/-- **The step lemma.** -/
theorem PushInv.step (hcap : PowerOfTwo capacity) (h : PushInv capacity s) {a : PushStep ι V}
    (hstep : pushStep capacity s a = some t) : PushInv capacity t := by
  have hpushing := h.pushing
  cases a with
  | tryPush item =>
    simp only [pushStep] at hstep
    split at hstep
    · next hcall =>
      obtain rfl := Option.some.inj hstep
      rw [hcall] at hpushing
      cases hpushing with
      | idle hidle => exact ⟨h.ring, h.published, .claiming (.inl hidle)⟩
    · cases hstep
  | claimLoadTail =>
    simp only [pushStep] at hstep
    split at hstep
    · next item hcall =>
      obtain ⟨ring, hring, rfl⟩ := Option.map_eq_some_iff.1 hstep
      cases producerEffect_of_step (by exact id) hring with
      | claimLoadTail =>
        refine ⟨.step (a := .claimLoadTail) h.ring trivial hring, h.published, ?_⟩
        rw [hcall]
        exact .claiming (.inr ⟨_, rfl⟩)
    · cases hstep
  | claimLoadHead =>
    simp only [pushStep] at hstep
    split at hstep
    · next item hcall =>
      obtain ⟨ring, hring, rfl⟩ := Option.map_eq_some_iff.1 hstep
      have hreach : (spscRing ι V capacity).Reachable ring :=
        .step (a := .claimLoadHead) h.ring trivial hring
      cases producerEffect_of_step (by exact id) hring with
      | full hw hfull => exact ⟨hreach, h.published, .idle rfl⟩
      | claimed hw =>
        exact ⟨hreach, h.published,
          .filling (.inl ⟨_, rfl⟩) fun k hk => absurd hk (Finset.notMem_empty k)⟩
    · cases hstep
  | write k =>
    simp only [pushStep] at hstep
    split at hstep
    · next item written hcall =>
      obtain ⟨ring, hring, rfl⟩ := Option.map_eq_some_iff.1 hstep
      rw [hcall] at hpushing
      cases hpushing with
      | filling hfill hwritten =>
        have hreach : (spscRing ι V capacity).Reachable ring :=
          .step (a := .write k (item k)) h.ring trivial hring
        cases producerEffect_of_step (by exact id) hring with
        | write hw =>
          obtain ⟨pending, hpending⟩ := exists_pending hcap h.ring
          have hknows := hpending.producer
          rw [hw] at hknows
          obtain ⟨rfl, -⟩ := hknows
          refine ⟨hreach, h.published, .filling (.inl ⟨_, hw⟩) fun j hj => ?_⟩
          dsimp only
          rw [Function.update_self]
          rcases eq_or_ne j k with rfl | hne
          · rw [Function.update_self]
          · rw [Function.update_of_ne hne]
            exact hwritten j (Finset.mem_of_mem_insert_of_ne hj hne)
    · cases hstep
  | publishLoadTail =>
    simp only [pushStep] at hstep
    split at hstep
    · next item written hcall =>
      split_ifs at hstep with hall
      obtain ⟨ring, hring, rfl⟩ := Option.map_eq_some_iff.1 hstep
      rw [hcall] at hpushing
      cases hpushing with
      | filling hfill hwritten =>
        cases producerEffect_of_step (by exact id) hring with
        | publishLoadTail hw =>
          refine ⟨.step (a := .publishLoadTail) h.ring trivial hring, h.published, ?_⟩
          rw [hcall]
          exact .filling (.inr ⟨⟨_, rfl⟩, hall⟩) hwritten
    · cases hstep
  | publishStoreTail =>
    simp only [pushStep] at hstep
    split at hstep
    · next item written hcall =>
      obtain ⟨ring, hring, rfl⟩ := Option.map_eq_some_iff.1 hstep
      rw [hcall] at hpushing
      cases hpushing with
      | filling hfill hwritten =>
        have hreach : (spscRing ι V capacity).Reachable ring :=
          .step (a := .publishStoreTail) h.ring trivial hring
        cases producerEffect_of_step (by exact id) hring with
        | publishStoreTail hw =>
          obtain ⟨pending, hpending⟩ := exists_pending hcap h.ring
          have hknows := hpending.producer
          rw [hw] at hknows
          obtain ⟨rfl, -⟩ := hknows
          have hall : ∀ k, k ∈ written := by
            rcases hfill with ⟨w, hclaimed⟩ | ⟨-, hall⟩
            · rw [hw] at hclaimed
              cases hclaimed
            · exact hall
          -- the slot is the item as a whole
          have hslot : s.ring.slots (slotOf capacity s.ring.tail) = item :=
            funext fun k => hwritten k (hall k)
          refine ⟨hreach, ?_, .idle rfl⟩
          rw [h.published, hslot]
    · cases hstep
  | popLoadHead =>
    obtain ⟨ring, hring, rfl⟩ := Option.map_eq_some_iff.1 hstep
    exact h.consume (a := .popLoadHead) trivial hring
  | popLoadTail =>
    obtain ⟨ring, hring, rfl⟩ := Option.map_eq_some_iff.1 hstep
    exact h.consume (a := .popLoadTail) trivial hring
  | copy k =>
    obtain ⟨ring, hring, rfl⟩ := Option.map_eq_some_iff.1 hstep
    exact h.consume (a := .copy k) trivial hring
  | popStoreHead =>
    obtain ⟨ring, hring, rfl⟩ := Option.map_eq_some_iff.1 hstep
    exact h.consume (a := .popStoreHead) trivial hring

/-- **The run lemma.** -/
theorem pushInv_of_reachable (hcap : PowerOfTwo capacity)
    (hs : (pushRing ι V capacity).Reachable s) : PushInv capacity s := by
  refine hs.invariant ?_ fun s a t _ _ hstep h => h.step hcap hstep
  rintro _ ⟨ring, hinit, rfl⟩
  have hparts := hinit
  obtain ⟨-, hproducer, -, hpublished, -⟩ := hparts
  exact ⟨.init hinit, hpublished, .idle hproducer⟩

/-- What was accepted is what was popped and what is in the ring. -/
theorem pushRing_lossless (hcap : PowerOfTwo capacity) (hs : (pushRing ι V capacity).Reachable s) :
    ∃ inFlight, s.accepted = s.ring.popped ++ inFlight ∧ inFlight.length ≤ capacity.toNat := by
  have h := pushInv_of_reachable hcap hs
  obtain ⟨pending, hpending⟩ := exists_pending hcap h.ring
  exact ⟨pending, h.published ▸ hpending.published_eq, hpending.length_le⟩

end Steps

end Common

end LowLatencyPipeline
