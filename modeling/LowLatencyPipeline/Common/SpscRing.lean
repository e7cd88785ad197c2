import Mathlib.Data.Fintype.Basic
import Mathlib.Data.Fin.VecNotation
import Mathlib.Data.Nat.ModEq
import Mathlib.Data.UInt
import LowLatencyPipeline.Library.Machine

/-!
# The single-producer single-consumer ring

`SpscRing` of `common/spsc_ring.hpp`, at the granularity of its atomic accesses and of the words
of its slots. The producer's calls (`try_claim`, writes into the claimed slot, `publish`, and
`try_push`/`try_emplace`, which are exactly that sequence) and the consumer's `try_pop` are
program counters; the labels of `spscRing` say which access happens next, so a run is one
interleaving of sequentially consistent steps. A slot is a function from word positions to
words: the producer writes single words, as often as it likes, and the consumer copies single
words in any order before it moves `head`.

The indices are free-running `UInt32`s. The invariant `Pending` names the list of items that
are published and not yet popped: it is what lies between `head` and `tail`, it never exceeds
the capacity, and the slots from `head` on hold it. Everything else follows: `published` is
`popped ++ pending` throughout.
-/

namespace LowLatencyPipeline

namespace Common

universe u v

/-- The shared memory of a ring: the two indices, and word `k` of slot `i` at `slots i k`. -/
structure SpscRing (ι : Type u) (V : Type v) where
  head : UInt32
  tail : UInt32
  slots : ℕ → ι → V

/-- Where the producer is. -/
inductive Producer
  /-- holds no slot -/
  | idle
  /-- `try_claim` has loaded `tail`, not yet `head` -/
  | claiming (writeIdx : UInt32)
  /-- `try_claim` returned `&slots[writeIdx & MASK]` -/
  | claimed (writeIdx : UInt32)
  /-- `publish` has loaded `tail`, not yet stored it -/
  | publishing (writeIdx : UInt32)

/-- Where the consumer is in `try_pop`. -/
inductive Consumer (ι : Type u) (V : Type v)
  | idle
  /-- has loaded `head`, not yet `tail` -/
  | loadedHead (readIdx : UInt32)
  /-- the ring was not empty: copying `slots[readIdx & MASK]` into `out` word by word -/
  | copying (readIdx : UInt32) (out : ι → Option V)

/-- The atomic accesses of the two threads. -/
inductive RingStep (ι : Type u) (V : Type v)
  | claimLoadTail
  | claimLoadHead
  | write (k : ι) (word : V)
  | publishLoadTail
  | publishStoreTail
  | popLoadHead
  | popLoadTail
  | copy (k : ι)
  | popStoreHead

/-- A ring with its two threads, and what went through it so far: the items published (the
claimed slot when `publish` stores `tail`) and the items popped (the copy when `try_pop` stores
`head`). -/
structure RingState (ι : Type u) (V : Type v) extends SpscRing ι V where
  producer : Producer
  consumer : Consumer ι V
  published : List (ι → V)
  popped : List (ι → V)

namespace SpscRing

/-- `idx & MASK`, the slot an index refers to. -/
def slotOf (capacity idx : UInt32) : ℕ := (idx &&& (capacity - 1)).toNat

/-- The static assertion on `capacity`, and that a ring has a slot. -/
def PowerOfTwo (capacity : UInt32) : Prop := ∃ k, capacity.toNat = 2 ^ k

end SpscRing

open SpscRing

variable {ι : Type u} {V : Type v} [DecidableEq ι] [Fintype ι]

/-- One atomic access, where its thread is ready for it. -/
def ringStep (capacity : UInt32) (s : RingState ι V) : RingStep ι V → Option (RingState ι V)
  | .claimLoadTail =>
    match s.producer with
    -- try_claim reads its own tail_, and may be called again before publish
    | .idle | .claimed _ => some { s with producer := .claiming s.tail }
    | _ => none
  | .claimLoadHead =>
    match s.producer with
    | .claiming writeIdx =>
      -- full: try_claim returns nullptr
      if writeIdx - s.head = capacity then some { s with producer := .idle }
      else some { s with producer := .claimed writeIdx }
    | _ => none
  | .write k word =>
    match s.producer with
    | .claimed writeIdx =>
      let slot := slotOf capacity writeIdx
      some { s with
        slots := Function.update s.slots slot (Function.update (s.slots slot) k word) }
    | _ => none
  | .publishLoadTail =>
    match s.producer with
    -- publish loads tail_ afresh
    | .claimed _ => some { s with producer := .publishing s.tail }
    | _ => none
  | .publishStoreTail =>
    match s.producer with
    | .publishing writeIdx =>
      some { s with
        tail := writeIdx + 1
        producer := .idle
        published := s.published ++ [s.slots (slotOf capacity writeIdx)] }
    | _ => none
  | .popLoadHead =>
    match s.consumer with
    | .idle => some { s with consumer := .loadedHead s.head }
    | _ => none
  | .popLoadTail =>
    match s.consumer with
    | .loadedHead readIdx =>
      -- empty: try_pop returns false
      if s.tail = readIdx then some { s with consumer := .idle }
      else some { s with consumer := .copying readIdx fun _ => none }
    | _ => none
  | .copy k =>
    match s.consumer with
    | .copying readIdx out =>
      some { s with
        consumer := .copying readIdx
          (Function.update out k (some (s.slots (slotOf capacity readIdx) k))) }
    | _ => none
  | .popStoreHead =>
    match s.consumer with
    | .copying readIdx out =>
      if h : ∀ k, (out k).isSome then
        some { s with
          head := readIdx + 1
          consumer := .idle
          popped := s.popped ++ [fun k => (out k).get (h k)] }
      else none
    | _ => none

/-- The ring and its two threads, from any equal values of `head` and `tail` and any slot
contents. -/
def spscRing (ι : Type u) (V : Type v) [DecidableEq ι] [Fintype ι] (capacity : UInt32) :
    Machine (RingState ι V) (RingStep ι V) where
  Init s := s.head = s.tail ∧ s.producer = .idle ∧ s.consumer = .idle ∧
    s.published = [] ∧ s.popped = []
  step := ringStep capacity

/-! ### Index arithmetic -/

section Index

variable {capacity : UInt32}

theorem slotOf_eq_mod (hcap : PowerOfTwo capacity) (idx : UInt32) :
    slotOf capacity idx = idx.toNat % capacity.toNat := by
  obtain ⟨k, hk⟩ := hcap
  have hpos : 0 < 2 ^ k := Nat.two_pow_pos k
  have hlt : capacity.toNat < 2 ^ 32 := capacity.toNat_lt
  have hmask : (capacity - 1).toNat = 2 ^ k - 1 := by
    rw [UInt32.toNat_sub, UInt32.toNat_one]
    omega
  rw [slotOf, UInt32.toNat_and, hmask, Nat.and_two_pow_sub_one_eq_mod, hk]

/-- The slot `n` places after an index, wrapped or not. -/
theorem slotOf_add (hcap : PowerOfTwo capacity) (idx : UInt32) (n : ℕ) :
    slotOf capacity (idx + UInt32.ofNat n) = (idx.toNat + n) % capacity.toNat := by
  obtain ⟨k, hk⟩ := hcap
  have hdvd : capacity.toNat ∣ 2 ^ 32 := by
    have hlt : 2 ^ k < 2 ^ 32 := hk ▸ capacity.toNat_lt
    rw [hk]
    exact Nat.pow_dvd_pow 2 ((Nat.pow_lt_pow_iff_right (by omega)).mp hlt).le
  rw [slotOf_eq_mod ⟨k, hk⟩, UInt32.toNat_add, UInt32.toNat_ofNat', Nat.add_mod_mod,
    Nat.mod_mod_of_dvd _ hdvd]

/-- Slots fewer than `capacity` places apart are different. -/
theorem slotOf_add_inj (hcap : PowerOfTwo capacity) (idx : UInt32) {m n : ℕ}
    (hm : m < capacity.toNat) (hn : n < capacity.toNat)
    (h : slotOf capacity (idx + UInt32.ofNat m) = slotOf capacity (idx + UInt32.ofNat n)) :
    m = n := by
  rw [slotOf_add hcap, slotOf_add hcap] at h
  have hmod : m ≡ n [MOD capacity.toNat] := Nat.ModEq.add_left_cancel' idx.toNat h
  exact hmod.eq_of_lt_of_lt hm hn

/-- `ofNat` does not wrap below the capacity. -/
theorem toNat_ofNat_of_le {n : ℕ} (h : n ≤ capacity.toNat) : (UInt32.ofNat n).toNat = n := by
  have := capacity.toNat_lt
  rw [UInt32.toNat_ofNat', Nat.mod_eq_of_lt (by omega)]

theorem add_ofNat_succ (idx : UInt32) (n : ℕ) :
    idx + 1 + UInt32.ofNat n = idx + UInt32.ofNat (n + 1) := by
  rw [UInt32.ofNat_add, add_assoc, add_comm (1 : UInt32)]
  rfl

end Index

/-! ### The invariant -/

/-- What the producer knows, given the items in flight. -/
def Producer.Knows (capacity : UInt32) (tail : UInt32) (inFlight : ℕ) : Producer → Prop
  | .idle => True
  | .claiming writeIdx => writeIdx = tail
  | .claimed writeIdx => writeIdx = tail ∧ inFlight < capacity.toNat
  | .publishing writeIdx => writeIdx = tail ∧ inFlight < capacity.toNat

/-- What the consumer knows: while it copies, the oldest item in flight is the one in the slot
it reads, and every word copied so far is a word of that item. -/
def Consumer.Knows (head : UInt32) (pending : List (ι → V)) : Consumer ι V → Prop
  | .idle => True
  | .loadedHead readIdx => readIdx = head
  | .copying readIdx out =>
    readIdx = head ∧ ∃ item rest, pending = item :: rest ∧ ∀ k w, out k = some w → item k = w

/-- **The ring invariant.** `pending` are the items published and not yet popped. -/
structure Pending (capacity : UInt32) (s : RingState ι V) (pending : List (ι → V)) : Prop where
  published_eq : s.published = s.popped ++ pending
  tail_eq : s.tail = s.head + UInt32.ofNat pending.length
  length_le : pending.length ≤ capacity.toNat
  slots_eq : ∀ (i : ℕ) (h : i < pending.length),
    s.slots (slotOf capacity (s.head + UInt32.ofNat i)) = pending[i]
  producer : s.producer.Knows capacity s.tail pending.length
  consumer : s.consumer.Knows s.head pending

section Invariant

variable {capacity : UInt32} {s t : RingState ι V} {pending : List (ι → V)}

omit [DecidableEq ι] [Fintype ι] in
theorem Pending.tail_sub_head (hp : Pending capacity s pending) :
    s.tail - s.head = UInt32.ofNat pending.length := by
  rw [hp.tail_eq, add_sub_cancel_left]

omit [DecidableEq ι] [Fintype ι] in
/-- The full test of `try_claim` compares with the number of items in flight. -/
theorem Pending.full_iff (hp : Pending capacity s pending) :
    s.tail - s.head = capacity ↔ pending.length = capacity.toNat := by
  rw [hp.tail_sub_head, ← UInt32.toNat_inj, toNat_ofNat_of_le hp.length_le]

omit [DecidableEq ι] [Fintype ι] in
/-- The empty test of `try_pop`. -/
theorem Pending.empty_iff (hp : Pending capacity s pending) :
    s.tail = s.head ↔ pending = [] := by
  rw [← sub_eq_zero, hp.tail_sub_head, ← UInt32.toNat_inj, toNat_ofNat_of_le hp.length_le,
    UInt32.toNat_zero, List.length_eq_zero_iff]

omit [DecidableEq ι] [Fintype ι] in
/-- The slot at `tail` is none of those in flight while there is room. -/
theorem Pending.slotOf_tail_ne (hcap : PowerOfTwo capacity) (hp : Pending capacity s pending)
    (hroom : pending.length < capacity.toNat) {i : ℕ} (hi : i < pending.length) :
    slotOf capacity (s.head + UInt32.ofNat i) ≠ slotOf capacity s.tail := by
  rw [hp.tail_eq]
  intro h
  have := slotOf_add_inj hcap s.head (by omega) hroom h
  omega

theorem Pending.claimLoadTail (hp : Pending capacity s pending)
    (h : ringStep capacity s .claimLoadTail = some t) : Pending capacity t pending := by
  simp only [ringStep] at h
  split at h <;> simp only [Option.some.injEq, reduceCtorEq] at h <;> subst h <;>
    exact ⟨hp.published_eq, hp.tail_eq, hp.length_le, hp.slots_eq, rfl, hp.consumer⟩

theorem Pending.claimLoadHead (hp : Pending capacity s pending)
    (h : ringStep capacity s .claimLoadHead = some t) : Pending capacity t pending := by
  simp only [ringStep] at h
  split at h <;> rename_i writeIdx hw
  · have hidx : writeIdx = s.tail := by simpa [hw, Producer.Knows] using hp.producer
    subst hidx
    split at h <;> rename_i hfull <;> simp only [Option.some.injEq] at h <;> subst h
    · exact ⟨hp.published_eq, hp.tail_eq, hp.length_le, hp.slots_eq, trivial, hp.consumer⟩
    · have hroom : pending.length < capacity.toNat :=
        lt_of_le_of_ne hp.length_le fun hlen => hfull (hp.full_iff.mpr hlen)
      exact ⟨hp.published_eq, hp.tail_eq, hp.length_le, hp.slots_eq, ⟨rfl, hroom⟩, hp.consumer⟩
  · exact absurd h (by simp)

/-- A write goes to the slot at `tail`, which holds no item in flight. -/
theorem Pending.write (hcap : PowerOfTwo capacity) (hp : Pending capacity s pending) {k : ι}
    {word : V} (h : ringStep capacity s (.write k word) = some t) :
    Pending capacity t pending := by
  simp only [ringStep] at h
  split at h <;> rename_i writeIdx hw
  · simp only [Option.some.injEq] at h
    subst h
    obtain ⟨rfl, hroom⟩ : writeIdx = s.tail ∧ pending.length < capacity.toNat := by
      simpa [hw, Producer.Knows] using hp.producer
    refine ⟨hp.published_eq, hp.tail_eq, hp.length_le, fun i hi => ?_, hp.producer, hp.consumer⟩
    rw [← hp.slots_eq i hi]
    exact Function.update_of_ne (hp.slotOf_tail_ne hcap hroom hi) _ _
  · exact absurd h (by simp)

theorem Pending.publishLoadTail (hp : Pending capacity s pending)
    (h : ringStep capacity s .publishLoadTail = some t) : Pending capacity t pending := by
  simp only [ringStep] at h
  split at h <;> rename_i writeIdx hw
  · simp only [Option.some.injEq] at h
    subst h
    have hroom : pending.length < capacity.toNat := by
      have hk := hp.producer
      rw [hw] at hk
      exact hk.2
    exact ⟨hp.published_eq, hp.tail_eq, hp.length_le, hp.slots_eq, ⟨rfl, hroom⟩, hp.consumer⟩
  · exact absurd h (by simp)

/-- Publishing appends the claimed slot's contents to the items in flight. -/
theorem Pending.publishStoreTail (hp : Pending capacity s pending)
    (h : ringStep capacity s .publishStoreTail = some t) :
    Pending capacity t (pending ++ [s.slots (slotOf capacity s.tail)]) := by
  simp only [ringStep] at h
  split at h <;> rename_i writeIdx hw
  · simp only [Option.some.injEq] at h
    subst h
    obtain ⟨rfl, hroom⟩ : writeIdx = s.tail ∧ pending.length < capacity.toNat := by
      simpa [hw, Producer.Knows] using hp.producer
    refine ⟨?_, ?_, ?_, fun i hi => ?_, trivial, ?_⟩
    · simp [hp.published_eq]
    · simp only [List.length_append, List.length_singleton]
      rw [hp.tail_eq, UInt32.ofNat_add, add_assoc]
      rfl
    · simpa using Nat.succ_le_of_lt hroom
    · -- the items before it lie where they lay
      rcases Nat.lt_or_ge i pending.length with hlt | hge
      · rw [List.getElem_append_left hlt]
        exact hp.slots_eq i hlt
      · have hlast : i = pending.length := by
          simp only [List.length_append, List.length_singleton] at hi
          omega
        subst hlast
        simp [hp.tail_eq]
    · -- what the consumer copies stays at the front
      have hc := hp.consumer
      cases hs : s.consumer with
      | idle => trivial
      | loadedHead readIdx =>
        rw [hs] at hc
        exact hc
      | copying readIdx out =>
        rw [hs] at hc
        obtain ⟨hidx, item, rest, hpend, hout⟩ := hc
        exact ⟨hidx, item, rest ++ [s.slots (slotOf capacity s.tail)], by simp [hpend], hout⟩
  · exact absurd h (by simp)

theorem Pending.popLoadHead (hp : Pending capacity s pending)
    (h : ringStep capacity s .popLoadHead = some t) : Pending capacity t pending := by
  simp only [ringStep] at h
  split at h
  · simp only [Option.some.injEq] at h
    subst h
    exact ⟨hp.published_eq, hp.tail_eq, hp.length_le, hp.slots_eq, hp.producer, rfl⟩
  · exact absurd h (by simp)

theorem Pending.popLoadTail (hp : Pending capacity s pending)
    (h : ringStep capacity s .popLoadTail = some t) : Pending capacity t pending := by
  simp only [ringStep] at h
  split at h <;> rename_i readIdx hr
  · have hidx : readIdx = s.head := by simpa [hr, Consumer.Knows] using hp.consumer
    subst hidx
    split at h <;> rename_i hempty <;> simp only [Option.some.injEq] at h <;> subst h
    · exact ⟨hp.published_eq, hp.tail_eq, hp.length_le, hp.slots_eq, hp.producer, trivial⟩
    · obtain ⟨item, rest, hpend⟩ : ∃ item rest, pending = item :: rest :=
        List.exists_cons_of_ne_nil fun hnil => hempty (hp.empty_iff.mpr hnil)
      exact ⟨hp.published_eq, hp.tail_eq, hp.length_le, hp.slots_eq, hp.producer,
        rfl, item, rest, hpend, by simp⟩
  · exact absurd h (by simp)

/-- A copied word is a word of the oldest item in flight. -/
theorem Pending.copy (hp : Pending capacity s pending) {k : ι}
    (h : ringStep capacity s (.copy k) = some t) : Pending capacity t pending := by
  simp only [ringStep] at h
  split at h <;> rename_i readIdx out hr
  · simp only [Option.some.injEq] at h
    subst h
    have hc := hp.consumer
    rw [hr] at hc
    obtain ⟨rfl, item, rest, rfl, hout⟩ := hc
    refine ⟨hp.published_eq, hp.tail_eq, hp.length_le, hp.slots_eq, hp.producer,
      rfl, item, rest, rfl, fun j w hj => ?_⟩
    have hslot : s.slots (slotOf capacity s.head) = item := by
      have h0 := hp.slots_eq 0 (by simp)
      rwa [show s.head + UInt32.ofNat 0 = s.head from add_zero _] at h0
    rcases eq_or_ne j k with rfl | hne
    · simpa [hslot] using hj
    · exact hout j w (by simpa [Function.update_of_ne hne] using hj)
  · exact absurd h (by simp)

/-- Popping moves the oldest item in flight to the popped ones. -/
theorem Pending.popStoreHead (hp : Pending capacity s pending)
    (h : ringStep capacity s .popStoreHead = some t) :
    ∃ item rest, pending = item :: rest ∧ t.popped = s.popped ++ [item] ∧
      Pending capacity t rest := by
  simp only [ringStep] at h
  split at h <;> rename_i readIdx out hr
  · split at h <;> rename_i hall
    · simp only [Option.some.injEq] at h
      subst h
      have hc := hp.consumer
      rw [hr] at hc
      obtain ⟨rfl, item, rest, rfl, hout⟩ := hc
      -- every word was copied, so the copy is the item
      have hitem : (fun k => (out k).get (hall k)) = item :=
        funext fun k => (hout k _ (Option.some_get (hall k)).symm).symm
      refine ⟨item, rest, rfl, by rw [hitem], ?_, ?_, ?_, fun i hi => ?_, ?_, trivial⟩
      · simp [hitem, hp.published_eq]
      · simp only [add_ofNat_succ]
        exact hp.tail_eq
      · exact (Nat.le_succ _).trans hp.length_le
      · rw [add_ofNat_succ]
        exact hp.slots_eq (i + 1) (by simpa using hi)
      · -- the producer has found room, and now there is more
        have hk := hp.producer
        cases hs : s.producer with
        | idle => trivial
        | claiming writeIdx =>
          rw [hs] at hk
          exact hk
        | claimed writeIdx | publishing writeIdx =>
          rw [hs] at hk
          exact ⟨hk.1, (Nat.lt_succ_self _).trans hk.2⟩
    · exact absurd h (by simp)
  · exact absurd h (by simp)

/-- **The step lemma**: every access keeps the invariant, for suitable items in flight. -/
theorem Pending.step (hcap : PowerOfTwo capacity) (hp : Pending capacity s pending)
    {a : RingStep ι V} (h : ringStep capacity s a = some t) :
    ∃ pending', Pending capacity t pending' := by
  cases a with
  | claimLoadTail => exact ⟨_, hp.claimLoadTail h⟩
  | claimLoadHead => exact ⟨_, hp.claimLoadHead h⟩
  | write k word => exact ⟨_, hp.write hcap h⟩
  | publishLoadTail => exact ⟨_, hp.publishLoadTail h⟩
  | publishStoreTail => exact ⟨_, hp.publishStoreTail h⟩
  | popLoadHead => exact ⟨_, hp.popLoadHead h⟩
  | popLoadTail => exact ⟨_, hp.popLoadTail h⟩
  | copy k => exact ⟨_, hp.copy h⟩
  | popStoreHead =>
    obtain ⟨_, rest, -, -, hrest⟩ := hp.popStoreHead h
    exact ⟨rest, hrest⟩

/-- **The run lemma**: every reachable state has its items in flight. -/
theorem exists_pending (hcap : PowerOfTwo capacity) (hs : (spscRing ι V capacity).Reachable s) :
    ∃ pending, Pending capacity s pending := by
  refine hs.invariant (P := fun s => ∃ pending, Pending capacity s pending) ?_ ?_
  · rintro s ⟨hidx, hprod, hcons, hpub, hpop⟩
    refine ⟨[], by simp [hpub, hpop], ?_, by simp, by simp, ?_, ?_⟩
    · simp [hidx]
    · simp [hprod, Producer.Knows]
    · simp [hcons, Consumer.Knows]
  · rintro s a t - - hstep ⟨pending, hp⟩
    exact hp.step hcap hstep

/-- The accesses of the consumer. -/
def RingStep.Consumes : RingStep ι V → Prop
  | .popLoadHead | .popLoadTail | .copy _ | .popStoreHead => True
  | _ => False

/-- What the consumer leaves alone. -/
theorem consumer_frame {a : RingStep ι V} (ha : a.Consumes) (h : ringStep capacity s a = some t) :
    t.slots = s.slots ∧ t.tail = s.tail ∧ t.producer = s.producer ∧ t.published = s.published ∧
      (a ≠ .popStoreHead → t.popped = s.popped) := by
  cases a with
  | claimLoadTail | claimLoadHead | write | publishLoadTail | publishStoreTail => exact ha.elim
  | popLoadHead | popLoadTail | copy =>
    simp only [ringStep] at h
    split at h
    · try split at h
      all_goals
        obtain rfl := Option.some.inj h
        exact ⟨rfl, rfl, rfl, rfl, fun _ => rfl⟩
    · cases h
  | popStoreHead =>
    simp only [ringStep] at h
    split at h
    · split at h
      · obtain rfl := Option.some.inj h
        exact ⟨rfl, rfl, rfl, rfl, fun hne => absurd rfl hne⟩
      · cases h
    · cases h

/-- **What a step of the producer does.** -/
inductive ProducerEffect (capacity : UInt32) (s : RingState ι V) :
    RingStep ι V → RingState ι V → Prop
  | claimLoadTail :
      ProducerEffect capacity s .claimLoadTail { s with producer := .claiming s.tail }
  | full {writeIdx : UInt32} : s.producer = .claiming writeIdx → writeIdx - s.head = capacity →
      ProducerEffect capacity s .claimLoadHead { s with producer := .idle }
  | claimed {writeIdx : UInt32} : s.producer = .claiming writeIdx →
      ProducerEffect capacity s .claimLoadHead { s with producer := .claimed writeIdx }
  | write {writeIdx : UInt32} {k : ι} {word : V} : s.producer = .claimed writeIdx →
      ProducerEffect capacity s (.write k word) { s with
        slots := Function.update s.slots (slotOf capacity writeIdx)
          (Function.update (s.slots (slotOf capacity writeIdx)) k word) }
  | publishLoadTail {writeIdx : UInt32} : s.producer = .claimed writeIdx →
      ProducerEffect capacity s .publishLoadTail { s with producer := .publishing s.tail }
  | publishStoreTail {writeIdx : UInt32} : s.producer = .publishing writeIdx →
      ProducerEffect capacity s .publishStoreTail { s with
        tail := writeIdx + 1
        producer := .idle
        published := s.published ++ [s.slots (slotOf capacity writeIdx)] }

theorem producerEffect_of_step {a : RingStep ι V} (ha : ¬a.Consumes)
    (h : ringStep capacity s a = some t) : ProducerEffect capacity s a t := by
  cases a with
  | popLoadHead | popLoadTail | copy | popStoreHead => exact absurd trivial ha
  | claimLoadTail =>
    simp only [ringStep] at h
    split at h
    · exact Option.some.inj h ▸ .claimLoadTail
    · exact Option.some.inj h ▸ .claimLoadTail
    · cases h
  | claimLoadHead =>
    simp only [ringStep] at h
    split at h
    · next writeIdx hw =>
      split at h
      · next hfull => exact Option.some.inj h ▸ .full hw hfull
      · exact Option.some.inj h ▸ .claimed hw
    · cases h
  | write k word =>
    simp only [ringStep] at h
    split at h
    · next writeIdx hw => exact Option.some.inj h ▸ .write hw
    · cases h
  | publishLoadTail =>
    simp only [ringStep] at h
    split at h
    · next writeIdx hw => exact Option.some.inj h ▸ .publishLoadTail hw
    · cases h
  | publishStoreTail =>
    simp only [ringStep] at h
    split at h
    · next writeIdx hw => exact Option.some.inj h ▸ .publishStoreTail hw
    · cases h

/-! ### The ring as a queue -/

/-- **The ring is a lossless FIFO.** In every interleaving, from any equal indices:

* the items popped are a prefix of the items published, in order and unchanged;
* `try_claim` returns null only if `capacity` published items were unconsumed when it read
  `head`;
* the slot the consumer copies is never the one the producer fills;
* the consumer only ever copies a published item, and what it has copied of it so far is what
  was published, so a claim that is not published yet is never seen. -/
theorem spscRing_lossless_fifo (hcap : PowerOfTwo capacity)
    (hs : (spscRing ι V capacity).Reachable s) :
    s.popped <+: s.published ∧
    (∀ t, ringStep capacity s .claimLoadHead = some t → t.producer = .idle →
      s.published.length = s.popped.length + capacity.toNat) ∧
    (∀ writeIdx readIdx out, s.producer = .claimed writeIdx →
      s.consumer = .copying readIdx out →
        slotOf capacity writeIdx ≠ slotOf capacity readIdx) ∧
    (∀ readIdx out, s.consumer = .copying readIdx out →
      ∃ item, s.published[s.popped.length]? = some item ∧ ∀ k w, out k = some w → item k = w) := by
  obtain ⟨pending, hp⟩ := exists_pending hcap hs
  refine ⟨⟨pending, hp.published_eq.symm⟩, fun t ht hidle => ?_,
    fun writeIdx readIdx out hw hr => ?_, fun readIdx out hr => ?_⟩
  · -- a claim that fails finds capacity items
    simp only [ringStep] at ht
    split at ht <;> rename_i writeIdx hw
    · have hidx : writeIdx = s.tail := by simpa [hw, Producer.Knows] using hp.producer
      subst hidx
      split at ht <;> rename_i hfull <;> simp only [Option.some.injEq] at ht <;> subst ht
      · rw [hp.published_eq, List.length_append, hp.full_iff.mp hfull]
      · exact absurd hidle (by simp)
    · exact absurd ht (by simp)
  · -- the slot claimed lies beyond all items in flight, the slot copied is the first of them
    have hprod := hp.producer
    have hcons := hp.consumer
    rw [hw] at hprod
    rw [hr] at hcons
    obtain ⟨rfl, hroom⟩ := hprod
    obtain ⟨rfl, item, rest, rfl, -⟩ := hcons
    have hne := hp.slotOf_tail_ne hcap hroom (i := 0) (by simp)
    rw [show s.head + UInt32.ofNat 0 = s.head from add_zero _] at hne
    exact hne.symm
  · have hcons := hp.consumer
    rw [hr] at hcons
    obtain ⟨-, item, rest, rfl, hout⟩ := hcons
    exact ⟨item, by simp [hp.published_eq], hout⟩

/-- A ring of two slots of two words, its indices about to wrap. -/
def wrappingRing : RingState (Fin 2) ℕ where
  head := 0xFFFFFFFF
  tail := 0xFFFFFFFF
  slots := fun _ _ => 0
  producer := .idle
  consumer := .idle
  published := []
  popped := []

/-- Two items of two words pass the wrap of the indices, the second one being filled while the
first one is copied. -/
def wrappingRun : List (RingStep (Fin 2) ℕ) :=
  let fst : Fin 2 := ⟨0, Nat.zero_lt_two⟩
  let snd : Fin 2 := ⟨1, Nat.one_lt_two⟩
  [.claimLoadTail, .claimLoadHead, .write fst 5, .write snd 6, .publishLoadTail,
    .publishStoreTail, .popLoadHead, .claimLoadTail, .popLoadTail, .claimLoadHead, .copy snd,
    .write snd 8, .copy fst, .write fst 7, .publishLoadTail, .popStoreHead, .publishStoreTail]

theorem spscRing_lossless_fifo_wrapping :
    ∃ s, (spscRing (Fin 2) ℕ 2).exec wrappingRing wrappingRun = some s ∧
      s.head = 0 ∧ s.tail = 1 ∧ s.popped = [![5, 6]] ∧ s.published = [![5, 6], ![7, 8]] ∧
      s.popped <+: s.published := by
  have hinit : (spscRing (Fin 2) ℕ 2).Reachable wrappingRing :=
    .init ⟨rfl, rfl, rfl, rfl, rfl⟩
  refine ⟨_, rfl, rfl, rfl, by decide, by decide, ?_⟩
  exact (spscRing_lossless_fifo ⟨1, rfl⟩ (hinit.exec wrappingRun rfl)).1

end Invariant

end Common

end LowLatencyPipeline
