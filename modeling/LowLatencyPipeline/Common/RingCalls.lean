import LowLatencyPipeline.Common.SpscRing

/-!
# The ring by whole calls

`try_claim`, `publish` and `try_pop` as functions of the indices and the slots, for a model in which
no call overlaps another. `exec_publish` and `exec_tryPop` say that this is what the accesses of
`spscRing` do when they come in a row.

`Agree` compares two rings over the items in flight only: the other slots may hold anything.
-/

namespace LowLatencyPipeline

namespace Common

universe u v

open SpscRing

/-- The indices and the slots of a ring. -/
structure SlotRing (α : Type u) where
  slots : ℕ → α
  head : UInt32 := 0
  tail : UInt32 := 0

namespace SlotRing

section Calls

variable {α : Type u} (capacity : UInt32) (r : SlotRing α)

/-- `try_claim`: what the claimed slot holds. -/
def tryClaim : Option α :=
  if r.tail - r.head = capacity then none else some (r.slots (slotOf capacity r.tail))

/-- The claimed slot is filled, and `publish`. -/
def publish (x : α) : SlotRing α where
  slots := Function.update r.slots (slotOf capacity r.tail) x
  head := r.head
  tail := r.tail + 1

/-- `try_pop`. -/
def tryPop : Option (α × SlotRing α) :=
  if r.tail = r.head then none
  else some (r.slots (slotOf capacity r.head), { r with head := r.head + 1 })

end Calls

/-! ### Two rings -/

/-- The rings have the same indices, and related items in flight. -/
structure Agree {α : Type u} {β : Type v} (capacity : UInt32) (R : α → β → Prop) (r : SlotRing α)
    (r' : SlotRing β) : Prop where
  head : r'.head = r.head
  tail : r'.tail = r.tail
  inFlight_le : (r.tail - r.head).toNat ≤ capacity.toNat
  items : ∀ i < (r.tail - r.head).toNat, R (r.slots (slotOf capacity (r.head + UInt32.ofNat i)))
    (r'.slots (slotOf capacity (r.head + UInt32.ofNat i)))

namespace Agree

variable {α : Type u} {β : Type v} {capacity : UInt32} {R : α → β → Prop} {r : SlotRing α}
  {r' : SlotRing β}

/-- Empty rings agree, whatever their slots hold. -/
theorem empty (slots : ℕ → α) (slots' : ℕ → β) : Agree capacity R ⟨slots, 0, 0⟩ ⟨slots', 0, 0⟩ where
  head := rfl
  tail := rfl
  inFlight_le := by simp
  items i hi := by simp at hi

/-- Both rings are full, or both give a slot. -/
theorem tryClaim (h : Agree capacity R r r') :
    (r.tryClaim capacity = none ∧ r'.tryClaim capacity = none) ∨
      ∃ x x', r.tryClaim capacity = some x ∧ r'.tryClaim capacity = some x' := by
  rw [SlotRing.tryClaim, SlotRing.tryClaim, h.head, h.tail]
  split_ifs with hfull
  · exact .inl ⟨rfl, rfl⟩
  · exact .inr ⟨_, _, rfl, rfl⟩

/-- Related items are published. -/
theorem publish (hcap : PowerOfTwo capacity) (h : Agree capacity R r r') {x : α} {x' : β}
    (hroom : r.tryClaim capacity ≠ none) (hx : R x x') :
    Agree capacity R (r.publish capacity x) (r'.publish capacity x') := by
  have hne : r.tail - r.head ≠ capacity := by
    intro hfull
    exact hroom (if_pos hfull)
  have hlt : (r.tail - r.head).toNat < capacity.toNat :=
    lt_of_le_of_ne h.inFlight_le fun heq => hne (UInt32.toNat_inj.1 heq)
  have hmax : capacity.toNat < 2 ^ 32 := capacity.toNat_lt
  have hgrow : (r.tail + 1 - r.head).toNat = (r.tail - r.head).toNat + 1 := by
    rw [add_sub_right_comm, UInt32.toNat_add, UInt32.toNat_one, Nat.mod_eq_of_lt (by omega)]
  have htail : r.head + UInt32.ofNat (r.tail - r.head).toNat = r.tail := by
    rw [UInt32.ofNat_toNat, add_sub_cancel]
  refine ⟨h.head, congrArg (· + 1) h.tail, hgrow.trans_le hlt, fun i hi => ?_⟩
  have hi : i < (r.tail - r.head).toNat + 1 := hgrow ▸ hi
  change R (Function.update r.slots (slotOf capacity r.tail) x (slotOf capacity (r.head + _)))
    (Function.update r'.slots (slotOf capacity r'.tail) x' (slotOf capacity (r.head + _)))
  rw [h.tail]
  rcases Nat.lt_succ_iff_lt_or_eq.1 hi with hi | rfl
  · -- an older item is in another slot
    have hslot : slotOf capacity (r.head + UInt32.ofNat i) ≠ slotOf capacity r.tail := by
      intro heq
      rw [← htail] at heq
      exact hi.ne (slotOf_add_inj hcap r.head (hi.trans hlt) hlt heq)
    rw [Function.update_of_ne hslot, Function.update_of_ne hslot]
    exact h.items i hi
  · rw [htail, Function.update_self, Function.update_self]
    exact hx

/-- Both rings are empty, or related items are popped. -/
theorem tryPop (h : Agree capacity R r r') :
    (r.tryPop capacity = none ∧ r'.tryPop capacity = none) ∨
      ∃ x x' rest rest', r.tryPop capacity = some (x, rest) ∧
        r'.tryPop capacity = some (x', rest') ∧ R x x' ∧ Agree capacity R rest rest' := by
  rw [SlotRing.tryPop, SlotRing.tryPop, h.head, h.tail]
  split_ifs with hempty
  · exact .inl ⟨rfl, rfl⟩
  · have hpos : 0 < (r.tail - r.head).toNat := by
      refine Nat.pos_of_ne_zero fun h0 => hempty ?_
      exact sub_eq_zero.1 (UInt32.toNat_inj.1 h0)
    have hshrink : (r.tail - (r.head + 1)).toNat = (r.tail - r.head).toNat - 1 := by
      rw [← sub_sub, UInt32.toNat_sub_of_le _ _ ?_, UInt32.toNat_one]
      exact UInt32.le_iff_toNat_le.2 hpos
    have hfirst : r.head + UInt32.ofNat 0 = r.head := add_zero r.head
    refine .inr ⟨_, _, _, _, rfl, rfl, hfirst ▸ h.items 0 hpos, ?_⟩
    refine ⟨rfl, rfl, ?_, fun i hi => ?_⟩
    · have hle := h.inFlight_le
      change (r.tail - (r.head + 1)).toNat ≤ _
      omega
    · have hi : i < (r.tail - (r.head + 1)).toNat := hi
      change R (r.slots (slotOf capacity (r.head + 1 + UInt32.ofNat i))) (r'.slots _)
      rw [add_ofNat_succ]
      exact h.items (i + 1) (by omega)

end Agree

end SlotRing

/-! ### Calls and accesses -/

section Accesses

variable {ι : Type u} {V : Type v} [DecidableEq ι] [Fintype ι] {capacity : UInt32}
  {s : RingState ι V}

/-- The ring of a state. -/
def RingState.ring (s : RingState ι V) : SlotRing (ι → V) := ⟨s.slots, s.head, s.tail⟩

/-- The words of a claimed slot, written one after another in any order. -/
theorem exec_write (x : ι → V) (ks : List ι) {writeIdx : UInt32}
    (hproducer : s.producer = .claimed writeIdx) :
    (spscRing ι V capacity).exec s (ks.map fun k => .write k (x k)) =
      some { s with
        slots := Function.update s.slots (slotOf capacity writeIdx) fun k =>
          if k ∈ ks then x k else s.slots (slotOf capacity writeIdx) k } := by
  induction ks generalizing s with
  | nil => simp
  | cons k ks ih =>
    -- the ring after the first word
    let t : RingState ι V := { s with
      slots := Function.update s.slots (slotOf capacity writeIdx)
        (Function.update (s.slots (slotOf capacity writeIdx)) k (x k)) }
    have hstep : (spscRing ι V capacity).step s (.write k (x k)) = some t := by
      change ringStep capacity s (.write k (x k)) = _
      simp only [ringStep, hproducer, t]
    -- a word written twice is written with the same value
    have hwords : (fun j => if j ∈ ks then x j else t.slots (slotOf capacity writeIdx) j) =
        fun j => if j ∈ k :: ks then x j else s.slots (slotOf capacity writeIdx) j := by
      funext j
      change (if j ∈ ks then x j else Function.update s.slots _ _ _ j) = _
      rw [Function.update_self]
      by_cases hj : j = k
      · subst hj
        simp
      · simp [hj]
    rw [List.map_cons, Machine.exec_cons, hstep, Option.bind_some, ih (s := t) hproducer, hwords]
    change some { s with slots := Function.update (Function.update s.slots _ _) _ _ } = _
    rw [Function.update_idem]

/-- The words of a slot, copied one after another in any order. -/
theorem exec_copy (ks : List ι) {readIdx : UInt32} {out : ι → Option V}
    (hconsumer : s.consumer = .copying readIdx out) :
    (spscRing ι V capacity).exec s (ks.map .copy) =
      some { s with
        consumer := .copying readIdx fun k =>
          if k ∈ ks then some (s.slots (slotOf capacity readIdx) k) else out k } := by
  induction ks generalizing s out with
  | nil => simp [← hconsumer]
  | cons k ks ih =>
    have hstep : (spscRing ι V capacity).step s (.copy k) = some { s with
        consumer := .copying readIdx
          (Function.update out k (some (s.slots (slotOf capacity readIdx) k))) } := by
      change ringStep capacity s (.copy k) = _
      rw [ringStep, hconsumer]
    rw [List.map_cons, Machine.exec_cons, hstep, Option.bind_some, ih rfl]
    congr 3
    funext j
    by_cases hj : j = k
    · subst hj
      simp
    · simp [hj]

/-- The accesses of a call of the producer: claim, fill, publish. -/
def publishSteps (x : ι → V) (ks : List ι) : List (RingStep ι V) :=
  .claimLoadTail :: .claimLoadHead :: ((ks.map fun k => .write k (x k)) ++
    [.publishLoadTail, .publishStoreTail])

/-- The accesses of `try_pop`. -/
def popSteps (ks : List ι) : List (RingStep ι V) :=
  .popLoadHead :: .popLoadTail :: (ks.map .copy ++ [.popStoreHead])

/-- `try_claim` begins. -/
theorem step_claimLoadTail (hproducer : s.producer = .idle) :
    (spscRing ι V capacity).step s .claimLoadTail = some { s with
      producer := .claiming s.tail } := by
  change ringStep capacity s .claimLoadTail = _
  rw [ringStep, hproducer]

/-- `try_pop` begins. -/
theorem step_popLoadHead (hconsumer : s.consumer = .idle) :
    (spscRing ι V capacity).step s .popLoadHead = some { s with
      consumer := .loadedHead s.head } := by
  change ringStep capacity s .popLoadHead = _
  rw [ringStep, hconsumer]

/-- Claim, fill and publish in a row. -/
theorem exec_publish (x : ι → V) {ks : List ι} (hks : ∀ k, k ∈ ks) (hproducer : s.producer = .idle)
    (hroom : s.ring.tryClaim capacity ≠ none) :
    ∃ t, (spscRing ι V capacity).exec s (publishSteps x ks) = some t ∧
      t.ring = s.ring.publish capacity x ∧ t.producer = .idle ∧ t.consumer = s.consumer := by
  have hne : s.tail - s.head ≠ capacity := by
    intro hfull
    exact hroom (if_pos hfull)
  have hclaimed : (spscRing ι V capacity).step { s with producer := .claiming s.tail }
      .claimLoadHead = some { s with producer := .claimed s.tail } := if_neg hne
  have hall : (fun k => if k ∈ ks then x k else s.slots (slotOf capacity s.tail) k) = x :=
    funext fun k => if_pos (hks k)
  rw [publishSteps, Machine.exec_cons, step_claimLoadTail hproducer, Option.bind_some,
    Machine.exec_cons, hclaimed, Option.bind_some, Machine.exec_append, exec_write x ks rfl]
  refine ⟨_, rfl, ?_, rfl, rfl⟩
  change SlotRing.mk (Function.update s.slots (slotOf capacity s.tail) fun k => _) _ _ = _
  rw [hall]
  rfl

/-- A failed claim. -/
theorem exec_full (hproducer : s.producer = .idle) (hfull : s.ring.tryClaim capacity = none) :
    (spscRing ι V capacity).exec s [.claimLoadTail, .claimLoadHead] = some s := by
  have hcap : s.tail - s.head = capacity := by
    by_contra hne
    have hsome : s.ring.tryClaim capacity = some _ := if_neg hne
    rw [hsome] at hfull
    cases hfull
  have hnone : (spscRing ι V capacity).step { s with producer := .claiming s.tail }
      .claimLoadHead = some { s with producer := .idle } := if_pos hcap
  rw [Machine.exec_cons, step_claimLoadTail hproducer, Option.bind_some, Machine.exec_cons, hnone,
    ← hproducer]
  rfl

/-- A failed `try_pop`. -/
theorem exec_empty (hconsumer : s.consumer = .idle) (hnone : s.ring.tryPop capacity = none) :
    (spscRing ι V capacity).exec s [.popLoadHead, .popLoadTail] = some s := by
  have hempty : s.tail = s.head := by
    by_contra hne
    have hsome : s.ring.tryPop capacity = some _ := if_neg hne
    rw [hsome] at hnone
    cases hnone
  have hback : (spscRing ι V capacity).step { s with consumer := .loadedHead s.head }
      .popLoadTail = some { s with consumer := .idle } := if_pos hempty
  rw [Machine.exec_cons, step_popLoadHead hconsumer, Option.bind_some, Machine.exec_cons, hback,
    ← hconsumer]
  rfl

/-- `try_pop` in a row. -/
theorem exec_tryPop {ks : List ι} (hks : ∀ k, k ∈ ks) (hconsumer : s.consumer = .idle)
    {x : ι → V} {rest : SlotRing (ι → V)} (hpop : s.ring.tryPop capacity = some (x, rest)) :
    ∃ t, (spscRing ι V capacity).exec s (popSteps ks) = some t ∧
      t.ring = rest ∧ t.popped = s.popped ++ [x] ∧ t.consumer = .idle ∧
        t.producer = s.producer := by
  have hne : s.tail ≠ s.head := by
    intro hempty
    have hnone : s.ring.tryPop capacity = none := if_pos hempty
    rw [hnone] at hpop
    cases hpop
  obtain ⟨rfl, rfl⟩ : s.slots (slotOf capacity s.head) = x ∧
      { s.ring with head := s.head + 1 } = rest :=
    Prod.mk.inj (Option.some.inj ((if_neg hne).symm.trans hpop))
  have hloadTail : (spscRing ι V capacity).step { s with consumer := .loadedHead s.head }
      .popLoadTail = some { s with consumer := .copying s.head fun _ => none } := if_neg hne
  rw [popSteps, Machine.exec_cons, step_popLoadHead hconsumer, Option.bind_some,
    Machine.exec_cons, hloadTail, Option.bind_some, Machine.exec_append, exec_copy ks rfl]
  -- every word is copied, so the store of head_ is enabled
  have hall : ∀ k, (if k ∈ ks then some (s.slots (slotOf capacity s.head) k) else none).isSome := by
    intro k
    rw [if_pos (hks k)]
    rfl
  have hlast : (spscRing ι V capacity).step { s with
      consumer := .copying s.head fun k =>
        if k ∈ ks then some (s.slots (slotOf capacity s.head) k) else none } .popStoreHead =
      some { s with
        head := s.head + 1
        consumer := .idle
        popped := s.popped ++ [fun k => (if k ∈ ks then
          some (s.slots (slotOf capacity s.head) k) else none).get (hall k)] } := dif_pos hall
  rw [Option.bind_some, Machine.exec_cons, hlast]
  refine ⟨_, rfl, rfl, ?_, rfl, rfl⟩
  have hcopied : (fun k => (if k ∈ ks then some (s.slots (slotOf capacity s.head) k) else none).get
      (hall k)) = s.slots (slotOf capacity s.head) := by
    funext k
    simp [hks k]
  rw [hcopied]

end Accesses

end Common

end LowLatencyPipeline
