import LowLatencyPipeline.Common.Messages
import LowLatencyPipeline.Common.SpscRing

/-!
# Order routers

`Router` is where exec's requests go. A venue's router is any type with a `submit` that accepts
or refuses a request; `NullRouter` is the one of `exec/router.hpp` that accepts every request it
has room for and answers it on the next poll.

`NullRouter.Holds` says which reports lie in the circular buffer, oldest first. `submit` appends
the request's `replies` to them, or changes nothing when there is too little room, and `pop`
takes the first one.
-/

namespace LowLatencyPipeline

namespace Exec

open Common Common.SpscRing

/-- `Router`, as far as a strategy's requests see it. -/
class Router (ρ : Type*) where
  /-- `submit`: false when the request can't be queued. -/
  submit : ρ → OrderRequest → ρ × Bool

/-- `NullRouter`. -/
structure NullRouter where
  q : ℕ → ExecReport
  head : UInt32
  tail : UInt32

namespace NullRouter

def QUEUE : UInt32 := 1024

/-- The number of reports a request needs room for. -/
def needed (req : OrderRequest) : UInt32 :=
  if req.type = .new ∧ (req.tif = .ioc ∨ req.tif = .fok) then 2 else 1

/-- The report fields copied from a request. -/
def reportOf (req : OrderRequest) (execType : ExecType) (ordStatus : OrdStatus) (leavesQty : ℤ) :
    ExecReport where
  clOrdId := req.clOrdId
  origClOrdId := req.origClOrdId
  strategyTag := req.strategyTag
  tscSent := req.tscDecision
  instrument := req.instrument
  execType := execType
  ordStatus := ordStatus
  leavesQty := leavesQty

/-- The reports that answer a request. -/
def replies (req : OrderRequest) : List ExecReport :=
  match req.type with
  | .new =>
    reportOf req .ack .new req.qty ::
      if needed req = 2 then [reportOf req .expired .expired 0] else []
  | .cancel => [reportOf req .canceled .canceled 0]
  | .replace => [reportOf req .replaced .new req.qty]
  | .cancelAll => []

/-- A new order is answered by an ack, after which an order that cannot rest expires. -/
theorem replies_new {req : OrderRequest} (h : req.type = .new) :
    ∃ rest, replies req = reportOf req .ack .new req.qty :: rest ∧
      ∀ rep ∈ rest, rep.execType = .expired ∧ rep.clOrdId = req.clOrdId := by
  rw [replies, h]
  refine ⟨_, rfl, fun rep hrep => ?_⟩
  split_ifs at hrep
  · obtain rfl := List.mem_singleton.mp hrep
    exact ⟨rfl, rfl⟩
  · exact absurd hrep List.not_mem_nil

/-- `push`. -/
def push (n : NullRouter) (r : ExecReport) : NullRouter :=
  { n with q := Function.update n.q (slotOf QUEUE n.tail) r, tail := n.tail + 1 }

/-- `submit`. -/
def submit (n : NullRouter) (req : OrderRequest) : NullRouter × Bool :=
  if QUEUE - (n.tail - n.head) < needed req then (n, false)
  else ((replies req).foldl push n, true)

instance : Router NullRouter := ⟨submit⟩

/-- One round of `poll`: the next report, if there is one. The received copy is stamped. -/
def pop (n : NullRouter) (tsc : UInt64) : Option (ExecReport × NullRouter) :=
  if n.head = n.tail then none
  else
    let slot := slotOf QUEUE n.head
    let r := { n.q slot with tscRecv := tsc }
    some (r, { n with q := Function.update n.q slot r, head := n.head + 1 })

/-- A refused request changes nothing. -/
theorem submit_refused {n n' : NullRouter} {req : OrderRequest}
    (h : Router.submit n req = (n', false)) : n' = n := by
  change n.submit req = (n', false) at h
  rw [submit] at h
  split_ifs at h
  · exact (Prod.mk.inj h).1.symm
  · exact absurd (Prod.mk.inj h).2.symm Bool.false_ne_true

/-! ### The queue as a list -/

/-- The reports in the queue, oldest first. -/
structure Holds (n : NullRouter) (pending : List ExecReport) : Prop where
  tail_eq : n.tail = n.head + UInt32.ofNat pending.length
  length_le : pending.length ≤ QUEUE.toNat
  slots_eq : ∀ (i : ℕ) (h : i < pending.length),
    n.q (slotOf QUEUE (n.head + UInt32.ofNat i)) = pending[i]

theorem powerOfTwo_queue : PowerOfTwo QUEUE := ⟨10, rfl⟩

section Holds

variable {n : NullRouter} {pending : List ExecReport}

/-- A router in zero-initialised storage has no report. -/
theorem Holds.nil {q : ℕ → ExecReport} {idx : UInt32} : Holds ⟨q, idx, idx⟩ [] :=
  ⟨by simp, Nat.zero_le _, fun i h => absurd h (Nat.not_lt_zero i)⟩

theorem Holds.tail_sub_head (h : n.Holds pending) :
    (n.tail - n.head).toNat = pending.length := by
  rw [h.tail_eq, add_sub_cancel_left, toNat_ofNat_of_le h.length_le]

theorem Holds.push (h : n.Holds pending) (hroom : pending.length < QUEUE.toNat)
    (r : ExecReport) : (n.push r).Holds (pending ++ [r]) := by
  refine ⟨?_, ?_, fun i hi => ?_⟩
  · change n.tail + 1 = n.head + UInt32.ofNat (pending ++ [r]).length
    rw [h.tail_eq, List.length_append, List.length_singleton, UInt32.ofNat_add, add_assoc]
    rfl
  · rw [List.length_append, List.length_singleton]
    exact hroom
  · change Function.update n.q (slotOf QUEUE n.tail) r (slotOf QUEUE (n.head + UInt32.ofNat i)) = _
    rcases eq_or_ne i pending.length with rfl | hne
    · rw [h.tail_eq, Function.update_self, List.getElem_concat_length rfl]
    · have hlt : i < pending.length := by
        rw [List.length_append, List.length_singleton] at hi
        omega
      have hslot : slotOf QUEUE (n.head + UInt32.ofNat i) ≠ slotOf QUEUE n.tail := by
        rw [h.tail_eq]
        intro heq
        exact hne (slotOf_add_inj powerOfTwo_queue n.head (by omega) hroom heq)
      rw [Function.update_of_ne hslot, h.slots_eq i hlt, List.getElem_append_left]

/-- A request finds the room its replies need. -/
theorem length_replies_le (req : OrderRequest) : (replies req).length ≤ (needed req).toNat := by
  unfold replies needed
  split <;> split_ifs <;> simp_all

theorem Holds.foldl_push (h : n.Holds pending) (rs : List ExecReport)
    (hroom : pending.length + rs.length ≤ QUEUE.toNat) :
    (rs.foldl NullRouter.push n).Holds (pending ++ rs) := by
  induction rs generalizing n pending with
  | nil => simpa using h
  | cons r rs ih =>
    rw [List.length_cons] at hroom
    have hrest := ih (h.push (by omega) r) (by
      rw [List.length_append, List.length_singleton]
      omega)
    rwa [List.append_assoc] at hrest

theorem Holds.room_lt_iff (h : n.Holds pending) (req : OrderRequest) :
    QUEUE - (n.tail - n.head) < needed req ↔
      QUEUE.toNat < pending.length + (needed req).toNat := by
  have hle := h.length_le
  have hsub : (QUEUE - (n.tail - n.head)).toNat = QUEUE.toNat - pending.length := by
    rw [UInt32.toNat_sub_of_le, h.tail_sub_head]
    rw [UInt32.le_iff_toNat_le, h.tail_sub_head]
    exact hle
  rw [UInt32.lt_iff_toNat_lt, hsub]
  omega

/-- `submit` either refuses and changes nothing, or appends the replies. -/
theorem Holds.submit (h : n.Holds pending) (req : OrderRequest) :
    if QUEUE.toNat < pending.length + (needed req).toNat then n.submit req = (n, false)
    else (n.submit req).2 = true ∧ (n.submit req).1.Holds (pending ++ replies req) := by
  rw [NullRouter.submit]
  simp only [h.room_lt_iff]
  split_ifs with hfull
  · rfl
  · have := length_replies_le req
    exact ⟨rfl, h.foldl_push _ (by omega)⟩

theorem Holds.submit_true (h : n.Holds pending) {req : OrderRequest} {n' : NullRouter}
    (hrun : n.submit req = (n', true)) : n'.Holds (pending ++ replies req) := by
  have hsubmit := h.submit req
  split_ifs at hsubmit with hfull
  · rw [hsubmit] at hrun
    exact absurd (Prod.ext_iff.mp hrun).2 Bool.false_ne_true
  · rw [hrun] at hsubmit
    exact hsubmit.2

/-- An empty queue has nothing to poll. -/
theorem Holds.pop_nil (h : n.Holds []) (tsc : UInt64) : n.pop tsc = none := by
  rw [pop, if_pos]
  simpa using h.tail_eq.symm

/-- `poll` takes the oldest report. -/
theorem Holds.pop_cons {r : ExecReport} (h : n.Holds (r :: pending)) (tsc : UInt64) :
    ∃ n', n.pop tsc = some ({ r with tscRecv := tsc }, n') ∧ n'.Holds pending := by
  have hhead : n.head ≠ n.tail := by
    intro heq
    have hlen := h.tail_sub_head
    rw [heq, sub_self] at hlen
    exact absurd hlen (by simp)
  have hfirst : n.q (slotOf QUEUE n.head) = r := by
    have h0 := h.slots_eq 0 (by simp)
    rwa [show n.head + UInt32.ofNat 0 = n.head from add_zero _] at h0
  have hle := h.length_le
  rw [List.length_cons] at hle
  refine ⟨{ n with
      q := Function.update n.q (slotOf QUEUE n.head) { r with tscRecv := tsc }
      head := n.head + 1 }, by simp only [pop, if_neg hhead, hfirst], ?_, by omega,
    fun i hi => ?_⟩
  · change n.tail = n.head + 1 + UInt32.ofNat pending.length
    rw [add_ofNat_succ, h.tail_eq, List.length_cons]
  · change Function.update n.q (slotOf QUEUE n.head) _
      (slotOf QUEUE (n.head + 1 + UInt32.ofNat i)) = _
    rw [add_ofNat_succ]
    -- stamping the report taken leaves the others as they are
    have hslot : slotOf QUEUE (n.head + UInt32.ofNat (i + 1)) ≠ slotOf QUEUE n.head := by
      intro heq
      have h0 : slotOf QUEUE (n.head + UInt32.ofNat (i + 1)) =
          slotOf QUEUE (n.head + UInt32.ofNat 0) := by
        rwa [show n.head + UInt32.ofNat 0 = n.head from add_zero _]
      have := slotOf_add_inj powerOfTwo_queue n.head (by omega) (by omega) h0
      omega
    rw [Function.update_of_ne hslot, h.slots_eq (i + 1) (by simpa using hi)]
    rfl

end Holds

end NullRouter

end Exec

end LowLatencyPipeline
