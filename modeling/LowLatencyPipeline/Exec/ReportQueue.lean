import LowLatencyPipeline.Exec.Runner

/-!
# The reports of the null router

Runs of `NullRouter::submit` and `NullRouter::poll`. `poll` calls back with one report after the
other, and a callback may submit; `ReportLoop` is the router between two such steps, with the
requests it accepted and the reports it handed out so far.

* **A lossless queue** (`reports_fifo`): what was handed out and what is queued are the replies to
  the accepted requests, in their order, whatever was submitted from where. A request is refused
  exactly when fewer slots are free than its replies need.
* **The slot under way** (`report_kept`): `poll` advances `head` before it calls back with the slot,
  which is the next one but `QUEUE - 1` that `push` writes to. It keeps its report as long as no
  request of the callback takes the last free slot. `report_overwritten` is a callback that does.
-/

namespace LowLatencyPipeline

namespace Exec

open Common Common.SpscRing

namespace NullRouter

/-- The report as it was queued, before `poll` stamped it. -/
def unstamped (rep : ExecReport) : ExecReport := { rep with tscRecv := 0 }

/-- The slots a request is refused for: those of its replies, and one for `CancelAll`. -/
def replyCount (req : OrderRequest) : ℕ :=
  if req.type = .cancelAll then 1 else (replies req).length

/-- The slots that are free. -/
def free (n : NullRouter) : ℕ := (QUEUE - (n.tail - n.head)).toNat

theorem replyCount_eq (req : OrderRequest) : replyCount req = (needed req).toNat := by
  unfold replyCount replies needed
  cases req.type with
  | new =>
    by_cases hrest : req.tif = .ioc ∨ req.tif = .fok
    · simp [hrest]
    · simp [hrest]
  | cancel | replace | cancelAll => simp

/-- Replies are queued without a time of receipt. -/
theorem tscRecv_of_mem_replies {req : OrderRequest} {rep : ExecReport} (h : rep ∈ replies req) :
    rep.tscRecv = 0 := by
  unfold replies at h
  split at h
  · rcases List.mem_cons.1 h with rfl | h
    · rfl
    · split_ifs at h
      · obtain rfl := List.mem_singleton.1 h
        rfl
      · exact absurd h List.not_mem_nil
  · obtain rfl := List.mem_singleton.1 h
    rfl
  · obtain rfl := List.mem_singleton.1 h
    rfl
  · exact absurd h List.not_mem_nil

theorem unstamped_of_mem_replies {req : OrderRequest} {rep : ExecReport} (h : rep ∈ replies req)
    (tsc : UInt64) : unstamped { rep with tscRecv := tsc } = rep := by
  rw [unstamped, ← tscRecv_of_mem_replies h]

section Slots

variable {n : NullRouter} {pending : List ExecReport}

theorem Holds.free (h : n.Holds pending) : n.free = QUEUE.toNat - pending.length := by
  have hle := h.length_le
  rw [NullRouter.free, UInt32.toNat_sub_of_le, h.tail_sub_head]
  rw [UInt32.le_iff_toNat_le, h.tail_sub_head]
  exact hle

theorem foldl_push_head (rs : List ExecReport) : (rs.foldl push n).head = n.head := by
  induction rs generalizing n with
  | nil => rfl
  | cons r rs ih => exact ih

theorem submit_head (req : OrderRequest) : (n.submit req).1.head = n.head := by
  rw [submit]
  split_ifs
  · rfl
  · exact foldl_push_head _

/-- Pushing leaves the slots beyond the last report as they are. -/
theorem Holds.foldl_push_slot (h : n.Holds pending) (rs : List ExecReport) {i : ℕ}
    (hroom : pending.length + rs.length ≤ i) (hi : i < QUEUE.toNat) :
    (rs.foldl NullRouter.push n).q (slotOf QUEUE (n.head + UInt32.ofNat i)) =
      n.q (slotOf QUEUE (n.head + UInt32.ofNat i)) := by
  induction rs generalizing n pending with
  | nil => rfl
  | cons r rs ih =>
    rw [List.length_cons] at hroom
    have hpush : (n.push r).Holds (pending ++ [r]) := h.push (by omega) r
    have hrest := ih hpush (by
      rw [List.length_append, List.length_singleton]
      omega)
    refine hrest.trans ?_
    change Function.update n.q (slotOf QUEUE n.tail) r _ = _
    refine Function.update_of_ne (fun heq => ?_) _ _
    rw [h.tail_eq] at heq
    have := slotOf_add_inj powerOfTwo_queue n.head hi (by omega) heq
    omega

/-- A request that is accepted and leaves a slot free does not write to that slot. -/
theorem Holds.submit_slot (h : n.Holds pending) (req : OrderRequest) {i : ℕ}
    (hroom : pending.length + (replies req).length ≤ i) (hi : i < QUEUE.toNat) :
    (n.submit req).1.q (slotOf QUEUE (n.head + UInt32.ofNat i)) =
      n.q (slotOf QUEUE (n.head + UInt32.ofNat i)) := by
  rw [NullRouter.submit]
  split_ifs
  · rfl
  · exact h.foldl_push_slot _ hroom hi

end Slots

end NullRouter

open NullRouter

/-! ### Runs of submits and polls -/

/-- Where `poll` stands. -/
inductive PollPhase
  /-- not called -/
  | idle
  /-- in `poll`, between two reports -/
  | polling
  /-- in the callback, with the report of a slot -/
  | callback (slot : ℕ) (rep : ExecReport)
  deriving DecidableEq

/-- The router, the requests it accepted and the reports it handed to callbacks. -/
structure ReportLoop where
  router : NullRouter
  phase : PollPhase
  accepted : List OrderRequest
  delivered : List ExecReport

/-- What happens next. -/
inductive LoopStep
  | submit (req : OrderRequest)
  /-- `poll` is called -/
  | poll
  /-- one round of `poll`, at a reading of the TSC -/
  | next (tsc : UInt64)
  /-- the callback returns -/
  | resume

namespace ReportLoop

variable (s : ReportLoop)

/-- `submit`, from outside `poll` or from its callback. -/
def submit (req : OrderRequest) : ReportLoop :=
  let (router, ok) := s.router.submit req
  { s with router, accepted := if ok then s.accepted ++ [req] else s.accepted }

/-- One step. -/
def step : LoopStep → Option ReportLoop
  | .submit req =>
    match s.phase with
    | .polling => none
    | _ => some (s.submit req)
  | .poll =>
    match s.phase with
    | .idle => some { s with phase := .polling }
    | _ => none
  | .next tsc =>
    match s.phase with
    | .polling =>
      match s.router.pop tsc with
      -- the poll ends with the queue empty
      | none => some { s with phase := .idle }
      | some (rep, router) =>
        some { s with
          router
          phase := .callback (slotOf QUEUE s.router.head) rep
          delivered := s.delivered ++ [rep] }
    | _ => none
  | .resume =>
    match s.phase with
    | .callback _ _ => some { s with phase := .polling }
    | _ => none

/-- The reports queued and not yet handed out. -/
def undelivered : ℕ := (s.accepted.flatMap replies).length - s.delivered.length

end ReportLoop

/-- The loop, from a router in which nothing is queued. -/
def reportLoop : Machine ReportLoop LoopStep where
  Init s := s.router.head = s.router.tail ∧ s.phase = .idle ∧ s.accepted = [] ∧ s.delivered = []
  step := ReportLoop.step

theorem reportLoop_step (s : ReportLoop) (a : LoopStep) : reportLoop.step s a = s.step a := rfl

namespace ReportLoop

variable {s t : ReportLoop} {pending : List ExecReport}

/-- **The invariant of the queue.** -/
structure Fifo (s : ReportLoop) (pending : List ExecReport) : Prop where
  holds : s.router.Holds pending
  replies_eq : s.accepted.flatMap replies = s.delivered.map unstamped ++ pending

theorem Fifo.undelivered (h : s.Fifo pending) : s.undelivered = pending.length := by
  rw [ReportLoop.undelivered, h.replies_eq, List.length_append, List.length_map]
  omega

/-- What a submit does. -/
theorem Fifo.submit (h : s.Fifo pending) (req : OrderRequest) :
    (s.submit req).Fifo
      (if (s.router.submit req).2 then pending ++ replies req else pending) := by
  rcases hsubmit : s.router.submit req with ⟨router, ok⟩
  cases ok with
  | false =>
    refine ⟨?_, ?_⟩
    · rw [ReportLoop.submit, hsubmit, NullRouter.submit_refused hsubmit]
      exact h.holds
    · rw [ReportLoop.submit, hsubmit]
      exact h.replies_eq
  | true =>
    refine ⟨?_, ?_⟩
    · rw [ReportLoop.submit, hsubmit]
      exact h.holds.submit_true hsubmit
    · rw [ReportLoop.submit, hsubmit]
      dsimp only
      rw [if_pos rfl, List.flatMap_append, h.replies_eq, List.flatMap_singleton, List.append_assoc]
      rfl

/-- A report on its way out is a reply to an accepted request. -/
theorem Fifo.unstamped_head {rep : ExecReport} (h : s.Fifo (rep :: pending)) (tsc : UInt64) :
    unstamped { rep with tscRecv := tsc } = rep := by
  have hmem : rep ∈ s.accepted.flatMap replies := by rw [h.replies_eq]; simp
  obtain ⟨req, -, hrep⟩ := List.mem_flatMap.1 hmem
  exact unstamped_of_mem_replies hrep tsc

/-- What a round of `poll` does. -/
theorem Fifo.next (h : s.Fifo pending) {tsc : UInt64} (ht : s.step (.next tsc) = some t) :
    (pending = [] ∧ t = { s with phase := .idle }) ∨
    ∃ rep rest, pending = rep :: rest ∧ t.Fifo rest ∧
      t.phase = .callback (slotOf QUEUE s.router.head) { rep with tscRecv := tsc } ∧
      s.router.pop tsc = some ({ rep with tscRecv := tsc }, t.router) := by
  rw [step] at ht
  split at ht
  · cases pending with
    | nil =>
      rw [h.holds.pop_nil] at ht
      exact .inl ⟨rfl, (Option.some.inj ht).symm⟩
    | cons rep rest =>
      obtain ⟨router, hpop, hrest⟩ := h.holds.pop_cons tsc
      rw [hpop] at ht
      obtain rfl := Option.some.inj ht
      refine .inr ⟨rep, rest, rfl, ⟨hrest, ?_⟩, rfl, hpop⟩
      rw [List.map_append, List.map_singleton, h.unstamped_head, List.append_assoc]
      exact h.replies_eq
  · exact absurd ht (by simp)

/-- **The step of the queue.** -/
theorem Fifo.step {a : LoopStep} (h : s.Fifo pending) (ht : s.step a = some t) :
    ∃ pending', t.Fifo pending' := by
  cases a with
  | submit req =>
    rw [ReportLoop.step] at ht
    split at ht
    · exact absurd ht (by simp)
    · exact Option.some.inj ht ▸ ⟨_, h.submit req⟩
  | next tsc =>
    rcases h.next ht with ⟨-, rfl⟩ | ⟨rep, rest, -, hrest, -⟩
    · exact ⟨pending, h.holds, h.replies_eq⟩
    · exact ⟨rest, hrest⟩
  | poll | resume =>
    rw [ReportLoop.step] at ht
    split at ht
    · exact Option.some.inj ht ▸ ⟨pending, h.holds, h.replies_eq⟩
    · exact absurd ht (by simp)

theorem fifo_of_init (h : reportLoop.Init s) : s.Fifo [] := by
  obtain ⟨hempty, -, hacc, hdel⟩ := h
  refine ⟨?_, by rw [hacc, hdel]; rfl⟩
  have hnil : (NullRouter.mk s.router.q s.router.head s.router.head).Holds [] := Holds.nil
  exact ⟨hempty.symm.trans (by simp), hnil.length_le, hnil.slots_eq⟩

theorem fifo_of_reachable (h : reportLoop.Reachable s) : ∃ pending, s.Fifo pending := by
  refine h.invariant (P := fun s => ∃ pending, s.Fifo pending)
    (fun s hs => ⟨[], fifo_of_init hs⟩) ?_
  rintro s a t - - ht ⟨pending, hs⟩
  exact hs.step ht

/-- **The reports are a lossless queue.** In every reachable state what was handed to callbacks and
what is queued are the replies to the accepted requests, in order; when `poll` returns everything
was handed out. A request is refused, and queues nothing, exactly when fewer slots are free than
its replies need, and no submit hands out a report. -/
theorem reports_fifo (h : reportLoop.Reachable s) :
    (∃ pending, s.router.Holds pending ∧
      s.accepted.flatMap replies = s.delivered.map unstamped ++ pending) ∧
    (∀ tsc t, s.step (.next tsc) = some t → t.phase = .idle →
      t.delivered.map unstamped = t.accepted.flatMap replies) ∧
    (∀ req, (s.router.submit req).2 = false ↔
      QUEUE.toNat - s.undelivered < replyCount req) ∧
    (∀ req, (s.router.submit req).2 = false → (s.router.submit req).1 = s.router) ∧
    ∀ req t, s.step (.submit req) = some t → t.delivered = s.delivered ∧ t.phase = s.phase := by
  obtain ⟨pending, hfifo⟩ := fifo_of_reachable h
  refine ⟨⟨pending, hfifo.holds, hfifo.replies_eq⟩, fun tsc t ht hidle => ?_, fun req => ?_,
    fun req hfalse => NullRouter.submit_refused (Prod.ext rfl hfalse), fun req t ht => ?_⟩
  · rcases hfifo.next ht with ⟨rfl, rfl⟩ | ⟨rep, rest, -, -, hphase, -⟩
    · simpa using hfifo.replies_eq.symm
    · exact absurd (hphase.symm.trans hidle) (by simp)
  · have hle := hfifo.holds.length_le
    have hsubmit := hfifo.holds.submit req
    rw [hfifo.undelivered, replyCount_eq]
    split_ifs at hsubmit with hfull
    · rw [hsubmit]
      exact iff_of_true rfl (by omega)
    · rw [hsubmit.1]
      exact iff_of_false (by decide) (by omega)
  · rw [ReportLoop.step] at ht
    split at ht
    · exact absurd ht (by simp)
    · exact Option.some.inj ht ▸ ⟨rfl, rfl⟩

/-- The loop in zero-initialised storage. -/
def zeroed : ReportLoop where
  router := ⟨fun _ => { clOrdId := 0, execType := .ack }, 0, 0⟩
  phase := .idle
  accepted := []
  delivered := []

theorem zeroed_init : reportLoop.Init zeroed := ⟨rfl, rfl, rfl, rfl⟩

/-- A buy order of one lot. -/
def buyOne (id : UInt64) (tif : Tif) : OrderRequest where
  clOrdId := id
  origClOrdId := 0
  tscDecision := 0
  strategyTag := 0
  price := 100
  qty := 1
  instrument := 0
  type := .new
  side := .buy
  ordType := .limit
  tif := tif

/-- An order that cannot rest, and one submitted from the callback of its ack. -/
def callbackRun : List LoopStep :=
  [.submit (buyOne 1 .ioc), .poll, .next 7, .submit (buyOne 2 .gtc)]

theorem reports_fifo_callback :
    ∃ s, reportLoop.exec zeroed callbackRun = some s ∧ ∃ pending, s.router.Holds pending ∧
      s.accepted.flatMap replies = s.delivered.map unstamped ++ pending := by
  have hrun := Option.eq_some_of_isSome
    (show (reportLoop.exec zeroed callbackRun).isSome = true by decide)
  exact ⟨_, hrun, (reports_fifo (Machine.Reachable.exec (.init zeroed_init) _ hrun)).1⟩

/-! ### The slot under way -/

/-- The invariant of a callback: its slot is the one that would be written last. -/
structure UnderWay (s : ReportLoop) (pending : List ExecReport) : Prop extends
    Fifo s pending where
  kept : ∀ slot rep, s.phase = .callback slot rep →
    pending.length < QUEUE.toNat ∧
      slot = slotOf QUEUE (s.router.head + UInt32.ofNat (QUEUE.toNat - 1)) ∧
      s.router.q slot = rep

/-- A request from the callback does not take exactly the slots that are free. -/
def Spares (s : ReportLoop) (a : LoopStep) : Prop :=
  match s.phase, a with
  | .callback _ _, .submit req => (replies req).length ≠ s.router.free
  | _, _ => True

instance (s : ReportLoop) (a : LoopStep) : Decidable (s.Spares a) := by
  unfold Spares
  split <;> infer_instance

theorem pop_eq_some {n n' : NullRouter} {tsc : UInt64} {rep : ExecReport}
    (h : n.pop tsc = some (rep, n')) :
    n'.head = n.head + 1 ∧ n'.q (slotOf QUEUE n.head) = rep := by
  rw [pop] at h
  split_ifs at h
  obtain ⟨rfl, rfl⟩ := Prod.mk.inj (Option.some.inj h)
  exact ⟨rfl, Function.update_self ..⟩

/-- The slot just taken is the last one before `tail` comes round again. -/
theorem slotOf_succ_last (head : UInt32) :
    slotOf QUEUE (head + 1 + UInt32.ofNat (QUEUE.toNat - 1)) = slotOf QUEUE head := by
  rw [add_ofNat_succ, slotOf_add powerOfTwo_queue, slotOf_eq_mod powerOfTwo_queue]
  exact Nat.add_mod_right _ _

/-- A request that is accepted and takes the last free slot overwrites the slot under way. -/
theorem submit_last {n : NullRouter} (h : n.Holds pending) {req : OrderRequest}
    (hok : (n.submit req).2 = true) (hne : replies req ≠ [])
    (hfull : (replies req).length = n.free) :
    (n.submit req).1.q (slotOf QUEUE (n.head + UInt32.ofNat (QUEUE.toNat - 1))) =
      (replies req).getLast hne := by
  have hle := h.length_le
  have hpos := List.length_pos_iff.2 hne
  rw [h.free] at hfull
  have hafter := h.submit_true (Prod.ext rfl hok : n.submit req = (_, true))
  have hlast := hafter.slots_eq (QUEUE.toNat - 1) (by rw [List.length_append]; omega)
  rw [submit_head] at hlast
  rw [hlast, List.getElem_append_right (by omega), List.getLast_eq_getElem]
  congr 1
  omega

theorem UnderWay.submit (h : s.UnderWay pending) {req : OrderRequest}
    (hspares : s.Spares (.submit req)) :
    (s.submit req).UnderWay
      (if (s.router.submit req).2 then pending ++ replies req else pending) := by
  refine ⟨h.toFifo.submit req, fun slot rep hphase => ?_⟩
  obtain ⟨hlt, hslot, hrep⟩ := h.kept slot rep hphase
  have hcallback : s.phase = .callback slot rep := hphase
  simp only [Spares, hcallback] at hspares
  rw [h.holds.free] at hspares
  have hhead : (s.submit req).router.head = s.router.head := submit_head req
  rw [hhead]
  have hle := (h.toFifo.submit req).holds.length_le
  rcases hsubmit : s.router.submit req with ⟨router, ok⟩
  cases ok with
  | false =>
    refine ⟨hlt, hslot, ?_⟩
    rw [ReportLoop.submit, hsubmit, NullRouter.submit_refused hsubmit]
    exact hrep
  | true =>
    rw [hsubmit] at hle
    dsimp only at hle ⊢
    rw [if_pos rfl, List.length_append] at hle
    rw [if_pos rfl, List.length_append]
    refine ⟨by omega, hslot, ?_⟩
    have hkept := h.holds.submit_slot req (i := QUEUE.toNat - 1) (by omega) (by decide)
    rw [← hslot] at hkept
    exact hkept.trans hrep

theorem UnderWay.next (h : s.UnderWay pending) {tsc : UInt64} (ht : s.step (.next tsc) = some t) :
    ∃ pending', t.UnderWay pending' := by
  rcases h.toFifo.next ht with ⟨-, rfl⟩ | ⟨rep, rest, rfl, hrest, hphase, hpop⟩
  · exact ⟨pending, ⟨h.holds, h.replies_eq⟩, by simp⟩
  · refine ⟨rest, hrest, fun slot rep' hphase' => ?_⟩
    obtain ⟨hhead, hslot⟩ := pop_eq_some hpop
    obtain ⟨rfl, rfl⟩ := PollPhase.callback.inj (hphase.symm.trans hphase')
    have hle := h.holds.length_le
    rw [List.length_cons] at hle
    refine ⟨by omega, ?_, hslot⟩
    rw [hhead, slotOf_succ_last]

theorem underWay_of_init (h : reportLoop.Init s) : s.UnderWay [] := by
  refine ⟨fifo_of_init h, fun slot rep hphase => ?_⟩
  exact absurd (h.2.1.symm.trans hphase) (by simp)

theorem underWay_of_reachable (h : reportLoop.ReachableWhen Spares s) :
    ∃ pending, s.UnderWay pending := by
  refine h.invariant (P := fun s => ∃ pending, s.UnderWay pending)
    (fun s hs => ⟨[], underWay_of_init hs⟩) ?_
  rintro s a t - hspares ht ⟨pending, hs⟩
  rw [reportLoop_step] at ht
  cases a with
  | submit req =>
    rw [ReportLoop.step] at ht
    split at ht
    · exact absurd ht (by simp)
    · exact Option.some.inj ht ▸ ⟨_, hs.submit hspares⟩
  | next tsc => exact hs.next ht
  | poll | resume =>
    rw [ReportLoop.step] at ht
    split at ht
    · exact Option.some.inj ht ▸ ⟨pending, ⟨hs.holds, hs.replies_eq⟩, by simp⟩
    · exact absurd ht (by simp)

/-- The condition is exact: a request that is accepted keeps a report with a time of receipt iff it
leaves a slot free. -/
theorem submit_keeps_iff (h : reportLoop.ReachableWhen Spares s) {slot : ℕ} {rep : ExecReport}
    (hphase : s.phase = .callback slot rep) (hrecv : rep.tscRecv ≠ 0) {req : OrderRequest}
    (hok : (s.router.submit req).2 = true) :
    (s.submit req).router.q slot = rep ↔ s.Spares (.submit req) := by
  obtain ⟨pending, hs⟩ := underWay_of_reachable h
  obtain ⟨hlt, hslot, -⟩ := hs.kept slot rep hphase
  constructor
  · intro hkept
    simp only [Spares, hphase]
    intro hfull
    have hne : replies req ≠ [] := by
      rintro hnil
      rw [hnil, hs.holds.free, List.length_nil] at hfull
      omega
    have hlast := submit_last hs.holds hok hne hfull
    rw [← hslot] at hlast
    have hzero := tscRecv_of_mem_replies (List.getLast_mem hne)
    rw [← hlast] at hzero
    exact hrecv (hkept ▸ hzero)
  · intro hspares
    exact ((hs.submit hspares).kept slot rep hphase).2.2

/-- **A report is kept while it is handled**, as long as no request of the callback takes exactly
the free slots. -/
theorem report_kept (h : reportLoop.ReachableWhen Spares s) {slot : ℕ} {rep : ExecReport}
    (hphase : s.phase = .callback slot rep) : s.router.q slot = rep := by
  obtain ⟨pending, hs⟩ := underWay_of_reachable h
  exact (hs.kept slot rep hphase).2.2

theorem report_kept_callback :
    ∃ s, reportLoop.execWhen Spares zeroed callbackRun = some s ∧
      s.router.q 0 = { reportOf (buyOne 1 .ioc) .ack .new 1 with tscRecv := 7 } := by
  have hphase : (reportLoop.execWhen Spares zeroed callbackRun).map (·.phase) =
      some (.callback 0 { reportOf (buyOne 1 .ioc) .ack .new 1 with tscRecv := 7 }) := by decide
  obtain ⟨s, hrun, hs⟩ := Option.map_eq_some_iff.1 hphase
  exact ⟨s, hrun, report_kept (Machine.ReachableWhen.execWhen (.init zeroed_init) _ hrun) hs⟩

/-! ### A callback that overwrites its report -/

/-- Whether the slot under way holds its report. -/
def slotKept (s : ReportLoop) : Bool :=
  match s.phase with
  | .callback slot rep => s.router.q slot = rep
  | _ => true

/-- 512 IOC orders fill the queue; the callback of their first report submits one order more. -/
def fullRun : List LoopStep :=
  List.replicate 512 (.submit (buyOne 1 .ioc)) ++ [.poll, .next 7, .submit (buyOne 2 .gtc)]

/-- **A report overwritten while it is handled**: not every reachable state keeps the report. -/
theorem report_overwritten :
    ¬ ∀ s, reportLoop.Reachable s → ∀ slot rep, s.phase = .callback slot rep →
      s.router.q slot = rep := by
  intro hall
  have hrun : (reportLoop.exec zeroed fullRun).map slotKept = some false := by decide +kernel
  obtain ⟨s, hs, hkept⟩ := Option.map_eq_some_iff.1 hrun
  have hreach := Machine.Reachable.exec (.init zeroed_init) fullRun hs
  cases hphase : s.phase with
  | idle | polling => simp [slotKept, hphase] at hkept
  | callback slot rep =>
    rw [slotKept, hphase] at hkept
    exact absurd (hall s hreach slot rep hphase) (by simpa using hkept)

end ReportLoop

/-! ### Exec's loop as a run of submits and polls -/

/-- Where `poll` stands in the hot loop. -/
def Phase.PollsAt : Phase → PollPhase → Prop
  | .poll _, p => p = .polling
  | .onExec _, p => ∃ slot rep, p = .callback slot rep
  | _, p => p = .idle

namespace Runner

variable {s₀ s t : Runner}

/-- A run of submits and polls with the router of the hot loop. -/
structure Runs (s : Runner) (l : ReportLoop) : Prop where
  reachable : reportLoop.Reachable l
  router : l.router = s.router
  phase : s.phase.PollsAt l.phase

theorem submits_reachable {l : ReportLoop} (h : reportLoop.Reachable l)
    (hphase : l.phase ≠ .polling) (reqs : List OrderRequest) :
    ∃ l', reportLoop.Reachable l' ∧ l'.phase = l.phase ∧
      l'.router = reqs.foldl (fun n req => (Router.submit n req).1) l.router := by
  induction reqs generalizing l with
  | nil => exact ⟨l, h, rfl, rfl⟩
  | cons req reqs ih =>
    have hstep : reportLoop.step l (.submit req) = some (l.submit req) := by
      rw [reportLoop_step, ReportLoop.step]
      split
      · exact absurd ‹_› hphase
      · rfl
    exact ih (.step h trivial hstep) hphase

theorem Runs.ne_polling {l : ReportLoop} (h : s.Runs l) (hcallback : s.phase.InCallback) :
    l.phase ≠ .polling := by
  have hphase := h.phase
  intro hpolling
  rw [hpolling] at hphase
  cases hs : s.phase <;> rw [hs] at hphase hcallback <;>
    simp [Phase.PollsAt, Phase.InCallback] at hphase hcallback

/-- The steps that leave the router alone. -/
theorem Runs.idle {l : ReportLoop} (h : s.Runs l) (hrouter : t.router = s.router)
    (hphase : t.phase.PollsAt l.phase) : t.Runs l :=
  ⟨h.reachable, h.router.trans hrouter.symm, hphase⟩

theorem Runs.resume {l : ReportLoop} (h : s.Runs l) {phase : Phase}
    (hresume : s.phase.resume = some phase) : ∃ l', Runs { s with phase } l' := by
  have hphase := h.phase
  cases hs : s.phase with
  | onExec next =>
    rw [hs] at hphase hresume
    obtain ⟨slot, rep, hl⟩ := hphase
    obtain rfl := Option.some.inj hresume
    refine ⟨{ l with phase := .polling }, .step (a := .resume) h.reachable trivial ?_,
      h.router, rfl⟩
    rw [reportLoop_step, ReportLoop.step, hl]
  | tick draining =>
    rw [hs] at hphase hresume
    cases draining with
    | false | true =>
      obtain rfl := Option.some.inj hresume
      exact ⟨l, h.idle rfl hphase⟩
  | start | timer =>
    rw [hs] at hphase hresume
    obtain rfl := Option.some.inj hresume
    exact ⟨l, h.idle rfl hphase⟩
  | top | drain | poll | feed | tickStart | done =>
    rw [hs] at hresume
    exact absurd hresume (by simp [Phase.resume])

/-- `poll` is called. -/
theorem Runs.poll {l : ReportLoop} (h : s.Runs l) (hidle : l.phase = .idle) (x : ExecContext)
    (next : AfterPoll) : ∃ l', Runs ⟨⟨x, s.router⟩, .poll next⟩ l' := by
  refine ⟨{ l with phase := .polling }, .step (a := .poll) h.reachable trivial ?_, h.router, rfl⟩
  rw [reportLoop_step, ReportLoop.step, hidle]

/-- A round of `poll` that finds the queue empty. -/
theorem Runs.polled {l : ReportLoop} (h : s.Runs l) {next : AfterPoll} (hl : l.phase = .polling)
    (hpop : s.router.pop s.x.tsc = none) : ∃ l', Runs (s.afterPoll next) l' := by
  have hround : reportLoop.step l (.next s.x.tsc) = some { l with phase := .idle } := by
    rw [reportLoop_step, ReportLoop.step, hl]
    dsimp only
    rw [h.router, hpop]
  refine ⟨_, .step h.reachable trivial hround, ?_, ?_⟩
  · cases next <;> exact h.router
  · cases next <;> rfl

/-- A round of `poll` that takes a report. -/
theorem Runs.report {l : ReportLoop} (h : s.Runs l) {rep : ExecReport} {router : NullRouter}
    (hl : l.phase = .polling) (hpop : s.router.pop s.x.tsc = some (rep, router))
    (x : ExecContext) (next : AfterPoll) : ∃ l', Runs ⟨⟨x, router⟩, .onExec next⟩ l' := by
  have hround : reportLoop.step l (.next s.x.tsc) = some ⟨router,
      .callback (slotOf QUEUE l.router.head) rep, l.accepted, l.delivered ++ [rep]⟩ := by
    rw [reportLoop_step, ReportLoop.step, hl]
    dsimp only
    rw [h.router, hpop]
  exact ⟨_, .step h.reachable trivial hround, rfl, _, _, rfl⟩

/-- **The step of the refinement.** -/
theorem Runs.step {l : ReportLoop} (h : s.Runs l) {a : RunStep} (ht : s.step a = some t) :
    ∃ l', t.Runs l' := by
  have hphase := h.phase
  cases step_effect ht with
  | clock tsc wallNs => exact ⟨l, h.idle rfl hphase⟩
  | call a hcallback htyped =>
    obtain ⟨reqs, hreqs⟩ := s.toStrategyContext.call_router a
    obtain ⟨l', hreach, hphase', hrouter⟩ :=
      submits_reachable h.reachable (h.ne_polling hcallback) reqs
    refine ⟨l', hreach, ?_, ?_⟩
    · rw [hrouter, h.router]
      exact hreqs.symm
    · rw [hphase']
      exact hphase
  | resume phase hresume => exact h.resume hresume
  | control flags shutdown phase hs hto =>
    rw [hs] at hphase
    split_ifs at hto
    · exact ⟨l, h.idle rfl (hto ▸ hphase)⟩
    · exact ⟨l, h.idle rfl (hto ▸ hphase)⟩
    · exact hto ▸ h.poll hphase _ _
  | frame u hs => exact ⟨l, h.idle rfl (by rwa [hs] at hphase)⟩
  | noFrame hs => exact ⟨l, h.idle rfl (by rwa [hs] at hphase)⟩
  | drained u hs =>
    rw [hs] at hphase
    exact h.poll hphase _ _
  | polled next hs hpop =>
    rw [hs] at hphase
    exact h.polled hphase hpop
  | report next rep router hs hpop =>
    rw [hs] at hphase
    exact h.report hphase hpop _ _
  | tick draining hs => exact ⟨l, h.idle rfl (by rwa [hs] at hphase)⟩

/-- **The hot loop runs the router as submits and polls**: every reachable state of exec with the
null router, from `on_start` with nothing queued, has the router of a reachable state of the
loop. -/
theorem runs_of_reachable (hstart : s₀.phase = .start) (hempty : s₀.router.head = s₀.router.tail)
    (h : (runner s₀).Reachable s) : ∃ l, s.Runs l := by
  refine h.invariant (P := fun s => ∃ l, s.Runs l) ?_ ?_
  · rintro s rfl
    exact ⟨⟨s.router, .idle, [], []⟩, .init ⟨hempty, rfl, rfl, rfl⟩, rfl, by rw [hstart]; rfl⟩
  · rintro s a t - - ht ⟨l, hl⟩
    exact hl.step ht

end Runner

end Exec

end LowLatencyPipeline
