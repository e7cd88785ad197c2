import LowLatencyPipeline.Exec.NullMode

/-!
# Leaving nothing resting

When `run_null` returns, `exec_main` cancels every order and polls the router until the table is
empty or no report is left. `cancel_all` asks for one cancel after another, in the order of the
dense rows, and the null router refuses those that its queue has no room for: the table holds
2048 orders, the queue 1024 reports, and reports of the strategy's last requests may still lie in
it. `exit_clears` says exactly when nothing is left: each order's last report is queued already,
or its cancel finds room. `left_resting` is a run of 513 orders after which two stay.
-/

namespace LowLatencyPipeline

namespace Exec

open Common Common.SpscRing

namespace StrategyContext

/-- `poll` with `apply_report`, for at most so many reports. -/
def poll : ℕ → StrategyContext NullRouter → StrategyContext NullRouter
  | 0, c => c
  | n + 1, c =>
    match c.router.pop c.x.tsc with
    | none => c
    | some (rep, router) => poll n ⟨c.x.applyReport rep, router⟩

/-- What `exec_main` does after `run_null`: cancel everything and wait for the reports. One call of
`poll` takes all that are queued, and applying a report queues none. -/
def cancelAndWait (c : StrategyContext NullRouter) : StrategyContext NullRouter :=
  let c := c.cancelAll
  if c.x.orders.size = 0 then c else c.poll (c.router.tail - c.router.head).toNat

end StrategyContext

namespace NullRouter

/-- The reports in the queue, oldest first. -/
def queued (n : NullRouter) : List ExecReport :=
  (List.range (n.tail - n.head).toNat).map fun i => n.q (slotOf QUEUE (n.head + UInt32.ofNat i))

/-- How many more reports the queue takes. -/
def room (n : NullRouter) : ℕ := QUEUE.toNat - n.queued.length

theorem Holds.queued_eq {n : NullRouter} {pending : List ExecReport} (h : n.Holds pending) :
    n.queued = pending := by
  refine List.ext_getElem ?_ fun i hi hi' => ?_
  · rw [queued, List.length_map, List.length_range, h.tail_sub_head]
  · simp only [queued, List.getElem_map, List.getElem_range]
    exact h.slots_eq i hi'

/-- A request of one reply. -/
theorem Holds.submit_one {n : NullRouter} {pending : List ExecReport} (h : n.Holds pending)
    {req : OrderRequest} (hone : needed req = 1) :
    if pending.length < QUEUE.toNat then
      ∃ n', n.submit req = (n', true) ∧ n'.Holds (pending ++ replies req)
    else n.submit req = (n, false) := by
  have hsubmit := h.submit req
  rw [hone, show UInt32.toNat 1 = 1 from rfl] at hsubmit
  split_ifs with hlt
  · rw [if_neg (by omega)] at hsubmit
    exact ⟨_, Prod.ext rfl hsubmit.1, hsubmit.2⟩
  · rwa [if_pos (by omega)] at hsubmit

end NullRouter

/-- `cancel` asks the router about this order. -/
def OrderTable.unasked (t : OrderTable) (id : UInt64) : Bool :=
  (t.find id).any fun r => !r.pendingCancel

/-- The order's last report is in the queue. -/
def Ending (pending : List ExecReport) (id : UInt64) : Prop :=
  ∃ rep ∈ pending, rep.clOrdId = id ∧ Ends rep

/-- **When nothing is left**: each order's last report is queued, or the order is among the first
for which `cancel_all` finds room in the queue. -/
def StrategyContext.Clears (c : StrategyContext NullRouter) : Prop :=
  ∀ r ∈ c.x.orders.rows, Ending c.router.queued r.id ∨
    r.id ∈ (c.x.orders.ids.filter c.x.orders.unasked).take c.router.room

/-! ### `cancel_all` -/

section CancelAll

variable {a₀ : Account} {c c' : StrategyContext NullRouter} {pending : List ExecReport}

/-- A cancel of a live order is asked for already, or finds room, or finds none. -/
theorem Settling.cancel_live (h : Settling a₀ c pending) {row : OrderRow}
    {rest : Multiset OrderRow} (hrows : c.x.orders.rows = row ::ₘ rest) :
    if row.pendingCancel then (c.cancel row.id).1 = c
    else if pending.length < NullRouter.QUEUE.toNat then
      ∃ rep, rep.execType = .canceled ∧ rep.clOrdId = row.id ∧
        Settling a₀ (c.cancel row.id).1 (pending ++ [rep]) ∧
        (c.cancel row.id).1.x.orders.rows = setPendingCancel.run row ::ₘ rest
    else Settling a₀ (c.cancel row.id).1 pending ∧
      (c.cancel row.id).1.x.orders.rows = c.x.orders.rows := by
  have hfind := OrderTable.find_eq_some.2 ⟨OrderTable.mem_rows_of_cons hrows, rfl⟩
  -- a cancel is answered by one report
  have hone : NullRouter.needed (c.x.rowRequest row .cancel row.px row.leaves) = 1 :=
    if_neg fun hnew => absurd hnew.1 (by simp [ExecContext.rowRequest])
  have hsubmit := h.holds.submit_one hone
  obtain ⟨pending', hsettling⟩ := h.cancel row.id
  have heffect := c.cancel_effect row.id
  generalize (c.cancel row.id).1 = c' at heffect hsettling ⊢
  cases heffect with
  | kept hkept => rw [if_pos (hkept row hfind)]
  | unsent row' router hfind' hpending hrouter =>
    obtain rfl := Option.some_injective _ (hfind.symm.trans hfind')
    -- the router refuses only where the queue is full
    have hroom : ¬ pending.length < NullRouter.QUEUE.toNat := fun hlt => by
      rw [if_pos hlt] at hsubmit
      obtain ⟨n', hrun, -⟩ := hsubmit
      exact absurd (Prod.ext_iff.1 (hrouter.symm.trans hrun)).2 Bool.false_ne_true
    obtain rfl := NullRouter.submit_refused hrouter
    obtain rfl : pending' = pending := by
      rw [← hsettling.holds.queued_eq, ← h.holds.queued_eq]
    rw [if_neg (Bool.eq_false_iff.1 hpending), if_neg hroom]
    exact ⟨hsettling, rfl⟩
  | sent row' rest' orders rate router hid hrows' hpending hrouter horders =>
    obtain rfl := OrderTable.eq_of_id_eq (OrderTable.mem_rows_of_cons hrows)
      (OrderTable.mem_rows_of_cons hrows') hid.symm
    have hroom : pending.length < NullRouter.QUEUE.toNat := by
      by_contra hfull
      rw [if_neg hfull] at hsubmit
      exact absurd (Prod.ext_iff.1 (hsubmit.symm.trans hrouter)).2 Bool.false_ne_true
    obtain rfl : pending' = pending ++ NullRouter.replies
        (c.x.rowRequest row .cancel row.px row.leaves) := by
      rw [← hsettling.holds.queued_eq, ← (h.holds.submit_true hrouter).queued_eq]
    rw [if_neg (Bool.eq_false_iff.1 hpending), if_pos hroom]
    exact ⟨_, rfl, rfl, hsettling, horders ▸ OrderTable.modify_rows hrows _⟩

/-- A cancel moves no row. -/
theorem cancel_row_id (c : StrategyContext NullRouter) (id : UInt64) (i : ℕ) :
    ((c.cancel id).1.x.orders.row i).id = (c.x.orders.row i).id := by
  have heffect := c.cancel_effect id
  generalize (c.cancel id).1 = c' at heffect ⊢
  cases heffect with
  | kept | unsent => rfl
  | sent row rest orders rate router hid hrows hpending hrouter horders =>
    change (orders.row i).id = _
    rw [horders, OrderTable.modify_row_id]

/-- `cancel_all` goes through the ids that the rows had at its start. -/
theorem cancelAll_eq (c : StrategyContext NullRouter) :
    c.cancelAll = c.x.orders.ids.foldl (fun c id => (c.cancel id).1) c := by
  have hfold (is : List ℕ) : ∀ c : StrategyContext NullRouter,
      is.foldl (fun c i => (c.cancel (c.x.orders.row i).id).1) c =
        (is.map fun i => (c.x.orders.row i).id).foldl (fun c id => (c.cancel id).1) c := by
    induction is with
    | nil => exact fun _ => rfl
    | cons i is ih =>
      intro c
      rw [List.foldl_cons, ih, List.map_cons, List.foldl_cons]
      congr 1
      exact List.map_congr_left fun j _ => cancel_row_id c _ j
  exact hfold _ c

/-- **The cancels that find room**: those of the first ids that are not asked for yet. -/
theorem Settling.cancels (ids : List UInt64) (hnodup : ids.Nodup) (h : Settling a₀ c pending)
    (hlive : ∀ id ∈ ids, ∃ r ∈ c.x.orders.rows, r.id = id) :
    ∃ reps, Settling a₀ (ids.foldl (fun c id => (c.cancel id).1) c) (pending ++ reps) ∧
      (∀ rep ∈ reps, rep.execType = .canceled) ∧
      reps.map ExecReport.clOrdId =
        (ids.filter c.x.orders.unasked).take (NullRouter.QUEUE.toNat - pending.length) ∧
      (ids.foldl (fun c id => (c.cancel id).1) c).x.orders.rows.map OrderRow.id =
        c.x.orders.rows.map OrderRow.id := by
  induction ids generalizing c pending with
  | nil => exact ⟨[], by rwa [List.append_nil], by simp, by simp, rfl⟩
  | cons id ids ih =>
    obtain ⟨hnot, hnodup'⟩ := List.nodup_cons.1 hnodup
    obtain ⟨row, hrow, rfl⟩ := hlive id List.mem_cons_self
    obtain ⟨rest, hrows⟩ := Multiset.exists_cons_of_mem hrow
    have hunasked : c.x.orders.unasked row.id = !row.pendingCancel := by
      rw [OrderTable.unasked, OrderTable.find_eq_some.2 ⟨hrow, rfl⟩, Option.any_some]
    have hcancel := h.cancel_live hrows
    rw [List.foldl_cons, List.filter_cons, hunasked]
    split_ifs at hcancel with hpending hroom
    · -- asked for already
      rw [hcancel, hpending]
      exact ih hnodup' h fun id hid => hlive id (List.mem_cons_of_mem _ hid)
    · -- there is room
      obtain ⟨rep, htype, hid, hsettling, hrows'⟩ := hcancel
      have hlive' (id : UInt64) (hmem : id ∈ ids) :
          ∃ r ∈ (c.cancel row.id).1.x.orders.rows, r.id = id := by
        obtain ⟨r, hr, hrid⟩ := hlive id (List.mem_cons_of_mem _ hmem)
        rw [hrows']
        rcases Multiset.mem_cons.1 (hrows ▸ hr) with rfl | hr
        · exact ⟨_, Multiset.mem_cons_self _ _, hrid⟩
        · exact ⟨r, Multiset.mem_cons_of_mem hr, hrid⟩
      obtain ⟨reps, hfold, htypes, hmap, hids⟩ := ih hnodup' hsettling hlive'
      -- a cancel changes the flag of its own row only
      have hsame : ids.filter (c.cancel row.id).1.x.orders.unasked =
          ids.filter c.x.orders.unasked := by
        refine List.filter_congr fun id hmem => ?_
        have hne : id ≠ row.id := fun heq => hnot (heq ▸ hmem)
        rw [OrderTable.unasked, OrderTable.unasked, OrderTable.find_congr fun r hrid => ?_]
        rw [hrows', hrows, Multiset.mem_cons, Multiset.mem_cons]
        refine or_congr_left ⟨?_, ?_⟩
        · rintro rfl
          exact absurd hrid.symm hne
        · rintro rfl
          exact absurd hrid.symm hne
      refine ⟨rep :: reps, ?_, ?_, ?_, ?_⟩
      · rwa [List.append_assoc] at hfold
      · rintro rep' (_ | ⟨_, hmem⟩)
        · exact htype
        · exact htypes rep' hmem
      · rw [List.map_cons, hmap, hsame, hid, List.length_append, List.length_singleton,
          Bool.eq_false_iff.2 hpending, Bool.not_false, if_pos rfl, ← List.take_succ_cons]
        congr 1
        omega
      · rw [hids, hrows', hrows, Multiset.map_cons, Multiset.map_cons]
        rfl
    · -- the queue is full
      obtain ⟨hsettling, hrows'⟩ := hcancel
      obtain ⟨reps, hfold, htypes, hmap, hids⟩ := ih hnodup' hsettling fun id hmem =>
        hrows' ▸ hlive id (List.mem_cons_of_mem _ hmem)
      have hzero : NullRouter.QUEUE.toNat - pending.length = 0 := by omega
      rw [hzero, List.take_zero] at hmap
      refine ⟨reps, hfold, htypes, ?_, hids.trans (congrArg _ hrows')⟩
      rw [hzero, List.take_zero, hmap]

end CancelAll

/-! ### The poll -/

section Poll

variable {a₀ : Account} {c : StrategyContext NullRouter} {pending : List ExecReport}

/-- In null mode a report drops the order it ends, and keeps every other one. -/
theorem Settling.ids_report (h : Settling a₀ c pending) {rep rep' : ExecReport}
    (hrep : rep ∈ pending) (htype : rep'.execType = rep.execType) (id : UInt64) :
    (∃ r ∈ (c.x.applyReport rep').orders.rows, r.id = id) ↔
      (∃ r ∈ c.x.orders.rows, r.id = id) ∧ ¬ (rep'.clOrdId = id ∧ Ends rep) := by
  -- what still lies in the queue is an ack, a replacement or an order's last report
  have hends (row : OrderRow) : c.x.rowAfter row rep' = none ↔ Ends rep := by
    unfold ExecContext.rowAfter Ends
    rw [htype]
    rcases h.answers rep hrep with hack | hreplaced | hcanceled | hexpired
    · simp [hack]
    · simp [hreplaced]
    · simp [hcanceled]
    · simp [hexpired]
  constructor
  · rintro ⟨r, hr, rfl⟩
    rcases mem_rows_applyReport hr with ⟨hr, hne⟩ | ⟨row, hfind, hafter⟩
    · exact ⟨⟨r, hr, rfl⟩, fun hended => hne hended.1.symm⟩
    · obtain ⟨hrow, -⟩ := OrderTable.find_eq_some.1 hfind
      refine ⟨⟨row, hrow, (id_rowAfter hafter).symm⟩, fun hended => ?_⟩
      rw [(hends row).2 hended.2] at hafter
      exact nomatch hafter
  · rintro ⟨⟨r, hr, rfl⟩, hnot⟩
    obtain ⟨rest, hrows⟩ := Multiset.exists_cons_of_mem hr
    by_cases hid : rep'.clOrdId = r.id
    · have hfind : c.x.orders.find rep'.clOrdId = some r :=
        OrderTable.find_eq_some.2 ⟨hr, hid.symm⟩
      -- the row outlives a report that does not end it
      obtain ⟨row', hafter⟩ := Option.ne_none_iff_exists'.1 fun hnone =>
        hnot ⟨hid, (hends r).1 hnone⟩
      exact ⟨row', rowAfter_mem hfind hafter, id_rowAfter hafter⟩
    · refine ⟨r, ?_, rfl⟩
      cases hfind : c.x.orders.find rep'.clOrdId with
      | none => rwa [rows_applyReport_unknown hfind]
      | some row =>
        obtain ⟨hrowid, rest', hrows'⟩ := OrderTable.exists_rows_eq_cons hfind
        have hmem : r ∈ rest' := by
          rw [hrows'] at hr
          refine (Multiset.mem_cons.1 hr).resolve_left ?_
          rintro rfl
          exact hid hrowid.symm
        rw [rows_applyReport hfind hrows']
        cases c.x.rowAfter row rep' with
        | none => exact hmem
        | some row' => exact Multiset.mem_cons_of_mem hmem

/-- **The poll** takes every report, and leaves the orders of which none was the last. -/
theorem Settling.poll (h : Settling a₀ c pending) :
    Settling a₀ (c.poll pending.length) [] ∧
      ∀ id, (∃ r ∈ (c.poll pending.length).x.orders.rows, r.id = id) ↔
        (∃ r ∈ c.x.orders.rows, r.id = id) ∧ ¬ Ending pending id := by
  induction pending generalizing c with
  | nil => exact ⟨h, fun id => by simp [Ending, StrategyContext.poll]⟩
  | cons rep pending ih =>
    obtain ⟨router, hpop, hholds⟩ := h.holds.pop_cons c.x.tsc
    obtain ⟨hsettling, hids⟩ := ih (h.report hholds c.x.tsc)
    have hpoll : c.poll (rep :: pending).length =
        StrategyContext.poll pending.length ⟨c.x.applyReport { rep with tscRecv := c.x.tsc },
          router⟩ := by
      rw [List.length_cons, StrategyContext.poll, hpop]
    have htype : ({ rep with tscRecv := c.x.tsc } : ExecReport).execType = rep.execType := rfl
    have hreport := h.ids_report List.mem_cons_self htype
    rw [hpoll]
    refine ⟨hsettling, fun id => (hids id).trans ?_⟩
    rw [show (∃ r ∈ (c.x.applyReport { rep with tscRecv := c.x.tsc }).orders.rows, r.id = id) ↔ _
      from hreport id, and_assoc, ← not_or]
    simp [Ending]

theorem ending_append {reps : List ExecReport} {id : UInt64}
    (hreps : ∀ rep ∈ reps, rep.execType = .canceled) :
    Ending (pending ++ reps) id ↔ Ending pending id ∨ id ∈ reps.map ExecReport.clOrdId := by
  simp only [Ending, List.mem_append, List.mem_map]
  constructor
  · rintro ⟨rep, hrep | hrep, hid, hends⟩
    · exact .inl ⟨rep, hrep, hid, hends⟩
    · exact .inr ⟨rep, hrep, hid⟩
  · rintro (⟨rep, hrep, hid, hends⟩ | ⟨rep, hrep, hid⟩)
    · exact ⟨rep, .inl hrep, hid, hends⟩
    · exact ⟨rep, .inr hrep, hid, .inl (hreps rep hrep)⟩

/-- **The exit sequence** ends with an empty table or an empty queue, and with an empty table
exactly where `Clears` says so. -/
theorem Settling.cancelAndWait (h : Settling a₀ c pending) :
    ∃ pending', Settling a₀ c.cancelAndWait pending' ∧
      (c.cancelAndWait.x.orders.rows = 0 ∨ pending' = []) ∧
      (c.cancelAndWait.x.orders.rows = 0 ↔ c.Clears) := by
  obtain ⟨reps, hcancelled, hreps, hroom, hids⟩ :=
    h.cancels c.x.orders.ids c.x.orders.nodup_ids fun id => OrderTable.mem_ids.1
  rw [← cancelAll_eq] at hcancelled hids
  have hsame (id : UInt64) : (∃ r ∈ c.cancelAll.x.orders.rows, r.id = id) ↔
      ∃ r ∈ c.x.orders.rows, r.id = id := by
    rw [← Multiset.mem_map, hids, Multiset.mem_map]
  rw [StrategyContext.cancelAndWait]
  split_ifs with hsize
  · -- the table was empty to begin with, and the loop does not poll
    have hrows : c.cancelAll.x.orders.rows = 0 := by
      rwa [OrderTable.size_eq, Multiset.card_eq_zero] at hsize
    refine ⟨_, hcancelled, .inl hrows, iff_of_true hrows fun r hr => ?_⟩
    obtain ⟨r', hr', -⟩ := (hsame r.id).2 ⟨r, hr, rfl⟩
    exact absurd (hrows ▸ hr') (Multiset.notMem_zero r')
  · obtain ⟨hsettling, hleft⟩ := hcancelled.poll
    rw [hcancelled.holds.tail_sub_head]
    refine ⟨_, hsettling, .inr rfl, ?_⟩
    -- the cancels sent are the first for which the queue had room
    have hroom' : (c.x.orders.ids.filter c.x.orders.unasked).take c.router.room =
        reps.map ExecReport.clOrdId := by
      rw [hroom, NullRouter.room, h.holds.queued_eq]
    simp only [StrategyContext.Clears, hroom', h.holds.queued_eq, ← ending_append hreps]
    constructor
    · intro hnone r hr
      by_contra hnot
      obtain ⟨r', hr', -⟩ := (hleft r.id).2 ⟨(hsame r.id).2 ⟨r, hr, rfl⟩, hnot⟩
      exact absurd (hnone ▸ hr') (Multiset.notMem_zero r')
    · intro hends
      refine Multiset.eq_zero_of_forall_notMem fun r' hr' => ?_
      obtain ⟨hlive, hnot⟩ := (hleft r'.id).1 ⟨r', hr', rfl⟩
      obtain ⟨r, hr, hid⟩ := (hsame r'.id).1 hlive
      exact hnot (hid ▸ hends r hr)

end Poll

section Runs

variable {s₀ s : Runner}

/-- The invariant of null mode in every reachable state. -/
theorem exists_settling (hs₀ : s₀.Fresh) (hs : (runner s₀).ReachableWhen Runner.IdsLeft s) :
    ∃ pending, Settling s₀.x.account s.toStrategyContext pending := by
  obtain ⟨pending, hset, -⟩ := hs.invariant (P := fun s => s.Ok s₀.x.account)
    (fun s (hs : s = s₀) => hs ▸ hs₀.ok) fun s a t _ hids hstep h => h.step hids hstep
  exact ⟨pending, hset⟩

instance (pending : List ExecReport) (id : UInt64) : Decidable (Ending pending id) :=
  inferInstanceAs (Decidable (∃ rep ∈ pending, rep.clOrdId = id ∧ (_ ∨ _)))

instance (c : StrategyContext NullRouter) : Decidable c.Clears :=
  inferInstanceAs (Decidable (∀ r ∈ c.x.orders.rows, _ ∨ _))

/-- `on_start` buys a lot, and a swap ends the run before the ack is polled. -/
def swapRun : List RunStep := [.call (.submit .buy 100 1 .gtc .limit), .resume, .control SWAP false]

end Runs

/-! ### More orders than the queue has room for -/

/-- In `on_start`, after `n` orders were sent. -/
structure Loaded (n : ℕ) (c : StrategyContext NullRouter) : Prop where
  context : ∃ orders bal st, c.x = plain orders bal st
  queue : ∃ pending, c.router.Holds pending ∧ pending.length = n ∧
    ∀ rep ∈ pending, rep.execType = .ack
  card : c.x.orders.rows.card = n
  source : c.x.orders.source = (1, UInt64.ofNat n)
  serial_le : ∀ r ∈ c.x.orders.rows, serial r.id ≤ n

/-- One more order is sent. -/
theorem Loaded.submit {n : ℕ} (hn : n < 1000) {c : StrategyContext NullRouter} (h : Loaded n c) :
    Loaded (n + 1) (c.submit .buy 100 1 .gtc .limit).1 := by
  obtain ⟨x, router⟩ := c
  obtain ⟨⟨orders, bal, st, hx⟩, ⟨pending, hqueue, hlen, hacks⟩, hcard, hsource, hserial⟩ := h
  dsimp only at hx
  subst hx
  change orders.rows.card = n at hcard
  change orders.source = _ at hsource
  have hcount : orders.source.2.toNat = n := by
    rw [hsource]
    exact UInt64.toNat_ofNat_of_lt' (show n < 2 ^ 64 by omega)
  have hleft : orders.source.2.toNat + 1 < 2 ^ 40 := by omega
  have hnext : serial orders.nextId.1 = n + 1 := by
    rw [serial_nextId _ hleft, hcount]
  have hfull : orders.full = false := by
    rw [OrderTable.full_eq, hcard]
    exact decide_eq_false (by unfold MAX_ROWS; omega)
  -- the id is fresh and the table has room
  have hrefuse : ¬orders.nextId.2.Refuses (lotRow orders bal st .gtc) :=
    not_refuses_nextId hleft (fun r hr => (hserial r hr).trans_eq hcount.symm) hfull rfl
  obtain ⟨-, hrows, hsource'⟩ := OrderTable.insert_of_not_refuses hrefuse
  rw [OrderTable.nextId_rows] at hrows
  obtain ⟨router', hqueue', hsubmit⟩ := plain_submit bal st hqueue
    (show pending.length + 2 ≤ 1024 by omega) hfull .gtc
  rw [hsubmit]
  refine ⟨⟨_, _, _, rfl⟩, ⟨_, hqueue', ?_, fun rep hrep => ?_⟩, ?_, ?_, fun r hr => ?_⟩
  · rw [List.length_append, hlen]
    rfl
  · rcases List.mem_append.1 hrep with hrep | hrep
    · exact hacks rep hrep
    · obtain rfl := List.mem_singleton.1 hrep
      rfl
  · change (OrderTable.insert _ _).1.rows.card = _
    rw [hrows, Multiset.card_cons, hcard]
  · change (OrderTable.insert _ _).1.source = _
    rw [OrderTable.insert_source, OrderTable.nextId_source, hsource, UInt64.ofNat_add]
    rfl
  · change r ∈ (OrderTable.insert _ _).1.rows at hr
    rw [hrows] at hr
    rcases Multiset.mem_cons.1 hr with rfl | hr
    · exact hnext.le
    · exact (hserial r hr).trans (Nat.le_succ n)

theorem loaded_freshRunner : Loaded 0 freshRunner.toStrategyContext where
  context := ⟨_, _, _, rfl⟩
  queue := ⟨[], .nil, rfl, fun _ h => absurd h List.not_mem_nil⟩
  card := rfl
  source := rfl
  serial_le _ h := absurd h (Multiset.notMem_zero _)

/-- `on_start` may send that many orders. -/
theorem exists_loaded {n : ℕ} (hn : n ≤ 1000) :
    ∃ c, (runner freshRunner).ReachableWhen Runner.IdsLeft ⟨c, .start⟩ ∧ Loaded n c := by
  induction n with
  | zero => exact ⟨_, .init rfl, loaded_freshRunner⟩
  | succ n ih =>
    obtain ⟨c, hreach, h⟩ := ih (by omega)
    have hcount : c.x.drawn = n := by
      rw [ExecContext.drawn, h.source]
      exact UInt64.toNat_ofNat_of_lt' (show n < 2 ^ 64 by omega)
    have hleft : c.x.drawn + 1 < 2 ^ 40 := by omega
    have hcall : Runner.step ⟨c, .start⟩ (.call (.submit .buy 100 1 .gtc .limit)) =
        some ⟨(c.submit .buy 100 1 .gtc .limit).1, .start⟩ :=
      Runner.step_call trivial ⟨by decide, by decide⟩
    exact ⟨_, hreach.step (a := .call (.submit .buy 100 1 .gtc .limit)) hleft hcall, h.submit hn⟩

/-- So many orders do not clear: none has its last report queued, and half of the queue is taken
by their acks. -/
theorem Loaded.not_clears {c : StrategyContext NullRouter} (h : Loaded 513 c) : ¬ c.Clears := by
  intro hclears
  obtain ⟨pending, hqueue, hlen, hacks⟩ := h.queue
  have hnone (id : UInt64) : ¬ Ending pending id := by
    rintro ⟨rep, hrep, -, hends⟩
    rw [Ends, hacks rep hrep] at hends
    exact absurd hends (by decide)
  have hsub : c.x.orders.ids ⊆
      (c.x.orders.ids.filter c.x.orders.unasked).take c.router.room := by
    intro id hid
    obtain ⟨r, hr, rfl⟩ := OrderTable.mem_ids.1 hid
    have hcleared := hclears r hr
    rw [hqueue.queued_eq] at hcleared
    exact hcleared.resolve_left (hnone r.id)
  have hle := (c.x.orders.nodup_ids.subperm hsub).length_le
  have hroom : c.router.room = 511 := by
    rw [NullRouter.room, hqueue.queued_eq, hlen]
    rfl
  have hids : c.x.orders.ids.length = 513 := by
    rw [OrderTable.ids, List.length_map, List.length_range, OrderTable.size_eq, h.card]
  rw [hids, hroom, List.length_take] at hle
  omega

end Exec

end LowLatencyPipeline
