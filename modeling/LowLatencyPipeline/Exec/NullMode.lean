import LowLatencyPipeline.Exec.Runner
import LowLatencyPipeline.Library.SumIf

/-!
# Null mode

With the null router nothing fills, and every request is answered before the next frame.
`tick_settled` says what `on_tick` finds, for every strategy: an empty queue, only acked orders
without pending requests, an ack for every order sent, the funds of the live rows reserved, and
all totals and positions as they were at the start.

The invariant `Settling` holds at every step, also in the middle of a poll: it ties each live row
to the reports that are still in the queue. It needs that ids are not reused, so it is about runs
in which fewer than `2 ^ 40` of them are drawn; `id_reuse` is a longer run in which the id of a
live order comes round again.
-/

namespace LowLatencyPipeline

namespace Exec

/-- The funds of the live rows that lock asset `k`. -/
def lockedFunds (a : Account) (k : ℕ) (rows : Multiset OrderRow) : ℤ :=
  sumIf (fun r => a.sideAsset r.instrument r.side = k)
    (fun r => a.reservation r.instrument r.side r.px r.leaves) rows

/-- A position but for its mark. -/
def Position.holdings (p : Position) : Position := { p with mark2 := 0 }

/-- **What `on_tick` finds.** -/
structure AtTick (s₀ s : Runner) : Prop where
  queue : s.router.Holds []
  acked : ∀ r ∈ s.x.orders.rows, r.status = .new
  pending : ∀ r ∈ s.x.orders.rows, r.pendingReplace = false ∧ r.pendingCancel = false
  untouched : ∀ r ∈ s.x.orders.rows, r.cum = 0 ∧ r.leaves = r.qty
  acks : s.x.st.acks = s.x.st.ordersNew
  reserved : ∀ k, Fits 64 (lockedFunds s.x.account k s.x.orders.rows) →
    (s.x.account.bal k).reserved = lockedFunds s.x.account k s.x.orders.rows
  total : ∀ k, (s.x.account.bal k).total = (s₀.x.account.bal k).total
  position : ∀ i, (s.x.account.position i).holdings = (s₀.x.account.position i).holdings

/-! ### The invariant -/

/-- A report of that type for an order is in the queue. -/
def Answers (pending : List ExecReport) (id : UInt64) (type : ExecType) : Prop :=
  ∃ rep ∈ pending, rep.clOrdId = id ∧ rep.execType = type

/-- The report ends the order. -/
def Ends (rep : ExecReport) : Prop := rep.execType = .canceled ∨ rep.execType = .expired

/-- A live row and the reports that are still to come for it. -/
structure RowSettling (pending : List ExecReport) (r : OrderRow) : Prop where
  cum : r.cum = 0
  leaves : r.leaves = r.qty
  newQty : Fits 64 r.newQty
  acked : r.status = .new ∨ Answers pending r.id .ack
  replace : r.pendingReplace = true → Answers pending r.id .replaced
  cancel : r.pendingCancel = true → Answers pending r.id .canceled

/-- **The invariant**, for an account that started as `a₀` and the reports in the queue. -/
structure Settling (a₀ : Account) (c : StrategyContext NullRouter) (pending : List ExecReport) :
    Prop where
  holds : c.router.Holds pending
  row_ok : ∀ r ∈ c.x.orders.rows, RowSettling pending r
  answers : ∀ rep ∈ pending, rep.execType = .ack ∨ rep.execType = .replaced ∨ Ends rep
  ack_live : ∀ rep ∈ pending, rep.execType = .ack → ∃ r ∈ c.x.orders.rows, r.id = rep.clOrdId
  ack_first : pending.Pairwise fun a b => b.execType = .ack → a.clOrdId = b.clOrdId → ¬ Ends a
  acks : c.x.st.acks + pending.countP (fun rep => rep.execType = .ack) = c.x.st.ordersNew
  drawn_lt : c.x.drawn < 2 ^ 40
  row_serial : ∀ r ∈ c.x.orders.rows, serial r.id ≤ c.x.drawn
  rep_serial : ∀ rep ∈ pending, serial rep.clOrdId ≤ c.x.drawn
  terms : c.x.account.terms = a₀.terms
  total : ∀ k, (c.x.account.bal k).total = (a₀.bal k).total
  position : ∀ i, (c.x.account.position i).holdings = (a₀.position i).holdings
  reserved : ∀ k, (c.x.account.bal k).reserved = wrap 64 (lockedFunds a₀ k c.x.orders.rows)

section Lemmas

variable {a a₀ : Account} {c : StrategyContext NullRouter} {pending : List ExecReport}
  {r : OrderRow} {rest : Multiset OrderRow} {k : ℕ}

/-- A reservation adds an order's funds to those of one asset. -/
theorem wrap_reserve (asset k : ℕ) (funds locked : ℤ) :
    (if k = asset then wrap 64 (wrap 64 locked + funds) else wrap 64 locked) =
      wrap 64 ((if asset = k then funds else 0) + locked) := by
  by_cases hk : k = asset
  · rw [if_pos hk, if_pos hk.symm, wrap_wrap_add, add_comm]
  · rw [if_neg hk, if_neg fun hc => hk hc.symm, zero_add]

/-- A release takes them from it. -/
theorem wrap_release (asset k : ℕ) (funds locked : ℤ) :
    (if k = asset then wrap 64 (wrap 64 ((if asset = k then funds else 0) + locked) - funds)
      else wrap 64 ((if asset = k then funds else 0) + locked)) = wrap 64 locked := by
  by_cases hk : k = asset
  · rw [if_pos hk, if_pos hk.symm, wrap_wrap_sub, add_sub_cancel_left]
  · rw [if_neg hk, if_neg fun hc => hk hc.symm, zero_add]

theorem lockedFunds_cons : lockedFunds a k (r ::ₘ rest) =
    (if a.sideAsset r.instrument r.side = k then a.reservation r.instrument r.side r.px r.leaves
      else 0) + lockedFunds a k rest := sumIf_cons

theorem reservation_congr (h : a.terms = a₀.terms) (inst : UInt16) (side : Side) (px qty : ℤ) :
    a.reservation inst side px qty = a₀.reservation inst side px qty := by
  cases side with
  | buy =>
    change (a.terms inst).tlToMoney _ = (a₀.terms inst).tlToMoney _
    rw [h]
  | sell =>
    change wrap 64 (qty * (a.terms inst).basePerLot) = wrap 64 (qty * (a₀.terms inst).basePerLot)
    rw [h]

theorem sideAsset_congr (h : a.terms = a₀.terms) (inst : UInt16) (side : Side) :
    a.sideAsset inst side = a₀.sideAsset inst side := by
  cases side with
  | buy => exact congrArg (fun terms => (terms inst).quote) h
  | sell => exact congrArg (fun terms => (terms inst).base) h

theorem lockedFunds_congr (h : a.terms = a₀.terms) (rows : Multiset OrderRow) :
    lockedFunds a k rows = lockedFunds a₀ k rows := by
  simp only [lockedFunds, reservation_congr h, sideAsset_congr h]

theorem holdings_mark (inst : UInt16) (bid ask : ℤ) (i : UInt16) :
    ((a.mark inst bid ask).position i).holdings = (a.position i).holdings := by
  unfold Account.mark
  split_ifs
  · rfl
  · rw [position_trackEquity, position_setPos]
    split_ifs with h
    · rw [h]
      rfl
    · rfl

theorem Answers.mono {pending' : List ExecReport} (h : pending ⊆ pending') {id : UInt64}
    {type : ExecType} : Answers pending id type → Answers pending' id type :=
  fun ⟨rep, hrep, hid⟩ => ⟨rep, h hrep, hid⟩

theorem RowSettling.mono (h : RowSettling pending r) {pending' : List ExecReport}
    (hsub : pending ⊆ pending') : RowSettling pending' r :=
  ⟨h.cum, h.leaves, h.newQty, h.acked.imp_right (Answers.mono hsub),
    fun hr => (h.replace hr).mono hsub, fun hc => (h.cancel hc).mono hsub⟩

/-- An answer other than the one just taken is still to come. -/
theorem Answers.of_cons {rep : ExecReport} {id : UInt64} {type : ExecType}
    (h : Answers (rep :: pending) id type) (hne : rep.clOrdId ≠ id ∨ rep.execType ≠ type) :
    Answers pending id type := by
  obtain ⟨rep', hmem, hid, htype⟩ := h
  rcases List.mem_cons.mp hmem with rfl | hmem
  · rcases hne with hne | hne
    · exact absurd hid hne
    · exact absurd htype hne
  · exact ⟨rep', hmem, hid, htype⟩

theorem RowSettling.of_cons {rep : ExecReport} (h : RowSettling (rep :: pending) r)
    (hne : rep.clOrdId ≠ r.id) : RowSettling pending r :=
  ⟨h.cum, h.leaves, h.newQty, h.acked.imp_right fun ha => ha.of_cons (.inl hne),
    fun hr => (h.replace hr).of_cons (.inl hne), fun hc => (h.cancel hc).of_cons (.inl hne)⟩

end Lemmas

/-! ### The calls -/

section Calls

variable {a₀ : Account} {c c' : StrategyContext NullRouter} {pending : List ExecReport}

/-- Nothing that the invariant is about changes. -/
theorem Settling.still (h : Settling a₀ c pending) (hrouter : c'.router = c.router)
    (hrows : c'.x.orders.rows = c.x.orders.rows) (hacks : c'.x.st.acks = c.x.st.acks)
    (hnew : c'.x.st.ordersNew = c.x.st.ordersNew) (hdrawn : c.x.drawn ≤ c'.x.drawn)
    (hlt : c'.x.drawn < 2 ^ 40) (hterms : c'.x.account.terms = c.x.account.terms)
    (hbal : c'.x.account.bal = c.x.account.bal)
    (hpos : ∀ i, (c'.x.account.position i).holdings = (c.x.account.position i).holdings) :
    Settling a₀ c' pending where
  holds := hrouter ▸ h.holds
  row_ok := hrows ▸ h.row_ok
  answers := h.answers
  ack_live := hrows ▸ h.ack_live
  ack_first := h.ack_first
  acks := by rw [hacks, hnew, h.acks]
  drawn_lt := hlt
  row_serial := fun r hr => (h.row_serial r (hrows ▸ hr)).trans hdrawn
  rep_serial := fun rep hrep => (h.rep_serial rep hrep).trans hdrawn
  terms := hterms.trans h.terms
  total := fun k => by rw [hbal, h.total]
  position := fun i => (hpos i).trans (h.position i)
  reserved := fun k => by rw [hbal, hrows, h.reserved]

/-- A request puts its answers at the end of the queue. -/
theorem Settling.append (h : Settling a₀ c pending) {new : List ExecReport}
    (hholds : c'.router.Holds (pending ++ new))
    (hrow : ∀ r ∈ c'.x.orders.rows, RowSettling (pending ++ new) r)
    (hanswers : ∀ rep ∈ new, rep.execType = .ack ∨ rep.execType = .replaced ∨ Ends rep)
    (hlive : ∀ r ∈ c.x.orders.rows, ∃ r' ∈ c'.x.orders.rows, r'.id = r.id)
    (hnewLive : ∀ rep ∈ new, rep.execType = .ack → ∃ r ∈ c'.x.orders.rows, r.id = rep.clOrdId)
    (hfirst : new.Pairwise fun a b => b.execType = .ack → a.clOrdId = b.clOrdId → ¬ Ends a)
    (hcross : ∀ a ∈ pending, ∀ b ∈ new, b.execType = .ack → a.clOrdId ≠ b.clOrdId)
    (hacks : c'.x.st.acks = c.x.st.acks)
    (hnew : c'.x.st.ordersNew =
      c.x.st.ordersNew + new.countP (fun rep => rep.execType = .ack))
    (hdrawn : c.x.drawn ≤ c'.x.drawn) (hlt : c'.x.drawn < 2 ^ 40)
    (hrowSerial : ∀ r ∈ c'.x.orders.rows, serial r.id ≤ c'.x.drawn)
    (hrepSerial : ∀ rep ∈ new, serial rep.clOrdId ≤ c'.x.drawn)
    (hterms : c'.x.account.terms = c.x.account.terms)
    (htotal : ∀ k, (c'.x.account.bal k).total = (c.x.account.bal k).total)
    (hpos : ∀ i, c'.x.account.position i = c.x.account.position i)
    (hreserved : ∀ k, (c'.x.account.bal k).reserved =
      wrap 64 (lockedFunds a₀ k c'.x.orders.rows)) :
    Settling a₀ c' (pending ++ new) where
  holds := hholds
  row_ok := hrow
  answers := fun rep hrep => (List.mem_append.mp hrep).elim (h.answers rep) (hanswers rep)
  ack_live := fun rep hrep hack => by
    rcases List.mem_append.mp hrep with hrep | hrep
    · obtain ⟨r, hr, hid⟩ := h.ack_live rep hrep hack
      obtain ⟨r', hr', hid'⟩ := hlive r hr
      exact ⟨r', hr', hid'.trans hid⟩
    · exact hnewLive rep hrep hack
  ack_first := List.pairwise_append.mpr ⟨h.ack_first, hfirst,
    fun a ha b hb hack hid => absurd hid (hcross a ha b hb hack)⟩
  acks := by
    have hcount := h.acks
    rw [List.countP_append, hacks, hnew]
    omega
  drawn_lt := hlt
  row_serial := hrowSerial
  rep_serial := fun rep hrep => (List.mem_append.mp hrep).elim
    (fun hrep => (h.rep_serial rep hrep).trans hdrawn) (hrepSerial rep)
  terms := hterms.trans h.terms
  total := fun k => (htotal k).trans (h.total k)
  position := fun i => (congrArg _ (hpos i)).trans (h.position i)
  reserved := hreserved

/-- A request for a live order: the row notes it, and one answer follows that is not an ack. -/
theorem Settling.request (h : Settling a₀ c pending) {row row' : OrderRow}
    {rest : Multiset OrderRow} {rep : ExecReport} (hrows : c.x.orders.rows = row ::ₘ rest)
    (hrows' : c'.x.orders.rows = row' ::ₘ rest) (hsame : SameLots row row') (hpx : row'.px = row.px)
    (hrow : RowSettling (pending ++ [rep]) row')
    (hholds : c'.router.Holds (pending ++ [rep]))
    (hanswer : rep.execType = .replaced ∨ Ends rep) (hrep : rep.clOrdId = row.id)
    (hsource : c'.x.orders.source = c.x.orders.source) (hacks : c'.x.st.acks = c.x.st.acks)
    (hnew : c'.x.st.ordersNew = c.x.st.ordersNew) (haccount : c'.x.account = c.x.account) :
    Settling a₀ c' (pending ++ [rep]) := by
  have hmem := OrderTable.mem_rows_of_cons hrows
  have hdrawn : c'.x.drawn = c.x.drawn := by rw [ExecContext.drawn, hsource, ExecContext.drawn]
  have hnoAck : rep.execType ≠ .ack := by
    rcases hanswer with heq | heq | heq <;> rw [heq] <;> decide
  -- a request on a live order is answered by one report, and never by an ack
  have hone : ∀ b ∈ [rep], b.execType ≠ .ack := fun b hb => List.mem_singleton.mp hb ▸ hnoAck
  refine h.append hholds (fun r hr => ?_) (fun b hb => List.mem_singleton.mp hb ▸ .inr hanswer)
    (fun r hr => ?_) (fun b hb hack => absurd hack (hone b hb)) (List.pairwise_singleton _ _)
    (fun _ _ b hb hack => absurd hack (hone b hb)) hacks (by simp [hnew, hnoAck]) hdrawn.ge
    (hdrawn ▸ h.drawn_lt) (fun r hr => ?_) (fun b hb => ?_) (by rw [haccount])
    (fun k => by rw [haccount]) (fun i => by rw [haccount]) fun k => ?_
  · rw [hrows'] at hr
    rcases Multiset.mem_cons.mp hr with rfl | hr
    · exact hrow
    · exact (h.row_ok r (hrows ▸ Multiset.mem_cons_of_mem hr)).mono (List.subset_append_left _ _)
  · rw [hrows] at hr
    rcases Multiset.mem_cons.mp hr with rfl | hr
    · exact ⟨row', hrows' ▸ Multiset.mem_cons_self _ _, hsame.id⟩
    · exact ⟨r, hrows' ▸ Multiset.mem_cons_of_mem hr, rfl⟩
  · rw [hdrawn]
    rw [hrows'] at hr
    rcases Multiset.mem_cons.mp hr with rfl | hr
    · rw [hsame.id]
      exact h.row_serial row hmem
    · exact h.row_serial r (hrows ▸ Multiset.mem_cons_of_mem hr)
  · rw [List.mem_singleton.mp hb, hrep, hdrawn]
    exact h.row_serial row hmem
  · rw [haccount, h.reserved, hrows, hrows', lockedFunds_cons, lockedFunds_cons, hsame.side,
      hsame.instrument, hpx, hsame.leaves]

/-- A new row with an unused id that the router refuses leaves no trace. -/
theorem rows_insert_erase {t : OrderTable} {r : OrderRow} (h : ∀ r' ∈ t.rows, r'.id ≠ r.id) :
    ((t.insert r).1.erase r.id).rows = t.rows := by
  by_cases hrefuse : t.Refuses r
  · rw [OrderTable.insert_of_refuses hrefuse, OrderTable.erase_of_absent h]
  · rw [OrderTable.erase_rows (OrderTable.insert_of_not_refuses hrefuse).2.1]

/-- A new order. -/
theorem Settling.submit (h : Settling a₀ c pending) (side : Side) (px : ℤ) {qty : ℤ} (tif : Tif)
    (type : OrdType) (hroom : c.x.drawn + 1 < 2 ^ 40) :
    ∃ pending', Settling a₀ (c.submit side px qty tif type).1 pending' := by
  have hserial : serial c.x.orders.nextId.1 = c.x.drawn + 1 := serial_nextId _ hroom
  have heffect := c.submit_effect side px qty tif type
  generalize (c.submit side px qty tif type).1 = c' at heffect ⊢
  cases heffect with
  | refused r =>
    exact ⟨pending, h.still rfl rfl rfl rfl le_rfl h.drawn_lt rfl rfl fun _ => rfl⟩
  | unsent orders router hrouter horders =>
    have hlen : orders.source.2.toNat = c.x.drawn + 1 := toNat_counter_nextId hroom
      (by rw [horders, OrderTable.erase_source, OrderTable.insert_source])
    refine ⟨pending, h.still (NullRouter.submit_refused hrouter) ?_ rfl rfl
      ((Nat.le_succ _).trans_eq hlen.symm) (hlen.trans_lt hroom) rfl rfl fun _ => rfl⟩
    change orders.rows = _
    rw [horders]
    exact rows_insert_erase fun r hr => ne_nextId hroom (h.row_serial r hr)
  | sent orders rate router hadmits hrouter horders =>
    obtain ⟨-, hfull⟩ := admits_ok hadmits
    have hrefuse : ¬c.x.orders.nextId.2.Refuses (c.x.newRow c.x.orders.nextId.1
        (c.x.orderCheck side px qty tif type)) := not_refuses_nextId hroom h.row_serial hfull rfl
    obtain ⟨-, hrows', -⟩ := OrderTable.insert_of_not_refuses hrefuse
    rw [← horders, OrderTable.nextId_rows] at hrows'
    have hcount : orders.source.2.toNat = c.x.drawn + 1 :=
      toNat_counter_nextId hroom (by rw [horders, OrderTable.insert_source])
    have hnew : (c.x.newRequest c.x.orders.nextId.1 (c.x.orderCheck side px qty tif type)).type =
      .new := rfl
    obtain ⟨rest, hreplies, hrest⟩ := NullRouter.replies_new hnew
    have hholds := h.holds.submit_true hrouter
    rw [hreplies] at hholds
    have hnoAck : ∀ b ∈ rest, b.execType ≠ .ack := fun b hb hack => by
      rw [(hrest b hb).1] at hack
      exact absurd hack (by decide)
    refine ⟨_, h.append hholds (fun r hr => ?_) (fun b hb => ?_) (fun r hr => ?_)
      (fun b hb hack => ?_) (List.pairwise_cons.mpr ⟨?_, ?_⟩) (fun a ha b hb hack hid => ?_) rfl ?_
      ?_ ?_ (fun r hr => ?_) (fun b hb => ?_) rfl (fun k => total_reserve) (fun _ => rfl)
      fun k => ?_⟩
    · change r ∈ orders.rows at hr
      rw [hrows'] at hr
      rcases Multiset.mem_cons.mp hr with rfl | hr
      · exact ⟨rfl, rfl, show Fits 64 0 by decide,
          .inr ⟨_, List.mem_append_right _ List.mem_cons_self, rfl, rfl⟩,
          fun hf => absurd hf Bool.false_ne_true, fun hf => absurd hf Bool.false_ne_true⟩
      · exact (h.row_ok r hr).mono (List.subset_append_left _ _)
    · rcases List.mem_cons.mp hb with rfl | hb
      · exact .inl rfl
      · exact .inr (.inr (.inr (hrest b hb).1))
    · exact ⟨r, (show r ∈ orders.rows by rw [hrows']; exact Multiset.mem_cons_of_mem hr), rfl⟩
    · rcases List.mem_cons.mp hb with rfl | hb
      · exact ⟨_, (show _ ∈ orders.rows by rw [hrows']; exact Multiset.mem_cons_self _ _), rfl⟩
      · exact absurd hack (hnoAck b hb)
    · exact fun b hb hack => absurd hack (hnoAck b hb)
    · exact List.pairwise_of_forall_mem_list fun _ _ b hb hack => absurd hack (hnoAck b hb)
    · rcases List.mem_cons.mp hb with rfl | hb
      · exact ne_nextId hroom (h.rep_serial a ha) hid
      · exact absurd hack (hnoAck b hb)
    · have hzero : rest.countP (fun rep => rep.execType = .ack) = 0 :=
        List.countP_eq_zero.mpr fun b hb => by simpa using hnoAck b hb
      rw [List.countP_cons_of_pos (by simp [NullRouter.reportOf]), hzero]
    · exact (Nat.le_succ _).trans_eq hcount.symm
    · exact hcount.trans_lt hroom
    · change r ∈ orders.rows at hr
      change _ ≤ orders.source.2.toNat
      rw [hcount]
      rw [hrows'] at hr
      rcases Multiset.mem_cons.mp hr with rfl | hr
      · exact hserial.le
      · exact (h.row_serial r hr).trans (Nat.le_succ _)
    · change _ ≤ orders.source.2.toNat
      rw [hcount, ← hserial]
      rcases List.mem_cons.mp hb with rfl | hb
      · exact le_rfl
      · rw [(hrest b hb).2]
        exact le_rfl
    · change ((c.x.account.reserve _ _ _ _).bal k).reserved = wrap 64 (lockedFunds a₀ k orders.rows)
      rw [reserved_reserve, hrows', lockedFunds_cons, h.reserved, sideAsset_congr h.terms,
        reservation_congr h.terms]
      exact wrap_reserve _ k _ _

/-- An amend. -/
theorem Settling.replace (h : Settling a₀ c pending) (id : UInt64) {px qty : ℤ}
    (hqty : Fits 64 qty) : ∃ pending', Settling a₀ (c.replace id px qty).1 pending' := by
  have heffect := c.replace_effect id px qty
  generalize c.replace id px qty = c' at heffect ⊢
  cases heffect with
  | refused r =>
    exact ⟨pending, h.still rfl rfl rfl rfl le_rfl h.drawn_lt rfl rfl fun _ => rfl⟩
  | unsent req router hrouter =>
    exact ⟨pending, h.still (NullRouter.submit_refused hrouter) rfl rfl rfl le_rfl h.drawn_lt rfl
      rfl fun _ => rfl⟩
  | sent row rest orders rate router hid hrows hcancel hreplace hadmits hrouter horders =>
    subst hid
    have hrow := h.row_ok row (OrderTable.mem_rows_of_cons hrows)
    have hsub := List.subset_append_left pending
      (NullRouter.replies (c.x.rowRequest row .replace px qty))
    have hrows' : orders.rows = (setPendingReplace px qty).run row ::ₘ rest := by
      rw [horders]
      exact OrderTable.modify_rows hrows _
    exact ⟨_, h.request hrows hrows'
      ⟨rfl, rfl, rfl, rfl⟩ rfl
      ⟨hrow.cum, hrow.leaves, hqty, hrow.acked.imp_right (Answers.mono hsub),
        fun _ => ⟨_, List.mem_append_right _ List.mem_cons_self, rfl, rfl⟩,
        fun hc => (hrow.cancel hc).mono hsub⟩
      (h.holds.submit_true hrouter) (.inl rfl) rfl
      (show orders.source = _ by rw [horders, OrderTable.modify_source]) rfl rfl rfl⟩

/-- A cancel. -/
theorem Settling.cancel (h : Settling a₀ c pending) (id : UInt64) :
    ∃ pending', Settling a₀ (c.cancel id).1 pending' := by
  have heffect := c.cancel_effect id
  generalize (c.cancel id).1 = c' at heffect ⊢
  cases heffect with
  | kept => exact ⟨pending, h⟩
  | unsent row router hfind hpending hrouter =>
    exact ⟨pending, h.still (NullRouter.submit_refused hrouter) rfl rfl rfl le_rfl h.drawn_lt rfl
      rfl fun _ => rfl⟩
  | sent row rest orders rate router hid hrows _ hrouter horders =>
    subst hid
    have hrow := h.row_ok row (OrderTable.mem_rows_of_cons hrows)
    have hsub := List.subset_append_left pending
      (NullRouter.replies (c.x.rowRequest row .cancel row.px row.leaves))
    have hrows' : orders.rows = setPendingCancel.run row ::ₘ rest := by
      rw [horders]
      exact OrderTable.modify_rows hrows _
    exact ⟨_, h.request hrows hrows'
      ⟨rfl, rfl, rfl, rfl⟩ rfl
      ⟨hrow.cum, hrow.leaves, hrow.newQty, hrow.acked.imp_right (Answers.mono hsub),
        fun hr => (hrow.replace hr).mono hsub,
        fun _ => ⟨_, List.mem_append_right _ List.mem_cons_self, rfl, rfl⟩⟩
      (h.holds.submit_true hrouter) (.inr (.inl rfl)) rfl
      (show orders.source = _ by rw [horders, OrderTable.modify_source]) rfl rfl rfl⟩

/-- **The strategy's calls** keep the invariant. -/
theorem Settling.call (h : Settling a₀ c pending) {a : Call} (htyped : a.Typed)
    (hroom : c.x.drawn + 1 < 2 ^ 40) : ∃ pending', Settling a₀ (c.call a) pending' := by
  cases a with
  | submit side px qty tif type => exact h.submit side px tif type hroom
  | replace id px qty => exact h.replace id htyped.2
  | cancel id => exact h.cancel id
  | cancelAll =>
    exact StrategyContext.cancelAll_induction (P := fun c => ∃ pending, Settling a₀ c pending)
      (fun c id ⟨_, hc⟩ => hc.cancel id) ⟨pending, h⟩

end Calls

/-! ### The reports -/

section Reports

variable {a₀ : Account} {c : StrategyContext NullRouter} {rep : ExecReport}
  {pending : List ExecReport} {x : ExecContext} {router : NullRouter}

/-- A report is taken from the queue. -/
theorem Settling.popped (h : Settling a₀ c (rep :: pending)) (hholds : router.Holds pending)
    (hrow : ∀ r ∈ x.orders.rows, RowSettling pending r)
    (hids : ∀ r ∈ x.orders.rows, ∃ r' ∈ c.x.orders.rows, r'.id = r.id)
    (hlive : ∀ b ∈ pending, b.execType = .ack → ∀ r ∈ c.x.orders.rows, r.id = b.clOrdId →
      ∃ r' ∈ x.orders.rows, r'.id = r.id)
    (hacks : x.st.acks = c.x.st.acks + if rep.execType = .ack then 1 else 0)
    (hnew : x.st.ordersNew = c.x.st.ordersNew) (hsource : x.orders.source = c.x.orders.source)
    (hterms : x.account.terms = c.x.account.terms)
    (htotal : ∀ k, (x.account.bal k).total = (c.x.account.bal k).total)
    (hpos : ∀ i, x.account.position i = c.x.account.position i)
    (hreserved : ∀ k, (x.account.bal k).reserved = wrap 64 (lockedFunds a₀ k x.orders.rows)) :
    Settling a₀ ⟨x, router⟩ pending := by
  have hdrawn : x.drawn = c.x.drawn := by rw [ExecContext.drawn, hsource, ExecContext.drawn]
  refine ⟨hholds, hrow, fun b hb => h.answers b (List.mem_cons_of_mem _ hb), fun b hb hack => ?_,
    (List.pairwise_cons.mp h.ack_first).2, ?_, hdrawn ▸ h.drawn_lt, fun r hr => ?_,
    fun b hb => ?_, hterms.trans h.terms, fun k => (htotal k).trans (h.total k),
    fun i => (congrArg _ (hpos i)).trans (h.position i), hreserved⟩
  · obtain ⟨r, hr, hid⟩ := h.ack_live b (List.mem_cons_of_mem _ hb) hack
    obtain ⟨r', hr', hid'⟩ := hlive b hb hack r hr hid
    exact ⟨r', hr', hid'.trans hid⟩
  · have hcount := h.acks
    rw [List.countP_cons] at hcount
    simp only [decide_eq_true_eq] at hcount
    dsimp only
    omega
  · obtain ⟨r', hr', hid⟩ := hids r hr
    exact hid ▸ (h.row_serial r' hr').trans_eq hdrawn.symm
  · exact (h.rep_serial b (List.mem_cons_of_mem _ hb)).trans_eq hdrawn.symm

/-- A report for an order that stays live. -/
theorem Settling.answered (h : Settling a₀ c (rep :: pending)) (hholds : router.Holds pending)
    {row row' : OrderRow} {rest : Multiset OrderRow} (hid : row.id = rep.clOrdId)
    (hrows : c.x.orders.rows = row ::ₘ rest) (hrows' : x.orders.rows = row' ::ₘ rest)
    (hid' : row'.id = row.id) (hrow : RowSettling pending row')
    (hacks : x.st.acks = c.x.st.acks + if rep.execType = .ack then 1 else 0)
    (hnew : x.st.ordersNew = c.x.st.ordersNew) (hsource : x.orders.source = c.x.orders.source)
    (hterms : x.account.terms = c.x.account.terms)
    (htotal : ∀ k, (x.account.bal k).total = (c.x.account.bal k).total)
    (hpos : ∀ i, x.account.position i = c.x.account.position i)
    (hreserved : ∀ k, (x.account.bal k).reserved = wrap 64 (lockedFunds a₀ k x.orders.rows)) :
    Settling a₀ ⟨x, router⟩ pending := by
  refine h.popped hholds (fun r hr => ?_) (fun r hr => ?_) (fun b _ _ r hr _ => ?_) hacks hnew
    hsource hterms htotal hpos hreserved
  · rw [hrows'] at hr
    rcases Multiset.mem_cons.mp hr with rfl | hr
    · exact hrow
    · exact (h.row_ok r (hrows ▸ Multiset.mem_cons_of_mem hr)).of_cons
        (hid ▸ (OrderTable.id_ne_of_cons hrows hr).symm)
  · rw [hrows'] at hr
    rcases Multiset.mem_cons.mp hr with rfl | hr
    · exact ⟨row, OrderTable.mem_rows_of_cons hrows, hid'.symm⟩
    · exact ⟨r, hrows ▸ Multiset.mem_cons_of_mem hr, rfl⟩
  · rw [hrows] at hr
    rcases Multiset.mem_cons.mp hr with rfl | hr
    · exact ⟨row', hrows' ▸ Multiset.mem_cons_self _ _, hid'⟩
    · exact ⟨r, hrows' ▸ Multiset.mem_cons_of_mem hr, rfl⟩

/-- An order's share of the funds locked. -/
theorem Settling.reserved_cons (h : Settling a₀ c pending) {row : OrderRow}
    {rest : Multiset OrderRow} (hrows : c.x.orders.rows = row ::ₘ rest) (k : ℕ) :
    (c.x.account.bal k).reserved = wrap 64
      ((if a₀.sideAsset row.instrument row.side = k
        then a₀.reservation row.instrument row.side row.px row.leaves else 0) +
          lockedFunds a₀ k rest) := by
  rw [h.reserved, hrows, lockedFunds_cons]

/-- A report for an order that is not live. -/
theorem Settling.stale (h : Settling a₀ c (rep :: pending)) (hholds : router.Holds pending)
    (hfind : c.x.orders.find rep.clOrdId = none) (tsc : UInt64) :
    Settling a₀ ⟨c.x.applyReport { rep with tscRecv := tsc }, router⟩ pending := by
  have habsent := OrderTable.find_eq_none.mp hfind
  have hnoAck : rep.execType ≠ .ack := fun hack => by
    obtain ⟨r, hr, hid⟩ := h.ack_live rep List.mem_cons_self hack
    exact habsent r hr hid
  simp only [ExecContext.applyReport, hfind]
  exact h.popped hholds (fun r hr => (h.row_ok r hr).of_cons (habsent r hr).symm)
    (fun r hr => ⟨r, hr, rfl⟩) (fun _ _ _ r hr _ => ⟨r, hr, rfl⟩) (by rw [if_neg hnoAck]; rfl) rfl
    rfl rfl (fun _ => rfl) (fun _ => rfl) h.reserved

section Live

variable {row : OrderRow} {rest : Multiset OrderRow}

/-- An ack of a live order. -/
theorem Settling.acked (h : Settling a₀ c (rep :: pending)) (hholds : router.Holds pending)
    (hid : row.id = rep.clOrdId) (hrows : c.x.orders.rows = row ::ₘ rest)
    (htype : rep.execType = .ack) : Settling a₀ ⟨c.x.applyAck row, router⟩ pending := by
  have hrow := h.row_ok row (OrderTable.mem_rows_of_cons hrows)
  have hrows' : (c.x.applyAck row).orders.rows = (setAcked c.x.nowNs).run row ::ₘ rest :=
    rows_applyAck hrows
  refine h.answered hholds hid hrows hrows' rfl
    ⟨hrow.cum, hrow.leaves, hrow.newQty, .inl rfl,
      fun hr => (hrow.replace hr).of_cons (.inr (by rw [htype]; decide)),
      fun hc => (hrow.cancel hc).of_cons (.inr (by rw [htype]; decide))⟩
    (by rw [if_pos htype]; rfl) rfl (OrderTable.modify_source _ _ _) rfl (fun _ => rfl)
    (fun _ => rfl) fun k => ?_
  rw [hrows', lockedFunds_cons]
  exact h.reserved_cons hrows k

/-- A live order is replaced. -/
theorem Settling.replaced (h : Settling a₀ c (rep :: pending)) (hholds : router.Holds pending)
    (hid : row.id = rep.clOrdId) (hrows : c.x.orders.rows = row ::ₘ rest)
    (htype : rep.execType = .replaced) :
    Settling a₀ ⟨c.x.applyReplaced row, router⟩ pending := by
  have hrow := h.row_ok row (OrderTable.mem_rows_of_cons hrows)
  have hrows' : (c.x.applyReplaced row).orders.rows = ExecContext.replacedRow row ::ₘ rest :=
    rows_applyReplaced hrows
  have hleaves : (ExecContext.replacedRow row).leaves = row.newQty := by
    change wrap 64 (row.newQty - row.cum) = _
    rw [hrow.cum, sub_zero, wrap_eq_self (by omega) hrow.newQty]
  refine h.answered hholds hid hrows hrows' rfl
    ⟨hrow.cum, hleaves, hrow.newQty,
      hrow.acked.imp_right fun ha => ha.of_cons (.inr (by rw [htype]; decide)),
      fun hf => absurd hf Bool.false_ne_true,
      fun hc => (hrow.cancel hc).of_cons (.inr (by rw [htype]; decide))⟩
    (by rw [if_neg (by rw [htype]; decide)]; rfl) rfl ?_ rfl
    (fun _ => total_reserve.trans total_release) (fun _ => rfl) fun k => ?_
  · change (((c.x.orders.modify row.id setTerms).setLeaves row.id _).modify row.id
      clearReplace).source = _
    rw [OrderTable.modify_source, OrderTable.setLeaves_source, OrderTable.modify_source]
  · -- the old reservation goes and the new one comes
    change (((c.x.account.release row.instrument row.side row.px row.leaves).reserve
      row.instrument row.side row.newPx
        (ExecContext.replacedRow row).leaves).bal k).reserved = _
    have hreleased : (c.x.account.release row.instrument row.side row.px row.leaves).terms =
      a₀.terms := h.terms
    rw [reserved_reserve, reserved_release, h.reserved_cons hrows, hrows', lockedFunds_cons,
      sideAsset_congr hreleased, reservation_congr hreleased, sideAsset_congr h.terms,
      reservation_congr h.terms]
    rw [wrap_release]
    exact wrap_reserve _ k _ _

/-- A live order ends, whatever is counted. -/
theorem Settling.finished (h : Settling a₀ c (rep :: pending)) (hholds : router.Holds pending)
    (hid : row.id = rep.clOrdId) (hrows : c.x.orders.rows = row ::ₘ rest)
    (hends : rep.execType = .canceled ∨ rep.execType = .expired) {st : ExecStats}
    (hacks : st.acks = c.x.st.acks) (hnew : st.ordersNew = c.x.st.ordersNew) :
    Settling a₀ ⟨ExecContext.finish { c.x with st } row, router⟩ pending := by
  have hrows' : (ExecContext.finish { c.x with st } row).orders.rows = rest := rows_finish hrows
  have hnoAck : ¬ rep.execType = .ack := by
    rcases hends with htype | htype <;> rw [htype] <;> decide
  refine h.popped hholds (fun r hr => ?_) (fun r hr => ?_) (fun b hb hack r hr hid' => ?_)
    (by rw [if_neg hnoAck]; exact hacks) hnew (OrderTable.erase_source _ _) rfl
    (fun _ => total_release) (fun _ => rfl) fun k => ?_
  · rw [hrows'] at hr
    exact (h.row_ok r (hrows ▸ Multiset.mem_cons_of_mem hr)).of_cons
      (hid ▸ (OrderTable.id_ne_of_cons hrows hr).symm)
  · rw [hrows'] at hr
    exact ⟨r, hrows ▸ Multiset.mem_cons_of_mem hr, rfl⟩
  · -- an ack of this order would have come before its last report
    rw [hrows] at hr
    rcases Multiset.mem_cons.mp hr with rfl | hr
    · exact absurd hends ((List.pairwise_cons.mp h.ack_first).1 b hb hack (hid.symm.trans hid'))
    · exact ⟨r, hrows' ▸ hr, rfl⟩
  · change ((c.x.account.release row.instrument row.side row.px row.leaves).bal k).reserved = _
    rw [reserved_release, h.reserved_cons hrows, hrows', sideAsset_congr h.terms,
      reservation_congr h.terms]
    exact wrap_release _ k _ _

end Live

/-- **A report** keeps the invariant, with one report less to come. -/
theorem Settling.report (h : Settling a₀ c (rep :: pending)) (hholds : router.Holds pending)
    (tsc : UInt64) :
    Settling a₀ ⟨c.x.applyReport { rep with tscRecv := tsc }, router⟩ pending := by
  cases hfind : c.x.orders.find rep.clOrdId with
  | none => exact h.stale hholds hfind tsc
  | some row =>
    obtain ⟨hid, rest, hrows⟩ := OrderTable.exists_rows_eq_cons hfind
    rcases h.answers rep List.mem_cons_self with htype | htype | htype | htype <;>
      simp only [ExecContext.applyReport, hfind, htype]
    · exact h.acked hholds hid hrows htype
    · exact h.replaced hholds hid hrows htype
    · exact h.finished hholds hid hrows (.inl htype) rfl rfl
    · exact h.finished hholds hid hrows (.inr htype) rfl rfl

end Reports

/-! ### Runs -/

/-- The poll has ended, and no callback has run since. -/
def Phase.Polled : Phase → Prop
  | .feed | .tickStart _ => True
  | _ => False

/-- Fewer than `2 ^ 40` ids are drawn. -/
def Runner.IdsLeft (s : Runner) (_ : RunStep) : Prop := s.x.drawn + 1 < 2 ^ 40

/-- `run_strategy` starts with no orders, no reports and nothing reserved. -/
structure Runner.Fresh (s : Runner) : Prop where
  phase : s.phase = .start
  queue : s.router.Holds []
  rows : s.x.orders.rows = 0
  drawn : s.x.drawn = 0
  acks : s.x.st.acks = s.x.st.ordersNew
  reserved : ∀ k, (s.x.account.bal k).reserved = 0

/-- **The invariant of the loop.** -/
def Runner.Ok (a₀ : Account) (s : Runner) : Prop :=
  ∃ pending, Settling a₀ s.toStrategyContext pending ∧ (s.phase.Polled → pending = [])

section Runs

variable {a₀ : Account} {s t s₀ : Runner} {pending : List ExecReport}

/-- A frame is looked at. -/
theorem Settling.onFrame (h : Settling a₀ s.toStrategyContext pending) (u : MarketUpdate)
    (draining : Bool) : Settling a₀ (s.onFrame u draining).toStrategyContext pending :=
  h.still rfl rfl rfl rfl le_rfl h.drawn_lt (terms_mark _ _) (bal_mark _ _) (holdings_mark _ _ _)

/-- A callback does not return to where a frame is waited for. -/
theorem Phase.not_polled_of_resume {p q : Phase} (h : p.resume = some q) : ¬ q.Polled := by
  cases p with
  | tick draining => cases draining <;> simp [Phase.resume] at h <;> subst h <;> exact id
  | start | timer | onExec next => simp [Phase.resume] at h; subst h; exact id
  | top | drain | poll next | feed | tickStart draining | done => simp [Phase.resume] at h

/-- What is done after a poll that has found the queue empty. -/
theorem Runner.Ok.afterPoll (h : Settling a₀ s.toStrategyContext []) (next : AfterPoll) :
    (s.afterPoll next).Ok a₀ := by
  cases next with
  | feed => exact ⟨[], h, fun _ => rfl⟩
  | frame u => exact ⟨[], h.onFrame u true, fun _ => rfl⟩
  | stop => exact ⟨[], h, fun _ => rfl⟩

/-- **The step lemma.** -/
theorem Runner.Ok.step (h : s.Ok a₀) {a : RunStep} (hids : s.IdsLeft a)
    (hstep : s.step a = some t) : t.Ok a₀ := by
  obtain ⟨pending, hset, hpolled⟩ := h
  cases Runner.step_effect hstep with
  | clock tsc wallNs =>
    exact ⟨pending, hset.still rfl rfl rfl rfl le_rfl hset.drawn_lt rfl rfl fun _ => rfl, hpolled⟩
  | call a hcallback htyped =>
    obtain ⟨pending', hset'⟩ := hset.call htyped hids
    refine ⟨pending', hset', fun hp => ?_⟩
    change s.phase.Polled at hp
    -- no callback runs between the end of the poll and the tick
    cases hphase : s.phase <;> rw [hphase] at hp hcallback <;> first
      | exact hp.elim
      | exact hcallback.elim
  | resume phase hphase =>
    exact ⟨pending, hset, fun hp => absurd hp (Phase.not_polled_of_resume hphase)⟩
  | control flags shutdown phase htop hphase =>
    refine ⟨pending, hset.still rfl rfl rfl rfl le_rfl hset.drawn_lt rfl rfl fun _ => rfl,
      fun hp => ?_⟩
    dsimp only at hp
    rw [hphase] at hp
    split_ifs at hp <;> exact hp.elim
  | frame u hphase =>
    exact ⟨pending, hset.onFrame u false, fun _ => hpolled (by rw [hphase]; trivial)⟩
  | noFrame hphase => exact ⟨pending, hset, fun hp => hp.elim⟩
  | drained u hphase => exact ⟨pending, hset, fun hp => hp.elim⟩
  | polled next hphase hpop =>
    cases pending with
    -- the queue is empty, so all reports are in
    | nil => exact .afterPoll hset next
    | cons rep pending =>
      obtain ⟨router, hsome, -⟩ := hset.holds.pop_cons s.x.tsc
      rw [hsome] at hpop
      cases hpop
  | report next rep router hphase hpop =>
    cases pending with
    | nil =>
      rw [hset.holds.pop_nil] at hpop
      cases hpop
    | cons rep' pending =>
      obtain ⟨router', hsome, hholds⟩ := hset.holds.pop_cons s.x.tsc
      obtain ⟨rfl, rfl⟩ := Prod.mk.inj (Option.some.inj (hsome.symm.trans hpop))
      exact ⟨pending, hset.report hholds s.x.tsc, fun hp => hp.elim⟩
  | tick draining hphase => exact ⟨pending, hset, fun hp => hp.elim⟩

theorem Runner.Fresh.ok (hs₀ : s₀.Fresh) : s₀.Ok s₀.x.account := by
  refine ⟨[], ⟨hs₀.queue, fun r hr => ?_, fun rep hrep => ?_, fun rep hrep => ?_, List.Pairwise.nil,
    hs₀.acks, by rw [hs₀.drawn]; decide, fun r hr => ?_, fun rep hrep => ?_, rfl, fun _ => rfl,
    fun _ => rfl, fun k => ?_⟩, fun _ => rfl⟩
  · exact absurd (hs₀.rows ▸ hr) (Multiset.notMem_zero r)
  · exact absurd hrep List.not_mem_nil
  · exact absurd hrep List.not_mem_nil
  · exact absurd (hs₀.rows ▸ hr) (Multiset.notMem_zero r)
  · exact absurd hrep List.not_mem_nil
  · rw [hs₀.rows, hs₀.reserved]
    exact (wrap_zero 64).symm

/-- With an empty queue, everything is settled. -/
theorem Settling.atTick (h : Settling s₀.x.account s.toStrategyContext []) : AtTick s₀ s := by
  have hnone : ∀ {id type}, ¬ Answers [] id type := fun ⟨rep, hrep, _⟩ => List.not_mem_nil hrep
  refine ⟨h.holds, fun r hr => (h.row_ok r hr).acked.resolve_right hnone, fun r hr => ⟨?_, ?_⟩,
    fun r hr => ⟨(h.row_ok r hr).cum, (h.row_ok r hr).leaves⟩, h.acks, fun k hfit => ?_, h.total,
    h.position⟩
  · exact Bool.eq_false_iff.mpr fun hp => hnone ((h.row_ok r hr).replace hp)
  · exact Bool.eq_false_iff.mpr fun hp => hnone ((h.row_ok r hr).cancel hp)
  · rw [h.reserved, ← lockedFunds_congr h.terms]
    exact wrap_eq_self (by omega) hfit

/-- **Null mode is settled at every tick**, for every strategy, in every run that draws fewer
than `2 ^ 40` ids. -/
theorem tick_settled (hs₀ : s₀.Fresh) (hs : (runner s₀).ReachableWhen Runner.IdsLeft s)
    {draining : Bool} (htick : s.phase = .tickStart draining) : AtTick s₀ s := by
  obtain ⟨pending, hset, hpolled⟩ := hs.invariant (P := fun s => s.Ok s₀.x.account)
    (fun s (hs : s = s₀) => hs ▸ hs₀.ok) fun s a t _ hids hstep h => h.step hids hstep
  obtain rfl : pending = [] := hpolled (by rw [htick]; trivial)
  exact hset.atTick

end Runs

/-! ### The ids come round -/

/-- Exec with one instrument, without limits. -/
def plain (orders : OrderTable) (bal : ℕ → Balance) (st : ExecStats) : ExecContext :=
  { demoContext { spotOnly := false } with
    orders, st
    account := { (demoContext { spotOnly := false }).account with bal } }

/-- The lot that the order 1 buys at 100, in rest. -/
structure Resting (row : OrderRow) : Prop where
  id : row.id = OrderTable.orderId 1 1
  side : row.side = .buy
  instrument : row.instrument = 0
  px : row.px = 100
  leaves : row.leaves = 1

/-- Between two ticks, with one resting order, after `n` ids were drawn. -/
structure Idle (n : ℕ) (s : Runner) : Prop where
  context : ∃ orders bal st, s.x = plain orders bal st ∧ (bal 1).reserved = 100
  phase : s.phase = .timer
  queue : s.router.Holds []
  source : s.x.orders.source = (1, UInt64.ofNat n)
  rows : ∃ row, s.x.orders.rows = {row} ∧ Resting row

section Rounds

variable {orders : OrderTable} {bal : ℕ → Balance} {st : ExecStats} {router : NullRouter}

/-- The gate lets any lot through. -/
theorem plain_admits (bal : ℕ → Balance) (st : ExecStats) (hfull : orders.full = false)
    (tif : Tif) :
    (plain orders bal st).admits ((plain orders bal st).orderCheck .buy 100 1 tif .limit) =
      .ok () := by
  rw [ExecContext.admits, check_bind_eq_ok]
  refine ⟨?_, by rw [rejectIf_eq_ok]; exact Bool.eq_false_iff.mp hfull⟩
  simp [RiskGate.checkNew, check_bind_eq_ok, RiskGate.positionCheck, RiskGate.bandCheck,
    RiskGate.statusCheck, RateModel.wouldAllow, plain, demoContext, ExecContext.orderCheck,
    Account.trades]
  rfl

/-- The row and the request of such an order. -/
def lotRow (orders : OrderTable) (bal : ℕ → Balance) (st : ExecStats) (tif : Tif) : OrderRow :=
  (plain orders bal st).newRow orders.nextId.1
    ((plain orders bal st).orderCheck .buy 100 1 tif .limit)

def lotRequest (orders : OrderTable) (bal : ℕ → Balance) (st : ExecStats) (tif : Tif) :
    OrderRequest :=
  (plain orders bal st).newRequest orders.nextId.1
    ((plain orders bal st).orderCheck .buy 100 1 tif .limit)

/-- The quote balance with another reservation. -/
def reserving (bal : ℕ → Balance) (reserved : ℤ) : ℕ → Balance :=
  Function.update bal 1 { bal 1 with reserved }

theorem reserving_one (bal : ℕ → Balance) (reserved : ℤ) :
    (reserving bal reserved 1).reserved = reserved := by
  rw [reserving, Function.update_self]

theorem plain_reservation (orders : OrderTable) (bal : ℕ → Balance) (st : ExecStats) :
    (plain orders bal st).account.reservation 0 .buy 100 1 = 100 := by
  change Inst.tlToMoney ⟨0, 1, 0, 1, 1, {}⟩ (wrap 128 (100 * 1)) = 100
  decide

theorem plain_reserve (orders : OrderTable) (bal : ℕ → Balance) (st : ExecStats) :
    (plain orders bal st).account.reserve 0 .buy 100 1 = { (plain orders bal st).account with
      bal := reserving bal (wrap 64 ((bal 1).reserved + 100)) } := by
  rw [Account.reserve, plain_reservation]
  rfl

theorem plain_release (orders : OrderTable) (bal : ℕ → Balance) (st : ExecStats) :
    (plain orders bal st).account.release 0 .buy 100 1 = { (plain orders bal st).account with
      bal := reserving bal (wrap 64 ((bal 1).reserved - 100)) } := by
  rw [Account.release, plain_reservation]
  rfl

/-- A buy of one lot at 100. -/
theorem plain_submit (bal : ℕ → Balance) (st : ExecStats) {pending : List ExecReport}
    (hqueue : router.Holds pending) (hlen : pending.length + 2 ≤ NullRouter.QUEUE.toNat)
    (hfull : orders.full = false) (tif : Tif) :
    ∃ router', router'.Holds (pending ++ NullRouter.replies (lotRequest orders bal st tif)) ∧
      (StrategyContext.submit ⟨plain orders bal st, router⟩ .buy 100 1 tif .limit).1 =
        ⟨plain (orders.nextId.2.insert (lotRow orders bal st tif)).1
          (reserving bal (wrap 64 ((bal 1).reserved + 100)))
          { st with ordersNew := st.ordersNew + 1 }, router'⟩ := by
  have htwo : UInt32.toNat 2 = 2 := rfl
  have hone : UInt32.toNat 1 = 1 := rfl
  have hroom : ¬ NullRouter.QUEUE.toNat < pending.length +
      (NullRouter.needed (lotRequest orders bal st tif)).toNat := by
    rw [NullRouter.needed]
    split_ifs <;> omega
  have hsubmit := hqueue.submit (lotRequest orders bal st tif)
  rw [if_neg hroom] at hsubmit
  refine ⟨_, hsubmit.2, ?_⟩
  have hrun : Router.submit router (lotRequest orders bal st tif) =
      ((router.submit (lotRequest orders bal st tif)).1, true) := Prod.ext rfl hsubmit.1
  have hadmits := plain_admits bal st hfull tif
  unfold StrategyContext.submit
  dsimp only
  rw [hadmits]
  dsimp only
  rw [show Router.submit router ((plain orders bal st).newRequest
    (plain orders bal st).orders.nextId.1
    ((plain orders bal st).orderCheck .buy 100 1 tif .limit)) = _ from hrun]
  exact congrArg (fun account => StrategyContext.mk
    { plain (orders.nextId.2.insert (lotRow orders bal st tif)).1 bal
        { st with ordersNew := st.ordersNew + 1 } with account }
    (router.submit (lotRequest orders bal st tif)).1) (plain_reserve orders bal st)

/-- One round of `poll` with a report to take. -/
theorem step_report_cons {x : ExecContext} {rep : ExecReport} {pending : List ExecReport}
    (h : router.Holds (rep :: pending)) (next : AfterPoll) :
    ∃ router', router'.Holds pending ∧ Runner.step ⟨⟨x, router⟩, .poll next⟩ .report =
      some ⟨⟨x.applyReport { rep with tscRecv := x.tsc }, router'⟩, .onExec next⟩ := by
  obtain ⟨router', hpop, hholds⟩ := h.pop_cons x.tsc
  refine ⟨router', hholds, ?_⟩
  simp only [Runner.step]
  rw [hpop]

theorem step_report_nil {x : ExecContext} (h : router.Holds []) (next : AfterPoll) :
    Runner.step ⟨⟨x, router⟩, .poll next⟩ .report =
      some (Runner.afterPoll ⟨⟨x, router⟩, .poll next⟩ next) := by
  simp only [Runner.step]
  rw [h.pop_nil]

section Reach

variable {s₀ : Runner} {phase : Phase}

theorem reach_step {s t : Runner} {a : RunStep} (hs : (runner s₀).Reachable s)
    (hstep : s.step a = some t) : (runner s₀).Reachable t := .step hs trivial hstep

/-- A lot is sent, and the loop goes on to its poll. -/
theorem reach_sent (hs : (runner s₀).Reachable ⟨⟨plain orders bal st, router⟩, phase⟩)
    (hphase : phase.InCallback ∧ phase.resume = some .top) (hqueue : router.Holds [])
    (hfull : orders.full = false) (tif : Tif) :
    ∃ router', router'.Holds (NullRouter.replies (lotRequest orders bal st tif)) ∧
      (runner s₀).Reachable ⟨⟨plain (orders.nextId.2.insert (lotRow orders bal st tif)).1
        (reserving bal (wrap 64 ((bal 1).reserved + 100)))
        { st with ordersNew := st.ordersNew + 1 }, router'⟩, .poll .feed⟩ := by
  obtain ⟨router', hholds, hsubmit⟩ :=
    plain_submit bal st hqueue (by decide) hfull tif
  refine ⟨router', hholds, ?_⟩
  have hcall : Runner.step ⟨⟨plain orders bal st, router⟩, phase⟩
      (.call (.submit .buy 100 1 tif .limit)) = some ⟨_, phase⟩ :=
    Runner.step_call hphase.1 ⟨by decide, by decide⟩
  rw [StrategyContext.call, hsubmit] at hcall
  have hresume : ∀ c, Runner.step ⟨c, phase⟩ .resume = some ⟨c, .top⟩ := fun c => by
    simp only [Runner.step]
    rw [hphase.2]
    rfl
  exact reach_step (a := .control 0 false) (reach_step (reach_step hs hcall) (hresume _)) rfl

/-- The last report was handled: the loop goes on to the feed. -/
theorem reach_feed {x : ExecContext} (hs : (runner s₀).Reachable ⟨⟨x, router⟩, .onExec .feed⟩)
    (hqueue : router.Holds []) : (runner s₀).Reachable ⟨⟨x, router⟩, .feed⟩ :=
  reach_step (reach_step (a := .resume) hs rfl) (step_report_nil hqueue .feed)

/-- An ack is handled. -/
theorem reach_acked {rep : ExecReport} {pending : List ExecReport} {row : OrderRow}
    (hs : (runner s₀).Reachable ⟨⟨plain orders bal st, router⟩, .poll .feed⟩)
    (hqueue : router.Holds (rep :: pending)) (htype : rep.execType = .ack)
    (hfind : orders.find rep.clOrdId = some row) :
    ∃ router', router'.Holds pending ∧ (runner s₀).Reachable ⟨⟨plain
      (orders.modify row.id (setAcked (plain orders bal st).nowNs)) bal
      { st with acks := st.acks + 1 }, router'⟩, .onExec .feed⟩ := by
  obtain ⟨router', hholds, hstep⟩ := step_report_cons (x := plain orders bal st) hqueue .feed
  refine ⟨router', hholds, ?_⟩
  have hreport : (plain orders bal st).applyReport
      { rep with tscRecv := (plain orders bal st).tsc } = (plain orders bal st).applyAck row := by
    simp only [ExecContext.applyReport, htype]
    rw [show (plain orders bal st).orders.find rep.clOrdId = _ from hfind]
  rw [hreport] at hstep
  exact reach_step hs hstep

/-- An expiry is handled. -/
theorem reach_expired {rep : ExecReport} {pending : List ExecReport} {row : OrderRow}
    (hs : (runner s₀).Reachable ⟨⟨plain orders bal st, router⟩, .poll .feed⟩)
    (hqueue : router.Holds (rep :: pending)) (htype : rep.execType = .expired)
    (hfind : orders.find rep.clOrdId = some row) (hside : row.side = .buy)
    (hinst : row.instrument = 0) (hpx : row.px = 100) (hleaves : row.leaves = 1) :
    ∃ router', router'.Holds pending ∧ (runner s₀).Reachable ⟨⟨plain (orders.erase row.id)
      (reserving bal (wrap 64 ((bal 1).reserved - 100))) { st with expired := st.expired + 1 },
      router'⟩, .onExec .feed⟩ := by
  obtain ⟨router', hholds, hstep⟩ := step_report_cons (x := plain orders bal st) hqueue .feed
  refine ⟨router', hholds, ?_⟩
  have hreport : (plain orders bal st).applyReport
      { rep with tscRecv := (plain orders bal st).tsc } =
      plain (orders.erase row.id) (reserving bal (wrap 64 ((bal 1).reserved - 100)))
        { st with expired := st.expired + 1 } := by
    simp only [ExecContext.applyReport, htype]
    rw [show (plain orders bal st).orders.find rep.clOrdId = _ from hfind]
    dsimp only [ExecContext.finish]
    rw [hside, hinst, hpx, hleaves, plain_release]
    rfl
  rw [hreport] at hstep
  exact reach_step hs hstep

/-- **One round**: an order that cannot rest is sent, acked and expires. -/
theorem Idle.round {n : ℕ} {s : Runner} (h : Idle n s) (hs : (runner s₀).Reachable s) (hn : 1 ≤ n)
    (hlt : n < 2 ^ 40) : ∃ s', (runner s₀).Reachable s' ∧ Idle (n + 1) s' := by
  obtain ⟨⟨x, router⟩, phase⟩ := s
  obtain ⟨⟨orders, bal, st, hx, hreserved⟩, hphase, hqueue, hsource, row, hrows, hrow⟩ := h
  dsimp only at hx hphase hqueue hsource hrows
  subst hx hphase
  change orders.source = _ at hsource
  change orders.rows = _ at hrows
  have hfull : orders.full = false := by
    rw [OrderTable.full_eq, hrows, Multiset.card_singleton]
    unfold MAX_ROWS
    rfl
  have hcount : UInt64.ofNat n + 1 = UInt64.ofNat (n + 1) := by rw [UInt64.ofNat_add]; rfl
  have hserial : (orders.nextId.1).toNat = 2 ^ 40 + (n + 1) % 2 ^ 40 := by
    have hmod : (UInt64.ofNat (n + 1)).toNat = n + 1 :=
      UInt64.toNat_ofNat_of_lt' (show n + 1 < 2 ^ 64 by omega)
    have hone : (1 : UInt64).toNat = 1 := rfl
    rw [OrderTable.nextId_fst, hsource, hcount, OrderTable.toNat_orderId, hmod, hone]
    omega
  have hrowId : row.id.toNat = 2 ^ 40 + 1 := by
    rw [hrow.id, OrderTable.toNat_orderId]
    rfl
  have hne : row.id ≠ orders.nextId.1 := fun heq => by
    rw [← heq, hrowId] at hserial
    omega
  -- the new row goes in, also where the counter wraps to serial 0
  have hrefuse : ¬ orders.nextId.2.Refuses (lotRow orders bal st .ioc) := by
    rintro (hcard | hzero | ⟨r, hr, hid⟩)
    · rw [OrderTable.full_eq] at hfull
      exact of_decide_eq_false hfull hcard
    · have hz : orders.nextId.1 = 0 := hzero
      rw [hz] at hserial
      have h0 : (0 : UInt64).toNat = 0 := rfl
      omega
    · rw [OrderTable.nextId_rows, hrows, Multiset.mem_singleton] at hr
      exact hne (hr ▸ hid)
  obtain ⟨-, hrows₁, hsource₁⟩ := OrderTable.insert_of_not_refuses hrefuse
  rw [OrderTable.nextId_rows, hrows] at hrows₁
  obtain ⟨router₁, hqueue₁, hreach₁⟩ := reach_sent hs ⟨trivial, rfl⟩ hqueue hfull .ioc
  have hqueue₁ : router₁.Holds [NullRouter.reportOf (lotRequest orders bal st .ioc) .ack .new 1,
      NullRouter.reportOf (lotRequest orders bal st .ioc) .expired .expired 0] := hqueue₁
  obtain ⟨router₂, hqueue₂, hreach₂⟩ := reach_acked hreach₁ hqueue₁ rfl
    (OrderTable.find_eq_some.mpr ⟨OrderTable.mem_rows_of_cons hrows₁, rfl⟩)
  have hrows₂ := fun f => OrderTable.modify_rows hrows₁ f
  obtain ⟨router₃, hqueue₃, hreach₃⟩ := reach_expired
    (reach_step (a := .resume) hreach₂ rfl) hqueue₂ rfl
    (OrderTable.find_eq_some.mpr ⟨OrderTable.mem_rows_of_cons (hrows₂ _), rfl⟩) rfl rfl rfl rfl
  have hrows₃ := fun f => OrderTable.erase_rows (hrows₂ f)
  have hidle := reach_step (a := .pop none) (reach_feed hreach₃ hqueue₃) rfl
  refine ⟨_, hidle, ⟨_, _, _, rfl, ?_⟩, rfl, hqueue₃, ?_, row, hrows₃ _, hrow⟩
  · rw [reserving_one, reserving_one, hreserved]
    decide
  · change ((OrderTable.modify _ _ _).erase _).source = _
    rw [OrderTable.erase_source, OrderTable.modify_source, OrderTable.insert_source,
      OrderTable.nextId_source, hsource, hcount]

/-- So many rounds, in the end, that the counter is back where it started. -/
theorem Idle.rounds {s : Runner} (h : Idle 1 s) (hs : (runner s₀).Reachable s) {n : ℕ} (hn : 1 ≤ n)
    (hle : n ≤ 2 ^ 40) : ∃ s', (runner s₀).Reachable s' ∧ Idle n s' := by
  induction n, hn using Nat.le_induction with
  | base => exact ⟨s, hs, h⟩
  | succ n hn ih =>
    obtain ⟨s', hs', h'⟩ := ih (by omega)
    exact h'.round hs' hn (by omega)

end Reach

end Rounds

/-- The table of the first generation. -/
def freshTable : OrderTable := OrderTable.empty.setGeneration 1

/-- Balances of which nothing is reserved. -/
def freshBalances (_ : ℕ) : Balance := ⟨1000, 0⟩

/-- Exec in its first generation, with the null router. -/
def freshRunner : Runner :=
  ⟨⟨plain freshTable freshBalances {}, ⟨fun _ => { clOrdId := 0, execType := .ack }, 0, 0⟩⟩, .start⟩

theorem fresh_freshRunner : freshRunner.Fresh :=
  ⟨rfl, .nil, rfl, rfl, rfl, fun _ => rfl⟩

instance (s : Runner) (a : RunStep) : Decidable (s.IdsLeft a) :=
  inferInstanceAs (Decidable (_ < _))

/-- `on_start` buys a lot, and the first frame comes. -/
def firstFrame : List RunStep :=
  [.call (.submit .buy 100 1 .gtc .limit), .resume, .control 0 false, .report, .resume, .report,
    .pop (some .zero)]

theorem tick_settled_first :
    ∃ s, (runner freshRunner).ReachableWhen Runner.IdsLeft s ∧ s.x.orders.size = 1 ∧
      AtTick freshRunner s := by
  have hrun : ((runner freshRunner).execWhen Runner.IdsLeft freshRunner firstFrame).map
      (fun s => (s.x.orders.size, s.phase.ctorIdx)) =
        some (1, (Phase.tickStart false).ctorIdx) := by
    decide +kernel
  obtain ⟨s, hs, hseen⟩ := Option.map_eq_some_iff.mp hrun
  obtain ⟨hsize, hphase⟩ := Prod.ext_iff.mp hseen
  have hreach := Machine.ReachableWhen.execWhen (.init rfl) firstFrame hs
  dsimp only at hphase
  cases htick : s.phase with
  | tickStart draining => exact ⟨s, hreach, hsize, tick_settled fresh_freshRunner hreach htick⟩
  | _ => exact absurd (htick ▸ hphase) (by simp only [Phase.ctorIdx]; omega)

/-- After `on_start` has bought a lot, one order rests. -/
theorem exists_idle : ∃ s, (runner freshRunner).Reachable s ∧ Idle 1 s := by
  have hinit : (runner freshRunner).Reachable freshRunner := .init rfl
  have hfull : freshTable.full = false := by
    rw [OrderTable.full_eq]
    unfold MAX_ROWS
    rfl
  have hrefuse : ¬ freshTable.nextId.2.Refuses
      (lotRow freshTable freshBalances {} .gtc) :=
    not_refuses_nextId (t := freshTable) (by decide)
      (fun r hr => absurd hr (Multiset.notMem_zero r)) hfull rfl
  obtain ⟨-, hrows₁, -⟩ := OrderTable.insert_of_not_refuses hrefuse
  obtain ⟨router₁, hqueue₁, hreach₁⟩ := reach_sent hinit ⟨trivial, rfl⟩ .nil hfull .gtc
  have hqueue₁ : router₁.Holds
      [NullRouter.reportOf (lotRequest freshTable freshBalances {} .gtc) .ack .new 1] := hqueue₁
  obtain ⟨router₂, hqueue₂, hreach₂⟩ := reach_acked hreach₁ hqueue₁ rfl
    (OrderTable.find_eq_some.mpr ⟨OrderTable.mem_rows_of_cons hrows₁, rfl⟩)
  have hrows₂ := fun f => OrderTable.modify_rows hrows₁ f
  have hidle := reach_step (a := .pop none) (reach_feed hreach₂ hqueue₂) rfl
  refine ⟨_, hidle, ⟨_, _, _, rfl, ?_⟩, rfl, hqueue₂, ?_, _, hrows₂ _, rfl, rfl, rfl, rfl, rfl⟩
  · rw [reserving_one]
    decide
  · change (OrderTable.modify _ _ _).source = _
    rw [OrderTable.modify_source, OrderTable.insert_source, OrderTable.nextId_source]
    rfl

/-- A frame changes no funds. -/
theorem AtTick.reserved_of_frame {s₀ : Runner} {c : StrategyContext NullRouter} {phase : Phase}
    {u : MarketUpdate} {draining : Bool} (h : AtTick s₀ (Runner.onFrame ⟨c, phase⟩ u draining))
    (k : ℕ) (hfit : Fits 64 (lockedFunds c.x.account k c.x.orders.rows)) :
    (c.x.account.bal k).reserved = lockedFunds c.x.account k c.x.orders.rows := by
  have hterms : (c.x.onFrame u).account.terms = c.x.account.terms := terms_mark _ _
  have hbal : (c.x.onFrame u).account.bal = c.x.account.bal := bal_mark _ _
  have hreserved := h.reserved k
  change Fits 64 (lockedFunds (c.x.onFrame u).account k c.x.orders.rows) →
    ((c.x.onFrame u).account.bal k).reserved =
      lockedFunds (c.x.onFrame u).account k c.x.orders.rows at hreserved
  rw [lockedFunds_congr hterms, hbal] at hreserved
  exact hreserved hfit

/-- **The id of a live order comes round** after `2 ^ 40` more: its row is not inserted, and the
funds reserved for it are those of no row. -/
theorem id_reuse :
    ¬ ∀ s₀ s : Runner, s₀.Fresh → (runner s₀).Reachable s →
      ∀ draining, s.phase = .tickStart draining → AtTick s₀ s := by
  intro hclaim
  obtain ⟨s₁, hs₁, hidle₁⟩ := exists_idle
  obtain ⟨s, hs, hidle⟩ := hidle₁.rounds hs₁ (n := 2 ^ 40) (by omega) le_rfl
  obtain ⟨⟨x, router⟩, phase⟩ := s
  obtain ⟨⟨orders, bal, st, hx, hreserved⟩, hphase, hqueue, hsource, row, hrows, hrow⟩ := hidle
  dsimp only at hx hphase hqueue hsource hrows
  subst hx hphase
  change orders.source = _ at hsource
  change orders.rows = _ at hrows
  have hfull : orders.full = false := by
    rw [OrderTable.full_eq, hrows, Multiset.card_singleton]
    unfold MAX_ROWS
    rfl
  have hid : orders.nextId.1 = row.id := by
    rw [OrderTable.nextId_fst, hsource, hrow.id]
    decide
  have hrefuse : orders.nextId.2.Refuses (lotRow orders bal st .gtc) :=
    .inr (.inr ⟨row, by rw [OrderTable.nextId_rows, hrows]; exact Multiset.mem_singleton_self row,
      hid.symm⟩)
  obtain ⟨router₁, hqueue₁, hreach₁⟩ := reach_sent hs ⟨trivial, rfl⟩ hqueue hfull .gtc
  rw [OrderTable.insert_of_refuses hrefuse] at hreach₁
  have hqueue₁ : router₁.Holds [NullRouter.reportOf (lotRequest orders bal st .gtc) .ack .new 1] :=
    hqueue₁
  obtain ⟨router₂, hqueue₂, hreach₂⟩ := reach_acked hreach₁ hqueue₁ rfl
    (OrderTable.find_eq_some.mpr ⟨OrderTable.mem_rows_of_cons hrows, hid.symm⟩)
  have htick := reach_step (a := .pop (some .zero)) (reach_feed hreach₂ hqueue₂) rfl
  -- two lots are reserved for, one is live
  have hlocked : ∀ (o : OrderTable) (bal' : ℕ → Balance) (st' : ExecStats) (f : RowStore),
      SameTerms row (f.run row) → lockedFunds (plain o bal' st').account 1
        (orders.nextId.2.modify row.id f).rows = 100 := by
    intro o bal' st' f hf
    rw [OrderTable.modify_rows (t := orders.nextId.2) hrows f, lockedFunds_cons, hf.side,
      hf.instrument, hf.px, hf.leaves, hrow.side, hrow.instrument, hrow.px, hrow.leaves,
      plain_reservation]
    rfl
  have hat := hclaim freshRunner _ fresh_freshRunner htick false rfl
  have hacked : ∀ now, SameTerms row ((setAcked now).run row) := fun _ =>
    ⟨⟨rfl, rfl, rfl, rfl⟩, rfl, rfl, rfl, rfl⟩
  have hfit : ∀ funds : ℤ, funds = 100 → Fits 64 funds := by
    rintro _ rfl
    decide
  have htwo : wrap 64 ((bal 1).reserved + 100) = 100 := (reserving_one bal _).symm.trans
    ((hat.reserved_of_frame 1 (hfit _ (hlocked _ _ _ _ (hacked _)))).trans
      (hlocked _ _ _ _ (hacked _)))
  rw [hreserved] at htwo
  exact absurd htwo (by decide)

end Exec

end LowLatencyPipeline
