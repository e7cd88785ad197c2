import LowLatencyPipeline.Exec.Engine

/-!
# Requests and their answers

Exec and a venue that answers the requests of each order one by one, in the order in which they
were sent. `Outbox` is a router that keeps the unanswered requests of every order, so the
conversations about all orders run beside each other, with fills and expiries in between.

A row has one slot for an amend in flight and one bit each for an amend and a cancel. A
`CancelReject` does not say which of the two it answers, and clears both bits: when it answers an
amend while a cancel is behind it, the order looks as if nothing were asked of it
(`cancel_forgotten`). `answers_match` says that this is the only way.
-/

namespace LowLatencyPipeline

namespace Exec

universe u

/-- Price and quantity. -/
structure OrderTerms where
  px : ℤ
  qty : ℤ

/-- What a request asks for. -/
def OrderTerms.asked (req : OrderRequest) : OrderTerms := ⟨req.price, req.qty⟩

/-- The row has these terms. A market order asks for no price, and its row has the mid at which
it reserves. -/
def OrderTerms.Stand (t : OrderTerms) (row : OrderRow) : Prop :=
  row.qty = t.qty ∧ (0 < t.px → row.px = t.px)

/-- A router, and the requests of each order that it has taken and that are not answered yet,
oldest first. -/
structure Outbox (ρ : Type u) where
  router : ρ
  unanswered : UInt64 → List OrderRequest

variable {ρ : Type u}

/-- The request is sent. -/
def Outbox.add (o : Outbox ρ) (router : ρ) (req : OrderRequest) : Outbox ρ where
  router := router
  unanswered :=
    Function.update o.unanswered req.clOrdId (o.unanswered req.clOrdId ++ [req])

theorem Outbox.add_self (o : Outbox ρ) (router : ρ) (req : OrderRequest) :
    (o.add router req).unanswered req.clOrdId = o.unanswered req.clOrdId ++ [req] :=
  Function.update_self _ _ _

theorem Outbox.add_of_ne (o : Outbox ρ) (router : ρ) {req : OrderRequest} {id : UInt64}
    (h : id ≠ req.clOrdId) : (o.add router req).unanswered id = o.unanswered id :=
  Function.update_of_ne h _ _

instance [Router ρ] : Router (Outbox ρ) where
  submit o req :=
    match Router.submit o.router req with
    | (router, false) => ({ o with router }, false)
    | (router, true) => (o.add router req, true)

/-- Exec, the conversations, and the terms that the venue confirmed last for each order. -/
structure Dialogue (ρ : Type u) extends StrategyContext (Outbox ρ) where
  confirmed : UInt64 → Option OrderTerms

/-- What happens next. -/
inductive DialogueStep (ρ : Type u)
  | clock (tsc : UInt64) (wallNs : ℤ)
  | control (flags : UInt32)
  | frame (u : MarketUpdate)
  /-- the router's state changes outside of exec's requests -/
  | venue (router : ρ)
  | call (a : Call)
  /-- the venue answers the oldest request of an order -/
  | answer (rep : ExecReport)
  /-- a fill, an expiry or a restatement -/
  | event (rep : ExecReport)

/-- The reports that answer a request. -/
def AnsweredBy : ReqType → ExecType → Prop
  | .new, type => type = .ack ∨ type = .reject
  | .replace, type => type = .replaced ∨ type = .cancelReject
  | .cancel, type => type = .canceled ∨ type = .cancelReject
  | .cancelAll, _ => False

instance (req : ReqType) (type : ExecType) : Decidable (AnsweredBy req type) := by
  cases req <;> unfold AnsweredBy <;> infer_instance

namespace Dialogue

variable (s : Dialogue ρ)

/-- A request is answered; an `Ack` and a `Replaced` confirm its terms. -/
def answer (rep : ExecReport) (req : OrderRequest) (rest : List OrderRequest) : Dialogue ρ where
  x := s.x.applyReport rep
  router := { s.router with unanswered := Function.update s.router.unanswered rep.clOrdId rest }
  confirmed :=
    if rep.execType = .ack ∨ rep.execType = .replaced then
      Function.update s.confirmed rep.clOrdId (some (OrderTerms.asked req))
    else s.confirmed

/-- One step. -/
def step [Router ρ] : DialogueStep ρ → Option (Dialogue ρ)
  | .clock tsc wallNs => some { s with x := { s.x with tsc, wallNs } }
  | .control flags => some { s with x := { s.x with controlFlags := flags } }
  | .frame u => some { s with x := s.x.onFrame u }
  | .venue router => some { s with router := { s.router with router } }
  | .call a => some { s with toStrategyContext := s.toStrategyContext.call a }
  | .answer rep =>
    match s.router.unanswered rep.clOrdId with
    | [] => none
    | req :: rest => if AnsweredBy req.type rep.execType then some (s.answer rep req rest) else none
  | .event rep =>
    if rep.IsFill ∨ rep.execType = .expired ∨ rep.execType = .restated then
      some { s with x := s.x.applyReport rep }
    else none

/-- Fewer than `2 ^ 40` ids are drawn. -/
def IdsLeft : DialogueStep ρ → Prop
  | .call _ => s.x.drawn + 1 < 2 ^ 40
  | _ => True

/-- **The condition on a step**: a `CancelReject` does not answer an amend of a live order while a
cancel is behind it. -/
def KeepsCancel : DialogueStep ρ → Prop
  | .answer rep =>
    rep.execType = .cancelReject → s.x.orders.find rep.clOrdId ≠ none →
      (∃ req ∈ (s.router.unanswered rep.clOrdId).head?, req.type = .replace) →
        ∀ req ∈ s.router.unanswered rep.clOrdId, req.type ≠ .cancel
  | _ => True

/-- **What the row says of the conversation.** -/
structure RowMatches (row : OrderRow) : Prop where
  terms : ∀ t ∈ s.confirmed row.id, t.Stand row
  replace : row.pendingReplace = true ↔
    ∃ req ∈ s.router.unanswered row.id, req.type = .replace
  cancel : row.pendingCancel = true ↔ ∃ req ∈ s.router.unanswered row.id, req.type = .cancel

instance (a : DialogueStep ρ) : Decidable (s.IdsLeft a) := by
  cases a <;> unfold IdsLeft <;> infer_instance

instance (a : DialogueStep ρ) : Decidable (s.KeepsCancel a) := by
  cases a <;> unfold KeepsCancel <;> infer_instance

/-- No order, and nothing asked. -/
structure Fresh : Prop where
  rows : s.x.orders.rows = 0
  drawn : s.x.drawn = 0
  unanswered : ∀ id, s.router.unanswered id = []
  confirmed : ∀ id, s.confirmed id = none

end Dialogue

/-- Exec and a venue that answers in order, from no order on. -/
def dialogue (ρ : Type u) [Router ρ] : Machine (Dialogue ρ) (DialogueStep ρ) where
  Init := Dialogue.Fresh
  step := fun s a => s.step a

/-! ### The conversation about one order -/

/-- The `New` request of an order is answered, or still the first of the conversation. -/
inductive NewPart (confirmed : Option OrderTerms) (row : OrderRow) : List OrderRequest → Prop
  | answered (t : OrderTerms) : confirmed = some t → t.Stand row → NewPart confirmed row []
  | asked (req : OrderRequest) : req.type = .new → confirmed = none →
    (OrderTerms.asked req).Stand row →
      NewPart confirmed row [req]

/-- No amend is asked, or the one in the row's slot. -/
inductive ReplacePart (row : OrderRow) : List OrderRequest → Prop
  | none : row.pendingReplace = false → ReplacePart row []
  | asked (req : OrderRequest) : req.type = .replace → row.pendingReplace = true →
      row.newPx = req.price → row.newQty = req.qty → ReplacePart row [req]

/-- No cancel is asked, or one. -/
inductive CancelPart (row : OrderRow) : List OrderRequest → Prop
  | none : row.pendingCancel = false → CancelPart row []
  | asked (req : OrderRequest) : req.type = .cancel → row.pendingCancel = true →
      CancelPart row [req]

/-- **A live order's conversation**: at most its `New`, then one amend, then one cancel are
unanswered. -/
inductive Talk (confirmed : Option OrderTerms) (row : OrderRow) : List OrderRequest → Prop
  | mk (news replaces cancels : List OrderRequest) : NewPart confirmed row news →
      ReplacePart row replaces → CancelPart row cancels →
      Talk confirmed row (news ++ (replaces ++ cancels))

section Talk

variable {confirmed : Option OrderTerms} {row row' : OrderRow} {reqs news replaces cancels :
  List OrderRequest} {t : OrderTerms}

theorem NewPart.type_eq (h : NewPart confirmed row news) {req : OrderRequest} (hreq : req ∈ news) :
    req.type = .new := by
  cases h with
  | answered => exact absurd hreq List.not_mem_nil
  | asked r htype => rwa [List.mem_singleton.1 hreq]

theorem ReplacePart.type_eq (h : ReplacePart row replaces) {req : OrderRequest}
    (hreq : req ∈ replaces) : req.type = .replace := by
  cases h with
  | none => exact absurd hreq List.not_mem_nil
  | asked r htype => rwa [List.mem_singleton.1 hreq]

theorem CancelPart.type_eq (h : CancelPart row cancels) {req : OrderRequest}
    (hreq : req ∈ cancels) : req.type = .cancel := by
  cases h with
  | none => exact absurd hreq List.not_mem_nil
  | asked r htype => rwa [List.mem_singleton.1 hreq]

theorem ReplacePart.pending_iff (h : ReplacePart row replaces) :
    row.pendingReplace = true ↔ ∃ req ∈ replaces, req.type = .replace := by
  cases h with
  | none hpending => simp [hpending]
  | asked req htype hpending => simp [hpending, htype]

theorem CancelPart.pending_iff (h : CancelPart row cancels) :
    row.pendingCancel = true ↔ ∃ req ∈ cancels, req.type = .cancel := by
  cases h with
  | none hpending => simp [hpending]
  | asked req htype hpending => simp [hpending, htype]

/-- The amends of a conversation. -/
theorem Talk.pendingReplace_iff (h : Talk confirmed row reqs) :
    row.pendingReplace = true ↔ ∃ req ∈ reqs, req.type = .replace := by
  obtain ⟨news, replaces, cancels, hnew, hreplace, hcancel⟩ := h
  rw [hreplace.pending_iff]
  constructor
  · rintro ⟨req, hreq, htype⟩
    exact ⟨req, by simp [hreq], htype⟩
  · rintro ⟨req, hreq, htype⟩
    simp only [List.mem_append] at hreq
    rcases hreq with hreq | hreq | hreq
    · exact absurd (htype.symm.trans (hnew.type_eq hreq)) (by decide)
    · exact ⟨req, hreq, htype⟩
    · exact absurd (htype.symm.trans (hcancel.type_eq hreq)) (by decide)

/-- The cancels of a conversation. -/
theorem Talk.pendingCancel_iff (h : Talk confirmed row reqs) :
    row.pendingCancel = true ↔ ∃ req ∈ reqs, req.type = .cancel := by
  obtain ⟨news, replaces, cancels, hnew, hreplace, hcancel⟩ := h
  rw [hcancel.pending_iff]
  constructor
  · rintro ⟨req, hreq, htype⟩
    exact ⟨req, by simp [hreq], htype⟩
  · rintro ⟨req, hreq, htype⟩
    simp only [List.mem_append] at hreq
    rcases hreq with hreq | hreq | hreq
    · exact absurd (htype.symm.trans (hnew.type_eq hreq)) (by decide)
    · exact absurd (htype.symm.trans (hreplace.type_eq hreq)) (by decide)
    · exact ⟨req, hreq, htype⟩

/-- The terms of a conversation. -/
theorem Talk.stand (h : Talk confirmed row reqs) (ht : t ∈ confirmed) : t.Stand row := by
  obtain ⟨news, replaces, cancels, hnew, -, -⟩ := h
  cases hnew with
  | answered t' hconfirmed hstand =>
    exact Option.some_injective _ (hconfirmed.symm.trans ht) ▸ hstand
  | asked req htype hnone => exact nomatch hnone.symm.trans ht

/-- Two rows that the conversation cannot tell apart. -/
structure SameTalk (row row' : OrderRow) : Prop where
  px : row'.px = row.px
  qty : row'.qty = row.qty
  newPx : row'.newPx = row.newPx
  newQty : row'.newQty = row.newQty
  pendingReplace : row'.pendingReplace = row.pendingReplace
  pendingCancel : row'.pendingCancel = row.pendingCancel

theorem NewPart.congr (h : NewPart confirmed row news) (hpx : row'.px = row.px)
    (hqty : row'.qty = row.qty) : NewPart confirmed row' news := by
  have hstand (t : OrderTerms) (ht : t.Stand row) : t.Stand row' :=
    ⟨hqty.trans ht.1, fun hpos => hpx.trans (ht.2 hpos)⟩
  cases h with
  | answered t hconfirmed ht => exact .answered t hconfirmed (hstand t ht)
  | asked req htype hnone ht => exact .asked req htype hnone (hstand _ ht)

theorem CancelPart.congr (h : CancelPart row cancels)
    (hpending : row'.pendingCancel = row.pendingCancel) : CancelPart row' cancels := by
  cases h with
  | none hnone => exact .none (hpending.trans hnone)
  | asked req htype hasked => exact .asked req htype (hpending.trans hasked)

theorem Talk.congr (h : Talk confirmed row reqs) (hsame : SameTalk row row') :
    Talk confirmed row' reqs := by
  obtain ⟨news, replaces, cancels, hnew, hreplace, hcancel⟩ := h
  refine .mk _ _ _ (hnew.congr hsame.px hsame.qty) ?_ (hcancel.congr hsame.pendingCancel)
  cases hreplace with
  | none hnone => exact .none (hsame.pendingReplace.trans hnone)
  | asked req htype hasked hpx hqty =>
    exact .asked req htype (hsame.pendingReplace.trans hasked) (hsame.newPx.trans hpx)
      (hsame.newQty.trans hqty)

/-- An amend is asked while nothing else is pending. -/
theorem Talk.replace (h : Talk confirmed row reqs) (hcancel : row.pendingCancel = false)
    (hreplace : row.pendingReplace = false) {req : OrderRequest} (htype : req.type = .replace) :
    Talk confirmed ((setPendingReplace req.price req.qty).run row) (reqs ++ [req]) := by
  obtain ⟨news, replaces, cancels, hn, hr, hc⟩ := h
  cases hr with
  | asked _ _ hpending => exact absurd (hreplace.symm.trans hpending) Bool.false_ne_true
  | none =>
    cases hc with
    | asked _ _ hpending => exact absurd (hcancel.symm.trans hpending) Bool.false_ne_true
    | none =>
      rw [List.append_nil, List.append_nil]
      exact .mk news [req] [] (hn.congr rfl rfl) (.asked req htype rfl rfl rfl) (.none hcancel)

/-- A cancel is asked. -/
theorem Talk.cancel (h : Talk confirmed row reqs) (hcancel : row.pendingCancel = false)
    {req : OrderRequest} (htype : req.type = .cancel) :
    Talk confirmed (setPendingCancel.run row) (reqs ++ [req]) := by
  obtain ⟨news, replaces, cancels, hn, hr, hc⟩ := h
  cases hc with
  | asked _ _ hpending => exact absurd (hcancel.symm.trans hpending) Bool.false_ne_true
  | none =>
    rw [List.append_nil, List.append_assoc]
    refine .mk news replaces [req] (hn.congr rfl rfl) ?_ (.asked req htype rfl)
    cases hr with
    | none hpending => exact .none hpending
    | asked req' htype' hpending hpx hqty => exact .asked req' htype' hpending hpx hqty

/-- **The oldest request is answered.** -/
theorem Talk.answer {req : OrderRequest} {rest : List OrderRequest} {rep : ExecReport}
    {x : ExecContext} (h : Talk confirmed row (req :: rest))
    (hanswer : AnsweredBy req.type rep.execType)
    (hkeeps : rep.execType = .cancelReject → req.type = .replace →
      ∀ req' ∈ rest, req'.type ≠ .cancel)
    (hafter : x.rowAfter row rep = some row') :
    Talk (if rep.execType = .ack ∨ rep.execType = .replaced then some (OrderTerms.asked req)
      else confirmed) row' rest := by
  unfold ExecContext.rowAfter at hafter
  generalize hreqs : req :: rest = reqs at h
  obtain ⟨news, replaces, cancels, hnew, hreplace, hcancel⟩ := h
  cases hnew with
  -- the answer is for the new order, which was sent first
  | asked req' htype hnone hstand =>
    obtain ⟨rfl, rfl⟩ := List.cons.inj hreqs
    rw [htype] at hanswer
    rcases hanswer with hack | hreject
    · rw [hack, Option.some.injEq] at hafter
      subst hafter
      rw [if_pos (.inl hack)]
      refine Talk.mk [] replaces cancels (.answered _ rfl hstand) ?_ (hcancel.congr rfl)
      cases hreplace with
      | none hpending => exact .none hpending
      | asked req' htype' hpending hpx hqty => exact .asked req' htype' hpending hpx hqty
    · rw [hreject] at hafter
      exact nomatch hafter
  | answered t hconfirmed hstand =>
    cases hreplace with
    -- the new order is answered, so the answer is for the amend
    | asked req' htype hpending hpx hqty =>
      obtain ⟨rfl, rfl⟩ := List.cons.inj hreqs
      rw [htype] at hanswer
      rcases hanswer with hreplaced | hreject
      · rw [hreplaced, Option.some.injEq] at hafter
        subst hafter
        rw [if_pos (.inr hreplaced)]
        exact Talk.mk [] [] rest (.answered _ rfl ⟨hqty, fun _ => hpx⟩) (.none rfl)
          (hcancel.congr rfl)
      · -- a reject clears both flags of the row, which is right only where no cancel waits behind
        -- the amend
        have hno := hkeeps hreject htype
        rw [hreject, Option.some.injEq] at hafter
        subst hafter
        rw [if_neg (by simp [hreject])]
        cases hcancel with
        | asked req' htype' => exact absurd htype' (hno req' (List.mem_singleton_self req'))
        | none => exact Talk.mk [] [] [] (.answered t hconfirmed hstand) (.none rfl) (.none rfl)
    | none =>
      cases hcancel with
      | none => exact nomatch hreqs
      -- only the cancel is left
      | asked req' htype =>
        obtain ⟨rfl, rfl⟩ := List.cons.inj hreqs
        rw [htype] at hanswer
        rcases hanswer with hcanceled | hreject
        · rw [hcanceled] at hafter
          exact nomatch hafter
        · rw [hreject, Option.some.injEq] at hafter
          subst hafter
          rw [if_neg (by simp [hreject])]
          exact Talk.mk [] [] [] (.answered t hconfirmed hstand) (.none rfl) (.none rfl)

end Talk

/-! ### All conversations -/

/-- **The invariant**: every live order has its conversation, and no id is in use that was not
drawn. -/
structure InTurn (c : StrategyContext (Outbox ρ)) (confirmed : UInt64 → Option OrderTerms) :
    Prop where
  drawn_lt : c.x.drawn < 2 ^ 40
  talk : ∀ r ∈ c.x.orders.rows, Talk (confirmed r.id) r (c.router.unanswered r.id)
  row_serial : ∀ r ∈ c.x.orders.rows, serial r.id ≤ c.x.drawn
  asked_serial : ∀ id, c.router.unanswered id ≠ [] → serial id ≤ c.x.drawn
  confirmed_serial : ∀ id, confirmed id ≠ none → serial id ≤ c.x.drawn

section InTurn

variable {c c' : StrategyContext (Outbox ρ)} {confirmed : UInt64 → Option OrderTerms}

/-- What the conversations do not see. -/
theorem InTurn.still (h : InTurn c confirmed) (hrows : c'.x.orders.rows ≤ c.x.orders.rows)
    (hle : c.x.drawn ≤ c'.x.drawn) (hlt : c'.x.drawn < 2 ^ 40)
    (hunanswered : c'.router.unanswered = c.router.unanswered) : InTurn c' confirmed where
  drawn_lt := hlt
  talk r hr := hunanswered ▸ h.talk r (Multiset.mem_of_le hrows hr)
  row_serial r hr := (h.row_serial r (Multiset.mem_of_le hrows hr)).trans hle
  asked_serial id hid := (h.asked_serial id (hunanswered ▸ hid)).trans hle
  confirmed_serial id hid := (h.confirmed_serial id hid).trans hle

/-- A request about a live order is sent. -/
theorem InTurn.sent (h : InTurn c confirmed) {row row' : OrderRow} {rest : Multiset OrderRow}
    (hrows : c.x.orders.rows = row ::ₘ rest) (hrows' : c'.x.orders.rows = row' ::ₘ rest)
    (hid : row'.id = row.id) (hdrawn : c'.x.drawn = c.x.drawn) {req : OrderRequest} {router : ρ}
    (hreq : req.clOrdId = row.id) (hrouter : c'.router = c.router.add router req)
    (htalk : Talk (confirmed row.id) row' (c.router.unanswered row.id ++ [req])) :
    InTurn c' confirmed := by
  have hrow := OrderTable.mem_rows_of_cons hrows
  have hrest {r : OrderRow} (hr : r ∈ rest) : r ∈ c.x.orders.rows ∧ r.id ≠ row.id :=
    ⟨hrows ▸ Multiset.mem_cons_of_mem hr, OrderTable.id_ne_of_cons hrows hr⟩
  have hself : c'.router.unanswered row.id = c.router.unanswered row.id ++ [req] := by
    rw [hrouter, ← hreq]
    exact Outbox.add_self _ _ _
  have hother {id : UInt64} (hne : id ≠ row.id) :
      c'.router.unanswered id = c.router.unanswered id := by
    rw [hrouter]
    exact Outbox.add_of_ne _ _ (hreq ▸ hne)
  refine ⟨hdrawn ▸ h.drawn_lt, fun r hr => ?_, fun r hr => ?_, fun id hne => ?_,
    fun id hne => hdrawn ▸ h.confirmed_serial id hne⟩
  · rcases Multiset.mem_cons.1 (hrows' ▸ hr) with rfl | hr
    · rw [hid, hself]
      exact htalk
    · obtain ⟨hr, hne⟩ := hrest hr
      rw [hother hne]
      exact h.talk r hr
  · rw [hdrawn]
    rcases Multiset.mem_cons.1 (hrows' ▸ hr) with rfl | hr
    · exact hid ▸ h.row_serial row hrow
    · exact h.row_serial r (hrest hr).1
  · rw [hdrawn]
    rcases eq_or_ne id row.id with rfl | hid
    · exact h.row_serial row hrow
    · exact h.asked_serial id (hother hid ▸ hne)

variable [Router ρ]

/-- The outbox keeps what its router takes. -/
theorem Outbox.submit_true {o o' : Outbox ρ} {req : OrderRequest}
    (h : Router.submit o req = (o', true)) : ∃ router, o' = o.add router req := by
  change (match Router.submit o.router req with
    | (router, false) => ({ o with router }, false)
    | (router, true) => (o.add router req, true)) = (o', true) at h
  split at h
  · exact absurd (Prod.ext_iff.1 h).2 Bool.false_ne_true
  · exact ⟨_, (Prod.ext_iff.1 h).1.symm⟩

/-- What its router refuses leaves no trace in the outbox. -/
theorem Outbox.submit_false {o o' : Outbox ρ} {req : OrderRequest}
    (h : Router.submit o req = (o', false)) : o'.unanswered = o.unanswered := by
  change (match Router.submit o.router req with
    | (router, false) => ({ o with router }, false)
    | (router, true) => (o.add router req, true)) = (o', false) at h
  split at h
  · exact (congrArg Outbox.unanswered (Prod.ext_iff.1 h).1).symm
  · exact absurd (Prod.ext_iff.1 h).2.symm Bool.false_ne_true

/-- A submit. -/
theorem InTurn.submit (h : InTurn c confirmed) {side : Side} {px qty : ℤ} {tif : Tif}
    {type : OrdType} (hleft : c.x.drawn + 1 < 2 ^ 40) :
    InTurn (c.submit side px qty tif type).1 confirmed := by
  have heffect := c.submit_effect side px qty tif type
  generalize hcheck : c.x.orderCheck side px qty tif type = o at heffect
  generalize (c.submit side px qty tif type).1 = c' at heffect ⊢
  cases heffect with
  | refused r => exact h.still le_rfl le_rfl h.drawn_lt rfl
  | unsent orders router hrouter horders =>
    have hcount : orders.source.2.toNat = c.x.drawn + 1 := toNat_counter_nextId hleft
      (by rw [horders, OrderTable.erase_source, OrderTable.insert_source])
    have hrows : orders.rows ≤ c.x.orders.rows :=
      horders ▸ StrategyContext.rows_insert_erase_le c.x.orders.nextId.2 _
    refine h.still hrows ?_ ?_ (Outbox.submit_false hrouter)
    · exact (Nat.le_succ _).trans_eq hcount.symm
    · exact hcount.trans_lt hleft
  | sent orders rate router hadmits hrouter horders =>
    have hcount : orders.source.2.toNat = c.x.drawn + 1 :=
      toNat_counter_nextId hleft (by rw [horders, OrderTable.insert_source])
    have hserial : serial c.x.orders.nextId.1 = c.x.drawn + 1 := serial_nextId _ hleft
    obtain ⟨router', rfl⟩ := Outbox.submit_true hrouter
    -- the id is new
    have hnone : c.router.unanswered c.x.orders.nextId.1 = [] := by
      by_contra hne
      exact ne_nextId hleft (h.asked_serial _ hne) rfl
    have hfresh : confirmed c.x.orders.nextId.1 = none := by
      by_contra hne
      exact ne_nextId hleft (h.confirmed_serial _ hne) rfl
    have hother {id : UInt64} (hne : id ≠ c.x.orders.nextId.1) :
        (c.router.add router' (c.x.newRequest c.x.orders.nextId.1 o)).unanswered id =
          c.router.unanswered id := Outbox.add_of_ne _ _ hne
    have hself : (c.router.add router' (c.x.newRequest c.x.orders.nextId.1 o)).unanswered
        c.x.orders.nextId.1 = [c.x.newRequest c.x.orders.nextId.1 o] := by
      refine (Outbox.add_self _ _ _).trans ?_
      change c.router.unanswered c.x.orders.nextId.1 ++ _ = _
      rw [hnone, List.nil_append]
    have hmem {r : OrderRow} (hr : r ∈ orders.rows) :
        r ∈ c.x.orders.rows ∨ r = c.x.newRow c.x.orders.nextId.1 o := by
      rw [horders] at hr
      by_cases hrefuses : c.x.orders.nextId.2.Refuses (c.x.newRow c.x.orders.nextId.1 o)
      · rw [OrderTable.insert_of_refuses hrefuses] at hr
        exact .inl hr
      · rw [(OrderTable.insert_of_not_refuses hrefuses).2.1] at hr
        exact (Multiset.mem_cons.1 hr).symm
    refine ⟨hcount.trans_lt hleft, fun r hr => ?_, fun r hr => ?_, fun id hid => ?_,
      fun id hid => ?_⟩
    · rcases hmem hr with hr | rfl
      · exact (hother (ne_nextId hleft (h.row_serial r hr))).symm ▸ h.talk r hr
      · change Talk (confirmed c.x.orders.nextId.1) _
          ((c.router.add router' (c.x.newRequest c.x.orders.nextId.1 o)).unanswered
            c.x.orders.nextId.1)
        rw [hself, hfresh]
        exact Talk.mk [_] [] [] (.asked _ rfl rfl ⟨rfl, fun hpos => if_pos hpos⟩) (.none rfl)
          (.none rfl)
    · refine le_of_le_of_eq ?_ hcount.symm
      rcases hmem hr with hr | rfl
      · exact (h.row_serial r hr).trans (Nat.le_succ _)
      · exact hserial.le
    · refine le_of_le_of_eq ?_ hcount.symm
      rcases eq_or_ne id c.x.orders.nextId.1 with rfl | hnew
      · exact hserial.le
      · exact (h.asked_serial id fun hnil => hid ((hother hnew).trans hnil)).trans (Nat.le_succ _)
    · exact le_of_le_of_eq ((h.confirmed_serial id hid).trans (Nat.le_succ _)) hcount.symm

/-- A replace. -/
theorem InTurn.replace (h : InTurn c confirmed) (id : UInt64) (px qty : ℤ) :
    InTurn (c.replace id px qty).1 confirmed := by
  have heffect := c.replace_effect id px qty
  generalize c.replace id px qty = res at heffect ⊢
  cases heffect with
  | refused r => exact h.still le_rfl le_rfl h.drawn_lt rfl
  | unsent req router hrouter =>
    exact h.still le_rfl le_rfl h.drawn_lt (Outbox.submit_false hrouter)
  | sent row rest orders rate router hid hrows hcancel hreplace hadmits hrouter horders =>
    subst hid
    obtain ⟨router', rfl⟩ := Outbox.submit_true hrouter
    have htalk := h.talk row (OrderTable.mem_rows_of_cons hrows)
    have hrows' : orders.rows = (setPendingReplace px qty).run row ::ₘ rest :=
      horders ▸ OrderTable.modify_rows hrows _
    have htype : (c.x.rowRequest row .replace px qty).type = .replace := rfl
    refine h.sent hrows hrows' rfl ?_ rfl rfl (htalk.replace hcancel hreplace htype)
    change orders.source.2.toNat = _
    rw [horders, OrderTable.modify_source]
    rfl

/-- A cancel. -/
theorem InTurn.cancel (h : InTurn c confirmed) (id : UInt64) :
    InTurn (c.cancel id).1 confirmed := by
  have heffect := c.cancel_effect id
  generalize (c.cancel id).1 = c' at heffect ⊢
  cases heffect with
  | kept => exact h
  | unsent row router hfind hpending hrouter =>
    exact h.still le_rfl le_rfl h.drawn_lt (Outbox.submit_false hrouter)
  | sent row rest orders rate router hid hrows hcancel hrouter horders =>
    subst hid
    obtain ⟨router', rfl⟩ := Outbox.submit_true hrouter
    have htalk := h.talk row (OrderTable.mem_rows_of_cons hrows)
    have hrows' : orders.rows = setPendingCancel.run row ::ₘ rest :=
      horders ▸ OrderTable.modify_rows hrows _
    have htype : (c.x.rowRequest row .cancel row.px row.leaves).type = .cancel := rfl
    refine h.sent hrows hrows' rfl ?_ rfl rfl (htalk.cancel hcancel htype)
    change orders.source.2.toNat = _
    rw [horders, OrderTable.modify_source]
    rfl

/-- A call. -/
theorem InTurn.call (h : InTurn c confirmed) (hleft : c.x.drawn + 1 < 2 ^ 40) (a : Call) :
    InTurn (c.call a) confirmed := by
  cases a with
  | submit side px qty tif type => exact h.submit hleft
  | replace id px qty => exact h.replace id px qty
  | cancel id => exact h.cancel id
  | cancelAll =>
    exact StrategyContext.cancelAll_induction (P := fun c => InTurn c confirmed)
      (fun c id hc => hc.cancel id) h

omit [Router ρ] in
/-- What a report leaves of a row that it finds has its id. -/
theorem InTurn.serial_rowAfter (h : InTurn c confirmed) {rep : ExecReport} {row row' : OrderRow}
    (hfind : c.x.orders.find rep.clOrdId = some row) (hafter : c.x.rowAfter row rep = some row') :
    row'.id = rep.clOrdId ∧ serial rep.clOrdId ≤ c.x.drawn := by
  obtain ⟨hrow, hid⟩ := OrderTable.find_eq_some.1 hfind
  exact ⟨(id_rowAfter hafter).trans hid, hid ▸ h.row_serial row hrow⟩

omit [Router ρ] in
/-- A fill, an expiry or a restatement is none of the conversation. -/
theorem InTurn.event (h : InTurn c confirmed) {rep : ExecReport}
    (hrep : rep.IsFill ∨ rep.execType = .expired ∨ rep.execType = .restated) :
    InTurn { c with x := c.x.applyReport rep } confirmed := by
  have hdrawn := drawn_applyReport c.x rep
  refine ⟨hdrawn.trans_lt h.drawn_lt, fun r hr => ?_, fun r hr => ?_,
    fun id hid => (h.asked_serial id hid).trans_eq hdrawn.symm,
    fun id hid => (h.confirmed_serial id hid).trans_eq hdrawn.symm⟩
  · rcases mem_rows_applyReport hr with ⟨hr, -⟩ | ⟨row, hfind, hafter⟩
    · exact h.talk r hr
    · have htalk := h.talk row (OrderTable.find_eq_some.1 hfind).1
      rw [← id_rowAfter hafter] at htalk
      -- these reports answer no request and leave the terms alone
      refine htalk.congr ?_
      unfold ExecContext.rowAfter at hafter
      rcases hrep with (hfilled | hfill) | hexpired | hrestated
      · rw [hfilled] at hafter
        dsimp only at hafter
        split_ifs at hafter
        rw [← Option.some_injective _ hafter]
        exact ⟨rfl, rfl, rfl, rfl, rfl, rfl⟩
      · rw [hfill] at hafter
        dsimp only at hafter
        split_ifs at hafter
        rw [← Option.some_injective _ hafter]
        exact ⟨rfl, rfl, rfl, rfl, rfl, rfl⟩
      · rw [hexpired] at hafter
        exact nomatch hafter
      · rw [hrestated] at hafter
        rw [← Option.some_injective _ hafter]
        exact ⟨rfl, rfl, rfl, rfl, rfl, rfl⟩
  · refine le_of_le_of_eq ?_ hdrawn.symm
    rcases mem_rows_applyReport hr with ⟨hr, -⟩ | ⟨row, hfind, hafter⟩
    · exact h.row_serial r hr
    · obtain ⟨hid, hle⟩ := h.serial_rowAfter hfind hafter
      exact hid ▸ hle

variable {s t : Dialogue ρ}

omit [Router ρ] in
/-- An answer. -/
theorem InTurn.answer (h : InTurn s.toStrategyContext s.confirmed) {rep : ExecReport}
    {req : OrderRequest} {rest : List OrderRequest}
    (hasked : s.router.unanswered rep.clOrdId = req :: rest)
    (hanswer : AnsweredBy req.type rep.execType) (hkeeps : s.KeepsCancel (.answer rep)) :
    InTurn (s.answer rep req rest).toStrategyContext (s.answer rep req rest).confirmed := by
  have hdrawn := drawn_applyReport s.x rep
  have hasked_le : serial rep.clOrdId ≤ s.x.drawn :=
    h.asked_serial _ (by rw [hasked]; exact List.cons_ne_nil _ _)
  have hself : (s.answer rep req rest).router.unanswered rep.clOrdId = rest :=
    Function.update_self _ _ _
  have hother {id : UInt64} (hne : id ≠ rep.clOrdId) :
      (s.answer rep req rest).router.unanswered id = s.router.unanswered id :=
    Function.update_of_ne hne _ _
  have hconfirmed {id : UInt64} (hne : id ≠ rep.clOrdId) :
      (s.answer rep req rest).confirmed id = s.confirmed id := by
    change (if _ then Function.update _ _ _ else _ : UInt64 → Option OrderTerms) id = _
    split_ifs
    · exact Function.update_of_ne hne _ _
    · rfl
  have hconfirmed_self : (s.answer rep req rest).confirmed rep.clOrdId =
      if rep.execType = .ack ∨ rep.execType = .replaced then some (OrderTerms.asked req)
        else s.confirmed rep.clOrdId := by
    change (if _ then Function.update _ _ _ else _ : UInt64 → Option OrderTerms) rep.clOrdId = _
    split_ifs
    · exact Function.update_self _ _ _
    · rfl
  refine ⟨hdrawn.trans_lt h.drawn_lt, fun r hr => ?_, fun r hr => ?_, fun id hid => ?_,
    fun id hid => ?_⟩
  · rcases mem_rows_applyReport hr with ⟨hr, hne⟩ | ⟨row, hfind, hafter⟩
    · rw [hother hne, hconfirmed hne]
      exact h.talk r hr
    · obtain ⟨hrow, hid⟩ := OrderTable.find_eq_some.1 hfind
      have htalk := h.talk row hrow
      rw [(h.serial_rowAfter hfind hafter).1, hself, hconfirmed_self]
      rw [hid, hasked] at htalk
      refine htalk.answer hanswer (fun hreject htype req' hreq' => ?_) hafter
      -- a reject that leaves a cancel unanswered is excluded
      have hhead : ∃ req ∈ (s.router.unanswered rep.clOrdId).head?, req.type = .replace :=
        ⟨req, by rw [hasked]; rfl, htype⟩
      refine hkeeps hreject (by rw [hfind]; exact Option.some_ne_none row) hhead req' ?_
      rw [hasked]
      exact List.mem_cons_of_mem req hreq'
  · refine le_of_le_of_eq ?_ hdrawn.symm
    rcases mem_rows_applyReport hr with ⟨hr, -⟩ | ⟨row, hfind, hafter⟩
    · exact h.row_serial r hr
    · exact (h.serial_rowAfter hfind hafter).1 ▸ hasked_le
  · refine le_of_le_of_eq ?_ hdrawn.symm
    rcases eq_or_ne id rep.clOrdId with rfl | hne
    · exact hasked_le
    · exact h.asked_serial id (hother hne ▸ hid)
  · refine le_of_le_of_eq ?_ hdrawn.symm
    rcases eq_or_ne id rep.clOrdId with rfl | hne
    · exact hasked_le
    · exact h.confirmed_serial id (hconfirmed hne ▸ hid)

/-- **The step lemma.** -/
theorem InTurn.step (h : InTurn s.toStrategyContext s.confirmed) {a : DialogueStep ρ}
    (hleft : s.IdsLeft a) (hkeeps : s.KeepsCancel a) (ht : s.step a = some t) :
    InTurn t.toStrategyContext t.confirmed := by
  cases a with
  | clock | control | frame | venue =>
    obtain rfl := Option.some_injective _ ht
    exact h.still le_rfl le_rfl h.drawn_lt rfl
  | call a =>
    obtain rfl := Option.some_injective _ ht
    exact h.call hleft a
  | answer rep =>
    simp only [Dialogue.step] at ht
    split at ht
    · exact nomatch ht
    · next req rest hasked =>
      simp only [Option.ite_none_right_eq_some, Option.some.injEq] at ht
      obtain ⟨hanswer, rfl⟩ := ht
      exact h.answer hasked hanswer hkeeps
  | event rep =>
    simp only [Dialogue.step, Option.ite_none_right_eq_some, Option.some.injEq] at ht
    obtain ⟨hrep, rfl⟩ := ht
    exact h.event hrep

omit [Router ρ] in
/-- The conversations are what the rows say. -/
theorem InTurn.rowMatches (h : InTurn s.toStrategyContext s.confirmed) {r : OrderRow}
    (hr : r ∈ s.x.orders.rows) : s.RowMatches r where
  terms _ ht := (h.talk r hr).stand ht
  replace := (h.talk r hr).pendingReplace_iff
  cancel := (h.talk r hr).pendingCancel_iff

omit [Router ρ] in
/-- A `CancelReject` for an amend leaves the row without the cancel behind it. -/
theorem not_matches_of_reject {rep : ExecReport} {req : OrderRequest} {rest : List OrderRequest}
    (hasked : s.router.unanswered rep.clOrdId = req :: rest)
    (hreject : rep.execType = .cancelReject)
    (hlive : s.x.orders.find rep.clOrdId ≠ none) (htype : req.type = .replace)
    {req' : OrderRequest} (hreq' : req' ∈ s.router.unanswered rep.clOrdId)
    (hcancel : req'.type = .cancel) :
    ∃ r ∈ (s.answer rep req rest).x.orders.rows, ¬ (s.answer rep req rest).RowMatches r := by
  obtain ⟨row, hfind⟩ := Option.ne_none_iff_exists'.1 hlive
  have hafter : s.x.rowAfter row rep = some (clearPending.run row) := by
    rw [ExecContext.rowAfter, hreject]
  refine ⟨_, rowAfter_mem hfind hafter, fun hmatches => ?_⟩
  have hid : (clearPending.run row).id = rep.clOrdId := (OrderTable.find_eq_some.1 hfind).2
  have hrest : req' ∈ rest := by
    rw [hasked] at hreq'
    rcases List.mem_cons.1 hreq' with rfl | hrest
    · exact absurd (htype.symm.trans hcancel) (by decide)
    · exact hrest
  have hself : (s.answer rep req rest).router.unanswered (clearPending.run row).id = rest := by
    rw [hid]
    exact Function.update_self _ _ _
  have hpending := hmatches.cancel.2 ⟨req', by rw [hself]; exact hrest, hcancel⟩
  exact absurd hpending Bool.false_ne_true

/-- **The rows match the conversations** as long as no `CancelReject` answers an amend of a live
order while a cancel is behind it, and the first one that does leaves a row that does not match.
-/
theorem answers_match
    (hs : (dialogue ρ).ReachableWhen (fun s a => s.IdsLeft a ∧ s.KeepsCancel a) s) :
    (∀ r ∈ s.x.orders.rows, s.RowMatches r) ∧
      ∀ a t, s.IdsLeft a → s.step a = some t →
        ((∀ r ∈ t.x.orders.rows, t.RowMatches r) ↔ s.KeepsCancel a) := by
  have h : InTurn s.toStrategyContext s.confirmed := by
    refine hs.invariant (P := fun s => InTurn s.toStrategyContext s.confirmed) ?_
      fun s a t _ ha ht h => h.step ha.1 ha.2 ht
    rintro s ⟨hrows, hdrawn, hunanswered, hconfirmed⟩
    refine ⟨by rw [hdrawn]; decide, fun r hr => ?_, fun r hr => ?_,
      fun id hid => absurd (hunanswered id) hid, fun id hid => absurd (hconfirmed id) hid⟩
    · exact absurd (hrows ▸ hr) (Multiset.notMem_zero r)
    · exact absurd (hrows ▸ hr) (Multiset.notMem_zero r)
  refine ⟨fun r hr => h.rowMatches hr, fun a t hleft ht => ⟨fun hmatches => ?_, fun ha r hr =>
    (h.step hleft ha ht).rowMatches hr⟩⟩
  cases a with
  | clock | control | frame | venue | call | event => trivial
  | answer rep =>
    -- the one answer that breaks the match: a rejected amend before a cancel
    rintro hreject hlive ⟨req, hhead, htype⟩ req' hreq' hcancel
    simp only [Dialogue.step] at ht
    split at ht
    · exact nomatch ht
    · next req rest hasked =>
      simp only [Option.ite_none_right_eq_some, Option.some.injEq] at ht
      obtain ⟨-, rfl⟩ := ht
      rw [hasked] at hhead
      obtain rfl := Option.some_injective _ hhead
      obtain ⟨r, hr, hnot⟩ := not_matches_of_reject hasked hreject hlive htype hreq' hcancel
      exact hnot (hmatches r hr)

end InTurn

/-! ### Runs -/

/-- Exec with the demo context and no order. -/
def demoDialogue : Dialogue NullRouter :=
  ⟨⟨demoContext { spotOnly := false },
    ⟨⟨fun _ => { clOrdId := 0, execType := .ack }, 0, 0⟩, fun _ => []⟩⟩, fun _ => none⟩

theorem fresh_demoDialogue : demoDialogue.Fresh := ⟨rfl, rfl, fun _ => rfl, fun _ => rfl⟩

/-- An order of 4 lots at 100 is amended to 6 lots at 101, with a cancel behind the amend; the
amend is confirmed. -/
def confirmedRun : List (DialogueStep NullRouter) :=
  [.call (.submit .buy 100 4 .gtc .limit), .answer { clOrdId := 1, execType := .ack },
    .call (.replace 1 101 6), .call (.cancel 1), .answer { clOrdId := 1, execType := .replaced }]

theorem answers_match_confirmed :
    ∃ s : Dialogue NullRouter,
      (dialogue NullRouter).execWhen (fun s a => s.IdsLeft a ∧ s.KeepsCancel a) demoDialogue
        confirmedRun = some s ∧
      (s.x.orders.find 1).map OrderRow.px = some 101 ∧ ∀ r ∈ s.x.orders.rows, s.RowMatches r := by
  have hrun : ((dialogue NullRouter).execWhen (fun s a => s.IdsLeft a ∧ s.KeepsCancel a)
      demoDialogue confirmedRun).map (fun s => (s.x.orders.find 1).map OrderRow.px) =
        some (some 101) := by
    decide +kernel
  obtain ⟨s, hs, hpx⟩ := Option.map_eq_some_iff.mp hrun
  exact ⟨s, hs, hpx, (answers_match (.execWhen (.init fresh_demoDialogue) confirmedRun hs)).1⟩

/-- The same, but the amend is refused. -/
def refusedRun : List (DialogueStep NullRouter) :=
  [.call (.submit .buy 100 4 .gtc .limit), .answer { clOrdId := 1, execType := .ack },
    .call (.replace 1 101 6), .call (.cancel 1),
    .answer { clOrdId := 1, execType := .cancelReject }]

/-- **The cancel is forgotten** when the amend before it is refused. -/
theorem cancel_forgotten :
    ¬ ∀ s : Dialogue NullRouter,
      (dialogue NullRouter).ReachableWhen (fun s a => s.IdsLeft a) s →
        ∀ r ∈ s.x.orders.rows, s.RowMatches r := by
  intro hclaim
  have hrun : ((dialogue NullRouter).execWhen (fun s a => s.IdsLeft a) demoDialogue
      refusedRun).bind (fun s => (s.x.orders.find 1).map fun r =>
        (r.pendingCancel, (s.router.unanswered 1).map OrderRequest.type)) =
          some (false, [.cancel]) := by
    decide +kernel
  obtain ⟨s, hs, hfound⟩ := Option.bind_eq_some_iff.mp hrun
  obtain ⟨r, hr, hboth⟩ := Option.map_eq_some_iff.mp hfound
  obtain ⟨hpending, htypes⟩ := Prod.ext_iff.mp hboth
  obtain ⟨hr, hid⟩ := OrderTable.find_eq_some.1 hr
  have hmatches := hclaim s (.execWhen (.init fresh_demoDialogue) refusedRun hs) r hr
  have hcancel : ∃ req ∈ s.router.unanswered r.id, req.type = .cancel := by
    have hmem : ReqType.cancel ∈ (s.router.unanswered 1).map OrderRequest.type := by
      rw [show (s.router.unanswered 1).map OrderRequest.type = [.cancel] from htypes]
      exact List.mem_singleton_self _
    rw [hid]
    exact List.mem_map.1 hmem
  exact absurd ((hmatches.cancel.2 hcancel).symm.trans hpending) (by decide)

end Exec

end LowLatencyPipeline
