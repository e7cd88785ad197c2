import LowLatencyPipeline.Exec.Hosted
import LowLatencyPipeline.Exec.OpenRows

/-!
# While KILL or PAUSE stands

The control flags stop new orders and amends at the gate, but not the venue: orders that rest may
be filled, and amends that were sent before may still be confirmed. `halted_eases`: from the moment
exec has seen the flag until it sees it cleared, whatever the strategy asks for and the venue
reports, no id is drawn, no order appears, and the position of either side with everything open
and in flight never exceeds what it was.
-/

namespace LowLatencyPipeline

namespace Exec

universe u

variable {ρ : Type u}

/-- KILL or PAUSE is among the flags. -/
def Halts (flags : UInt32) : Prop := flags &&& KILL ≠ 0 ∨ flags &&& PAUSE ≠ 0

instance (flags : UInt32) : Decidable (Halts flags) := inferInstanceAs (Decidable (_ ∨ _))

/-- **The condition on a step**: the flags that exec reads keep the halt, and amends are confirmed
above what is filled. -/
def Engine.StaysHalted (s : Engine ρ) (a : EngineStep ρ) : Prop :=
  (∀ flags, a = .control flags → Halts flags) ∧ s.ConfirmsAboveFilled a

/-! ### The gate -/

section Gate

variable {x : ExecContext}

theorem admits_of_halts (h : Halts x.controlFlags) (o : OrderCheck) : x.admits o ≠ .ok () := by
  intro hok
  rw [ExecContext.admits, check_bind_eq_ok] at hok
  have hgate := hok.1
  simp only [RiskGate.checkNew, check_bind_eq_ok, rejectIf_eq_ok, not_not] at hgate
  rcases h with hkill | hpause
  · exact hkill hgate.1
  · exact hpause hgate.2.1

theorem admitsReplace_of_halts (h : Halts x.controlFlags) (row : OrderRow) (px qty : ℤ) :
    x.admitsReplace row px qty ≠ .ok () := by
  intro hok
  simp only [ExecContext.admitsReplace, RiskGate.checkReplace, check_bind_eq_ok, rejectIf_eq_ok,
    not_not] at hok
  rcases h with hkill | hpause
  · exact hkill hok.1
  · exact hpause hok.2.1

variable [Router ρ] {c : StrategyContext ρ}

/-- A submit is refused, and nothing but the counters changes. -/
theorem submit_of_halts (h : Halts c.x.controlFlags) (side : Side) (px qty : ℤ) (tif : Tif)
    (type : OrdType) :
    ∃ r, c.submit side px qty tif type = ({ c with x := c.x.countReject r }, 0) := by
  unfold StrategyContext.submit
  dsimp only
  cases hadmits : c.x.admits (c.x.orderCheck side px qty tif type) with
  | error r => exact ⟨r, rfl⟩
  | ok u => exact absurd hadmits (admits_of_halts h _)

/-- So is an amend. -/
theorem replace_of_halts (h : Halts c.x.controlFlags) (id : UInt64) (px qty : ℤ) :
    ∃ r, c.replace id px qty = ({ c with x := c.x.countReject r }, false) := by
  unfold StrategyContext.replace
  dsimp only
  cases hfind : c.x.orders.find id with
  | none => exact ⟨_, rfl⟩
  | some row =>
    dsimp only
    split_ifs with hpending
    · exact ⟨_, rfl⟩
    · cases hadmits : c.x.admitsReplace row px qty with
      | error r => exact ⟨r, rfl⟩
      | ok u => exact absurd hadmits (admitsReplace_of_halts h row px qty)

end Gate

/-! ### No riskier than before -/

/-- The second state carries no more risk than the first. -/
structure Eases (s t : Engine ρ) : Prop where
  rows : ∀ r ∈ t.x.orders.rows, ∃ r₀ ∈ s.x.orders.rows,
    r₀.id = r.id ∧ r₀.side = r.side ∧ r₀.instrument = r.instrument
  drawn : t.x.drawn = s.x.drawn
  inFlight : t.inFlight ⊆ s.inFlight
  load : ∀ side inst, t.load side inst ≤ s.load side inst
  worst : ∀ side inst, t.held side inst + t.load side inst ≤ s.held side inst + s.load side inst

namespace Eases

variable {s t t' : Engine ρ}

protected theorem refl (s : Engine ρ) : Eases s s where
  rows r hr := ⟨r, hr, rfl, rfl, rfl⟩
  drawn := rfl
  inFlight := List.Subset.refl _
  load _ _ := le_rfl
  worst _ _ := le_rfl

protected theorem trans (h : Eases s t) (h' : Eases t t') : Eases s t' where
  rows r hr := by
    obtain ⟨r₁, hr₁, hid, hside, hinst⟩ := h'.rows r hr
    obtain ⟨r₀, hr₀, hid₀, hside₀, hinst₀⟩ := h.rows r₁ hr₁
    exact ⟨r₀, hr₀, hid₀.trans hid, hside₀.trans hside, hinst₀.trans hinst⟩
  drawn := h'.drawn.trans h.drawn
  inFlight := List.Subset.trans h'.inFlight h.inFlight
  load side inst := (h'.load side inst).trans (h.load side inst)
  worst side inst := (h'.worst side inst).trans (h.worst side inst)

/-- Orders, amends and positions are those of before. -/
theorem of_still (horders : t.x.orders = s.x.orders) (hin : t.inFlight = s.inFlight)
    (hheld : ∀ side inst, t.held side inst = s.held side inst) : Eases s t := by
  have hload (side : Side) (inst : UInt16) : t.load side inst = s.load side inst := by
    rw [Engine.load, Engine.load, horders, hin]
  refine ⟨fun r hr => ⟨r, horders ▸ hr, rfl, rfl, rfl⟩, ?_, hin ▸ List.Subset.refl _,
    fun side inst => (hload side inst).le, fun side inst => ?_⟩
  · rw [ExecContext.drawn, horders, ExecContext.drawn]
  · rw [hheld, hload]

/-- **One row changes or goes**: what is left of it is charged with less, by the `d` lots that have
moved into the position. -/
theorem of_row {row : OrderRow} {rest : Multiset OrderRow} {after : Option OrderRow} {d : ℤ}
    (hrows : s.x.orders.rows = row ::ₘ rest)
    (hrows' : t.x.orders.rows = after.elim rest (· ::ₘ rest))
    (hsame : ∀ r ∈ after, r.id = row.id ∧ r.side = row.side ∧ r.instrument = row.instrument)
    (hdrawn : t.x.drawn = s.x.drawn) (hin : t.inFlight ⊆ s.inFlight)
    (hmem : ∀ i, i ≠ row.id → (i ∈ t.inFlight ↔ i ∈ s.inFlight)) (hd : 0 ≤ d)
    (hcharge : after.elim 0 (charge t.inFlight) + d ≤ charge s.inFlight row)
    (hheld : ∀ side inst, t.held side inst ≤
      s.held side inst + if row.side = side ∧ row.instrument = inst then d else 0) :
    Eases s t := by
  have hload (side : Side) (inst : UInt16) : t.load side inst +
      (if row.side = side ∧ row.instrument = inst then d else 0) ≤ s.load side inst := by
    have hrest := sumIf_charge_congr (fun r hr => OrderTable.id_ne_of_cons hrows hr) hmem side inst
    rw [Engine.load, Engine.load, hrows, hrows', sumIf_cons]
    cases after with
    | none =>
      change sumIf _ (charge t.inFlight) rest + _ ≤ _
      change 0 + d ≤ _ at hcharge
      rw [hrest]
      simp only [OnSide]
      split_ifs <;> omega
    | some r =>
      obtain ⟨-, hside, hinst⟩ := hsame r rfl
      change sumIf _ (charge t.inFlight) (r ::ₘ rest) + _ ≤ _
      change charge t.inFlight r + d ≤ _ at hcharge
      rw [sumIf_cons, hrest]
      simp only [OnSide, hside, hinst]
      split_ifs <;> omega
  refine ⟨fun r hr => ?_, hdrawn, hin, fun side inst => ?_, fun side inst => ?_⟩
  · rw [hrows'] at hr
    cases after with
    | none => exact ⟨r, hrows ▸ Multiset.mem_cons_of_mem hr, rfl, rfl, rfl⟩
    | some r' =>
      rcases Multiset.mem_cons.1 hr with rfl | hr
      · obtain ⟨hid, hside, hinst⟩ := hsame r rfl
        exact ⟨row, hrows ▸ Multiset.mem_cons_self _ _, hid.symm, hside.symm, hinst.symm⟩
      · exact ⟨r, hrows ▸ Multiset.mem_cons_of_mem hr, rfl, rfl, rfl⟩
  · have hle := hload side inst
    split_ifs at hle <;> omega
  · have hle := hload side inst
    have hle' := hheld side inst
    omega

end Eases

/-! ### Steps while the halt stands -/

/-- The halt stands, and no sum leaves its 64 bits. -/
structure Engine.Standing (s : Engine ρ) : Prop where
  halts : Halts s.x.controlFlags
  rows : RowsInRange s.x
  worst_lt : ∀ side inst, s.held side inst + s.load side inst < 2 ^ 62
  load_lt : ∀ side inst, s.load side inst < 2 ^ 62

theorem RowRange.rowOk {r : OrderRow} (h : RowRange r) : RowOk r := by
  have htotal := h.total
  have hqty := h.qty_lt
  have hnew := h.newQty_nonneg
  exact ⟨h.leaves_pos.le, h.cum_nonneg, by omega, by omega, h.newQty_lt⟩

section Steps

variable {s t : Engine ρ}

/-- What keeps the rows and carries no more risk keeps what stands. -/
theorem Engine.Standing.of_eases (h : s.Standing) (hst : Eases s t)
    (hhalts : Halts t.x.controlFlags) (hrows : RowsInRange t.x) : t.Standing where
  halts := hhalts
  rows := hrows
  worst_lt side inst := (hst.worst side inst).trans_lt (h.worst_lt side inst)
  load_lt side inst := (hst.load side inst).trans_lt (h.load_lt side inst)

theorem Engine.Standing.load_nonneg (h : s.Standing) (side : Side) (inst : UInt16) :
    0 ≤ s.load side inst :=
  sumIf_nonneg fun r hr => charge_nonneg (h.rows r hr).rowOk _

theorem Engine.Standing.abs_position (h : s.Standing) (inst : UInt16) :
    |(s.x.account.position inst).qty| < 2 ^ 62 := by
  have hbuy := h.worst_lt .buy inst
  have hsell := h.worst_lt .sell inst
  have hbuy0 := h.load_nonneg .buy inst
  have hsell0 := h.load_nonneg .sell inst
  simp only [Engine.held, toward] at hbuy hsell
  exact abs_lt.2 ⟨by omega, by omega⟩

/-- A live order's open lots are part of the load. -/
theorem Engine.Standing.leaves_lt (h : s.Standing) {r : OrderRow} (hr : r ∈ s.x.orders.rows) :
    r.leaves < 2 ^ 62 := by
  have hle : charge s.inFlight r ≤ s.load r.side r.instrument :=
    le_sumIf_of_mem hr ⟨rfl, rfl⟩ fun r hr => charge_nonneg (h.rows r hr).rowOk _
  have hgrowth := growth_nonneg s.inFlight r
  have hlt := h.load_lt r.side r.instrument
  rw [charge] at hle
  omega

/-- **What a report leaves of a row is charged with less**, by the lots that it fills. -/
theorem charge_rowAfter {rep : ExecReport} (answersReplace : Bool) (hrep : s.Reports rep)
    {row : OrderRow} (hfind : s.x.orders.find rep.clOrdId = some row) (hrow : RowRange row)
    (hconfirm : rep.execType = .replaced → row.cum < row.newQty) :
    (s.x.rowAfter row rep).elim 0 (charge (s.deliver rep answersReplace).inFlight) +
      (if rep.IsFill then rep.lastQty else 0) ≤ charge s.inFlight row := by
  have hgrowth (r : OrderRow) := growth_deliver_le s rep answersReplace r
  have hrow0 := growth_nonneg s.inFlight row
  have hleaves := hrow.leaves_pos
  have hlt := hrow.rowOk.total
  have hcum := hrow.cum_nonneg
  have hid := (OrderTable.find_eq_some.1 hfind).2
  unfold ExecContext.rowAfter
  cases htype : rep.execType with
  | ack | cancelReject | restated =>
    have hfill : ¬ rep.IsFill := by simp [ExecReport.IsFill, htype]
    rw [if_neg hfill, add_zero]
    exact add_le_add le_rfl (hgrowth row)
  | canceled | expired | reject =>
    have hfill : ¬ rep.IsFill := by simp [ExecReport.IsFill, htype]
    rw [if_neg hfill]
    exact charge_nonneg hrow.rowOk _
  | replaced =>
    have hfill : ¬ rep.IsFill := by simp [ExecReport.IsFill, htype]
    rw [if_neg hfill, add_zero]
    -- what the amend would add is open now
    have hopen := hrow.replacedRow_leaves
    have hnone : growth s.inFlight (ExecContext.replacedRow row) = 0 := by
      unfold growth
      rw [max_eq_left, ite_self]
      change row.newQty - row.cum - (ExecContext.replacedRow row).leaves ≤ 0
      omega
    have hsent : growth s.inFlight row = max 0 (row.newQty - row.cum - row.leaves) :=
      if_pos (hid ▸ hrep.replaced htype)
    have hafter := hgrowth (ExecContext.replacedRow row)
    have hpos := hconfirm htype
    change charge _ (ExecContext.replacedRow row) ≤ _
    rw [charge, charge, hopen]
    omega
  | partialFill | fill =>
    have hfill : rep.IsFill := by simp [ExecReport.IsFill, htype]
    have hq := (hrep.fill hfill).1
    have hle := hrep.lastQty_le hfind hfill
    have hopen := filledRow_leaves hq hle (by omega : row.leaves < 2 ^ 63)
    have hfilled : (ExecContext.filledRow row rep).cum = row.cum + rep.lastQty :=
      filledRow_cum hq hcum (by omega)
    rw [if_pos hfill]
    dsimp only
    split_ifs with hdone
    · change 0 + rep.lastQty ≤ _
      rw [charge]
      omega
    · -- what the amend will add is as before
      have hsame : growth s.inFlight (ExecContext.filledRow row rep) = growth s.inFlight row := by
        simp only [growth, hopen, hfilled]
        rw [show (ExecContext.filledRow row rep).newQty - (row.cum + rep.lastQty) -
          (row.leaves - rep.lastQty) = row.newQty - row.cum - row.leaves by
            change row.newQty - _ - _ = _
            omega]
        rfl
      have hafter := hgrowth (ExecContext.filledRow row rep)
      change charge _ (ExecContext.filledRow row rep) + _ ≤ _
      rw [charge, charge, hopen]
      omega

/-- A report. -/
theorem eases_report (h : s.Standing) {rep : ExecReport} {answersReplace : Bool}
    (hrep : s.Reports rep) (hcond : s.ConfirmsAboveFilled (.report rep answersReplace)) :
    Eases s (s.deliver rep answersReplace) := by
  have hdrawn : (s.deliver rep answersReplace).x.drawn = s.x.drawn := drawn_applyReport s.x rep
  have hsubset := s.deliver_inFlight_subset rep answersReplace
  cases hfind : s.x.orders.find rep.clOrdId with
  | none =>
    have hrows : (s.deliver rep answersReplace).x.orders.rows = s.x.orders.rows :=
      rows_applyReport_unknown hfind
    have hload (side : Side) (inst : UInt16) :
        (s.deliver rep answersReplace).load side inst ≤ s.load side inst := by
      rw [Engine.load, hrows]
      exact sumIf_mono fun r _ => add_le_add le_rfl (growth_deliver_le s rep answersReplace r)
    refine ⟨fun r hr => ⟨r, hrows ▸ hr, rfl, rfl, rfl⟩, hdrawn, hsubset, hload,
      fun side inst => add_le_add ?_ (hload side inst)⟩
    exact (held_applyReport_unknown hfind side inst).le
  | some row =>
    obtain ⟨hid, rest, hrows⟩ := OrderTable.exists_rows_eq_cons hfind
    have hmem := OrderTable.mem_rows_of_cons hrows
    have hrow := h.rows row hmem
    refine .of_row hrows (rows_applyReport hfind hrows) (fun r hafter => ?_) hdrawn hsubset
      (fun i hi => s.mem_deliver_inFlight rep answersReplace (hid ▸ hi)) ?_
      (charge_rowAfter answersReplace hrep hfind hrow fun htype => hcond htype row hfind)
      fun side inst => ?_
    · exact ⟨id_rowAfter hafter, onSide_rowAfter hafter⟩
    · split_ifs with hfill
      · exact (hrep.fill hfill).1
      · exact le_rfl
    · change (s.x.applyReport rep).held side inst ≤ s.x.held side inst + _
      by_cases hfill : rep.IsFill
      · have hle := hrep.lastQty_le hfind hfill
        have hlt := h.leaves_lt hmem
        have hq := (hrep.fill hfill).1
        rw [held_applyReport_fill hfind hfill (h.abs_position row.instrument) ⟨hq, by omega⟩,
          if_pos hfill]
        by_cases hinst : inst = row.instrument
        · subst hinst
          by_cases hside : side = row.side
          · subst hside
            simp
          · simp only [if_pos, if_neg hside, if_neg fun hc : row.side = side ∧ _ => hside hc.1.symm]
            omega
        · rw [if_neg hinst, if_neg fun hc => hinst hc.2.symm]
      · rw [held_applyReport_of_not_fill hfill, if_neg hfill, ite_self, add_zero]

variable [Router ρ]

/-- A cancel frees nothing before its report. -/
theorem eases_cancel (c : StrategyContext ρ) (id : UInt64) (inFlight : List UInt64) :
    Eases ⟨c, inFlight⟩ ⟨(c.cancel id).1, inFlight⟩ := by
  have heffect := c.cancel_effect id
  generalize (c.cancel id).1 = c' at heffect ⊢
  cases heffect with
  | kept => exact .refl _
  | unsent row router hfind hpending hrouter => exact .of_still rfl rfl fun _ _ => rfl
  | sent row rest orders rate router hid hrows hpending hrouter horders =>
    subst hid
    have hrows' : orders.rows = (some (setPendingCancel.run row)).elim rest (· ::ₘ rest) :=
      horders ▸ OrderTable.modify_rows hrows setPendingCancel
    refine .of_row hrows hrows' (fun r hr => ?_) ?_ (List.Subset.refl _) (fun _ _ => Iff.rfl)
      le_rfl ?_ fun side inst => ?_
    · obtain rfl := Option.some.inj hr
      exact ⟨rfl, rfl, rfl⟩
    · change orders.source.2.toNat = _
      rw [horders, OrderTable.modify_source]
      rfl
    · exact (add_zero _).le
    · rw [ite_self, add_zero]
      rfl

omit [Router ρ] in
theorem controlFlags_applyReport (x : ExecContext) (rep : ExecReport) :
    (x.applyReport rep).controlFlags = x.controlFlags := by
  have heffect := applyReport_effect x rep
  generalize x.applyReport rep = y at heffect
  cases heffect with
  | unknown | kept | replaced | dropped => rfl
  | filled row rest =>
    unfold ExecContext.applyFill
    dsimp only
    split_ifs <;> rfl

theorem controlFlags_cancel (c : StrategyContext ρ) (id : UInt64) :
    (c.cancel id).1.x.controlFlags = c.x.controlFlags := by
  have heffect := c.cancel_effect id
  generalize (c.cancel id).1 = c' at heffect ⊢
  cases heffect with
  | kept | unsent | sent => rfl

/-- **A call takes on nothing.** -/
theorem eases_call (h : Halts s.x.controlFlags) (a : Call) : Eases s (s.makeCall a) := by
  cases a with
  | submit side px qty tif type =>
    obtain ⟨r, hrefused⟩ := submit_of_halts h side px qty tif type
    refine .of_still ?_ rfl fun side' inst => ?_
    · exact congrArg (fun c => c.1.x.orders) hrefused
    · exact congrArg (fun c => toward side' (c.1.x.account.position inst).qty) hrefused
  | replace id px qty =>
    obtain ⟨r, hrefused⟩ := replace_of_halts h id px qty
    refine .of_still ?_ ?_ fun side inst => ?_
    · exact congrArg (fun c => c.1.x.orders) hrefused
    · change (if (s.toStrategyContext.replace id px qty).2 then _ else _) = _
      rw [hrefused]
      rfl
    · exact congrArg (fun c => toward side (c.1.x.account.position inst).qty) hrefused
  | cancel id => exact eases_cancel s.toStrategyContext id s.inFlight
  | cancelAll =>
    exact StrategyContext.cancelAll_induction (c := s.toStrategyContext)
      (P := fun c => Eases s ⟨c, s.inFlight⟩)
      (fun c id hc => hc.trans (eases_cancel c id s.inFlight)) (.refl s)

/-- No call writes the flags. -/
theorem controlFlags_makeCall (h : Halts s.x.controlFlags) (a : Call) :
    (s.makeCall a).x.controlFlags = s.x.controlFlags := by
  cases a with
  | submit side px qty tif type =>
    obtain ⟨r, hrefused⟩ := submit_of_halts h side px qty tif type
    exact congrArg (fun c => c.1.x.controlFlags) hrefused
  | replace id px qty =>
    obtain ⟨r, hrefused⟩ := replace_of_halts h id px qty
    exact congrArg (fun c => c.1.x.controlFlags) hrefused
  | cancel id => exact controlFlags_cancel s.toStrategyContext id
  | cancelAll =>
    exact StrategyContext.cancelAll_induction (c := s.toStrategyContext)
      (P := fun c => c.x.controlFlags = s.x.controlFlags)
      (fun c id hc => (controlFlags_cancel c id).trans hc) rfl

/-- **The step lemma.** -/
theorem Engine.Standing.step (h : s.Standing) {a : EngineStep ρ} (ha : s.StaysHalted a)
    (ht : s.step a = some t) : Eases s t ∧ t.Standing := by
  have hrows : RowsInRange t.x := rowsInRange_step h.rows ha.2 ht
  have hgoal (hst : Eases s t) (hhalts : Halts t.x.controlFlags) : Eases s t ∧ t.Standing :=
    ⟨hst, h.of_eases hst hhalts hrows⟩
  cases a with
  | clock tsc wallNs | venue router =>
    obtain rfl := Option.some_injective _ ht
    exact hgoal (.of_still rfl rfl fun _ _ => rfl) h.halts
  | control flags =>
    obtain rfl := Option.some_injective _ ht
    exact hgoal (.of_still rfl rfl fun _ _ => rfl) (ha.1 flags rfl)
  | frame u =>
    obtain rfl := Option.some_injective _ ht
    exact hgoal (.of_still rfl rfl (held_onFrame s.x u)) h.halts
  | call a =>
    simp only [Engine.step, Option.ite_none_right_eq_some, Option.some.injEq] at ht
    obtain ⟨-, rfl⟩ := ht
    exact hgoal (eases_call h.halts a) ((controlFlags_makeCall h.halts a).symm ▸ h.halts)
  | report rep answersReplace =>
    simp only [Engine.step, Option.ite_none_right_eq_some, Option.some.injEq] at ht
    obtain ⟨hrep, rfl⟩ := ht
    exact hgoal (eases_report h hrep ha.2)
      ((controlFlags_applyReport s.x rep : (s.x.applyReport rep).controlFlags = _).symm ▸ h.halts)

/-- **The run lemma.** -/
theorem eases_of_reachable {s₀ : Engine ρ} (h : s₀.Standing)
    (hs : (engine (· = s₀)).ReachableWhen Engine.StaysHalted s) : Eases s₀ s ∧ s.Standing := by
  refine hs.invariant (P := fun s => Eases s₀ s ∧ s.Standing) ?_ fun s a t _ ha ht hs => ?_
  · rintro _ rfl
    exact ⟨.refl _, h⟩
  · obtain ⟨hst, hstanding⟩ := hs.2.step ha ht
    exact ⟨hs.1.trans hst, hstanding⟩

end Steps

/-- An order of 4 lots, and then KILL. -/
def killedEngine : Engine NullRouter :=
  let s := (demoEngine noLimits).makeCall demoOrder
  { s with x := { s.x with controlFlags := KILL } }

end Exec

end LowLatencyPipeline
