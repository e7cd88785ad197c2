import LowLatencyPipeline.Exec.NullMode

/-!
# Failed requests leave no trace

`submit` puts the new row into the order table before it asks the router, and takes it out again
when the router refuses. `SameTable` says that a table is exactly what it was, but for the id
counter: the dense rows in order, every slot of the index, the counts and the open lots.

* `RawTable.insert_erase`: the new entry stands at the first free slot of its probe chain, so no
  later entry of the cluster has that slot on its way from home, and closing the gap moves none.
  The slot gets back what it held because free slots are zero (`RawTable.Cleared`).
* `failed_leaves_no_trace` is about every state of a session, in which any calls, reports and
  frames come in any order; `session_of_runner` says that the states of `run_strategy` are such.

When `2 ^ 40` ids are drawn the id of a live order comes round: its row is not inserted, but the
live order is erased (`full_queue_erases`).
-/

namespace LowLatencyPipeline

namespace Exec

open LinearProbe

/-! ### The memory of the table -/

namespace RawTable

/-- The tables are the same but for the id counter and the memory beyond the last row. -/
structure SameTable (t t' : RawTable) : Prop where
  index : t'.index = t.index
  n : t'.n = t.n
  rows : ∀ i < t.n, t'.rows i = t.rows i
  gen : t'.gen = t.gen
  live : t'.live = t.live
  lots : t'.lots = t.lots

theorem SameTable.refl (t : RawTable) : SameTable t t :=
  ⟨rfl, rfl, fun _ _ => rfl, rfl, rfl, rfl⟩

/-- Free slots of the index are zero. -/
def Cleared (index : ℕ → Slot) : Prop := ∀ i, (index i).key = 0 → index i = ⟨0, 0⟩

/-- Where no entry has the hole on its way from home, nothing moves. -/
theorem closeGap_still {fuel : ℕ} {index result : ℕ → Slot} {hole i : ℕ} (hi : i < INDEX_SLOTS)
    (hstay : ∀ j < INDEX_SLOTS, j ≠ hole → (index j).key ≠ 0 →
      ¬maskedSub j (hash (index j).key) ≥ maskedSub j hole)
    (h : closeGap fuel index hole i = some result) :
    result = Function.update index hole ⟨0, 0⟩ := by
  have hnext : (i + 1) % INDEX_SLOTS < INDEX_SLOTS := Nat.mod_lt _ (Nat.zero_lt_of_lt hi)
  induction fuel generalizing i with
  | zero => cases h
  | succ fuel ih =>
    rw [closeGap] at h
    dsimp only at h
    split_ifs at h with hkey hmove
    · exact (Option.some.inj h).symm
    · -- only the entry in the hole itself is moved, to where it is
      obtain rfl : i = hole := by
        by_contra hne
        exact hstay i hi hne hkey hmove
      rw [Function.update_eq_self] at h
      exact ih hnext h (Nat.mod_lt _ (Nat.zero_lt_of_lt hi))
    · exact ih hnext h (Nat.mod_lt _ (Nat.zero_lt_of_lt hi))

variable {t : RawTable} {r : OrderRow}

/-- Tables with the same rows have the same aggregates. -/
theorem SameTable.of_rows (ht : Valid t) {t' : RawTable} (ht' : Valid t')
    (hindex : t'.index = t.index) (hn : t'.n = t.n) (hrows : ∀ i < t.n, t'.rows i = t.rows i)
    (hgen : t'.gen = t.gen) : SameTable t t' := by
  have hlive : t'.liveRows = t.liveRows := by
    rw [liveRows, liveRows, hn]
    exact Multiset.map_congr rfl fun i hi => hrows i (Multiset.mem_range.1 hi)
  refine ⟨hindex, hn, hrows, hgen, ?_, ?_⟩
  · funext inst
    rw [ht'.live_eq, ht.live_eq, hlive]
  · funext side inst
    rw [ht'.lots_eq, ht.lots_eq, hlive]

/-- A row that is added takes the first free slot from its home on. -/
theorem insert_slot (ht : Valid t) (hn : t.n ≠ MAX_ROWS) (hid : r.id ≠ 0)
    (hnew : ∀ r' ∈ t.liveRows, r'.id ≠ r.id) :
    ∃ slot < INDEX_SLOTS, t.insert r = some (t.append r slot, true) ∧ Valid (t.append r slot) ∧
      (t.index slot).key = 0 := by
  obtain ⟨slot₀, hrun, hvalid⟩ := insert_added ht hn hid hnew
  have habs : ∀ j < t.n, (t.rows j).id ≠ r.id := fun j hj => hnew _ (mem_liveRows.2 ⟨j, hj, rfl⟩)
  have hscan := hrun
  rw [insert, if_neg (not_or.2 ⟨hn, hid⟩), slotOf_absent ht.indexed ht.n_le habs] at hscan
  simp only [Option.bind_eq_bind, Option.bind_some, Option.isSome_none, Bool.false_eq_true,
    if_false] at hscan
  obtain ⟨slot, hslot, hpair⟩ := Option.bind_eq_some_iff.1 hscan
  have happend : t.append r slot = t.append r slot₀ := (Prod.mk.inj (Option.some.inj hpair)).1
  rw [← happend] at hrun hvalid
  have hpos : 0 < INDEX_SLOTS := by
    unfold INDEX_SLOTS
    decide
  exact ⟨slot, scan_lt hpos hslot, hrun, hvalid, by simpa using scan_stop hslot⟩

/-- No entry of a table has a free slot on its way from home. -/
theorem Indexed.no_way {index : ℕ → Slot} {rows : ℕ → OrderRow} {n slot j : ℕ}
    (h : Indexed index rows n) (hslot : slot < INDEX_SLOTS) (hfree : (index slot).key = 0)
    (hj : j < INDEX_SLOTS) (hne : j ≠ slot) (hkey : (index j).key ≠ 0) :
    ¬maskedSub j (hash (index j).key) ≥ maskedSub j slot := by
  rw [maskedSub_eq hj (hash_lt _), maskedSub_eq hj hslot, ge_iff_le,
    ← dist_home_lt_iff (hash_lt _) hslot hj hne.symm]
  intro hway
  refine h.probed.chain j hj ((index j).key, (index j).pos) ?_ slot hslot hway ?_
  · rw [view, if_neg hkey]
  · rw [view, if_pos hfree]

/-- **An insertion is undone** by erasing the new row: no entry moves, and the slot gets back what
it held. -/
theorem insert_erase (ht : Valid t) (hcleared : Cleared t.index) (hn : t.n ≠ MAX_ROWS)
    (hid : r.id ≠ 0) (hnew : ∀ r' ∈ t.liveRows, r'.id ≠ r.id) :
    ∃ u t', t.insert r = some (u, true) ∧ u.erase r.id = some t' ∧ SameTable t t' := by
  obtain ⟨slot, hslot, hrun, hvalid, hfree⟩ := insert_slot ht hn hid hnew
  obtain ⟨t', herase, hvalid'⟩ := erase_valid hvalid r.id
  refine ⟨_, t', hrun, herase, ?_⟩
  have hrow : (t.append r slot).rows t.n = r := Function.update_self _ _ _
  have hindex : (t.append r slot).index = Function.update t.index slot ⟨r.id, t.n⟩ := rfl
  -- the loop of `slot_of` comes to the new entry
  have hentry : (t.append r slot).slotOf r.id = some (some slot) := by
    obtain ⟨p, hp, hfound, hview⟩ := slotOf_row hvalid.indexed
      (show t.n < (t.append r slot).n from Nat.lt_succ_self _)
    rw [hrow] at hfound hview
    have hview' : view (t.append r slot).index slot = some (r.id, t.n) := by
      rw [hindex, view_update, if_neg hid, Function.update_self]
    rw [hfound, hvalid.indexed.probed.unique p hp slot hslot _ _ hview hview' rfl]
  have hpos : ((t.append r slot).index slot).pos = t.n := by rw [hindex, Function.update_self]
  rw [erase, hentry] at herase
  simp only [Option.bind_eq_bind, Option.bind_some, hpos, hrow] at herase
  -- the new row is the last one, so that the dense rows stay
  have hlast : ((t.append r slot).uncount r).moveLast t.n =
      some { (t.append r slot).uncount r with n := t.n } := if_pos rfl
  rw [hlast, Option.bind_some, Option.bind_eq_some_iff] at herase
  obtain ⟨index, hclose, hresult⟩ := herase
  obtain rfl := Option.some.inj hresult
  have hclose' : closeGap INDEX_SLOTS (t.append r slot).index slot ((slot + 1) % INDEX_SLOTS) =
      some index := hclose
  rw [hindex] at hclose'
  have hstill := closeGap_still (Nat.mod_lt _ (Nat.zero_lt_of_lt hslot)) (fun j hj hne hkey => by
    rw [Function.update_of_ne hne] at hkey ⊢
    exact ht.indexed.no_way hslot hfree hj hne hkey) hclose'
  refine SameTable.of_rows ht hvalid' ?_ rfl (fun i hi => Function.update_of_ne hi.ne _ _) rfl
  change index = t.index
  rw [hstill, Function.update_idem, ← hcleared slot hfree, Function.update_eq_self]

/-! Free slots stay zero. -/

theorem cleared_closeGap {fuel : ℕ} {index result : ℕ → Slot} {hole i : ℕ}
    (hc : ∀ j, j ≠ hole → (index j).key = 0 → index j = ⟨0, 0⟩)
    (h : closeGap fuel index hole i = some result) : Cleared result := by
  induction fuel generalizing index hole i with
  | zero => cases h
  | succ fuel ih =>
    rw [closeGap] at h
    dsimp only at h
    split_ifs at h with hkey hmove
    · obtain rfl := Option.some.inj h
      intro j hj
      rcases eq_or_ne j hole with rfl | hne
      · exact Function.update_self _ _ _
      · rw [Function.update_of_ne hne] at hj ⊢
        exact hc j hne hj
    · -- the slot left is the new hole
      refine ih (fun j hne hj => ?_) h
      rcases eq_or_ne j hole with rfl | hne'
      · rw [Function.update_self] at hj
        exact absurd hj hkey
      · rw [Function.update_of_ne hne'] at hj ⊢
        exact hc j hne' hj
    · exact ih hc h

theorem key_ne_of_slotOf {id : UInt64} {m : ℕ} (h : t.slotOf id = some (some m)) :
    (t.index m).key ≠ 0 := by
  obtain ⟨p, -, hp⟩ := Option.bind_eq_some_iff.1 h
  have hfound := Option.some.inj hp
  split_ifs at hfound with hkey
  exact Option.some.inj hfound ▸ hkey

theorem cleared_moveLast {t' : RawTable} {pos : ℕ} (hc : Cleared t.index)
    (h : t.moveLast pos = some t') : Cleared t'.index := by
  rw [moveLast] at h
  dsimp only at h
  split_ifs at h with hlast
  · exact Option.some.inj h ▸ hc
  · obtain ⟨_ | m, hslot, hmoved⟩ := Option.bind_eq_some_iff.1 h
    · exact Option.some.inj hmoved ▸ hc
    · obtain rfl := Option.some.inj hmoved
      have hkey := key_ne_of_slotOf hslot
      intro j hj
      change Function.update t.index m _ j = _
      change (Function.update t.index m ⟨(t.index m).key, pos⟩ j).key = 0 at hj
      rcases eq_or_ne j m with rfl | hne
      · rw [Function.update_self] at hj
        exact absurd hj hkey
      · rw [Function.update_of_ne hne] at hj ⊢
        exact hc j hj

theorem cleared_erase {t' : RawTable} {id : UInt64} (hc : Cleared t.index)
    (h : t.erase id = some t') : Cleared t'.index := by
  obtain ⟨_ | s, -, herase⟩ := Option.bind_eq_some_iff.1 h
  · exact Option.some.inj herase ▸ hc
  · obtain ⟨u, hmove, hclose⟩ := Option.bind_eq_some_iff.1 herase
    obtain ⟨index, hindex, hresult⟩ := Option.bind_eq_some_iff.1 hclose
    obtain rfl := Option.some.inj hresult
    have hmoved : Cleared u.index := cleared_moveLast (t := t.uncount _) hc hmove
    exact cleared_closeGap (fun j _ hj => hmoved j hj) hindex

theorem index_setLeaves {t' : RawTable} {id : UInt64} {leaves : ℤ}
    (h : t.setLeaves id leaves = some t') : t'.index = t.index := by
  obtain ⟨_ | s, -, hstore⟩ := Option.bind_eq_some_iff.1 h <;> rw [← Option.some.inj hstore]
  rfl

theorem index_modify {t' : RawTable} {id : UInt64} {f : OrderRow → OrderRow}
    (h : t.modify id f = some t') : t'.index = t.index := by
  obtain ⟨_ | s, -, hstore⟩ := Option.bind_eq_some_iff.1 h <;> rw [← Option.some.inj hstore]

end RawTable

namespace OrderTable

variable {t : OrderTable} {r : OrderRow}

/-- Free slots of the index are zero. -/
def Cleared (t : OrderTable) : Prop := RawTable.Cleared t.raw.index

theorem cleared_insert (hc : t.Cleared) (r : OrderRow) : (t.insert r).1.Cleared := by
  by_cases h : t.Refuses r
  · rwa [insert_of_refuses h]
  · rw [Refuses, ← size_eq] at h
    push Not at h
    obtain ⟨slot, hrun, -⟩ := RawTable.insert_added t.valid h.1 h.2.1 h.2.2
    have hraw : (t.insert r).1.raw = t.raw.append r slot := by
      rw [insert, ofResult_raw (congrArg (Option.map Prod.fst) hrun)]
    intro j hj
    rw [hraw] at hj ⊢
    change Function.update t.raw.index slot _ j = _
    change (Function.update t.raw.index slot ⟨r.id, t.raw.n⟩ j).key = 0 at hj
    rcases eq_or_ne j slot with rfl | hne
    · rw [Function.update_self] at hj
      exact absurd hj h.2.1
    · rw [Function.update_of_ne hne] at hj ⊢
      exact hc j hj

theorem cleared_erase (hc : t.Cleared) (id : UInt64) : (t.erase id).Cleared := by
  obtain ⟨t', hrun, -⟩ := RawTable.erase_valid t.valid id
  rw [Cleared, show (t.erase id).raw = t' from ofResult_raw hrun]
  exact RawTable.cleared_erase hc hrun

theorem cleared_setLeaves (hc : t.Cleared) (id : UInt64) (leaves : ℤ) :
    (t.setLeaves id leaves).Cleared := by
  obtain ⟨t', hrun, -⟩ := RawTable.setLeaves_valid t.valid id leaves
  rw [Cleared, show (t.setLeaves id leaves).raw = t' from ofResult_raw hrun,
    RawTable.index_setLeaves hrun]
  exact hc

theorem cleared_modify (hc : t.Cleared) (id : UInt64) (f : RowStore) :
    (t.modify id f).Cleared := by
  obtain ⟨t', hrun, -⟩ := RawTable.modify_valid t.valid id f.same
  rw [Cleared, show (t.modify id f).raw = t' from ofResult_raw hrun, RawTable.index_modify hrun]
  exact hc

/-- **A row that goes in and out again leaves no trace.** -/
theorem insert_erase (hc : t.Cleared) (h : ¬t.Refuses r) :
    RawTable.SameTable t.raw ((t.insert r).1.erase r.id).raw := by
  rw [Refuses, ← size_eq] at h
  push Not at h
  obtain ⟨u, t', hinsert, herase, hsame⟩ := RawTable.insert_erase t.valid hc h.1 h.2.1 h.2.2
  have hraw : (t.insert r).1.raw = u := by
    rw [insert, ofResult_raw (congrArg (Option.map Prod.fst) hinsert)]
  rw [← hraw] at herase
  rwa [show ((t.insert r).1.erase r.id).raw = t' from ofResult_raw herase]

end OrderTable

/-! ### Sessions -/

/-- What happens to exec and its router. -/
inductive SessionStep
  | call (a : Call)
  | report (rep : ExecReport)
  /-- a frame, the clock, the flags, a poll: anything but the orders may change -/
  | other (x : ExecContext) (router : NullRouter)

/-- Exec with the null router and an order table in zero-initialised storage: any calls, reports
and changes from outside, in any order. -/
def session : Machine (StrategyContext NullRouter) SessionStep where
  Init c := ∃ gen, c.x.orders = OrderTable.empty.setGeneration gen
  step c
    | .call a => some (c.call a)
    | .report rep => some { c with x := c.x.applyReport rep }
    | .other x router => some ⟨{ x with orders := c.x.orders }, router⟩

namespace StrategyContext

/-- Fewer than `2 ^ 40` ids are drawn. -/
def IdsLeft (c : StrategyContext NullRouter) : SessionStep → Prop
  | .call _ => c.x.drawn + 1 < 2 ^ 40
  | _ => True

/-- The live ids were drawn before, and free slots of the index are zero. -/
structure Numbered (x : ExecContext) : Prop where
  drawn_lt : x.drawn < 2 ^ 40
  serial_le : ∀ r ∈ x.orders.rows, serial r.id ≤ x.drawn
  cleared : x.orders.Cleared

variable {c : StrategyContext NullRouter}

theorem Numbered.congr {x x' : ExecContext} (h : Numbered x) (horders : x'.orders = x.orders) :
    Numbered x' := by
  have hdrawn : x'.drawn = x.drawn := by rw [ExecContext.drawn, horders, ExecContext.drawn]
  exact ⟨hdrawn ▸ h.drawn_lt, by rw [hdrawn, horders]; exact h.serial_le, horders ▸ h.cleared⟩

/-- An id is drawn. -/
theorem Numbered.draw {x x' : ExecContext} (h : Numbered x) (hids : x.drawn + 1 < 2 ^ 40)
    (hsource : x'.orders.source = x.orders.nextId.2.source) (hcleared : x'.orders.Cleared)
    (hrows : ∀ r ∈ x'.orders.rows, r ∈ x.orders.rows ∨ r.id = x.orders.nextId.1) : Numbered x' := by
  have hdrawn : x'.drawn = x.drawn + 1 := toNat_counter_nextId hids hsource
  refine ⟨hdrawn ▸ hids, fun r hr => ?_, hcleared⟩
  rw [hdrawn]
  rcases hrows r hr with hr | hid
  · exact (h.serial_le r hr).trans (Nat.le_succ _)
  · rw [hid]
    exact (serial_nextId x.orders hids).le

/-- A store into a live row. -/
theorem Numbered.modify {x x' : ExecContext} (h : Numbered x) {row : OrderRow}
    {rest : Multiset OrderRow} (hrows : x.orders.rows = row ::ₘ rest) (f : RowStore)
    (horders : x'.orders = x.orders.modify row.id f) : Numbered x' := by
  have hdrawn : x'.drawn = x.drawn := by
    rw [ExecContext.drawn, horders, OrderTable.modify_source, ExecContext.drawn]
  refine ⟨hdrawn ▸ h.drawn_lt, fun r hr => ?_, horders ▸ OrderTable.cleared_modify h.cleared _ f⟩
  rw [hdrawn]
  rw [horders, OrderTable.modify_rows hrows f] at hr
  rcases Multiset.mem_cons.1 hr with rfl | hr
  · rw [(f.same row).id]
    exact h.serial_le row (OrderTable.mem_rows_of_cons hrows)
  · exact h.serial_le r (hrows ▸ Multiset.mem_cons_of_mem hr)

theorem Numbered.submit (h : Numbered c.x) (hids : c.x.drawn + 1 < 2 ^ 40) (side : Side)
    (px qty : ℤ) (tif : Tif) (type : OrdType) : Numbered (c.submit side px qty tif type).1.x := by
  have hrows : ∀ r ∈ (c.submit side px qty tif type).1.x.orders.rows,
      r ∈ c.x.orders.rows ∨ r.id = c.x.orders.nextId.1 := by
    intro r hr
    rcases mem_rows_submit hr with hr | ⟨-, rfl⟩
    · exact .inl hr
    · exact .inr rfl
  have hnext : c.x.orders.nextId.2.Cleared := h.cleared
  have heffect := c.submit_effect side px qty tif type
  generalize (c.submit side px qty tif type).1 = c' at heffect hrows ⊢
  cases heffect with
  | refused r => exact h.congr rfl
  | unsent orders router _ horders =>
    refine h.draw hids ?_ ?_ hrows
    · change orders.source = _
      rw [horders, OrderTable.erase_source, OrderTable.insert_source]
    · change orders.Cleared
      rw [horders]
      exact OrderTable.cleared_erase (OrderTable.cleared_insert hnext _) _
  | sent orders rate router _ _ horders =>
    refine h.draw hids ?_ ?_ hrows
    · change orders.source = _
      rw [horders, OrderTable.insert_source]
    · change orders.Cleared
      rw [horders]
      exact OrderTable.cleared_insert hnext _

theorem Numbered.cancel (h : Numbered c.x) (id : UInt64) : Numbered (c.cancel id).1.x := by
  have heffect := c.cancel_effect id
  generalize (c.cancel id).1 = c' at heffect ⊢
  cases heffect with
  | kept => exact h
  | unsent row router _ _ _ => exact h.congr rfl
  | sent row rest orders rate router hid hrows _ _ horders =>
    subst hid
    exact h.modify hrows _ horders

/-- **The calls.** -/
theorem Numbered.call (h : Numbered c.x) (hids : c.x.drawn + 1 < 2 ^ 40) (a : Call) :
    Numbered (c.call a).x := by
  cases a with
  | submit side px qty tif type => exact h.submit hids side px qty tif type
  | replace id px qty =>
    change Numbered (c.replace id px qty).1.x
    have heffect := c.replace_effect id px qty
    generalize c.replace id px qty = c' at heffect ⊢
    cases heffect with
    | refused r => exact h.congr rfl
    | unsent req router _ => exact h.congr rfl
    | sent row rest orders rate router hid hrows _ _ _ _ horders =>
      subst hid
      exact h.modify hrows _ horders
  | cancel id => exact h.cancel id
  | cancelAll =>
    exact cancelAll_induction (P := fun c => Numbered c.x) (fun c id hc => hc.cancel id) h

/-- **The reports.** -/
theorem Numbered.report {x : ExecContext} (h : Numbered x) (rep : ExecReport) :
    Numbered (x.applyReport rep) := by
  refine ⟨?_, fun r hr => ?_, ?_⟩
  · rw [drawn_applyReport]
    exact h.drawn_lt
  · rw [drawn_applyReport]
    rcases mem_rows_applyReport hr with ⟨hr, -⟩ | ⟨row, hfind, hafter⟩
    · exact h.serial_le r hr
    · rw [id_rowAfter hafter]
      exact h.serial_le row (OrderTable.find_eq_some.1 hfind).1
  · exact orders_applyReport (P := OrderTable.Cleared)
      (fun t id f ht => OrderTable.cleared_modify ht id f)
      (fun t id leaves ht => OrderTable.cleared_setLeaves ht id leaves)
      (fun t id ht => OrderTable.cleared_erase ht id) h.cleared rep

/-- **The run lemma.** -/
theorem numbered_of_reachable (hc : session.ReachableWhen IdsLeft c) : Numbered c.x := by
  refine hc.invariant (P := fun c => Numbered c.x) ?_ fun c a c' _ hids hstep h => ?_
  · rintro c ⟨gen, hgen⟩
    refine ⟨?_, fun r hr => ?_, ?_⟩
    · rw [ExecContext.drawn, hgen]
      exact (by decide : (0 : ℕ) < 2 ^ 40)
    · rw [hgen] at hr
      exact absurd hr (Multiset.notMem_zero r)
    · rw [hgen]
      exact fun _ _ => rfl
  · cases a with
    | call a => exact Option.some.inj hstep ▸ h.call hids a
    | report rep => exact Option.some.inj hstep ▸ h.report rep
    | other x router => exact Option.some.inj hstep ▸ h.congr rfl

/-! ### What a failed request leaves -/

/-- **Nothing but the reject counters, the last reject and the id counter changed.** -/
structure NoTrace (c c' : StrategyContext NullRouter) : Prop where
  account : c'.x.account = c.x.account
  orders : RawTable.SameTable c.x.orders.raw c'.x.orders.raw
  rate : c'.x.rate = c.x.rate
  router : c'.router = c.router
  others : ∃ lastReject rejects ringFullRejects riskRejects, c'.x = { c.x with
    orders := c'.x.orders, lastReject
    st := { c.x.st with rejects, ringFullRejects, riskRejects } }

theorem NoTrace.refl (c : StrategyContext NullRouter) : NoTrace c c :=
  ⟨rfl, .refl _, rfl, rfl, _, _, _, _, rfl⟩

theorem NoTrace.counted (c : StrategyContext NullRouter) (r : RejectReason) :
    NoTrace c ⟨c.x.countReject r, c.router⟩ :=
  ⟨rfl, .refl _, rfl, rfl, _, _, _, _, rfl⟩

theorem NoTrace.submit (h : Numbered c.x) (hids : c.x.drawn + 1 < 2 ^ 40) {side : Side}
    {px qty : ℤ} {tif : Tif} {type : OrdType} (hfailed : (c.submit side px qty tif type).2 = 0) :
    NoTrace c (c.submit side px qty tif type).1 := by
  unfold StrategyContext.submit at hfailed ⊢
  dsimp only at hfailed ⊢
  cases hadmits : c.x.admits (c.x.orderCheck side px qty tif type) with
  | error r => exact .counted c r
  | ok u =>
    rw [hadmits] at hfailed
    dsimp only at hfailed ⊢
    rcases hrouter : Router.submit c.router (c.x.newRequest c.x.orders.nextId.1
      (c.x.orderCheck side px qty tif type)) with ⟨router, ok⟩
    rw [hrouter] at hfailed
    cases ok with
    | false =>
      have hnew : ¬c.x.orders.nextId.2.Refuses
          (c.x.newRow c.x.orders.nextId.1 (c.x.orderCheck side px qty tif type)) :=
        not_refuses_nextId hids h.serial_le (admits_ok hadmits).2 rfl
      have hsame := OrderTable.insert_erase (t := c.x.orders.nextId.2) h.cleared hnew
      exact ⟨rfl, ⟨hsame.index, hsame.n, hsame.rows, hsame.gen, hsame.live, hsame.lots⟩, rfl,
        NullRouter.submit_refused hrouter, _, _, _, _, rfl⟩
    | true =>
      -- a drawn id is not 0
      exact absurd hfailed.symm (ne_nextId hids (Nat.zero_le _))

theorem NoTrace.replace {id : UInt64} {px qty : ℤ} (hfailed : (c.replace id px qty).2 = false) :
    NoTrace c (c.replace id px qty).1 := by
  have heffect := c.replace_effect id px qty
  generalize c.replace id px qty = res at heffect hfailed ⊢
  cases heffect with
  | refused r => exact .counted c r
  | unsent req router hrouter =>
    obtain rfl := NullRouter.submit_refused hrouter
    exact .counted c _
  | sent => cases hfailed

theorem NoTrace.cancel {id : UInt64} (hfailed : (c.cancel id).2 = false) :
    NoTrace c (c.cancel id).1 := by
  unfold StrategyContext.cancel at hfailed ⊢
  dsimp only at hfailed ⊢
  cases hfind : c.x.orders.find id with
  | none => exact .refl c
  | some row =>
    rw [hfind] at hfailed
    dsimp only at hfailed ⊢
    split_ifs with hpending
    · exact .refl c
    · rw [if_neg hpending] at hfailed
      rcases hrouter : Router.submit c.router (c.x.rowRequest row .cancel row.px row.leaves) with
        ⟨router, ok⟩
      rw [hrouter] at hfailed
      cases ok with
      | false =>
        obtain rfl := NullRouter.submit_refused hrouter
        exact .counted c _
      | true => cases hfailed

/-- **Failed requests leave no trace.** In every state of a session in which fewer than `2 ^ 40`
ids are drawn: when `submit` returns no id, or `replace` or `cancel` returns false, whatever the
arguments, then account, order table, rate model and router are as before. -/
theorem failed_leaves_no_trace (hc : session.ReachableWhen IdsLeft c)
    (hids : c.x.drawn + 1 < 2 ^ 40) :
    (∀ side px qty tif type, (c.submit side px qty tif type).2 = 0 →
        NoTrace c (c.submit side px qty tif type).1) ∧
      (∀ id px qty, (c.replace id px qty).2 = false → NoTrace c (c.replace id px qty).1) ∧
      ∀ id, (c.cancel id).2 = false → NoTrace c (c.cancel id).1 := by
  have hnumbered := numbered_of_reachable hc
  exact ⟨fun _ _ _ _ _ hfailed => .submit hnumbered hids hfailed,
    fun _ _ _ hfailed => .replace hfailed, fun _ hfailed => .cancel hfailed⟩

/-- **`run_strategy` is a session.** -/
theorem session_of_runner {s₀ s : Runner} {gen : UInt64}
    (hs₀ : s₀.x.orders = OrderTable.empty.setGeneration gen)
    (hs : (runner s₀).ReachableWhen Runner.IdsLeft s) :
    session.ReachableWhen IdsLeft s.toStrategyContext := by
  have hother : ∀ {c c' : StrategyContext NullRouter}, session.ReachableWhen IdsLeft c →
      c'.x.orders = c.x.orders → session.ReachableWhen IdsLeft c' := by
    intro c c' hc horders
    refine .step (a := .other c'.x c'.router) hc trivial ?_
    change some (StrategyContext.mk _ _) = _
    rw [← horders]
  induction hs with
  | init hinit =>
    obtain rfl : _ = s₀ := hinit
    exact .init ⟨gen, hs₀⟩
  | @step s t a _ hids hstep ih =>
    cases Runner.step_effect hstep with
    | clock tsc wallNs => exact hother ih rfl
    | call a hcallback htyped => exact .step (a := .call a) ih hids rfl
    | resume phase hphase => exact ih
    | control flags shutdown phase htop hphase => exact hother ih rfl
    | frame u hphase => exact hother ih rfl
    | noFrame hphase => exact ih
    | drained u hphase => exact ih
    | polled next hphase hpop =>
      cases next with
      | feed | stop => exact ih
      | frame u => exact hother ih rfl
    | report next rep router hphase hpop =>
      -- the report, and then the queue without it
      exact hother (.step (a := .report rep) ih trivial rfl) rfl
    | tick draining hphase => exact ih

/-- Exec with a queue that is full. -/
def fullQueue : StrategyContext NullRouter :=
  { freshRunner.toStrategyContext with
    router := { freshRunner.router with tail := NullRouter.QUEUE } }

/-- A buy that the full queue refuses. -/
theorem failed_leaves_no_trace_full :
    (fullQueue.submit .buy 100 1 .gtc .limit).2 = 0 ∧
      NoTrace fullQueue (fullQueue.submit .buy 100 1 .gtc .limit).1 :=
  ⟨by decide +kernel, (failed_leaves_no_trace (.init ⟨1, rfl⟩) (by decide)).1 .buy 100 1 .gtc .limit
    (by decide +kernel)⟩

end StrategyContext

/-! ### The id of a live order comes round -/

/-- In a timer callback that has sent `k` orders that cannot rest, after `n` ids were drawn. -/
structure Filling (n k : ℕ) (s : Runner) : Prop where
  context : ∃ orders bal st, s.x = plain orders bal st
  phase : s.phase = .timer
  queue : ∃ pending, s.router.Holds pending ∧ pending.length = 2 * k
  source : s.x.orders.source = (1, UInt64.ofNat (n + k))
  resting : ∃ row ∈ s.x.orders.rows, row.id = OrderTable.orderId 1 1
  card_le : s.x.orders.rows.card ≤ k + 1

section Filling

variable {s₀ s : Runner} {n k : ℕ}

theorem Idle.filling (h : Idle n s) : Filling n 0 s := by
  obtain ⟨⟨orders, bal, st, hx, -⟩, hphase, hqueue, hsource, row, hrows, hrow⟩ := h
  refine ⟨⟨orders, bal, st, hx⟩, hphase, ⟨[], hqueue, rfl⟩, hsource,
    ⟨row, hrows ▸ Multiset.mem_singleton_self row, hrow.id⟩, ?_⟩
  rw [hrows, Multiset.card_singleton]

theorem Filling.full (h : Filling n k s) (hk : k ≤ 512) : s.x.orders.full = false := by
  have hcard := h.card_le
  rw [OrderTable.full_eq]
  refine decide_eq_false fun heq => ?_
  unfold MAX_ROWS at heq
  omega

/-- An insertion takes no row out. -/
theorem insert_keeps {t : OrderTable} {r : OrderRow} (row : OrderRow) (hr : r ∈ t.rows) :
    r ∈ (t.insert row).1.rows ∧ (t.insert row).1.rows.card ≤ t.rows.card + 1 := by
  by_cases hrefuse : t.Refuses row
  · rw [OrderTable.insert_of_refuses hrefuse]
    exact ⟨hr, Nat.le_succ _⟩
  · rw [(OrderTable.insert_of_not_refuses hrefuse).2.1, Multiset.card_cons]
    exact ⟨Multiset.mem_cons_of_mem hr, le_rfl⟩

/-- One more order. -/
theorem Filling.send (h : Filling n k s) (hs : (runner s₀).Reachable s) (hk : k < 512) :
    ∃ s', (runner s₀).Reachable s' ∧ Filling n (k + 1) s' := by
  have hfull := h.full hk.le
  obtain ⟨⟨x, router⟩, phase⟩ := s
  obtain ⟨⟨orders, bal, st, hx⟩, hphase, ⟨pending, hqueue, hlen⟩, hsource, ⟨row, hrow, hid⟩,
    hcard⟩ := h
  dsimp only at hx hphase hqueue
  subst hx hphase
  change orders.full = false at hfull
  have hroom : pending.length + 2 ≤ NullRouter.QUEUE.toNat := by
    rw [hlen, show NullRouter.QUEUE.toNat = 1024 from rfl]
    omega
  obtain ⟨router', hholds, hsubmit⟩ := plain_submit bal st hqueue hroom hfull .ioc
  have hcall : Runner.step ⟨⟨plain orders bal st, router⟩, .timer⟩
      (.call (.submit .buy 100 1 .ioc .limit)) = some
        ⟨StrategyContext.call ⟨plain orders bal st, router⟩ (.submit .buy 100 1 .ioc .limit),
          .timer⟩ :=
    Runner.step_call trivial ⟨by decide, by decide⟩
  rw [StrategyContext.call, hsubmit] at hcall
  obtain ⟨hrows, hcard'⟩ := insert_keeps (t := orders.nextId.2) (lotRow orders bal st .ioc) hrow
  refine ⟨_, reach_step hs hcall, ⟨_, _, _, rfl⟩, rfl, ⟨_, hholds, ?_⟩, ?_, ⟨row, hrows, hid⟩,
    hcard'.trans (Nat.add_le_add_right hcard 1)⟩
  · rw [List.length_append, hlen]
    rfl
  · change (OrderTable.insert _ _).1.source = _
    change orders.source = _ at hsource
    rw [OrderTable.insert_source, OrderTable.nextId_source, hsource, ← add_assoc,
      UInt64.ofNat_add (n + k)]
    rfl

theorem Filling.sends (h : Filling n 0 s) (hs : (runner s₀).Reachable s) (hk : k ≤ 512) :
    ∃ s', (runner s₀).Reachable s' ∧ Filling n k s' := by
  induction k with
  | zero => exact ⟨s, hs, h⟩
  | succ k ih =>
    obtain ⟨s', hs', h'⟩ := ih (by omega)
    exact h'.send hs' (by omega)

/-- A lot that the router refuses: the row is taken out again, whether or not it went in. -/
theorem plain_submit_refused {orders : OrderTable} {router : NullRouter} (bal : ℕ → Balance)
    (st : ExecStats) (hfull : orders.full = false)
    (hrefused : router.submit (lotRequest orders bal st .gtc) = (router, false)) :
    ∃ x', StrategyContext.submit ⟨plain orders bal st, router⟩ .buy 100 1 .gtc .limit =
        (⟨x', router⟩, 0) ∧
      x'.orders = (orders.nextId.2.insert (lotRow orders bal st .gtc)).1.erase orders.nextId.1 := by
  have hadmits := plain_admits bal st hfull .gtc
  unfold StrategyContext.submit
  dsimp only
  rw [hadmits]
  dsimp only
  rw [show Router.submit router ((plain orders bal st).newRequest
    (plain orders bal st).orders.nextId.1
    ((plain orders bal st).orderCheck .buy 100 1 .gtc .limit)) = _ from hrefused]
  exact ⟨_, rfl, rfl⟩

/-- **A request that the full queue refuses erases a live order**: its id is that of the order,
so its row is not inserted, and what is taken out again is the row of the order. -/
theorem full_queue_erases :
    ¬ ∀ s₀ s : Runner, s₀.Fresh → (∃ gen, s₀.x.orders = OrderTable.empty.setGeneration gen) →
      (runner s₀).Reachable s → s.phase.InCallback → ∀ side px qty tif type,
        (s.submit side px qty tif type).2 = 0 →
          StrategyContext.NoTrace s.toStrategyContext (s.submit side px qty tif type).1 := by
  intro hclaim
  obtain ⟨s₁, hs₁, hidle₁⟩ := exists_idle
  obtain ⟨s₂, hs₂, hidle₂⟩ := hidle₁.rounds hs₁ (n := 2 ^ 40 - 512) (by omega) (by omega)
  obtain ⟨s, hs, hfilling⟩ := hidle₂.filling.sends hs₂ (k := 512) le_rfl
  have hfull := hfilling.full le_rfl
  obtain ⟨⟨x, router⟩, phase⟩ := s
  obtain ⟨⟨orders, bal, st, hx⟩, hphase, ⟨pending, hqueue, hlen⟩, hsource, ⟨row, hrow, hrowId⟩,
    -⟩ := hfilling
  dsimp only at hx hphase hqueue
  subst hx hphase
  change orders.source = _ at hsource
  change orders.full = false at hfull
  change row ∈ orders.rows at hrow
  have hid : orders.nextId.1 = row.id := by
    rw [OrderTable.nextId_fst, hsource, hrowId]
    decide
  have hrefuse : orders.nextId.2.Refuses (lotRow orders bal st .gtc) :=
    .inr (.inr ⟨row, hrow, hid.symm⟩)
  -- the queue is full, and the answer is no id
  have hqueueFull := hqueue.submit (lotRequest orders bal st .gtc)
  have hneeded : NullRouter.needed (lotRequest orders bal st .gtc) = 1 := rfl
  rw [hlen, hneeded, if_pos (by decide)] at hqueueFull
  obtain ⟨x', hsubmit, horders⟩ := plain_submit_refused bal st hfull hqueueFull
  rw [OrderTable.insert_of_refuses hrefuse, hid] at horders
  have htrace := hclaim freshRunner _ fresh_freshRunner ⟨1, rfl⟩ hs trivial .buy 100 1 .gtc .limit
    (congrArg Prod.snd hsubmit)
  have hsize : (orders.nextId.2.erase row.id).size = orders.size := by
    have hn := htrace.orders.n
    rw [show StrategyContext.submit _ .buy 100 1 .gtc .limit = _ from hsubmit] at hn
    rw [← horders]
    exact hn
  obtain ⟨rest, hrows⟩ := Multiset.exists_cons_of_mem hrow
  rw [OrderTable.size_eq, OrderTable.size_eq, OrderTable.erase_rows (t := orders.nextId.2) hrows,
    hrows, Multiset.card_cons] at hsize
  exact absurd hsize (Nat.ne_of_lt (Nat.lt_succ_self _))

end Filling

end Exec

end LowLatencyPipeline
