import LowLatencyPipeline.Exec.RawTable

/-!
# Exec's live orders

`OrderTable` bundles the memory of the order table with its representation invariant, so its
operations are total. Each has one specification in terms of `rows`, the multiset of the live
rows, whose ids are distinct and not 0; nothing later looks at the memory again.

The last section says what the table is for: it refines the association list `LiveOrders` from
ids to rows, operation by operation (`RawTable.apply_refines`) and over whole runs.
-/

namespace LowLatencyPipeline

namespace Exec

/-- **An order table**: the memory with the proof that it is well formed. -/
@[ext]
structure OrderTable where
  raw : RawTable
  valid : raw.Valid

namespace OrderTable

/-- The table an operation leaves behind, given that it ends in a valid one. -/
def ofResult (t : Option RawTable) (h : ∃ t', t = some t' ∧ t'.Valid) : OrderTable where
  raw := t.get (by obtain ⟨t', rfl, -⟩ := h; rfl)
  valid := by
    obtain ⟨t', rfl, ht'⟩ := h
    exact ht'

theorem ofResult_raw {t : Option RawTable} {t' : RawTable}
    {h : ∃ t', t = some t' ∧ t'.Valid} (ht : t = some t') : (ofResult t h).raw = t' := by
  subst ht
  rfl

/-- The live rows. -/
def rows (t : OrderTable) : Multiset OrderRow := t.raw.liveRows

/-! ### The operations -/

end OrderTable

/-- Stores into a row that its id, instrument, side and leaves survive. -/
structure RowStore where
  run : OrderRow → OrderRow
  same : ∀ r, SameLots r (run r)

namespace OrderTable

/-- A table in zero-initialised storage. -/
def empty : OrderTable := ⟨RawTable.empty, RawTable.valid_empty⟩

/-- `size`. -/
def size (t : OrderTable) : ℕ := t.raw.n

/-- `full`. -/
def full (t : OrderTable) : Bool := t.raw.n = MAX_ROWS

/-- `row`. -/
def row (t : OrderTable) (i : ℕ) : OrderRow := t.raw.rows i

/-- `live_count`. -/
def liveCount (t : OrderTable) (inst : UInt16) : ℕ := t.raw.live inst

/-- `open_buy_lots` and `open_sell_lots`. -/
def openLots (t : OrderTable) (side : Side) (inst : UInt16) : ℤ := t.raw.lots side inst

/-- `set_generation`. -/
def setGeneration (t : OrderTable) (gen : UInt64) : OrderTable :=
  ⟨t.raw.setGeneration gen, t.valid.congr rfl rfl rfl rfl rfl⟩

/-- `next_id`. -/
def nextId (t : OrderTable) : UInt64 × OrderTable :=
  (t.raw.nextId.1, ⟨t.raw.nextId.2, t.valid.congr rfl rfl rfl rfl rfl⟩)

/-- `find`. -/
def find (t : OrderTable) (id : UInt64) : Option OrderRow :=
  (t.raw.find id).get (RawTable.find_isSome t.valid id)

/-- `insert`. -/
def insert (t : OrderTable) (r : OrderRow) : OrderTable × Bool :=
  (ofResult ((t.raw.insert r).map Prod.fst) (RawTable.insert_valid t.valid r),
    ((t.raw.insert r).map Prod.snd).getD false)

/-- `erase`. -/
def erase (t : OrderTable) (id : UInt64) : OrderTable :=
  ofResult (t.raw.erase id) (RawTable.erase_valid t.valid id)

/-- `set_leaves`. -/
def setLeaves (t : OrderTable) (id : UInt64) (leaves : ℤ) : OrderTable :=
  ofResult (t.raw.setLeaves id leaves) (RawTable.setLeaves_valid t.valid id leaves)

/-- Stores through the row pointer of a live order. -/
def modify (t : OrderTable) (id : UInt64) (f : RowStore) : OrderTable :=
  ofResult (t.raw.modify id f.run) (RawTable.modify_valid t.valid id f.same)

/-! ### Their specifications -/

section Spec

variable {t : OrderTable} {r : OrderRow} {rest : Multiset OrderRow}

theorem nodup_map_id (t : OrderTable) : (t.rows.map OrderRow.id).Nodup := t.valid.nodup_map_id

theorem id_ne_zero (hr : r ∈ t.rows) : r.id ≠ 0 := by
  obtain ⟨j, hj, rfl⟩ := RawTable.mem_liveRows.mp hr
  exact t.valid.id_ne j hj

theorem mem_rows_of_cons (h : t.rows = r ::ₘ rest) : r ∈ t.rows := by
  rw [h]
  exact Multiset.mem_cons_self r rest

/-- The other rows have other ids. -/
theorem id_ne_of_cons (h : t.rows = r ::ₘ rest) {r' : OrderRow} (hr' : r' ∈ rest) :
    r'.id ≠ r.id := by
  have hnodup := t.nodup_map_id
  rw [h, Multiset.map_cons, Multiset.nodup_cons] at hnodup
  exact fun hid => hnodup.1 (hid ▸ Multiset.mem_map_of_mem _ hr')

theorem eq_of_id_eq {r' : OrderRow} (hr : r ∈ t.rows) (hr' : r' ∈ t.rows) (hid : r.id = r'.id) :
    r = r' :=
  Multiset.inj_on_of_nodup_map t.nodup_map_id r hr r' hr' hid

theorem size_eq (t : OrderTable) : t.size = t.rows.card := RawTable.card_liveRows.symm

theorem full_eq (t : OrderTable) : t.full = decide (t.rows.card = MAX_ROWS) := by
  rw [← size_eq]
  rfl

theorem liveCount_eq (t : OrderTable) (inst : UInt16) :
    t.liveCount inst = Exec.liveCount t.rows inst := t.valid.live_eq inst

theorem openLots_eq (t : OrderTable) (side : Side) (inst : UInt16) :
    t.openLots side inst = wrap 64 (Exec.openLots t.rows side inst) := t.valid.lots_eq side inst

/-- `find` returns the live row with the id. -/
theorem find_eq_some {id : UInt64} : t.find id = some r ↔ r ∈ t.rows ∧ r.id = id := by
  have hfind : some (t.find id) = t.raw.find id := Option.some_get _
  refine ⟨fun h => ?_, fun ⟨hr, hid⟩ => ?_⟩
  · rw [h] at hfind
    rcases t.raw.live_or_absent id with ⟨r', hr', rfl⟩ | habs
    · rw [RawTable.find_row t.valid hr'] at hfind
      obtain rfl : r = r' := by simpa using hfind
      exact ⟨hr', rfl⟩
    · rw [RawTable.find_absent t.valid habs] at hfind
      exact absurd hfind (by simp)
  · subst hid
    rw [RawTable.find_row t.valid hr] at hfind
    exact Option.some_injective _ hfind

theorem find_eq_none {id : UInt64} : t.find id = none ↔ ∀ r ∈ t.rows, r.id ≠ id := by
  rw [Option.eq_none_iff_forall_ne_some]
  exact ⟨fun h r hr hid => h r (find_eq_some.mpr ⟨hr, hid⟩),
    fun h r hr => (find_eq_some.mp hr).elim (h r)⟩

/-- `find` depends on the rows of that id only. -/
theorem find_congr {t' : OrderTable} {id : UInt64}
    (h : ∀ r : OrderRow, r.id = id → (r ∈ t'.rows ↔ r ∈ t.rows)) : t'.find id = t.find id := by
  refine Option.ext fun r => ?_
  rw [find_eq_some, find_eq_some]
  exact and_congr_left (h r)

/-- The found row, split off the others. -/
theorem exists_rows_eq_cons {id : UInt64} (h : t.find id = some r) :
    r.id = id ∧ ∃ rest, t.rows = r ::ₘ rest := by
  obtain ⟨hr, hid⟩ := find_eq_some.mp h
  exact ⟨hid, Multiset.exists_cons_of_mem hr⟩

/-- When `insert` refuses. -/
def Refuses (t : OrderTable) (r : OrderRow) : Prop :=
  t.rows.card = MAX_ROWS ∨ r.id = 0 ∨ ∃ r' ∈ t.rows, r'.id = r.id

theorem insert_of_refuses (h : t.Refuses r) : t.insert r = (t, false) := by
  rw [Refuses, ← size_eq] at h
  have hrun := RawTable.insert_refused t.valid h
  refine Prod.ext (OrderTable.ext ?_) ?_
  · rw [insert, ofResult_raw (congrArg (Option.map Prod.fst) hrun)]
  · simp [insert, hrun]

theorem insert_of_not_refuses (h : ¬ t.Refuses r) :
    (t.insert r).2 = true ∧ (t.insert r).1.rows = r ::ₘ t.rows ∧
      (t.insert r).1.raw.source = t.raw.source := by
  rw [Refuses, ← size_eq] at h
  push Not at h
  obtain ⟨slot, hrun, -⟩ := RawTable.insert_added t.valid h.1 h.2.1 h.2.2
  have hraw : (t.insert r).1.raw = t.raw.append r slot := by
    rw [insert, ofResult_raw (congrArg (Option.map Prod.fst) hrun)]
  refine ⟨by simp [insert, hrun], ?_, by rw [hraw]; rfl⟩
  rw [rows, hraw, RawTable.liveRows_append]
  rfl

theorem erase_of_absent {id : UInt64} (h : ∀ r ∈ t.rows, r.id ≠ id) : t.erase id = t :=
  OrderTable.ext (ofResult_raw (RawTable.erase_absent t.valid h))

theorem erase_rows (h : t.rows = r ::ₘ rest) : (t.erase r.id).rows = rest := by
  obtain ⟨t', hrun, -, hlive, -⟩ := RawTable.erase_row t.valid (mem_rows_of_cons h)
  have hraw : (t.erase r.id).raw = t' := ofResult_raw hrun
  rw [rows, hraw]
  exact (Multiset.cons_inj_right r).mp (hlive.symm.trans h)

theorem setLeaves_rows (h : t.rows = r ::ₘ rest) (leaves : ℤ) :
    (t.setLeaves r.id leaves).rows = { r with leaves } ::ₘ rest := by
  obtain ⟨t', hrun, -, hlive, -⟩ := RawTable.setLeaves_row t.valid (mem_rows_of_cons h) leaves
  have hraw : (t.setLeaves r.id leaves).raw = t' := ofResult_raw hrun
  rw [show t.raw.liveRows = r ::ₘ rest from h, Multiset.cons_swap] at hlive
  rw [rows, hraw]
  exact (Multiset.cons_inj_right r).mp hlive

theorem modify_rows (h : t.rows = r ::ₘ rest) (f : RowStore) :
    (t.modify r.id f).rows = f.run r ::ₘ rest := by
  obtain ⟨t', hrun, -, hlive, -⟩ := RawTable.modify_row t.valid (mem_rows_of_cons h) (f.same r)
  have hraw : (t.modify r.id f).raw = t' := ofResult_raw hrun
  rw [show t.raw.liveRows = r ::ₘ rest from h, Multiset.cons_swap] at hlive
  rw [rows, hraw]
  exact (Multiset.cons_inj_right r).mp hlive

/-- The ids in the order of the dense rows. -/
def ids (t : OrderTable) : List UInt64 := (List.range t.size).map fun i => (t.row i).id

theorem mem_ids {id : UInt64} : id ∈ t.ids ↔ ∃ r ∈ t.rows, r.id = id := by
  simp [ids, rows, RawTable.liveRows, size, row]

theorem nodup_ids (t : OrderTable) : t.ids.Nodup := by
  have hnodup := t.nodup_map_id
  rwa [rows, RawTable.liveRows, Multiset.map_map, Multiset.range, Multiset.map_coe,
    Multiset.coe_nodup] at hnodup

theorem modify_row_id (t : OrderTable) (id : UInt64) (f : RowStore) (i : ℕ) :
    ((t.modify id f).row i).id = (t.row i).id := by
  obtain ⟨t', hrun, -⟩ := RawTable.modify_valid t.valid id f.same
  rw [row, show (t.modify id f).raw = t' from ofResult_raw hrun]
  exact (RawTable.modify_row_id f.same hrun).2 i

/-! What `next_id` draws from is only changed by `next_id` and `set_generation`. -/

/-- The generation and the counter of the ids. -/
def source (t : OrderTable) : UInt64 × UInt64 := t.raw.source

/-- The id a counter stands for in a generation. -/
def orderId (gen counter : UInt64) : UInt64 := (gen <<< 40) ||| (counter &&& 0xFFFFFFFFFF)

theorem nextId_fst (t : OrderTable) : t.nextId.1 = orderId t.source.1 (t.source.2 + 1) := rfl

theorem setGeneration_source (t : OrderTable) (gen : UInt64) :
    (t.setGeneration gen).source = (gen &&& 0xFFFFFF, t.source.2) := rfl

theorem nextId_source (t : OrderTable) : t.nextId.2.source = (t.source.1, t.source.2 + 1) := rfl

@[simp]
theorem nextId_rows (t : OrderTable) : t.nextId.2.rows = t.rows := rfl

/-- The generation is above the counter's 40 bits. -/
theorem toNat_orderId (gen counter : UInt64) :
    (orderId gen counter).toNat = gen.toNat % 2 ^ 24 * 2 ^ 40 + counter.toNat % 2 ^ 40 := by
  have hgen : (gen <<< 40).toNat = (gen.toNat % 2 ^ 24) <<< 40 := by
    rw [UInt64.toNat_shiftLeft, Nat.shiftLeft_eq, Nat.shiftLeft_eq,
      show UInt64.toNat 40 % 64 = 40 from rfl]
    omega
  have hcounter : (counter &&& 0xFFFFFFFFFF).toNat = counter.toNat % 2 ^ 40 := by
    rw [UInt64.toNat_and]
    exact Nat.and_two_pow_sub_one_eq_mod counter.toNat 40
  rw [orderId, UInt64.toNat_or, hgen, hcounter,
    ← Nat.shiftLeft_add_eq_or_of_lt (Nat.mod_lt _ (Nat.two_pow_pos 40)), Nat.shiftLeft_eq]

@[simp]
theorem insert_source (t : OrderTable) (r : OrderRow) : (t.insert r).1.source = t.source := by
  by_cases h : t.Refuses r
  · rw [insert_of_refuses h]
  · exact (insert_of_not_refuses h).2.2

@[simp]
theorem erase_source (t : OrderTable) (id : UInt64) : (t.erase id).source = t.source := by
  rcases t.raw.live_or_absent id with ⟨r, hr, rfl⟩ | habs
  · obtain ⟨t', hrun, -, -, hsource⟩ := RawTable.erase_row t.valid hr
    exact (congrArg RawTable.source (ofResult_raw hrun)).trans hsource
  · rw [erase_of_absent habs]

@[simp]
theorem setLeaves_source (t : OrderTable) (id : UInt64) (leaves : ℤ) :
    (t.setLeaves id leaves).source = t.source := by
  rcases t.raw.live_or_absent id with ⟨r, hr, rfl⟩ | habs
  · obtain ⟨t', hrun, -, -, hsource⟩ := RawTable.setLeaves_row t.valid hr leaves
    exact (congrArg RawTable.source (ofResult_raw hrun)).trans hsource
  · exact congrArg RawTable.source (ofResult_raw (RawTable.setLeaves_absent t.valid habs leaves))

@[simp]
theorem modify_source (t : OrderTable) (id : UInt64) (f : RowStore) :
    (t.modify id f).source = t.source := by
  rcases t.raw.live_or_absent id with ⟨r, hr, rfl⟩ | habs
  · obtain ⟨t', hrun, -, -, hsource⟩ := RawTable.modify_row t.valid hr (f.same r)
    exact (congrArg RawTable.source (ofResult_raw hrun)).trans hsource
  · exact congrArg RawTable.source (ofResult_raw (RawTable.modify_absent t.valid habs f.run))

end Spec

end OrderTable

/-- The low bits of an id are its counter. -/
def serial (id : UInt64) : ℕ := id.toNat % 2 ^ 40

section NextId

variable {t t' : OrderTable}

/-- The counter after an id is drawn. -/
theorem toNat_counter_nextId (h : t.source.2.toNat + 1 < 2 ^ 40)
    (hsource : t'.source = t.nextId.2.source) : t'.source.2.toNat = t.source.2.toNat + 1 := by
  rw [hsource, OrderTable.nextId_source, UInt64.toNat_add]
  exact Nat.mod_eq_of_lt (show t.source.2.toNat + 1 < 2 ^ 64 by omega)

/-- The counter of the next id, before it wraps. -/
theorem serial_nextId (t : OrderTable) (h : t.source.2.toNat + 1 < 2 ^ 40) :
    serial t.nextId.1 = t.source.2.toNat + 1 := by
  have hsucc : (t.source.2 + 1).toNat = t.source.2.toNat + 1 := toNat_counter_nextId h rfl
  rw [serial, OrderTable.nextId_fst, OrderTable.toNat_orderId, hsucc]
  omega

/-- The next id is new. -/
theorem ne_nextId (h : t.source.2.toNat + 1 < 2 ^ 40) {id : UInt64}
    (hid : serial id ≤ t.source.2.toNat) : id ≠ t.nextId.1 := by
  rintro rfl
  rw [serial_nextId t h] at hid
  omega

/-- While there is room, a row with the next id is not refused. -/
theorem not_refuses_nextId (h : t.source.2.toNat + 1 < 2 ^ 40)
    (hserial : ∀ r ∈ t.rows, serial r.id ≤ t.source.2.toNat) (hfull : t.full = false)
    {row : OrderRow} (hid : row.id = t.nextId.1) : ¬t.nextId.2.Refuses row := by
  rintro (hcard | hzero | ⟨r, hr, heq⟩)
  · rw [OrderTable.full_eq] at hfull
    exact of_decide_eq_false hfull hcard
  · exact ne_nextId h (show serial 0 ≤ _ from Nat.zero_le _) (hzero.symm.trans hid)
  · exact ne_nextId h (hserial r hr) (heq.trans hid)

end NextId

/-! ### The table refines a finite map -/

/-- An operation on the table. -/
inductive TableOp
  | insert (r : OrderRow)
  | erase (id : UInt64)
  | find (id : UInt64)
  | setLeaves (id : UInt64) (leaves : ℤ)

/-- What an operation returns. -/
inductive TableReply
  | inserted (ok : Bool)
  | found (r : Option OrderRow)
  | done
  deriving DecidableEq

namespace RawTable

/-- One operation of the table, `none` where it would not end. -/
def apply (t : RawTable) : TableOp → Option (RawTable × TableReply)
  | .insert r => (t.insert r).map fun (t', ok) => (t', .inserted ok)
  | .erase id => (t.erase id).map fun t' => (t', .done)
  | .find id => (t.find id).map fun r => (t, .found r)
  | .setLeaves id leaves => (t.setLeaves id leaves).map fun t' => (t', .done)

/-- A run of operations with their replies. -/
def run (t : RawTable) : List TableOp → Option (RawTable × List TableReply)
  | [] => some (t, [])
  | op :: ops => do
    let (t', reply) ← t.apply op
    let (t'', replies) ← t'.run ops
    return (t'', reply :: replies)

end RawTable

/-- **The abstract table**: the live rows as an association list from ids to rows. -/
abbrev LiveOrders := List OrderRow

namespace LiveOrders

/-- An insertion is refused when 2048 orders are live, or the id is 0 or live. -/
def Refuses (live : LiveOrders) (r : OrderRow) : Prop :=
  live.length = 2048 ∨ r.id = 0 ∨ r.id ∈ live.map OrderRow.id

instance (live : LiveOrders) (r : OrderRow) : Decidable (live.Refuses r) :=
  inferInstanceAs (Decidable (_ ∨ _))

/-- One operation of the abstract table. -/
def apply (live : LiveOrders) : TableOp → LiveOrders × TableReply
  | .insert r =>
    if live.Refuses r then (live, .inserted false) else (r :: live, .inserted true)
  | .erase id => (live.filter fun r => r.id ≠ id, .done)
  | .find id => (live, .found (live.find? fun r => r.id = id))
  | .setLeaves id leaves => (live.map fun r => if r.id = id then { r with leaves } else r, .done)

/-- A run of the abstract table. -/
def run (live : LiveOrders) : List TableOp → LiveOrders × List TableReply
  | [] => (live, [])
  | op :: ops =>
    let (live', reply) := live.apply op
    let (live'', replies) := LiveOrders.run live' ops
    (live'', reply :: replies)

end LiveOrders

/-- The open lots of a list of rows. -/
theorem openLots_coe (live : LiveOrders) (side : Side) (inst : UInt16) :
    openLots (live : Multiset OrderRow) side inst =
      ((live.filter fun r => r.side = side ∧ r.instrument = inst).map OrderRow.leaves).sum := by
  induction live with
  | nil => rfl
  | cons r live ih =>
    rw [← Multiset.cons_coe, openLots_cons, ih]
    by_cases h : r.side = side ∧ r.instrument = inst <;> simp [h]

/-- The refinement relation: a well-formed table whose live rows are those of the list. -/
structure RawTable.Refines (t : RawTable) (live : LiveOrders) : Prop where
  valid : t.Valid
  rows : t.liveRows = (live : Multiset OrderRow)

namespace RawTable

section Refines

variable {t : RawTable} {live : LiveOrders}

theorem Refines.mem (h : t.Refines live) {r : OrderRow} : r ∈ t.liveRows ↔ r ∈ live := by
  rw [h.rows, Multiset.mem_coe]

theorem Refines.nodup_map_id (h : t.Refines live) : (live.map OrderRow.id).Nodup := by
  have hnodup := h.valid.nodup_map_id
  rwa [h.rows, Multiset.map_coe, Multiset.coe_nodup] at hnodup

theorem Refines.length_eq (h : t.Refines live) : live.length = t.n := by
  rw [← card_liveRows, h.rows, Multiset.coe_card]

/-- The rows in the order of the array. -/
theorem Refines.perm (h : t.Refines live) : ((List.range t.n).map t.rows).Perm live := by
  rw [← Multiset.coe_eq_coe, ← h.rows]
  rfl

theorem Refines.find (h : t.Refines live) (id : UInt64) :
    t.find id = some (live.find? fun r => r.id = id) := by
  rcases t.live_or_absent id with ⟨r, hr, rfl⟩ | habs
  · rw [find_row h.valid hr]
    congr 1
    -- the row that `find?` meets first is the only one with this id
    obtain ⟨r', hr'⟩ : ∃ r', live.find? (fun r' => r'.id = r.id) = some r' :=
      Option.isSome_iff_exists.mp (List.find?_isSome.mpr ⟨r, h.mem.mp hr, by simp⟩)
    have hid : r'.id = r.id := by simpa using List.find?_some hr'
    rw [hr', List.inj_on_of_nodup_map h.nodup_map_id (List.mem_of_find?_eq_some hr')
      (h.mem.mp hr) hid]
  · rw [find_absent h.valid habs]
    congr 1
    refine (List.find?_eq_none.mpr fun r hr => ?_).symm
    simpa using habs r (h.mem.mpr hr)

/-- When the abstract insertion refuses, in the words of the table. -/
theorem Refines.refuses_iff (h : t.Refines live) (r : OrderRow) :
    live.Refuses r ↔ t.n = MAX_ROWS ∨ r.id = 0 ∨ ∃ r' ∈ t.liveRows, r'.id = r.id := by
  rw [LiveOrders.Refuses, h.length_eq, List.mem_map]
  simp only [h.mem, MAX_ROWS]

theorem Refines.insert (h : t.Refines live) (r : OrderRow) :
    ∃ t', t.insert r = some (t', !decide (live.Refuses r)) ∧
      if live.Refuses r then t' = t else t'.Refines (r :: live) := by
  by_cases hno : live.Refuses r
  · refine ⟨t, ?_, by rw [if_pos hno]⟩
    rw [insert_refused h.valid ((h.refuses_iff r).mp hno)]
    simp [hno]
  · have hyes := mt (h.refuses_iff r).mpr hno
    push Not at hyes
    obtain ⟨slot, hrun, hvalid⟩ := insert_added h.valid hyes.1 hyes.2.1 hyes.2.2
    refine ⟨t.append r slot, ?_, ?_⟩
    · simp [hrun, hno]
    · rw [if_neg hno]
      exact ⟨hvalid, by rw [liveRows_append, h.rows, Multiset.cons_coe]⟩

theorem Refines.erase (h : t.Refines live) (id : UInt64) :
    ∃ t', t.erase id = some t' ∧ t'.Refines (live.filter fun r => r.id ≠ id) := by
  rcases t.live_or_absent id with ⟨r, hr, rfl⟩ | habs
  · obtain ⟨t', hrun, hvalid, hlive, -⟩ := erase_row h.valid hr
    refine ⟨t', hrun, hvalid, ?_⟩
    have hnodup := h.valid.nodup_map_id
    rw [hlive, Multiset.map_cons, Multiset.nodup_cons] at hnodup
    rw [← Multiset.filter_coe, ← h.rows, hlive, Multiset.filter_cons_of_neg _ (by simp)]
    symm
    refine Multiset.filter_eq_self.mpr fun r' hr' => ?_
    intro hid
    exact hnodup.1 (hid ▸ Multiset.mem_map_of_mem _ hr')
  · refine ⟨t, erase_absent h.valid habs, h.valid, ?_⟩
    rw [List.filter_eq_self.mpr fun r hr => by simpa using habs r (h.mem.mpr hr), h.rows]

theorem Refines.setLeaves (h : t.Refines live) (id : UInt64) (leaves : ℤ) :
    ∃ t', t.setLeaves id leaves = some t' ∧
      t'.Refines (live.map fun r => if r.id = id then { r with leaves } else r) := by
  rcases t.live_or_absent id with ⟨r, hr, rfl⟩ | habs
  · obtain ⟨t', hrun, hvalid, hlive, -⟩ := setLeaves_row h.valid hr leaves
    refine ⟨t', hrun, hvalid, (Multiset.cons_inj_right r).mp (hlive.trans ?_)⟩
    obtain ⟨rest, hrest⟩ := Multiset.exists_cons_of_mem hr
    have hnodup := h.valid.nodup_map_id
    rw [hrest, Multiset.map_cons, Multiset.nodup_cons] at hnodup
    have hmap : rest.map (fun r' => if r'.id = r.id then { r' with leaves } else r') = rest := by
      refine (Multiset.map_congr rfl fun r' hr' => if_neg fun hid => hnodup.1 ?_).trans
        (Multiset.map_id rest)
      exact hid ▸ Multiset.mem_map_of_mem _ hr'
    rw [← Multiset.map_coe, ← h.rows, hrest, Multiset.map_cons, if_pos rfl, hmap,
      Multiset.cons_swap]
  · refine ⟨t, setLeaves_absent h.valid habs leaves, h.valid, ?_⟩
    rw [List.map_congr_left (g := fun r => r) fun r hr => if_neg (habs r (h.mem.mpr hr)),
      List.map_id', h.rows]

/-- **One operation** of the table is one operation of the list, and ends. -/
theorem Refines.apply (h : t.Refines live) (op : TableOp) :
    ∃ t', t.apply op = some (t', (live.apply op).2) ∧ t'.Refines (live.apply op).1 := by
  cases op with
  | insert r =>
    obtain ⟨t', hrun, hrefines⟩ := h.insert r
    refine ⟨t', ?_, ?_⟩
    · rw [RawTable.apply, hrun, LiveOrders.apply]
      split_ifs with hno <;> simp [hno]
    · rw [LiveOrders.apply]
      split_ifs at hrefines ⊢
      · exact hrefines ▸ h
      · exact hrefines
  | erase id =>
    obtain ⟨t', hrun, hrefines⟩ := h.erase id
    exact ⟨t', by rw [RawTable.apply, hrun]; rfl, hrefines⟩
  | find id => exact ⟨t, by rw [RawTable.apply, h.find]; rfl, h⟩
  | setLeaves id leaves =>
    obtain ⟨t', hrun, hrefines⟩ := h.setLeaves id leaves
    exact ⟨t', by rw [RawTable.apply, hrun]; rfl, hrefines⟩

/-- **A run** of the table is a run of the list, and every loop in it ends. -/
theorem Refines.run (h : t.Refines live) (ops : List TableOp) :
    ∃ t', t.run ops = some (t', (live.run ops).2) ∧ t'.Refines (live.run ops).1 := by
  induction ops generalizing t live with
  | nil => exact ⟨t, rfl, h⟩
  | cons op ops ih =>
    obtain ⟨t', hop, hrefines⟩ := h.apply op
    obtain ⟨t'', hrun, hrefines'⟩ := ih hrefines
    refine ⟨t'', ?_, hrefines'⟩
    rw [RawTable.run, hop]
    simp [hrun, LiveOrders.run]

end Refines

/-- **The order table refines a finite map with aggregates.** A run of operations on an empty
table ends (so every probe loop does) with the replies of the same run on the abstract list of
live rows, whose ids are distinct. Afterwards `find` is lookup in that list, `insert` refuses
exactly when 2048 rows are live or the id is 0 or live, and then changes nothing, the dense
array enumerates the list, and counts and open lots are those of the list. -/
theorem run_refines_liveOrders (ops : List TableOp) :
    ∃ t live replies, empty.run ops = some (t, replies) ∧ LiveOrders.run [] ops = (live, replies) ∧
      (live.map OrderRow.id).Nodup ∧
      (∀ id, t.find id = some (live.find? fun r => r.id = id)) ∧ t.find 0 = some none ∧
      (∀ r, if live.Refuses r then t.insert r = some (t, false)
        else ∃ t', t.insert r = some (t', true)) ∧
      t.n = live.length ∧ ((List.range t.n).map t.rows).Perm live ∧
      (∀ inst, t.live inst = live.countP fun r => r.instrument = inst) ∧
      ∀ side inst,
        let sum := ((live.filter fun r => r.side = side ∧ r.instrument = inst).map
          OrderRow.leaves).sum
        t.lots side inst = wrap 64 sum ∧ (Fits 64 sum → t.lots side inst = sum) := by
  have hempty : empty.Refines [] := ⟨valid_empty, rfl⟩
  obtain ⟨t, hrun, h⟩ := hempty.run ops
  refine ⟨t, _, _, hrun, rfl, h.nodup_map_id, h.find, ?_, fun r => ?_, h.length_eq.symm, h.perm,
    fun inst => ?_, fun side inst => ?_⟩
  · refine find_absent h.valid fun r hr => ?_
    obtain ⟨j, hj, rfl⟩ := mem_liveRows.mp hr
    exact h.valid.id_ne j hj
  · obtain ⟨t', hins, hcase⟩ := h.insert r
    split_ifs at hcase ⊢ with hno
    · rw [hins, hcase]
      simp [hno]
    · exact ⟨t', by rw [hins]; simp [hno]⟩
  · rw [h.valid.live_eq, liveCount, h.rows, Multiset.coe_countP]
  · -- open_buy_ and open_sell_ are counted modulo 2^64
    have hsum : openLots t.liveRows side inst =
        (((LiveOrders.run [] ops).1.filter fun r => r.side = side ∧ r.instrument = inst).map
          OrderRow.leaves).sum := by
      rw [h.rows, openLots_coe]
    have hlots := h.valid.lots_eq side inst
    rw [hsum] at hlots
    exact ⟨hlots, fun hfits => hlots.trans (wrap_eq_self (by omega) hfits)⟩

end RawTable

end Exec

end LowLatencyPipeline
