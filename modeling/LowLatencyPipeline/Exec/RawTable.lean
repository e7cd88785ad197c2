import Mathlib.Algebra.BigOperators.Group.Multiset.Basic
import Mathlib.Data.Multiset.Range
import LowLatencyPipeline.Common.Messages
import LowLatencyPipeline.Library.LinearProbe
import LowLatencyPipeline.Library.WrapInt

/-!
# The memory of exec's order table

`OrderTable` of `exec/order_table.hpp` as the code computes it. The rows of the live orders sit
in a dense array (`erase` moves the last row into the gap) and an open-addressed index maps an
order's id to its row (linear probing, backward-shift deletion); per-instrument counts and open
lots are kept in step. The probe loops run for at most one round trip of the index and give
`none` where they would still be running.

`RawTable.Valid` is the representation invariant. On a valid table every loop ends, every
operation keeps the table valid, and its effect is stated on `liveRows`, the multiset of the
live rows: `insert_refused`, `insert_added`, `erase_absent`, `erase_row`, `setLeaves_row`,
`modify_row`.

A row pointer of the source is named by the id of its order here.
-/

namespace LowLatencyPipeline

namespace Exec

open LinearProbe

/-- `OrderRow`. The two `PendingBits` are two fields. -/
structure OrderRow where
  id : UInt64
  strategyTag : UInt64 := 0
  tscDecision : UInt64 := 0
  tSubmitNs : ℤ := 0
  tAckNs : ℤ := 0
  px : ℤ := 0
  qty : ℤ := 0
  leaves : ℤ := 0
  cum : ℤ := 0
  newPx : ℤ := 0
  newQty : ℤ := 0
  instrument : UInt16 := 0
  side : Side := .buy
  tif : Tif := .gtc
  ordType : OrdType := .limit
  status : OrdStatus := .pendingNew
  pendingCancel : Bool := false
  pendingReplace : Bool := false
  deriving DecidableEq

/-- A store that leaves alone what the index and the aggregates are about. -/
structure SameLots (r r' : OrderRow) : Prop where
  id : r'.id = r.id
  instrument : r'.instrument = r.instrument
  side : r'.side = r.side
  leaves : r'.leaves = r.leaves

/-- A slot of the index; key 0 is an empty slot. -/
structure Slot where
  key : UInt64
  pos : ℕ
  deriving DecidableEq

/-- The memory of an `OrderTable`. -/
structure RawTable where
  index : ℕ → Slot
  rows : ℕ → OrderRow
  n : ℕ
  gen : UInt64
  counter : UInt64
  live : UInt16 → ℕ
  /-- `open_buy_` and `open_sell_` -/
  lots : Side → UInt16 → ℤ

@[irreducible] def MAX_ROWS : ℕ := 2048

@[irreducible] def INDEX_SLOTS : ℕ := 4096

namespace RawTable

/-- A table in zero-initialised storage. -/
def empty : RawTable where
  index := fun _ => ⟨0, 0⟩
  rows := fun _ => { id := 0 }
  n := 0
  gen := 0
  counter := 0
  live := fun _ => 0
  lots := fun _ _ => 0

/-- `set_generation`. -/
def setGeneration (t : RawTable) (gen : UInt64) : RawTable := { t with gen := gen &&& 0xFFFFFF }

/-- What `next_id` draws from. -/
def source (t : RawTable) : UInt64 × UInt64 := (t.gen, t.counter)

/-- `next_id`: the id and the table with its counter advanced. -/
def nextId (t : RawTable) : UInt64 × RawTable :=
  let counter := t.counter + 1
  ((t.gen <<< 40) ||| (counter &&& 0xFFFFFFFFFF), { t with counter })

/-- `hash`: the top twelve bits of the multiplied id. -/
def hash (id : UInt64) : ℕ := ((id * 0x9e3779b97f4a7c15) >>> 52).toNat

/-- `slot_of`: `some none` is `NONE`. -/
def slotOf (t : RawTable) (id : UInt64) : Option (Option ℕ) := do
  let p ← scan INDEX_SLOTS (fun i => (t.index i).key = 0 || (t.index i).key = id) (hash id)
    INDEX_SLOTS
  return if (t.index p).key = 0 then none else some p

/-- `find`, returning the row's value. -/
def find (t : RawTable) (id : UInt64) : Option (Option OrderRow) := do
  return (← t.slotOf id).map fun s => t.rows (t.index s).pos

/-- `add_open`. -/
def addOpen (t : RawTable) (r : OrderRow) (deltaLots : ℤ) : RawTable :=
  let lots := Function.update (t.lots r.side) r.instrument
    (wrap 64 (t.lots r.side r.instrument + deltaLots))
  { t with lots := Function.update t.lots r.side lots }

/-- The stores of `insert`, once a slot is found. -/
def append (t : RawTable) (r : OrderRow) (slot : ℕ) : RawTable :=
  let t := { t with
    index := Function.update t.index slot ⟨r.id, t.n⟩
    rows := Function.update t.rows t.n r }
  let t := t.addOpen r r.leaves
  { t with
    live := Function.update t.live r.instrument (t.live r.instrument + 1)
    n := t.n + 1 }

/-- `insert`: the table and whether a row was added. -/
def insert (t : RawTable) (r : OrderRow) : Option (RawTable × Bool) := do
  if t.n = MAX_ROWS ∨ r.id = 0 then return (t, false)
  if (← t.slotOf r.id).isSome then return (t, false)
  let slot ← scan INDEX_SLOTS (fun i => (t.index i).key = 0) (hash r.id) INDEX_SLOTS
  return (t.append r slot, true)

/-- The subtraction of two positions under `MASK`, in 32-bit arithmetic. -/
def maskedSub (i j : ℕ) : ℕ := (i + 2 ^ 32 - j) % 2 ^ 32 % INDEX_SLOTS

/-- The backward-shift loop of `erase` with the store that ends it. -/
def closeGap : ℕ → (ℕ → Slot) → ℕ → ℕ → Option (ℕ → Slot)
  | 0, _, _, _ => none
  | fuel + 1, index, hole, i =>
    if (index i).key = 0 then some (Function.update index hole ⟨0, 0⟩)
    else
      let home := hash (index i).key
      if maskedSub i home ≥ maskedSub i hole then
        closeGap fuel (Function.update index hole (index i)) i ((i + 1) % INDEX_SLOTS)
      else closeGap fuel index hole ((i + 1) % INDEX_SLOTS)

/-- The swap-remove of `erase`: the last row moves to `pos` and its index entry follows. -/
def moveLast (t : RawTable) (pos : ℕ) : Option RawTable :=
  let last := t.n - 1
  let t := { t with n := last }
  if pos = last then some t
  else do
    let t := { t with rows := Function.update t.rows pos (t.rows last) }
    match ← t.slotOf (t.rows pos).id with
    | some m => return { t with index := Function.update t.index m ⟨(t.index m).key, pos⟩ }
    | none => return t

/-- The counts of `erase`. -/
def uncount (t : RawTable) (row : OrderRow) : RawTable :=
  let t := t.addOpen row (wrap 64 (-row.leaves))
  { t with live := Function.update t.live row.instrument (t.live row.instrument - 1) }

/-- `erase`. -/
def erase (t : RawTable) (id : UInt64) : Option RawTable := do
  match ← t.slotOf id with
  | none => return t
  | some s =>
    let pos := (t.index s).pos
    let t ← (t.uncount (t.rows pos)).moveLast pos
    let index ← closeGap INDEX_SLOTS t.index s ((s + 1) % INDEX_SLOTS)
    return { t with index }

/-- `set_leaves` on the row of a live order. -/
def setLeaves (t : RawTable) (id : UInt64) (leaves : ℤ) : Option RawTable := do
  match ← t.slotOf id with
  | none => return t
  | some s =>
    let pos := (t.index s).pos
    let row := t.rows pos
    let t := t.addOpen row (wrap 64 (leaves - row.leaves))
    return { t with rows := Function.update t.rows pos { row with leaves } }

/-- Stores through the row pointer of a live order. -/
def modify (t : RawTable) (id : UInt64) (f : OrderRow → OrderRow) : Option RawTable := do
  match ← t.slotOf id with
  | none => return t
  | some s =>
    let pos := (t.index s).pos
    return { t with rows := Function.update t.rows pos (f (t.rows pos)) }

/-- The live rows. -/
def liveRows (t : RawTable) : Multiset OrderRow := (Multiset.range t.n).map t.rows

end RawTable

/-! ### Aggregates of a multiset of rows -/

/-- The rows of one instrument. -/
def liveCount (rows : Multiset OrderRow) (inst : UInt16) : ℕ :=
  rows.countP fun r => r.instrument = inst

/-- The exact sum of the leaves of one instrument's orders on one side. -/
def openLots (rows : Multiset OrderRow) (side : Side) (inst : UInt16) : ℤ :=
  (rows.map fun r => if r.side = side ∧ r.instrument = inst then r.leaves else 0).sum

@[simp]
theorem liveCount_cons (r : OrderRow) (rows : Multiset OrderRow) (inst : UInt16) :
    liveCount (r ::ₘ rows) inst =
      liveCount rows inst + if r.instrument = inst then 1 else 0 := by
  rw [liveCount, Multiset.countP_cons, liveCount]

@[simp]
theorem openLots_cons (r : OrderRow) (rows : Multiset OrderRow) (side : Side) (inst : UInt16) :
    openLots (r ::ₘ rows) side inst =
      (if r.side = side ∧ r.instrument = inst then r.leaves else 0) + openLots rows side inst := by
  rw [openLots, Multiset.map_cons, Multiset.sum_cons, openLots]

namespace RawTable

/-! ### The representation invariant -/

/-- The index as a table of entries `(id, row)`. -/
def view (index : ℕ → Slot) (i : ℕ) : Option (UInt64 × ℕ) :=
  if (index i).key = 0 then none else some ((index i).key, (index i).pos)

/-- The index maps exactly the ids of the first `n` rows to their positions. -/
structure Indexed (index : ℕ → Slot) (rows : ℕ → OrderRow) (n : ℕ) : Prop where
  probed : Probed INDEX_SLOTS Prod.fst hash (view index)
  content_eq : content INDEX_SLOTS (view index) =
    (Multiset.range n).map fun j => ((rows j).id, j)

/-- **The representation invariant** of an order table. -/
structure Valid (t : RawTable) : Prop where
  n_le : t.n ≤ MAX_ROWS
  indexed : Indexed t.index t.rows t.n
  id_ne : ∀ j < t.n, (t.rows j).id ≠ 0
  live_eq : ∀ inst, t.live inst = liveCount t.liveRows inst
  lots_eq : ∀ side inst, t.lots side inst = wrap 64 (openLots t.liveRows side inst)

/-- The invariant does not see the id counters. -/
theorem Valid.congr {t t' : RawTable} (ht : Valid t) (hindex : t'.index = t.index)
    (hrows : t'.rows = t.rows) (hn : t'.n = t.n) (hlive : t'.live = t.live)
    (hlots : t'.lots = t.lots) : Valid t' := by
  have hrows' : t'.liveRows = t.liveRows := by rw [liveRows, liveRows, hrows, hn]
  exact ⟨hn ▸ ht.n_le, by rw [hindex, hrows, hn]; exact ht.indexed,
    by rw [hrows, hn]; exact ht.id_ne, by rw [hrows', hlive]; exact ht.live_eq,
    by rw [hrows', hlots]; exact ht.lots_eq⟩

/-- The table starts out well formed. -/
theorem valid_empty : Valid empty where
  n_le := Nat.zero_le _
  indexed := by
    have hview : view empty.index = fun _ => none := rfl
    refine ⟨hview ▸ Probed.empty, Multiset.eq_zero_of_forall_notMem fun e he => ?_⟩
    rw [hview] at he
    obtain ⟨p, -, hp⟩ := mem_content.mp he
    exact absurd hp (by simp)
  id_ne := fun j hj => absurd hj (Nat.not_lt_zero j)
  live_eq := fun _ => rfl
  lots_eq := fun _ _ => wrap_zero 64 |>.symm

theorem hash_lt (id : UInt64) : hash id < INDEX_SLOTS := by
  rw [hash, UInt64.toNat_shiftRight, Nat.shiftRight_eq_div_pow]
  have hlt : (id * 0x9e3779b97f4a7c15).toNat < 2 ^ 64 := UInt64.toNat_lt _
  have h52 : (52 : UInt64).toNat % 64 = 52 := rfl
  unfold INDEX_SLOTS
  rw [h52]
  omega

@[simp]
theorem view_update (index : ℕ → Slot) (i : ℕ) (s : Slot) :
    view (Function.update index i s) =
      Function.update (view index) i (if s.key = 0 then none else some (s.key, s.pos)) := by
  funext j
  rcases eq_or_ne j i with rfl | hne
  · simp [view]
  · simp [view, Function.update_of_ne hne]

/-- The exit test of the lookup loop, on the view. -/
theorem atKey_view (index : ℕ → Slot) (id : UInt64) :
    (fun i => decide ((index i).key = 0) || decide ((index i).key = id)) =
      atKey Prod.fst (view index) id := by
  funext i
  by_cases h : (index i).key = 0 <;> simp [atKey, view, h]

theorem isNone_view (index : ℕ → Slot) :
    (fun i => decide ((index i).key = 0)) = fun i => (view index i).isNone := by
  funext i
  by_cases h : (index i).key = 0 <;> simp [view, h]

theorem view_eq_some {index : ℕ → Slot} {i : ℕ} {e : UInt64 × ℕ} (h : view index i = some e) :
    (index i).key ≠ 0 ∧ (index i).key = e.1 ∧ (index i).pos = e.2 := by
  unfold view at h
  split_ifs at h with h0
  obtain rfl := Option.some_injective _ h
  exact ⟨h0, rfl, rfl⟩

section Indexed

variable {index : ℕ → Slot} {rows : ℕ → OrderRow} {n : ℕ}

/-- The slot of a row's index entry. -/
theorem Indexed.exists_slot (h : Indexed index rows n) {j : ℕ} (hj : j < n) :
    ∃ p < INDEX_SLOTS, view index p = some ((rows j).id, j) := by
  refine mem_content.mp ?_
  rw [h.content_eq]
  exact Multiset.mem_map.mpr ⟨j, Multiset.mem_range.mpr hj, rfl⟩

/-- No two rows have the same id. -/
theorem Indexed.row_inj (h : Indexed index rows n) {i j : ℕ} (hi : i < n) (hj : j < n)
    (hid : (rows i).id = (rows j).id) : i = j := by
  have hmem : ∀ k < n, ((rows k).id, k) ∈ content INDEX_SLOTS (view index) := fun k hk =>
    mem_content.mpr (h.exists_slot hk)
  exact congrArg Prod.snd (h.probed.eq_of_key_eq (hmem i hi) (hmem j hj) hid)

/-- With at most half the slots taken there is a free one. -/
theorem Indexed.exists_free (h : Indexed index rows n) (hn : n ≤ MAX_ROWS) :
    ∃ p < INDEX_SLOTS, view index p = none := by
  refine LinearProbe.exists_free ?_
  rw [h.content_eq, Multiset.card_map, Multiset.card_range]
  refine hn.trans_lt ?_
  unfold MAX_ROWS INDEX_SLOTS
  decide

end Indexed

/-! ### Lookup -/

section Lookup

variable {t : RawTable}

theorem mem_liveRows {r : OrderRow} : r ∈ t.liveRows ↔ ∃ j < t.n, t.rows j = r := by
  simp [liveRows]

theorem card_liveRows : t.liveRows.card = t.n := by simp [liveRows]

/-- No two live orders have the same id. -/
theorem Valid.nodup_map_id (ht : Valid t) : (t.liveRows.map OrderRow.id).Nodup := by
  rw [liveRows, Multiset.map_map]
  refine Multiset.Nodup.map_on (fun i hi j hj hid => ?_) (Multiset.nodup_range t.n)
  exact ht.indexed.row_inj (Multiset.mem_range.mp hi) (Multiset.mem_range.mp hj) hid

/-- The probe loop finds the index entry of a live row. -/
theorem slotOf_row (h : Indexed t.index t.rows t.n) {j : ℕ} (hj : j < t.n) :
    ∃ p < INDEX_SLOTS, t.slotOf (t.rows j).id = some (some p) ∧
      view t.index p = some ((t.rows j).id, j) := by
  obtain ⟨p, hp, hview⟩ := h.exists_slot hj
  refine ⟨p, hp, ?_, hview⟩
  have hscan := h.probed.scan_key hash_lt hp hview
  rw [slotOf, atKey_view, hscan]
  simp [(view_eq_some hview).1]

/-- The probe loop ends at a free slot for an id that is not live. -/
theorem slotOf_absent (h : Indexed t.index t.rows t.n) (hn : t.n ≤ MAX_ROWS) {id : UInt64}
    (habs : ∀ j < t.n, (t.rows j).id ≠ id) : t.slotOf id = some none := by
  have habs' : ∀ e ∈ content INDEX_SLOTS (view t.index), e.1 ≠ id := by
    intro e he
    rw [h.content_eq] at he
    obtain ⟨j, hj, rfl⟩ := Multiset.mem_map.mp he
    exact habs j (Multiset.mem_range.mp hj)
  obtain ⟨q, -, hscan, hfree⟩ := Probed.scan_absent hash_lt habs' (h.exists_free hn)
  have hkey : (t.index q).key = 0 := by
    by_contra hne
    simp [view, hne] at hfree
  rw [slotOf, atKey_view, hscan]
  simp [hkey]

/-- `find` returns the row of a live order. -/
theorem find_row (ht : Valid t) {r : OrderRow} (hr : r ∈ t.liveRows) :
    t.find r.id = some (some r) := by
  obtain ⟨j, hj, rfl⟩ := mem_liveRows.mp hr
  obtain ⟨s, -, hslot, hview⟩ := slotOf_row ht.indexed hj
  simp [find, hslot, (view_eq_some hview).2.2]

/-- `find` returns null for an id that is not live. -/
theorem find_absent (ht : Valid t) {id : UInt64} (habs : ∀ r ∈ t.liveRows, r.id ≠ id) :
    t.find id = some none := by
  have hslot := slotOf_absent ht.indexed ht.n_le fun j hj => habs _ (mem_liveRows.mpr ⟨j, hj, rfl⟩)
  simp [find, hslot]

/-- An id is live or it is not. -/
theorem live_or_absent (t : RawTable) (id : UInt64) :
    (∃ r ∈ t.liveRows, r.id = id) ∨ ∀ r ∈ t.liveRows, r.id ≠ id := by
  by_cases h : ∃ r ∈ t.liveRows, r.id = id
  · exact .inl h
  · exact .inr fun r hr hid => h ⟨r, hr, hid⟩

end Lookup

/-! ### The dense array -/

section Dense

variable {β : Type*} {p n : ℕ}

/-- Overwriting one element. -/
theorem map_range_update (f : ℕ → β) (hp : p < n) (b : β) :
    f p ::ₘ (Multiset.range n).map (Function.update f p b) = b ::ₘ (Multiset.range n).map f := by
  obtain ⟨rest, hrest⟩ := Multiset.exists_cons_of_mem (Multiset.mem_range.mpr hp)
  have hnodup : (p ::ₘ rest).Nodup := hrest ▸ Multiset.nodup_range n
  have hmap : rest.map (Function.update f p b) = rest.map f :=
    Multiset.map_congr rfl fun j hj => Function.update_of_ne
      (ne_of_mem_of_not_mem hj (Multiset.nodup_cons.mp hnodup).1) _ _
  rw [hrest, Multiset.map_cons, Multiset.map_cons, Function.update_self, hmap, Multiset.cons_swap]

/-- Swap-remove: the last element moves to the place of the removed one. -/
theorem map_range_succ_eq_cons (f : ℕ → β) (hp : p < n) :
    (Multiset.range (n + 1)).map f =
      f p ::ₘ (Multiset.range n).map (Function.update f p (f n)) := by
  rw [Multiset.range_succ, Multiset.map_cons, map_range_update f hp]

end Dense

/-! ### The aggregates -/

section Aggregates

variable {t : RawTable} {r : OrderRow}

/-- `add_open` adds to the exact sum, in the machine. -/
theorem addOpen_lots {side : Side} {inst : UInt16} {x : ℤ} (h : t.lots side inst = wrap 64 x)
    (r : OrderRow) (d : ℤ) :
    (t.addOpen r d).lots side inst =
      wrap 64 (x + if r.side = side ∧ r.instrument = inst then d else 0) := by
  by_cases hside : r.side = side
  · subst hside
    by_cases hinst : r.instrument = inst
    · subst hinst
      simp [addOpen, h]
    · simp [addOpen, hinst, h, Function.update_of_ne (Ne.symm hinst)]
  · simp [addOpen, hside, h, Function.update_of_ne (Ne.symm hside)]

end Aggregates

/-! ### Insertion -/

section Insert

variable {t : RawTable} {r : OrderRow}

/-- A refused insertion changes nothing. -/
theorem insert_refused (ht : Valid t)
    (h : t.n = MAX_ROWS ∨ r.id = 0 ∨ ∃ r' ∈ t.liveRows, r'.id = r.id) :
    t.insert r = some (t, false) := by
  rw [insert]
  by_cases hfull : t.n = MAX_ROWS ∨ r.id = 0
  · rw [if_pos hfull]
    rfl
  · obtain ⟨r', hr', hid⟩ := (or_assoc.mpr h).resolve_left hfull
    obtain ⟨j, hj, rfl⟩ := mem_liveRows.mp hr'
    obtain ⟨s, -, hslot, -⟩ := slotOf_row ht.indexed hj
    rw [if_neg hfull, ← hid, hslot]
    rfl

theorem liveRows_append (t : RawTable) (r : OrderRow) (slot : ℕ) :
    (t.append r slot).liveRows = r ::ₘ t.liveRows := by
  change (Multiset.range (t.n + 1)).map (Function.update t.rows t.n r) = r ::ₘ _
  rw [Multiset.range_succ, Multiset.map_cons, Function.update_self, liveRows]
  congr 1
  exact Multiset.map_congr rfl fun j hj => Function.update_of_ne (Multiset.mem_range.mp hj).ne _ _

/-- Otherwise the row is added. -/
theorem insert_added (ht : Valid t) (hfull : t.n ≠ MAX_ROWS) (hid : r.id ≠ 0)
    (hnew : ∀ r' ∈ t.liveRows, r'.id ≠ r.id) :
    ∃ slot, t.insert r = some (t.append r slot, true) ∧ Valid (t.append r slot) := by
  have habs : ∀ j < t.n, (t.rows j).id ≠ r.id := fun j hj => hnew _ (mem_liveRows.mpr ⟨j, hj, rfl⟩)
  -- the index holds the ids of the rows, and no other key
  have habs' : ∀ e ∈ content INDEX_SLOTS (view t.index), e.1 ≠ r.id := by
    intro e he
    rw [ht.indexed.content_eq] at he
    obtain ⟨j, hj, rfl⟩ := Multiset.mem_map.mp he
    exact habs j (Multiset.mem_range.mp hj)
  obtain ⟨slot, -, hscan, -, hprobed, hcont⟩ := Probed.insert (e := (r.id, t.n))
    ht.indexed.probed hash_lt habs' (ht.indexed.exists_free ht.n_le)
  have hview : view (t.append r slot).index =
      Function.update (view t.index) slot (some (r.id, t.n)) := by
    change view (Function.update t.index slot ⟨r.id, t.n⟩) = _
    rw [view_update, if_neg hid]
  have hrow : ∀ j < t.n, (t.append r slot).rows j = t.rows j := fun j hj =>
    Function.update_of_ne hj.ne _ _
  have hrow' : (t.append r slot).rows t.n = r := Function.update_self _ _ _
  refine ⟨slot, ?_, Nat.lt_of_le_of_ne ht.n_le hfull, ⟨?_, ?_⟩, fun j hj => ?_, fun inst => ?_,
    fun side inst => ?_⟩
  · rw [insert, if_neg (by tauto), slotOf_absent ht.indexed ht.n_le habs, isNone_view]
    simp [hscan]
  · rwa [hview]
  · rw [hview, hcont, ht.indexed.content_eq]
    change _ = (Multiset.range (t.n + 1)).map _
    rw [Multiset.range_succ, Multiset.map_cons, hrow']
    congr 1
    exact Multiset.map_congr rfl fun j hj => by rw [hrow j (Multiset.mem_range.mp hj)]
  · rcases Nat.lt_succ_iff_lt_or_eq.mp hj with hlt | rfl
    · exact hrow j hlt ▸ ht.id_ne j hlt
    · exact hrow'.symm ▸ hid
  · rw [liveRows_append, liveCount_cons, ← ht.live_eq]
    change Function.update t.live r.instrument (t.live r.instrument + 1) inst = _
    by_cases h : r.instrument = inst
    · subst h
      simp
    · simp [h, Function.update_of_ne (Ne.symm h)]
  · rw [liveRows_append, openLots_cons, add_comm]
    exact addOpen_lots (ht.lots_eq side inst) r r.leaves

end Insert

/-! ### Deletion -/

theorem maskedSub_eq {i j : ℕ} (hi : i < INDEX_SLOTS) (hj : j < INDEX_SLOTS) :
    maskedSub i j = dist INDEX_SLOTS j i := by
  refine dist_eq_sub_mod hj hi ?_
  unfold INDEX_SLOTS
  decide

/-- The loop of `erase` is the backward shift of the index, with a stale entry in the hole. -/
theorem closeGap_view {s stop : ℕ} (hs : s < INDEX_SLOTS) (fuel : ℕ) (index : ℕ → Slot)
    (hole i : ℕ)
    (h : Shifting INDEX_SLOTS Prod.fst hash s stop (Function.update (view index) hole none)
      hole i) :
    (closeGap fuel index hole i).map view =
      shiftBack INDEX_SLOTS Prod.fst hash fuel (Function.update (view index) hole none) hole i := by
  induction fuel generalizing index hole i with
  | zero => rfl
  | succ fuel ih =>
    have hne : hole ≠ i := fun heq => by
      have := h.hole_behind
      simp [heq] at this
    have hat : Function.update (view index) hole none i = view index i :=
      Function.update_of_ne hne.symm _ _
    rw [closeGap, shiftBack, hat]
    by_cases hkey : (index i).key = 0
    · have hview : view index i = none := by simp [view, hkey]
      simp [hkey, hview]
    · have hview : view index i = some ((index i).key, (index i).pos) := by simp [view, hkey]
      -- the code compares masked distances, the library's shiftBack distances from home
      have hway : maskedSub i (hash (index i).key) ≥ maskedSub i hole ↔
          dist INDEX_SLOTS (hash (index i).key) hole < dist INDEX_SLOTS (hash (index i).key) i := by
        rw [maskedSub_eq h.i_lt (hash_lt _), maskedSub_eq h.i_lt h.hole_lt,
          dist_home_lt_iff (hash_lt _) h.hole_lt h.i_lt hne]
      rw [if_neg hkey, hview]
      dsimp only
      by_cases hmove : dist INDEX_SLOTS (hash (index i).key) hole <
          dist INDEX_SLOTS (hash (index i).key) i
      · have hshift := h.move hash_lt hs (hat.trans hview) hmove
        rw [if_pos (hway.mpr hmove), if_pos hmove]
        rw [Function.update_idem] at hshift ⊢
        have hview' : view (Function.update index hole (index i)) =
            Function.update (view index) hole (some ((index i).key, (index i).pos)) := by
          rw [view_update, if_neg hkey]
        rw [← hview'] at hshift ⊢
        exact ih _ _ _ hshift
      · -- the entry is at or before its home: it stays, and the hole with it
        rw [if_neg (fun hle => hmove (hway.mp hle)), if_neg hmove]
        exact ih _ _ _ (h.skip hs (hat.trans hview) hmove)

/-- Closing the gap at a slot ends, and loses that slot's entry. -/
theorem closeGap_spec {index : ℕ → Slot} {s : ℕ} {e : UInt64 × ℕ}
    (h : Probed INDEX_SLOTS Prod.fst hash (view index)) (hs : s < INDEX_SLOTS)
    (he : view index s = some e) (hfree : ∃ p < INDEX_SLOTS, view index p = none) :
    ∃ index', closeGap INDEX_SLOTS index s ((s + 1) % INDEX_SLOTS) = some index' ∧
      Probed INDEX_SLOTS Prod.fst hash (view index') ∧
      content INDEX_SLOTS (view index) = e ::ₘ content INDEX_SLOTS (view index') := by
  obtain ⟨stop, hshift⟩ := h.shifting hs he hfree
  obtain ⟨slots', hrun, hprobed, hcont⟩ := h.erase hash_lt hs he hfree
  rw [← closeGap_view hs _ _ _ _ hshift, Option.map_eq_some_iff] at hrun
  obtain ⟨index', hclose, rfl⟩ := hrun
  exact ⟨index', hclose, hprobed, hcont⟩

section Erase

variable {t : RawTable}

/-- The swap-remove: the index keeps the removed row's entry, and otherwise follows the rows. -/
theorem moveLast_spec (h : Indexed t.index t.rows t.n) {pos s m : ℕ} (hn : t.n = m + 1)
    (hpos : pos < t.n)
    (hview : view t.index s = some ((t.rows pos).id, pos)) :
    ∃ index rows, t.moveLast pos = some { t with index, rows, n := m } ∧
      Probed INDEX_SLOTS Prod.fst hash (view index) ∧
      view index s = some ((t.rows pos).id, pos) ∧
      content INDEX_SLOTS (view index) =
        ((t.rows pos).id, pos) ::ₘ (Multiset.range m).map (fun j => ((rows j).id, j)) ∧
      t.liveRows = t.rows pos ::ₘ (Multiset.range m).map rows := by
  by_cases hlast : pos = m
  · -- the erased row is the last one: nothing moves
    subst hlast
    refine ⟨t.index, t.rows, by simp [moveLast, hn], h.probed, hview, ?_, ?_⟩
    · rw [h.content_eq, hn, Multiset.range_succ, Multiset.map_cons]
    · rw [liveRows, hn, Multiset.range_succ, Multiset.map_cons]
  · have hlt : pos < m := by omega
    -- the last row moves to `pos`, and its index entry is told
    obtain ⟨q, hq, hslot, hqview⟩ := slotOf_row h (show m < t.n by omega)
    have hkey := view_eq_some hqview
    have hsq : s ≠ q := fun heq => by
      rw [heq, hqview] at hview
      exact hlast (congrArg Prod.snd (Option.some_injective _ hview)).symm
    have hview' : view (Function.update t.index q ⟨(t.index q).key, pos⟩) =
        Function.update (view t.index) q (some ((t.rows m).id, pos)) := by
      rw [view_update, if_neg hkey.1, hkey.2.1]
    refine ⟨Function.update t.index q ⟨(t.index q).key, pos⟩,
      Function.update t.rows pos (t.rows m), ?_, ?_, ?_, ?_, ?_⟩
    · have hslot' : slotOf { t with rows := Function.update t.rows pos (t.rows m), n := m }
          (t.rows m).id = some (some q) := hslot
      simp [moveLast, hn, hlast, hslot']
    · rw [hview']
      exact h.probed.exchange hqview rfl
    · rw [hview', Function.update_of_ne hsq, hview]
    · have hcont := content_exchange hq hqview ((t.rows m).id, pos)
      have hover := map_range_update
        (Function.update (fun j => ((t.rows j).id, j)) pos ((t.rows m).id, m)) hlt
        ((t.rows m).id, pos)
      have hat : (fun j => ((Function.update t.rows pos (t.rows m) j).id, j)) =
          Function.update (fun j => ((t.rows j).id, j)) pos ((t.rows m).id, pos) := by
        funext j
        rcases eq_or_ne j pos with rfl | hj
        · simp
        · simp [Function.update_of_ne hj]
      rw [Function.update_self, Function.update_idem] at hover
      rw [← hview', h.content_eq, hn, map_range_succ_eq_cons _ hlt, Multiset.cons_swap, ← hover,
        Multiset.cons_swap] at hcont
      rw [hat]
      exact (Multiset.cons_inj_right _).mp hcont
    · rw [liveRows, hn, map_range_succ_eq_cons t.rows hlt]

/-- Erasing an id that is not live changes nothing. -/
theorem erase_absent {id : UInt64} (ht : Valid t) (habs : ∀ r ∈ t.liveRows, r.id ≠ id) :
    t.erase id = some t := by
  have hslot := slotOf_absent ht.indexed ht.n_le fun j hj => habs _ (mem_liveRows.mpr ⟨j, hj, rfl⟩)
  simp [erase, hslot]

/-- Erasing a live order loses exactly its row. -/
theorem erase_row (ht : Valid t) {r : OrderRow} (hr : r ∈ t.liveRows) :
    ∃ t', t.erase r.id = some t' ∧ Valid t' ∧ t.liveRows = r ::ₘ t'.liveRows ∧
      t'.source = t.source := by
  obtain ⟨pos, hpos, rfl⟩ := mem_liveRows.mp hr
  obtain ⟨s, hs, hslot, hview⟩ := slotOf_row ht.indexed hpos
  obtain ⟨m, hn⟩ : ∃ m, t.n = m + 1 := ⟨t.n - 1, by omega⟩
  obtain ⟨index, rows, hmove, hprobed, hview', hcont, hlive⟩ := moveLast_spec
    (t := t.uncount (t.rows pos)) ht.indexed hn hpos hview
  change view index s = some ((t.rows pos).id, pos) at hview'
  change t.liveRows = t.rows pos ::ₘ (Multiset.range m).map rows at hlive
  -- half of the index is free, so the scan for the end of the gap stops
  have hfree : ∃ p < INDEX_SLOTS, view index p = none := by
    refine LinearProbe.exists_free ?_
    rw [hcont, Multiset.card_cons, Multiset.card_map, Multiset.card_range, ← hn]
    refine ht.n_le.trans_lt ?_
    unfold MAX_ROWS INDEX_SLOTS
    decide
  obtain ⟨index', hclose, hprobed', hcont'⟩ := closeGap_spec hprobed hs hview' hfree
  have hid : ∀ j < m, (rows j).id ≠ 0 := by
    intro j hj
    have hmem : rows j ∈ t.liveRows := by
      rw [hlive]
      exact Multiset.mem_cons_of_mem (Multiset.mem_map_of_mem _ (Multiset.mem_range.mpr hj))
    obtain ⟨i, hi, heq⟩ := mem_liveRows.mp hmem
    exact heq ▸ ht.id_ne i hi
  refine ⟨{ t.uncount (t.rows pos) with index := index', rows, n := m }, ?_,
    ⟨?_, ⟨hprobed', ?_⟩, hid, fun inst => ?_, fun side inst => ?_⟩, hlive, rfl⟩
  · rw [erase, hslot]
    simp [(view_eq_some hview).2.2, hmove, hclose]
  · have := ht.n_le
    change m ≤ MAX_ROWS
    omega
  · exact (Multiset.cons_inj_right _).mp (hcont'.symm.trans hcont)
  · -- `uncount` comes before the rows move, and counts the row that goes
    have hcount := ht.live_eq inst
    rw [hlive, liveCount_cons] at hcount
    change Function.update t.live (t.rows pos).instrument (t.live (t.rows pos).instrument - 1)
      inst = liveCount ((Multiset.range m).map rows) inst
    by_cases h : (t.rows pos).instrument = inst
    · subst h
      simp only [Function.update_self, if_true] at hcount ⊢
      omega
    · simpa [h, Function.update_of_ne (Ne.symm h)] using hcount
  · have hsum := ht.lots_eq side inst
    rw [hlive, openLots_cons] at hsum
    refine (addOpen_lots hsum _ _).trans ?_
    change _ = wrap 64 (openLots ((Multiset.range m).map rows) side inst)
    split_ifs
    · rw [wrap_add_wrap]
      congr 1
      omega
    · simp

end Erase

/-! ### Stores into a live row -/

section Store

variable {t : RawTable}

/-- The index does not see a store that keeps the row's id. -/
theorem Indexed.store (h : Indexed t.index t.rows t.n) {pos : ℕ} {r : OrderRow}
    (hid : r.id = (t.rows pos).id) :
    Indexed t.index (Function.update t.rows pos r) t.n := by
  refine ⟨h.probed, h.content_eq.trans (Multiset.map_congr rfl fun j _ => ?_)⟩
  rcases eq_or_ne j pos with rfl | hj
  · simp [hid]
  · simp [Function.update_of_ne hj]

/-- A store into one row that keeps its id, instrument and side, with the open lots adjusted by
the change of its leaves. -/
theorem Valid.store (ht : Valid t) {pos : ℕ} (hpos : pos < t.n) {r : OrderRow}
    (lots : Side → UInt16 → ℤ) (hid : r.id = (t.rows pos).id)
    (hinst : r.instrument = (t.rows pos).instrument) (hside : r.side = (t.rows pos).side)
    (hlots : ∀ side inst, lots side inst = wrap 64 (openLots t.liveRows side inst +
      if (t.rows pos).side = side ∧ (t.rows pos).instrument = inst
        then r.leaves - (t.rows pos).leaves else 0)) :
    Valid { t with rows := Function.update t.rows pos r, lots } ∧
      t.rows pos ::ₘ liveRows { t with rows := Function.update t.rows pos r, lots } =
        r ::ₘ t.liveRows := by
  obtain ⟨u, hu⟩ : ∃ u, u = { t with rows := Function.update t.rows pos r, lots } := ⟨_, rfl⟩
  have hlive : t.rows pos ::ₘ u.liveRows = r ::ₘ t.liveRows :=
    hu ▸ map_range_update t.rows hpos r
  rw [← hu]
  refine ⟨⟨hu ▸ ht.n_le, hu ▸ ht.indexed.store hid, fun j hj => ?_, fun inst => ?_,
    fun side inst => ?_⟩, hlive⟩
  · subst hu
    rcases eq_or_ne j pos with rfl | hne
    · simpa [hid] using ht.id_ne j hpos
    · simpa [Function.update_of_ne hne] using ht.id_ne j hj
  · have hcount := congrArg (liveCount · inst) hlive
    simp only [liveCount_cons, hinst] at hcount
    have heq := ht.live_eq inst
    have hsame : u.live inst = t.live inst := by rw [hu]
    omega
  · have hsum := congrArg (openLots · side inst) hlive
    simp only [openLots_cons, hinst, hside] at hsum
    have hsame : u.lots side inst = lots side inst := by rw [hu]
    rw [hsame, hlots]
    congr 1
    split_ifs at hsum ⊢ <;> omega

theorem setLeaves_absent (ht : Valid t) {id : UInt64} (habs : ∀ r ∈ t.liveRows, r.id ≠ id)
    (leaves : ℤ) : t.setLeaves id leaves = some t := by
  have hslot := slotOf_absent ht.indexed ht.n_le fun j hj => habs _ (mem_liveRows.mpr ⟨j, hj, rfl⟩)
  simp [setLeaves, hslot]

theorem modify_absent (ht : Valid t) {id : UInt64} (habs : ∀ r ∈ t.liveRows, r.id ≠ id)
    (f : OrderRow → OrderRow) : t.modify id f = some t := by
  have hslot := slotOf_absent ht.indexed ht.n_le fun j hj => habs _ (mem_liveRows.mpr ⟨j, hj, rfl⟩)
  simp [modify, hslot]

/-- `set_leaves` replaces the row. -/
theorem setLeaves_row (ht : Valid t) {r : OrderRow} (hr : r ∈ t.liveRows) (leaves : ℤ) :
    ∃ t', t.setLeaves r.id leaves = some t' ∧ Valid t' ∧
      r ::ₘ t'.liveRows = { r with leaves } ::ₘ t.liveRows ∧
      t'.source = t.source := by
  obtain ⟨pos, hpos, rfl⟩ := mem_liveRows.mp hr
  obtain ⟨s, -, hslot, hview⟩ := slotOf_row ht.indexed hpos
  obtain ⟨hvalid, hlive⟩ := ht.store hpos (r := { t.rows pos with leaves })
    (t.addOpen (t.rows pos) (wrap 64 (leaves - (t.rows pos).leaves))).lots rfl rfl rfl
    fun side inst => by
      rw [addOpen_lots (ht.lots_eq side inst)]
      split_ifs
      · rw [wrap_add_wrap]
      · rfl
  refine ⟨_, ?_, hvalid, hlive, rfl⟩
  simp [setLeaves, hslot, (view_eq_some hview).2.2, addOpen]

/-- A store through the row pointer replaces the row. -/
theorem modify_row (ht : Valid t) {r : OrderRow} (hr : r ∈ t.liveRows) {f : OrderRow → OrderRow}
    (hf : SameLots r (f r)) :
    ∃ t', t.modify r.id f = some t' ∧ Valid t' ∧
      r ::ₘ t'.liveRows = f r ::ₘ t.liveRows ∧
      t'.source = t.source := by
  obtain ⟨pos, hpos, rfl⟩ := mem_liveRows.mp hr
  obtain ⟨s, -, hslot, hview⟩ := slotOf_row ht.indexed hpos
  obtain ⟨hvalid, hlive⟩ := ht.store hpos (r := f (t.rows pos)) t.lots hf.id
    hf.instrument hf.side fun side inst => by simp [ht.lots_eq, hf.leaves]
  refine ⟨_, ?_, hvalid, hlive, rfl⟩
  simp [modify, hslot, (view_eq_some hview).2.2]

/-- A store through a row pointer moves no row. -/
theorem modify_row_id {id : UInt64} {f : OrderRow → OrderRow} (hf : ∀ r, SameLots r (f r))
    {t' : RawTable} (h : t.modify id f = some t') :
    t'.n = t.n ∧ ∀ i, (t'.rows i).id = (t.rows i).id := by
  simp only [modify, Option.bind_eq_bind, Option.bind_eq_some_iff] at h
  obtain ⟨slot, -, h⟩ := h
  cases slot with
  | none =>
    obtain rfl := Option.some_injective _ h
    exact ⟨rfl, fun _ => rfl⟩
  | some s =>
    obtain rfl := Option.some_injective _ h
    refine ⟨rfl, fun i => ?_⟩
    change (Function.update t.rows (t.index s).pos (f (t.rows (t.index s).pos)) i).id = _
    rcases eq_or_ne i (t.index s).pos with rfl | hne
    · rw [Function.update_self, (hf _).id]
    · rw [Function.update_of_ne hne]

end Store

/-! ### Every operation ends in a valid table -/

section Total

variable {t : RawTable}

theorem find_isSome (ht : Valid t) (id : UInt64) : (t.find id).isSome = true := by
  rcases t.live_or_absent id with ⟨r, hr, rfl⟩ | habs
  · rw [find_row ht hr]
    rfl
  · rw [find_absent ht habs]
    rfl

theorem insert_valid (ht : Valid t) (r : OrderRow) :
    ∃ t', (t.insert r).map Prod.fst = some t' ∧ Valid t' := by
  by_cases h : t.n = MAX_ROWS ∨ r.id = 0 ∨ ∃ r' ∈ t.liveRows, r'.id = r.id
  · exact ⟨t, by rw [insert_refused ht h]; rfl, ht⟩
  · push Not at h
    obtain ⟨slot, hrun, hvalid⟩ := insert_added ht h.1 h.2.1 h.2.2
    exact ⟨_, by rw [hrun]; rfl, hvalid⟩

theorem erase_valid (ht : Valid t) (id : UInt64) : ∃ t', t.erase id = some t' ∧ Valid t' := by
  rcases t.live_or_absent id with ⟨r, hr, rfl⟩ | habs
  · obtain ⟨t', hrun, hvalid, -⟩ := erase_row ht hr
    exact ⟨t', hrun, hvalid⟩
  · exact ⟨t, erase_absent ht habs, ht⟩

theorem setLeaves_valid (ht : Valid t) (id : UInt64) (leaves : ℤ) :
    ∃ t', t.setLeaves id leaves = some t' ∧ Valid t' := by
  rcases t.live_or_absent id with ⟨r, hr, rfl⟩ | habs
  · obtain ⟨t', hrun, hvalid, -⟩ := setLeaves_row ht hr leaves
    exact ⟨t', hrun, hvalid⟩
  · exact ⟨t, setLeaves_absent ht habs leaves, ht⟩

theorem modify_valid (ht : Valid t) (id : UInt64) {f : OrderRow → OrderRow}
    (hf : ∀ r, SameLots r (f r)) : ∃ t', t.modify id f = some t' ∧ Valid t' := by
  rcases t.live_or_absent id with ⟨r, hr, rfl⟩ | habs
  · obtain ⟨t', hrun, hvalid, -⟩ := modify_row ht hr (hf r)
    exact ⟨t', hrun, hvalid⟩
  · exact ⟨t, modify_absent ht habs f, ht⟩

end Total

end RawTable

end Exec

end LowLatencyPipeline
