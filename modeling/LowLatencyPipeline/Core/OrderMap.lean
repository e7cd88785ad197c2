import Mathlib.Data.Finmap
import LowLatencyPipeline.Common.Messages
import LowLatencyPipeline.Common.SpscRing
import LowLatencyPipeline.Library.LinearProbe

/-!
# The order map

`OrderMap` of `core/core.hpp`, for any capacity and any hash function: open addressing with linear
probing and backward-shift deletion. A freed slot keeps its key and its entry, and the first loop
of `erase` compares keys only. The probe loops run for at most one round trip of the table and
give `none` where they would still be running.

`Valid` says that the occupied slots form a probe table, and `entries` is the multiset of what is
stored. On a valid map with a free slot every loop ends: `find_stored`, `find_absent`,
`insert_absent`, `store_stored` and `erase_stored` say what each operation does to `entries`.
`run_refines_finmap` puts them together for whole sequences of operations.
-/

namespace LowLatencyPipeline

namespace Core

open LinearProbe Common Common.SpscRing

/-- `OrderEntry`. -/
structure OrderEntry where
  price : UInt32
  shares : UInt32
  side : Side
  deriving DecidableEq

/-- `OrderMap::Slot`. -/
structure MapSlot where
  key : UInt64
  entry : OrderEntry
  occupied : Bool
  deriving DecidableEq

/-- `OrderMap`. Only the first `capacity` slots are its own. -/
structure OrderMap where
  slots : ℕ → MapSlot

namespace OrderMap

/-- A map in zero-initialised storage. -/
def empty : OrderMap where
  slots := fun _ => ⟨0, ⟨0, 0, .sell⟩, false⟩

/-- A probe loop from `pos` on: the position where `stop` holds of the slot. -/
def probe (capacity : UInt32) (stop : ℕ → Bool) : ℕ → UInt32 → Option UInt32
  | 0, _ => none
  | fuel + 1, pos =>
    if stop (slotOf capacity pos) then some pos else probe capacity stop fuel (pos + 1)

section Operations

variable (capacity : UInt32) (hash : UInt64 → UInt32) (m : OrderMap)

/-- `find`: the slot of the entry, `some none` for a null pointer. -/
def find (ref : UInt64) : Option (Option ℕ) := do
  let pos ← probe capacity
    (fun i => !(m.slots i).occupied || (m.slots i).key == ref) capacity.toNat (hash ref)
  let i := slotOf capacity pos
  return if (m.slots i).occupied then some i else none

/-- `insert`. -/
def insert (ref : UInt64) (price shares : UInt32) (side : Side) : Option OrderMap := do
  let pos ← probe capacity (fun i => !(m.slots i).occupied) capacity.toNat (hash ref)
  return ⟨Function.update m.slots (slotOf capacity pos) ⟨ref, ⟨price, shares, side⟩, true⟩⟩

/-- The second loop of `erase`. -/
def shift : ℕ → (ℕ → MapSlot) → UInt32 → UInt32 → Option (ℕ → MapSlot)
  | 0, _, _, _ => none
  | fuel + 1, slots, hole, pos =>
    let s := slots (slotOf capacity pos)
    if s.occupied then
      let home := hash s.key
      if slotOf capacity (pos - home) > slotOf capacity (hole - home) then
        let slots := Function.update slots (slotOf capacity hole) s
        let slots := Function.update slots (slotOf capacity pos) { s with occupied := false }
        shift fuel slots pos (pos + 1)
      else shift fuel slots hole (pos + 1)
    else some slots

/-- `erase`. -/
def erase (ref : UInt64) : Option OrderMap := do
  let pos ← probe capacity (fun i => (m.slots i).key == ref) capacity.toNat (hash ref)
  let i := slotOf capacity pos
  let slots := Function.update m.slots i { m.slots i with occupied := false }
  return ⟨← shift capacity hash capacity.toNat slots pos (pos + 1)⟩

/-- A store through the pointer that `find` returned. -/
def store (i : ℕ) (f : OrderEntry → OrderEntry) : OrderMap :=
  ⟨Function.update m.slots i { m.slots i with entry := f (m.slots i).entry }⟩

end Operations

/-! ### The occupied slots as a probe table -/

/-- The occupied slots. -/
def view (slots : ℕ → MapSlot) (i : ℕ) : Option (UInt64 × OrderEntry) :=
  if (slots i).occupied then some ((slots i).key, (slots i).entry) else none

/-- What is stored. -/
def entries (capacity : UInt32) (m : OrderMap) : Multiset (UInt64 × OrderEntry) :=
  content capacity.toNat (view m.slots)

/-- **The invariant of a map.** -/
def Valid (capacity : UInt32) (hash : UInt64 → UInt32) (m : OrderMap) : Prop :=
  Probed capacity.toNat Prod.fst (fun ref => slotOf capacity (hash ref)) (view m.slots)

@[simp]
theorem view_update (slots : ℕ → MapSlot) (i : ℕ) (s : MapSlot) :
    view (Function.update slots i s) =
      Function.update (view slots) i (if s.occupied then some (s.key, s.entry) else none) := by
  funext j
  rcases eq_or_ne j i with rfl | hne
  · simp [view]
  · simp [view, Function.update_of_ne hne]

theorem view_eq_some {slots : ℕ → MapSlot} {i : ℕ} {e : UInt64 × OrderEntry} :
    view slots i = some e ↔
      (slots i).occupied = true ∧ (slots i).key = e.1 ∧ (slots i).entry = e.2 := by
  rw [view]
  split_ifs with h
  · simp [h, Prod.ext_iff]
  · simp [h]

theorem view_eq_none {slots : ℕ → MapSlot} {i : ℕ} :
    view slots i = none ↔ (slots i).occupied = false := by
  simp [view]

/-- The exit test of `find`, on the view. -/
theorem atKey_view (slots : ℕ → MapSlot) (ref : UInt64) :
    (fun i => !(slots i).occupied || (slots i).key == ref) = atKey Prod.fst (view slots) ref := by
  funext i
  by_cases h : (slots i).occupied <;> simp [atKey, view, h, beq_eq_decide]

theorem isNone_view (slots : ℕ → MapSlot) :
    (fun i => !(slots i).occupied) = fun i => (view slots i).isNone := by
  funext i
  by_cases h : (slots i).occupied <;> simp [view, h]

section Loops

variable {capacity : UInt32} (hcap : PowerOfTwo capacity)
include hcap

theorem slotOf_lt (pos : UInt32) : slotOf capacity pos < capacity.toNat := by
  obtain ⟨k, hk⟩ := hcap
  rw [slotOf_eq_mod ⟨k, hk⟩]
  exact Nat.mod_lt _ (hk ▸ Nat.two_pow_pos k)

theorem slotOf_succ (pos : UInt32) :
    slotOf capacity (pos + 1) = (slotOf capacity pos + 1) % capacity.toNat := by
  rw [show pos + 1 = pos + UInt32.ofNat 1 from rfl, slotOf_add hcap, slotOf_eq_mod hcap,
    Nat.mod_add_mod]

/-- A probe loop is a scan of the slots. -/
theorem probe_eq_scan (stop : ℕ → Bool) (fuel : ℕ) (pos : UInt32) :
    (probe capacity stop fuel pos).map (slotOf capacity) =
      scan capacity.toNat stop (slotOf capacity pos) fuel := by
  have hscan : ∀ (fuel : ℕ) (pos : UInt32) (start : ℕ),
      start % capacity.toNat = slotOf capacity pos →
        (probe capacity stop fuel pos).map (slotOf capacity) =
          scan capacity.toNat stop start fuel := by
    intro fuel
    induction fuel with
    | zero => intro pos start _; rfl
    | succ fuel ih =>
      intro pos start hstart
      rw [probe, scan, hstart]
      split_ifs
      · rfl
      · refine ih (pos + 1) (start + 1) ?_
        rw [slotOf_succ hcap, ← hstart, Nat.mod_add_mod]
  exact hscan fuel pos _ (Nat.mod_eq_of_lt (slotOf_lt hcap pos))

/-- The masked difference of two positions is the way from one slot to the other. -/
theorem slotOf_sub (pos home : UInt32) :
    slotOf capacity (pos - home) =
      dist capacity.toNat (slotOf capacity home) (slotOf capacity pos) := by
  have hpos : slotOf capacity pos =
      (slotOf capacity home + slotOf capacity (pos - home)) % capacity.toNat := by
    have hsplit : pos = home + UInt32.ofNat (pos - home).toNat := by
      rw [UInt32.ofNat_toNat, add_sub_cancel]
    rw [slotOf_eq_mod hcap (pos - home), slotOf_eq_mod hcap home, Nat.mod_add_mod,
      Nat.add_mod_mod, ← slotOf_add hcap, ← hsplit]
  rw [hpos, dist_add_mod (slotOf_lt hcap home) (slotOf_lt hcap _)]

/-- The second loop of `erase` is the backward shift of the view. -/
theorem shift_view (hash : UInt64 → UInt32) (fuel : ℕ) (slots : ℕ → MapSlot) (hole pos : UInt32) :
    (shift capacity hash fuel slots hole pos).map view =
      shiftBack capacity.toNat Prod.fst (fun ref => slotOf capacity (hash ref)) fuel (view slots)
        (slotOf capacity hole) (slotOf capacity pos) := by
  induction fuel generalizing slots hole pos with
  | zero => rfl
  | succ fuel ih =>
    rw [shift, shiftBack]
    by_cases hoccupied : (slots (slotOf capacity pos)).occupied
    · have hview : view slots (slotOf capacity pos) =
          some ((slots (slotOf capacity pos)).key, (slots (slotOf capacity pos)).entry) := by
        simp [view, hoccupied]
      simp only [hoccupied, if_true, hview, slotOf_sub hcap, gt_iff_lt, ← slotOf_succ hcap]
      split_ifs
      · rw [ih]
        simp [hoccupied]
      · exact ih _ _ _
    · have hview : view slots (slotOf capacity pos) = none := by simp [view, hoccupied]
      simp [hoccupied, hview]

end Loops

/-! ### What the operations do -/

theorem valid_empty (capacity : UInt32) (hash : UInt64 → UInt32) : Valid capacity hash empty := by
  have hview : view empty.slots = fun _ => none := rfl
  rw [Valid, hview]
  exact Probed.empty

@[simp]
theorem entries_empty (capacity : UInt32) : entries capacity empty = 0 := by
  refine Multiset.eq_zero_of_forall_notMem fun e he => ?_
  obtain ⟨p, -, hp⟩ := mem_content.1 he
  exact absurd hp (by simp [view, empty])

section Spec

variable {capacity : UInt32} {hash : UInt64 → UInt32} {m : OrderMap} {ref : UInt64}

/-- A map that is not full has a free slot. -/
theorem exists_free (hroom : (entries capacity m).card < capacity.toNat) :
    ∃ p < capacity.toNat, view m.slots p = none := LinearProbe.exists_free hroom

/-- The entry at a slot is stored. -/
theorem mem_entries {i : ℕ} (hi : i < capacity.toNat) {e : UInt64 × OrderEntry}
    (he : view m.slots i = some e) : e ∈ entries capacity m := mem_content.2 ⟨i, hi, he⟩

/-- A key has one entry. -/
theorem Valid.eq_of_key_eq (h : Valid capacity hash m) {e e' : UInt64 × OrderEntry}
    (he : e ∈ entries capacity m) (he' : e' ∈ entries capacity m) (hkey : e.1 = e'.1) : e = e' :=
  Probed.eq_of_key_eq h he he' hkey

variable (hcap : PowerOfTwo capacity)
include hcap

/-- `find` returns the slot of a stored entry. -/
theorem find_stored (h : Valid capacity hash m) {e : UInt64 × OrderEntry}
    (he : e ∈ entries capacity m) :
    ∃ i < capacity.toNat, m.find capacity hash e.1 = some (some i) ∧
      view m.slots i = some e := by
  obtain ⟨i, hi, hview⟩ := mem_content.1 he
  have hscan := h.scan_key (fun ref => slotOf_lt hcap (hash ref)) hi hview
  rw [← atKey_view, ← probe_eq_scan hcap] at hscan
  obtain ⟨pos, hpos, rfl⟩ := Option.map_eq_some_iff.1 hscan
  refine ⟨slotOf capacity pos, hi, ?_, hview⟩
  rw [find, hpos]
  simp [(view_eq_some.1 hview).1]

/-- `find` returns null for a ref that is not stored. -/
theorem find_absent (hroom : (entries capacity m).card < capacity.toNat)
    (habsent : ∀ e ∈ entries capacity m, e.1 ≠ ref) : m.find capacity hash ref = some none := by
  obtain ⟨i, -, hscan, hview⟩ : ∃ i < capacity.toNat,
      scan capacity.toNat (atKey Prod.fst (view m.slots) ref) (slotOf capacity (hash ref))
        capacity.toNat = some i ∧ view m.slots i = none :=
    Probed.scan_absent (fun ref => slotOf_lt hcap (hash ref)) habsent (exists_free hroom)
  rw [← atKey_view, ← probe_eq_scan hcap] at hscan
  obtain ⟨pos, hpos, rfl⟩ := Option.map_eq_some_iff.1 hscan
  rw [find, hpos]
  simp [view_eq_none.1 hview]

/-- `insert` stores a new entry. -/
theorem insert_absent (h : Valid capacity hash m)
    (hroom : (entries capacity m).card < capacity.toNat)
    (habsent : ∀ e ∈ entries capacity m, e.1 ≠ ref) (price shares : UInt32) (side : Side) :
    ∃ m', m.insert capacity hash ref price shares side = some m' ∧ Valid capacity hash m' ∧
      entries capacity m' = (ref, ⟨price, shares, side⟩) ::ₘ entries capacity m := by
  obtain ⟨i, -, hscan, -, hvalid, hcontent⟩ := h.insert (fun ref => slotOf_lt hcap (hash ref))
    (e := (ref, ⟨price, shares, side⟩)) habsent (exists_free hroom)
  rw [← isNone_view, ← probe_eq_scan hcap] at hscan
  obtain ⟨pos, hpos, rfl⟩ := Option.map_eq_some_iff.1 hscan
  refine ⟨_, by rw [insert, hpos]; rfl, ?_, ?_⟩
  · rw [Valid, view_update, if_pos rfl]
    exact hvalid
  · rw [entries, view_update, if_pos rfl]
    exact hcontent

omit hcap in
/-- A store through a pointer to an entry. -/
theorem store_stored (h : Valid capacity hash m) {i : ℕ} (hi : i < capacity.toNat)
    {e : UInt64 × OrderEntry} (he : view m.slots i = some e) (f : OrderEntry → OrderEntry) :
    Valid capacity hash (m.store i f) ∧
      view (m.store i f).slots i = some (e.1, f e.2) ∧
      e ::ₘ entries capacity (m.store i f) = (e.1, f e.2) ::ₘ entries capacity m := by
  obtain ⟨hoccupied, hkey, hentry⟩ := view_eq_some.1 he
  have hview : view (m.store i f).slots = Function.update (view m.slots) i (some (e.1, f e.2)) := by
    rw [store, view_update]
    simp [hoccupied, hkey, hentry]
  refine ⟨?_, ?_, ?_⟩
  · rw [Valid, hview]
    exact h.exchange he rfl
  · rw [hview, Function.update_self]
  · rw [entries, hview]
    exact content_exchange hi he _

/-- The first loop of `erase` leaves at the slot of a stored ref, although it also compares the
keys of freed slots. -/
theorem probe_key (h : Valid capacity hash m) {i : ℕ} (hi : i < capacity.toNat)
    {e : UInt64 × OrderEntry} (he : view m.slots i = some e) :
    ∃ pos, probe capacity (fun i => (m.slots i).key == e.1) capacity.toNat (hash e.1) = some pos ∧
      slotOf capacity pos = i := by
  have hkey : (m.slots i).key = e.1 := (view_eq_some.1 he).2.1
  have hhome := slotOf_lt hcap (hash e.1)
  obtain ⟨q, hq, hscan, hstop, hgo⟩ := exists_scan_eq_some (fun i => (m.slots i).key == e.1)
    hhome hi (by simp [hkey])
  have hqi : q = i := by
    have hle : dist capacity.toNat (slotOf capacity (hash e.1)) q ≤
        dist capacity.toNat (slotOf capacity (hash e.1)) i := by
      -- the scan passes no slot that holds the key
      by_contra hlt
      have hmiss := hgo i hi (Nat.lt_of_not_le hlt)
      simp [hkey] at hmiss
    rcases Nat.lt_or_eq_of_le hle with hlt | heq
    · -- an earlier slot of the chain is occupied, by another ref
      obtain ⟨e', he'⟩ := Option.ne_none_iff_exists'.1 (h.chain i hi e he q hq hlt)
      have hkey' : e'.1 = e.1 := by
        rw [← (view_eq_some.1 he').2.1]
        simpa using hstop
      exact h.unique q hq i hi e' e he' he hkey'
    · exact eq_of_dist_eq hhome hq hi heq
  rw [← probe_eq_scan hcap] at hscan
  obtain ⟨pos, hpos, hslot⟩ := Option.map_eq_some_iff.1 hscan
  exact ⟨pos, hpos, hslot.trans hqi⟩

/-- `erase` removes a stored ref. -/
theorem erase_stored (h : Valid capacity hash m)
    (hroom : (entries capacity m).card < capacity.toNat) {e : UInt64 × OrderEntry}
    (he : e ∈ entries capacity m) :
    ∃ m', m.erase capacity hash e.1 = some m' ∧ Valid capacity hash m' ∧
      entries capacity m = e ::ₘ entries capacity m' := by
  obtain ⟨i, hi, hview⟩ := mem_content.1 he
  obtain ⟨pos, hpos, rfl⟩ := probe_key hcap h hi hview
  obtain ⟨slots', hshift, hvalid, hcontent⟩ := Probed.erase h
    (fun ref => slotOf_lt hcap (hash ref)) hi hview (exists_free hroom)
  have hfreed : view (Function.update m.slots (slotOf capacity pos)
      { m.slots (slotOf capacity pos) with occupied := false }) =
      Function.update (view m.slots) (slotOf capacity pos) none := by
    rw [view_update]
    rfl
  rw [← hfreed, ← slotOf_succ hcap, ← shift_view hcap] at hshift
  obtain ⟨slots, hslots, rfl⟩ := Option.map_eq_some_iff.1 hshift
  refine ⟨⟨slots⟩, ?_, hvalid, hcontent⟩
  rw [erase, hpos]
  simp [hslots]

omit hcap in
/-- The probe loop leaves at a slot where it may. -/
theorem probe_stop {stop : ℕ → Bool} {fuel : ℕ} {start pos : UInt32}
    (h : probe capacity stop fuel start = some pos) : stop (slotOf capacity pos) = true := by
  induction fuel generalizing start with
  | zero => cases h
  | succ fuel ih =>
    rw [probe] at h
    split_ifs at h with hstop
    · exact Option.some.inj h ▸ hstop
    · exact ih h

omit hcap in
/-- A loop that stops more rarely leaves at the same slot, if it stops there. -/
theorem probe_of_imp {stop stop' : ℕ → Bool} {fuel : ℕ} {start pos : UInt32}
    (h : probe capacity stop fuel start = some pos) (himp : ∀ i, stop' i = true → stop i = true)
    (hpos : stop' (slotOf capacity pos) = true) :
    probe capacity stop' fuel start = some pos := by
  induction fuel generalizing start with
  | zero => cases h
  | succ fuel ih =>
    rw [probe] at h ⊢
    split_ifs at h with hstop
    · obtain rfl := Option.some.inj h
      rw [if_pos hpos]
    · rw [if_neg fun hstop' => hstop (himp _ hstop')]
      exact ih h

/-! Without the invariant: what calls do that return, whatever the map. -/

omit hcap in
theorem probe_of_find {i : ℕ} (hfind : m.find capacity hash ref = some (some i)) :
    ∃ pos, probe capacity (fun i => !(m.slots i).occupied || (m.slots i).key == ref)
        capacity.toNat (hash ref) = some pos ∧
      slotOf capacity pos = i ∧ (m.slots i).occupied = true := by
  rw [find, Option.bind_eq_bind, Option.bind_eq_some_iff] at hfind
  obtain ⟨pos, hpos, hslot⟩ := hfind
  have hfound := Option.some.inj hslot
  split_ifs at hfound with hoccupied
  obtain rfl := Option.some.inj hfound
  exact ⟨pos, hpos, rfl, hoccupied⟩

theorem view_of_find {i : ℕ} (hfind : m.find capacity hash ref = some (some i)) :
    i < capacity.toNat ∧ view m.slots i = some (ref, (m.slots i).entry) := by
  obtain ⟨pos, hpos, rfl, hoccupied⟩ := probe_of_find hfind
  have hkey : (m.slots (slotOf capacity pos)).key = ref := by
    simpa [hoccupied] using probe_stop hpos
  exact ⟨slotOf_lt hcap pos, view_eq_some.2 ⟨hoccupied, hkey, rfl⟩⟩

/-- `insert` adds an entry. -/
theorem entries_of_insert {m' : OrderMap} {price shares : UInt32} {side : Side}
    (hrun : m.insert capacity hash ref price shares side = some m') :
    entries capacity m' = (ref, ⟨price, shares, side⟩) ::ₘ entries capacity m := by
  rw [insert, Option.bind_eq_bind, Option.bind_eq_some_iff] at hrun
  obtain ⟨pos, hpos, hslots⟩ := hrun
  have hfree : view m.slots (slotOf capacity pos) = none := by
    have hstop := probe_stop hpos
    exact view_eq_none.2 (by simpa using hstop)
  obtain rfl := Option.some.inj hslots
  rw [entries, view_update, if_pos rfl]
  exact content_update_some (slotOf_lt hcap pos) hfree

/-- `erase` takes the entry that `find` points to. -/
theorem entries_of_erase {m' : OrderMap} {i : ℕ}
    (hfind : m.find capacity hash ref = some (some i))
    (hrun : m.erase capacity hash ref = some m') :
    entries capacity m = (ref, (m.slots i).entry) ::ₘ entries capacity m' := by
  obtain ⟨hi, hview⟩ := view_of_find hcap hfind
  obtain ⟨pos, hfound, rfl, -⟩ := probe_of_find hfind
  -- the slots that `find` passed are occupied by other keys
  have hpos : probe capacity (fun i => (m.slots i).key == ref) capacity.toNat (hash ref) =
      some pos :=
    probe_of_imp hfound (fun j hj => by simp [hj]) (by simp [(view_eq_some.1 hview).2.1])
  rw [erase, Option.bind_eq_bind, hpos, Option.bind_some, Option.bind_eq_bind,
    Option.bind_eq_some_iff] at hrun
  obtain ⟨slots, hshift, hslots⟩ := hrun
  obtain rfl := Option.some.inj hslots
  have hfreed : view (Function.update m.slots (slotOf capacity pos)
      { m.slots (slotOf capacity pos) with occupied := false }) =
      Function.update (view m.slots) (slotOf capacity pos) none := by
    rw [view_update]
    rfl
  have hback := shift_view hcap hash capacity.toNat (Function.update m.slots (slotOf capacity pos)
    { m.slots (slotOf capacity pos) with occupied := false }) pos (pos + 1)
  rw [hshift, Option.map_some, hfreed] at hback
  have hcontent := content_shiftBack (slotOf_lt hcap pos) (slotOf_lt hcap (pos + 1))
    (Function.update_self _ _ _) hback.symm
  rw [entries, content_eq_cons hi hview, entries, hcontent]

/-- A store through the pointer that `find` returned exchanges the entry. -/
theorem entries_of_store {i : ℕ} (hfind : m.find capacity hash ref = some (some i))
    (f : OrderEntry → OrderEntry) :
    (ref, (m.slots i).entry) ::ₘ entries capacity (m.store i f) =
      (ref, f (m.slots i).entry) ::ₘ entries capacity m := by
  obtain ⟨hi, hview⟩ := view_of_find hcap hfind
  obtain ⟨hoccupied, hkey, -⟩ := view_eq_some.1 hview
  have hstored : view (m.store i f).slots =
      Function.update (view m.slots) i (some (ref, f (m.slots i).entry)) := by
    rw [store, view_update]
    simp [hoccupied, hkey]
  rw [entries, hstored]
  exact content_exchange hi hview _

omit hcap in
theorem entry_store (i : ℕ) (f : OrderEntry → OrderEntry) :
    ((m.store i f).slots i).entry = f (m.slots i).entry := by simp [store]

omit hcap in
/-- A store through a pointer moves no key. -/
theorem find_store (i : ℕ) (f : OrderEntry → OrderEntry) :
    (m.store i f).find capacity hash ref = m.find capacity hash ref := by
  have hslot : ∀ j, ((m.store i f).slots j).occupied = (m.slots j).occupied ∧
      ((m.store i f).slots j).key = (m.slots j).key := by
    intro j
    rw [store]
    rcases eq_or_ne j i with rfl | hne
    · simp
    · simp [Function.update_of_ne hne]
  have hoccupied : ∀ j, ((m.store i f).slots j).occupied = (m.slots j).occupied :=
    fun j => (hslot j).1
  have hkey : ∀ j, ((m.store i f).slots j).key = (m.slots j).key := fun j => (hslot j).2
  simp only [find, hoccupied, hkey]

end Spec

end OrderMap

/-! ### The map as a finite map -/

/-- The finite map that an `OrderMap` stands for. -/
abbrev RefMap : Type := Finmap fun _ : UInt64 => OrderEntry

/-- A call. -/
inductive MapOp
  | insert (ref : UInt64) (entry : OrderEntry)
  | erase (ref : UInt64)
  | find (ref : UInt64)

namespace MapOp

/-- What a call does to the map. -/
def run (capacity : UInt32) (hash : UInt64 → UInt32) (m : OrderMap) : MapOp → Option OrderMap
  | .insert ref entry => m.insert capacity hash ref entry.price entry.shares entry.side
  | .erase ref => m.erase capacity hash ref
  | .find ref => (m.find capacity hash ref).map fun _ => m

/-- What it should do. -/
def apply (f : RefMap) : MapOp → RefMap
  | .insert ref entry => f.insert ref entry
  | .erase ref => f.erase ref
  | .find _ => f

/-- What the callers keep to: new refs are not live, and at most `capacity - 1` are; only live
refs are erased. -/
def Allowed (capacity : UInt32) (f : RefMap) : MapOp → Prop
  | .insert ref _ => ref ∉ f ∧ f.keys.card + 1 < capacity.toNat
  | .erase ref => ref ∈ f
  | .find _ => True

instance (capacity : UInt32) (f : RefMap) (op : MapOp) : Decidable (op.Allowed capacity f) := by
  cases op <;> unfold Allowed <;> infer_instance

/-- Every call of a sequence is allowed when its turn comes. -/
def AllAllowed (capacity : UInt32) : RefMap → List MapOp → Prop
  | _, [] => True
  | f, op :: ops => op.Allowed capacity f ∧ AllAllowed capacity (op.apply f) ops

instance (capacity : UInt32) (f : RefMap) (ops : List MapOp) :
    Decidable (AllAllowed capacity f ops) := by
  induction ops generalizing f with
  | nil => exact .isTrue trivial
  | cons op ops ih =>
    unfold AllAllowed
    infer_instance

end MapOp

namespace OrderMap

/-- The entry that `find` points to. -/
def lookup (capacity : UInt32) (hash : UInt64 → UInt32) (m : OrderMap) (ref : UInt64) :
    Option (Option OrderEntry) :=
  (m.find capacity hash ref).map fun p => p.map fun i => (m.slots i).entry

/-- A map stores what a finite map holds. -/
structure Refines (capacity : UInt32) (hash : UInt64 → UInt32) (m : OrderMap) (f : RefMap) :
    Prop where
  valid : Valid capacity hash m
  entries_eq : entries capacity m = f.entries.map fun s => (s.1, s.2)
  keys_lt : f.keys.card < capacity.toNat

section Refines

variable {capacity : UInt32} {hash : UInt64 → UInt32} {m : OrderMap} {f : RefMap}

theorem Refines.mem_entries (h : Refines capacity hash m f) {ref : UInt64} {entry : OrderEntry} :
    (ref, entry) ∈ entries capacity m ↔ f.lookup ref = some entry := by
  rw [h.entries_eq, Multiset.mem_map]
  refine Iff.trans ?_ Finmap.lookup_eq_some_iff.symm
  constructor
  · rintro ⟨⟨ref', entry'⟩, hmem, heq⟩
    obtain ⟨rfl, rfl⟩ := Prod.mk.inj heq
    exact hmem
  · exact fun hmem => ⟨⟨ref, entry⟩, hmem, rfl⟩

theorem Refines.card_lt (h : Refines capacity hash m f) :
    (entries capacity m).card < capacity.toNat := by
  have hkeys : f.keys.card = f.entries.card := Multiset.card_map _ _
  rw [h.entries_eq, Multiset.card_map, ← hkeys]
  exact h.keys_lt

theorem Refines.absent (h : Refines capacity hash m f) {ref : UInt64} (href : ref ∉ f) :
    ∀ e ∈ entries capacity m, e.1 ≠ ref := by
  rintro ⟨ref', entry⟩ he rfl
  exact href (Finmap.mem_of_lookup_eq_some (h.mem_entries.1 he))

/-- `find` answers as the finite map does. -/
theorem Refines.lookup (hcap : PowerOfTwo capacity) (h : Refines capacity hash m f)
    (ref : UInt64) : m.lookup capacity hash ref = some (f.lookup ref) := by
  cases hlookup : f.lookup ref with
  | none =>
    have habsent := h.absent (Finmap.lookup_eq_none.1 hlookup)
    rw [OrderMap.lookup, find_absent hcap h.card_lt habsent]
    rfl
  | some entry =>
    obtain ⟨i, -, hfind, hview⟩ := find_stored hcap h.valid (h.mem_entries.2 hlookup)
    have hentry := (view_eq_some.1 hview).2.2
    simp only at hfind hentry
    simp [OrderMap.lookup, hfind, hentry]

/-- **The step lemma**: an allowed call returns, and does what it should. -/
theorem Refines.step (hcap : PowerOfTwo capacity) (h : Refines capacity hash m f) {op : MapOp}
    (hop : op.Allowed capacity f) :
    ∃ m', op.run capacity hash m = some m' ∧ Refines capacity hash m' (op.apply f) := by
  cases op with
  | insert ref entry =>
    obtain ⟨hnew, hroom⟩ := hop
    obtain ⟨m', hrun, hvalid, hentries⟩ := insert_absent hcap h.valid h.card_lt (h.absent hnew)
      entry.price entry.shares entry.side
    have hinsert := Finmap.entries_insert_of_notMem (b := entry) hnew
    have hkeys : (f.insert ref entry).keys.card = f.keys.card + 1 := by
      rw [Finmap.keys, Finset.card_mk, Multiset.keys, hinsert]
      simp [Finmap.keys, Multiset.keys]
    refine ⟨m', hrun, hvalid, ?_, ?_⟩
    · rw [hentries, h.entries_eq, MapOp.apply, hinsert, Multiset.map_cons]
    · rw [MapOp.apply, hkeys]
      exact hroom
  | erase ref =>
    obtain ⟨entry, hlookup⟩ := Finmap.mem_iff.1 hop
    obtain ⟨m', hrun, hvalid, hentries⟩ := erase_stored hcap h.valid h.card_lt
      (h.mem_entries.2 hlookup)
    -- the finite map is the erased one with the entry put back
    have hback : (f.erase ref).insert ref entry = f := by
      refine Finmap.ext_lookup fun ref' => ?_
      rcases eq_or_ne ref' ref with rfl | hne
      · rw [Finmap.lookup_insert, hlookup]
      · rw [Finmap.lookup_insert_of_ne _ hne, Finmap.lookup_erase_ne hne]
    have hinsert := Finmap.entries_insert_of_notMem (b := entry) (Finmap.notMem_erase_self
      (a := ref) (s := f))
    rw [hback] at hinsert
    refine ⟨m', hrun, hvalid, ?_, ?_⟩
    · have hcons := hentries.symm.trans h.entries_eq
      rw [hinsert, Multiset.map_cons] at hcons
      exact (Multiset.cons_inj_right _).1 hcons
    · rw [MapOp.apply, Finmap.keys_erase]
      exact (Finset.card_erase_le).trans_lt h.keys_lt
  | find ref =>
    refine ⟨m, ?_, h⟩
    have hlookup := h.lookup hcap ref
    obtain ⟨p, hp, -⟩ := Option.map_eq_some_iff.1 hlookup
    rw [MapOp.run, hp]
    rfl

/-- **The run lemma.** -/
theorem Refines.run (hcap : PowerOfTwo capacity) (h : Refines capacity hash m f) (ops : List MapOp)
    (hops : MapOp.AllAllowed capacity f ops) :
    ∃ m', ops.foldlM (MapOp.run capacity hash) m = some m' ∧
      Refines capacity hash m' (ops.foldl MapOp.apply f) := by
  induction ops generalizing m f with
  | nil => exact ⟨m, rfl, h⟩
  | cons op ops ih =>
    obtain ⟨m₁, hrun, h₁⟩ := h.step hcap hops.1
    obtain ⟨m₂, hruns, h₂⟩ := ih h₁ hops.2
    refine ⟨m₂, ?_, h₂⟩
    rw [List.foldlM_cons, hrun]
    exact hruns

/-- **An `OrderMap` is a finite map**, for every capacity that is a power of two and every hash
function: in every sequence of allowed calls each loop ends, and afterwards `find` answers for
every ref as the finite map of the same calls does. -/
theorem run_refines_finmap (hcap : PowerOfTwo capacity) (hash : UInt64 → UInt32)
    (ops : List MapOp) (hops : MapOp.AllAllowed capacity ∅ ops) :
    ∃ m, ops.foldlM (MapOp.run capacity hash) empty = some m ∧
      ∀ ref, m.lookup capacity hash ref = some ((ops.foldl MapOp.apply ∅).lookup ref) := by
  have hpos : 0 < capacity.toNat := by
    obtain ⟨k, hk⟩ := hcap
    exact hk ▸ Nat.two_pow_pos k
  have hempty : Refines capacity hash empty ∅ := by
    refine ⟨valid_empty capacity hash, ?_, hpos⟩
    rw [entries_empty]
    rfl
  obtain ⟨m, hrun, h⟩ := hempty.run hcap ops hops
  exact ⟨m, hrun, h.lookup hcap⟩

/-- Four slots, all refs at home in the last one: erasing the first moves the others back over
the wrap. -/
theorem run_refines_finmap_wrapping :
    ∃ m, [MapOp.insert 1 ⟨100, 5, .buy⟩, .insert 2 ⟨200, 6, .sell⟩, .insert 3 ⟨300, 7, .buy⟩,
        .erase 1, .find 3].foldlM (MapOp.run 4 fun _ => 3) empty = some m ∧
      ∀ ref, m.lookup 4 (fun _ => 3) ref =
        some (([MapOp.insert 1 ⟨100, 5, .buy⟩, .insert 2 ⟨200, 6, .sell⟩, .insert 3 ⟨300, 7, .buy⟩,
          .erase 1, .find 3].foldl MapOp.apply ∅).lookup ref) :=
  run_refines_finmap ⟨2, rfl⟩ _ _ (by decide +kernel)

end Refines

end OrderMap

end Core

end LowLatencyPipeline
