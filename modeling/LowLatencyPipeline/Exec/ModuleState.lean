import LowLatencyPipeline.Library.Fnv

/-!
# The state of a module

`export_state` and `import_state` of `exec/module_abi.hpp`, by which a strategy hands its object to
another instance of its module: a header with the hash of the strategy's name and the size of the
object, and the bytes of the object. A strategy whose type is not trivially copyable has no state to
hand over.

`state_handover`: what is exported is imported as it was, and an import accepts nothing else than
what a strategy with the same hash and size exports.
-/

namespace LowLatencyPipeline

namespace Exec

open Bytes

/-- `STATE_MAGIC`. -/
def STATE_MAGIC : UInt32 := 0x4c4c5354

/-- `sizeof(StateHeader)`. -/
def STATE_HEADER_SIZE : ℕ := 16

/-- `name_hash`. -/
def nameHash (name : List UInt8) : UInt32 :=
  name.foldl (fun h b => (h ^^^ b.toUInt32) * 16777619) 2166136261

/-- The type and name of an `Impl`. -/
structure StrategyType where
  name : List UInt8
  /-- `sizeof(S)` -/
  size : ℕ
  size_lt : size < 2 ^ 63
  /-- `std::is_trivially_copyable_v<S>` -/
  copyable : Bool

namespace StrategyType

variable (S : StrategyType) {T : StrategyType}

/-- The object of a strategy, as it lies in memory. -/
structure State where
  bytes : List UInt8
  length_eq : bytes.length = S.size

/-- `StateHeader`, as it lies in memory. -/
def header : List UInt8 :=
  toLE 4 STATE_MAGIC.toNat ++ (toLE 4 (nameHash S.name).toNat ++ toLE 8 S.size)

variable {S}

/-- What `export_state` writes. -/
def State.blob (p : S.State) : List UInt8 := S.header ++ p.bytes

/-- `export_state`, to a buffer of which it may use the first `cap` bytes: the size it returns, and
the buffer after it. -/
def exportState (p : S.State) (buf : List UInt8) (cap : ℕ) : ℕ × List UInt8 :=
  if S.copyable then
    let need := STATE_HEADER_SIZE + S.size
    if cap < need then (0, buf) else (need, p.blob ++ buf.drop need)
  else (0, buf)

/-- `import_state` of the bytes given: whether it accepts them, and the object after it. -/
def importState (p : S.State) (blob : List UInt8) : Bool × S.State :=
  if S.copyable then
    if h : blob.length = STATE_HEADER_SIZE + S.size then
      if ofLE (slice 0 4 blob) ≠ STATE_MAGIC.toNat ∨
          ofLE (slice 4 4 blob) ≠ (nameHash S.name).toNat ∨ ofLE (slice 8 8 blob) ≠ S.size then
        (false, p)
      else (true, ⟨blob.drop STATE_HEADER_SIZE, by rw [List.length_drop, h]; omega⟩)
    else (false, p)
  else (false, p)

/-! ### Names -/

/-- Names that differ in one character have different hashes. -/
theorem nameHash_ne {front rest : List UInt8} {a b : UInt8} (hne : a ≠ b) :
    nameHash (front ++ a :: rest) ≠ nameHash (front ++ b :: rest) :=
  Fnv.hashBytes_ne_of_byte hne

/-! ### Headers -/

theorem length_header : S.header.length = STATE_HEADER_SIZE := by
  simp [header, STATE_HEADER_SIZE]

theorem length_blob (p : S.State) : p.blob.length = STATE_HEADER_SIZE + S.size := by
  rw [State.blob, List.length_append, length_header, p.length_eq]

/-- The fields of a header tell it. -/
theorem fields_eq_iff {blob : List UInt8} (hlength : STATE_HEADER_SIZE ≤ blob.length) :
    (ofLE (slice 0 4 blob) = STATE_MAGIC.toNat ∧ ofLE (slice 4 4 blob) = (nameHash S.name).toNat ∧
      ofLE (slice 8 8 blob) = S.size) ↔ blob.take STATE_HEADER_SIZE = S.header := by
  have hslice : ∀ off n, off + n ≤ STATE_HEADER_SIZE → (slice off n blob).length = n := by
    intro off n hle
    rw [slice, List.length_take, List.length_drop]
    omega
  have hfield : ∀ off n v, off + n ≤ STATE_HEADER_SIZE → v < 256 ^ n →
      (ofLE (slice off n blob) = v ↔ slice off n blob = toLE n v) := by
    intro off n v hle hv
    have hlt : v < 256 ^ (slice off n blob).length := by rwa [hslice off n hle]
    have hiff := ofLE_eq_iff hlt
    rwa [hslice off n hle] at hiff
  have hsize : S.size < 256 ^ 8 := S.size_lt.trans (by decide)
  rw [hfield 0 4 _ (by decide) (by decide), hfield 4 4 _ (by decide) (UInt32.toNat_lt _),
    hfield 8 8 _ (by decide) hsize]
  have hsplit : blob.take STATE_HEADER_SIZE =
      slice 0 4 blob ++ (slice 4 4 blob ++ slice 8 8 blob) := by
    rw [show STATE_HEADER_SIZE = 4 + (4 + 8) from rfl, List.take_add, List.take_add, List.drop_drop]
    rfl
  rw [hsplit, header]
  constructor
  · rintro ⟨hmagic, hname, hsize⟩
    rw [hmagic, hname, hsize]
  · intro heq
    obtain ⟨hmagic, hrest⟩ := List.append_inj heq (by rw [hslice 0 4 (by decide), length_toLE])
    obtain ⟨hname, hsize⟩ := List.append_inj hrest (by rw [hslice 4 4 (by decide), length_toLE])
    exact ⟨hmagic, hname, hsize⟩

/-! ### Exports and imports -/

/-- What an export does. -/
theorem exportState_cases (p : S.State) (buf : List UInt8) (cap : ℕ) :
    ((S.copyable = false ∨ cap < STATE_HEADER_SIZE + S.size) ∧ exportState p buf cap = (0, buf)) ∨
      (S.copyable = true ∧ STATE_HEADER_SIZE + S.size ≤ cap ∧
        exportState p buf cap =
          (STATE_HEADER_SIZE + S.size, p.blob ++ buf.drop (STATE_HEADER_SIZE + S.size))) := by
  dsimp only [exportState]
  split_ifs with hcopyable hneed
  · exact .inl ⟨.inr hneed, rfl⟩
  · exact .inr ⟨hcopyable, not_lt.1 hneed, rfl⟩
  · exact .inl ⟨.inl (Bool.eq_false_iff.2 hcopyable), rfl⟩

/-- **What an import accepts**: what `export_state` writes, and nothing else. -/
theorem importState_cases (q : S.State) (blob : List UInt8) :
    (S.copyable = true ∧ ∃ p : S.State, blob = p.blob ∧ importState q blob = (true, p)) ∨
      (importState q blob = (false, q) ∧ (S.copyable = true → ∀ p : S.State, blob ≠ p.blob)) := by
  unfold importState
  split_ifs with hcopyable hlength hfields
  · refine .inr ⟨rfl, fun _ p hp => ?_⟩
    have hheader : blob.take STATE_HEADER_SIZE = S.header := by
      rw [hp, State.blob, List.take_left' length_header]
    obtain ⟨hmagic, hname, hsize⟩ := (fields_eq_iff (by omega)).2 hheader
    exact hfields.elim (· hmagic) (Or.elim · (· hname) (· hsize))
  · rw [not_or, not_or, not_not, not_not, not_not, fields_eq_iff (by omega)] at hfields
    refine .inl ⟨hcopyable, _, ?_, rfl⟩
    rw [State.blob, ← hfields, List.take_append_drop]
  · exact .inr ⟨rfl, fun _ p hp => hlength (hp ▸ length_blob p)⟩
  · exact .inr ⟨rfl, fun h => absurd h hcopyable⟩

/-- **A state is imported as it was.** -/
theorem importState_blob (hcopyable : S.copyable = true) (p q : S.State) :
    importState q p.blob = (true, p) := by
  rcases importState_cases q p.blob with ⟨-, p', hp, himport⟩ | ⟨-, hnone⟩
  · obtain ⟨bytes, hbytes⟩ := p
    obtain ⟨bytes', hbytes'⟩ := p'
    obtain rfl : bytes = bytes' := List.append_cancel_left hp
    exact himport
  · exact absurd rfl (hnone hcopyable p)

/-- **An import of another strategy's state.** -/
theorem importState_blob_iff (p : T.State) (q : S.State) :
    (importState q p.blob).1 = true ↔
      S.copyable = true ∧ S.size = T.size ∧ nameHash S.name = nameHash T.name := by
  rcases importState_cases q p.blob with ⟨hcopyable, p', hp, himport⟩ | ⟨himport, hnone⟩
  · have hlength := congrArg List.length hp
    rw [length_blob, length_blob] at hlength
    have hsize : S.size = T.size := by omega
    refine iff_of_true (by rw [himport]) ⟨hcopyable, hsize, ?_⟩
    have hheader : T.header = S.header :=
      (List.append_inj hp (length_header.trans length_header.symm)).1
    have hrest := (List.append_inj hheader (by simp)).2
    have hname := (List.append_inj hrest (by simp)).1
    have hvalue := congrArg ofLE hname
    have hlt : ∀ h : UInt32, h.toNat < 256 ^ 4 := UInt32.toNat_lt
    rw [ofLE_toLE, ofLE_toLE, Nat.mod_eq_of_lt (hlt _), Nat.mod_eq_of_lt (hlt _)] at hvalue
    exact UInt32.toNat_inj.1 hvalue.symm
  · refine iff_of_false (by simp [himport]) fun ⟨hcopyable, hsize, hname⟩ => ?_
    refine hnone hcopyable ⟨p.bytes, p.length_eq.trans hsize.symm⟩ ?_
    have hheader : T.header = S.header := by simp only [header, hsize, hname]
    exact congrArg (· ++ p.bytes) hheader

/-- **The state of a strategy survives a change of modules.** For all strategies, objects, buffers
and bytes:

* `export_state` fails and writes nothing iff the type has no state to hand over or the buffer is
  too small, and else it writes what it returns the size of, within the buffer;
* an import of that gives back the object, whatever object was there before;
* an import accepts exactly the exports of the strategy, and one that does not leaves the object as
  it was;
* another strategy's export is accepted iff its size and the hash of its name are the same, so never
  if the names differ in one character. -/
theorem state_handover (p q : S.State) :
    (∀ buf cap, cap ≤ buf.length →
      ((exportState p buf cap).1 = 0 ↔ S.copyable = false ∨ cap < STATE_HEADER_SIZE + S.size) ∧
      ((exportState p buf cap).1 = 0 → (exportState p buf cap).2 = buf) ∧
      (exportState p buf cap).1 ≤ cap ∧ (exportState p buf cap).2.length = buf.length ∧
      (exportState p buf cap).2.drop (exportState p buf cap).1 =
        buf.drop (exportState p buf cap).1 ∧
      ((exportState p buf cap).1 ≠ 0 → importState q
        ((exportState p buf cap).2.take (exportState p buf cap).1) = (true, p))) ∧
    (∀ blob, (S.copyable = true ∧ ∃ p' : S.State, blob = p'.blob ∧
        importState q blob = (true, p')) ∨
      (importState q blob = (false, q) ∧ (S.copyable = true → ∀ p' : S.State, blob ≠ p'.blob))) ∧
    ∀ (T : StrategyType) (r : T.State),
      ((importState q r.blob).1 = true ↔
        S.copyable = true ∧ S.size = T.size ∧ nameHash S.name = nameHash T.name) ∧
      ∀ front rest a b, a ≠ b → S.name = front ++ a :: rest → T.name = front ++ b :: rest →
        (importState q r.blob).1 = false := by
  refine ⟨fun buf cap hcap => ?_, importState_cases q, fun T r => ⟨importState_blob_iff r q, ?_⟩⟩
  · rcases exportState_cases p buf cap with ⟨hnone, hexport⟩ | ⟨hcopyable, hneed, hexport⟩
    · rw [hexport]
      exact ⟨iff_of_true rfl hnone, fun _ => rfl, Nat.zero_le _, rfl, rfl, (absurd rfl ·)⟩
    · have hpos : STATE_HEADER_SIZE + S.size ≠ 0 := by
        rw [STATE_HEADER_SIZE]
        omega
      rw [hexport]
      refine ⟨iff_of_false hpos (by simp [hcopyable, hneed]), fun hzero => absurd hzero hpos,
        hneed, ?_, List.drop_left' (length_blob p), fun _ => ?_⟩
      · rw [List.length_append, length_blob, List.length_drop]
        omega
      · rw [List.take_left' (length_blob p)]
        exact importState_blob hcopyable p q
  · intro front rest a b hne hS hT
    rw [Bool.eq_false_iff, Ne, importState_blob_iff]
    rintro ⟨-, -, hname⟩
    rw [hS, hT] at hname
    exact nameHash_ne hne hname

/-- A strategy named `ab` of two bytes, handed over through a buffer of twenty. -/
theorem state_handover_ab :
    importState (S := ⟨[97, 98], 2, by decide, true⟩) ⟨[0, 0], rfl⟩
      ((exportState (S := ⟨[97, 98], 2, by decide, true⟩) ⟨[7, 9], rfl⟩
        (List.replicate 20 0) 20).2.take 18) = (true, ⟨[7, 9], rfl⟩) :=
  ((state_handover (S := ⟨[97, 98], 2, by decide, true⟩) ⟨[7, 9], rfl⟩ ⟨[0, 0], rfl⟩).1
    (List.replicate 20 0) 20 (by decide)).2.2.2.2.2 (by decide)

end StrategyType

end Exec

end LowLatencyPipeline
