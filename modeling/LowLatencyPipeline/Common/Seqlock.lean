import Mathlib.Data.Fintype.Basic
import Mathlib.Data.Fin.VecNotation
import Mathlib.Algebra.Group.Nat.Even
import Mathlib.Data.UInt
import LowLatencyPipeline.Library.Machine

/-!
# The seqlock

`Seqlock` of `common/seqlock.hpp`, at the granularity of its atomic accesses and of the words of
its two `memcpy`s. A payload is a function from word positions to words; the writer copies the
words of its input in any order between the two stores of `seq`, a reader copies the words of
`data` in any order between its two loads of `seq`, and the labels of `seqlock` say which access
happens next. A writer may be killed at any point of `store`; the next one starts on the memory
as it was left.

* `load_untorn`: with one writer that is never killed, what `try_load` returns is a whole value,
  the one stored last when its first load of `seq` happened.
* `load_after_store`: with writers that are killed and replaced, a `try_load` after a completed
  `store` returns what was stored if and only if an even number of writers died between their two
  stores of `seq`: `store` adds two to whatever it finds, so an odd counter stays odd.
-/

namespace LowLatencyPipeline

namespace Common

universe u v w

/-- The shared memory of a seqlock: the counter, and word `k` of the payload at `data k`. -/
structure Seqlock (ι : Type u) (V : Type v) where
  seq : UInt64
  data : ι → V

/-- Where the writer is in `store(input)`; `s` is the counter as it has loaded it. -/
inductive Writer (ι : Type u) (V : Type v)
  | idle
  /-- has loaded `seq` -/
  | loaded (s : UInt64) (input : ι → V)
  /-- has stored `s + 1`: copying `input` into `data`, these words so far -/
  | copying (s : UInt64) (input : ι → V) (copied : Finset ι)

/-- What a call of `try_load` finds when it first loads `seq`. -/
structure LoadStart (ι : Type u) (V : Type v) where
  /-- how many stores are completed -/
  stores : ℕ
  /-- how many writers were killed between their two stores of `seq` -/
  killed : ℕ
  /-- the value of the last store, if that is completed and no other has begun since -/
  quiet : Option (ι → V)

/-- Where a reader is in `try_load`. -/
inductive Reader (ι : Type u) (V : Type v)
  | idle
  /-- has loaded an even counter: copying `data` into `out` word by word -/
  | copying (pre : UInt64) (out : ι → Option V) (start : LoadStart ι V)

/-- A call of `try_load` that has returned: `quiet` is still the stored value if no store began
during the call. -/
structure Load (ι : Type u) (V : Type v) extends LoadStart ι V where
  /-- the copy if `try_load` returned true -/
  result : Option (ι → V)

/-- A seqlock, its writer and its readers, and what happened so far. -/
structure SeqlockState (ρ : Type w) (ι : Type u) (V : Type v) extends Seqlock ι V where
  writer : Writer ι V
  readers : ρ → Reader ι V
  /-- the payload at the start -/
  initial : ι → V
  /-- the values of the completed stores, in order -/
  stored : List (ι → V)
  /-- how many writers were killed between their two stores of `seq` -/
  killed : ℕ
  /-- the value of the last store, if that is completed and no other has begun since -/
  settled : Option (ι → V)
  /-- the calls of `try_load` that have returned -/
  loads : List (Load ι V)

/-- The atomic accesses. -/
inductive SeqlockStep (ρ : Type w) (ι : Type u) (V : Type v)
  | storeLoad (input : ι → V)
  | storeOdd
  | storeCopy (k : ι)
  | storeEven
  /-- the writer's process dies -/
  | kill
  | loadPre (r : ρ)
  | loadCopy (r : ρ) (k : ι)
  | loadPost (r : ρ)

/-- A store has begun. -/
def Reader.disturb {ι : Type u} {V : Type v} : Reader ι V → Reader ι V
  | .idle => .idle
  | .copying pre out start => .copying pre out { start with quiet := none }

variable {ρ : Type w} {ι : Type u} {V : Type v}

/-- The payload after `n` stores. -/
def SeqlockState.value (s : SeqlockState ρ ι V) (n : ℕ) : Option (ι → V) :=
  (s.initial :: s.stored)[n]?

/-- What a call that begins now finds. -/
def SeqlockState.start (s : SeqlockState ρ ι V) : LoadStart ι V where
  stores := s.stored.length
  killed := s.killed
  quiet := s.settled

variable [DecidableEq ρ] [DecidableEq ι] [Fintype ι]

/-- One atomic access, where its process is ready for it. -/
def seqlockStep (s : SeqlockState ρ ι V) : SeqlockStep ρ ι V → Option (SeqlockState ρ ι V)
  | .storeLoad input =>
    match s.writer with
    | .idle => some { s with
        writer := .loaded s.seq input
        -- a load that has begun may see this store
        readers := fun r => (s.readers r).disturb
        settled := none }
    | _ => none
  | .storeOdd =>
    match s.writer with
    | .loaded seq input => some { s with seq := seq + 1, writer := .copying seq input ∅ }
    | _ => none
  | .storeCopy k =>
    match s.writer with
    | .copying seq input copied => some { s with
        data := Function.update s.data k (input k)
        writer := .copying seq input (insert k copied) }
    | _ => none
  | .storeEven =>
    match s.writer with
    | .copying seq input copied =>
      if copied = Finset.univ then some { s with
        seq := seq + 2
        writer := .idle
        stored := s.stored ++ [input]
        settled := some input }
      else none
    | _ => none
  | .kill =>
    match s.writer with
    -- killed between the two stores of seq, the counter stays odd
    | .copying _ _ _ => some { s with writer := .idle, killed := s.killed + 1 }
    | _ => some { s with writer := .idle }
  | .loadPre r =>
    match s.readers r with
    | .idle =>
      -- an odd counter: try_load returns false at once
      if s.seq &&& 1 ≠ 0 then some { s with loads := ⟨s.start, none⟩ :: s.loads }
      else some { s with
        readers := Function.update s.readers r (.copying s.seq (fun _ => none) s.start) }
    | _ => none
  | .loadCopy r k =>
    match s.readers r with
    | .copying pre out start => some { s with
        readers := Function.update s.readers r
          (.copying pre (Function.update out k (some (s.data k))) start) }
    | _ => none
  | .loadPost r =>
    match s.readers r with
    | .copying pre out start =>
      if h : ∀ k, (out k).isSome then some { s with
        readers := Function.update s.readers r .idle
        loads :=
          -- the second load of seq decides
          ⟨start, if pre = s.seq then some fun k => (out k).get (h k) else none⟩ :: s.loads }
      else none
    | _ => none

/-- A seqlock with one writer at a time and any readers, from any even counter and any payload. -/
def seqlock (ρ : Type w) (ι : Type u) (V : Type v) [DecidableEq ρ] [DecidableEq ι] [Fintype ι] :
    Machine (SeqlockState ρ ι V) (SeqlockStep ρ ι V) where
  Init s := s.seq &&& 1 = 0 ∧ s.writer = .idle ∧ (∀ r, s.readers r = .idle) ∧
    s.initial = s.data ∧ s.stored = [] ∧ s.killed = 0 ∧ s.settled = none ∧ s.loads = []
  step := seqlockStep

/-- One writer, never killed, and fewer than `2 ^ 63` stores. -/
def OneWriter (s : SeqlockState ρ ι V) : SeqlockStep ρ ι V → Prop
  | .storeLoad _ => s.stored.length + 1 < 2 ^ 63
  | .kill => False
  | _ => True

instance (s : SeqlockState ρ ι V) (a : SeqlockStep ρ ι V) : Decidable (OneWriter s a) := by
  cases a <;> unfold OneWriter <;> infer_instance

/-! ### What an access does -/

/-- The effect of each access, with what it found. -/
inductive SeqlockEffect (s : SeqlockState ρ ι V) : SeqlockStep ρ ι V → SeqlockState ρ ι V → Prop
  | storeLoad (input : ι → V) : s.writer = .idle →
    SeqlockEffect s (.storeLoad input) { s with
      writer := .loaded s.seq input
      readers := fun r => (s.readers r).disturb
      settled := none }
  | storeOdd (seq : UInt64) (input : ι → V) : s.writer = .loaded seq input →
    SeqlockEffect s .storeOdd { s with seq := seq + 1, writer := .copying seq input ∅ }
  | storeCopy (k : ι) (seq : UInt64) (input : ι → V) (copied : Finset ι) :
    s.writer = .copying seq input copied →
    SeqlockEffect s (.storeCopy k) { s with
      data := Function.update s.data k (input k)
      writer := .copying seq input (insert k copied) }
  | storeEven (seq : UInt64) (input : ι → V) : s.writer = .copying seq input Finset.univ →
    SeqlockEffect s .storeEven { s with
      seq := seq + 2
      writer := .idle
      stored := s.stored ++ [input]
      settled := some input }
  | killIn (seq : UInt64) (input : ι → V) (copied : Finset ι) :
    s.writer = .copying seq input copied →
    SeqlockEffect s .kill { s with writer := .idle, killed := s.killed + 1 }
  | killOut : (∀ seq input copied, s.writer ≠ .copying seq input copied) →
    SeqlockEffect s .kill { s with writer := .idle }
  | loadOdd (r : ρ) : s.readers r = .idle → s.seq &&& 1 ≠ 0 →
    SeqlockEffect s (.loadPre r) { s with loads := ⟨s.start, none⟩ :: s.loads }
  | loadPre (r : ρ) : s.readers r = .idle → s.seq &&& 1 = 0 →
    SeqlockEffect s (.loadPre r) { s with
      readers := Function.update s.readers r (.copying s.seq (fun _ => none) s.start) }
  | loadCopy (r : ρ) (k : ι) (pre : UInt64) (out : ι → Option V) (start : LoadStart ι V) :
    s.readers r = .copying pre out start →
    SeqlockEffect s (.loadCopy r k) { s with
      readers := Function.update s.readers r
        (.copying pre (Function.update out k (some (s.data k))) start) }
  | loadTrue (r : ρ) (copy : ι → V) (start : LoadStart ι V) :
    s.readers r = .copying s.seq (fun k => some (copy k)) start →
    SeqlockEffect s (.loadPost r) { s with
      readers := Function.update s.readers r .idle
      loads := ⟨start, some copy⟩ :: s.loads }
  | loadFalse (r : ρ) (pre : UInt64) (out : ι → Option V) (start : LoadStart ι V) :
    s.readers r = .copying pre out start → pre ≠ s.seq →
    SeqlockEffect s (.loadPost r) { s with
      readers := Function.update s.readers r .idle
      loads := ⟨start, none⟩ :: s.loads }

theorem SeqlockEffect.of_step {s t : SeqlockState ρ ι V} {a : SeqlockStep ρ ι V}
    (h : seqlockStep s a = some t) : SeqlockEffect s a t := by
  cases a with
  | storeLoad input =>
    cases hw : s.writer <;> simp only [seqlockStep, hw, Option.some.injEq, reduceCtorEq] at h
    exact h ▸ .storeLoad input hw
  | storeOdd =>
    cases hw : s.writer <;> simp only [seqlockStep, hw, Option.some.injEq, reduceCtorEq] at h
    exact h ▸ .storeOdd _ _ hw
  | storeCopy k =>
    cases hw : s.writer <;> simp only [seqlockStep, hw, Option.some.injEq, reduceCtorEq] at h
    exact h ▸ .storeCopy k _ _ _ hw
  | storeEven =>
    cases hw : s.writer <;>
      simp only [seqlockStep, hw, Option.ite_none_right_eq_some, Option.some.injEq,
        reduceCtorEq] at h
    obtain ⟨rfl, rfl⟩ := h
    exact .storeEven _ _ hw
  | kill =>
    cases hw : s.writer <;> simp only [seqlockStep, hw, Option.some.injEq] at h <;> subst h
    · exact .killOut (by simp [hw])
    · exact .killOut (by simp [hw])
    · exact .killIn _ _ _ hw
  | loadPre r =>
    cases hr : s.readers r <;> simp only [seqlockStep, hr, reduceCtorEq] at h
    split_ifs at h with hodd <;> rw [Option.some.injEq] at h <;> subst h
    · exact .loadOdd r hr hodd
    · exact .loadPre r hr (not_not.1 hodd)
  | loadCopy r k =>
    cases hr : s.readers r <;> simp only [seqlockStep, hr, Option.some.injEq, reduceCtorEq] at h
    exact h ▸ .loadCopy r k _ _ _ hr
  | loadPost r =>
    cases hr : s.readers r with
    | idle => simp only [seqlockStep, hr, reduceCtorEq] at h
    | copying pre out start =>
      simp only [seqlockStep, hr] at h
      split_ifs at h with hall heq <;> rw [Option.some.injEq] at h <;> subst h
      · refine .loadTrue r _ start ?_
        rw [hr, heq]
        congr
        funext k
        exact (Option.some_get (hall k)).symm
      · exact .loadFalse r pre out start hr heq

/-! ### The counter -/

theorem even_iff {seq : UInt64} : seq &&& 1 = 0 ↔ seq.toNat % 2 = 0 := by
  rw [← UInt64.toNat_inj, UInt64.toNat_and]
  exact ⟨fun h => by simpa [Nat.and_one_is_mod] using h,
    fun h => by simpa [Nat.and_one_is_mod] using h⟩

/-- The counter after `n` stores. -/
def counter (start : UInt64) (n : ℕ) : UInt64 := start + 2 * UInt64.ofNat n

theorem toNat_counter (start : UInt64) (n : ℕ) :
    (counter start n).toNat = (start.toNat + 2 * n) % 2 ^ 64 := by
  rw [counter, UInt64.toNat_add, UInt64.toNat_mul, UInt64.toNat_ofNat',
    show (2 : UInt64).toNat = 2 from rfl]
  omega

theorem counter_zero (start : UInt64) : counter start 0 = start := by
  rw [← UInt64.toNat_inj, toNat_counter]
  have := start.toNat_lt
  omega

theorem counter_succ (start : UInt64) (n : ℕ) : counter start n + 2 = counter start (n + 1) := by
  rw [← UInt64.toNat_inj, UInt64.toNat_add, toNat_counter, toNat_counter,
    show (2 : UInt64).toNat = 2 from rfl]
  omega

/-- Below `2 ^ 63` stores the counter tells how many there were. -/
theorem counter_inj {start : UInt64} {m n : ℕ} (hm : m < 2 ^ 63) (hn : n < 2 ^ 63)
    (h : counter start m = counter start n) : m = n := by
  rw [← UInt64.toNat_inj, toNat_counter, toNat_counter] at h
  have := start.toNat_lt
  omega

theorem counter_mod_two (start : UInt64) (n : ℕ) :
    (counter start n).toNat % 2 = start.toNat % 2 := by
  rw [toNat_counter]
  omega

theorem toNat_add_one_mod_two (seq : UInt64) : (seq + 1).toNat % 2 = (seq.toNat + 1) % 2 := by
  rw [UInt64.toNat_add, show (1 : UInt64).toNat = 1 from rfl]
  omega

theorem toNat_add_two_mod_two (seq : UInt64) : (seq + 2).toNat % 2 = seq.toNat % 2 := by
  rw [UInt64.toNat_add, show (2 : UInt64).toNat = 2 from rfl]
  omega

/-! ### One writer -/

/-- The writer is not between its two stores of `seq`. -/
def Writer.Outside : Writer ι V → Prop
  | .copying _ _ _ => False
  | _ => True

/-- What the counter and the payload are, by where the writer is: after `n` stores, the last of
them of `value`. -/
def Writer.Agrees (first : UInt64) (n : ℕ) (value : Option (ι → V)) (lock : Seqlock ι V) :
    Writer ι V → Prop
  | .idle => lock.seq = counter first n ∧ value = some lock.data
  | .loaded seq _ => seq = lock.seq ∧ lock.seq = counter first n ∧ value = some lock.data ∧
      n + 1 < 2 ^ 63
  | .copying seq input copied => seq = counter first n ∧ lock.seq = seq + 1 ∧
      (∀ k ∈ copied, lock.data k = input k) ∧ n + 1 < 2 ^ 63

/-- What a reader has copied is the payload, unless a store has passed its second step since. -/
def Reader.Agrees (first : UInt64) (n : ℕ) (w : Writer ι V) (data : ι → V) : Reader ι V → Prop
  | .idle => True
  | .copying pre out start => pre = counter first start.stores ∧ start.stores ≤ n ∧
      (start.stores = n → w.Outside → ∀ k word, out k = some word → data k = word)

/-- **The seqlock invariant** for one writer, from the counter `first` on. -/
structure Untorn (first : UInt64) (s : SeqlockState ρ ι V) : Prop where
  even : first.toNat % 2 = 0
  stores_lt : s.stored.length < 2 ^ 63
  writer : s.writer.Agrees first s.stored.length (s.value s.stored.length) s.toSeqlock
  readers : ∀ r, (s.readers r).Agrees first s.stored.length s.writer s.data
  loads : ∀ load ∈ s.loads, ∀ v, load.result = some v → s.value load.stores = some v

section OneWriter

variable {first : UInt64} {s t : SeqlockState ρ ι V}

omit [DecidableEq ρ] [DecidableEq ι] [Fintype ι] in
/-- Outside of a store the payload is the value stored last. -/
theorem Untorn.outside (h : Untorn first s) (hw : s.writer.Outside) :
    s.seq = counter first s.stored.length ∧ s.value s.stored.length = some s.data := by
  have hagrees := h.writer
  cases hs : s.writer with
  | idle =>
    rw [hs] at hagrees
    exact hagrees
  | loaded seq input =>
    rw [hs] at hagrees
    exact ⟨hagrees.2.1, hagrees.2.2.1⟩
  | copying seq input copied =>
    rw [hs] at hw
    exact hw.elim

omit [DecidableEq ρ] [DecidableEq ι] [Fintype ι] in
/-- Inside a store the counter is odd. -/
theorem Untorn.outside_of_even (h : Untorn first s) (heven : s.seq.toNat % 2 = 0) :
    s.writer.Outside := by
  cases hs : s.writer with
  | idle | loaded seq input => trivial
  | copying seq input copied =>
    have hagrees := h.writer
    rw [hs] at hagrees
    obtain ⟨rfl, hseq, -, -⟩ := hagrees
    have hfirst := h.even
    have hparity := counter_mod_two first s.stored.length
    have hodd := toNat_add_one_mod_two (counter first s.stored.length)
    rw [← hseq] at hodd
    omega

omit [DecidableEq ρ] [DecidableEq ι] [Fintype ι] in
/-- A counter that a store leaves is even. -/
theorem Untorn.counter_even (h : Untorn first s) (n : ℕ) : (counter first n).toNat % 2 = 0 :=
  (counter_mod_two first n).trans h.even

omit [DecidableEq ρ] [DecidableEq ι] [Fintype ι] in
/-- A counter that has not moved means that no store has. -/
theorem Untorn.stores_eq (h : Untorn first s) {n : ℕ} (hle : n ≤ s.stored.length)
    (hn : s.seq = counter first n) : n = s.stored.length := by
  have hseq : counter first n = counter first s.stored.length := by
    rw [← hn, (h.outside (h.outside_of_even (hn ▸ h.counter_even n))).1]
  exact counter_inj (hle.trans_lt h.stores_lt) h.stores_lt hseq

omit [DecidableEq ρ] [DecidableEq ι] [Fintype ι] in
/-- The other readers are where they were. -/
theorem Reader.agrees_update [DecidableEq ρ] {n : ℕ} {w : Writer ι V} {data : ι → V}
    {readers : ρ → Reader ι V} (h : ∀ r, (readers r).Agrees first n w data) {r : ρ}
    {reader : Reader ι V} (hr : reader.Agrees first n w data) (r' : ρ) :
    (Function.update readers r reader r').Agrees first n w data := by
  rcases eq_or_ne r' r with rfl | hne
  · rwa [Function.update_self]
  · rw [Function.update_of_ne hne]
    exact h r'

omit [DecidableEq ι] [Fintype ι] in
/-- A store that begins leaves the readers what they know. -/
theorem Reader.Agrees.disturb {n : ℕ} {w w' : Writer ι V} {data : ι → V} {reader : Reader ι V}
    (h : reader.Agrees first n w data) (hw : w'.Outside → w.Outside) :
    reader.disturb.Agrees first n w' data := by
  cases reader with
  | idle => trivial
  | copying pre out start => exact ⟨h.1, h.2.1, fun hn hw' => h.2.2 hn (hw hw')⟩

omit [DecidableEq ι] [Fintype ι] in
/-- Between the two stores of `seq` nothing need be known of what readers copy. -/
theorem Reader.Agrees.inside {n : ℕ} {w w' : Writer ι V} {data data' : ι → V}
    {reader : Reader ι V} (h : reader.Agrees first n w data) (hw' : ¬ w'.Outside) :
    reader.Agrees first n w' data' := by
  cases reader with
  | idle => trivial
  | copying pre out start => exact ⟨h.1, h.2.1, fun _ h' => absurd h' hw'⟩

omit [DecidableEq ι] [Fintype ι] in
/-- A completed store is one that began after every first load. -/
theorem Reader.Agrees.completed {n : ℕ} {w w' : Writer ι V} {data data' : ι → V}
    {reader : Reader ι V} (h : reader.Agrees first n w data) :
    reader.Agrees first (n + 1) w' data' := by
  cases reader with
  | idle => trivial
  | copying pre out start =>
    refine ⟨h.1, Nat.le_succ_of_le h.2.1, fun hn => ?_⟩
    have hle := h.2.1
    omega

/-- **The step lemma.** -/
theorem Untorn.step (h : Untorn first s) {a : SeqlockStep ρ ι V} (ha : OneWriter s a)
    (ht : SeqlockEffect s a t) : Untorn first t := by
  cases ht with
  | storeLoad input hw =>
    have hout : s.writer.Outside := by
      rw [hw]
      trivial
    obtain ⟨hseq, hvalue⟩ := h.outside hout
    exact ⟨h.even, h.stores_lt, ⟨rfl, hseq, hvalue, ha⟩,
      fun r => (h.readers r).disturb fun _ => hout, h.loads⟩
  | storeOdd seq input hw =>
    have hagrees := h.writer
    rw [hw] at hagrees
    obtain ⟨rfl, hseq, -, hlt⟩ := hagrees
    exact ⟨h.even, h.stores_lt, ⟨hseq, rfl, by simp, hlt⟩, fun r => (h.readers r).inside id,
      h.loads⟩
  | storeCopy k seq input copied hw =>
    have hagrees := h.writer
    rw [hw] at hagrees
    obtain ⟨hcounter, hseq, hcopied, hlt⟩ := hagrees
    refine ⟨h.even, h.stores_lt, ⟨hcounter, hseq, fun j hj => ?_, hlt⟩,
      fun r => (h.readers r).inside id, h.loads⟩
    rcases eq_or_ne j k with rfl | hne
    · exact Function.update_self _ _ _
    · exact (Function.update_of_ne hne _ _).trans
        (hcopied j (Finset.mem_of_mem_insert_of_ne hj hne))
  | storeEven seq input hw =>
    have hagrees := h.writer
    rw [hw] at hagrees
    obtain ⟨rfl, -, hcopied, hlt⟩ := hagrees
    -- all words are written, so the payload is the input as a whole
    have hdata : s.data = input := funext fun k => hcopied k (Finset.mem_univ k)
    refine ⟨h.even, ?_, ⟨?_, ?_⟩, fun r => ?_, fun load hload v hv => ?_⟩
    · simpa using hlt
    · rw [counter_succ, List.length_append, List.length_singleton]
    · simp [SeqlockState.value, hdata]
    · rw [List.length_append, List.length_singleton]
      exact (h.readers r).completed
    · -- stores only append, so what earlier loads saw stays in place
      have hvalue := h.loads load hload v hv
      simp only [SeqlockState.value] at hvalue ⊢
      rw [← List.cons_append, List.getElem?_append_left (List.getElem?_eq_some_iff.1 hvalue).1]
      exact hvalue
  | killIn => exact ha.elim
  | killOut => exact ha.elim
  | loadOdd r hr hodd =>
    refine ⟨h.even, h.stores_lt, h.writer, h.readers, fun load hload v hv => ?_⟩
    rcases List.mem_cons.1 hload with rfl | hload
    · simp at hv
    · exact h.loads load hload v hv
  | loadPre r hr heven =>
    have hout := h.outside_of_even (even_iff.1 heven)
    refine ⟨h.even, h.stores_lt, h.writer, Reader.agrees_update h.readers ?_, h.loads⟩
    exact ⟨(h.outside hout).1, le_rfl, by simp⟩
  | loadCopy r k pre out start hr =>
    have hreader := h.readers r
    rw [hr] at hreader
    obtain ⟨hpre, hle, hout⟩ := hreader
    refine ⟨h.even, h.stores_lt, h.writer, Reader.agrees_update h.readers ?_, h.loads⟩
    refine ⟨hpre, hle, fun hn hw j word hj => ?_⟩
    rcases eq_or_ne j k with rfl | hne
    · simpa using hj
    · exact hout hn hw j word (by rwa [Function.update_of_ne hne] at hj)
  | loadTrue r copy start hr =>
    have hreader := h.readers r
    rw [hr] at hreader
    obtain ⟨hpre, hle, hout⟩ := hreader
    refine ⟨h.even, h.stores_lt, h.writer, Reader.agrees_update h.readers trivial,
      fun load hload v hv => ?_⟩
    rcases List.mem_cons.1 hload with rfl | hload
    · -- the counter has not moved: no store in between, and none under way
      have hn := h.stores_eq hle hpre
      have houtside := h.outside_of_even (hpre ▸ h.counter_even _)
      have hcopy : s.data = copy := funext fun k => hout hn houtside k _ rfl
      rw [Option.some.injEq] at hv
      rw [← hv, ← hcopy]
      exact hn ▸ (h.outside houtside).2
    · exact h.loads load hload v hv
  | loadFalse r pre out start hr hne =>
    refine ⟨h.even, h.stores_lt, h.writer, Reader.agrees_update h.readers trivial,
      fun load hload v hv => ?_⟩
    rcases List.mem_cons.1 hload with rfl | hload
    · simp at hv
    · exact h.loads load hload v hv

/-- **The run lemma.** -/
theorem exists_untorn (hs : (seqlock ρ ι V).ReachableWhen OneWriter s) :
    ∃ first, Untorn first s := by
  refine hs.invariant (P := fun s => ∃ first, Untorn first s) ?_ ?_
  · rintro s ⟨heven, hw, hr, hinit, hstored, -, -, hloads⟩
    refine ⟨s.seq, even_iff.1 heven, by simp [hstored], ?_, fun r => ?_, by simp [hloads]⟩
    · rw [hw, hstored]
      exact ⟨(counter_zero s.seq).symm, by simp [SeqlockState.value, hinit]⟩
    · rw [hr]
      trivial
  · rintro s a t - ha ht ⟨first, h⟩
    exact ⟨first, h.step ha (.of_step ht)⟩

/-- **Readers never see a torn value.** With one writer and fewer than `2 ^ 63` stores, in every
interleaving, from any even counter: a `try_load` that returns true returns the payload as a
whole, as it was after the stores completed when its first load of `seq` happened. -/
theorem load_untorn (hs : (seqlock ρ ι V).ReachableWhen OneWriter s) {load : Load ι V}
    (hload : load ∈ s.loads) {copy : ι → V} (hcopy : load.result = some copy) :
    (s.initial :: s.stored)[load.stores]? = some copy := by
  obtain ⟨first, h⟩ := exists_untorn hs
  exact h.loads load hload copy hcopy

end OneWriter

/-- A payload of two words, and two readers. -/
def freshLock : SeqlockState (Fin 2) (Fin 2) ℕ where
  seq := 0
  data := ![1, 1]
  writer := .idle
  readers _ := .idle
  initial := ![1, 1]
  stored := []
  killed := 0
  settled := none
  loads := []

theorem freshLock_init : (seqlock (Fin 2) (Fin 2) ℕ).Init freshLock :=
  ⟨rfl, rfl, fun _ => rfl, rfl, rfl, rfl, rfl, rfl⟩

/-- The first reader's copy overlaps a store; the second reader comes after it. -/
def overlappingRun : List (SeqlockStep (Fin 2) (Fin 2) ℕ) :=
  [.loadPre 0, .loadCopy 0 1, .storeLoad ![5, 6], .storeOdd, .storeCopy 0, .loadCopy 0 0,
    .storeCopy 1, .storeEven, .loadPre 1, .loadPost 0, .loadCopy 1 0, .loadCopy 1 1, .loadPost 1]

theorem load_untorn_overlapping :
    ∃ s load, (seqlock (Fin 2) (Fin 2) ℕ).execWhen OneWriter freshLock overlappingRun = some s ∧
      load ∈ s.loads ∧ load.stores = 1 ∧ load.result = some ![5, 6] ∧
      (s.initial :: s.stored)[load.stores]? = some ![5, 6] := by
  have hinit : (seqlock (Fin 2) (Fin 2) ℕ).ReachableWhen OneWriter freshLock :=
    .init freshLock_init
  refine ⟨_, _, rfl, List.mem_cons_self, rfl, by decide, ?_⟩
  exact load_untorn (hinit.execWhen overlappingRun rfl) List.mem_cons_self (by decide)

/-! ### Writers that are killed and replaced -/

/-- What a call returned is what was stored, if and only if the counter was even. -/
def Load.Recovers (load : Load ι V) : Prop :=
  ∀ v, load.quiet = some v → (load.result = some v ↔ Even load.killed)

/-- What the counter is, by where the writer is, after `killed` writers died inside `store`. -/
def Writer.Parity (killed : ℕ) (lock : Seqlock ι V) : Writer ι V → Prop
  | .idle => lock.seq.toNat % 2 = killed % 2
  | .loaded seq _ => seq = lock.seq ∧ lock.seq.toNat % 2 = killed % 2
  | .copying seq input copied => lock.seq = seq + 1 ∧ seq.toNat % 2 = killed % 2 ∧
      ∀ k ∈ copied, lock.data k = input k

/-- A reader that nothing has disturbed since it found `s.start`. -/
def Reader.Undisturbed (s : SeqlockState ρ ι V) : Reader ι V → Prop
  | .idle => True
  | .copying pre out start => ∀ v, start.quiet = some v →
      s.settled = some v ∧ pre = s.seq ∧ Even start.killed ∧
        ∀ k word, out k = some word → v k = word

/-- **The invariant of a lock whose writers may die.** -/
structure Replaced (s : SeqlockState ρ ι V) : Prop where
  parity : s.writer.Parity s.killed s.toSeqlock
  settled : ∀ v, s.settled = some v → s.writer = .idle ∧ s.data = v
  readers : ∀ r, (s.readers r).Undisturbed s
  loads : ∀ load ∈ s.loads, load.Recovers

section Replaced

variable {s t : SeqlockState ρ ι V}

omit [DecidableEq ι] [Fintype ι] in
/-- The other readers are where they were. -/
theorem Reader.undisturbed_update {readers : ρ → Reader ι V} (h : ∀ r, (readers r).Undisturbed s)
    {r : ρ} {reader : Reader ι V} (hr : reader.Undisturbed s) (r' : ρ) :
    (Function.update readers r reader r').Undisturbed s := by
  rcases eq_or_ne r' r with rfl | hne
  · rwa [Function.update_self]
  · rw [Function.update_of_ne hne]
    exact h r'

omit [DecidableEq ρ] [DecidableEq ι] [Fintype ι] in
/-- What a reader knows of the lock it knows only while the last store is settled. -/
theorem Reader.Undisturbed.mono {reader : Reader ι V} (h : reader.Undisturbed s)
    (hst : ∀ v, s.settled = some v → t.settled = some v ∧ t.seq = s.seq) :
    reader.Undisturbed t := by
  cases reader with
  | idle => trivial
  | copying pre out start =>
    intro v hv
    obtain ⟨hsettled, hpre, heven, hout⟩ := h v hv
    obtain ⟨ht, hseq⟩ := hst v hsettled
    exact ⟨ht, hpre.trans hseq.symm, heven, hout⟩

omit [DecidableEq ρ] [DecidableEq ι] [Fintype ι] in
/-- While the writer is busy no store is settled. -/
theorem Replaced.settled_of_busy (h : Replaced s) (hw : s.writer ≠ .idle) : s.settled = none :=
  Option.eq_none_iff_forall_ne_some.2 fun v hv => hw (h.settled v hv).1

omit [DecidableEq ρ] [DecidableEq ι] [Fintype ι] in
/-- While the writer is busy no reader is promised anything. -/
theorem Replaced.undisturbed_of_busy (h : Replaced s) (hw : s.writer ≠ .idle) (r : ρ) :
    (s.readers r).Undisturbed t :=
  (h.readers r).mono (by simp [h.settled_of_busy hw])

omit [DecidableEq ρ] [DecidableEq ι] [Fintype ι] in
/-- A disturbed reader knows nothing. -/
theorem Reader.undisturbed_disturb (reader : Reader ι V) : reader.disturb.Undisturbed t := by
  cases reader with
  | idle => trivial
  | copying pre out start => exact fun v hv => nomatch hv

omit [DecidableEq ρ] [DecidableEq ι] [Fintype ι] in
/-- While the last store is settled the counter has the parity of the deaths. -/
theorem Replaced.even_killed_iff (h : Replaced s) {v : ι → V} (hv : s.settled = some v) :
    s.seq &&& 1 = 0 ↔ Even s.killed := by
  have hparity := h.parity
  rw [(h.settled v hv).1] at hparity
  rw [even_iff, Nat.even_iff]
  exact hparity ▸ Iff.rfl

/-- **The step lemma.** -/
theorem Replaced.step (h : Replaced s) {a : SeqlockStep ρ ι V} (ht : SeqlockEffect s a t) :
    Replaced t := by
  cases ht with
  | storeLoad input hw =>
    have hparity := h.parity
    rw [hw] at hparity
    exact ⟨⟨rfl, hparity⟩, fun v hv => (nomatch hv),
      fun r => Reader.undisturbed_disturb (s.readers r), h.loads⟩
  | storeOdd seq input hw =>
    have hparity := h.parity
    rw [hw] at hparity
    obtain ⟨rfl, hparity⟩ := hparity
    have hbusy : s.writer ≠ .idle := by simp [hw]
    refine ⟨⟨rfl, hparity, by simp⟩, fun v hv => ?_, h.undisturbed_of_busy hbusy, h.loads⟩
    simp [h.settled_of_busy hbusy] at hv
  | storeCopy k seq input copied hw =>
    have hparity := h.parity
    rw [hw] at hparity
    obtain ⟨hseq, hparity, hcopied⟩ := hparity
    have hbusy : s.writer ≠ .idle := by simp [hw]
    refine ⟨⟨hseq, hparity, fun j hj => ?_⟩, fun v hv => ?_, h.undisturbed_of_busy hbusy,
      h.loads⟩
    · rcases eq_or_ne j k with rfl | hne
      · exact Function.update_self _ _ _
      · exact (Function.update_of_ne hne _ _).trans
          (hcopied j (Finset.mem_of_mem_insert_of_ne hj hne))
    · simp [h.settled_of_busy hbusy] at hv
  | storeEven seq input hw =>
    have hparity := h.parity
    rw [hw] at hparity
    obtain ⟨hseq, hparity, hcopied⟩ := hparity
    have hdata : s.data = input := funext fun k => hcopied k (Finset.mem_univ k)
    exact ⟨(toNat_add_two_mod_two seq).trans hparity,
      fun v hv => ⟨rfl, hdata.trans (Option.some.inj hv)⟩,
      h.undisturbed_of_busy (by simp [hw]), h.loads⟩
  -- the counter keeps the parity of the deaths
  | killIn seq input copied hw =>
    have hparity := h.parity
    rw [hw] at hparity
    obtain ⟨hseq, hparity, -⟩ := hparity
    have hbusy : s.writer ≠ .idle := by simp [hw]
    refine ⟨?_, fun v hv => ?_, h.undisturbed_of_busy hbusy, h.loads⟩
    · have hodd := toNat_add_one_mod_two seq
      rw [← hseq] at hodd
      simp only [Writer.Parity]
      omega
    · simp [h.settled_of_busy hbusy] at hv
  | killOut hw =>
    refine ⟨?_, fun v hv => ⟨rfl, (h.settled v hv).2⟩, h.readers, h.loads⟩
    have hparity := h.parity
    cases hs : s.writer with
    | idle =>
      rw [hs] at hparity
      exact hparity
    | loaded seq input =>
      rw [hs] at hparity
      exact hparity.2
    | copying seq input copied => exact absurd hs (hw seq input copied)
  | loadOdd r hr hodd =>
    refine ⟨h.parity, h.settled, h.readers, List.forall_mem_cons.2 ⟨fun v hv => ?_, h.loads⟩⟩
    -- the counter is odd with no store under way only after a death inside one
    have hkilled : ¬ Even s.killed := fun heven => hodd ((h.even_killed_iff hv).2 heven)
    simp [SeqlockState.start, hkilled]
  | loadPre r hr heven =>
    refine ⟨h.parity, h.settled, Reader.undisturbed_update h.readers fun v hv => ?_, h.loads⟩
    exact ⟨hv, rfl, (h.even_killed_iff hv).1 heven, by simp⟩
  | loadCopy r k pre out start hr =>
    refine ⟨h.parity, h.settled, Reader.undisturbed_update h.readers fun v hv => ?_, h.loads⟩
    have hreader := h.readers r
    rw [hr] at hreader
    obtain ⟨hsettled, hpre, heven, hout⟩ := hreader v hv
    refine ⟨hsettled, hpre, heven, fun j word hj => ?_⟩
    rcases eq_or_ne j k with rfl | hne
    · rw [← (h.settled v hsettled).2]
      simpa using hj
    · exact hout j word (by rwa [Function.update_of_ne hne] at hj)
  | loadTrue r copy start hr =>
    refine ⟨h.parity, h.settled, Reader.undisturbed_update h.readers trivial,
      List.forall_mem_cons.2 ⟨fun v hv => ?_, h.loads⟩⟩
    have hreader := h.readers r
    rw [hr] at hreader
    obtain ⟨-, -, heven, hout⟩ := hreader v hv
    have hcopy : copy = v := funext fun k => (hout k _ rfl).symm
    simp [hcopy, heven]
  | loadFalse r pre out start hr hne =>
    refine ⟨h.parity, h.settled, Reader.undisturbed_update h.readers trivial,
      List.forall_mem_cons.2 ⟨fun v hv => ?_, h.loads⟩⟩
    have hreader := h.readers r
    rw [hr] at hreader
    exact absurd (hreader v hv).2.1 hne

/-- **The run lemma.** -/
theorem replaced_of_reachable (hs : (seqlock ρ ι V).Reachable s) : Replaced s := by
  refine hs.invariant ?_ ?_
  · rintro s ⟨heven, hw, hr, -, -, hkilled, hsettled, hloads⟩
    refine ⟨?_, by simp [hsettled], fun r => ?_, by simp [hloads]⟩
    · rw [hw, hkilled]
      exact even_iff.1 heven
    · rw [hr]
      trivial
  · rintro s a t - - ht h
    exact h.step (.of_step ht)

/-- **A lock recovers after an even number of deaths, and only then.** A `try_load` that runs
while the last store, of `v`, is completed and no other has begun succeeds and returns `v` if
and only if an even number of writers was killed between their two stores of `seq`. -/
theorem load_after_store (hs : (seqlock ρ ι V).Reachable s) {load : Load ι V}
    (hload : load ∈ s.loads) {v : ι → V} (hv : load.quiet = some v) :
    load.result = some v ↔ Even load.killed :=
  (replaced_of_reachable hs).loads load hload v hv

end Replaced

/-- The first writer dies between its two stores of `seq`; the second one stores, and a reader
comes. -/
def killedRun : List (SeqlockStep (Fin 2) (Fin 2) ℕ) :=
  [.storeLoad ![5, 6], .storeOdd, .storeCopy 0, .kill, .storeLoad ![7, 8], .storeOdd, .storeCopy 0,
    .storeCopy 1, .storeEven, .loadPre 0]

/-- Two writers die there, and the third one's store is read. -/
def killedTwiceRun : List (SeqlockStep (Fin 2) (Fin 2) ℕ) :=
  [.storeLoad ![5, 6], .storeOdd, .storeCopy 0, .kill, .storeLoad ![7, 8], .storeOdd, .kill,
    .storeLoad ![9, 10], .storeOdd, .storeCopy 1, .storeCopy 0, .storeEven, .loadPre 0,
    .loadCopy 0 0, .loadCopy 0 1, .loadPost 0]

theorem load_after_store_twice :
    ∃ s load, (seqlock (Fin 2) (Fin 2) ℕ).exec freshLock killedTwiceRun = some s ∧
      load ∈ s.loads ∧ load.killed = 2 ∧ load.quiet = some ![9, 10] ∧
      load.result = some ![9, 10] := by
  have hinit : (seqlock (Fin 2) (Fin 2) ℕ).Reachable freshLock := .init freshLock_init
  refine ⟨_, _, rfl, List.mem_cons_self, rfl, rfl, ?_⟩
  exact (load_after_store (hinit.exec killedTwiceRun rfl) List.mem_cons_self rfl).2 (by decide)

/-- After one death inside `store` the next writer's completed store cannot be read. -/
theorem load_fails_after_kill :
    ¬ ∀ s : SeqlockState (Fin 2) (Fin 2) ℕ, (seqlock (Fin 2) (Fin 2) ℕ).Reachable s →
      ∀ load ∈ s.loads, ∀ v, load.quiet = some v → load.result = some v := by
  intro h
  have hinit : (seqlock (Fin 2) (Fin 2) ℕ).Reachable freshLock := .init freshLock_init
  have hnone := h _ (hinit.exec killedRun rfl) _ List.mem_cons_self _ rfl
  cases hnone

end Common

end LowLatencyPipeline
