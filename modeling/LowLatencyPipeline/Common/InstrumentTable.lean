import Mathlib.Data.Finset.Insert
import Mathlib.Data.Fintype.Defs
import Mathlib.Logic.Function.Basic
import LowLatencyPipeline.Library.Machine

/-!
# The instrument table

`InstrumentTable` of `common/ipc/instrument.hpp`, at the granularity of its loads and stores of
`count` and of the words of a row. One writer appends rows, and may be killed between any two
accesses, after which another one goes on with the table as it was left; readers look symbols up
and read rows below a count they have loaded, at any time.

A row is a function from word positions to words, and `is` tells whether a row has the symbol and
venue of a query. `table_append_only` says that the table is to all its readers the list of the
rows added so far.
-/

namespace LowLatencyPipeline

namespace Common

universe u v w x

def MAX_INSTRUMENTS : ℕ := 256

/-- Where the writer is in `add(row)`. -/
inductive Adder (ι : Type u) (V : Type v)
  | idle
  /-- has loaded the count `n`: copying `row`, these words so far -/
  | copying (n : ℕ) (row : ι → V) (copied : Finset ι)

/-- Where a reader is. -/
inductive Lookup (ι : Type u) (V : Type v) (κ : Type x)
  | idle
  /-- in `find(q)`, with the count `n`: reading row `i`, these words so far -/
  | scanning (q : κ) (n i : ℕ) (out : ι → Option V)
  /-- reading row `i` below the count `n`, these words so far -/
  | reading (n i : ℕ) (out : ι → Option V)

/-- A call of `find` that has returned; `none` is `INVALID_INSTRUMENT`. -/
structure Found (κ : Type x) where
  query : κ
  /-- the count that it has loaded -/
  visible : ℕ
  result : Option ℕ

/-- The table, its writer and its readers, and what happened so far. -/
structure InstrumentTable (ρ : Type w) (ι : Type u) (V : Type v) (κ : Type x) where
  count : ℕ
  rows : ℕ → ι → V
  writer : Adder ι V
  readers : ρ → Lookup ι V κ
  /-- the rows of the completed adds, in order -/
  added : List (ι → V)
  /-- the calls of `find` that have returned -/
  found : List (Found κ)
  /-- the rows read, with their index -/
  read : List (ℕ × (ι → V))

/-- The accesses. -/
inductive TableStep (ρ : Type w) (ι : Type u) (V : Type v) (κ : Type x)
  | addLoad (row : ι → V)
  | addCopy (k : ι)
  | addStore
  /-- the writer's process dies -/
  | kill
  | findLoad (r : ρ) (q : κ)
  | readLoad (r : ρ) (i : ℕ)
  /-- the next word of the row at hand -/
  | copy (r : ρ) (k : ι)
  /-- the row at hand is complete -/
  | done (r : ρ)

variable {ρ : Type w} {ι : Type u} {V : Type v} {κ : Type x}

section Step

variable [DecidableEq ρ] [DecidableEq ι] [Fintype ι] (is : κ → (ι → V) → Bool)

/-- One access, where its process is ready for it. -/
def tableStep (s : InstrumentTable ρ ι V κ) : TableStep ρ ι V κ → Option (InstrumentTable ρ ι V κ)
  | .addLoad row =>
    match s.writer with
    | .idle =>
      -- a full table refuses
      if MAX_INSTRUMENTS ≤ s.count then some s
      else some { s with writer := .copying s.count row ∅ }
    | _ => none
  | .addCopy k =>
    match s.writer with
    | .copying n row copied => some { s with
        rows := Function.update s.rows n (Function.update (s.rows n) k (row k))
        writer := .copying n row (insert k copied) }
    | _ => none
  | .addStore =>
    match s.writer with
    | .copying n row copied =>
      if copied = Finset.univ then some { s with
        count := n + 1
        writer := .idle
        added := s.added ++ [row] }
      else none
    | _ => none
  | .kill => some { s with writer := .idle }
  | .findLoad r q =>
    match s.readers r with
    | .idle =>
      if s.count = 0 then some { s with found := ⟨q, 0, none⟩ :: s.found }
      else some { s with
        readers := Function.update s.readers r (.scanning q s.count 0 fun _ => none) }
    | _ => none
  | .readLoad r i =>
    match s.readers r with
    | .idle =>
      if i < s.count then some { s with
        readers := Function.update s.readers r (.reading s.count i fun _ => none) }
      else none
    | _ => none
  | .copy r k =>
    match s.readers r with
    | .scanning q n i out => some { s with
        readers := Function.update s.readers r
          (.scanning q n i (Function.update out k (some (s.rows i k)))) }
    | .reading n i out => some { s with
        readers := Function.update s.readers r
          (.reading n i (Function.update out k (some (s.rows i k)))) }
    | _ => none
  | .done r =>
    match s.readers r with
    | .scanning q n i out =>
      if h : ∀ k, (out k).isSome then
        if is q fun k => (out k).get (h k) then some { s with
          readers := Function.update s.readers r .idle
          found := ⟨q, n, some i⟩ :: s.found }
        else if i + 1 < n then some { s with
          readers := Function.update s.readers r (.scanning q n (i + 1) fun _ => none) }
        else some { s with
          readers := Function.update s.readers r .idle
          found := ⟨q, n, none⟩ :: s.found }
      else none
    | .reading _ i out =>
      if h : ∀ k, (out k).isSome then some { s with
        readers := Function.update s.readers r .idle
        read := (i, fun k => (out k).get (h k)) :: s.read }
      else none
    | _ => none

/-- The table in zeroed memory, with any readers. -/
def instrumentTable : Machine (InstrumentTable ρ ι V κ) (TableStep ρ ι V κ) where
  Init s := s.count = 0 ∧ s.writer = .idle ∧ (∀ r, s.readers r = .idle) ∧ s.added = [] ∧
    s.found = [] ∧ s.read = []
  step := tableStep is

end Step

/-! ### The invariant -/

/-- What a reader has copied is in the row. -/
def Copied (out : ι → Option V) (row : ι → V) : Prop := ∀ k v, out k = some v → v = row k

/-- What holds of a reader, over the rows added so far. -/
def Lookup.Sound (is : κ → (ι → V) → Bool) (added : List (ι → V)) : Lookup ι V κ → Prop
  | .idle => True
  | .scanning q n i out => ∃ row, added[i]? = some row ∧ i < n ∧ n ≤ added.length ∧
      Copied out row ∧ ∀ row ∈ added.take i, is q row = false
  | .reading _ i out => ∃ row, added[i]? = some row ∧ Copied out row

/-- **The invariant.** -/
structure AppendOnly (is : κ → (ι → V) → Bool) (s : InstrumentTable ρ ι V κ) : Prop where
  count : s.count = s.added.length ∧ s.count ≤ MAX_INSTRUMENTS
  rows : ∀ i row, s.added[i]? = some row → s.rows i = row
  writer : ∀ n row copied, s.writer = .copying n row copied →
    n = s.count ∧ n < MAX_INSTRUMENTS ∧ ∀ k ∈ copied, s.rows n k = row k
  readers : ∀ r, (s.readers r).Sound is s.added
  found : ∀ f ∈ s.found, f.visible ≤ s.added.length ∧
    f.result = (s.added.take f.visible).findIdx? (is f.query)
  read : ∀ p ∈ s.read, s.added[p.1]? = some p.2

section Lemmas

variable {is : κ → (ι → V) → Bool} {added : List (ι → V)}

theorem copied_none (row : ι → V) : Copied (fun _ => none) row := fun k v h =>
  absurd h (by simp)

theorem Copied.update [DecidableEq ι] {out : ι → Option V} {row : ι → V} (h : Copied out row)
    (k : ι) : Copied (Function.update out k (some (row k))) row := by
  intro j v hv
  by_cases hj : j = k
  · subst hj
    rw [Function.update_self, Option.some.injEq] at hv
    exact hv.symm
  · rw [Function.update_of_ne hj] at hv
    exact h j v hv

theorem Copied.get_eq {out : ι → Option V} {row : ι → V} (h : Copied out row)
    (hall : ∀ k, (out k).isSome) : (fun k => (out k).get (hall k)) = row :=
  funext fun k => h k _ (Option.some_get (hall k)).symm

/-- More rows do not disturb a reader. -/
theorem Lookup.Sound.append {l : Lookup ι V κ} (h : l.Sound is added) (row : ι → V) :
    l.Sound is (added ++ [row]) := by
  have hget {i : ℕ} {r : ι → V} (hr : added[i]? = some r) : (added ++ [row])[i]? = some r := by
    rw [List.getElem?_append_left (List.getElem?_eq_some_iff.1 hr).1, hr]
  cases l with
  | idle => trivial
  | scanning q n i out =>
    obtain ⟨r, hr, hlt, hle, hcopied, hnone⟩ := h
    refine ⟨r, hget hr, hlt, hle.trans (by simp), hcopied, ?_⟩
    rwa [List.take_append_of_le_length (hlt.le.trans hle)]
  | reading n i out =>
    obtain ⟨r, hr, hcopied⟩ := h
    exact ⟨r, hget hr, hcopied⟩

/-- A row that is not the query's goes behind those that are not. -/
theorem take_succ_eq_false {q : κ} {i : ℕ} {row : ι → V} (hrow : added[i]? = some row)
    (h : ∀ row ∈ added.take i, is q row = false) (hnot : is q row = false) :
    ∀ row ∈ added.take (i + 1), is q row = false := by
  intro r hr
  rw [List.take_add_one, hrow, List.mem_append] at hr
  rcases hr with hr | hr
  · exact h r hr
  · obtain rfl : r = row := by simpa using hr
    exact hnot

/-- The first row that is the query's, among those in sight. -/
theorem findIdx_of_first {q : κ} {n i : ℕ} {row : ι → V} (hrow : added[i]? = some row)
    (hlt : i < n) (h : ∀ row ∈ added.take i, is q row = false) (his : is q row = true) :
    (added.take n).findIdx? (is q) = some i := by
  rw [List.findIdx?_eq_some_iff_getElem]
  obtain ⟨hi, rfl⟩ := List.getElem?_eq_some_iff.1 hrow
  refine ⟨by rw [List.length_take]; omega, by rwa [List.getElem_take], fun j hj => ?_⟩
  rw [List.getElem_take]
  have hmem : added[j] ∈ added.take i := List.mem_take_iff_getElem.2 ⟨j, by omega, rfl⟩
  exact fun hyes => absurd (hyes.symm.trans (h _ hmem)) (by simp)

end Lemmas

section Invariant

variable [DecidableEq ρ] [DecidableEq ι] [Fintype ι] {is : κ → (ι → V) → Bool}
  {s t : InstrumentTable ρ ι V κ}

omit [DecidableEq ι] [Fintype ι] in
/-- One reader moves. -/
theorem sound_update (h : AppendOnly is s) (r : ρ) {l : Lookup ι V κ} (hl : l.Sound is s.added) :
    ∀ r', (Function.update s.readers r l r').Sound is s.added := by
  intro r'
  by_cases hr : r' = r
  · subst hr
    rwa [Function.update_self]
  · rw [Function.update_of_ne hr]
    exact h.readers r'

omit [DecidableEq ρ] [Fintype ι] in
/-- **A word of a new row** goes where no reader looks. -/
theorem AppendOnly.addCopy (h : AppendOnly is s) {n : ℕ} {row : ι → V} {copied : Finset ι}
    (hw : s.writer = .copying n row copied) (k : ι) : AppendOnly is { s with
      rows := Function.update s.rows n (Function.update (s.rows n) k (row k))
      writer := .copying n row (insert k copied) } := by
  obtain ⟨hn, hmax, hcopied⟩ := h.writer n row copied hw
  refine { h with rows := fun i r hr => ?_, writer := fun n' row' copied' hw' => ?_ }
  · have hlt : i < n := by
      rw [hn, h.count.1]
      exact (List.getElem?_eq_some_iff.1 hr).1
    change Function.update s.rows n _ i = r
    rw [Function.update_of_ne hlt.ne]
    exact h.rows i r hr
  · obtain ⟨rfl, rfl, rfl⟩ := Adder.copying.inj hw'
    refine ⟨hn, hmax, fun j hj => ?_⟩
    change Function.update s.rows n _ n j = row j
    rw [Function.update_self]
    by_cases hjk : j = k
    · subst hjk
      exact Function.update_self ..
    · rw [Function.update_of_ne hjk]
      exact hcopied j ((Finset.mem_insert.1 hj).resolve_left hjk)

omit [DecidableEq ρ] [DecidableEq ι] in
/-- **A new row appears** once it is complete. -/
theorem AppendOnly.addStore (h : AppendOnly is s) {n : ℕ} {row : ι → V}
    (hw : s.writer = .copying n row Finset.univ) : AppendOnly is { s with
      count := n + 1
      writer := .idle
      added := s.added ++ [row] } := by
  obtain ⟨hn, hmax, hcopied⟩ := h.writer n row Finset.univ hw
  have hlen : n = s.added.length := hn.trans h.count.1
  refine
    { count := ⟨by simp [hlen], hmax⟩
      rows := fun i r hr => ?_
      writer := fun n' row' copied' hw' => absurd hw' (by simp)
      readers := fun r => (h.readers r).append row
      found := fun f hf => ?_
      read := fun p hp => ?_ }
  · rw [List.getElem?_append] at hr
    split_ifs at hr with hi
    · exact h.rows i r hr
    · have hlast : i = n := by
        have hlt := (List.getElem?_eq_some_iff.1 hr).1
        rw [List.length_singleton] at hlt
        omega
      subst hlast
      rw [hlen, Nat.sub_self] at hr
      exact (funext fun k => hcopied k (Finset.mem_univ k)).trans (Option.some.inj hr)
  · obtain ⟨hle, hresult⟩ := h.found f hf
    refine ⟨hle.trans (by simp), ?_⟩
    rwa [List.take_append_of_le_length hle]
  · have hp' := h.read p hp
    change (s.added ++ [row])[p.1]? = some p.2
    rw [List.getElem?_append_left (List.getElem?_eq_some_iff.1 hp').1, hp']

omit [DecidableEq ρ] [Fintype ι] in
/-- **A word is read**, of a row below the count. -/
theorem AppendOnly.copy (h : AppendOnly is s) (k : ι) {i : ℕ} {row : ι → V}
    (hrow : s.added[i]? = some row) {out : ι → Option V} (hcopied : Copied out row) :
    Copied (Function.update out k (some (s.rows i k))) row := by
  rw [h.rows i row hrow]
  exact hcopied.update k

/-- **A look at a whole row** ends the call or moves it on to the next row. -/
theorem AppendOnly.scanned (h : AppendOnly is s) (r : ρ) {q : κ} {n i : ℕ} {out : ι → Option V}
    (hr : s.readers r = .scanning q n i out) (hall : ∀ k, (out k).isSome)
    (ht : tableStep is s (.done r) = some t) : AppendOnly is t := by
  have hsound := h.readers r
  rw [hr] at hsound
  obtain ⟨row, hrow, hlt, hle, hcopied, hnone⟩ := hsound
  have hget := hcopied.get_eq hall
  simp only [tableStep, hr, hall, implies_true, dite_true, hget] at ht
  split_ifs at ht with his hnext
  all_goals obtain rfl := Option.some.inj ht
  · refine { h with readers := sound_update h r trivial, found := fun f hf => ?_ }
    rcases List.mem_cons.1 hf with rfl | hf
    · exact ⟨hle, (findIdx_of_first hrow hlt hnone his).symm⟩
    · exact h.found f hf
  · have hlt' : i + 1 < s.added.length := hnext.trans_le hle
    refine { h with readers := sound_update h r ?_ }
    exact ⟨_, List.getElem?_eq_getElem hlt', hnext, hle, copied_none _,
      take_succ_eq_false hrow hnone (by simpa using his)⟩
  · refine { h with readers := sound_update h r trivial, found := fun f hf => ?_ }
    rcases List.mem_cons.1 hf with rfl | hf
    · refine ⟨hle, Eq.symm (List.findIdx?_eq_none_iff.2 fun r' hr' => ?_)⟩
      obtain rfl : n = i + 1 := by omega
      exact take_succ_eq_false hrow hnone (by simpa using his) r' hr'
    · exact h.found f hf

/-- **The step lemma.** -/
theorem AppendOnly.step (h : AppendOnly is s) {a : TableStep ρ ι V κ}
    (ht : tableStep is s a = some t) : AppendOnly is t := by
  cases a with
  | addLoad row =>
    cases hw : s.writer <;> simp only [tableStep, hw, reduceCtorEq] at ht
    split_ifs at ht with hfull
    all_goals obtain rfl := Option.some.inj ht
    · exact h
    · refine { h with writer := fun n row' copied hw' => ?_ }
      obtain ⟨rfl, rfl, rfl⟩ := Adder.copying.inj hw'
      exact ⟨rfl, not_le.1 hfull, fun k hk => absurd hk (Finset.notMem_empty k)⟩
  | addCopy k =>
    cases hw : s.writer <;> simp only [tableStep, hw, Option.some.injEq, reduceCtorEq] at ht
    subst ht
    exact h.addCopy hw k
  | addStore =>
    cases hw : s.writer <;> simp only [tableStep, hw, Option.ite_none_right_eq_some,
      Option.some.injEq, reduceCtorEq] at ht
    obtain ⟨rfl, rfl⟩ := ht
    exact h.addStore hw
  | kill =>
    obtain rfl := Option.some.inj ht
    exact { h with writer := fun n row copied hw => absurd hw (by simp) }
  | findLoad r q =>
    cases hr : s.readers r <;> simp only [tableStep, hr, reduceCtorEq] at ht
    split_ifs at ht with hzero
    all_goals obtain rfl := Option.some.inj ht
    · refine { h with found := fun f hf => ?_ }
      rcases List.mem_cons.1 hf with rfl | hf
      · exact ⟨Nat.zero_le _, by rw [List.take_zero]; rfl⟩
      · exact h.found f hf
    · have hpos : 0 < s.added.length := by
        rw [← h.count.1]
        exact Nat.pos_of_ne_zero hzero
      refine { h with readers := sound_update h r ?_ }
      exact ⟨_, List.getElem?_eq_getElem hpos, h.count.1 ▸ hpos, h.count.1.le, copied_none _,
        by simp⟩
  | readLoad r i =>
    cases hr : s.readers r <;> simp only [tableStep, hr, Option.ite_none_right_eq_some,
      Option.some.injEq, reduceCtorEq] at ht
    obtain ⟨hlt, rfl⟩ := ht
    rw [h.count.1] at hlt
    exact { h with readers := sound_update h r ⟨_, List.getElem?_eq_getElem hlt, copied_none _⟩ }
  | copy r k =>
    have hsound := h.readers r
    cases hr : s.readers r <;> simp only [tableStep, hr, Option.some.injEq, reduceCtorEq] at ht
    all_goals
      subst ht
      rw [hr] at hsound
    · obtain ⟨row, hrow, hlt, hle, hcopied, hnone⟩ := hsound
      refine { h with readers := sound_update h r ?_ }
      exact ⟨row, hrow, hlt, hle, h.copy k hrow hcopied, hnone⟩
    · obtain ⟨row, hrow, hcopied⟩ := hsound
      exact { h with readers := sound_update h r ⟨row, hrow, h.copy k hrow hcopied⟩ }
  | done r =>
    cases hr : s.readers r with
    | idle => simp [tableStep, hr] at ht
    | scanning q n i out =>
      by_cases hall : ∀ k, (out k).isSome
      · exact h.scanned r hr hall ht
      · simp [tableStep, hr, hall] at ht
    | reading n i out =>
      have hsound := h.readers r
      rw [hr] at hsound
      obtain ⟨row, hrow, hcopied⟩ := hsound
      simp only [tableStep, hr] at ht
      split_ifs at ht with hall
      obtain rfl := Option.some.inj ht
      refine { h with readers := sound_update h r trivial, read := fun p hp => ?_ }
      rcases List.mem_cons.1 hp with rfl | hp
      · exact (hcopied.get_eq hall).symm ▸ hrow
      · exact h.read p hp

/-- **The run lemma.** -/
theorem appendOnly_of_reachable (hs : (instrumentTable (ρ := ρ) (ι := ι) is).Reachable s) :
    AppendOnly is s := by
  refine hs.invariant (P := AppendOnly is) (fun s hinit => ?_) fun s a t _ _ ht h => h.step ht
  obtain ⟨hcount, hwriter, hreaders, hadded, hfound, hread⟩ := hinit
  refine ⟨by simp [hcount, hadded], by simp [hadded], by simp [hwriter], fun r => ?_,
    by simp [hfound], by simp [hread]⟩
  rw [hreaders]
  trivial

/-- No access takes an added row away or changes it. -/
theorem added_isPrefix {a : TableStep ρ ι V κ} (ht : tableStep is s a = some t) :
    s.added <+: t.added := by
  cases a with
  | addStore =>
    cases hw : s.writer <;> simp only [tableStep, hw, Option.ite_none_right_eq_some,
      Option.some.injEq, reduceCtorEq] at ht
    obtain ⟨-, rfl⟩ := ht
    exact List.prefix_append _ _
  | kill =>
    obtain rfl := Option.some.inj ht
    exact List.prefix_rfl
  | addLoad row =>
    cases hw : s.writer <;> simp only [tableStep, hw, reduceCtorEq] at ht
    split_ifs at ht
    all_goals
      obtain rfl := Option.some.inj ht
      exact List.prefix_rfl
  | addCopy k =>
    cases hw : s.writer <;> simp only [tableStep, hw, Option.some.injEq, reduceCtorEq] at ht
    exact ht ▸ List.prefix_rfl
  | findLoad r q =>
    cases hr : s.readers r <;> simp only [tableStep, hr, reduceCtorEq] at ht
    split_ifs at ht
    all_goals
      obtain rfl := Option.some.inj ht
      exact List.prefix_rfl
  | readLoad r i =>
    cases hr : s.readers r <;> simp only [tableStep, hr, Option.ite_none_right_eq_some,
      Option.some.injEq, reduceCtorEq] at ht
    exact ht.2 ▸ List.prefix_rfl
  | copy r k =>
    cases hr : s.readers r <;> simp only [tableStep, hr, Option.some.injEq, reduceCtorEq] at ht
    all_goals exact ht ▸ List.prefix_rfl
  | done r =>
    cases hr : s.readers r <;> simp only [tableStep, hr, reduceCtorEq] at ht
    all_goals split_ifs at ht
    all_goals
      obtain rfl := Option.some.inj ht
      exact List.prefix_rfl

/-- **The table is an append-only list to its readers**, in any interleaving: below the count lie
the rows added so far, in order, and no access takes one back. Whatever a reader has read of a row
is the whole row as it was added, and a `find` that has returned gives the first match among the
rows that it could see; the index of a symbol never changes once it was found. -/
theorem table_append_only (hs : (instrumentTable (ρ := ρ) (ι := ι) is).Reachable s) :
    (s.count = s.added.length ∧ s.count ≤ MAX_INSTRUMENTS ∧
      ∀ i row, s.added[i]? = some row → s.rows i = row) ∧
      (∀ a t, tableStep is s a = some t → s.added <+: t.added) ∧
      (∀ p ∈ s.read, s.added[p.1]? = some p.2) ∧
      (∀ f ∈ s.found, f.visible ≤ s.added.length ∧
        f.result = (s.added.take f.visible).findIdx? (is f.query)) ∧
      ∀ f ∈ s.found, ∀ g ∈ s.found, f.query = g.query → f.visible ≤ g.visible →
        ∀ i, f.result = some i → g.result = some i := by
  have h := appendOnly_of_reachable hs
  refine ⟨⟨h.count.1, h.count.2, h.rows⟩, fun a t ht => added_isPrefix ht, h.read, h.found,
    fun f hf g hg hquery hle i hi => ?_⟩
  rw [(h.found f hf).2] at hi
  rw [(h.found g hg).2, ← hquery]
  exact (List.take_prefix_take_left hle).findIdx?_eq_some hi

end Invariant

/-- Rows of two words; the first one is the symbol. -/
def symbolIs (symbol : ℕ) (row : Bool → ℕ) : Bool := row false = symbol

/-- The table in zeroed memory. -/
def emptyTable : InstrumentTable Unit Bool ℕ ℕ where
  count := 0
  rows := fun _ _ => 0
  writer := .idle
  readers := fun _ => .idle
  added := []
  found := []
  read := []

/-- A row is added, and its symbol is looked up while the next one is written. -/
def lookedUp : List (TableStep Unit Bool ℕ ℕ) :=
  [.addLoad fun k => if k then 100 else 7, .addCopy true, .addCopy false, .addStore,
    .findLoad () 7, .addLoad fun k => if k then 50 else 8, .copy () false, .addCopy false,
    .copy () true, .done ()]

theorem table_append_only_lookup : ∃ s : InstrumentTable Unit Bool ℕ ℕ,
    (instrumentTable symbolIs).exec emptyTable lookedUp = some s ∧
      s.found.map Found.result = [some 0] ∧
      ∀ f ∈ s.found, f.visible ≤ s.added.length ∧
        f.result = (s.added.take f.visible).findIdx? (symbolIs f.query) := by
  have hrun : ((instrumentTable symbolIs).exec emptyTable lookedUp).map
      (fun s => s.found.map Found.result) = some [some 0] := by
    decide +kernel
  obtain ⟨s, hs, hfound⟩ := Option.map_eq_some_iff.mp hrun
  have hreach := Machine.Reachable.exec (.init (M := instrumentTable symbolIs)
    ⟨rfl, rfl, fun _ => rfl, rfl, rfl, rfl⟩) lookedUp hs
  exact ⟨s, hs, hfound, (table_append_only hreach).2.2.2.1⟩

end Common

end LowLatencyPipeline
