import LowLatencyPipeline.Exec.OrderTable
import LowLatencyPipeline.Library.Machine

/-!
# Order ids over exec's lifetimes

Exec dies and is started again on the same shared segment. An id carries the generation of its
lifetime, which `setup` takes from the stats that the lifetime before published last, plus one.
`history` is the machine of all lifetimes: each sets up, draws ids and publishes in any order, in
the steps of the seqlock's `store`, and ends by returning or, at any step, by a crash.

A lifetime that crashes before its first publish is over leaves no trace of its generation, and
one that crashes inside `store` leaves the seqlock locked: `generation_repeats` is a run with two
orders of one id. `ids_nodup` says that ids never repeat otherwise.
-/

namespace LowLatencyPipeline

namespace Exec

/-- `Seqlock<ExecStats>`, of which only the generation matters here. -/
structure StatsLock where
  seq : UInt64 := 0
  generation : UInt64 := 0

/-- `try_load`. No lifetime is writing while another one sets up, so both reads of `seq` agree. -/
def StatsLock.tryLoad (l : StatsLock) : Option UInt64 :=
  if l.seq &&& 1 ≠ 0 then none else some l.generation

/-- The previous generation as `setup` reads it: all of its tries see the same, and `prev` is
zero-initialised. -/
def StatsLock.previous (l : StatsLock) : UInt64 := l.tryLoad.getD 0

/-- Where a lifetime stands in `store`; `s` is the value of `seq` it has read. -/
inductive Storing
  | idle
  | begun (s : UInt64)
  | copied (s : UInt64)
  deriving DecidableEq

/-- A running exec. -/
structure Lifetime where
  /-- `st.exec_generation` -/
  generation : UInt64
  orders : OrderTable
  storing : Storing := .idle
  /-- it has completed a publish -/
  published : Bool := false

/-- The segment, the running exec and the ids drawn so far, newest first. -/
structure History where
  stats : StatsLock := {}
  /-- `ipc::KILL` -/
  kill : Bool := false
  exec : Option Lifetime := none
  lifetimes : ℕ := 0
  issued : List UInt64 := []

/-- What happens next. -/
inductive HistoryStep
  | setup
  /-- `submit` passes the gate and draws an id -/
  | order
  /-- `store`: `seq` is read and made odd, the data is copied, `seq` is made even -/
  | storeBegin
  | storeCopy
  | storeEnd
  /-- a clean exit or a swap: exec publishes before it returns -/
  | exit
  /-- exec dies at this step, and the manager sets KILL -/
  | crash
  /-- the operator clears KILL -/
  | clearKill

namespace History

variable (s : History)

/-- One step of the running exec. -/
def stepExec (x : Lifetime) : HistoryStep → Option History
  | .order =>
    -- the gate refuses every order while KILL is set
    if s.kill then none
    else some { s with
      exec := some { x with orders := x.orders.nextId.2 }
      issued := x.orders.nextId.1 :: s.issued }
  | .storeBegin =>
    match x.storing with
    | .idle => some { s with
        stats := { s.stats with seq := s.stats.seq + 1 }
        exec := some { x with storing := .begun s.stats.seq } }
    | _ => none
  | .storeCopy =>
    match x.storing with
    | .begun seq => some { s with
        stats := { s.stats with generation := x.generation }
        exec := some { x with storing := .copied seq } }
    | _ => none
  | .storeEnd =>
    match x.storing with
    | .copied seq => some { s with
        stats := { s.stats with seq := seq + 2 }
        exec := some { x with storing := .idle, published := true } }
    | _ => none
  | .exit =>
    -- main publishes before it returns
    if x.storing = .idle ∧ x.published then some { s with exec := none } else none
  -- the manager sets KILL when exec dies
  | .crash => some { s with exec := none, kill := true }
  | _ => none

/-- One step. -/
def step (a : HistoryStep) : Option History :=
  match a, s.exec with
  | .clearKill, _ => some { s with kill := false }
  | .setup, none =>
    some { s with
      exec := some
        { generation := s.stats.previous + 1
          orders := OrderTable.empty.setGeneration (s.stats.previous + 1) }
      lifetimes := s.lifetimes + 1 }
  | .setup, some _ => none
  | _, none => none
  | a, some x => s.stepExec x a

/-- Fewer than `2 ^ 24` lifetimes, and fewer than `2 ^ 40` orders in each. -/
def Bounded (s : History) : HistoryStep → Prop
  | .setup => s.lifetimes + 1 < 2 ^ 24
  | .order => ∀ x ∈ s.exec, x.orders.source.2.toNat + 1 < 2 ^ 40
  | _ => True

/-- **The condition on a step**: a lifetime does not crash inside `store`, and not before its
first `store` is over if it has drawn an id. -/
def CrashesPublished (s : History) : HistoryStep → Prop
  | .crash => ∀ x ∈ s.exec, x.storing = .idle ∧ (x.orders.source.2 = 0 ∨ x.published)
  | _ => True

instance (a : HistoryStep) : Decidable (s.Bounded a) := by
  cases a <;> unfold Bounded <;> infer_instance

instance (a : HistoryStep) : Decidable (s.CrashesPublished a) := by
  cases a <;> unfold CrashesPublished <;> infer_instance

end History

/-- All lifetimes on a fresh segment. -/
def history : Machine History HistoryStep where
  Init := (· = {})
  step := History.step

/-! ### The invariant -/

/-- `seq` is even: nobody is writing, or died writing. -/
def Unlocked (seq : UInt64) : Prop := seq &&& 1 = 0

theorem unlocked_iff {seq : UInt64} : Unlocked seq ↔ seq.toNat % 2 = 0 := by
  rw [Unlocked, ← UInt64.toNat_inj, UInt64.toNat_and]
  exact ⟨fun h => by simpa [Nat.and_one_is_mod] using h,
    fun h => by simpa [Nat.and_one_is_mod] using h⟩

theorem Unlocked.add_two {seq : UInt64} (h : Unlocked seq) : Unlocked (seq + 2) := by
  rw [unlocked_iff] at h ⊢
  rw [UInt64.toNat_add, show (2 : UInt64).toNat = 2 from rfl]
  omega

/-- An unlocked seqlock hands out what was published last. -/
theorem StatsLock.previous_eq {l : StatsLock} (h : Unlocked l.seq) : l.previous = l.generation := by
  have hseq : ¬l.seq &&& 1 ≠ 0 := not_not_intro h
  rw [StatsLock.previous, StatsLock.tryLoad, if_neg hseq]
  rfl

/-- `store` still has to give `seq` back: what it has read was unlocked. -/
def Storing.Unlocks (seq : UInt64) : Storing → Prop
  | .idle => Unlocked seq
  | .begun s | .copied s => Unlocked s

/-- `id` is of an earlier lifetime, or the running one has drawn it. -/
def Lifetime.Drew (x : Lifetime) (id : UInt64) : Prop :=
  id.toNat < x.generation.toNat * 2 ^ 40 ∨
    x.orders.source.2 ≠ 0 ∧
      id.toNat ≤ x.generation.toNat * 2 ^ 40 + x.orders.source.2.toNat

/-- What holds while a lifetime runs. -/
structure History.Runs (s : History) (x : Lifetime) : Prop where
  generation_le : x.generation.toNat ≤ s.lifetimes
  /-- The generation fits the ids. -/
  source_fst : x.orders.source.1 = x.generation
  counter_lt : x.orders.source.2.toNat < 2 ^ 40
  unlocks : x.storing.Unlocks s.stats.seq
  /-- Until it is published the generation is one above the published one. -/
  stats_generation : s.stats.generation = x.generation ∨
    s.stats.generation.toNat + 1 = x.generation.toNat ∧ x.published = false ∧
      ∀ q, x.storing ≠ .copied q
  drew : ∀ id ∈ s.issued, x.Drew id

/-- What holds while none runs: the next generation is above every id. -/
structure History.Rests (s : History) : Prop where
  unlocked : Unlocked s.stats.seq
  issued_lt : ∀ id ∈ s.issued, id.toNat < (s.stats.generation.toNat + 1) * 2 ^ 40

/-- The invariant of all lifetimes. -/
structure History.Fresh (s : History) : Prop where
  nodup : s.issued.Nodup
  lifetimes_lt : s.lifetimes < 2 ^ 24
  generation_le : s.stats.generation.toNat ≤ s.lifetimes
  rests : s.exec = none → s.Rests
  runs : ∀ x, s.exec = some x → s.Runs x

namespace History

variable {s : History} {x : Lifetime}

/-- A lifetime that crashes as the condition has it, or returns, leaves nothing to repeat. -/
theorem Runs.rests (h : s.Runs x) (hidle : x.storing = .idle)
    (hend : x.orders.source.2 = 0 ∨ x.published) : s.Rests := by
  refine ⟨?_, fun id hid => ?_⟩
  · have hunlocks := h.unlocks
    rwa [hidle] at hunlocks
  · have hcounter := h.counter_lt
    rcases h.drew id hid with hlt | ⟨hne, hle⟩
    · -- an id of an earlier lifetime: the published generation is at most one behind
      rcases h.stats_generation with heq | ⟨hnext, -, -⟩
      · rw [heq]
        exact hlt.trans_le (Nat.mul_le_mul_right _ (Nat.le_succ _))
      · rwa [hnext]
    · have hpublished : x.published = true := by
        rcases hend with hzero | hpublished
        · exact absurd hzero hne
        · exact hpublished
      rcases h.stats_generation with heq | ⟨-, hnot, -⟩
      · rw [heq]
        omega
      · rw [hpublished] at hnot
        exact absurd hnot (by decide)

/-- The new lifetime's generation is above everything published. -/
theorem Rests.setup (h : s.Rests) (hle : s.stats.generation.toNat ≤ s.lifetimes)
    (hlt : s.lifetimes + 1 < 2 ^ 24) (hnodup : s.issued.Nodup) {t : History}
    (ht : t = { s with
      exec := some
        { generation := s.stats.previous + 1
          orders := OrderTable.empty.setGeneration (s.stats.previous + 1) }
      lifetimes := s.lifetimes + 1 }) : t.Fresh := by
  -- the counter of the lock is even, so the stored generation is read
  have hgen : (s.stats.previous + 1).toNat = s.stats.generation.toNat + 1 := by
    rw [StatsLock.previous_eq h.unlocked, UInt64.toNat_add, UInt64.toNat_one]
    omega
  subst ht
  refine ⟨hnodup, hlt, Nat.le_succ_of_le hle, fun hnone => absurd hnone (by simp), ?_⟩
  rintro x ⟨⟩
  refine
    { generation_le := by simp only [hgen]; omega
      source_fst := ?_
      counter_lt := by
        rw [OrderTable.setGeneration_source]
        exact (by decide : OrderTable.empty.source.2.toNat < 2 ^ 40)
      unlocks := h.unlocked
      stats_generation := .inr ⟨hgen.symm, rfl, fun q hq => nomatch hq⟩
      drew := fun id hid => .inl ?_ }
  · -- the mask of `set_generation` drops nothing
    rw [OrderTable.setGeneration_source, ← UInt64.toNat_inj, UInt64.toNat_and]
    refine (Nat.and_two_pow_sub_one_eq_mod _ 24).trans (Nat.mod_eq_of_lt ?_)
    omega
  · have hid := h.issued_lt id hid
    simp only [hgen]
    exact hid

/-- A drawn id is above all before. -/
theorem Runs.order (h : s.Runs x) (hnodup : s.issued.Nodup)
    (hlt : x.orders.source.2.toNat + 1 < 2 ^ 40) (hlifetimes : s.lifetimes < 2 ^ 24) {t : History}
    (ht : t = { s with
      exec := some { x with orders := x.orders.nextId.2 }
      issued := x.orders.nextId.1 :: s.issued }) :
    t.issued.Nodup ∧ t.Runs { x with orders := x.orders.nextId.2 } := by
  have hgen := h.generation_le
  have hcounter : (x.orders.source.2 + 1).toNat = x.orders.source.2.toNat + 1 :=
    toNat_counter_nextId hlt rfl
  have hid : x.orders.nextId.1.toNat =
      x.generation.toNat * 2 ^ 40 + (x.orders.source.2.toNat + 1) := by
    rw [OrderTable.nextId_fst, OrderTable.toNat_orderId, h.source_fst, hcounter,
      Nat.mod_eq_of_lt (by omega),
      Nat.mod_eq_of_lt hlt]
  -- an earlier id is of a smaller generation, or of this one with a smaller counter
  have hnew : ∀ id ∈ s.issued, id.toNat < x.orders.nextId.1.toNat := by
    intro id hmem
    rw [hid]
    rcases h.drew id hmem with hearlier | ⟨-, hle⟩
    · exact Nat.lt_add_right _ hearlier
    · omega
  subst ht
  refine ⟨List.nodup_cons.2 ⟨fun hmem => lt_irrefl _ (hnew _ hmem), hnodup⟩, ?_⟩
  refine
    { h with
      source_fst := h.source_fst
      counter_lt := ?_
      drew := fun id hmem => ?_ }
  · rw [OrderTable.nextId_source, hcounter]
    exact hlt
  · have hsource : (Lifetime.orders { x with orders := x.orders.nextId.2 }).source.2.toNat =
        x.orders.source.2.toNat + 1 := hcounter
    refine .inr ⟨fun hzero => ?_, ?_⟩
    · rw [hzero] at hsource
      exact absurd hsource (by simp)
    · rw [hsource, ← hid]
      rcases List.mem_cons.1 hmem with rfl | hmem
      · exact le_rfl
      · exact (hnew id hmem).le

/-- What a step of `store` has to keep: `seq` can be given back, and the published generation is
the old one or, from the copy on, this lifetime's. -/
theorem Runs.store (h : s.Runs x) (stats : StatsLock) (storing : Storing) (published : Bool)
    (hunlocks : storing.Unlocks stats.seq)
    (hstats : stats.generation = x.generation ∨
      stats.generation = s.stats.generation ∧ published = x.published ∧
        ∀ q, storing ≠ .copied q) :
    History.Runs { s with
      stats := stats, exec := some { x with storing := storing, published := published } }
      { x with storing := storing, published := published } := by
  refine ⟨h.generation_le, h.source_fst, h.counter_lt, hunlocks, ?_, h.drew⟩
  rcases hstats with heq | ⟨heq, hpublished, hcopied⟩
  · exact .inl heq
  · rw [heq, hpublished]
    exact h.stats_generation.imp_right fun ⟨hnext, hnot, _⟩ => ⟨hnext, hnot, hcopied⟩

/-- Every step of the running exec keeps the invariant. -/
theorem Fresh.stepExec (h : s.Fresh) (hexec : s.exec = some x) {a : HistoryStep} {t : History}
    (hbounded : s.Bounded a) (hcrash : s.CrashesPublished a) (ht : s.stepExec x a = some t) :
    t.Fresh := by
  have hx := h.runs x hexec
  cases a with
  | setup => cases ht
  | clearKill => cases ht
  | order =>
    simp only [History.stepExec] at ht
    split_ifs at ht
    have hdrawn := hx.order h.nodup (hbounded x hexec) h.lifetimes_lt (Option.some.inj ht).symm
    cases ht
    refine ⟨hdrawn.1, h.lifetimes_lt, h.generation_le, fun hnone => absurd hnone (by simp), ?_⟩
    rintro y ⟨⟩
    exact hdrawn.2
  | storeBegin =>
    cases hstoring : x.storing <;> simp only [History.stepExec, hstoring] at ht <;> cases ht
    refine ⟨h.nodup, h.lifetimes_lt, h.generation_le, fun hnone => absurd hnone (by simp), ?_⟩
    rintro y ⟨⟩
    have hunlocks := hx.unlocks
    rw [hstoring] at hunlocks
    exact hx.store _ _ _ hunlocks (.inr ⟨rfl, rfl, fun q hq => nomatch hq⟩)
  | storeCopy =>
    cases hstoring : x.storing <;> simp only [History.stepExec, hstoring] at ht <;> cases ht
    refine ⟨h.nodup, h.lifetimes_lt, hx.generation_le, fun hnone => absurd hnone (by simp), ?_⟩
    rintro y ⟨⟩
    have hunlocks := hx.unlocks
    rw [hstoring] at hunlocks
    exact hx.store _ _ _ hunlocks (.inl rfl)
  | storeEnd =>
    cases hstoring : x.storing with
    | idle => simp only [History.stepExec, hstoring] at ht; cases ht
    | begun q => simp only [History.stepExec, hstoring] at ht; cases ht
    | copied q =>
      simp only [History.stepExec, hstoring] at ht
      cases ht
      refine ⟨h.nodup, h.lifetimes_lt, h.generation_le, fun hnone => absurd hnone (by simp), ?_⟩
      rintro y ⟨⟩
      have hunlocks := hx.unlocks
      rw [hstoring] at hunlocks
      -- the store that ends has copied this lifetime's generation
      have hstats : s.stats.generation = x.generation := by
        rcases hx.stats_generation with heq | ⟨-, -, hcopied⟩
        · exact heq
        · exact absurd hstoring (hcopied q)
      exact hx.store _ .idle true (Unlocked.add_two hunlocks) (.inl hstats)
  | exit =>
    simp only [History.stepExec] at ht
    split_ifs at ht with hends
    cases ht
    have hrests := hx.rests hends.1 (.inr hends.2)
    exact ⟨h.nodup, h.lifetimes_lt, h.generation_le,
      fun _ => ⟨hrests.unlocked, hrests.issued_lt⟩, fun y hy => by cases hy⟩
  | crash =>
    simp only [History.stepExec] at ht
    cases ht
    obtain ⟨hidle, hend⟩ := hcrash x hexec
    have hrests := hx.rests hidle hend
    exact ⟨h.nodup, h.lifetimes_lt, h.generation_le,
      fun _ => ⟨hrests.unlocked, hrests.issued_lt⟩, fun y hy => by cases hy⟩

/-- Every step of the history keeps the invariant. -/
theorem Fresh.step (h : s.Fresh) {a : HistoryStep} {t : History} (hbounded : s.Bounded a)
    (hcrash : s.CrashesPublished a) (ht : s.step a = some t) : t.Fresh := by
  by_cases hclear : a = .clearKill
  · subst hclear
    cases ht
    exact ⟨h.nodup, h.lifetimes_lt, h.generation_le,
      fun hnone => ⟨(h.rests hnone).unlocked, (h.rests hnone).issued_lt⟩,
      fun x hx => { h.runs x hx with }⟩
  cases hexec : s.exec with
  | none =>
    cases a with
    | setup =>
      simp only [History.step, hexec] at ht
      exact (h.rests hexec).setup h.generation_le hbounded h.nodup (Option.some.inj ht).symm
    | clearKill => exact absurd rfl hclear
    | order => simp [History.step, hexec] at ht
    | storeBegin => simp [History.step, hexec] at ht
    | storeCopy => simp [History.step, hexec] at ht
    | storeEnd => simp [History.step, hexec] at ht
    | exit => simp [History.step, hexec] at ht
    | crash => simp [History.step, hexec] at ht
  | some x =>
    refine h.stepExec hexec hbounded hcrash ?_
    cases a <;> simp_all [History.step, History.stepExec]

end History

/-! ### Ids over the whole history -/

variable {s : History}

/-- The invariant holds in every run in which crashes leave the generation published. -/
theorem fresh_of_reachable
    (hs : history.ReachableWhen (fun s a => s.Bounded a ∧ s.CrashesPublished a) s) : s.Fresh := by
  refine hs.invariant (fun s hinit => ?_) fun s a t _ hcond ht h => h.step hcond.1 hcond.2 ht
  obtain rfl : s = {} := hinit
  exact ⟨List.nodup_nil, by decide, by decide,
    fun _ => ⟨rfl, fun id hid => absurd hid List.not_mem_nil⟩, fun x hx => by cases hx⟩

/-- **Ids never repeat**: as long as no lifetime crashes inside `store`, and none that has drawn
an id before its first `store` is over, all ids of the history are different. -/
theorem ids_nodup
    (hs : history.ReachableWhen (fun s a => s.Bounded a ∧ s.CrashesPublished a) s) :
    s.issued.Nodup :=
  (fresh_of_reachable hs).nodup

/-- Two lifetimes with one order each; the first crashes after a publish. -/
theorem ids_nodup_crash :
    ∃ s : History, s.issued.length = 2 ∧ s.lifetimes = 2 ∧ s.issued.Nodup := by
  have hrun : ((history.execWhen (fun s a => s.Bounded a ∧ s.CrashesPublished a) {}
      [.setup, .order, .storeBegin, .storeCopy, .storeEnd, .crash, .clearKill, .setup,
        .order]).map fun s => (s.issued.length, s.lifetimes)) = some (2, 2) := by
    decide +kernel
  obtain ⟨s, hs, hcounts⟩ := Option.map_eq_some_iff.1 hrun
  obtain ⟨hlength, hlifetimes⟩ := Prod.mk.inj hcounts
  exact ⟨s, hlength, hlifetimes, ids_nodup (.execWhen (.init rfl) _ hs)⟩

/-- A lifetime that draws an id and crashes before it publishes; the next one draws the same. -/
theorem generation_repeats :
    ∃ s : History, history.ReachableWhen History.Bounded s ∧ ¬s.issued.Nodup := by
  have hrun : ((history.execWhen History.Bounded {}
      [.setup, .order, .crash, .clearKill, .setup, .order]).map fun s =>
        decide s.issued.Nodup) = some false := by
    decide +kernel
  obtain ⟨s, hs, hrepeats⟩ := Option.map_eq_some_iff.1 hrun
  exact ⟨s, .execWhen (.init rfl) _ hs, of_decide_eq_false hrepeats⟩

end Exec

end LowLatencyPipeline
