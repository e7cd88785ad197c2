import LowLatencyPipeline.Library.Fnv
import LowLatencyPipeline.Library.Machine
import LowLatencyPipeline.Library.Strtol
import Mathlib.Logic.Function.Basic

/-!
# Attaching to the segment

The header of the segment, which the manager fills in, and `attach_pipeline` of
`common/ipc/shm_segment.cpp`, with which every worker begins. The manager and the workers may be of
any builds: a `Build` is the constants of the headers that it was compiled with, and the sizes,
alignments and offsets that `compute_layout_hash` goes through. `attaching` runs them access by
access.

`attach_checked`: who attaches has the constants and the hash of the manager, who has them is never
refused, and a layout that differs from the manager's in one number is.
-/

namespace LowLatencyPipeline

namespace Common

open Bytes Strtol

universe u

/-! ### The layout hash -/

/-- `ipc::detail::fnv1a`. -/
def fnv1a (h : UInt32) (v : UInt64) : UInt32 :=
  (List.range 8).foldl
    (fun h i => (h ^^^ ((v >>> (8 * UInt64.ofNat i)) &&& 0xff).toUInt32) * 16777619) h

/-- `compute_layout_hash`. -/
def computeLayoutHash (parts : List UInt64) : UInt32 := parts.foldl fnv1a 2166136261

section Hash

variable {h h' : UInt32} {v : UInt64}

theorem toUInt32_byte (v : UInt64) {i : ℕ} (hi : i < 8) :
    ((v >>> (8 * UInt64.ofNat i)) &&& 0xff).toUInt32 =
      (UInt8.ofNat (v.toNat / 256 ^ i)).toUInt32 := by
  have hshift : (8 * UInt64.ofNat i).toNat = 8 * i := by
    rw [UInt64.toNat_mul, UInt64.toNat_ofNat']
    change 8 * (i % 2 ^ 64) % 2 ^ 64 = 8 * i
    omega
  refine UInt32.toNat_inj.1 ?_
  rw [UInt64.toNat_toUInt32, UInt64.toNat_and, UInt64.toNat_shiftRight, hshift,
    UInt8.toNat_toUInt32, UInt8.toNat_ofNat', Nat.mod_eq_of_lt (by omega : 8 * i < 64),
    Nat.shiftRight_eq_div_pow, show (0xff : UInt64).toNat = 2 ^ 8 - 1 from rfl,
    Nat.and_two_pow_sub_one_eq_mod, pow_mul]
  change v.toNat / 256 ^ i % 2 ^ 8 % 2 ^ 32 = v.toNat / 256 ^ i % 2 ^ 8
  omega

/-- It is FNV-1a over the bytes of the number. -/
theorem fnv1a_eq : fnv1a h v = Fnv.hashBytes h (toLE 8 v.toNat) := by
  have hbyte : ∀ i < 8, ((v >>> (8 * UInt64.ofNat i)) &&& 0xff).toUInt32 =
      (UInt8.ofNat (v.toNat / 256 ^ i)).toUInt32 := fun i hi => toUInt32_byte v hi
  have hbytes : toLE 8 v.toNat = (List.range 8).map fun i => UInt8.ofNat (v.toNat / 256 ^ i) := by
    simp [toLE, List.range, List.range.loop, Nat.div_div_eq_div_mul]
  rw [hbytes, Fnv.hashBytes, List.foldl_map]
  exact List.foldl_ext _ _ _ fun h i hi => by
    rw [hbyte i (List.mem_range.1 hi)]
    rfl

theorem foldl_fnv1a_inj {parts : List UInt64} :
    parts.foldl fnv1a h = parts.foldl fnv1a h' ↔ h = h' := by
  induction parts generalizing h h' with
  | nil => rfl
  | cons v parts ih =>
    rw [List.foldl_cons, List.foldl_cons, ih, fnv1a_eq, fnv1a_eq, Fnv.hashBytes_inj]

/-- The numbers are the same but for one, which is less than `SHM_SIZE` in both. -/
def DifferOnce (ps qs : List UInt64) : Prop := ∃ front p q rest, ps = front ++ p :: rest ∧
  qs = front ++ q :: rest ∧ p < 16777216 ∧ q < 16777216 ∧ p ≠ q

/-- **Numbers that differ once do not collide**, whatever the others are. -/
theorem DifferOnce.hash_ne {ps qs : List UInt64} (hdiffer : DifferOnce ps qs) :
    ps.foldl fnv1a h ≠ qs.foldl fnv1a h := by
  obtain ⟨front, p, q, rest, rfl, rfl, hp, hq, hne⟩ := hdiffer
  rw [List.foldl_append, List.foldl_append, List.foldl_cons, List.foldl_cons, Ne, foldl_fnv1a_inj,
    fnv1a_eq, fnv1a_eq, Fnv.hashBytes_toLE_inj (UInt64.lt_iff_toNat_lt.1 hp)
    (UInt64.lt_iff_toNat_lt.1 hq), UInt64.toNat_inj]
  exact hne

end Hash

/-! ### The descriptor -/

/-- `INT_MAX`. -/
def INT_MAX : ℕ := 2147483647

/-- The descriptor that `attach_pipeline` is given as an argument. -/
def parseFd : Option (List Char) → Option ℕ
  | none => none
  | some text =>
    match strtol (-9223372036854775808) 9223372036854775807 text with
    | some (fd, []) => if fd < 0 ∨ fd > INT_MAX then none else some fd.toNat
    | _ => none

/-- **The arguments that are taken**: those that spell a descriptor, which is no other one. -/
theorem parseFd_eq_some_iff {text : List Char} {fd : ℕ} :
    parseFd (some text) = some fd ↔ Spells text fd ∧ fd ≤ INT_MAX := by
  constructor
  · intro h
    simp only [parseFd] at h
    split at h
    · next v hread =>
      split_ifs at h with hbad
      obtain ⟨z, hz, hv⟩ := strtol_whole_iff.1 hread
      rw [INT_MAX] at *
      -- a number that a long cannot hold is beyond an int as well
      have hmem : v = z := by
        rw [hv]
        exact eq_of_saturate (by omega) (by omega)
      have hfd : v.toNat = fd := Option.some.inj h
      have hz' : z = fd := by omega
      exact ⟨hz' ▸ hz, by omega⟩
    · cases h
  · rintro ⟨hspells, hle⟩
    rw [INT_MAX] at hle
    have hread : strtol (-9223372036854775808) 9223372036854775807 text = some ((fd : ℤ), []) :=
      strtol_whole_iff.2 ⟨fd, hspells, (saturate_of_mem (by omega) (by omega)).symm⟩
    simp only [parseFd, hread]
    rw [if_neg (by rw [INT_MAX]; omega), Int.toNat_natCast]

/-- What `spawn` prints is taken. -/
theorem parseFd_decimal {fd : ℕ} (hfd : fd ≤ INT_MAX) : parseFd (some (decimal fd)) = some fd :=
  parseFd_eq_some_iff.2 ⟨spells_decimal fd, hfd⟩

/-! ### Builds and headers -/

/-- What a binary is compiled with. -/
structure Build where
  /-- `MAGIC` -/
  magic : UInt64
  magic_ne_zero : magic ≠ 0
  /-- `VERSION` -/
  version : UInt32
  /-- the numbers that go into `LAYOUT_HASH` -/
  parts : List UInt64

/-- `LAYOUT_HASH`. -/
def Build.layoutHash (b : Build) : UInt32 := computeLayoutHash b.parts

/-- The builds cannot tell each other apart. -/
structure Build.Compatible (b m : Build) : Prop where
  magic : b.magic = m.magic
  version : b.version = m.version
  layoutHash : b.layoutHash = m.layoutHash

theorem Build.not_compatible {b m : Build} (h : DifferOnce b.parts m.parts) : ¬b.Compatible m :=
  fun hcompatible => h.hash_ne hcompatible.layoutHash

/-- Where a worker is in `attach_pipeline`. -/
inductive AttachPoint
  | call
  /-- the segment is mapped: spinning until `magic` is not 0 -/
  | spin
  /-- about to compare `magic` -/
  | magic
  | version
  | layout
  | attached
  /-- `std::exit(2)` -/
  | exited
  deriving DecidableEq

/-- `ShmHeader`, zeroed by `new PipelineShm()`. -/
structure ShmHeader where
  magic : UInt64 := 0
  version : UInt32 := 0
  layoutHash : UInt32 := 0

/-- A worker. -/
structure Attacher where
  point : AttachPoint := .call
  /-- the descriptor that is mapped -/
  mapped : Option ℕ := none

/-- The header, and who looks at it. -/
structure Attaching (κ : Type u) where
  header : ShmHeader := {}
  /-- the stores that the manager has made -/
  stores : ℕ := 0
  workers : κ → Attacher := fun _ => {}

/-- What happens next. -/
inductive AttachStep (κ : Type u)
  /-- the manager's next store -/
  | store
  /-- a worker goes on; `mmap` works if it is called -/
  | move (i : κ) (mmap : Bool)

/-- The worker that goes on. -/
def AttachStep.mover {κ : Type u} : AttachStep κ → Option κ
  | .store => none
  | .move i _ => some i

/-- A worker's next access, with the segment at descriptor `fd`. -/
def Attacher.move (fd : ℕ) (b : Build) (header : ShmHeader) (w : Attacher) (mmap : Bool) :
    Option Attacher :=
  match w.point with
  | .call =>
    match parseFd (some (decimal fd)) with
    | none => some { w with point := .exited }
    | some d =>
      if mmap then some { point := .spin, mapped := some d } else some { w with point := .exited }
  | .spin => if header.magic = 0 then some w else some { w with point := .magic }
  | .magic => some { w with point := if header.magic ≠ b.magic then .exited else .version }
  | .version => some { w with point := if header.version ≠ b.version then .exited else .layout }
  | .layout => some { w with
      point := if header.layoutHash ≠ b.layoutHash then .exited else .attached }
  | .attached | .exited => none

variable {κ : Type u} [DecidableEq κ]

/-- One step. -/
def attachStep (fd : ℕ) (m : Build) (build : κ → Build) (s : Attaching κ) :
    AttachStep κ → Option (Attaching κ)
  | .store =>
    match s.stores with
    | 0 => some { s with header := { s.header with version := m.version }, stores := 1 }
    | 1 => some { s with header := { s.header with layoutHash := m.layoutHash }, stores := 2 }
    | 2 => some { s with header := { s.header with magic := m.magic }, stores := 3 }
    | _ => none
  | .move i mmap => ((s.workers i).move fd (build i) s.header mmap).map fun w =>
      { s with workers := Function.update s.workers i w }

/-- The manager with the segment at descriptor `fd`, and workers of any builds. -/
def attaching (fd : ℕ) (m : Build) (build : κ → Build) : Machine (Attaching κ) (AttachStep κ) where
  Init s := s = {}
  step := attachStep fd m build

/-! ### The invariant -/

/-- What the manager has written. -/
structure Written (m : Build) (header : ShmHeader) (stores : ℕ) : Prop where
  version : 1 ≤ stores → header.version = m.version
  layoutHash : 2 ≤ stores → header.layoutHash = m.layoutHash
  magic : header.magic = if stores = 3 then m.magic else 0

/-- What a worker has found out. -/
def Learnt (m b : Build) : AttachPoint → Prop
  | .call | .spin | .magic => True
  | .version => b.magic = m.magic
  | .layout => b.magic = m.magic ∧ b.version = m.version
  | .attached => b.Compatible m
  | .exited => ¬b.Compatible m

namespace AttachPoint

/-- The worker looks at a header that is complete. -/
def looks : AttachPoint → Bool
  | .magic | .version | .layout => true
  | _ => false

/-- How many accesses it is to the decision, at most. -/
def rank : AttachPoint → ℕ
  | .call => 5
  | .spin => 4
  | .magic => 3
  | .version => 2
  | .layout => 1
  | .attached | .exited => 0

end AttachPoint

/-- What holds of a worker. -/
structure AttacherInv (fd : ℕ) (m b : Build) (stores : ℕ) (w : Attacher) : Prop where
  complete : w.point.looks = true → stores = 3
  learnt : w.mapped ≠ none → Learnt m b w.point
  mapped : ∀ d ∈ w.mapped, d = fd
  unmapped : w.mapped = none → w.point = .call ∨ w.point = .exited
  fresh : w.point = .call → w.mapped = none

/-- **The invariant.** -/
structure AttachInv (fd : ℕ) (m : Build) (build : κ → Build) (s : Attaching κ) : Prop where
  written : Written m s.header s.stores
  workers : ∀ i, AttacherInv fd m (build i) s.stores (s.workers i)

section Worker

variable {fd : ℕ} {m b : Build} {header : ShmHeader} {stores : ℕ} {w w' : Attacher} {mmap : Bool}

/-- A worker that has the segment mapped goes on to a point. -/
theorem AttacherInv.goto (h : AttacherInv fd m b stores w) (hcall : w.point ≠ .call)
    (hexited : w.point ≠ .exited) {point : AttachPoint} (hpoint : point ≠ .call)
    (hlooks : point.looks = true → stores = 3) (hlearnt : Learnt m b w.point → Learnt m b point) :
    AttacherInv fd m b stores { w with point } := by
  have hmapped : w.mapped ≠ none := fun hnone => (h.unmapped hnone).elim hcall hexited
  exact ⟨hlooks, fun _ => hlearnt (h.learnt hmapped), h.mapped, fun hnone => absurd hnone hmapped,
    fun heq => absurd heq hpoint⟩

/-- A comparison with the header takes the worker on or makes it exit. -/
theorem AttacherInv.compare (h : AttacherInv fd m b stores w) (hlooks : w.point.looks = true)
    {differs : Prop} [Decidable differs] {point : AttachPoint} (hpoint : point ≠ .call)
    (hsame : Learnt m b w.point → ¬differs → Learnt m b point)
    (hdiffers : differs → ¬b.Compatible m) :
    AttacherInv fd m b stores { w with point := if differs then .exited else point } := by
  have hcall : w.point ≠ .call := fun heq => by rw [heq] at hlooks; cases hlooks
  have hexited : w.point ≠ .exited := fun heq => by rw [heq] at hlooks; cases hlooks
  split_ifs with hne
  · exact h.goto hcall hexited (by simp) (fun _ => h.complete hlooks) fun _ => hdiffers hne
  · exact h.goto hcall hexited hpoint (fun _ => h.complete hlooks) fun hlearnt => hsame hlearnt hne

/-- **A worker's access.** -/
theorem AttacherInv.move (hfd : fd ≤ INT_MAX) (hwritten : Written m header stores)
    (h : AttacherInv fd m b stores w) (hmove : w.move fd b header mmap = some w') :
    AttacherInv fd m b stores w' := by
  cases hpoint : w.point with
  | call =>
    simp only [Attacher.move, hpoint, parseFd_decimal hfd] at hmove
    split_ifs at hmove
    · obtain rfl := Option.some.inj hmove
      exact ⟨fun hlooks => (by cases hlooks), fun _ => trivial,
        fun d hd => (Option.some.inj hd).symm, fun hnone => (by cases hnone),
        fun hcall => (by cases hcall)⟩
    · obtain rfl := Option.some.inj hmove
      exact ⟨fun hlooks => (by cases hlooks), fun hmapped => absurd (h.fresh hpoint) hmapped,
        h.mapped, fun _ => .inr rfl, fun hcall => (by cases hcall)⟩
  | spin =>
    simp only [Attacher.move, hpoint] at hmove
    split_ifs at hmove with hzero
    · exact Option.some.inj hmove ▸ h
    · obtain rfl := Option.some.inj hmove
      refine h.goto (by simp [hpoint]) (by simp [hpoint]) (by simp) (fun _ => ?_) fun _ => trivial
      -- the magic number is stored last
      by_contra hstores
      exact hzero (hwritten.magic.trans (if_neg hstores))
  | magic =>
    have hlooks : w.point.looks = true := hpoint ▸ rfl
    have hmagic : header.magic = m.magic := hwritten.magic.trans (if_pos (h.complete hlooks))
    simp only [Attacher.move, hpoint, hmagic, Option.some.injEq] at hmove
    subst hmove
    refine h.compare hlooks (by simp) (fun _ hsame => (not_not.1 hsame).symm) ?_
    exact fun hne hcompatible => hne hcompatible.magic.symm
  | version =>
    have hlooks : w.point.looks = true := hpoint ▸ rfl
    have hversion : header.version = m.version :=
      hwritten.version (by rw [h.complete hlooks]; decide)
    simp only [Attacher.move, hpoint, hversion, Option.some.injEq] at hmove
    subst hmove
    refine h.compare hlooks (by simp) (fun hlearnt hsame => ?_) ?_
    · rw [hpoint] at hlearnt
      exact ⟨hlearnt, (not_not.1 hsame).symm⟩
    · exact fun hne hcompatible => hne hcompatible.version.symm
  | layout =>
    have hlooks : w.point.looks = true := hpoint ▸ rfl
    have hhash : header.layoutHash = m.layoutHash :=
      hwritten.layoutHash (by rw [h.complete hlooks]; decide)
    simp only [Attacher.move, hpoint, hhash, Option.some.injEq] at hmove
    subst hmove
    refine h.compare hlooks (by simp) (fun hlearnt hsame => ?_) ?_
    · rw [hpoint] at hlearnt
      exact ⟨hlearnt.1, hlearnt.2, (not_not.1 hsame).symm⟩
    · exact fun hne hcompatible => hne hcompatible.layoutHash.symm
  | attached | exited =>
    rw [Attacher.move, hpoint] at hmove
    cases hmove

/-- **A worker never waits for a header that is complete**: each access brings its decision
closer. -/
theorem rank_move (hmagic : header.magic ≠ 0) (hmove : w.move fd b header mmap = some w') :
    w'.point.rank < w.point.rank := by
  cases hpoint : w.point with
  | call =>
    simp only [Attacher.move, hpoint] at hmove
    split at hmove
    · obtain rfl := Option.some.inj hmove
      dsimp only
      decide
    · split_ifs at hmove <;> obtain rfl := Option.some.inj hmove <;> dsimp only <;> decide
  | spin =>
    simp only [Attacher.move, hpoint, if_neg hmagic, Option.some.injEq] at hmove
    subst hmove
    dsimp only
    decide
  | magic | version | layout =>
    simp only [Attacher.move, hpoint, Option.some.injEq] at hmove
    subst hmove
    dsimp only
    split_ifs <;> decide
  | attached | exited =>
    rw [Attacher.move, hpoint] at hmove
    cases hmove

/-- A worker that has not decided goes on. -/
theorem move_isSome (hrank : w.point.rank ≠ 0) : (w.move fd b header mmap).isSome = true := by
  unfold Attacher.move
  split
  · split
    · rfl
    · split_ifs <;> rfl
  · split_ifs <;> rfl
  · rfl
  · rfl
  · rfl
  · next hpoint =>
    rw [hpoint] at hrank
    exact absurd rfl hrank
  · next hpoint =>
    rw [hpoint] at hrank
    exact absurd rfl hrank

end Worker

section Steps

variable {fd : ℕ} {m : Build} {build : κ → Build} {s t : Attaching κ}

omit [DecidableEq κ] in
/-- **The manager's store** is seen by none who compares. -/
theorem AttachInv.store (h : AttachInv fd m build s) (header : ShmHeader) (hne : s.stores ≠ 3)
    (hwritten : Written m header (s.stores + 1)) :
    AttachInv fd m build { s with header, stores := s.stores + 1 } := by
  refine ⟨hwritten, fun i => ?_⟩
  obtain ⟨hcomplete, hlearnt, hmapped, hunmapped, hfresh⟩ := h.workers i
  exact ⟨fun hlooks => absurd (hcomplete hlooks) hne, hlearnt, hmapped, hunmapped, hfresh⟩

/-- **The step lemma.** -/
theorem AttachInv.step (hfd : fd ≤ INT_MAX) (h : AttachInv fd m build s) {a : AttachStep κ}
    (hstep : attachStep fd m build s a = some t) : AttachInv fd m build t := by
  cases a with
  | store =>
    obtain ⟨hversion, hhash, hmagic⟩ := h.written
    simp only [attachStep] at hstep
    split at hstep
    · next hstores =>
      obtain rfl := Option.some.inj hstep
      have hnext := h.store { s.header with version := m.version } (by omega)
        ⟨fun _ => rfl, fun hle => absurd hle (by omega), by simp [hmagic, hstores]⟩
      rwa [hstores] at hnext
    · next hstores =>
      obtain rfl := Option.some.inj hstep
      have hnext := h.store { s.header with layoutHash := m.layoutHash } (by omega)
        ⟨fun _ => hversion (by omega), fun _ => rfl, by simp [hmagic, hstores]⟩
      rwa [hstores] at hnext
    · next hstores =>
      obtain rfl := Option.some.inj hstep
      have hnext := h.store { s.header with magic := m.magic } (by omega)
        ⟨fun _ => hversion (by omega), fun _ => hhash (by omega), by simp [hstores]⟩
      rwa [hstores] at hnext
    · cases hstep
  | move i mmap =>
    obtain ⟨w, hmove, rfl⟩ := Option.map_eq_some_iff.1 hstep
    refine ⟨h.written, fun j => ?_⟩
    rcases eq_or_ne j i with rfl | hne
    · change AttacherInv fd m (build j) s.stores (Function.update s.workers j w j)
      rw [Function.update_self]
      exact (h.workers j).move hfd h.written hmove
    · change AttacherInv fd m (build j) s.stores (Function.update s.workers i w j)
      rw [Function.update_of_ne hne]
      exact h.workers j

/-- **The run lemma.** -/
theorem attachInv_of_reachable (hfd : fd ≤ INT_MAX) (hs : (attaching fd m build).Reachable s) :
    AttachInv fd m build s := by
  refine hs.invariant ?_ fun s a t _ _ hstep h => h.step hfd hstep
  rintro _ rfl
  exact ⟨⟨fun hle => absurd hle (by simp), fun hle => absurd hle (by simp), rfl⟩, fun i =>
    ⟨fun hlooks => (by cases hlooks), fun hmapped => absurd rfl hmapped, fun d hd => (by cases hd),
      fun _ => .inl rfl, fun _ => rfl⟩⟩

/-- In a run from a complete header on, every access of a worker brings its decision closer. -/
theorem moves_add_rank_le (i : κ) {labels : List (AttachStep κ)} (hstores : s.stores = 3)
    (hmagic : s.header.magic ≠ 0) (hrun : (attaching fd m build).exec s labels = some t) :
    labels.countP (fun a => a.mover = some i) + (t.workers i).point.rank ≤
      (s.workers i).point.rank := by
  induction labels generalizing s with
  | nil =>
    obtain rfl := Option.some.inj hrun
    simp
  | cons a labels ih =>
    rw [Machine.exec_cons, Option.bind_eq_some_iff] at hrun
    obtain ⟨s', hstep, hrun⟩ := hrun
    cases a with
    | store =>
      change attachStep fd m build s .store = some s' at hstep
      rw [attachStep, hstores] at hstep
      cases hstep
    | move j mmap =>
      obtain ⟨w, hmove, rfl⟩ := Option.map_eq_some_iff.1 hstep
      have hstores' : ({ s with workers := Function.update s.workers j w } : Attaching κ).stores =
          3 := hstores
      have hrest := ih hstores' hmagic hrun
      dsimp only at hrest
      rcases eq_or_ne i j with rfl | hne
      · rw [Function.update_self] at hrest
        have hcloser := rank_move hmagic hmove
        rw [List.countP_cons_of_pos (by simp [AttachStep.mover])]
        omega
      · rw [Function.update_of_ne hne] at hrest
        rwa [List.countP_cons_of_neg (by simp [AttachStep.mover, hne.symm])]

/-- **Attaching is safe.** In every interleaving of the manager and workers of any builds:

* a worker that attaches has the manager's descriptor mapped, and its constants and its layout
  hash are the manager's;
* a worker that exits could not map the segment, or differs from the manager in one of them;
* so a worker whose layout differs from the manager's in one number does not attach;
* when the manager is done with the header no worker waits: each one that has not decided can go
  on, and decides within five accesses. -/
theorem attach_checked (hfd : fd ≤ INT_MAX) (hs : (attaching fd m build).Reachable s) (i : κ) :
    ((s.workers i).point = .attached → (s.workers i).mapped = some fd ∧ (build i).Compatible m) ∧
    ((s.workers i).point = .exited → (s.workers i).mapped ≠ none → ¬(build i).Compatible m) ∧
    (DifferOnce (build i).parts m.parts → (s.workers i).point ≠ .attached) ∧
    (s.stores = 3 → ((s.workers i).point.rank ≠ 0 → ∀ mmap,
        (attachStep fd m build s (.move i mmap)).isSome) ∧
      ∀ labels t, (attaching fd m build).exec s labels = some t →
        labels.countP (fun a => a.mover = some i) ≤ 5) := by
  have h := attachInv_of_reachable hfd hs
  obtain ⟨-, hlearnt, hmapped, hunmapped, -⟩ := h.workers i
  have hattached : (s.workers i).point = .attached →
      (s.workers i).mapped = some fd ∧ (build i).Compatible m := by
    intro hpoint
    have hne : (s.workers i).mapped ≠ none := by
      intro hnone
      rcases hunmapped hnone with hcall | hexited
      · rw [hpoint] at hcall
        cases hcall
      · rw [hpoint] at hexited
        cases hexited
    obtain ⟨d, hd⟩ := Option.ne_none_iff_exists'.1 hne
    have hcompatible := hlearnt hne
    rw [hpoint] at hcompatible
    exact ⟨hmapped d hd ▸ hd, hcompatible⟩
  refine ⟨hattached, fun hpoint hne => ?_, fun hdiffers hpoint => ?_, fun hstores => ⟨?_, ?_⟩⟩
  · have hrefused := hlearnt hne
    rwa [hpoint] at hrefused
  · exact Build.not_compatible hdiffers (hattached hpoint).2
  · intro hrank mmap
    rw [attachStep, Option.isSome_map]
    exact move_isSome hrank
  · intro labels t hrun
    have hmagic : s.header.magic ≠ 0 := by
      rw [h.written.magic, if_pos hstores]
      exact m.magic_ne_zero
    have hle := moves_add_rank_le i hstores hmagic hrun
    have hrank : (s.workers i).point.rank ≤ 5 := by
      cases (s.workers i).point <;> decide
    omega

end Steps

/-- A worker of the manager's build attaches, and one with another layout does not. -/
theorem attach_checked_rebuilt :
    ∃ s : Attaching Bool, (s.workers true).mapped = some 3 ∧ (s.workers true).point = .attached ∧
      (s.workers false).point = .exited := by
  have hread : ((attaching 3 ⟨0xDEADBEEF, by decide, 4, [64, 128]⟩ fun i : Bool =>
      ⟨0xDEADBEEF, by decide, 4, [64, if i then 128 else 192]⟩).exec {}
      [.move true true, .store, .move true true, .store, .store, .move true true, .move false true,
        .move true true, .move true true, .move false true, .move false true, .move true true,
        .move false true, .move false true]).map
      (fun s => ((s.workers true).point, (s.workers false).point)) = some (.attached, .exited) := by
    decide +kernel
  obtain ⟨s, hrun, hvalues⟩ := Option.map_eq_some_iff.1 hread
  obtain ⟨hattached, hexited⟩ := Prod.mk.inj hvalues
  have hs := Machine.Reachable.exec (.init rfl) _ hrun
  exact ⟨s, ((attach_checked (by decide) hs true).1 hattached).1, hattached, hexited⟩

end Common

end LowLatencyPipeline
