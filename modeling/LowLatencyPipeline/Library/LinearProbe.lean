import Mathlib.Algebra.BigOperators.Group.Finset.Basic
import Mathlib.Algebra.Order.BigOperators.Group.Finset
import Mathlib.Data.Nat.Find

/-!
# Linear probing with backward-shift deletion

A cyclic table of `N` slots holds entries with keys; an entry belongs at the slot its key
hashes to (`home`) and lives at the first free slot found from there. This file has no program
in it: slots are a function `ℕ → Option α` read below `N`.

* `dist N a b` is the number of steps from slot `a` forward to slot `b`.
* `scan stop start fuel` is the probe loop, which leaves at the first slot where `stop` holds.
* `Probed` is the table invariant: no free slot lies between an entry's home and its slot, and
  no key occurs twice. Under it the lookup loop leaves at the entry with the key, or at a free
  slot when there is none (`Probed.scan_key`, `Probed.scan_absent`), and the insertion loop
  leaves at a slot that can take the new entry (`Probed.insert`).
* `shiftBack` is the deletion loop: it walks the cluster after the freed slot and moves back
  every entry whose way from home passes the hole. `Probed.erase` says that it ends, keeps the
  invariant and loses exactly the erased entry.

The entries are counted by `content`, a multiset, so that sums over a table follow its updates.
-/

namespace LowLatencyPipeline

namespace LinearProbe

universe u v

variable {α : Type u} {κ : Type v}

/-! ### Cyclic distance -/

/-- The steps from slot `a` forward to slot `b` in a cycle of `N` slots. -/
def dist (N a b : ℕ) : ℕ := if a ≤ b then b - a else b + N - a

section Dist

variable {N a b c : ℕ}

theorem dist_lt (ha : a < N) (hb : b < N) : dist N a b < N := by
  unfold dist
  split_ifs <;> omega

@[simp]
theorem dist_self : dist N a a = 0 := by simp [dist]

theorem eq_of_dist_eq (ha : a < N) (hb : b < N) (hc : c < N) (h : dist N a b = dist N a c) :
    b = c := by
  unfold dist at h
  split_ifs at h <;> omega

/-- Walking `dist N a b` steps from `a` ends at `b`. -/
theorem add_dist_mod (ha : a < N) (hb : b < N) : (a + dist N a b) % N = b := by
  unfold dist
  split_ifs with h
  · rw [Nat.add_sub_cancel' h, Nat.mod_eq_of_lt hb]
  · rw [show a + (b + N - a) = b + N by omega, Nat.add_mod_right, Nat.mod_eq_of_lt hb]

theorem add_mod_eq_ite (ha : a < N) (hb : b < N) :
    (a + b) % N = if a + b < N then a + b else a + b - N := by
  split_ifs with h
  · exact Nat.mod_eq_of_lt h
  · rw [Nat.mod_eq_sub_mod (by omega), Nat.mod_eq_of_lt (by omega)]

/-- The slot `j` steps from `a` is at distance `j`. -/
theorem dist_add_mod (ha : a < N) (hb : b < N) : dist N a ((a + b) % N) = b := by
  rw [add_mod_eq_ite ha hb]
  unfold dist
  split_ifs <;> omega

/-- The distance as masked subtraction of 32-bit positions computes it. -/
theorem dist_eq_sub_mod (ha : a < N) (hb : b < N) (hN : N ∣ 2 ^ 32) :
    (b + 2 ^ 32 - a) % 2 ^ 32 % N = dist N a b := by
  have hle : N ≤ 2 ^ 32 := Nat.le_of_dvd (by omega) hN
  rw [Nat.mod_mod_of_dvd _ hN]
  obtain ⟨k, hk⟩ := hN
  unfold dist
  split_ifs with h
  · rw [show b + 2 ^ 32 - a = b - a + N * k by omega, Nat.add_mul_mod_self_left,
      Nat.mod_eq_of_lt (by omega)]
  · obtain ⟨m, rfl⟩ : ∃ m, k = m + 1 := ⟨k - 1, by cases k <;> omega⟩
    rw [show b + 2 ^ 32 - a = b + N - a + N * m by rw [hk, Nat.mul_succ]; omega,
      Nat.add_mul_mod_self_left, Nat.mod_eq_of_lt (by omega)]

/-- The two ways to ask whether the hole lies on the way from home to a slot. -/
theorem dist_home_lt_iff (ha : a < N) (hb : b < N) (hc : c < N) (hne : b ≠ c) :
    dist N a b < dist N a c ↔ dist N b c ≤ dist N a c := by
  unfold dist
  split_ifs <;> omega

variable {h x : ℕ}

/-- A slot between `h` and `b` is on the way from `a` to `b` when `h` is. -/
theorem dist_lt_of_between (ha : a < N) (hh : h < N) (hx : x < N) (hb : b < N)
    (hway : dist N a h < dist N a b) (hbtw : dist N h x < dist N h b) :
    dist N a x < dist N a b := by
  unfold dist at *
  split_ifs at * <;> omega

/-- Three slots in order from `a` on: the middle one is between the others. -/
theorem between_of_dist_lt (ha : a < N) (hh : h < N) (hx : x < N) (hb : b < N)
    (hhx : dist N a h < dist N a x) (hxb : dist N a x < dist N a b) :
    dist N h x < dist N h b := by
  unfold dist at *
  split_ifs at * <;> omega

/-- From `h` on, a later slot comes before an earlier one. -/
theorem between_of_dist_lt_wrap (ha : a < N) (hh : h < N) (hx : x < N)
    (hhx : dist N a h < dist N a x) (hbh : dist N a b < dist N a h) :
    dist N h x < dist N h b := by
  unfold dist at *
  split_ifs at * <;> omega

end Dist

/-! ### The probe loop -/

/-- `for (pos = start;; ++pos) if (stop(pos % N)) return pos % N`, for at most `fuel` rounds;
`none` when the loop is still running then. -/
def scan (N : ℕ) (stop : ℕ → Bool) (start : ℕ) : ℕ → Option ℕ
  | 0 => none
  | fuel + 1 => if stop (start % N) then some (start % N) else scan N stop (start + 1) fuel

/-- The loop leaves at the first slot where it may. -/
theorem scan_eq_some {N : ℕ} {stop : ℕ → Bool} {start fuel j : ℕ} (hj : j < fuel)
    (hstop : stop ((start + j) % N) = true)
    (hgo : ∀ i < j, stop ((start + i) % N) = false) :
    scan N stop start fuel = some ((start + j) % N) := by
  induction fuel generalizing start j with
  | zero => exact absurd hj (Nat.not_lt_zero j)
  | succ fuel ih =>
    cases j with
    | zero => simp only [scan, add_zero] at hstop ⊢; rw [if_pos hstop]
    | succ j =>
      have h0 : stop (start % N) = false := by simpa using hgo 0 (Nat.succ_pos j)
      rw [scan, if_neg (by simp [h0]), ih (j := j) (by omega)]
      · rw [Nat.add_right_comm start 1 j]
        rfl
      · rw [Nat.add_right_comm start 1 j]
        exact hstop
      · intro i hi
        rw [Nat.add_right_comm start 1 i]
        exact hgo (i + 1) (by omega)

/-- Where the loop left, it could. -/
theorem scan_stop {N : ℕ} {stop : ℕ → Bool} {start fuel q : ℕ}
    (h : scan N stop start fuel = some q) : stop q = true := by
  induction fuel generalizing start with
  | zero => cases h
  | succ fuel ih =>
    rw [scan] at h
    split_ifs at h with hstop
    · exact Option.some.inj h ▸ hstop
    · exact ih h

theorem scan_lt {N : ℕ} (hN : 0 < N) {stop : ℕ → Bool} {start fuel q : ℕ}
    (h : scan N stop start fuel = some q) : q < N := by
  induction fuel generalizing start with
  | zero => cases h
  | succ fuel ih =>
    rw [scan] at h
    split_ifs at h
    · exact Option.some.inj h ▸ Nat.mod_lt _ hN
    · exact ih h

/-- The loop ends within one round trip when it can end at all. -/
theorem exists_scan_eq_some {N : ℕ} (stop : ℕ → Bool) {start p : ℕ} (hstart : start < N)
    (hp : p < N) (hstop : stop p = true) :
    ∃ q < N, scan N stop start N = some q ∧ stop q = true ∧
      ∀ i < N, dist N start i < dist N start q → stop i = false := by
  have hex : ∃ j, stop ((start + j) % N) = true :=
    ⟨dist N start p, by rwa [add_dist_mod hstart hp]⟩
  classical
  have hle : Nat.find hex < N :=
    (Nat.find_min' hex (by rwa [add_dist_mod hstart hp])).trans_lt (dist_lt hstart hp)
  have hgo : ∀ i < Nat.find hex, stop ((start + i) % N) = false := fun i hi => by
    simpa using Nat.find_min hex hi
  refine ⟨_, Nat.mod_lt _ (by omega), scan_eq_some hle (Nat.find_spec hex) hgo,
    Nat.find_spec hex, fun i hi hlt => ?_⟩
  rw [dist_add_mod hstart hle] at hlt
  simpa [add_dist_mod hstart hi] using hgo _ hlt

/-! ### The entries of a table -/

/-- The entries in the slots below `N`. -/
def content (N : ℕ) (slots : ℕ → Option α) : Multiset α :=
  ∑ i ∈ Finset.range N, (slots i).elim 0 fun e => {e}

section Content

variable {N p : ℕ} {slots : ℕ → Option α} {e : α}

theorem mem_content : e ∈ content N slots ↔ ∃ p < N, slots p = some e := by
  simp only [content, Multiset.mem_sum, Finset.mem_range]
  refine exists_congr fun p => and_congr_right fun _ => ?_
  cases h : slots p with
  | none => simp
  | some e' => simp [eq_comm]

/-- Freeing a slot loses its entry. -/
theorem content_eq_cons (hp : p < N) (h : slots p = some e) :
    content N slots = e ::ₘ content N (Function.update slots p none) := by
  have hmem : p ∈ Finset.range N := Finset.mem_range.mpr hp
  rw [content, content, ← Finset.add_sum_erase _ _ hmem, ← Finset.add_sum_erase _ _ hmem, h]
  simp only [Option.elim_some, Function.update_self, Option.elim_none, zero_add,
    Multiset.singleton_add]
  congr 1
  refine Finset.sum_congr rfl fun i hi => ?_
  rw [Function.update_of_ne (Finset.ne_of_mem_erase hi)]

/-- Filling a free slot gains the entry. -/
theorem content_update_some (hp : p < N) (h : slots p = none) :
    content N (Function.update slots p (some e)) = e ::ₘ content N slots := by
  rw [content_eq_cons hp (Function.update_self p (some e) slots), Function.update_idem, ← h,
    Function.update_eq_self]

/-- Exchanging an entry. -/
theorem content_exchange (hp : p < N) (h : slots p = some e) (e' : α) :
    e ::ₘ content N (Function.update slots p (some e')) = e' ::ₘ content N slots := by
  rw [content_eq_cons hp h, Multiset.cons_swap, ← content_update_some hp
    (Function.update_self p none slots), Function.update_idem]

/-- A table with fewer than `N` entries has a free slot. -/
theorem exists_free (h : (content N slots).card < N) : ∃ p < N, slots p = none := by
  by_contra hno
  push Not at hno
  have hone : ∀ i ∈ Finset.range N, ((slots i).elim 0 fun e => ({e} : Multiset α)).card = 1 := by
    intro i hi
    obtain ⟨e, he⟩ := Option.ne_none_iff_exists'.mp (hno i (Finset.mem_range.mp hi))
    simp [he]
  rw [content, Multiset.card_sum, Finset.sum_congr rfl hone] at h
  simp at h

/-- A table of `N` slots has at most `N` entries. -/
theorem card_content_le : (content N slots).card ≤ N := by
  have hone : ∀ i ∈ Finset.range N, ((slots i).elim 0 fun e => ({e} : Multiset α)).card ≤ 1 := by
    intro i _
    cases slots i <;> simp
  rw [content, Multiset.card_sum]
  exact (Finset.sum_le_sum hone).trans (by simp)

end Content

/-! ### The table invariant -/

/-- **The table invariant**: no free slot lies on the way from an entry's home to its slot, and
no key occurs twice. -/
structure Probed (N : ℕ) (key : α → κ) (home : κ → ℕ) (slots : ℕ → Option α) : Prop where
  chain : ∀ p < N, ∀ e, slots p = some e → ∀ q < N,
    dist N (home (key e)) q < dist N (home (key e)) p → slots q ≠ none
  unique : ∀ p < N, ∀ q < N, ∀ e e', slots p = some e → slots q = some e' → key e = key e' → p = q

/-- The exit test of the lookup loop: a free slot, or the key. -/
def atKey [DecidableEq κ] (key : α → κ) (slots : ℕ → Option α) (k : κ) (i : ℕ) : Bool :=
  (slots i).elim true fun e => key e = k

section Probed

variable {N : ℕ} {key : α → κ} {home : κ → ℕ} {slots : ℕ → Option α}

theorem Probed.empty : Probed N key home fun _ => none :=
  ⟨fun _ _ _ h => absurd h (by simp), fun _ _ _ _ _ _ h => absurd h (by simp)⟩

/-- The other entries of a table have other keys. -/
theorem Probed.key_ne (h : Probed N key home slots) {e : α} {rest : Multiset α}
    (hcontent : content N slots = e ::ₘ rest) : ∀ d ∈ rest, key d ≠ key e := by
  intro d hd hkey
  obtain ⟨p, hp, hpe⟩ := mem_content.mp (hcontent ▸ Multiset.mem_cons_self e rest)
  have hrest : content N (Function.update slots p none) = rest :=
    (Multiset.cons_inj_right e).1 ((content_eq_cons hp hpe).symm.trans hcontent)
  obtain ⟨q, hq, hqd⟩ := mem_content.mp (hrest ▸ hd)
  have hqp : q ≠ p := fun heq => by simp [heq] at hqd
  rw [Function.update_of_ne hqp] at hqd
  exact hqp (h.unique q hq p hp d e hqd hpe hkey)

/-- No two entries of a table have the same key. -/
theorem Probed.nodup_keys (h : Probed N key home slots) :
    ((content N slots).map key).Nodup := by
  rw [Multiset.nodup_iff_ne_cons_cons]
  intro k keys hkeys
  have hk : k ∈ (content N slots).map key := hkeys ▸ Multiset.mem_cons_self k _
  obtain ⟨e, he, rfl⟩ := Multiset.mem_map.1 hk
  obtain ⟨rest, hrest⟩ := Multiset.exists_cons_of_mem he
  rw [hrest, Multiset.map_cons] at hkeys
  have htail : key e ∈ rest.map key :=
    (Multiset.cons_inj_right _).1 hkeys ▸ Multiset.mem_cons_self _ _
  obtain ⟨d, hd, hkey⟩ := Multiset.mem_map.1 htail
  exact h.key_ne hrest d hd hkey

/-- Two entries of a table with one key are the same entry. -/
theorem Probed.eq_of_key_eq (h : Probed N key home slots) {e e' : α} (he : e ∈ content N slots)
    (he' : e' ∈ content N slots) (hk : key e = key e') : e = e' := by
  obtain ⟨p, hp, hpe⟩ := mem_content.mp he
  obtain ⟨q, hq, hqe⟩ := mem_content.mp he'
  obtain rfl := h.unique p hp q hq e e' hpe hqe hk
  exact Option.some_injective _ (hpe.symm.trans hqe)

section Lookup

variable [DecidableEq κ]

/-- The lookup of a stored key leaves at its entry. -/
theorem Probed.scan_key (h : Probed N key home slots) (hhome : ∀ k, home k < N) {p : ℕ}
    (hp : p < N) {e : α} (he : slots p = some e) :
    scan N (atKey key slots (key e)) (home (key e)) N = some p := by
  have hstop : atKey key slots (key e) p = true := by simp [atKey, he]
  obtain ⟨q, hq, hscan, hqstop, hgo⟩ := exists_scan_eq_some _ (hhome (key e)) hp hstop
  rw [hscan]
  congr 1
  rcases lt_trichotomy (dist N (home (key e)) q) (dist N (home (key e)) p) with hlt | heq | hgt
  · -- the loop cannot leave earlier: those slots are taken, by other keys
    obtain ⟨e', he'⟩ := Option.ne_none_iff_exists'.mp (h.chain p hp e he q hq hlt)
    have hkey : key e' = key e := by simpa [atKey, he'] using hqstop
    exact h.unique q hq p hp e' e he' he hkey
  · exact eq_of_dist_eq (hhome _) hq hp heq
  · exact absurd (hgo p hp hgt) (by simp [hstop])

/-- The lookup of a key that is not stored leaves at a free slot. -/
theorem Probed.scan_absent (hhome : ∀ k, home k < N) {k : κ}
    (habs : ∀ e ∈ content N slots, key e ≠ k) (hfree : ∃ p < N, slots p = none) :
    ∃ q < N, scan N (atKey key slots k) (home k) N = some q ∧ slots q = none := by
  obtain ⟨p, hp, hpn⟩ := hfree
  obtain ⟨q, hq, hscan, hqstop, -⟩ := exists_scan_eq_some (atKey key slots k) (hhome k) hp
    (by simp [atKey, hpn])
  refine ⟨q, hq, hscan, ?_⟩
  cases hs : slots q with
  | none => rfl
  | some e =>
    have hkey : key e = k := by simpa [atKey, hs] using hqstop
    exact absurd hkey (habs e (mem_content.mpr ⟨q, hq, hs⟩))

end Lookup

/-- The insertion loop leaves at a free slot, and the entry may be put there. -/
theorem Probed.insert (h : Probed N key home slots) (hhome : ∀ k, home k < N) {e : α}
    (habs : ∀ e' ∈ content N slots, key e' ≠ key e) (hfree : ∃ p < N, slots p = none) :
    ∃ q < N, scan N (fun i => (slots i).isNone) (home (key e)) N = some q ∧ slots q = none ∧
      Probed N key home (Function.update slots q (some e)) ∧
      content N (Function.update slots q (some e)) = e ::ₘ content N slots := by
  obtain ⟨p, hp, hpn⟩ := hfree
  obtain ⟨q, hq, hscan, hqstop, hgo⟩ := exists_scan_eq_some (fun i => (slots i).isNone)
    (hhome (key e)) hp (by simp [hpn])
  have hqn : slots q = none := by simpa using hqstop
  refine ⟨q, hq, hscan, hqn,
    ⟨fun p' hp' e' he' i hi hlt => ?_, fun p' hp' i hi e₁ e₂ h₁ h₂ hk => ?_⟩,
    content_update_some hq hqn⟩
  · rcases eq_or_ne i q with rfl | hiq
    · simp
    rw [Function.update_of_ne hiq]
    rcases eq_or_ne p' q with rfl | hpq
    · obtain rfl : e = e' := by simpa using he'
      rw [← Option.isSome_iff_ne_none]
      simpa using hgo i hi hlt
    · rw [Function.update_of_ne hpq] at he'
      exact h.chain p' hp' e' he' i hi hlt
  · -- the new key is at no other slot
    rcases eq_or_ne p' q with rfl | hpq <;> rcases eq_or_ne i p' with rfl | hip
    · rfl
    · obtain rfl : e = e₁ := by simpa using h₁
      rw [Function.update_of_ne hip] at h₂
      exact absurd hk.symm (habs e₂ (mem_content.mpr ⟨i, hi, h₂⟩))
    · rfl
    · rw [Function.update_of_ne hpq] at h₁
      rcases eq_or_ne i q with rfl | hiq
      · obtain rfl : e = e₂ := by simpa using h₂
        exact absurd hk (habs e₁ (mem_content.mpr ⟨p', hp', h₁⟩))
      · rw [Function.update_of_ne hiq] at h₂
        exact h.unique p' hp' i hi e₁ e₂ h₁ h₂ hk

end Probed

/-! ### Backward-shift deletion -/

/-- The deletion loop at slot `i`, with the hole behind it: every entry whose way from home
passes the hole moves into it, and the loop ends at the first free slot; `none` when it is
still running after `fuel` rounds. -/
def shiftBack (N : ℕ) (key : α → κ) (home : κ → ℕ) :
    ℕ → (ℕ → Option α) → ℕ → ℕ → Option (ℕ → Option α)
  | 0, _, _, _ => none
  | fuel + 1, slots, hole, i =>
    match slots i with
    | none => some slots
    | some e =>
      if dist N (home (key e)) hole < dist N (home (key e)) i then
        shiftBack N key home fuel
          (Function.update (Function.update slots hole (some e)) i none) i ((i + 1) % N)
      else shiftBack N key home fuel slots hole ((i + 1) % N)

/-- The loop invariant of `shiftBack`, seen from the slot `s` where the erased entry was: the
cluster after `s` ends at the free slot `stop`, the loop is at `i` inside it with the hole
behind, and only the entries from `i` to the end of the cluster may have the hole on their way
from home. -/
structure Shifting (N : ℕ) (key : α → κ) (home : κ → ℕ) (s stop : ℕ) (slots : ℕ → Option α)
    (hole i : ℕ) : Prop where
  hole_lt : hole < N
  i_lt : i < N
  stop_lt : stop < N
  hole_free : slots hole = none
  stop_free : slots stop = none
  hole_behind : dist N s hole < dist N s i
  i_le_stop : dist N s i ≤ dist N s stop
  cluster : ∀ p < N, dist N s hole < dist N s p → dist N s p < dist N s stop → slots p ≠ none
  chain : ∀ p < N, ∀ e, slots p = some e → ∀ q < N,
    dist N (home (key e)) q < dist N (home (key e)) p →
      slots q ≠ none ∨ (q = hole ∧ dist N s i ≤ dist N s p)
  unique : ∀ p < N, ∀ q < N, ∀ e e', slots p = some e → slots q = some e' → key e = key e' → p = q

section Shifting

variable {N : ℕ} {key : α → κ} {home : κ → ℕ} {s stop hole i : ℕ} {slots : ℕ → Option α}

/-- The next slot is one step further, unless the round trip is complete. -/
theorem dist_succ_mod {a b c : ℕ} (ha : a < N) (hb : b < N) (hc : c < N)
    (h : dist N a b < dist N a c) : dist N a ((b + 1) % N) = dist N a b + 1 := by
  have hlt := dist_lt ha hc
  rw [add_mod_eq_ite hb (by omega)]
  unfold dist at *
  split_ifs at * <;> omega

/-- At the free slot the invariant is the table invariant: the way of an entry behind the
cluster that passes the hole would pass that free slot too. -/
theorem Shifting.probed (h : Shifting N key home s stop slots hole i) (hhome : ∀ k, home k < N)
    (hs : s < N) (hi : slots i = none) : Probed N key home slots := by
  have hstop : dist N s i = dist N s stop := by
    refine le_antisymm h.i_le_stop (Nat.le_of_not_lt fun hlt => ?_)
    exact h.cluster i h.i_lt h.hole_behind hlt hi
  refine ⟨fun p hp e he q hq hlt => ?_, h.unique⟩
  rcases h.chain p hp e he q hq hlt with hok | ⟨rfl, hle⟩
  · exact hok
  · have hpi : p ≠ i := fun hpi => by simp [hpi, hi] at he
    have hne : dist N s p ≠ dist N s i := fun heq => hpi (eq_of_dist_eq hs hp h.i_lt heq)
    have hway : dist N (home (key e)) i < dist N (home (key e)) p :=
      dist_lt_of_between (hhome _) h.hole_lt h.i_lt hp hlt
        (between_of_dist_lt hs h.hole_lt h.i_lt hp h.hole_behind (lt_of_le_of_ne hle hne.symm))
    rcases h.chain p hp e he i h.i_lt hway with hii | ⟨rfl, -⟩
    · exact absurd hi hii
    · exact absurd h.hole_behind (lt_irrefl _)

/-- Passing over an entry whose way from home does not pass the hole. -/
theorem Shifting.skip (h : Shifting N key home s stop slots hole i) (hs : s < N) {e : α}
    (hi : slots i = some e)
    (hway : ¬ dist N (home (key e)) hole < dist N (home (key e)) i) :
    Shifting N key home s stop slots hole ((i + 1) % N) := by
  have hlt : dist N s i < dist N s stop := by
    refine lt_of_le_of_ne h.i_le_stop fun heq => ?_
    rw [eq_of_dist_eq hs h.i_lt h.stop_lt heq, h.stop_free] at hi
    exact absurd hi (by simp)
  have hnext := dist_succ_mod hs h.i_lt h.stop_lt hlt
  refine ⟨h.hole_lt, Nat.mod_lt _ (by omega), h.stop_lt, h.hole_free, h.stop_free, ?_, ?_,
    h.cluster, fun p hp e' he' q hq hq' => ?_, h.unique⟩
  · have := h.hole_behind
    omega
  · omega
  · rcases h.chain p hp e' he' q hq hq' with hok | ⟨rfl, hle⟩
    · exact .inl hok
    · refine .inr ⟨rfl, ?_⟩
      rcases eq_or_ne p i with rfl | hpi
      · obtain rfl : e = e' := Option.some_injective _ (hi.symm.trans he')
        exact absurd hq' hway
      · have hne : dist N s p ≠ dist N s i := fun heq => hpi (eq_of_dist_eq hs hp h.i_lt heq)
        omega

/-- Moving an entry back into the hole: its old slot is the new hole. -/
theorem Shifting.move (h : Shifting N key home s stop slots hole i) (hhome : ∀ k, home k < N)
    (hs : s < N) {e : α} (hi : slots i = some e)
    (hway : dist N (home (key e)) hole < dist N (home (key e)) i) :
    Shifting N key home s stop
      (Function.update (Function.update slots hole (some e)) i none) i ((i + 1) % N) := by
  have hlt : dist N s i < dist N s stop := by
    refine lt_of_le_of_ne h.i_le_stop fun heq => ?_
    rw [eq_of_dist_eq hs h.i_lt h.stop_lt heq, h.stop_free] at hi
    exact absurd hi (by simp)
  have hnext := dist_succ_mod hs h.i_lt h.stop_lt hlt
  have hbehind := h.hole_behind
  have hhi : hole ≠ i := fun heq => by simp [heq] at hbehind
  have hstopi : stop ≠ i := fun heq => by simp [heq] at hlt
  have hstoph : stop ≠ hole := fun heq => by rw [heq] at hlt; omega
  -- the new table, slot by slot
  have hat : ∀ p, Function.update (Function.update slots hole (some e)) i none p =
      if p = i then none else if p = hole then some e else slots p := by
    intro p
    simp only [Function.update_apply]
  refine ⟨h.i_lt, Nat.mod_lt _ (by omega), h.stop_lt, by simp, ?_, by omega, by omega,
    fun p hp hp₁ hp₂ => ?_, fun p hp e' he' q hq hlt' => ?_, fun p hp q hq e₁ e₂ h₁ h₂ hk => ?_⟩
  · rw [hat, if_neg hstopi, if_neg hstoph]
    exact h.stop_free
  · have hpi : p ≠ i := fun heq => by simp [heq] at hp₁
    have hph : p ≠ hole := fun heq => by rw [heq] at hp₁; omega
    rw [hat, if_neg hpi, if_neg hph]
    exact h.cluster p hp (by omega) hp₂
  · rw [hat] at he' ⊢
    rcases eq_or_ne p i with rfl | hpi
    · simp at he'
    rw [if_neg hpi] at he'
    rcases eq_or_ne p hole with rfl | hph
    · -- the moved entry: its way is now a part of what it was
      obtain rfl : e = e' := by simpa using he'
      have hqi : q ≠ i := fun heq => by rw [heq] at hlt'; omega
      have hqh : q ≠ p := fun heq => by simp [heq] at hlt'
      rcases h.chain i h.i_lt e hi q hq (by omega) with hok | ⟨rfl, -⟩
      · left
        rwa [if_neg hqi, if_neg hqh]
      · exact absurd rfl hqh
    · rw [if_neg hph] at he'
      rcases eq_or_ne q i with rfl | hqi
      · -- an entry whose way passes the new hole is still to be visited
        refine .inr ⟨rfl, ?_⟩
        have hne : dist N s p ≠ dist N s q := fun heq => hpi (eq_of_dist_eq hs hp h.i_lt heq)
        by_contra hle
        have hstopway : dist N (home (key e')) stop < dist N (home (key e')) p :=
          dist_lt_of_between (hhome _) h.i_lt h.stop_lt hp hlt'
            (between_of_dist_lt_wrap hs h.i_lt h.stop_lt hlt (by omega))
        rcases h.chain p hp e' he' stop h.stop_lt hstopway with hne' | ⟨heq, -⟩
        · exact hne' h.stop_free
        · exact hstoph heq
      · rw [if_neg hqi]
        rcases eq_or_ne q hole with rfl | hqh
        · left
          simp
        · rw [if_neg hqh]
          rcases h.chain p hp e' he' q hq hlt' with hok | ⟨heq, -⟩
          · exact .inl hok
          · exact absurd heq hqh
  · rw [hat] at h₁ h₂
    split_ifs at h₁ h₂ with hp₁ hp₂ hq₁ hq₂ hq₁ hq₂
    · rw [hp₂, hq₂]
    · obtain rfl : e = e₁ := by simpa using h₁
      exact absurd (h.unique i h.i_lt q hq e e₂ hi h₂ hk).symm hq₁
    · obtain rfl : e = e₂ := by simpa using h₂
      exact absurd (h.unique p hp i h.i_lt e₁ e h₁ hi hk) hp₁
    · exact h.unique p hp q hq e₁ e₂ h₁ h₂ hk

/-- Moving an entry loses nothing. -/
theorem content_move (hhole : hole < N) (hilt : i < N) {e : α} (hi : slots i = some e)
    (hfree : slots hole = none) :
    content N (Function.update (Function.update slots hole (some e)) i none) =
      content N slots := by
  have hne : i ≠ hole := fun heq => by simp [heq, hfree] at hi
  have hi' : Function.update slots hole (some e) i = some e := by
    rw [Function.update_of_ne hne, hi]
  have hcons := content_eq_cons hilt hi'
  rw [content_update_some hhole hfree] at hcons
  exact ((Multiset.cons_inj_right e).mp hcons).symm

/-- Whatever the table, a deletion loop that ends has lost no entry. -/
theorem content_shiftBack {fuel : ℕ} {slots' : ℕ → Option α} (hhole : hole < N) (hilt : i < N)
    (hfree : slots hole = none)
    (h : LinearProbe.shiftBack N key home fuel slots hole i = some slots') :
    content N slots' = content N slots := by
  induction fuel generalizing slots hole i with
  | zero => cases h
  | succ fuel ih =>
    have hnext : (i + 1) % N < N := Nat.mod_lt _ (Nat.zero_lt_of_lt hhole)
    rw [LinearProbe.shiftBack] at h
    cases hi : slots i with
    | none =>
      rw [hi] at h
      rw [Option.some.inj h]
    | some e =>
      rw [hi] at h
      dsimp only at h
      split_ifs at h
      · exact (ih hilt hnext (Function.update_self _ _ _) h).trans
          (content_move hhole hilt hi hfree)
      · exact ih hhole hnext hfree h

/-- **The deletion loop** ends, in a table with the same entries. -/
theorem Shifting.shiftBack (h : Shifting N key home s stop slots hole i)
    (hhome : ∀ k, home k < N) (hs : s < N) (fuel : ℕ)
    (hfuel : dist N s stop < dist N s i + fuel) :
    ∃ slots', LinearProbe.shiftBack N key home fuel slots hole i = some slots' ∧
      Probed N key home slots' ∧ content N slots' = content N slots := by
  induction fuel generalizing slots hole i with
  | zero =>
    have := h.i_le_stop
    omega
  | succ fuel ih =>
    rw [LinearProbe.shiftBack]
    cases hi : slots i with
    | none => exact ⟨slots, rfl, h.probed hhome hs hi, rfl⟩
    | some e =>
      have hlt : dist N s i < dist N s stop := by
        refine lt_of_le_of_ne h.i_le_stop fun heq => ?_
        rw [eq_of_dist_eq hs h.i_lt h.stop_lt heq, h.stop_free] at hi
        exact absurd hi (by simp)
      have hnext := dist_succ_mod hs h.i_lt h.stop_lt hlt
      dsimp only
      split_ifs with hway
      · obtain ⟨slots', hrun, hprobed, hcont⟩ := ih (h.move hhome hs hi hway) (by omega)
        exact ⟨slots', hrun, hprobed,
          hcont.trans (content_move h.hole_lt h.i_lt hi h.hole_free)⟩
      · exact ih (h.skip hs hi hway) (by omega)

/-- Freeing a slot of a table with a further free slot starts the loop. -/
theorem Probed.shifting (h : Probed N key home slots) (hs : s < N) {e : α}
    (he : slots s = some e) (hfree : ∃ p < N, slots p = none) :
    ∃ stop, Shifting N key home s stop (Function.update slots s none) s ((s + 1) % N) := by
  obtain ⟨p, hp, hpn⟩ := hfree
  -- the first free slot after `s` ends the cluster
  have hex : ∃ d, 0 < d ∧ d < N ∧ slots ((s + d) % N) = none := by
    refine ⟨dist N s p, Nat.pos_of_ne_zero fun h0 => ?_, dist_lt hs hp, by rwa [add_dist_mod hs hp]⟩
    have hsp : s = p := eq_of_dist_eq hs hs hp (by rw [dist_self, h0])
    rw [← hsp, he] at hpn
    exact absurd hpn (by simp)
  classical
  obtain ⟨hpos, hlt, hnone⟩ := Nat.find_spec hex
  have hbefore : ∀ q < N, 0 < dist N s q → dist N s q < Nat.find hex → slots q ≠ none := by
    intro q hq h0 hqlt hqn
    exact Nat.find_min hex hqlt ⟨h0, dist_lt hs hq, by rwa [add_dist_mod hs hq]⟩
  have hstop : dist N s ((s + Nat.find hex) % N) = Nat.find hex := dist_add_mod hs hlt
  have hnext : dist N s ((s + 1) % N) = 1 := dist_add_mod hs (by omega)
  have hne : (s + Nat.find hex) % N ≠ s := fun heq => by
    rw [heq, dist_self] at hstop
    omega
  refine ⟨(s + Nat.find hex) % N, hs, Nat.mod_lt _ (by omega), Nat.mod_lt _ (by omega), by simp,
    ?_, ?_, ?_, fun q hq h₁ h₂ => ?_, fun q hq e' he' r hr hway => ?_,
    fun q hq r hr e₁ e₂ h₁ h₂ hk => ?_⟩
  · rwa [Function.update_of_ne hne]
  · rw [dist_self, hnext]
    exact Nat.one_pos
  · rw [hstop, hnext]
    exact hpos
  · rw [dist_self] at h₁
    have hqs : q ≠ s := fun heq => by simp [heq] at h₁
    rw [Function.update_of_ne hqs]
    exact hbefore q hq h₁ (by rwa [hstop] at h₂)
  · have hqs : q ≠ s := fun heq => by simp [heq] at he'
    rw [Function.update_of_ne hqs] at he'
    rcases eq_or_ne r s with rfl | hrs
    · refine .inr ⟨rfl, ?_⟩
      rw [hnext]
      refine Nat.pos_of_ne_zero fun h0 => hqs ?_
      exact eq_of_dist_eq hs hq hs (by rw [h0, dist_self])
    · rw [Function.update_of_ne hrs]
      exact .inl (h.chain q hq e' he' r hr hway)
  · have hqs : q ≠ s := fun heq => by simp [heq] at h₁
    have hrs : r ≠ s := fun heq => by simp [heq] at h₂
    rw [Function.update_of_ne hqs] at h₁
    rw [Function.update_of_ne hrs] at h₂
    exact h.unique q hq r hr e₁ e₂ h₁ h₂ hk

/-- **Erasing an entry.** From a table with a further free slot, freeing the entry's slot and
shifting back ends, keeps the invariant and loses exactly that entry. -/
theorem Probed.erase (h : Probed N key home slots) (hhome : ∀ k, home k < N) (hs : s < N) {e : α}
    (he : slots s = some e) (hfree : ∃ p < N, slots p = none) :
    ∃ slots', LinearProbe.shiftBack N key home N (Function.update slots s none) s ((s + 1) % N)
        = some slots' ∧
      Probed N key home slots' ∧ content N slots = e ::ₘ content N slots' := by
  obtain ⟨stop, hshift⟩ := h.shifting hs he hfree
  have hlt := dist_lt hs hshift.stop_lt
  obtain ⟨slots', hrun, hprobed, hcont⟩ := hshift.shiftBack hhome hs N (by omega)
  exact ⟨slots', hrun, hprobed, by rw [hcont]; exact content_eq_cons hs he⟩

/-- Exchanging an entry for one with the same key keeps the invariant. -/
theorem Probed.exchange (h : Probed N key home slots) {e e' : α}
    (he : slots s = some e) (hk : key e' = key e) :
    Probed N key home (Function.update slots s (some e')) := by
  -- every entry of the new table has the key of the entry that was there
  have hold : ∀ p d, Function.update slots s (some e') p = some d →
      ∃ d', slots p = some d' ∧ key d' = key d := by
    intro p d hd
    rcases eq_or_ne p s with rfl | hps
    · obtain rfl : e' = d := by simpa using hd
      exact ⟨e, he, hk.symm⟩
    · exact ⟨d, by rwa [Function.update_of_ne hps] at hd, rfl⟩
  refine ⟨fun p hp d hd q hq hway => ?_, fun p hp q hq d₁ d₂ h₁ h₂ hkey => ?_⟩
  · obtain ⟨d', hd', hkey⟩ := hold p d hd
    rcases eq_or_ne q s with rfl | hqs
    · simp
    · rw [Function.update_of_ne hqs]
      exact h.chain p hp d' hd' q hq (by rwa [hkey])
  · obtain ⟨d₁', hd₁, hk₁⟩ := hold p d₁ h₁
    obtain ⟨d₂', hd₂, hk₂⟩ := hold q d₂ h₂
    exact h.unique p hp q hq d₁' d₂' hd₁ hd₂ (by rw [hk₁, hk₂, hkey])

end Shifting

end LinearProbe

end LowLatencyPipeline
