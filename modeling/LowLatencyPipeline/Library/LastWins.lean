import Mathlib.Data.List.Induction
import Mathlib.Data.List.Nodup

/-!
# Last-wins maps

A list of pairs in which a pair that is put in replaces the one with its key, or comes last. What a
whole history of pairs leaves (`ofHistory`) is described by the history alone: the keys are those of
the history in the order in which they came first, and the value of a key is the last one it had.
-/

namespace LowLatencyPipeline

namespace LastWins

variable {κ ν : Type*} [DecidableEq κ] {k k' : κ} {v : ν} {m history : List (κ × ν)}

/-- Put a pair in. -/
def upsert (k : κ) (v : ν) : List (κ × ν) → List (κ × ν)
  | [] => [(k, v)]
  | e :: m => if e.1 = k then (k, v) :: m else e :: upsert k v m

theorem lookup_cons [BEq κ] [LawfulBEq κ] (e : κ × ν) (m : List (κ × ν)) (k : κ) :
    (e :: m).lookup k = if k = e.1 then some e.2 else m.lookup k := by
  rw [List.lookup_cons]
  by_cases hk : k = e.1
  · rw [if_pos hk, beq_iff_eq.2 hk]
  · rw [if_neg hk, beq_false_of_ne hk]

theorem lookup_upsert [BEq κ] [LawfulBEq κ] (k k' : κ) (v : ν) (m : List (κ × ν)) :
    (upsert k v m).lookup k' = if k' = k then some v else m.lookup k' := by
  induction m with
  | nil => rw [upsert, lookup_cons]
  | cons e m ih =>
    rw [upsert]
    split_ifs with he hk hk
    · rw [lookup_cons, if_pos hk]
    · rw [lookup_cons, lookup_cons, he, if_neg hk, if_neg hk]
    · rw [lookup_cons, if_neg (fun h => he (h.symm.trans hk)), ih, if_pos hk]
    · rw [lookup_cons, lookup_cons, ih, if_neg hk]

/-- A new key comes last. -/
theorem keys_upsert [BEq κ] [LawfulBEq κ] (k : κ) (v : ν) (m : List (κ × ν)) :
    (upsert k v m).map Prod.fst =
      if k ∈ m.map Prod.fst then m.map Prod.fst else m.map Prod.fst ++ [k] := by
  induction m with
  | nil => simp [upsert]
  | cons e m ih =>
    rw [upsert]
    by_cases he : e.1 = k
    · rw [if_pos he, if_pos (by simp [he]), List.map_cons, List.map_cons, he]
    · rw [if_neg he, List.map_cons, ih, List.map_cons]
      simp only [List.mem_cons, Ne.symm he, false_or]
      split_ifs <;> rfl

theorem length_upsert [BEq κ] [LawfulBEq κ] (k : κ) (v : ν) (m : List (κ × ν)) :
    (upsert k v m).length = if k ∈ m.map Prod.fst then m.length else m.length + 1 := by
  have hkeys := congrArg List.length (keys_upsert k v m)
  rw [List.length_map] at hkeys
  rw [hkeys]
  split_ifs
  · exact List.length_map _
  · rw [List.length_append, List.length_map, List.length_singleton]

theorem upsert_of_notMem (hk : k ∉ m.map Prod.fst) : upsert k v m = m ++ [(k, v)] := by
  induction m with
  | nil => rfl
  | cons e m ih =>
    rw [List.map_cons, List.mem_cons, not_or] at hk
    rw [upsert, if_neg (Ne.symm hk.1), ih hk.2, List.cons_append]

/-- What `upsert` puts in, or was there. -/
theorem mem_upsert {e : κ × ν} (h : e ∈ upsert k v m) : e = (k, v) ∨ e ∈ m := by
  induction m with
  | nil => exact .inl (List.mem_singleton.1 h)
  | cons f m ih =>
    rw [upsert] at h
    split_ifs at h
    · rcases List.mem_cons.1 h with rfl | h
      · exact .inl rfl
      · exact .inr (List.mem_cons_of_mem _ h)
    · rcases List.mem_cons.1 h with rfl | h
      · exact .inr List.mem_cons_self
      · exact (ih h).imp_right (List.mem_cons_of_mem _)

theorem nodup_upsert (h : (m.map Prod.fst).Nodup) : ((upsert k v m).map Prod.fst).Nodup := by
  rw [keys_upsert]
  split_ifs with hk
  · exact h
  · exact List.nodup_append.2 ⟨h, List.nodup_singleton k, fun a ha b hb hab =>
      hk (List.mem_singleton.1 hb ▸ hab ▸ ha)⟩

/-- What a history leaves. -/
def ofHistory (history : List (κ × ν)) : List (κ × ν) :=
  history.foldl (fun m e => upsert e.1 e.2 m) []

theorem ofHistory_concat (history : List (κ × ν)) (k : κ) (v : ν) :
    ofHistory (history ++ [(k, v)]) = upsert k v (ofHistory history) :=
  List.foldl_concat _ _ _ _

omit [DecidableEq κ] in
/-- Only a new key stays at the end. -/
theorem eraseDups_concat [BEq κ] [LawfulBEq κ] (ks : List κ) (k : κ) :
    (ks ++ [k]).eraseDups = if k ∈ ks then ks.eraseDups else ks.eraseDups ++ [k] := by
  rw [List.eraseDups_append, List.cons_removeAll]
  split_ifs with hcontains hk hk
  · exact absurd hk (by simpa using hcontains)
  · rfl
  · exact List.append_nil _
  · exact absurd (by simpa using hcontains) hk

/-- The keys, in the order in which they came first. -/
theorem keys_ofHistory [BEq κ] [LawfulBEq κ] (history : List (κ × ν)) :
    (ofHistory history).map Prod.fst = (history.map Prod.fst).eraseDups := by
  induction history using List.reverseRecOn with
  | nil => rfl
  | append_singleton history e ih =>
    rw [ofHistory_concat, keys_upsert, ih, List.map_append, List.map_singleton, eraseDups_concat]
    simp only [List.mem_eraseDups]

/-- The value of a key is the last one it had. -/
theorem lookup_ofHistory [BEq κ] [LawfulBEq κ] (history : List (κ × ν)) (k : κ) :
    (ofHistory history).lookup k = history.reverse.lookup k := by
  induction history using List.reverseRecOn with
  | nil => rfl
  | append_singleton history e ih =>
    rw [ofHistory_concat, lookup_upsert, ih, List.reverse_concat, lookup_cons]

theorem nodup_ofHistory (history : List (κ × ν)) : ((ofHistory history).map Prod.fst).Nodup := by
  induction history using List.reverseRecOn with
  | nil => exact List.nodup_nil
  | append_singleton history e ih =>
    rw [ofHistory_concat]
    exact nodup_upsert ih

/-- Nothing is taken out. -/
theorem length_le_foldl_upsert [BEq κ] [LawfulBEq κ] (m history : List (κ × ν)) :
    m.length ≤ (history.foldl (fun m e => upsert e.1 e.2 m) m).length := by
  induction history generalizing m with
  | nil => exact Nat.le_refl _
  | cons e history ih =>
    refine Nat.le_trans ?_ (ih _)
    rw [length_upsert]
    split_ifs
    · exact Nat.le_refl _
    · exact Nat.le_succ _

/-- What is there was put in. -/
theorem mem_of_mem_ofHistory {e : κ × ν} (h : e ∈ ofHistory history) : e ∈ history := by
  induction history using List.reverseRecOn with
  | nil => exact h
  | append_singleton history f ih =>
    rw [ofHistory_concat] at h
    rcases mem_upsert h with rfl | h
    · exact List.mem_append_right _ (List.mem_singleton_self _)
    · exact List.mem_append_left _ (ih h)

/-- A history without repeated keys is the map. -/
theorem ofHistory_of_nodup (h : (history.map Prod.fst).Nodup) : ofHistory history = history := by
  induction history using List.reverseRecOn with
  | nil => rfl
  | append_singleton history e ih =>
    rw [List.map_append, List.nodup_append] at h
    rw [ofHistory_concat, ih h.1]
    exact upsert_of_notMem fun hmem => h.2.2 _ hmem _ (by simp) rfl

/-- In a map without repeated keys every pair is found. -/
theorem lookup_of_mem [BEq κ] [LawfulBEq κ] {e : κ × ν} (hm : (m.map Prod.fst).Nodup) (he : e ∈ m) :
    m.lookup e.1 = some e.2 := by
  induction m with
  | nil => exact absurd he List.not_mem_nil
  | cons f m ih =>
    obtain ⟨hf, hm⟩ := List.nodup_cons.1 hm
    rw [lookup_cons]
    rcases List.mem_cons.1 he with rfl | he
    · rw [if_pos rfl]
    · have hne : e.1 ≠ f.1 := fun h => hf (h ▸ List.mem_map_of_mem he)
      rw [if_neg hne, ih hm he]

end LastWins

end LowLatencyPipeline
