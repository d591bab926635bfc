import Ocx.Util.Map

/-!
# Buckets

A map from keys to lists that only grows: a value is pushed to the bucket of its key, which is
created when it is missing. The map is a list with distinct keys, read by `lastValue`.
-/

namespace Ocx

open List

variable {κ γ : Type*} [DecidableEq κ]

/-- Push a value to the bucket of its key. -/
def pushTo (m : List (κ × List γ)) (w : κ × γ) : List (κ × List γ) :=
  if w.1 ∈ m.map Prod.fst then m.map fun e => (e.1, if e.1 = w.1 then e.2 ++ [w.2] else e.2)
  else m ++ [(w.1, [w.2])]

/-- Push values to the buckets of their keys, one after another. -/
def pushAllTo (m : List (κ × List γ)) (ws : List (κ × γ)) : List (κ × List γ) := ws.foldl pushTo m

/-- The values that are pushed to a key. -/
def pushedTo (ws : List (κ × γ)) (k : κ) : List γ := (ws.filter (·.1 = k)).map Prod.snd

variable {ws : List (κ × γ)} {m : List (κ × List γ)}

theorem mem_pushedTo_iff {k : κ} {c : γ} : c ∈ pushedTo ws k ↔ (k, c) ∈ ws := by
  simp [pushedTo]

theorem nodup_iff_pushedTo [DecidableEq γ] :
    ws.Nodup ↔ ∀ k, (pushedTo ws k).Nodup := by
  have hcount : ∀ k c, (pushedTo ws k).count c = ws.count (k, c) := by
    intro k c
    rw [pushedTo, count, count, countP_map, countP_filter]
    refine countP_congr fun w _ => ?_
    simp [Prod.ext_iff, and_comm]
  simp [nodup_iff_count_le_one, Prod.forall, hcount]

theorem mem_keys_iff {k : κ} :
    k ∈ m.map Prod.fst ↔ ∃ c, lastValue m k = some c := by
  constructor
  · intro hk
    obtain ⟨w, hw, rfl⟩ := mem_map.1 hk
    refine Option.isSome_iff_exists.1 (Option.isSome_iff_ne_none.2 fun hnone => ?_)
    exact lastValue_eq_none_iff.1 hnone w hw rfl
  · rintro ⟨c, hc⟩
    exact mem_map.2 ⟨_, mem_of_lastValue_eq_some hc, rfl⟩

theorem lastValue_map_entries (m : List (κ × List γ)) (f : κ → List γ → List γ) (k : κ) :
    lastValue (m.map fun e => (e.1, f e.1 e.2)) k = (lastValue m k).map (f k) := by
  induction m with
  | nil => rfl
  | cons e m ih =>
    rw [map_cons, lastValue_cons, lastValue_cons, ih, Option.map_or]
    by_cases hk : e.1 = k
    · simp [hk]
    · simp [hk]

theorem lastValue_pushTo (m : List (κ × List γ)) (w : κ × γ) (k : κ) :
    lastValue (pushTo m w) k =
      if w.1 = k then some ((lastValue m k).getD [] ++ [w.2]) else lastValue m k := by
  by_cases hkey : w.1 ∈ m.map Prod.fst
  · rw [pushTo, if_pos hkey,
      lastValue_map_entries m fun k c => if k = w.1 then c ++ [w.2] else c]
    split_ifs with hk hk' hk'
    · subst hk
      obtain ⟨c, hc⟩ := mem_keys_iff.1 hkey
      simp [hc]
    · exact absurd hk.symm hk'
    · exact absurd hk'.symm hk
    · exact Option.map_id'
  · rw [pushTo, if_neg hkey, lastValue_append]
    split_ifs with hk
    · subst hk
      have hnone : lastValue m w.1 = none := by
        by_contra hne
        exact hkey (mem_keys_iff.2 (Option.ne_none_iff_exists'.1 hne))
      simp [lastValue_cons, hnone]
    · simp [lastValue_cons, hk]

/-- A bucket holds what it held and what was pushed to it, in order. -/
theorem lastValue_pushAllTo (m : List (κ × List γ)) (ws : List (κ × γ)) (k : κ) :
    lastValue (pushAllTo m ws) k =
      if pushedTo ws k = [] then lastValue m k
      else some ((lastValue m k).getD [] ++ pushedTo ws k) := by
  induction ws generalizing m with
  | nil => rfl
  | cons w ws ih =>
    have hcons : pushAllTo m (w :: ws) = pushAllTo (pushTo m w) ws := rfl
    rw [hcons, ih, lastValue_pushTo]
    by_cases hk : w.1 = k
    · have hpushed : pushedTo (w :: ws) k = w.2 :: pushedTo ws k := by simp [pushedTo, hk]
      rw [hpushed]
      by_cases hrest : pushedTo ws k = []
      · simp [hk, hrest]
      · simp [hk, hrest]
    · have hpushed : pushedTo (w :: ws) k = pushedTo ws k := by simp [pushedTo, hk]
      rw [hpushed]
      simp [hk]

theorem nodup_keys_pushTo (h : (m.map Prod.fst).Nodup) (w : κ × γ) :
    ((pushTo m w).map Prod.fst).Nodup := by
  by_cases hkey : w.1 ∈ m.map Prod.fst
  · rw [pushTo, if_pos hkey, map_map]
    exact h
  · rw [pushTo, if_neg hkey, map_append, map_singleton]
    exact nodup_append_comm.1 (nodup_cons.2 ⟨hkey, h⟩)

theorem nodup_keys_pushAllTo (h : (m.map Prod.fst).Nodup)
    (ws : List (κ × γ)) : ((pushAllTo m ws).map Prod.fst).Nodup := by
  induction ws generalizing m with
  | nil => exact h
  | cons w ws ih => exact ih (nodup_keys_pushTo h w)

end Ocx
