import Mathlib

/-!
# Maps filled by a sequence of writes

A map that is filled by writing a list of keys and values holds, under each key, the value that was
written last.
-/

namespace Ocx

open List Option

/-- The last value a list of writes gives to a key. -/
def lastValue {κ γ : Type*} [DecidableEq κ] : List (κ × γ) → κ → Option γ
  | [], _ => none
  | w :: ws, k => (lastValue ws k).or (if w.1 = k then some w.2 else none)

section LastValue

variable {κ γ : Type*} [DecidableEq κ]

@[simp] theorem lastValue_nil (k : κ) : lastValue ([] : List (κ × γ)) k = none := rfl

theorem lastValue_cons (w : κ × γ) (ws : List (κ × γ)) (k : κ) :
    lastValue (w :: ws) k = (lastValue ws k).or (if w.1 = k then some w.2 else none) := rfl

theorem lastValue_append (ws ws' : List (κ × γ)) (k : κ) :
    lastValue (ws ++ ws') k = (lastValue ws' k).or (lastValue ws k) := by
  induction ws with
  | nil => simp
  | cons w ws ih => simp [lastValue_cons, ih, Option.or_assoc]

variable {ws : List (κ × γ)} {k : κ} {c : γ}

theorem mem_of_lastValue_eq_some (h : lastValue ws k = some c) : (k, c) ∈ ws := by
  induction ws with
  | nil => simp at h
  | cons w ws ih =>
    rw [lastValue_cons, or_eq_some_iff] at h
    rcases h with h | ⟨-, h⟩
    · exact mem_cons_of_mem _ (ih h)
    · split_ifs at h with hk
      rw [← hk, ← some.inj h]
      exact mem_cons_self

theorem lastValue_eq_none_iff :
    lastValue ws k = none ↔ ∀ w ∈ ws, w.1 ≠ k := by
  induction ws with
  | nil => simp
  | cons w ws ih =>
    rw [lastValue_cons, or_eq_none_iff, ih, forall_mem_cons, and_comm]
    refine and_congr_left fun _ => ?_
    split_ifs with hk <;> simp [hk]

theorem lastValue_of_unique (hnd : (ws.map Prod.fst).Nodup)
    (h : (k, c) ∈ ws) : lastValue ws k = some c := by
  induction ws with
  | nil => simp at h
  | cons w ws ih =>
    rw [map_cons, nodup_cons] at hnd
    rw [lastValue_cons]
    rcases mem_cons.1 h with rfl | h
    · rw [lastValue_eq_none_iff.2]
      · simp
      · intro w hw hwk
        exact hnd.1 (mem_map.2 ⟨w, hw, hwk⟩)
    · rw [ih hnd.2 h]
      rfl

theorem lastValue_of_functional (h : (k, c) ∈ ws)
    (hfun : ∀ c', (k, c') ∈ ws → c' = c) : lastValue ws k = some c := by
  cases hlast : lastValue ws k with
  | none => exact absurd rfl (lastValue_eq_none_iff.1 hlast _ h)
  | some c' => rw [hfun c' (mem_of_lastValue_eq_some hlast)]

theorem lastValue_map {δ : Type*} (ws : List (κ × γ)) (f : γ → δ) (k : κ) :
    lastValue (ws.map fun w => (w.1, f w.2)) k = (lastValue ws k).map f := by
  induction ws with
  | nil => rfl
  | cons w ws ih =>
    rw [map_cons, lastValue_cons, lastValue_cons, ih, map_or]
    split_ifs <;> rfl

theorem lastValue_map_eq_find? (l : List γ) (f : γ → κ) (k : κ) :
    lastValue (l.map fun c => (f c, c)) k = l.reverse.find? (f · = k) := by
  induction l with
  | nil => rfl
  | cons c l ih =>
    rw [map_cons, lastValue_cons, ih, reverse_cons, find?_append]
    by_cases h : f c = k <;> simp [h]

theorem lastValue_max {r : κ × γ → κ × γ → Prop} (hws : ws.Pairwise r)
    (h : lastValue ws k = some c) {c' : γ} (h' : (k, c') ∈ ws) : c' = c ∨ r (k, c') (k, c) := by
  induction ws with
  | nil => simp at h
  | cons w ws ih =>
    rw [pairwise_cons] at hws
    rw [lastValue_cons, or_eq_some_iff] at h
    rcases mem_cons.1 h' with rfl | h'
    · rcases h with h | ⟨-, h⟩
      · exact .inr (hws.1 _ (mem_of_lastValue_eq_some h))
      · exact .inl (by simpa using h)
    · rcases h with h | ⟨hnone, -⟩
      · exact ih hws.2 h h'
      · exact absurd rfl (lastValue_eq_none_iff.1 hnone _ h')

end LastValue

section Map

variable {κ κ' γ : Type*} [LinearOrder κ] [LinearOrder κ']

@[simp] theorem getElem?_insert_eq (m : Std.ExtTreeMap κ γ) (k k' : κ) (c : γ) :
    (m.insert k c)[k']? = if k = k' then some c else m[k']? := by
  rw [Std.ExtTreeMap.getElem?_insert]
  simp

/-- **Writing a list.** After a list of writes a key holds the value written last, or what it held
before. -/
theorem getElem?_foldl_insert (ws : List (κ × γ)) (m : Std.ExtTreeMap κ γ) (k : κ) :
    (ws.foldl (fun m w => m.insert w.1 w.2) m)[k]? = (lastValue ws k).or m[k]? := by
  induction ws generalizing m with
  | nil => simp
  | cons w ws ih =>
    rw [foldl_cons, ih, lastValue_cons, getElem?_insert_eq, Option.or_assoc]
    split_ifs <;> simp

theorem nodup_keys_toList (m : Std.ExtTreeMap κ γ) : (m.toList.map Prod.fst).Nodup := by
  rw [List.Nodup, pairwise_map]
  refine m.distinct_keys_toList.imp ?_
  intro a b h hab
  exact h (Std.LawfulEqCmp.compare_eq_iff_eq.2 hab)

theorem lastValue_toList (m : Std.ExtTreeMap κ γ) (k : κ) : lastValue m.toList k = m[k]? := by
  cases h : m[k]? with
  | none =>
    rw [lastValue_eq_none_iff]
    rintro ⟨k', c⟩ hmem rfl
    rw [Std.ExtTreeMap.mem_toList_iff_getElem?_eq_some] at hmem
    simp [hmem] at h
  | some c =>
    exact lastValue_of_unique (nodup_keys_toList m)
      (Std.ExtTreeMap.mem_toList_iff_getElem?_eq_some.2 h)

def write2 (g : Std.ExtTreeMap κ (Std.ExtTreeMap κ' γ)) (w : (κ × κ') × γ) :
    Std.ExtTreeMap κ (Std.ExtTreeMap κ' γ) :=
  g.insert w.1.1 ((g.getD w.1.1 ∅).insert w.1.2 w.2)

def lookup2 (g : Std.ExtTreeMap κ (Std.ExtTreeMap κ' γ)) (k : κ × κ') : Option γ :=
  (g.getD k.1 ∅)[k.2]?

@[simp] theorem lookup2_empty (k : κ × κ') :
    lookup2 (∅ : Std.ExtTreeMap κ (Std.ExtTreeMap κ' γ)) k = none := by
  simp [lookup2]

theorem lookup2_write2 (g : Std.ExtTreeMap κ (Std.ExtTreeMap κ' γ)) (w : (κ × κ') × γ)
    (k : κ × κ') : lookup2 (write2 g w) k = if w.1 = k then some w.2 else lookup2 g k := by
  obtain ⟨⟨a, b⟩, c⟩ := w
  obtain ⟨a', b'⟩ := k
  by_cases ha : a = a'
  · subst ha
    simp [lookup2, write2, Std.ExtTreeMap.getD_insert_self]
  · simp [lookup2, write2, Std.ExtTreeMap.getD_insert, ha]

/-- **Writing a list to a map of maps.** -/
theorem lookup2_foldl_write2 (ws : List ((κ × κ') × γ))
    (g : Std.ExtTreeMap κ (Std.ExtTreeMap κ' γ)) (k : κ × κ') :
    lookup2 (ws.foldl write2 g) k = (lastValue ws k).or (lookup2 g k) := by
  induction ws generalizing g with
  | nil => simp
  | cons w ws ih =>
    rw [foldl_cons, ih, lastValue_cons, lookup2_write2, Option.or_assoc]
    split_ifs <;> simp

/-! ### Merged tables -/

variable {α : Type*}

/-- Merge an entry that may be absent. An entry that was not there starts from the default one. -/
def mergeEntry (merge : α → α → α) (default : α) (own added : Option α) : Option α :=
  added.elim own fun e => some (merge (own.getD default) e)

/-- Merge a table into another one, key by key. -/
def mergeMap (merge : α → α → α) (default : α) (own added : Std.ExtTreeMap κ α) :
    Std.ExtTreeMap κ α :=
  added.toList.foldl (fun m e => m.insert e.1 (merge (m[e.1]?.getD default) e.2)) own

theorem getElem?_foldl_mergeEntry {merge : α → α → α} {default : α} (entries : List (κ × α))
    (hnd : (entries.map Prod.fst).Nodup) (m : Std.ExtTreeMap κ α) (k : κ) :
    (entries.foldl (fun m e => m.insert e.1 (merge (m[e.1]?.getD default) e.2)) m)[k]? =
      mergeEntry merge default m[k]? (lastValue entries k) := by
  induction entries generalizing m with
  | nil => rfl
  | cons e entries ih =>
    rw [map_cons, nodup_cons] at hnd
    rw [foldl_cons, ih hnd.2, lastValue_cons]
    by_cases hk : e.1 = k
    · -- no later entry has this key
      have hnone : lastValue entries k = none := by
        rw [lastValue_eq_none_iff]
        intro w hw hwk
        exact hnd.1 (mem_map.2 ⟨w, hw, hwk.trans hk.symm⟩)
      simp [hnone, hk, mergeEntry]
    · cases lastValue entries k <;> simp [hk, mergeEntry]

/-- **The entry of a merged table.** -/
theorem getElem?_mergeMap (merge : α → α → α) (default : α) (own added : Std.ExtTreeMap κ α)
    (k : κ) : (mergeMap merge default own added)[k]? =
      mergeEntry merge default own[k]? added[k]? := by
  rw [mergeMap, getElem?_foldl_mergeEntry _ (nodup_keys_toList added), lastValue_toList]

theorem getElem?_filterValues (keep : α → Bool) (m : Std.ExtTreeMap κ α) (k : κ) :
    (m.filter fun _ e => keep e)[k]? = m[k]?.filter keep := by
  rw [Std.ExtTreeMap.getElem?_filter]
  cases m[k]? <;> simp

end Map

end Ocx
