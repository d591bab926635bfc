import Mathlib

/-!
# Maps that keep the order of insertion

A map as a list of entries with distinct keys.  Inserting a key that is there replaces its value in
place, and a new key goes to the end.  An entry is removed by closing the gap, or by moving the last
entry into it.
-/

namespace Ocx

open List Option

/-- A map that keeps the order of insertion. -/
structure OrderedMap (κ α : Type*) where
  entries : List (κ × α)
  /-- The keys are distinct. -/
  nodup : (entries.map Prod.fst).Nodup
deriving DecidableEq

namespace OrderedMap

variable {κ α : Type*} [DecidableEq κ]

/-- The map without entries. -/
def empty : OrderedMap κ α := ⟨[], nodup_nil⟩

instance : EmptyCollection (OrderedMap κ α) := ⟨empty⟩

def keys (m : OrderedMap κ α) : List κ := m.entries.map Prod.fst

def values (m : OrderedMap κ α) : List α := m.entries.map Prod.snd

/-- The value of a key. -/
def get (m : OrderedMap κ α) (k : κ) : Option α :=
  (m.entries.find? fun e => e.1 = k).map Prod.snd

def insert (m : OrderedMap κ α) (k : κ) (v : α) : OrderedMap κ α :=
  if h : k ∈ m.keys then
    ⟨m.entries.map fun e => if e.1 = k then (k, v) else e, by
      have hkeys : (m.entries.map fun e => if e.1 = k then (k, v) else e).map Prod.fst =
          m.keys := by
        rw [List.map_map]
        refine map_congr_left fun e _ => ?_
        by_cases he : e.1 = k <;> simp [he]
      rw [hkeys]
      exact m.nodup⟩
  else
    ⟨m.entries ++ [(k, v)], by
      rw [map_append, map_singleton, nodup_append]
      refine ⟨m.nodup, nodup_singleton _, ?_⟩
      rintro a ha b hb rfl
      obtain rfl : a = k := mem_singleton.1 hb
      exact h ha⟩

/-- Remove a key and close the gap. -/
def shiftRemove (m : OrderedMap κ α) (k : κ) : OrderedMap κ α :=
  ⟨m.entries.filter fun e => e.1 ≠ k, (filter_sublist.map _).nodup m.nodup⟩

/-- Put an entry at a position; a key that is there is moved. -/
def shiftInsert (m : OrderedMap κ α) (i : ℕ) (k : κ) (v : α) : OrderedMap κ α :=
  let rest := (m.shiftRemove k).entries
  ⟨rest.take i ++ (k, v) :: rest.drop i, by
    have hperm : (rest.take i ++ (k, v) :: rest.drop i).Perm ((k, v) :: rest) := by
      refine perm_middle.trans ?_
      rw [take_append_drop]
    rw [(hperm.map Prod.fst).nodup_iff]
    exact nodup_cons.2 ⟨by simp [rest, shiftRemove], (m.shiftRemove k).nodup⟩⟩

/-- Remove a key and move the last entry into the gap. -/
def swapRemove (m : OrderedMap κ α) (k : κ) : OrderedMap κ α :=
  match hlast : m.entries.getLast? with
  | none => m
  | some last =>
    if k ∉ m.keys ∨ last.1 = k then m.shiftRemove k
    else
      ⟨m.entries.dropLast.map fun e => if e.1 = k then last else e, by
        have hnodup := m.nodup
        rw [← List.dropLast_append_getLast? last hlast, List.map_append, List.map_singleton,
          List.nodup_append] at hnodup
        obtain ⟨hinit, -, hdisjoint⟩ := hnodup
        rw [List.map_map]
        refine (hinit.of_map Prod.fst).map_on fun e he e' he' heq => ?_
        have hlast_ne : ∀ e ∈ m.entries.dropLast, e.1 ≠ last.1 := fun e he =>
          hdisjoint e.1 (List.mem_map_of_mem he) last.1 List.mem_cons_self
        -- the last key is not among the others, so that nothing collides with it
        have hkey : e.1 = e'.1 := by
          by_cases hk : e.1 = k <;> by_cases hk' : e'.1 = k <;>
            simp only [Function.comp, hk, hk', if_true, if_false] at heq ⊢
          · exact absurd heq.symm (hlast_ne e' he')
          · exact absurd heq (hlast_ne e he)
          · exact heq
        exact List.inj_on_of_nodup_map hinit he he' hkey⟩

/-! ### Lookups and entries -/

variable {m : OrderedMap κ α} {k k' : κ} {v v' : α}

omit [DecidableEq κ] in
theorem mem_keys_iff : k ∈ m.keys ↔ ∃ v, (k, v) ∈ m.entries := by
  simp [keys]

theorem get_eq_some_iff : m.get k = some v ↔ (k, v) ∈ m.entries := by
  unfold get
  rw [map_eq_some_iff]
  constructor
  · rintro ⟨e, he, rfl⟩
    have hkey : e.1 = k := by simpa using find?_some he
    exact hkey ▸ mem_of_find?_eq_some he
  · intro hmem
    have hfound : (m.entries.find? fun e => e.1 = k).isSome := by
      rw [find?_isSome]
      exact ⟨(k, v), hmem, by simp⟩
    obtain ⟨e, he⟩ := isSome_iff_exists.1 hfound
    have hkey : e.1 = k := by simpa using find?_some he
    have hsame : e = (k, v) :=
      inj_on_of_nodup_map m.nodup (mem_of_find?_eq_some he) hmem hkey
    exact ⟨e, he, by rw [hsame]⟩

theorem get_isSome_iff : (m.get k).isSome ↔ k ∈ m.keys := by
  rw [isSome_iff_exists, mem_keys_iff]
  exact exists_congr fun v => get_eq_some_iff

theorem mem_values_iff : v ∈ m.values ↔ ∃ k, m.get k = some v := by
  unfold values
  rw [List.mem_map]
  constructor
  · rintro ⟨e, he, rfl⟩
    exact ⟨e.1, get_eq_some_iff.2 he⟩
  · rintro ⟨k, hk⟩
    exact ⟨(k, v), get_eq_some_iff.1 hk, rfl⟩

@[simp] theorem get_empty : (∅ : OrderedMap κ α).get k = none := rfl

omit [DecidableEq κ] in
@[simp] theorem keys_empty : (∅ : OrderedMap κ α).keys = [] := rfl

theorem mem_insert_iff :
    (k', v') ∈ (m.insert k v).entries ↔
      (k' = k ∧ v' = v) ∨ (k' ≠ k ∧ (k', v') ∈ m.entries) := by
  unfold insert
  split
  · rename_i hk
    simp only [List.mem_map]
    constructor
    · rintro ⟨e, he, heq⟩
      by_cases hek : e.1 = k
      · rw [if_pos hek] at heq
        exact .inl ⟨(congrArg Prod.fst heq).symm, (congrArg Prod.snd heq).symm⟩
      · rw [if_neg hek] at heq
        subst heq
        exact .inr ⟨hek, he⟩
    · rintro (⟨rfl, rfl⟩ | ⟨hne, hmem⟩)
      · obtain ⟨w, hw⟩ := mem_keys_iff.1 hk
        exact ⟨(k', w), hw, by simp⟩
      · exact ⟨(k', v'), hmem, by simp [hne]⟩
  · rename_i hk
    simp only [List.mem_append, List.mem_singleton, Prod.mk.injEq]
    constructor
    · rintro (hmem | h)
      · exact .inr ⟨fun h => hk (mem_keys_iff.2 ⟨v', h ▸ hmem⟩), hmem⟩
      · exact .inl h
    · rintro (h | ⟨-, hmem⟩)
      · exact .inr h
      · exact .inl hmem

theorem get_insert : (m.insert k v).get k' = if k' = k then some v else m.get k' := by
  split
  · rename_i h
    exact get_eq_some_iff.2 (mem_insert_iff.2 (.inl ⟨h, rfl⟩))
  · rename_i h
    refine ext fun w => ?_
    simp [get_eq_some_iff, mem_insert_iff, h, false_and, false_or, not_false_eq_true, true_and,
      ne_eq]

@[simp] theorem get_insert_self : (m.insert k v).get k = some v := by
  rw [get_insert, if_pos rfl]

theorem get_insert_of_ne (h : k' ≠ k) : (m.insert k v).get k' = m.get k' := by
  rw [get_insert, if_neg h]

theorem mem_keys_insert : k' ∈ (m.insert k v).keys ↔ k' = k ∨ k' ∈ m.keys := by
  rw [← get_isSome_iff, ← get_isSome_iff, get_insert]
  split <;> simp_all

theorem mem_shiftRemove_iff :
    (k', v') ∈ (m.shiftRemove k).entries ↔ k' ≠ k ∧ (k', v') ∈ m.entries := by
  simp [shiftRemove, and_comm]

theorem get_shiftRemove_of_ne (h : k' ≠ k) : (m.shiftRemove k).get k' = m.get k' := by
  refine ext fun w => ?_
  simp [get_eq_some_iff, mem_shiftRemove_iff, h, ne_eq, not_false_eq_true, true_and]

/-! ### Changing values -/

omit [DecidableEq κ] in
theorem eq_of_entries {m' : OrderedMap κ α} (h : m.entries = m'.entries) : m = m' := by
  cases m
  cases h
  rfl

theorem shiftRemove_of_notMem (h : k ∉ m.keys) : m.shiftRemove k = m := by
  refine eq_of_entries (filter_eq_self.2 fun e he => ?_)
  exact decide_eq_true fun heq => h (heq ▸ mem_map_of_mem he)

theorem entries_shiftInsert (h : k ∉ m.keys) (i : ℕ) :
    (m.shiftInsert i k v).entries = m.entries.take i ++ (k, v) :: m.entries.drop i := by
  simp [shiftInsert, shiftRemove_of_notMem h]

/-- Change the values of a map, in place. -/
def mapValues (f : κ → α → α) (m : OrderedMap κ α) : OrderedMap κ α :=
  ⟨m.entries.map fun e => (e.1, f e.1 e.2), by
    rw [List.map_map]
    exact m.nodup⟩

omit [DecidableEq κ] in
theorem mapValues_mapValues (f g : κ → α → α) :
    (m.mapValues f).mapValues g = m.mapValues fun k v => g k (f k v) :=
  eq_of_entries (map_map ..)

theorem mapValues_eq_iff {f g : κ → α → α} :
    m.mapValues f = m.mapValues g ↔ ∀ k v, m.get k = some v → f k v = g k v := by
  simp only [get_eq_some_iff]
  constructor
  · intro h k v hmem
    exact congrArg Prod.snd (map_inj_left.1 (congrArg entries h) (k, v) hmem)
  · intro h
    exact eq_of_entries (map_congr_left fun e he => Prod.ext rfl (h e.1 e.2 he))

omit [DecidableEq κ] in
theorem mapValues_id : m.mapValues (fun _ v => v) = m := eq_of_entries (map_id _)

theorem get_mapValues (f : κ → α → α) : (m.mapValues f).get k = (m.get k).map (f k) := by
  refine Option.ext fun w => ?_
  rw [get_eq_some_iff, Option.map_eq_some_iff]
  simp only [get_eq_some_iff, mapValues, List.mem_map, Prod.mk.injEq, Prod.exists]
  constructor
  · rintro ⟨_, v, hmem, rfl, rfl⟩
    exact ⟨v, hmem, rfl⟩
  · rintro ⟨v, hmem, rfl⟩
    exact ⟨k, v, hmem, rfl, rfl⟩

/-- A change of the value of one key is a change of the values. -/
theorem insert_eq_mapValues (h : m.get k = some v) (g : α → α) :
    m.insert k (g v) = m.mapValues fun k' w => if k' = k then g w else w := by
  refine eq_of_entries ?_
  rw [insert, dif_pos (get_isSome_iff.1 (by rw [h]; rfl))]
  refine map_congr_left fun e he => ?_
  split_ifs with hk
  · have hv : some e.2 = some v := by rw [← h, ← hk, get_eq_some_iff.2 he]
    simp [some.inj hv, hk]
  · simp [hk]

theorem insert_of_get (h : m.get k = some v) : m.insert k v = m := by
  calc m.insert k v = m.mapValues fun k' w => if k' = k then id w else w := insert_eq_mapValues h id
    _ = m.mapValues fun _ w => w := mapValues_eq_iff.2 fun _ w _ => ite_self w
    _ = m := mapValues_id

/-! ### Moving the last entry -/

/-- The last element of a list goes to its front. -/
def lastFirst {β : Type*} (l : List β) : List β := l.getLast?.toList ++ l.dropLast

theorem perm_lastFirst {β : Type*} (l : List β) : (lastFirst l).Perm l := by
  rcases eq_nil_or_concat' l with rfl | ⟨init, last, rfl⟩
  · rfl
  · simpa [lastFirst] using (perm_append_singleton last init).symm

theorem lastFirst_eq_iff {β : Type*} {l : List β} (hnodup : l.Nodup) :
    lastFirst l = l ↔ l.length ≤ 1 := by
  rcases eq_nil_or_concat' l with rfl | ⟨init, last, rfl⟩
  · simp [lastFirst]
  · rcases init with _ | ⟨first, rest⟩
    · simp [lastFirst]
    · refine iff_of_false (fun h => ?_) (by simp)
      rw [lastFirst, getLast?_concat, dropLast_concat] at h
      obtain rfl : last = first := by simpa using congrArg head? h
      simp at hnodup

theorem swapRemove_of_notMem (h : k ∉ m.keys) : m.swapRemove k = m := by
  unfold swapRemove
  split
  · rfl
  · rw [if_pos (.inl h), shiftRemove_of_notMem h]

/-- Removing a key that was put at a position moves the last entry there. -/
theorem entries_swapRemove_shiftInsert (hk : k ∉ m.keys) (i : ℕ) :
    ((m.shiftInsert i k v).swapRemove k).entries =
      m.entries.take i ++ lastFirst (m.entries.drop i) := by
  have hentries := entries_shiftInsert (v := v) hk i
  have hne : ∀ e ∈ m.entries, e.1 ≠ k := fun e he heq => hk (mem_keys_iff.2 ⟨e.2, heq ▸ he⟩)
  have htake : ∀ e ∈ m.entries.take i, e.1 ≠ k := fun e he => hne e (mem_of_mem_take he)
  unfold swapRemove
  split
  · rename_i hlast
    simp [hentries] at hlast
  · rename_i last hlast
    rw [hentries] at hlast
    rcases eq_nil_or_concat' (m.entries.drop i) with hnil | ⟨init, last', hconcat⟩
    · rw [hnil, getLast?_concat, some.injEq] at hlast
      rw [if_pos (.inr (by rw [← hlast]))]
      show ((m.shiftInsert i k v).entries.filter fun e => e.1 ≠ k) = _
      rw [hentries, hnil, filter_append,
        filter_eq_self.2 fun e he => decide_eq_true (htake e he)]
      simp [lastFirst]
    · have hdrop : ∀ e ∈ init ++ [last'], e.1 ≠ k := fun e he =>
        hne e (mem_of_mem_drop (by rw [hconcat]; exact he))
      rw [hconcat, ← cons_append, ← append_assoc, getLast?_concat,
        some.injEq] at hlast
      subst hlast
      have hmem : k ∈ (m.shiftInsert i k v).keys := mem_keys_iff.2 ⟨v, by rw [hentries]; simp⟩
      rw [if_neg (not_or.2 ⟨not_not.2 hmem, hdrop last' (by simp)⟩)]
      dsimp only
      rw [hentries, hconcat, ← cons_append, ← append_assoc, dropLast_concat,
        map_append, map_cons, if_pos rfl, lastFirst, getLast?_concat,
        dropLast_concat]
      refine congrArg₂ (· ++ ·) ?_ (congrArg (last' :: ·) ?_)
      · exact (map_congr_left fun e he => if_neg (htake e he)).trans (map_id _)
      · refine (map_congr_left fun e he => if_neg ?_).trans (map_id _)
        exact hdrop e (mem_append_left _ he)

/-- Moving the last entry undoes an insertion exactly when at most one entry stands behind it. -/
theorem swapRemove_shiftInsert_eq_iff (hk : k ∉ m.keys) (i : ℕ) :
    (m.shiftInsert i k v).swapRemove k = m ↔ (m.entries.drop i).length ≤ 1 := by
  have hnodup : (m.entries.drop i).Nodup := (m.nodup.of_map _).sublist (drop_sublist _ _)
  rw [← lastFirst_eq_iff hnodup]
  have hentries := entries_swapRemove_shiftInsert (v := v) hk i
  constructor
  · intro h
    rw [h] at hentries
    nth_rewrite 1 [← take_append_drop i m.entries] at hentries
    exact (append_cancel_left hentries).symm
  · intro h
    refine eq_of_entries ?_
    rw [hentries, h, take_append_drop]

theorem notMem_keys_swapRemove_shiftInsert (hk : k ∉ m.keys) (i : ℕ) :
    k ∉ ((m.shiftInsert i k v).swapRemove k).keys := by
  have hperm : (m.entries.take i ++ lastFirst (m.entries.drop i)).Perm m.entries :=
    ((perm_lastFirst _).append_left _).trans (by rw [take_append_drop])
  rw [keys, entries_swapRemove_shiftInsert hk, (hperm.map Prod.fst).mem_iff]
  exact hk

end OrderedMap

end Ocx
