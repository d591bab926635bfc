import Ocx.Util.Map

/-!
# Lists without repetition, filled in order

A list that only grows by elements that are not in it, and a keyed list whose values are merged
when a key comes again. Both keep the order of first occurrence.
-/

namespace Ocx

open List

section AddNew

variable {κ : Type*} [DecidableEq κ]

/-- Append an element unless it is there. -/
def addNew (l : List κ) (k : κ) : List κ := if k ∈ l then l else l ++ [k]

/-- Append the elements of a list that are not there. -/
def addAllNew (l ks : List κ) : List κ := ks.foldl addNew l

variable {l ks : List κ} {k x : κ}

@[simp] theorem addAllNew_nil (l : List κ) : addAllNew l [] = l := rfl

theorem addNew_of_mem (h : k ∈ l) : addNew l k = l := if_pos h

theorem addNew_of_not_mem (h : k ∉ l) : addNew l k = l ++ [k] := if_neg h

@[simp] theorem mem_addNew : x ∈ addNew l k ↔ x ∈ l ∨ x = k := by
  by_cases h : k ∈ l
  · rw [addNew_of_mem h]
    exact ⟨.inl, fun hx => hx.elim id fun hx => hx ▸ h⟩
  · simp [addNew_of_not_mem h]

theorem addAllNew_append (l ks ks' : List κ) :
    addAllNew l (ks ++ ks') = addAllNew (addAllNew l ks) ks' :=
  foldl_append

theorem addAllNew_concat (l ks : List κ) (k : κ) :
    addAllNew l (ks ++ [k]) = addNew (addAllNew l ks) k :=
  addAllNew_append l ks [k]

@[simp] theorem mem_addAllNew : x ∈ addAllNew l ks ↔ x ∈ l ∨ x ∈ ks := by
  induction ks generalizing l with
  | nil => simp
  | cons k ks ih =>
    show x ∈ addAllNew (addNew l k) ks ↔ _
    rw [ih, mem_addNew, mem_cons, or_assoc]

theorem nodup_addNew (h : l.Nodup) (k : κ) : (addNew l k).Nodup := by
  by_cases hk : k ∈ l
  · rwa [addNew_of_mem hk]
  · rw [addNew_of_not_mem hk]
    exact nodup_append.2
      ⟨h, nodup_singleton k, by simpa using fun x hx => ne_of_mem_of_not_mem hx hk⟩

theorem nodup_addAllNew (h : l.Nodup) (ks : List κ) : (addAllNew l ks).Nodup := by
  induction ks generalizing l with
  | nil => exact h
  | cons k ks ih => exact ih (nodup_addNew h k)

theorem addAllNew_of_subset (h : ∀ k ∈ ks, k ∈ l) : addAllNew l ks = l := by
  induction ks with
  | nil => rfl
  | cons k ks ih =>
    rw [forall_mem_cons] at h
    show addAllNew (addNew l k) ks = l
    rw [addNew_of_mem h.1, ih h.2]

/-- **Filling in two steps.** -/
theorem addAllNew_addAllNew (l m ks : List κ) :
    addAllNew l (addAllNew m ks) = addAllNew (addAllNew l m) ks := by
  induction ks generalizing m with
  | nil => rfl
  | cons k ks ih =>
    show addAllNew l (addAllNew (addNew m k) ks) = addAllNew (addNew (addAllNew l m) k) ks
    rw [ih]
    by_cases hk : k ∈ m
    · rw [addNew_of_mem hk, addNew_of_mem (mem_addAllNew.2 (.inr hk))]
    · rw [addNew_of_not_mem hk, addAllNew_concat]

theorem pairwise_idxOf_addAllNew (ks : List κ) :
    (addAllNew [] ks).Pairwise fun a b => ks.idxOf a < ks.idxOf b := by
  induction ks using reverseRecOn with
  | nil => exact List.Pairwise.nil
  | append_singleton ks x ih =>
    have hmem : ∀ a ∈ addAllNew [] ks, a ∈ ks := fun a ha => by simpa using ha
    have hold : (addAllNew [] ks).Pairwise fun a b =>
        (ks ++ [x]).idxOf a < (ks ++ [x]).idxOf b := by
      refine ih.imp_of_mem fun ha hb hlt => ?_
      rwa [idxOf_append_of_mem (hmem _ ha), idxOf_append_of_mem (hmem _ hb)]
    rw [addAllNew_concat]
    by_cases hx : x ∈ addAllNew [] ks
    · rwa [addNew_of_mem hx]
    · rw [addNew_of_not_mem hx, pairwise_append]
      refine ⟨hold, pairwise_singleton _ _, fun a ha b hb => ?_⟩
      obtain rfl := mem_singleton.1 hb
      have hb : b ∉ ks := by simpa using hx
      rw [idxOf_append_of_mem (hmem a ha), idxOf_append_of_notMem hb]
      exact Nat.lt_add_right _ (idxOf_lt_length_of_mem (hmem a ha))

/-- **The last of a class.** In a list filled in order, the first element found from the end is the
one whose first occurrence comes after those of all others. -/
theorem find?_reverse_addAllNew_iff {P : κ → Bool} :
    (addAllNew [] ks).reverse.find? P = some k ↔
      k ∈ ks ∧ P k = true ∧ ∀ k' ∈ ks, P k' = true → ks.idxOf k' ≤ ks.idxOf k := by
  have hlast {c k' : κ} (hc : (addAllNew [] ks).reverse.find? P = some c) (hk' : k' ∈ ks)
      (hP : P k' = true) : ks.idxOf k' ≤ ks.idxOf c := by
    obtain ⟨-, after, before, hsplit, hafter⟩ := find?_eq_some_iff_append.1 hc
    have hmem : k' ∈ after ++ c :: before := by simp [← hsplit, hk']
    have hsorted := pairwise_reverse.2 (pairwise_idxOf_addAllNew ks)
    rw [hsplit, pairwise_append, pairwise_cons] at hsorted
    rcases mem_append.1 hmem with h | h
    · exact absurd hP (by simpa using hafter k' h)
    · rcases mem_cons.1 h with rfl | h
      · exact le_rfl
      · exact (hsorted.2.1.1 k' h).le
  constructor
  · intro h
    exact ⟨by simpa using mem_of_find?_eq_some h, find?_some h, fun k' hk' => hlast h hk'⟩
  · rintro ⟨hk, hP, hmax⟩
    cases hc : (addAllNew [] ks).reverse.find? P with
    | none => exact absurd hP (find?_eq_none.1 hc k (by simpa using hk))
    | some c =>
      have hcmem : c ∈ ks := by simpa using mem_of_find?_eq_some hc
      have hidx := le_antisymm (hmax c hcmem (find?_some hc)) (hlast hc hk hP)
      rw [(idxOf_inj hcmem).1 hidx]

end AddNew

section DependsFirst

variable {κ : Type*} {r : κ → κ → Prop} {l ks : List κ} {x : κ}

/-- Every element comes after the elements it is related to. -/
def DependsFirst (r : κ → κ → Prop) (l : List κ) : Prop :=
  ∀ before x after, l = before ++ x :: after → ∀ y, r x y → y ∈ before

theorem dependsFirst_nil : DependsFirst r ([] : List κ) := by
  intro before x after h
  simp at h

theorem DependsFirst.concat (h : DependsFirst r l) (hx : ∀ y, r x y → y ∈ l) :
    DependsFirst r (l ++ [x]) := by
  intro before z after heq y hy
  rcases eq_nil_or_concat after with rfl | ⟨after', w, rfl⟩
  · -- the new element is the one in question
    obtain ⟨rfl, hz⟩ := append_inj' heq rfl
    obtain rfl : x = z := by simpa using hz
    exact hx y hy
  · rw [concat_eq_append, ← cons_append, ← append_assoc] at heq
    obtain ⟨rfl, -⟩ := append_inj' heq rfl
    exact h before z after' rfl y hy

theorem DependsFirst.of_concat (h : DependsFirst r (l ++ [x])) :
    DependsFirst r l ∧ ∀ y, r x y → y ∈ l := by
  refine ⟨fun before z after heq => h before z (after ++ [x]) (by simp [heq]), fun y hy => ?_⟩
  exact h l x [] rfl y hy

/-- Filling keeps the order of dependencies. -/
theorem DependsFirst.addAllNew [DecidableEq κ] (h : DependsFirst r l) (hks : DependsFirst r ks) :
    DependsFirst r (addAllNew l ks) := by
  induction ks using reverseRecOn with
  | nil => exact h
  | append_singleton ks k ih =>
    obtain ⟨hks', hk⟩ := hks.of_concat
    rw [addAllNew_concat]
    by_cases hmem : k ∈ Ocx.addAllNew l ks
    · rw [addNew_of_mem hmem]
      exact ih hks'
    · rw [addNew_of_not_mem hmem]
      exact (ih hks').concat fun y hy => mem_addAllNew.2 (.inr (hk y hy))

end DependsFirst

section Merge

variable {κ μ : Type*} [DecidableEq κ] [SemilatticeSup μ]

/-- Merge a value into the value of its key, or append it when the key is new. -/
def mergeInto (acc : List (κ × μ)) (x : κ × μ) : List (κ × μ) :=
  if x.1 ∈ acc.map Prod.fst then acc.map fun y => if y.1 = x.1 then (y.1, y.2 ⊔ x.2) else y
  else acc ++ [x]

/-- Merge a list of keyed values. -/
def mergeAll (xs : List (κ × μ)) : List (κ × μ) := xs.foldl mergeInto []

theorem mergeAll_concat (xs : List (κ × μ)) (x : κ × μ) :
    mergeAll (xs ++ [x]) = mergeInto (mergeAll xs) x :=
  foldl_append

theorem map_fst_mergeInto (acc : List (κ × μ)) (x : κ × μ) :
    (mergeInto acc x).map Prod.fst = addNew (acc.map Prod.fst) x.1 := by
  by_cases h : x.1 ∈ acc.map Prod.fst
  · rw [mergeInto, if_pos h, addNew_of_mem h, map_map]
    refine map_congr_left fun y _ => ?_
    show (if y.1 = x.1 then (y.1, y.2 ⊔ x.2) else y).1 = y.1
    split_ifs <;> rfl
  · rw [mergeInto, if_neg h, addNew_of_not_mem h, map_append, map_singleton]

/-- The keys of a merged list are filled in order. -/
theorem map_fst_mergeAll (xs : List (κ × μ)) :
    (mergeAll xs).map Prod.fst = addAllNew [] (xs.map Prod.fst) := by
  induction xs using reverseRecOn with
  | nil => rfl
  | append_singleton xs x ih =>
    rw [mergeAll_concat, map_fst_mergeInto, ih, map_append, map_singleton,
      addAllNew_concat]

theorem mem_map_fst_mergeAll {xs : List (κ × μ)} {k : κ} :
    k ∈ (mergeAll xs).map Prod.fst ↔ k ∈ xs.map Prod.fst := by
  rw [map_fst_mergeAll, mem_addAllNew]
  simp

/-- **Merged values.** Every key carries the least upper bound of its values. -/
theorem isLUB_of_mem_mergeAll {xs : List (κ × μ)} {k : κ} {v : μ} (h : (k, v) ∈ mergeAll xs) :
    IsLUB {w | (k, w) ∈ xs} v := by
  induction xs using reverseRecOn generalizing v with
  | nil => simp [mergeAll] at h
  | append_singleton xs x ih =>
    obtain ⟨k₀, v₀⟩ := x
    rw [mergeAll_concat, mergeInto] at h
    have hsame : {w | (k₀, w) ∈ xs ++ [(k₀, v₀)]} = {w | (k₀, w) ∈ xs} ∪ {v₀} := by
      ext w
      simp [or_comm]
    have hother (hne : k ≠ k₀) : {w | (k, w) ∈ xs ++ [(k₀, v₀)]} = {w | (k, w) ∈ xs} := by
      simp [hne]
    split_ifs at h with hkey
    · obtain ⟨⟨k', v'⟩, hmem, heq⟩ := mem_map.1 h
      split_ifs at heq with hk'
      · obtain ⟨rfl, rfl⟩ := Prod.mk.inj heq
        subst hk'
        rw [hsame]
        exact (ih hmem).union isLUB_singleton
      · obtain ⟨rfl, rfl⟩ := Prod.mk.inj heq
        rw [hother hk']
        exact ih hmem
    · rcases mem_append.1 h with hmem | hmem
      · have hne : k ≠ k₀ := by
          rintro rfl
          exact hkey (mem_map.2 ⟨_, hmem, rfl⟩)
        rw [hother hne]
        exact ih hmem
      · obtain ⟨rfl, rfl⟩ := Prod.mk.inj (mem_singleton.1 hmem)
        -- a new key has no earlier values
        have hempty : {w | (k, w) ∈ xs} = ∅ := by
          ext w
          simp only [Set.mem_ofPred_eq, Set.mem_empty_iff_false, iff_false]
          exact fun hw => hkey (mem_map_fst_mergeAll.2 (mem_map.2 ⟨_, hw, rfl⟩))
        rw [hsame, hempty, Set.empty_union]
        exact isLUB_singleton

end Merge

end Ocx
