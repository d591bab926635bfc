import Ocx.Shell.Env
import Ocx.Util.Visits

/-!
# Lists with a separator of one character

Appending to a list variable never splits it: flanked occurrences of the value are replaced by the
separator until none is left. For values without the separator that is the same as taking the value
out of the elements and putting it at the end, empty elements of the variable included.
-/

namespace Ocx

open List

variable {c : Char} {v : String}

/-- Append values to a list, one after the other. -/
def appendAll (c : Char) (values : List String) (existing : String) : String :=
  values.foldl (fun list v => appendUnique list v (String.singleton c)) existing

def elements (c : Char) (list : String) : List String :=
  ((list.toList.splitOn c).filter (· ≠ [])).map String.ofList

/-- The elements after a value is appended. A list without characters has no elements. -/
def appendElement (c : Char) (v : List Char) (list : List (List Char)) : List (List Char) :=
  let kept := list.filter (· ≠ v)
  if [c].intercalate kept = [] then [v] else kept ++ [v]

theorem survivors_eq {b : List Char} {kept : List (List Char)}
    (h : b.splitOn c = [] :: (kept ++ [[]])) :
    ((stripFront [c] b).bind (stripEnd [c])).getD [] = [c].intercalate kept := by
  rw [stripFront_of_splitOn h, Option.bind_some]
  split_ifs with hnone
  · simp [stripEnd, hnone]
  · rw [stripEnd_eq_some.2 rfl, Option.getD_some]

/-- **Appending works on the elements** of the list. -/
theorem splitOn_appendUnique (hne : v ≠ "") (hv : c ∉ v.toList) (list : String) :
    (appendUnique list v (String.singleton c)).toList.splitOn c =
      appendElement c v.toList (list.toList.splitOn c) := by
  have hlt : [c].length < (c :: v.toList ++ [c]).length := by simp
  obtain ⟨hpath, hend⟩ := replaceUntil_spec hlt (le_refl (c :: list.toList ++ [c]).length)
  have hsurvivors :=
    survivors_eq (splitOn_of_irreducible hv hpath hend (splitOn_wrap c list.toList))
  have hfree : ∀ piece ∈ (list.toList.splitOn c).filter (· ≠ v.toList), c ∉ piece :=
    fun piece hpiece => notMem_of_mem_splitOn (mem_filter.1 hpiece).1
  unfold appendUnique withoutElement appendElement
  simp only [if_neg hne, String.toList_singleton, singleton_append]
  rw [hsurvivors]
  split_ifs with hempty
  · exact splitOn_eq_singleton hv
  · rw [String.toList_ofList, append_assoc, singleton_append,
      splitOn_append_cons_self, splitOn_eq_singleton hv,
      splitOn_intercalate c hfree (fun h => hempty (by rw [h]; rfl))]

/-! ### Sequences of values -/

theorem splitOn_appendAll {values : List String}
    (h : ∀ v ∈ values, v ≠ "" ∧ c ∉ v.toList) (existing : String) :
    (appendAll c values existing).toList.splitOn c =
      (values.map String.toList).foldl (fun list v => appendElement c v list)
        (existing.toList.splitOn c) := by
  induction values generalizing existing with
  | nil => rfl
  | cons v values ih =>
    obtain ⟨hne, hv⟩ := h v (by simp)
    rw [map_cons, foldl_cons, ← splitOn_appendUnique hne hv]
    exact ih (fun w hw => h w (by simp [hw])) _

variable {list values front : List (List Char)}

theorem intercalate_eq_nil_iff :
    [c].intercalate list = [] ↔ list = [] ∨ list = [[]] := by
  rcases list with - | ⟨a, - | ⟨b, rest⟩⟩ <;> simp [intercalate]

theorem intercalate_ne_nil {v : List Char} (hv : v ∈ list)
    (hne : v ≠ []) : [c].intercalate list ≠ [] := by
  rw [Ne, intercalate_eq_nil_iff]
  rintro (rfl | rfl)
  · cases hv
  · exact hne (mem_singleton.1 hv)

theorem filter_appendElement {v : List Char} (hne : v ≠ []) (list : List (List Char)) :
    (appendElement c v list).filter (· ≠ []) = (list.filter (· ≠ [])).filter (· ≠ v) ++ [v] := by
  have hkept : (list.filter (· ≠ [])).filter (· ≠ v) = (list.filter (· ≠ v)).filter (· ≠ []) := by
    rw [filter_comm]
  rw [appendElement, hkept]
  split_ifs with hempty
  · rcases intercalate_eq_nil_iff.1 hempty with h | h <;> rw [h] <;> simp [hne]
  · simp [hne]

/-- Taking a value out and putting it at the end, for one value after the other. -/
theorem foldl_moveToEnd (values list : List (List Char)) :
    values.foldl (fun list v => list.filter (· ≠ v) ++ [v]) list =
      list.filter (· ∉ values) ++ values.dedup := by
  induction values using reverseRecOn with
  | nil => simp
  | append_singleton values v ih =>
    rw [foldl_concat, ih, dedup_concat, filter_append, filter_filter,
      append_assoc]
    congr 2
    funext w
    simp [and_comm]

theorem filter_foldl_appendElement (h : ∀ v ∈ values, v ≠ [])
    (list : List (List Char)) :
    (values.foldl (fun list v => appendElement c v list) list).filter (· ≠ []) =
      (list.filter (· ≠ [])).filter (· ∉ values) ++ values.dedup := by
  rw [← foldl_moveToEnd]
  induction values generalizing list with
  | nil => rfl
  | cons v values ih =>
    rw [foldl_cons, foldl_cons, ih (fun w hw => h w (by simp [hw])),
      filter_appendElement (h v (by simp))]

/-- The values do not occur before the place where they are put, and what is there is not the one
empty element that the only value would take with it. -/
def Stays (c : Char) (values front : List (List Char)) : Prop :=
  (∀ v ∈ values, v ∉ front) ∧
    (front = [] ∨ [c].intercalate front ≠ [] ∨ ∃ v ∈ values, ∃ w ∈ values, v ≠ w)

theorem exists_stays (h : ∀ v ∈ values, v ≠ [])
    (hvalues : values ≠ []) (list : List (List Char)) :
    ∃ front, values.foldl (fun list v => appendElement c v list) list = front ++ values.dedup ∧
      Stays c values front := by
  induction values using reverseRecOn with
  | nil => exact absurd rfl hvalues
  | append_singleton values v ih =>
    rw [foldl_concat, dedup_concat]
    -- the values before the last one
    obtain ⟨front, hfold, hfront⟩ : ∃ front,
        values.foldl (fun list v => appendElement c v list) list = front ++ values.dedup ∧
          ∀ w ∈ values, w ∉ front := by
      rcases eq_or_ne values [] with rfl | hne
      · exact ⟨list, by simp, by simp⟩
      · obtain ⟨front, hfold, hstays⟩ := ih (fun w hw => h w (by simp [hw])) hne
        exact ⟨front, hfold, hstays.1⟩
    have hout : ∀ w ∈ values ++ [v], w ∉ front.filter (· ≠ v) := by
      intro w hw hmem
      obtain ⟨hmem, hwv⟩ := mem_filter.1 hmem
      rcases mem_append.1 hw with hw | hw
      · exact hfront w hw hmem
      · exact (of_decide_eq_true hwv) (mem_singleton.1 hw)
    rw [hfold, appendElement, filter_append]
    by_cases hrest : values.dedup.filter (· ≠ v) = []
    · rw [hrest, append_nil]
      split_ifs with hempty
      · exact ⟨[], by simp, by simp, .inl rfl⟩
      · exact ⟨front.filter (· ≠ v), rfl, hout, .inr (.inl hempty)⟩
    · obtain ⟨w, hw⟩ := exists_mem_of_ne_nil _ hrest
      have hother := mem_filter.1 hw
      have hmem : w ∈ values := mem_dedup.1 hother.1
      rw [if_neg (intercalate_ne_nil (mem_append_right _ hw) (h w (by simp [hmem])))]
      refine ⟨front.filter (· ≠ v), by simp, hout, .inr (.inr ?_)⟩
      exact ⟨w, by simp [hmem], v, by simp, of_decide_eq_true hother.2⟩

theorem appendElement_stays {rest : List (List Char)} {v : List Char}
    (h : ∀ v ∈ values, v ≠ []) (hstays : Stays c values front) (hrest : ∀ w, w ∈ rest ↔ w ∈ values)
    (hv : v ∈ values) :
    appendElement c v (front ++ rest) = front ++ (rest.filter (· ≠ v) ++ [v]) := by
  have hfront : front.filter (· ≠ v) = front :=
    filter_eq_self.2 fun e he => by simpa using ne_of_mem_of_not_mem he (hstays.1 v hv)
  rw [appendElement, filter_append, hfront]
  split_ifs with hempty
  · have hall : ∀ w ∈ values, w = v := by
      intro w hw
      by_contra hwv
      have hmem : w ∈ front ++ rest.filter (· ≠ v) := by simp [(hrest w).2 hw, hwv]
      exact intercalate_ne_nil hmem (h w hw) hempty
    have hnone : rest.filter (· ≠ v) = [] :=
      filter_eq_nil_iff.2 fun w hw => by simpa using hall w ((hrest w).1 hw)
    rw [hnone, append_nil] at hempty
    rcases hstays.2 with rfl | hchars | ⟨w, hw, w', hw', hne⟩
    · rw [hnone]
      rfl
    · exact absurd hempty hchars
    · exact absurd ((hall w hw).trans (hall w' hw').symm) hne
  · simp

theorem foldl_appendElement_stays (h : ∀ v ∈ values, v ≠ [])
    (hstays : Stays c values front) :
    values.foldl (fun list v => appendElement c v list) (front ++ values.dedup) =
      front ++ values.dedup := by
  have hfold : ∀ vs rest : List (List Char), (∀ v ∈ vs, v ∈ values) →
      (∀ w, w ∈ rest ↔ w ∈ values) →
      vs.foldl (fun list v => appendElement c v list) (front ++ rest) =
        front ++ vs.foldl (fun list v => list.filter (· ≠ v) ++ [v]) rest := by
    intro vs
    induction vs with
    | nil => exact fun _ _ _ => rfl
    | cons v vs ih =>
      intro rest hvs hrest
      have hv := hvs v (by simp)
      rw [foldl_cons, foldl_cons, appendElement_stays h hstays hrest hv]
      refine ih _ (fun w hw => hvs w (by simp [hw])) fun w => ?_
      by_cases hwv : w = v
      · simp [hwv, hv]
      · simp [hwv, hrest w]
  rw [hfold values values.dedup (fun _ hv => hv) fun w => mem_dedup, foldl_moveToEnd]
  have hnone : values.dedup.filter (· ∉ values) = [] :=
    filter_eq_nil_iff.2 fun w hw => by simpa using mem_dedup.1 hw
  rw [hnone, nil_append]

/-- **List append has element semantics.** The elements of the list that are none of the values stay
in order, then comes every value once, in the order of its last occurrence; and appending the same
values again changes nothing. -/
theorem elements_appendAll (c : Char) (values : List String)
    (h : ∀ v ∈ values, v ≠ "" ∧ c ∉ v.toList) (existing : String) :
    elements c (appendAll c values existing) =
        (elements c existing).filter (· ∉ values) ++ values.dedup ∧
      appendAll c values (appendAll c values existing) = appendAll c values existing := by
  have hne : ∀ v ∈ values.map String.toList, v ≠ [] := by
    intro v hv
    obtain ⟨w, hw, rfl⟩ := mem_map.1 hv
    simpa using (h w hw).1
  have hinj : Function.Injective String.toList := fun _ _ => String.toList_injective
  constructor
  · rw [elements, splitOn_appendAll h, filter_foldl_appendElement hne, map_append,
      dedup_map_of_injective hinj, map_map, elements, filter_map]
    congr 1
    · congr 2
      funext w
      have hmem : w ∈ values.map String.toList ↔ String.ofList w ∈ values := by
        rw [← String.toList_ofList (l := w), mem_map_of_injective hinj, String.ofList_toList]
      exact decide_eq_decide.2 (not_congr hmem)
    · simp
  · refine String.toList_injective (splitOn_inj (c := c) ?_)
    rw [splitOn_appendAll h]
    rcases eq_or_ne values [] with rfl | hvalues
    · rfl
    · obtain ⟨front, hfold, hstays⟩ :=
        exists_stays (c := c) hne (by simpa using hvalues) (existing.toList.splitOn c)
      rw [splitOn_appendAll h, hfold]
      exact foldl_appendElement_stays hne hstays

theorem elements_appendAll_options :
    elements ' ' (appendAll ' ' ["-ea", "-v", "-ea"] " -ea -x") = ["-x", "-v", "-ea"] := by
  have h := (elements_appendAll ' ' ["-ea", "-v", "-ea"] (by decide) " -ea -x").1
  exact h.trans (by decide)

end Ocx
