import Ocx.Shell.Lists

/-!
# Path lines for a shell

The line that puts a directory in front of a path variable is run by a shell, and has to leave what
the fold in the process leaves. For bash and zsh it rewrites the text: `:value:` to `:` until
nothing changes, then `::` to `:`. For the plain shells `awk` filters the segments, and `awk`
compares two texts that both look like numbers as numbers.
-/

namespace Ocx

open List

variable {value : String} {segments : List (List Char)}

/-- Run a substitution until it changes nothing. -/
def untilStable (f : List Char → List Char) : ℕ → List Char → List Char
  | 0, s => s
  | fuel + 1, s => if f s = s then s else untilStable f fuel (f s)

/-- The line for bash and zsh. -/
def exportPathBash (value ambient : String) : String :=
  let wrapped := ':' :: ambient.toList ++ [':']
  let removed :=
    untilStable (replaceAll (':' :: value.toList ++ [':']) [':']) wrapped.length wrapped
  let collapsed := untilStable (replaceAll (':' :: [] ++ [':']) [':']) removed.length removed
  let front := (stripFront [':'] collapsed).getD collapsed
  let trimmed := (stripEnd [':'] front).getD front
  String.ofList (value.toList ++ if trimmed = [] then [] else ':' :: trimmed)

variable {ν : Type*} [DecidableEq ν]

/-- Two texts are equal for `awk`, which has read those that look like numbers. -/
def awkEq (number : String → Option ν) (a b : String) : Bool :=
  match number a, number b with
  | some m, some n => m = n
  | _, _ => a = b

/-- The line for ash, ksh and dash, for texts without line breaks. -/
def exportPathAwk (number : String → Option ν) (value ambient : String) : String :=
  let kept := (splitPaths ambient).filter fun record => !awkEq number record value && record ≠ ""
  String.ofList (value.toList ++ kept.flatMap fun record => ':' :: record.toList)

/-- A segment that is not the value, but the same number for `awk`. -/
def NumericTwin (number : String → Option ν) (value segment : String) : Prop :=
  segment ≠ value ∧ ∃ n, number segment = some n ∧ number value = some n

/-! ### Bash and zsh -/

theorem untilStable_replaceAll {pattern new : List Char} (hlt : new.length < pattern.length)
    (fuel : ℕ) (s : List Char) :
    untilStable (replaceAll pattern new) fuel s = replaceUntil pattern new fuel s := by
  induction fuel generalizing s with
  | zero => rfl
  | succ fuel ih =>
    obtain ⟨hpath, hshort⟩ := replaceAll_spec hlt s
    have hstable : replaceAll pattern new s = s ↔ ¬hasOccurrence pattern s = true := by
      rw [hasOccurrence_iff]
      exact ⟨fun heq hin => by have := hshort hin; rw [heq] at this; omega,
        fun hnone => hpath.eq_of_irreducible hnone⟩
    rw [untilStable, replaceUntil, ih]
    by_cases hocc : hasOccurrence pattern s = true
    · rw [if_neg (fun heq => hstable.1 heq hocc), if_pos hocc]
    · rw [if_pos (hstable.2 hocc), if_neg hocc]

theorem splitOn_untilStable {c : Char} {v s : List Char} {elements : List (List Char)} (hv : c ∉ v)
    (h : s.splitOn c = [] :: (elements ++ [[]])) :
    (untilStable (replaceAll (c :: v ++ [c]) [c]) s.length s).splitOn c =
      [] :: (elements.filter (· ≠ v) ++ [[]]) := by
  have hlt : [c].length < (c :: v ++ [c]).length := by simp
  obtain ⟨hpath, hend⟩ := replaceUntil_spec hlt (le_refl s.length)
  rw [untilStable_replaceAll hlt]
  exact splitOn_of_irreducible hv hpath hend h

/-- The segments of a path variable that are kept. -/
def keptSegments (value ambient : String) : List (List Char) :=
  ((ambient.toList.splitOn ':').filter (· ≠ value.toList)).filter (· ≠ [])

theorem mem_keptSegments {ambient : String} {segment : List Char} :
    segment ∈ keptSegments value ambient ↔
      segment ∈ ambient.toList.splitOn ':' ∧ segment ≠ value.toList ∧ segment ≠ [] := by
  simp [keptSegments, and_comm]

theorem cons_intercalate {c : Char} (h : segments ≠ []) :
    c :: [c].intercalate segments = segments.flatMap (c :: ·) := by
  induction segments with
  | nil => exact absurd rfl h
  | cons first rest ih =>
    rcases eq_or_ne rest [] with rfl | hrest
    · simp
    · rw [flatMap_cons, ← ih hrest]
      obtain ⟨second, rest, rfl⟩ := exists_cons_of_ne_nil hrest
      simp [intercalate]

theorem toList_exportPathBash (hv : ':' ∉ value.toList) (ambient : String) :
    (exportPathBash value ambient).toList =
      value.toList ++ (keptSegments value ambient).flatMap (':' :: ·) := by
  have hremoved := splitOn_untilStable hv (splitOn_wrap ':' ambient.toList)
  have hcollapsed := splitOn_untilStable (not_mem_nil (a := ':')) hremoved
  rw [← keptSegments] at hcollapsed
  simp only [exportPathBash, stripFront_of_splitOn hcollapsed, Option.getD_some,
    String.toList_ofList]
  by_cases hnone : keptSegments value ambient = []
  · simp [hnone, stripEnd]
  · have hchars : [':'].intercalate (keptSegments value ambient) ≠ [] := by
      obtain ⟨segment, hmem⟩ := exists_mem_of_ne_nil _ hnone
      exact intercalate_ne_nil hmem (mem_keptSegments.1 hmem).2.2
    rw [if_neg hnone, stripEnd_eq_some.2 rfl, Option.getD_some, if_neg hchars,
      cons_intercalate hnone]

/-! ### The fold and `awk` -/

theorem ofList_eq_iff {chars : List Char} {s : String} :
    String.ofList chars = s ↔ chars = s.toList := by
  rw [← String.toList_inj, String.toList_ofList]

/-- A filter on the segments is one on their characters. -/
theorem map_filter_splitPaths (p : String → Bool) (ambient : String) :
    ((splitPaths ambient).filter p).map String.toList =
      (ambient.toList.splitOn ':').filter fun segment => p (String.ofList segment) := by
  have hid : String.toList ∘ String.ofList = id := funext fun _ => String.toList_ofList
  rw [splitPaths, filter_map, map_map, hid, map_id]
  rfl

theorem toList_moveToFront (hne : value ≠ "") (ambient : String) :
    (moveToFront ambient value).toList =
      value.toList ++ (keptSegments value ambient).flatMap (':' :: ·) := by
  have hkept : ((splitPaths ambient).filter fun segment => segment ≠ "" ∧ segment ≠ value).map
      String.toList = keptSegments value ambient := by
    rw [map_filter_splitPaths, keptSegments, filter_filter]
    refine filter_congr fun segment _ => ?_
    simp [ofList_eq_iff]
  have hretained : (retained ambient value).toList =
      [':'].intercalate (keptSegments value ambient) := by
    rw [retained, joinPaths, hkept, String.toList_ofList]
    rfl
  rw [moveToFront, if_neg hne]
  by_cases hnone : keptSegments value ambient = []
  · have hempty : retained ambient value = "" := String.toList_inj.1 (by rw [hretained, hnone]; rfl)
    rw [if_pos hempty, hnone]
    simp
  · have hchars : retained ambient value ≠ "" := by
      obtain ⟨segment, hmem⟩ := exists_mem_of_ne_nil _ hnone
      rw [Ne, ← String.toList_inj, hretained]
      exact intercalate_ne_nil hmem (mem_keptSegments.1 hmem).2.2
    rw [if_neg hchars, ← cons_intercalate hnone, ← hretained]
    simp [pathSeparator]

theorem splitOn_append_flatMap {front : List Char}
    (hfront : ':' ∉ front) (h : ∀ segment ∈ segments, ':' ∉ segment) :
    (front ++ segments.flatMap (':' :: ·)).splitOn ':' = front :: segments := by
  rcases eq_or_ne segments [] with rfl | hsome
  · simpa using splitOn_eq_singleton hfront
  · rw [← cons_intercalate hsome, splitOn_append_cons_self, splitOn_eq_singleton hfront,
      splitOn_intercalate ':' h hsome]
    rfl

theorem notMem_of_mem_keptSegments {ambient : String} {segment : List Char}
    (h : segment ∈ keptSegments value ambient) : ':' ∉ segment :=
  notMem_of_mem_splitOn (mem_keptSegments.1 h).1

/-- The segments after a value is put in front are the value and those that were kept. -/
theorem keptSegments_moveToFront (hne : value ≠ "") (hv : ':' ∉ value.toList)
    (ambient : String) :
    (moveToFront ambient value).toList.splitOn ':' = value.toList :: keptSegments value ambient ∧
      keptSegments value (moveToFront ambient value) = keptSegments value ambient := by
  have hsplit : (moveToFront ambient value).toList.splitOn ':' =
      value.toList :: keptSegments value ambient := by
    rw [toList_moveToFront hne]
    exact splitOn_append_flatMap hv fun segment h => notMem_of_mem_keptSegments h
  refine ⟨hsplit, ?_⟩
  rw [keptSegments, hsplit, filter_cons_of_neg (by simp), filter_filter,
    filter_eq_self]
  intro segment hmem
  simpa [and_comm] using (mem_keptSegments.1 hmem).2

theorem awkEq_iff {number : String → Option ν} {a b : String} :
    awkEq number a b = true ↔ a = b ∨ NumericTwin number b a := by
  unfold awkEq NumericTwin
  rcases eq_or_ne a b with rfl | hne
  · cases number a <;> simp
  · cases number a <;> cases number b <;> simp [hne]
    exact eq_comm

theorem toList_exportPathAwk (number : String → Option ν) (value ambient : String) :
    (exportPathAwk number value ambient).toList = value.toList ++
      ((keptSegments value ambient).filter fun segment =>
        !awkEq number (String.ofList segment) value).flatMap (':' :: ·) := by
  have hkept := map_filter_splitPaths
    (fun record => !awkEq number record value && record ≠ "") ambient
  rw [exportPathAwk, String.toList_ofList, ← flatMap_map, hkept, keptSegments,
    filter_filter, filter_filter]
  congr 2
  refine filter_congr fun segment _ => ?_
  rcases eq_or_ne segment value.toList with rfl | hne
  · have hself : awkEq number value value = true := awkEq_iff.2 (.inl rfl)
    simp [hself]
  · simp [hne, ofList_eq_iff]

/-- The segments that `awk` keeps are all that are to be kept, unless one is a numeric twin. -/
theorem exportPathAwk_eq_iff (number : String → Option ν) (hne : value ≠ "")
    (ambient : String) :
    exportPathAwk number value ambient = moveToFront ambient value ↔
      ∀ segment ∈ keptSegments value ambient,
        ¬NumericTwin number value (String.ofList segment) := by
  have hself : (∀ segment ∈ keptSegments value ambient,
      ¬NumericTwin number value (String.ofList segment)) ↔
      ((keptSegments value ambient).filter fun segment =>
        !awkEq number (String.ofList segment) value) = keptSegments value ambient := by
    rw [filter_eq_self]
    refine forall₂_congr fun segment hmem => ?_
    have hother : String.ofList segment ≠ value := fun heq =>
      (mem_keptSegments.1 hmem).2.1 (ofList_eq_iff.1 heq)
    rw [Bool.not_eq_true', ← Bool.not_eq_true, awkEq_iff]
    simp [hother]
  rw [hself, ← String.toList_inj, toList_exportPathAwk, toList_moveToFront hne,
    append_right_inj]
  refine ⟨fun h => ?_, fun h => by rw [h]⟩
  have hinj : ∀ {a b : List (List Char)}, (∀ segment ∈ a, ':' ∉ segment) →
      (∀ segment ∈ b, ':' ∉ segment) → a.flatMap (':' :: ·) = b.flatMap (':' :: ·) → a = b := by
    intro a b ha hb heq
    have hsplit := congrArg (fun s => ([] ++ s).splitOn ':') heq
    rw [splitOn_append_flatMap not_mem_nil ha, splitOn_append_flatMap not_mem_nil hb] at hsplit
    exact (cons.inj hsplit).2
  exact hinj (fun s hs => notMem_of_mem_keptSegments (mem_filter.1 hs).1)
    (fun s hs => notMem_of_mem_keptSegments hs) h

/-- **The lines for a path variable agree with the fold**, and running them twice is running them
once, exactly if no segment of the variable is a numeric twin of the value. -/
theorem exportPath_exact_iff (number : String → Option ν) (ambient value : String)
    (hne : value ≠ "") (hv : ':' ∉ value.toList) :
    (exportPathBash value ambient = moveToFront ambient value ∧
      exportPathAwk number value ambient = moveToFront ambient value ∧
      exportPathBash value (exportPathBash value ambient) = exportPathBash value ambient ∧
      exportPathAwk number value (exportPathAwk number value ambient) =
        exportPathAwk number value ambient) ↔
      ∀ segment ∈ splitPaths ambient, segment ≠ "" → ¬NumericTwin number value segment := by
  have hbash : ∀ a, exportPathBash value a = moveToFront a value := fun a =>
    String.toList_inj.1 (by rw [toList_exportPathBash hv, toList_moveToFront hne])
  have hkept := (keptSegments_moveToFront hne hv ambient).2
  have htwice : moveToFront (moveToFront ambient value) value = moveToFront ambient value :=
    String.toList_inj.1 (by rw [toList_moveToFront hne, hkept, toList_moveToFront hne])
  have htwin : (∀ segment ∈ splitPaths ambient, segment ≠ "" → ¬NumericTwin number value segment) ↔
      ∀ segment ∈ keptSegments value ambient,
        ¬NumericTwin number value (String.ofList segment) := by
    simp only [splitPaths, forall_mem_map, mem_keptSegments, pathSeparator]
    constructor
    · intro h segment hmem
      exact h segment hmem.1 fun heq => hmem.2.2 (ofList_eq_iff.1 heq)
    · intro h segment hmem hchars htwin
      exact h segment ⟨hmem, fun heq => htwin.1 (ofList_eq_iff.2 heq),
        fun heq => hchars (ofList_eq_iff.2 heq)⟩ htwin
  rw [htwin]
  constructor
  · exact fun h => (exportPathAwk_eq_iff number hne ambient).1 h.2.1
  · intro h
    have hawk := (exportPathAwk_eq_iff number hne ambient).2 h
    have hagain := (exportPathAwk_eq_iff number hne (moveToFront ambient value)).2 (hkept ▸ h)
    exact ⟨hbash ambient, hawk, by rw [hbash, hbash, htwice], by rw [hawk, hagain, htwice]⟩

/-- Integers as `awk` reads them. -/
def awkInteger (s : String) : Option ℕ :=
  if s ≠ "" ∧ s.toList.all Char.isDigit then
    some (s.toList.foldl (fun n c => 10 * n + (c.toNat - '0'.toNat)) 0)
  else none

theorem exportPath_exact_bin :
    exportPathAwk awkInteger "/opt/bin" "/bin::/opt/bin" =
      moveToFront "/bin::/opt/bin" "/opt/bin" := by
  have h := exportPath_exact_iff awkInteger "/bin::/opt/bin" "/opt/bin" (by decide) (by decide)
  exact (h.2 (by rintro segment - - ⟨-, n, -, hn⟩; revert hn; decide +revert)).2.1

/-- A directory `01` is taken for the directory `1`, and is lost. -/
theorem awk_drops_numeric_twin :
    moveToFront "01:bin" "1" = "1:01:bin" ∧ exportPathAwk awkInteger "1" "01:bin" = "1:bin" := by
  decide

end Ocx
