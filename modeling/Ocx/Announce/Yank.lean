import Ocx.Announce.Rebuild

/-!
# Marking and clearing rows

A tag that is yanked gets a marker in its row, behind the time of observation, and a tag that is
unyanked loses it.  Each list of tags changes the rows it names and nothing else, so that marking
and then clearing a list is one change of these rows.

The marker is taken out by moving the last field of the row into the gap.  The fields are back in
their order exactly when at most one of them stands behind the time of observation.
-/

namespace Ocx.Announce

variable {root : Root} {tag : String} {tags : List String} {row : TagRow}
  {entry : OrderedMap String RowField}
  {f g : OrderedMap String RowField → OrderedMap String RowField}

/-! ### Changes of the rows -/

/-- Change the members of an object. -/
def Value.mapObject {α : Type} (f : OrderedMap String α → OrderedMap String α) : Value α → Value α
  | .object members => .object (f members)
  | value => value

/-- Change the rows of a root, in place. -/
def mapRows (f : String → TagRow → TagRow) (root : Root) : Root :=
  root.mapObject (·.mapValues fun key field =>
    if key = "tags" then field.mapObject (·.mapValues f) else field)

open JsonNode OrderedMap Value

theorem Value.asObject_eq_some_iff {α : Type} {value : Value α} {members : OrderedMap String α} :
    value.asObject = some members ↔ value = .object members := by
  cases value <;> simp [asObject]

theorem tagRow_eq_some_iff_exists :
    tagRow root tag = some row ↔ ∃ members rows, root = .object members ∧
      members.get "tags" = some (.object rows) ∧ rows.get tag = some row := by
  unfold tagRow tagRows
  constructor
  · intro h
    rw [Option.bind_eq_some_iff] at h
    obtain ⟨rows, hrows, hrow⟩ := h
    rw [Option.bind_eq_some_iff] at hrows
    obtain ⟨field, hfield, hrows⟩ := hrows
    rw [Value.get, Option.bind_eq_some_iff] at hfield
    obtain ⟨members, hmembers, hfield⟩ := hfield
    obtain rfl := asObject_eq_some_iff.1 hrows
    exact ⟨members, rows, asObject_eq_some_iff.1 hmembers, hfield, hrow⟩
  · rintro ⟨members, rows, rfl, hfield, hrow⟩
    simp [hfield, asObject, hrow]

theorem mapRows_mapRows (f g : String → TagRow → TagRow) (root : Root) :
    mapRows g (mapRows f root) = mapRows (fun tag row => g tag (f tag row)) root := by
  rcases root with _ | _ | _ | _ | _ | members
  case object =>
    refine congrArg object ((mapValues_mapValues _ _).trans ?_)
    refine mapValues_eq_iff.2 fun key field _ => ?_
    split_ifs
    · rcases field with _ | _ | _ | _ | _ | rows
      case object => exact congrArg object (mapValues_mapValues _ _)
      all_goals rfl
    · rfl
  all_goals rfl

theorem mapRows_eq_iff {f g : String → TagRow → TagRow} :
    mapRows f root = mapRows g root ↔
      ∀ tag row, tagRow root tag = some row → f tag row = g tag row := by
  constructor
  · intro h tag row hrow
    obtain ⟨members, rows, rfl, hfield, hget⟩ := tagRow_eq_some_iff_exists.1 hrow
    have hrows := mapValues_eq_iff.1 (object.inj h) "tags" _ hfield
    exact mapValues_eq_iff.1 (object.inj hrows) tag row hget
  · intro h
    rcases root with _ | _ | _ | _ | _ | members
    case object =>
      refine congrArg object (mapValues_eq_iff.2 fun key field hfield => ?_)
      split_ifs with hkey
      · rcases field with _ | _ | _ | _ | _ | rows
        case object =>
          refine congrArg object (mapValues_eq_iff.2 fun tag row hrow => ?_)
          exact h tag row (tagRow_eq_some_iff_exists.2 ⟨members, rows, rfl, hkey ▸ hfield, hrow⟩)
        all_goals rfl
      · rfl
    all_goals rfl

theorem mapRows_id (root : Root) : mapRows (fun _ row => row) root = root := by
  rcases root with _ | _ | _ | _ | _ | members
  case object =>
    refine congrArg object (Eq.trans ?_ mapValues_id)
    refine mapValues_eq_iff.2 fun key field _ => ?_
    split_ifs
    · rcases field with _ | _ | _ | _ | _ | rows
      case object => exact congrArg object mapValues_id
      all_goals rfl
    · rfl
  all_goals rfl

theorem tagRow_mapRows {f : String → TagRow → TagRow} (h : tagRow root tag = some row) :
    tagRow (mapRows f root) tag = some (f tag row) := by
  obtain ⟨members, rows, rfl, hfield, hrow⟩ := tagRow_eq_some_iff_exists.1 h
  refine tagRow_eq_some_iff_exists.2 ⟨_, rows.mapValues f, rfl, ?_, ?_⟩
  · rw [get_mapValues, hfield]
    rfl
  · rw [get_mapValues, hrow]
    rfl

/-- The change of the rows of some tags. -/
def onTags (tags : List String) (f : OrderedMap String RowField → OrderedMap String RowField)
    (tag : String) (row : TagRow) : TagRow :=
  if tag ∈ tags then row.mapObject f else row

theorem updateRow_eq (h : tagRow root tag = some (.object entry)) :
    updateRow root tag f = some (mapRows (onTags [tag] f) root) := by
  obtain ⟨members, rows, rfl, hfield, hrow⟩ := tagRow_eq_some_iff_exists.1 h
  have hupdate : updateRow (.object members) tag f = some (.object (members.insert "tags"
      (.object (rows.insert tag (.object (f entry)))))) := by
    simp [updateRow, tagRows, hfield, hrow, asObject]
  have hrows : rows.insert tag (.object (f entry)) = rows.mapValues (onTags [tag] f) := by
    refine (insert_eq_mapValues hrow (mapObject f)).trans ?_
    refine mapValues_eq_iff.2 fun tag' row _ => ?_
    simp [onTags]
  rw [hupdate, hrows]
  exact congrArg (some ∘ object)
    (insert_eq_mapValues hfield (mapObject (·.mapValues (onTags [tag] f))))

/-- A loop that changes the rows of a list of tags is one change of these rows, when changing a row
again does nothing. -/
theorem foldlM_updateRow {step : Root → String → Except AnnounceError Root}
    (hstep : ∀ root root' tag, updateRow root tag f = some root' → step root tag = .ok root')
    (h : ∀ tag ∈ tags, ∃ entry, tagRow root tag = some (.object entry) ∧ f (f entry) = f entry) :
    tags.foldlM step root = .ok (mapRows (onTags tags f) root) := by
  induction tags generalizing root with
  | nil =>
    rw [← mapRows_id root, mapRows_mapRows]
    rfl
  | cons tag tags ih =>
    obtain ⟨entry, hrow, hagain⟩ := h tag List.mem_cons_self
    rw [List.foldlM_cons, hstep root _ tag (updateRow_eq hrow)]
    refine (ih fun tag' htag' => ?_).trans ?_
    · obtain ⟨entry', hrow', hagain'⟩ := h tag' (List.mem_cons_of_mem _ htag')
      rw [tagRow_mapRows hrow', onTags]
      split_ifs
      · exact ⟨f entry', rfl, by rw [hagain', hagain']⟩
      · exact ⟨entry', rfl, hagain'⟩
    · refine congrArg Except.ok ((mapRows_mapRows _ _ _).trans (mapRows_eq_iff.2 ?_))
      intro tag' row hrow'
      by_cases htag : tag' = tag
      · subst htag
        obtain rfl : .object entry = row := Option.some.inj (hrow.symm.trans hrow')
        by_cases hmem : tag' ∈ tags <;> simp [onTags, hmem, mapObject, hagain]
      · simp [onTags, htag]

/-! ### Markers -/

/-- A row as it stands before it is marked. -/
structure Unmarked (entry : OrderedMap String RowField) : Prop where
  content : "content" ∈ entry.keys
  observed : "observed" ∈ entry.keys
  yanked : "yanked" ∉ entry.keys

/-- At most one field stands behind the time of observation. -/
def ObservedNearEnd (entry : OrderedMap String RowField) : Prop :=
  ∀ i, keyPosition entry "observed" = some i → entry.keys.length ≤ i + 2

theorem Unmarked.exists_markYanked (h : Unmarked entry) (reason now : String) :
    ∃ i, keyPosition entry "observed" = some i ∧
      markYanked reason now entry = entry.shiftInsert (i + 1) "yanked" (yankMarker reason now) := by
  have hsome : (keyPosition entry "observed").isSome := by
    rw [keyPosition, List.findIdx?_isSome, List.any_eq_true]
    exact ⟨"observed", h.observed, by simp⟩
  obtain ⟨i, hi⟩ := Option.isSome_iff_exists.1 hsome
  refine ⟨i, hi, ?_⟩
  have hyanked : entry.keys.contains "yanked" = false := by simpa using h.yanked
  rw [markYanked, hyanked, hi]

theorem Unmarked.markYanked_markYanked (h : Unmarked entry) (reason now : String) :
    markYanked reason now (markYanked reason now entry) = markYanked reason now entry := by
  obtain ⟨i, -, hmark⟩ := h.exists_markYanked reason now
  rw [hmark]
  have hget : (entry.shiftInsert (i + 1) "yanked" (yankMarker reason now)).get "yanked" =
      some (yankMarker reason now) := by
    rw [get_eq_some_iff, entries_shiftInsert h.yanked]
    simp
  have hcontains :
      (entry.shiftInsert (i + 1) "yanked" (yankMarker reason now)).keys.contains "yanked" =
        true := by
    simpa using get_isSome_iff.1 (Option.isSome_iff_exists.2 ⟨_, hget⟩)
  rw [markYanked, hcontains]
  exact insert_of_get hget

theorem Unmarked.notMem_keys_clear (h : Unmarked entry) (reason now : String) :
    "yanked" ∉ ((markYanked reason now entry).swapRemove "yanked").keys := by
  obtain ⟨i, -, hmark⟩ := h.exists_markYanked reason now
  rw [hmark]
  exact notMem_keys_swapRemove_shiftInsert h.yanked _

theorem Unmarked.clear_eq_iff (h : Unmarked entry) (reason now : String) :
    (markYanked reason now entry).swapRemove "yanked" = entry ↔ ObservedNearEnd entry := by
  obtain ⟨i, hi, hmark⟩ := h.exists_markYanked reason now
  rw [hmark, swapRemove_shiftInsert_eq_iff h.yanked, ObservedNearEnd, hi, List.length_drop,
    keys, List.length_map]
  simp only [Option.some.injEq, forall_eq']
  omega

theorem applyYankMarkers_yank (h : ∀ tag ∈ tags, ∃ entry, tagRow root tag = some (.object entry) ∧
    Unmarked entry) (reason now : String) :
    applyYankMarkers root tags [] reason now =
      .ok (mapRows (onTags tags (markYanked reason now)) root) := by
  have hfold : tags.foldlM (yankTag reason now) root =
      .ok (mapRows (onTags tags (markYanked reason now)) root) := by
    refine foldlM_updateRow (fun root root' tag hupdate => by rw [yankTag, hupdate]) ?_
    intro tag htag
    obtain ⟨entry, hrow, hentry⟩ := h tag htag
    exact ⟨entry, hrow, hentry.markYanked_markYanked reason now⟩
  simp [applyYankMarkers, hfold]

theorem applyYankMarkers_unyank (h : ∀ tag ∈ tags, ∃ entry,
      tagRow root tag = some (.object entry) ∧ "yanked" ∉ (entry.swapRemove "yanked").keys)
    (reason now : String) :
    applyYankMarkers root [] tags reason now =
      .ok (mapRows (onTags tags (·.swapRemove "yanked")) root) := by
  have hfold : tags.foldlM unyankTag root =
      .ok (mapRows (onTags tags (·.swapRemove "yanked")) root) := by
    refine foldlM_updateRow (fun root root' tag hupdate => by rw [unyankTag, hupdate]) ?_
    intro tag htag
    obtain ⟨entry, hrow, hentry⟩ := h tag htag
    exact ⟨entry, hrow, swapRemove_of_notMem hentry⟩
  simp [applyYankMarkers, hfold]

/-- **Unyanking undoes yanking.** Marking a list of tags and clearing it gives the root back, with
every field in its place, exactly when each of their rows has at most one field behind the time of
observation. -/
theorem unyank_yank_eq_iff (root : Root) (yank : List String) (reason now reason' now' : String)
    (hrows : ∀ tag row, tagRow root tag = some row → ∃ entry, row = .object entry ∧ Unmarked entry)
    (hyank : ∀ tag ∈ yank, (tagRow root tag).isSome) :
    ((applyYankMarkers root yank [] reason now).bind fun marked =>
        applyYankMarkers marked [] yank reason' now') = .ok root ↔
      ∀ tag ∈ yank, ∀ entry, tagRow root tag = some (.object entry) → ObservedNearEnd entry := by
  have hentries : ∀ tag ∈ yank, ∃ entry, tagRow root tag = some (.object entry) ∧
      Unmarked entry := by
    intro tag htag
    obtain ⟨row, hrow⟩ := Option.isSome_iff_exists.1 (hyank tag htag)
    obtain ⟨entry, rfl, hentry⟩ := hrows tag row hrow
    exact ⟨entry, hrow, hentry⟩
  rw [applyYankMarkers_yank hentries]
  show applyYankMarkers (mapRows _ root) [] yank reason' now' = _ ↔ _
  rw [applyYankMarkers_unyank, mapRows_mapRows, Except.ok.injEq]
  · nth_rewrite 2 [← mapRows_id root]
    rw [mapRows_eq_iff]
    constructor
    · intro h tag htag entry hrow
      obtain ⟨entry', heq, hentry⟩ := hrows tag _ hrow
      obtain rfl := object.inj heq
      have hsame := h tag _ hrow
      rw [onTags, if_pos htag, onTags, if_pos htag] at hsame
      exact (hentry.clear_eq_iff reason now).1 (object.inj hsame)
    · intro h tag row hrow
      obtain ⟨entry, rfl, hentry⟩ := hrows tag row hrow
      by_cases htag : tag ∈ yank
      · rw [onTags, if_pos htag, onTags, if_pos htag]
        exact congrArg object ((hentry.clear_eq_iff reason now).2 (h tag htag entry hrow))
      · rw [onTags, if_neg htag, onTags, if_neg htag]
  · intro tag htag
    obtain ⟨entry, hrow, hentry⟩ := hentries tag htag
    refine ⟨markYanked reason now entry, ?_, hentry.notMem_keys_clear reason now⟩
    rw [tagRow_mapRows hrow, onTags, if_pos htag]
    rfl

/-- A root with one tag. -/
def rootWithRow (tag : String) (entry : OrderedMap String RowField) : Root :=
  .object ((∅ : OrderedMap String DocField).insert "tags"
    (.object ((∅ : OrderedMap String TagRow).insert tag (.object entry))))

theorem exists_entry_rootWithRow (h : Unmarked entry) (tag' : String) (row : TagRow)
    (hrow : tagRow (rootWithRow tag entry) tag' = some row) :
    ∃ entry, row = .object entry ∧ Unmarked entry := by
  obtain ⟨members, rows, hroot, hfield, hget⟩ := tagRow_eq_some_iff_exists.1 hrow
  cases hroot
  rw [get_insert_self, Option.some.injEq, object.injEq] at hfield
  subst hfield
  rw [get_insert, get_empty] at hget
  split_ifs at hget
  exact ⟨entry, (Option.some.inj hget).symm, h⟩

/-- The row of a release candidate, as it is announced. -/
def candidateRow : OrderedMap String RowField :=
  ⟨[("content", .string "sha256:00"), ("observed", .string "2026-01-01"),
    ("ephemeral", .bool true)],
    by decide⟩

theorem unyank_yank_candidate :
    ((applyYankMarkers (rootWithRow "1.0.0-rc1" candidateRow) ["1.0.0-rc1"] [] "broken" "").bind
        fun marked => applyYankMarkers marked [] ["1.0.0-rc1"] "" "") =
      .ok (rootWithRow "1.0.0-rc1" candidateRow) := by
  refine (unyank_yank_eq_iff _ _ _ _ _ _
    (exists_entry_rootWithRow ⟨by decide, by decide, by decide⟩) (by decide)).2 ?_
  intro tag htag entry hrow i hi
  obtain rfl := List.mem_singleton.1 htag
  cases hrow
  cases hi
  decide

/-- A row with a field of a newer writer behind the mark of a release candidate: the mark changes
its place when the row is yanked and unyanked. -/
theorem unyank_yank_reorders :
    let root := rootWithRow "1.0.0-rc1" (candidateRow.insert "x-future" (.bool true))
    let reordered := rootWithRow "1.0.0-rc1" ⟨[("content", .string "sha256:00"),
      ("observed", .string "2026-01-01"), ("x-future", .bool true), ("ephemeral", .bool true)],
        by decide⟩
    (∀ tag row, tagRow root tag = some row → ∃ entry, row = .object entry ∧ Unmarked entry) ∧
      (tagRow root "1.0.0-rc1").isSome ∧
      ((applyYankMarkers root ["1.0.0-rc1"] [] "broken" "").bind fun marked =>
          applyYankMarkers marked [] ["1.0.0-rc1"] "" "") = .ok reordered ∧
      reordered ≠ root :=
  ⟨exists_entry_rootWithRow ⟨by decide, by decide, by decide⟩, by decide, by rfl, by decide⟩

end Ocx.Announce
