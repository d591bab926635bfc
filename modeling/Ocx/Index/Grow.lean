import Ocx.Index.Merge

/-!
# The local copy of a published root only grows

Over a whole run of merges the local copy keeps what it once promised.  Every property is read off
one description of a merge, tag by tag and field by field (`DocCodec.merge_spec`): a row in scope
becomes the listed one, a row in scope that is not listed stays unless it is ephemeral, and
everything else is as before.

The description needs the documents to be JSON objects with object rows.  The typed reader also
accepts arrays, which the merge cannot take apart.
-/

namespace Ocx

open List Option

variable {fields : DocFields} {adopted : List (String × TagRow)}
  {members : Std.ExtTreeMap String RowField} {name : String} {r : TagRow}

/-! ### Object documents -/

/-- A root document that is an object with object rows. -/
structure ObjectShaped (fields : DocFields) : Prop extends Readable fields where
  objects : ∀ (tag : String) (row : TagRow), (rowsOf fields)[tag]? = some row →
    ∃ members, row = .object members

/-- What a merge leaves under a tag that had the row `old`. -/
def mergedRow (scope : RootScope) (fetched : DocFields) (old : Option TagRow) (tag : String) :
    Option TagRow :=
  if scope.includes tag then
    match (rowsOf fetched)[tag]? with
    | some entry => some (settle old entry)
    | none =>
      if (fetched["tags"]?).isSome then old.filter fun row => !isEphemeral row else old
  else old

/-- What a merge leaves in a package-level field. -/
def mergedField (scope : RootScope) (fetched : DocFields) (old : Option DocFields) (key : String) :
    Option DocField :=
  match old, scope with
  | none, _ => fetched[key]?
  | some fields, .package => (fetched[key]?).or fields[key]?
  | some fields, _ => fields[key]?

open JsonNode RootTag DocCodec

theorem rowsOf_insert_tags (fields : DocFields) (rows : TagRows) :
    rowsOf (fields.insert "tags" (.object rows)) = rows := by
  simp [rowsOf, asObject]

theorem rowsOf_congr {fields' : DocFields} (h : fields["tags"]? = fields'["tags"]?) :
    rowsOf fields = rowsOf fields' := by
  rw [rowsOf, rowsOf, h]

theorem Readable.get_tags (h : Readable fields) (tag : String) :
    ((JsonNode.object fields).get "tags").bind (fun tags => tags.get tag) =
      (rowsOf fields)[tag]? := by
  rw [JsonNode.get, rowsOf]
  cases hnode : fields["tags"]? with
  | none => simp
  | some node =>
    obtain ⟨rows, rfl⟩ := h.tags node hnode
    rfl

theorem getD_tags (h : ∀ node, fields["tags"]? = some node → ∃ rows, node = .object rows) :
    (fields["tags"]?).getD (.object ∅) = .object (rowsOf fields) := by
  rw [rowsOf]
  cases hnode : fields["tags"]? with
  | none => rfl
  | some node =>
    obtain ⟨rows, rfl⟩ := h node hnode
    rfl

theorem getElem?_adoptFields (scope : RootScope) (f fields : DocFields) (key : String) :
    (adoptFields scope (.object f) fields).1[key]? =
      match scope with
      | .package => if key = "tags" then fields[key]? else (f[key]?).or fields[key]?
      | _ => fields[key]? := by
  cases scope with
  | tags named => rfl
  | routing => rfl
  | package =>
    have hlisted : ∀ e ∈ f.toList, f[e.1]? = some e.2 := fun e he =>
      Std.ExtTreeMap.mem_toList_iff_getElem?_eq_some.1 he
    have hkeys : key ∈ f.toList.map Prod.fst ↔ (f[key]?).isSome := by
      rw [Std.ExtTreeMap.map_fst_toList_eq_keys, Std.ExtTreeMap.mem_keys,
        Std.ExtTreeMap.mem_iff_isSome_getElem?]
    simp only [adoptFields, asObject, elim_some]
    rw [getElem?_foldl_adoptField (fun key => f[key]?) hlisted]
    simp only [hkeys]
    by_cases htags : key = "tags"
    · simp [htags]
    · cases f[key]? <;> simp [htags]

variable {scope : RootScope} {f : DocFields}

theorem adoptFields_of_adopted
    (h : scope = .package → ∀ key value, key ≠ "tags" → f[key]? = some value →
      fields[key]? = some value) : adoptFields scope (.object f) fields = (fields, false) := by
  cases scope with
  | tags named => rfl
  | routing => rfl
  | package =>
    refine foldl_adoptField_of_equal fun e he htags => ?_
    exact h rfl e.1 e.2 htags (Std.ExtTreeMap.mem_toList_iff_getElem?_eq_some.1 he)

theorem adoptFields_of_unchanged (h : (adoptFields scope (.object f) fields).2 = false) :
    adoptFields scope (.object f) fields = (fields, false) := by
  cases scope with
  | tags named => rfl
  | routing => rfl
  | package => exact foldl_adoptField_of_unchanged h

theorem mem_adoptedRows (hf : Readable f) {committed usable : Bool}
    (h : adoptedRows committed usable (.object f) scope = some adopted) (e : String × TagRow) :
    e ∈ adopted ↔ scope.includes e.1 = true ∧ (rowsOf f)[e.1]? = some e.2 := by
  cases scope with
  | tags named =>
    simp only [adoptedRows, hf.get_tags, ite_none_left_eq_some, some.injEq] at h
    rw [← h.2]
    simp only [mem_filterMap, map_eq_some_iff, RootScope.includes, decide_eq_true_eq]
    constructor
    · rintro ⟨tag, hmem, row, hrow, rfl⟩
      exact ⟨hmem, hrow⟩
    · rintro ⟨hmem, hrow⟩
      exact ⟨e.1, hmem, e.2, hrow, rfl⟩
  | package =>
    rw [adoptedRows, some.injEq] at h
    have hrows : ((object f).get "tags").bind asObject =
        (f["tags"]?).bind asObject := rfl
    rw [hrows] at h
    rw [← h, rowsOf]
    cases (f["tags"]?).bind asObject with
    | none => simp [RootScope.includes]
    | some rows =>
      rw [elim_some, getD_some, ← Std.ExtTreeMap.mem_toList_iff_getElem?_eq_some]
      simp [RootScope.includes]
  | routing =>
    simp only [adoptedRows, ite_none_left_eq_some, some.injEq] at h
    simp [← h.2, RootScope.includes]

/-! ### Reading rows -/

theorem isEphemeral_eq_of_read {tag : RootTag}
    (h : read (.object members) = some tag) :
    isEphemeral (.object members) = tag.ephemeral := by
  simp only [RootTag.read, JsonNode.record, bind_eq_bind, bind_some,
    bind_eq_some_iff, some.injEq] at h
  obtain ⟨content, -, yanked, -, rfl⟩ := h
  rfl

theorem read_stripEphemeral (members : Std.ExtTreeMap String RowField) :
    RootTag.read (stripEphemeral (.object members)) =
      (RootTag.read (.object members)).map fun tag => { tag with ephemeral := false } := by
  have hcontent : (members.erase "ephemeral")["content"]? = members["content"]? := by
    rw [Std.ExtTreeMap.getElem?_erase]
    simp
  have hyanked : (members.erase "ephemeral")["yanked"]? = members["yanked"]? := by
    rw [Std.ExtTreeMap.getElem?_erase]
    simp
  simp only [RootTag.read, stripEphemeral, JsonNode.record, bind_eq_bind,
    bind_some, hcontent, hyanked, Std.ExtTreeMap.getElem?_erase_self]
  cases ((members["content"]?).bind JsonNode.asString).bind Digest.tryFrom with
  | none => rfl
  | some content =>
    cases readYanked members["yanked"]? with
    | none => rfl
    | some yanked => rfl

theorem read_settle {tag : RootTag}
    (h : read (.object members) = some tag) (old : Option TagRow) :
    read (settle old (.object members)) = some { tag with
      ephemeral := tag.ephemeral && !old.any fun row => !isEphemeral row } := by
  have hephemeral := isEphemeral_eq_of_read h
  unfold settle
  split_ifs with hstrip
  · rw [read_stripEphemeral, h, hstrip.2]
    simp
  · rw [h]
    rw [hephemeral] at hstrip
    rcases tag with ⟨content, yanked, ephemeral⟩
    cases ephemeral with
    | false => rfl
    | true =>
      have hold : (old.any fun row => !isEphemeral row) = false := by simpa using hstrip
      rw [hold]
      rfl

/-! ### One merge -/

namespace DocCodec

variable {β : Type} (c : DocCodec β)

/-- The fields of a copy, if it is an object. -/
def view (copy : Option β) : Option DocFields :=
  (copy.bind c.parse).bind JsonNode.asObject

/-- The row of a tag in a copy. -/
def row (copy : Option β) (tag : String) : Option TagRow :=
  (c.view copy).bind fun fields => (rowsOf fields)[tag]?

/-- Merge a fetched root; when the merge writes nothing the copy stays. -/
def step (copy : Option β) (fetch : β × RootScope) : Option β :=
  (c.mergeRoot copy fetch.1 fetch.2).or copy

/-- A text that reads, both ways, as an object with object rows. -/
structure Fetches (text : β) (f : DocFields) : Prop extends ObjectShaped f where
  parse : c.parse text = some (.object f)
  readRoot : c.readRoot text = IndexRoot.read (.object f)

/-- A copy that is absent or an object with object rows. -/
def Shaped (copy : Option β) : Prop := ∀ text, copy = some text → ∃ fields, c.Fetches text fields

variable {c} {copy : Option β} {fetched : β} {f : DocFields} {scope : RootScope}

variable {text : β} {fetches : List (β × RootScope)}

theorem view_some (h : c.parse text = some (.object fields)) :
    c.view (some text) = some fields := by
  simp [view, h, asObject]

/-- The fields a merge starts from. -/
def startFields (c : DocCodec β) (copy : Option β) (f : DocFields) : DocFields :=
  (c.view copy).getD (f.insert "tags" (.object ∅))

theorem mergeDoc_eq (hcopy : c.Shaped copy) (hf : c.Fetches fetched f) (scope : RootScope) :
    c.mergeDoc copy fetched scope =
      (adoptedRows copy.isSome copy.isSome (.object f) scope).bind fun adopted =>
        let fields := adoptFields scope (.object f) (c.startFields copy f)
        let rows := adopted.foldl adoptRow (rowsOf fields.1, fields.2)
        let kept := rows.1.filter fun tag row =>
          !isDropped scope ((f["tags"]?).bind asObject) tag row
        if rows.2 ∨ kept ≠ rows.1 ∨ copy.isSome = false then
          some (some (.object (fields.1.insert "tags" (.object kept))))
        else none := by
  have hstart : ∀ usable, usable = copy.isSome →
      ((if usable = true then copy else none).bind c.parse).getD (withoutTags (.object f)) =
        .object (c.startFields copy f) ∧
      ∀ node, (c.startFields copy f)["tags"]? = some node → ∃ rows, node = .object rows := by
    rintro usable rfl
    cases copy with
    | none =>
      refine ⟨rfl, fun node hnode => ⟨∅, ?_⟩⟩
      simpa [startFields, view, eq_comm] using hnode
    | some text =>
      obtain ⟨fields, hfields⟩ := hcopy text rfl
      refine ⟨by simp [startFields, view_some hfields.parse, hfields.parse], fun node hnode => ?_⟩
      rw [startFields, view_some hfields.parse, getD_some] at hnode
      exact hfields.tags node hnode
  have husable : (copy.any fun text => (c.readRoot text).isSome) = copy.isSome := by
    cases copy with
    | none => rfl
    | some text =>
      obtain ⟨fields, hfields⟩ := hcopy text rfl
      rw [any_some, hfields.readRoot]
      exact IndexRoot.read_isSome_iff.2 hfields.toReadable
  obtain ⟨hstart, htags⟩ := hstart _ rfl
  -- the first pass leaves the tags alone
  have hadopted : ((adoptFields scope (.object f) (c.startFields copy f)).1["tags"]?).getD
      (.object ∅) = .object (rowsOf (adoptFields scope (.object f) (c.startFields copy f)).1) := by
    refine getD_tags fun node hnode => htags node ?_
    rw [getElem?_adoptFields] at hnode
    cases scope <;> simpa using hnode
  simp only [mergeDoc, hf.parse, husable, bind_eq_bind, bind_some, hstart, hadopted]
  rfl

theorem getElem?_rowsOf_startFields (hcopy : c.Shaped copy) (f : DocFields) (tag : String) :
    (rowsOf (c.startFields copy f))[tag]? = c.row copy tag := by
  cases copy with
  | none => simp [startFields, view, row, rowsOf_insert_tags]
  | some text =>
    obtain ⟨fields, hfields⟩ := hcopy text rfl
    simp [startFields, row, view_some hfields.parse]

theorem rowsOf_adoptFields (scope : RootScope) (f fields : DocFields) :
    rowsOf (adoptFields scope (.object f) fields).1 = rowsOf fields := by
  refine rowsOf_congr ?_
  rw [getElem?_adoptFields]
  cases scope <;> simp

theorem getElem?_kept (hcopy : c.Shaped copy) (hf : ObjectShaped f)
    {committed usable : Bool}
    (hadopted : adoptedRows committed usable (.object f) scope = some adopted) (changed : Bool)
    (tag : String) :
    ((adopted.foldl adoptRow (rowsOf (adoptFields scope (.object f) (c.startFields copy f)).1,
        changed)).1.filter fun tag row =>
          !isDropped scope ((f["tags"]?).bind asObject) tag row)[tag]? =
      mergedRow scope f (c.row copy tag) tag := by
  have hmem := mem_adoptedRows hf.toReadable hadopted
  have hlisted : ∀ e ∈ adopted, (rowsOf f)[e.1]? = some e.2 := fun e he => ((hmem e).1 he).2
  have htag : tag ∈ adopted.map Prod.fst ↔
      scope.includes tag = true ∧ ((rowsOf f)[tag]?).isSome := by
    constructor
    · intro h
      obtain ⟨e, he, rfl⟩ := mem_map.1 h
      exact ⟨((hmem e).1 he).1, by rw [((hmem e).1 he).2]; rfl⟩
    · rintro ⟨hscope, hsome⟩
      obtain ⟨entry, hentry⟩ := isSome_iff_exists.1 hsome
      exact mem_map.2 ⟨(tag, entry), (hmem _).2 ⟨hscope, hentry⟩, rfl⟩
  rw [Std.ExtTreeMap.getElem?_filter', getElem?_foldl_adoptRow (fun t => (rowsOf f)[t]?) hlisted]
  simp only [htag, rowsOf_adoptFields, getElem?_rowsOf_startFields hcopy, mergedRow]
  have hrows : rowsOf f = ((f["tags"]?).bind asObject).getD ∅ := rfl
  have hall (o : Option TagRow) : o.filter (fun _ => true) = o := by cases o <;> rfl
  by_cases hscope : scope.includes tag = true
  · cases hentry : (rowsOf f)[tag]? with
    | some entry =>
      -- a listed row is not dropped
      have hkeep (row : TagRow) :
          isDropped scope ((f["tags"]?).bind asObject) tag row = false := by
        cases hobject : (f["tags"]?).bind asObject with
        | none => simp [isDropped]
        | some rows =>
          rw [hrows, hobject, getD_some] at hentry
          simp [isDropped, hentry]
      simp [hscope, hkeep]
    | none =>
      cases hnode : f["tags"]? with
      | none => simp [hscope, isDropped, hall]
      | some node =>
        obtain ⟨rows, rfl⟩ := hf.tags node hnode
        rw [hrows, hnode] at hentry
        have hdropped (row : TagRow) : isDropped scope (some rows) tag row = isEphemeral row := by
          simpa [isDropped, hscope, asObject] using fun _ => hentry
        simp [hscope, asObject, hdropped]
  · have hkeep (row : TagRow) :
        isDropped scope ((f["tags"]?).bind asObject) tag row = false := by
      simp [isDropped, hscope]
    simp [hscope, hkeep, hall]

theorem getElem?_adoptFields_startFields (scope : RootScope)
    {key : String} (hkey : key ≠ "tags") :
    (adoptFields scope (.object f) (c.startFields copy f)).1[key]? =
      mergedField scope f (c.view copy) key := by
  rw [getElem?_adoptFields, startFields]
  cases c.view copy with
  | none =>
    have hinsert : (f.insert "tags" (.object ∅))[key]? = f[key]? := by
      rw [getElem?_insert_eq, if_neg (Ne.symm hkey)]
    cases scope <;> simp [Option.getD_none, hinsert, mergedField, Option.or_self]
  | some fields => cases scope <;> simp [mergedField, hkey]

/-- A row that a merge leaves is the listed one, settled, or the old one. -/
theorem mergedRow_eq_some {old : Option TagRow} {tag : String} {row : TagRow}
    (h : mergedRow scope f old tag = some row) :
    (∃ entry, scope.includes tag = true ∧ (rowsOf f)[tag]? = some entry ∧ settle old entry = row) ∨
      old = some row ∧ (scope.includes tag = true → (rowsOf f)[tag]? = none) := by
  unfold mergedRow at h
  by_cases hscope : scope.includes tag = true
  · rw [if_pos hscope] at h
    cases hentry : (rowsOf f)[tag]? with
    | some entry => exact .inl ⟨entry, hscope, rfl, by simpa [hentry] using h⟩
    | none =>
      simp only [hentry] at h
      split_ifs at h
      · exact .inr ⟨(filter_eq_some_iff.1 h).1, fun _ => rfl⟩
      · exact .inr ⟨h, fun _ => rfl⟩
  · rw [if_neg hscope] at h
    exact .inr ⟨h, fun hin => absurd hin hscope⟩

/-- A row that is an object and reads as a tag. -/
def TagObject (row : TagRow) : Prop := (read row).isSome ∧ ∃ members, row = .object members

theorem mergedRow_shaped (hf : ObjectShaped f) {old : Option TagRow}
    (hold : ∀ row, old = some row → TagObject row) {tag : String} {row : TagRow}
    (h : mergedRow scope f old tag = some row) : TagObject row := by
  rcases mergedRow_eq_some h with ⟨entry, -, hentry, rfl⟩ | ⟨h, -⟩
  · obtain ⟨members, rfl⟩ := hf.objects tag entry hentry
    obtain ⟨t, ht⟩ := isSome_iff_exists.1 (hf.rows tag _ hentry)
    refine ⟨by rw [read_settle ht]; rfl, ?_⟩
    unfold settle
    split_ifs
    · exact ⟨_, rfl⟩
    · exact ⟨_, rfl⟩
  · exact hold row h

theorem mergedRow_mergedRow (scope : RootScope) (f : DocFields) (old : Option TagRow)
    (tag : String) :
    mergedRow scope f (mergedRow scope f old tag) tag = mergedRow scope f old tag := by
  unfold mergedRow
  by_cases hscope : scope.includes tag = true
  · cases (rowsOf f)[tag]? with
    | some entry => simp [if_pos hscope, settle_settle]
    | none =>
      split_ifs
      · cases old with
        | none => rfl
        | some row => cases h : isEphemeral row <;> simp [Option.filter, h]
      · rfl
  · simp [if_neg hscope]

theorem Shaped.row_shaped (hcopy : c.Shaped copy) {tag : String} {row : TagRow}
    (h : c.row copy tag = some row) : TagObject row := by
  cases copy with
  | none => simp [DocCodec.row, view] at h
  | some text =>
    obtain ⟨fields, hfields⟩ := hcopy text rfl
    rw [DocCodec.row, view_some hfields.parse, bind_some] at h
    exact ⟨hfields.rows tag row h, hfields.objects tag row h⟩

theorem mergedField_shaped (hcopy : c.Shaped copy) (hf : ObjectShaped f) (scope : RootScope)
    (key : String) :
    ∃ fields, ObjectShaped fields ∧ mergedField scope f (c.view copy) key = fields[key]? := by
  cases copy with
  | none => exact ⟨f, hf, rfl⟩
  | some text =>
    obtain ⟨fields, hfields⟩ := hcopy text rfl
    have hshaped := hfields.toObjectShaped
    rw [view_some hfields.parse]
    cases scope with
    | package =>
      cases h : f[key]? with
      | none => exact ⟨fields, hshaped, by simp [mergedField, h]⟩
      | some value => exact ⟨f, hf, by simp [mergedField, h]⟩
    | tags named => exact ⟨fields, hshaped, rfl⟩
    | routing => exact ⟨fields, hshaped, rfl⟩

theorem shaped_of_merged (hcopy : c.Shaped copy) (hf : ObjectShaped f) {g : DocFields}
    {kept : TagRows} (htags : g["tags"]? = some (.object kept))
    (hrows : ∀ tag : String, kept[tag]? = mergedRow scope f (c.row copy tag) tag)
    (hfields : ∀ key, key ≠ "tags" → g[key]? = mergedField scope f (c.view copy) key) :
    ObjectShaped g := by
  have hkept : rowsOf g = kept := by simp [rowsOf, htags, asObject]
  have hrow : ∀ (tag : String) row, (rowsOf g)[tag]? = some row → TagObject row := by
    intro tag row h
    rw [hkept, hrows] at h
    exact mergedRow_shaped hf (fun row' h' => hcopy.row_shaped h') h
  refine ⟨⟨?_, ?_, fun tag row h => (hrow tag row h).1, ?_⟩, fun tag row h => (hrow tag row h).2⟩
  · obtain ⟨fields, hshaped, h⟩ := mergedField_shaped hcopy hf scope "repository"
    rw [hfields "repository" (by decide), h]
    exact hshaped.repository
  · intro node hnode
    rw [htags] at hnode
    exact ⟨kept, (some.inj hnode).symm⟩
  · intro key hkey
    have hne : key ≠ "tags" := by
      rintro rfl
      revert hkey
      decide
    obtain ⟨fields, hshaped, h⟩ := mergedField_shaped hcopy hf scope key
    rw [hfields key hne, h]
    exact hshaped.texts key hkey

/-- What a merge leaves behind. -/
structure Merged (c : DocCodec β) (copy copy' : Option β) (f : DocFields) (scope : RootScope) :
    Prop where
  shaped : c.Shaped copy'
  stays : copy.isSome → copy'.isSome
  rows : ∀ tag, c.row copy' tag = mergedRow scope f (c.row copy tag) tag
  fields : ∀ fields, c.view copy' = some fields → ∀ key, key ≠ "tags" →
    fields[key]? = mergedField scope f (c.view copy) key

theorem merged_of_adoptedRows_eq_none (hcopy : c.Shaped copy) (hf : ObjectShaped f)
    (h : adoptedRows copy.isSome copy.isSome (.object f) scope = none) :
    c.Merged copy copy f scope := by
  cases scope with
  | package => simp [adoptedRows] at h
  | routing =>
    refine ⟨hcopy, id, fun tag => rfl, fun fields hfields key _ => ?_⟩
    rw [hfields]
    rfl
  | tags named =>
    -- no copy, and the fetched root lists none of the named tags
    simp only [adoptedRows, hf.get_tags, ite_eq_left_iff, reduceCtorEq, imp_false,
      Decidable.not_not] at h
    obtain ⟨hentries, hcopyNone⟩ := h
    obtain rfl : copy = none := by simpa using hcopyNone
    refine ⟨hcopy, id, fun tag => ?_, fun fields hfields => by simp [view] at hfields⟩
    have hrow : c.row (none : Option β) tag = none := rfl
    rw [hrow, mergedRow]
    by_cases hscope : (RootScope.tags named).includes tag = true
    · have hnone : (rowsOf f)[tag]? = none := by
        rw [filterMap_eq_nil_iff] at hentries
        simpa using hentries tag (by simpa [RootScope.includes] using hscope)
      simp [hscope, hnone]
    · rw [if_neg hscope]

theorem merged_of_fields {g : DocFields} {kept : TagRows} (hg : c.Fetches text g)
    (htags : rowsOf g = kept)
    (hrows : ∀ tag : String, kept[tag]? = mergedRow scope f (c.row copy tag) tag)
    (hfields : ∀ key, key ≠ "tags" → g[key]? = mergedField scope f (c.view copy) key) :
    c.Merged copy (some text) f scope := by
  have hview : c.view (some text) = some g := view_some hg.parse
  refine ⟨?_, fun _ => rfl, fun tag => ?_, fun fields h => ?_⟩
  · intro text' htext'
    rw [← some.inj htext']
    exact ⟨g, hg⟩
  · rw [row, hview, bind_some, htags, hrows]
  · rw [hview, some.injEq] at h
    rw [← h]
    exact hfields

/-- **One merge**, tag by tag and field by field. -/
theorem merge_spec (hc : c.Lawful) (hcopy : c.Shaped copy) (hf : c.Fetches fetched f)
    (scope : RootScope) : c.Merged copy (c.step copy (fetched, scope)) f scope := by
  have hdoc := mergeDoc_eq hcopy hf scope
  replace hf := hf.toObjectShaped
  rw [step, mergeRoot]
  cases hadopted : adoptedRows copy.isSome copy.isSome (.object f) scope with
  | none =>
    rw [hadopted, bind_none] at hdoc
    rw [hdoc, map_none, none_or]
    exact merged_of_adoptedRows_eq_none hcopy hf hadopted
  | some adopted =>
    rw [hadopted, bind_some] at hdoc
    have hkept := getElem?_kept hcopy hf hadopted
      (adoptFields scope (.object f) (c.startFields copy f)).2
    dsimp only at hdoc
    split_ifs at hdoc with hchanged
    · -- a document is written
      have hfields (key : String) (hkey : key ≠ "tags") (kept : TagRows) :
          ((adoptFields scope (.object f) (c.startFields copy f)).1.insert "tags"
            (.object kept))[key]? = mergedField scope f (c.view copy) key := by
        rw [getElem?_insert_eq, if_neg (Ne.symm hkey), getElem?_adoptFields_startFields scope hkey]
      rw [hdoc, map_some, some_or]
      refine merged_of_fields ⟨?_, hc.parse_write _ _ _ _ hdoc, hc.readRoot_write _ _ _ _ hdoc⟩
        (rowsOf_insert_tags _ _) hkept fun key hkey => hfields key hkey _
      exact shaped_of_merged hcopy hf Std.ExtTreeMap.getElem?_insert_self hkept
        fun key hkey => hfields key hkey _
    · -- nothing changed, so the passes left the copy as it was
      rw [not_or, not_or, Decidable.not_not, Bool.not_eq_true, Bool.not_eq_false] at hchanged
      obtain ⟨hrows, hsame, hsome⟩ := hchanged
      obtain ⟨text, rfl⟩ := isSome_iff_exists.1 hsome
      obtain ⟨fields, hfields⟩ := hcopy text rfl
      have hunchanged := foldl_adoptRow_of_unchanged hrows
      rw [hsame, hunchanged] at hkept
      rw [hunchanged] at hrows
      have hadopt := adoptFields_of_unchanged hrows
      have hstart : c.startFields (some text) f = fields := by
        rw [startFields, view_some hfields.parse, getD_some]
      rw [hadopt, hstart] at hkept
      rw [hdoc, map_none, none_or]
      refine merged_of_fields hfields rfl hkept fun key hkey => ?_
      rw [← getElem?_adoptFields_startFields scope hkey, hadopt, hstart]

/-- **A second merge** of the same root with the same scope writes nothing. -/
theorem mergeRoot_step (hc : c.Lawful) (hcopy : c.Shaped copy) (hf : c.Fetches fetched f)
    (scope : RootScope) : c.mergeRoot (c.step copy (fetched, scope)) fetched scope = none := by
  have hmerged := merge_spec hc hcopy hf scope
  cases hstep : c.step copy (fetched, scope) with
  | none =>
    -- there was no copy, and the first merge wrote none
    rw [step, or_eq_none_iff] at hstep
    obtain ⟨hnone, rfl⟩ := hstep
    exact hnone
  | some text =>
    rw [hstep] at hmerged
    obtain ⟨g, hg⟩ := hmerged.shaped text rfl
    have hview : c.view (some text) = some g := view_some hg.parse
    have hrow (tag : String) : (rowsOf g)[tag]? = mergedRow scope f (c.row copy tag) tag := by
      rw [← hmerged.rows tag, row, hview, bind_some]
    have hstart : c.startFields (some text) f = g := by rw [startFields, hview, getD_some]
    have hfields : adoptFields scope (.object f) g = (g, false) := by
      refine adoptFields_of_adopted ?_
      rintro rfl key value hkey hvalue
      rw [hmerged.fields g hview key hkey, mergedField.eq_def]
      split <;> simp_all
    rw [mergeRoot, mergeDoc_eq hmerged.shaped hf, hstart, hfields]
    replace hf := hf.toObjectShaped
    cases hadopted : adoptedRows (some text).isSome (some text).isSome (.object f) scope with
    | none => rfl
    | some adopted =>
      have hsettled : adopted.foldl adoptRow (rowsOf g, false) = (rowsOf g, false) := by
        refine foldl_adoptRow_of_settled fun e he => ?_
        obtain ⟨hscope, hentry⟩ := (mem_adoptedRows hf.toReadable hadopted e).1 he
        have hsettle : (rowsOf g)[e.1]? = some (settle (c.row copy e.1) e.2) := by
          rw [hrow, mergedRow, if_pos hscope, hentry]
        rw [hsettle, settle_settle]
      have hkept : ((rowsOf g).filter fun tag row =>
          !isDropped scope ((f["tags"]?).bind asObject) tag row) = rowsOf g := by
        refine Std.ExtTreeMap.ext_getElem? fun tag => ?_
        have := getElem?_kept hmerged.shaped hf hadopted false tag
        rw [hstart, hfields, hsettled] at this
        rw [this, hmerged.rows, mergedRow_mergedRow, hrow]
      simp [hsettled, hkept]

/-! ### Tags -/

variable (c) in
/-- The tag of a copy, as the typed reader sees it. -/
def tag (copy : Option β) (name : String) : Option RootTag :=
  (copy.bind c.readRoot).bind fun root => root.tags[name]?

variable (c) in
/-- A text that is a JSON object whose tag rows are JSON objects. -/
def ObjectDocument (text : β) : Prop :=
  ∃ fields, c.parse text = some (.object fields) ∧
    ∀ (tag : String) (row : TagRow), (rowsOf fields)[tag]? = some row →
      ∃ members, row = .object members

theorem exists_fetches (hc : c.Lawful) (hroot : (c.readRoot fetched).isSome)
    (hobject : c.ObjectDocument fetched) : ∃ f, c.Fetches fetched f := by
  obtain ⟨f, hparse, hrows⟩ := hobject
  obtain ⟨root, hroot⟩ := isSome_iff_exists.1 hroot
  have hread := hc.read_of_parse _ _ _ hparse hroot
  exact ⟨f, ⟨IndexRoot.read_isSome_iff.1 (by rw [hread]; rfl), hrows⟩, hparse,
    hroot.trans hread.symm⟩

theorem tag_of_object {root : IndexRoot} (hroot : c.readRoot text = some root)
    (hread : IndexRoot.read (.object fields) = some root) (name : String) :
    c.tag (some text) name = ((rowsOf fields)[name]?).bind read := by
  rw [tag, bind_some, hroot, bind_some]
  exact IndexRoot.getElem?_tags hread name

theorem Fetches.tag_eq (hf : c.Fetches text f) (name : String) :
    c.tag (some text) name = ((rowsOf f)[name]?).bind read := by
  obtain ⟨root, hroot⟩ := isSome_iff_exists.1 (IndexRoot.read_isSome_iff.2 hf.toReadable)
  exact tag_of_object (hf.readRoot.trans hroot) hroot name

theorem Shaped.tag_eq (hcopy : c.Shaped copy) (name : String) :
    c.tag copy name = (c.row copy name).bind read := by
  cases copy with
  | none => rfl
  | some text =>
    obtain ⟨fields, hfields⟩ := hcopy text rfl
    rw [hfields.tag_eq, row, view_some hfields.parse, bind_some]

theorem Shaped.tag_eq_some (hcopy : c.Shaped copy) {t : RootTag}
    (h : c.tag copy name = some t) :
    ∃ r, c.row copy name = some r ∧ read r = some t ∧ isEphemeral r = t.ephemeral := by
  rw [hcopy.tag_eq, bind_eq_some_iff] at h
  obtain ⟨r, hrow, hread⟩ := h
  obtain ⟨members, rfl⟩ := (hcopy.row_shaped hrow).2
  exact ⟨_, hrow, hread, isEphemeral_eq_of_read hread⟩

theorem durable_of_mergedRow (scope : RootScope) (f : DocFields)
    (h : isEphemeral r = false) (name : String) :
    ∃ r', mergedRow scope f (some r) name = some r' ∧ isEphemeral r' = false := by
  unfold mergedRow
  by_cases hscope : scope.includes name = true
  · rw [if_pos hscope]
    cases (rowsOf f)[name]? with
    | some entry =>
      refine ⟨_, rfl, ?_⟩
      unfold settle
      split_ifs with hstrip
      · exact isEphemeral_stripEphemeral entry
      · simpa [h] using hstrip
    | none =>
      split_ifs
      · exact ⟨r, by simp [Option.filter, h], h⟩
      · exact ⟨r, rfl, h⟩
  · exact ⟨r, if_neg hscope, h⟩

theorem ephemeral_of_mergedRow_eq_none (h : mergedRow scope f (some r) name = none) :
    isEphemeral r = true ∧ scope.includes name = true ∧ (rowsOf f)[name]? = none := by
  unfold mergedRow at h
  by_cases hscope : scope.includes name = true
  · rw [if_pos hscope] at h
    cases hentry : (rowsOf f)[name]? with
    | some entry => simp [hentry] at h
    | none =>
      simp only [hentry] at h
      split_ifs at h
      refine ⟨?_, hscope, rfl⟩
      by_contra hdurable
      simp [Option.filter, hdurable] at h
  · simp [hscope] at h

/-! ### Runs -/

variable (c) in
/-- The copy after a run of merges, from no copy. -/
def run (fetches : List (β × RootScope)) : Option β := fetches.foldl c.step none

variable (c) in
/-- The digest of a tag in a fetched root that lists it in scope, or else the one before. -/
def noteListed (name : String) (last : Option Digest) (fetch : β × RootScope) : Option Digest :=
  if fetch.2.includes name then ((c.tag (some fetch.1) name).map RootTag.content).or last
  else last

variable (c) in
/-- The digest in the last fetched root that listed the tag in scope. -/
def lastListed (fetches : List (β × RootScope)) (name : String) : Option Digest :=
  fetches.foldl (c.noteListed name) none

theorem run_append (past later : List (β × RootScope)) :
    c.run (past ++ later) = later.foldl c.step (c.run past) := foldl_append

theorem shaped_foldl (hc : c.Lawful) (hcopy : c.Shaped copy)
    (h : ∀ fetch ∈ fetches, ∃ f, c.Fetches fetch.1 f) : c.Shaped (fetches.foldl c.step copy) := by
  refine foldlRecOn fetches _ hcopy fun copy' hcopy' fetch hfetch => ?_
  obtain ⟨f, hf⟩ := h fetch hfetch
  exact (merge_spec hc hcopy' hf fetch.2).shaped

theorem durable_foldl (hc : c.Lawful) (hcopy : c.Shaped copy)
    (h : ∀ fetch ∈ fetches, ∃ f, c.Fetches fetch.1 f) (hrow : c.row copy name = some r)
    (hdurable : isEphemeral r = false) :
    ∃ r', c.row (fetches.foldl c.step copy) name = some r' ∧ isEphemeral r' = false := by
  induction fetches generalizing copy r with
  | nil => exact ⟨r, hrow, hdurable⟩
  | cons fetch fetches ih =>
    obtain ⟨f, hf⟩ := h fetch mem_cons_self
    have hmerged := merge_spec hc hcopy hf fetch.2
    obtain ⟨r', hr', hdurable'⟩ := durable_of_mergedRow fetch.2 f hdurable name
    refine ih hmerged.shaped (fun fetch' h' => h fetch' (mem_cons_of_mem _ h')) ?_ hdurable'
    rw [hmerged.rows, hrow, hr']

theorem content_foldl {last : Option Digest} (hc : c.Lawful)
    (hcopy : c.Shaped copy) (h : ∀ fetch ∈ fetches, ∃ f, c.Fetches fetch.1 f)
    (hlast : ∀ t, c.tag copy name = some t → last = some t.content) (t : RootTag)
    (ht : c.tag (fetches.foldl c.step copy) name = some t) :
    fetches.foldl (c.noteListed name) last = some t.content := by
  induction fetches generalizing copy last with
  | nil => exact hlast t ht
  | cons fetch fetches ih =>
    obtain ⟨f, hf⟩ := h fetch mem_cons_self
    have hmerged := merge_spec hc hcopy hf fetch.2
    refine ih hmerged.shaped (fun fetch' h' => h fetch' (mem_cons_of_mem _ h')) ?_ ht
    intro t' ht'
    rw [hmerged.shaped.tag_eq, hmerged.rows] at ht'
    obtain ⟨r, hr, hread⟩ := bind_eq_some_iff.1 ht'
    rw [noteListed, hf.tag_eq]
    rcases mergedRow_eq_some hr with ⟨entry, hscope, hentry, rfl⟩ | ⟨hold, hunlisted⟩
    · -- the listed row is recorded, with its digest
      obtain ⟨members, rfl⟩ := hf.objects name entry hentry
      obtain ⟨listed, hlisted⟩ := isSome_iff_exists.1 (hf.rows name _ hentry)
      rw [read_settle hlisted, some.injEq] at hread
      rw [if_pos hscope, hentry, bind_some, hlisted, ← hread]
      rfl
    · have hlast' := hlast t' (by rw [hcopy.tag_eq, hold, bind_some, hread])
      split_ifs with hscope
      · rw [hunlisted hscope, bind_none, map_none, none_or, hlast']
      · exact hlast'

end DocCodec

/-- **The local copy of a published root only grows.** In every run of merges of fetched roots that
parse as plain JSON too, as objects with object rows, with any scopes: every copy reads as a root, a
durable tag stays present and durable, and a recorded digest is the one that was listed last in
scope.  A merge drops a tag only if it is ephemeral, in scope and not listed; within named tags it
changes no other tag and no package-level field of a copy; and it writes nothing the second time. -/
theorem copy_only_grows {β : Type} (c : DocCodec β) (hc : c.Lawful)
    {past later : List (β × RootScope)}
    (hroots : ∀ fetch ∈ past ++ later, (c.readRoot fetch.1).isSome)
    (hobjects : ∀ fetch ∈ past ++ later, c.ObjectDocument fetch.1) :
    (∀ text, c.run past = some text → (c.readRoot text).isSome) ∧
    (∀ name t, c.tag (c.run past) name = some t → t.ephemeral = false →
      ∃ t', c.tag (c.run (past ++ later)) name = some t' ∧ t'.ephemeral = false) ∧
    (∀ name t, c.tag (c.run past) name = some t → c.lastListed past name = some t.content) ∧
    ∀ fetched scope rest, later = (fetched, scope) :: rest →
      (∀ name t, c.tag (c.run past) name = some t →
        c.tag (c.run (past ++ [(fetched, scope)])) name = none →
          t.ephemeral = true ∧ scope.includes name = true ∧ c.tag (some fetched) name = none) ∧
      (∀ named text fields, scope = .tags named → c.run past = some text →
        c.parse text = some (.object fields) →
          ∃ text' fields', c.run (past ++ [(fetched, scope)]) = some text' ∧
            c.parse text' = some (.object fields') ∧
            (∀ name : String, name ∉ named → (rowsOf fields')[name]? = (rowsOf fields)[name]?) ∧
            ∀ key : String, key ≠ "tags" → fields'[key]? = fields[key]?) ∧
      c.mergeRoot (c.run (past ++ [(fetched, scope)])) fetched scope = none := by
  have hfetches : ∀ fetch ∈ past ++ later, ∃ f, c.Fetches fetch.1 f := fun fetch h =>
    exists_fetches hc (hroots fetch h) (hobjects fetch h)
  have hpast : ∀ fetch ∈ past, ∃ f, c.Fetches fetch.1 f := fun fetch h =>
    hfetches fetch (mem_append_left _ h)
  have hlater : ∀ fetch ∈ later, ∃ f, c.Fetches fetch.1 f := fun fetch h =>
    hfetches fetch (mem_append_right _ h)
  have hnone : c.Shaped none := fun text h => absurd h (by simp)
  have hcopy : c.Shaped (c.run past) := shaped_foldl hc hnone hpast
  refine ⟨fun text htext => ?_, fun name t ht hdurable => ?_, fun name t ht => ?_, ?_⟩
  · obtain ⟨fields, hfields⟩ := hcopy text htext
    rw [hfields.readRoot]
    exact IndexRoot.read_isSome_iff.2 hfields.toReadable
  · obtain ⟨r, hrow, -, hephemeral⟩ := hcopy.tag_eq_some ht
    obtain ⟨r', hrow', hdurable'⟩ :=
      durable_foldl hc hcopy hlater hrow (hephemeral.trans hdurable)
    have hshaped : c.Shaped (c.run (past ++ later)) := by
      rw [run_append]
      exact shaped_foldl hc hcopy hlater
    rw [← run_append] at hrow'
    obtain ⟨hread, members, rfl⟩ := hshaped.row_shaped hrow'
    obtain ⟨t', ht'⟩ := isSome_iff_exists.1 hread
    refine ⟨t', ?_, ?_⟩
    · rw [hshaped.tag_eq, hrow', bind_some, ht']
    · rw [← isEphemeral_eq_of_read ht', hdurable']
  · exact content_foldl hc hnone hpast (fun t h => absurd h (by simp [tag])) t ht
  · rintro fetched scope rest rfl
    obtain ⟨f, hf⟩ := hlater (fetched, scope) mem_cons_self
    have hmerged := merge_spec hc hcopy hf scope
    have hrun : c.run (past ++ [(fetched, scope)]) = c.step (c.run past) (fetched, scope) :=
      run_append past [(fetched, scope)]
    rw [hrun]
    refine ⟨fun name t ht hgone => ?_, fun named text fields hscope htext hparse => ?_,
      mergeRoot_step hc hcopy hf scope⟩
    · obtain ⟨r, hrow, -, hephemeral⟩ := hcopy.tag_eq_some ht
      have hdropped : mergedRow scope f (some r) name = none := by
        by_contra hkept
        obtain ⟨r', hr'⟩ := ne_none_iff_exists'.1 hkept
        rw [← hrow, ← hmerged.rows] at hr'
        have := (hmerged.shaped.row_shaped hr').1
        rw [hmerged.shaped.tag_eq, hr', bind_some] at hgone
        simp [hgone] at this
      obtain ⟨hr, hscope, hlisted⟩ := ephemeral_of_mergedRow_eq_none hdropped
      refine ⟨hephemeral ▸ hr, hscope, ?_⟩
      rw [hf.tag_eq, hlisted, bind_none]
    · subst hscope
      have hview : c.view (c.run past) = some fields := by rw [htext, view_some hparse]
      obtain ⟨text', htext'⟩ := isSome_iff_exists.1
        (hmerged.stays (by rw [htext]; rfl))
      obtain ⟨fields', hparse'⟩ := hmerged.shaped text' htext'
      replace hparse' := hparse'.parse
      have hview' : c.view (c.step (c.run past) (fetched, .tags named)) = some fields' := by
        rw [htext', view_some hparse']
      refine ⟨text', fields', htext', hparse', fun name hname => ?_, fun key hkey => ?_⟩
      · have := hmerged.rows name
        rw [row, row, hview, hview', bind_some, bind_some,
          mergedRow, if_neg (by simpa [RootScope.includes] using hname)] at this
        exact this
      · rw [hmerged.fields fields' hview' key hkey, hview]
        rfl

/-! ### Array documents -/

/-- Documents that stand for themselves. -/
def plainCodec : DocCodec RootDoc := ⟨some, IndexRoot.read, id⟩

theorem plainCodec_lawful : plainCodec.Lawful where
  read_of_parse _ _ _ hparse hroot := some.inj hparse ▸ hroot
  parse_write _ _ _ _ _ := rfl
  readRoot_write _ _ _ _ _ := rfl

/-- A row with a digest of one repeated digit. -/
def sampleRow (digit : Char) (ephemeral : Bool) : TagRow :=
  .object ((∅ : Std.ExtTreeMap String RowField).insertMany
    [("content", .string ("sha256:" ++ String.ofList (List.replicate 64 digit))),
      ("ephemeral", .bool ephemeral)])

/-- A root written as an object. -/
def objectRoot (rows : List (String × TagRow)) : RootDoc :=
  .object ((∅ : DocFields).insertMany [("repository", .string "oci://ghcr.io/acme/tool"),
    ("tags", .object ((∅ : TagRows).insertMany rows))])

theorem copy_only_grows_objectRoot :
    ∃ t', plainCodec.tag (plainCodec.run ([(objectRoot [("1", sampleRow 'a' false)], .package)] ++
      [(objectRoot [("2", sampleRow 'b' true)], .package)])) "1" = some t' ∧
        t'.ephemeral = false := by
  have hobjects : ∀ fields : DocFields,
      (rowsOf fields).toList.all (fun p => p.2.asObject.isSome) = true →
        plainCodec.ObjectDocument (.object fields) := by
    refine fun fields hall => ⟨fields, rfl, fun tag row hrow => ?_⟩
    have hmem := Std.ExtTreeMap.mem_toList_iff_getElem?_eq_some.2 hrow
    have := all_eq_true.1 hall _ hmem
    cases row with
    | object members => exact ⟨members, rfl⟩
    | _ => simp [asObject] at this
  refine (copy_only_grows plainCodec plainCodec_lawful ?_ ?_).2.1 "1"
    ⟨⟨.sha256, String.ofList (replicate 64 'a')⟩,
    none, false⟩ ?_ rfl
  · decide +kernel
  · intro fetch h
    simp only [singleton_append, mem_cons, not_mem_nil, or_false] at h
    rcases h with rfl | rfl
    · exact hobjects _ (by decide +kernel)
    · exact hobjects _ (by decide +kernel)
  · decide +kernel

/-- A root written as an array: its location, then its tags. -/
def arrayRoot (rows : List (String × TagRow)) : RootDoc :=
  .array [.string "oci://ghcr.io/acme/tool", .object ((∅ : TagRows).insertMany rows)]

/-- A merge cannot take an array apart and replaces the copy: the durable tag is gone. -/
theorem arrayRoot_loses_durable_tag :
    (plainCodec.readRoot (arrayRoot [("1", sampleRow 'a' false)])).isSome ∧
      (plainCodec.readRoot (arrayRoot [])).isSome ∧
      (plainCodec.tag (plainCodec.run [(arrayRoot [("1", sampleRow 'a' false)], .package)])
        "1").map ephemeral = some false ∧
      plainCodec.tag (plainCodec.run [(arrayRoot [("1", sampleRow 'a' false)], .package),
        (arrayRoot [], .package)]) "1" = none := by
  decide +kernel

end Ocx
