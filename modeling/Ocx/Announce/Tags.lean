import Ocx.Announce.Closure

/-!
# What a pass does to the tags

A pass with an additive selection loses only tags that are gone from the registry or reserved: any
other loss is refused.
-/

namespace Ocx.Announce

open List Option

variable {root root' : Root} {tag' path : String}

variable {β : Type}

/-! ### The rows of the parts -/

variable {tag : String}

theorem mem_updateRow_iff {f : OrderedMap String RowField → OrderedMap String RowField}
    (h : updateRow root tag f = some root') :
    tag' ∈ committedTagNames root' ↔ tag' ∈ committedTagNames root := by
  unfold updateRow at h
  simp only [bind_eq_bind, bind_eq_some_iff, some.injEq] at h
  obtain ⟨members, -, rows, hrows, row, ⟨value, hvalue, -⟩, rfl⟩ := h
  rw [committedTagNames_eq, committedTagNames_eq, tagRows_insert_tags, hrows, getD_some,
    getD_some, OrderedMap.mem_keys_insert]
  constructor
  · rintro (rfl | hmem)
    · exact OrderedMap.get_isSome_iff.1 (by rw [hvalue]; rfl)
    · exact hmem
  · exact .inr

theorem mem_yankTag_iff {reason now : String}
    (h : yankTag reason now root tag = .ok root') :
    tag' ∈ committedTagNames root' ↔ tag' ∈ committedTagNames root := by
  unfold yankTag at h
  split at h
  · rename_i hupdate
    cases h
    exact mem_updateRow_iff hupdate
  · cases h

theorem mem_unyankTag_iff (h : unyankTag root tag = .ok root') :
    tag' ∈ committedTagNames root' ↔ tag' ∈ committedTagNames root := by
  unfold unyankTag at h
  split at h
  · rename_i hupdate
    cases h
    exact mem_updateRow_iff hupdate
  · cases h

theorem mem_applyYankMarkers_iff {yank unyank : List String}
    {reason now : String} (h : applyYankMarkers root yank unyank reason now = .ok root') :
    tag ∈ committedTagNames root' ↔ tag ∈ committedTagNames root := by
  unfold applyYankMarkers at h
  dsimp only at h
  split at h
  · cases h
  · obtain ⟨middle, hyank, hunyank⟩ := bind_eq_ok_iff.1 h
    have hmiddle := foldlM_invariant hyank
      (fun _ r => tag ∈ committedTagNames r ↔ tag ∈ committedTagNames root) Iff.rfl
      fun _ _ _ _ _ hstep ih => (mem_yankTag_iff hstep).trans ih
    exact foldlM_invariant hunyank
      (fun _ r => tag ∈ committedTagNames r ↔ tag ∈ committedTagNames root) hmiddle
      fun _ _ _ _ _ hstep ih => (mem_unyankTag_iff hstep).trans ih

theorem tagRows_insertDesc (root : Root) (desc : Option DocField) :
    tagRows (insertDesc root desc) = tagRows root := by
  cases desc with
  | none => rfl
  | some desc =>
    cases root with
    | object members =>
      unfold tagRows insertDesc
      simp only [JsonNode.asObject]
      rw [Value.get_object, Value.get_object, OrderedMap.get_insert_of_ne (by decide)]
    | _ => rfl

theorem committedTagNames_insertDesc (root : Root) (desc : Option DocField) :
    committedTagNames (insertDesc root desc) = committedTagNames root := by
  rw [committedTagNames_eq, committedTagNames_eq, tagRows_insertDesc]

/-! ### Observed tags -/

theorem unreserved_of_resolveCuratedTags {selection : TagSelection}
    {committed discovered : List String} {resolved : ResolvedTags}
    (h : resolveCuratedTags selection committed discovered = .ok resolved) :
    (∀ tag ∈ resolved.tags, isReservedTag tag = false) ∧
      ∀ tag ∈ resolved.reservedDropped, isReservedTag tag = true := by
  unfold resolveCuratedTags at h
  dsimp only at h
  split at h
  · cases h
  · cases h
    exact ⟨fun tag htag => by simpa using (mem_filter.1 htag).2,
      fun tag htag => (mem_filter.1 htag).2⟩

/-! ### Carried rows -/

theorem mem_keys_foldl_carryRow {rows : List (String × TagRow)}
    {init : OrderedMap String TagRow × List String} (h : tag ∈ init.1.keys) :
    tag ∈ (rows.foldl carryRow init).1.keys := by
  induction rows generalizing init with
  | nil => exact h
  | cons entry rest ih =>
    refine ih ?_
    unfold carryRow
    split
    · exact h
    · exact OrderedMap.mem_keys_insert.2 (.inr h)

theorem mem_rootBase {tree : Tree β} {head : Option (BranchHead β)}
    (h : tag ∈ committedTagNames root) :
    tag ∈ committedTagNames (rootBase root tree head).root := by
  cases head with
  | none => exact h
  | some head =>
    unfold rootBase
    dsimp only
    rcases carryBranchTags_cases root head.tags with hsame | ⟨rows, members, -, rfl, hcarried⟩
    · rw [hsame]
      exact h
    · rw [hcarried, committedTagNames_eq, tagRows_insert_tags]
      rw [committedTagNames_eq] at h
      exact mem_keys_foldl_carryRow h

/-! ### The pass -/

section Pass

variable {codec : Codec β} {answers : Answers β} {base : RootBase β} {request : Request}
  {rebuilt : Rebuilt β} {tag : String}

theorem mem_rebuilt_iff {desc : Option DocField} {draft : Root}
    (h : applyYankMarkers (insertDesc draft desc) request.yank request.unyank request.yankReason
      request.now = .ok root) : tag ∈ committedTagNames root ↔ tag ∈ committedTagNames draft := by
  rw [mem_applyYankMarkers_iff h, committedTagNames_insertDesc]

/-- **What an additive pass keeps.** A tag of the base that is not reserved is in the new root,
unless the pass found it to be gone. -/
theorem mem_rebuilt_of_additive (h : observeAndRebuild codec answers base request = .ok rebuilt)
    (hadditive : request.curated.additive = true) (htag : tag ∈ committedTagNames base.root)
    (hreserved : isReservedTag tag = false) :
    tag ∈ committedTagNames rebuilt.root ∨ tag ∈ rebuilt.removed := by
  obtain ⟨physical, discovered, resolved, observations, plan, desc, drafted, root, orphans, -, -,
    hresolved, -, -, -, -, hlost, hyank, -, rfl⟩ := observeAndRebuild_eq_ok_iff.1 h
  by_contra hneither
  obtain ⟨hroot, hremoved⟩ := not_or.1 hneither
  have hdrop : tag ∈ droppedCommittedTags (committedTagNames base.root) drafted.root
      (resolved.reservedDropped ++ drafted.plan.removed) := by
    refine mem_filter.2 ⟨htag, ?_⟩
    have hexempt : tag ∉ resolved.reservedDropped := fun hmem => by
      simp [(unreserved_of_resolveCuratedTags hresolved).2 tag hmem] at hreserved
    simp [(mem_rebuilt_iff hyank).not.1 hroot, hremoved, hexempt]
  unfold refuseLostTags at hlost
  rw [if_pos hadditive] at hlost
  split at hlost
  · rename_i hnone
    simp [hnone] at hdrop
  · cases hlost

/-! ### The root file -/

theorem rootPath_ne_objectPath (package : String) (digest : Digest) (extension : Extension) :
    rootPath package ≠ objectPath package digest extension := by
  intro h
  have hlist := congrArg String.toList h
  simp [rootPath, objectPath] at hlist

theorem getElem?_foldl_put {α : Type} {l : List α} {place : α → String} {bytes : α → β}
    {files : FileSet β} (h : ∀ a ∈ l, path ≠ place a) :
    (l.foldl (fun files a => files.insert (place a) (.put (bytes a))) files)[path]? =
      files[path]? := by
  induction l generalizing files with
  | nil => rfl
  | cons a rest ih =>
    rw [foldl_cons, ih fun b hb => h b (mem_cons_of_mem _ hb), getElem?_insert_eq,
      if_neg (h a mem_cons_self).symm]

theorem getElem?_foldl_addOrphan {orphans : List String} {files : FileSet β}
    (h : path ∉ orphans) : (orphans.foldl addOrphan files)[path]? = files[path]? := by
  induction orphans generalizing files with
  | nil => rfl
  | cons orphan rest ih =>
    rw [foldl_cons, ih fun hmem => h (mem_cons_of_mem _ hmem), getElem?_addOrphan,
      if_neg fun hpath : path = orphan ∧ _ => h (hpath.1 ▸ mem_cons_self)]

/-- **The files of a pass**: apart from the objects of the package, they write its root. -/
theorem getElem?_files (h : observeAndRebuild codec answers base request = .ok rebuilt)
    (hpath : ∀ digest extension, path ≠ objectPath request.package.repository digest extension) :
    rebuilt.files[path]? =
      if rootPath request.package.repository = path then some (.put (codec.serialize rebuilt.root))
      else none := by
  obtain ⟨physical, discovered, resolved, observations, plan, desc, drafted, root, orphans, -, -, -,
    -, -, -, -, -, -, horphans, rfl⟩ := observeAndRebuild_eq_ok_iff.1 h
  have hmem : path ∉ orphans := fun hmem => by
    obtain ⟨object, -, hcandidate, -⟩ := mem_orphanPaths horphans hmem
    obtain ⟨extension, rfl⟩ := exists_extension_of_mem_candidatePaths hcandidate
    exact hpath _ _ rfl
  unfold buildFiles
  rw [getElem?_foldl_addOrphan hmem, getElem?_foldl_put fun _ _ => hpath _ _,
    getElem?_foldl_put fun _ _ => hpath _ _, getElem?_foldl_put fun _ _ => hpath _ _,
    getElem?_insert_eq]
  simp

theorem applyFiles_rootPath (h : observeAndRebuild codec answers base request = .ok rebuilt)
    (tree : Tree β) :
    applyFiles tree rebuilt.files (rootPath request.package.repository) =
      some (codec.serialize rebuilt.root) := by
  unfold applyFiles
  rw [getElem?_files h (rootPath_ne_objectPath _), if_pos rfl]

end Pass

end Ocx.Announce
