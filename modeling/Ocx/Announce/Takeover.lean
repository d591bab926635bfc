import Ocx.Announce.Isolation

/-!
# A branch that another package takes over

When two packages share the name of their announce branches and the branch has diverged from main,
an announce of one package that rebuilds its root on main repoints the branch.  The announce below
gives one new tag as all there is; the registry has it, and a description.  It succeeds for every
package that can be announced, and the branch loses the pending root of the other package.
-/

namespace Ocx.Announce

open List Option

variable {members : OrderedMap String DocField} {packageRepo : String} {physical : Physical}
  {orphans : List String}

variable {β : Type}

/-! ### The announce -/

/-- The digest of every object of the registry. -/
def takeoverDigest : Digest := ⟨.sha256, String.ofList (List.replicate 64 'a')⟩

/-- A request for one tag that is all there is. -/
def takeoverRequest (registry package repo tag : String) : Request where
  package := ⟨registry, package, none, none⟩
  curated := .replace [tag]
  target := .fork (some repo) none
  yank := []
  unyank := []
  yankReason := ""
  ephemeral := false
  now := ""

/-- A registry that has every tag and a description, and a forge that does not fail. -/
def takeoverAnswers (bytes : β) : Answers β where
  guardDestination _ := true
  listTags := .ok []
  observation :=
    ⟨fun _ => .ok (some (bytes, takeoverDigest, .imageIndex ⟨2, none, none, [], none⟩)),
      fun _ => .ok .present⟩
  reobservation := ⟨fun _ => .ok none, fun _ => .ok .present⟩
  probeDescription := .ok (some takeoverDigest)
  pullDescription := .ok (some ⟨∅, bytes, none⟩)
  readFails _ := false
  commitFails := false
  requestFails := false
  conflicting := .ok false

def takeoverRow : TagRow := newTagEntry takeoverDigest.toString "" false

/-! ### A new tag -/

def plainTag (n : ℕ) : String := String.ofList (List.replicate (n + 1) 'v')

theorem plainTag_injective : Function.Injective plainTag := by
  intro m n h
  have hlist := congrArg (fun s => s.toList.length) h
  simpa [plainTag] using hlist

theorem toList_plainTag (n : ℕ) : (plainTag n).toList = replicate (n + 1) 'v' :=
  String.toList_ofList

theorem stripFront_replicate {c d : Char} (h : c ≠ d) (front : List Char) (n : ℕ) :
    stripFront (c :: front) (replicate (n + 1) d) = none := by
  simp [stripFront, replicate_succ, h]

theorem stripFront_name_replicate (algorithm : Algorithm) (n : ℕ) :
    stripFront algorithm.name.toList (replicate (n + 1) 'v') = none := by
  cases algorithm <;> exact stripFront_replicate (by decide) _ n

theorem isReferrerFallbackTag_plainTag (n : ℕ) : isReferrerFallbackTag (plainTag n) = false := by
  have hsuffix : ∀ suffix ∈ [".sig", ".att", ".sbom"],
      stripFront suffix.toList.reverse (replicate (n + 1) 'v') = none := by
    simp only [mem_cons, not_mem_nil, or_false, forall_eq_or_imp, forall_eq]
    exact ⟨stripFront_replicate (by decide) _ n, stripFront_replicate (by decide) _ n,
      stripFront_replicate (by decide) _ n⟩
  unfold isReferrerFallbackTag
  dsimp only
  rw [toList_plainTag, reverse_replicate, hsuffix ".sig" (by simp), hsuffix ".att" (by simp),
    hsuffix ".sbom" (by simp)]
  refine any_eq_false.2 fun algorithm _ => ?_
  simp only [map_none, or_none, getD_none, stripFront_name_replicate,
    bind_none]
  decide

theorem isReservedTag_plainTag (n : ℕ) : isReservedTag (plainTag n) = false := by
  have hinternal : isInternalNamespace (plainTag n) = false := by
    unfold isInternalNamespace
    rw [toList_plainTag, replicate_succ]
    rfl
  have hkeep : parseKeep (plainTag n).toList '.' = none := by
    unfold parseKeep
    rw [toList_plainTag, findSome?_eq_none_iff]
    intro algorithm _
    rw [stripFront_name_replicate]
    rfl
  rw [isReservedTag, hinternal, hkeep, isReferrerFallbackTag_plainTag]
  rfl

theorem exists_new_tag (taken : List String) : ∃ tag, tag ∉ taken ∧ isReservedTag tag = false := by
  obtain ⟨_, ⟨n, rfl⟩, hn⟩ :=
    (Set.infinite_range_of_injective plainTag_injective).exists_notMem_finset taken.toFinset
  exact ⟨plainTag n, by simpa using hn, isReservedTag_plainTag n⟩

/-! ### The rebuilt root -/

section Rebuild

variable {plan : TagPlan β} {selection : TagSelection} {now : String}

theorem foldl_keepRow_of_drops {entries : List (String × TagRow)}
    (h : ∀ entry ∈ entries, plan.drops selection entry.1 = true) (rows : OrderedMap String TagRow) :
    entries.foldl (keepRow plan selection now) rows = rows := by
  induction entries with
  | nil => rfl
  | cons entry rest ih =>
    rw [foldl_cons, keepRow, if_pos (h entry mem_cons_self)]
    exact ih fun e he => h e (mem_cons_of_mem _ he)

theorem rowContent_newTagEntry (content now : String) (ephemeral : Bool) :
    rowContent (newTagEntry content now ephemeral) = some content := by
  unfold rowContent newTagEntry
  cases ephemeral <;> simp [OrderedMap.get_insert, JsonNode.asString]

theorem rowContent_takeoverRow : rowContent takeoverRow = some takeoverDigest.toString :=
  rowContent_newTagEntry takeoverDigest.toString "" false

theorem regenerate_replace {entry : Observed β}
    (hnew : entry.tag ∉ committedTagNames (.object members)) :
    regenerate (.object members) { observed := [entry] } (.replace [entry.tag]) false now =
      .object ((members.shiftRemove "variants").insert "tags" (.object
        ((∅ : OrderedMap String TagRow).insert entry.tag
          (newTagEntry entry.content.toString now false)))) := by
  have hrows : regenerateRows (.object members) { observed := [entry] } (.replace [entry.tag]) false
      now = (∅ : OrderedMap String TagRow).insert entry.tag
        (newTagEntry entry.content.toString now false) := by
    unfold regenerateRows
    rw [foldl_keepRow_of_drops]
    · simp [addRow]
    · intro row hrow
      have hcommitted : row.1 ∈ committedTagNames (.object members) := by
        rw [committedTagNames_eq]
        cases htags : tagRows (.object members) with
        | none => simp [htags] at hrow
        | some rows => exact mem_map_of_mem (by simpa [htags] using hrow)
      have hne : row.1 ≠ entry.tag := fun h => hnew (h ▸ hcommitted)
      simp [TagPlan.drops, TagSelection.replaces, TagSelection.given, hne]
  unfold regenerate
  rw [hrows]
  rfl

end Rebuild

/-! ### The pass -/

section Pass

variable {codec : Codec β} {registry package repo tag : String} {bytes : β}

def takeoverObserved (tag : String) (bytes : β) : Observed β := ⟨tag, takeoverDigest, bytes⟩

def takeoverDesc (codec : Codec β) (physical : Physical) (root : Root) (bytes : β) :
    ObservedDesc β :=
  describe codec physical root takeoverDigest ⟨∅, bytes, none⟩

theorem exists_orphanPaths (answers : Answers β) (hreads : ∀ path, answers.readFails path = false)
    (previous new : Root) (packageRepo : String) (tree : Tree β) :
    ∃ orphans, orphanPaths answers previous new packageRepo tree = .ok orphans := by
  have hread : ∀ path, readAt answers tree path = .ok (tree path) := fun path =>
    readAt_eq_ok_iff.2 ⟨hreads path, rfl⟩
  have hobject : ∀ object, ∃ paths, orphanPath answers tree packageRepo
      ((referencedObjects new).map Prod.fst) object = .ok paths := by
    rintro ⟨digest, extension⟩
    unfold orphanPath
    split
    · exact ⟨_, rfl⟩
    · cases extension with
      | some extension => exact ⟨_, rfl⟩
      | none =>
        unfold logoPath
        simp only [hread]
        cases tree (objectPath packageRepo digest .png) with
        | some _ => exact ⟨_, rfl⟩
        | none => cases tree (objectPath packageRepo digest .svg) <;> exact ⟨_, rfl⟩
  obtain ⟨paths, hpaths, -⟩ := exists_mapM_ok (R := fun _ _ => True)
    fun object (_ : object ∈ referencedObjects previous) =>
      (hobject object).imp fun _ h => ⟨h, trivial⟩
  refine ⟨paths.flatten, ?_⟩
  unfold orphanPaths
  dsimp only
  rw [hpaths]
  rfl

variable {answers : Answers β} {observed : List (Observed β)} {root base : Root} {content : β}
  {carried : List (Digest × β)} {blobs : List (DescBlob β)} {files : FileSet β}

theorem fetchCarriedObjects_of_no_row {head : Tree β} {carried : List String}
    (h : ∀ t ∈ carried, tagRow root t = none) :
    fetchCarriedObjects codec answers head packageRepo root carried observed = .ok {} := by
  unfold fetchCarriedObjects
  induction carried with
  | nil => rfl
  | cons t rest ih =>
    rw [foldlM_cons, fetchCarriedObject, h t mem_cons_self]
    exact ih fun t' ht' => h t' (mem_cons_of_mem _ ht')

def takeoverRoot (members : OrderedMap String DocField) (tag : String) : Root :=
  .object ((members.shiftRemove "variants").insert "tags"
    (.object ((∅ : OrderedMap String TagRow).insert tag takeoverRow)))

theorem tagRow_takeoverRoot (members : OrderedMap String DocField) (t : String) :
    tagRow (takeoverRoot members tag) t = if t = tag then some takeoverRow else none := by
  unfold tagRow takeoverRoot
  rw [tagRows_insert_tags, bind_some, OrderedMap.get_insert]
  simp

def takeoverPlan (tag : String) (bytes : β) : TagPlan β :=
  { observed := [takeoverObserved tag bytes] }

theorem draft_takeover {base : RootBase β} (hbase : base.root = .object members)
    (hnew : tag ∉ committedTagNames base.root)
    (hcarried : ∀ carried ∈ base.carried, tag ∉ carried.tags) :
    draft codec answers base (takeoverRequest registry package repo tag) physical
        (takeoverPlan tag bytes) =
      .ok ⟨takeoverRoot members tag, takeoverPlan tag bytes, [], []⟩ := by
  have hroot : regenerate base.root (takeoverPlan tag bytes) (.replace [tag]) false "" =
      takeoverRoot members tag := by
    rw [hbase] at hnew ⊢
    have hobserved := hnew
    exact regenerate_replace hobserved
  unfold draft
  dsimp only [takeoverRequest]
  rw [hroot]
  cases hsome : base.carried with
  | none => rfl
  | some carried =>
    dsimp only
    rw [fetchCarriedObjects_of_no_row]
    · rfl
    · intro t ht
      rw [tagRow_takeoverRoot, if_neg]
      rintro rfl
      exact hcarried carried hsome (mem_of_mem_filter ht)

/-- **The pass succeeds.** -/
theorem exists_rebuilt (package repo : String) {base : RootBase β}
    (hbase : base.root = .object members)
    (hphysical : physicalOf codec (takeoverAnswers bytes) registry base.root = .ok physical)
    (hnew : tag ∉ committedTagNames base.root) (hreserved : isReservedTag tag = false)
    (hcarried : ∀ carried ∈ base.carried, tag ∉ carried.tags) :
    ∃ rebuilt orphans, observeAndRebuild codec (takeoverAnswers bytes) base
        (takeoverRequest registry package repo tag) = .ok rebuilt ∧
      rebuilt.root = insertDesc (takeoverRoot members tag)
        (takeoverDesc codec physical base.root bytes).desc ∧
      rebuilt.rootBytes = codec.serialize rebuilt.root ∧
      rebuilt.files = buildFiles (rootPath package) rebuilt.rootBytes package
        [takeoverObserved tag bytes] [] (takeoverDesc codec physical base.root bytes).blobs
        orphans := by
  obtain ⟨orphans, horphans⟩ := exists_orphanPaths (takeoverAnswers bytes) (fun _ => rfl)
    base.root (insertDesc (takeoverRoot members tag)
      (takeoverDesc codec physical base.root bytes).desc) package base.tree
  have hresolved : resolveCuratedTags (.replace [tag]) (committedTagNames base.root) [] =
      .ok ⟨[tag], []⟩ := by
    simp [resolveCuratedTags, selectedTags, eraseDups_cons, hreserved]
  refine ⟨_, orphans, observeAndRebuild_eq_ok_iff.2 ⟨physical, [], ⟨[tag], []⟩,
    [.present (takeoverObserved tag bytes)], takeoverPlan tag bytes,
    takeoverDesc codec physical base.root bytes, _, _, orphans, hphysical, rfl, hresolved, rfl, rfl,
    rfl, draft_takeover hbase hnew hcarried, rfl, rfl, horphans, rfl⟩, rfl, rfl, rfl⟩

/-! ### The references of the new root -/

section Writes

variable {files : FileSet β} {path : String}

theorem writes_insert_put {place : String} (h : writes files path = true ∨ place = path) :
    writes (files.insert place (.put content)) path = true := by
  by_cases hplace : place = path
  · simp [writes, hplace]
  · unfold writes at h ⊢
    rw [getElem?_insert_eq, if_neg hplace]
    exact h.resolve_right hplace

theorem writes_foldl_put {α : Type} {l : List α} {place : α → String} {content : α → β}
    (h : writes files path = true ∨ ∃ a ∈ l, place a = path) :
    writes (l.foldl (fun files a => files.insert (place a) (.put (content a))) files) path =
      true := by
  induction l generalizing files with
  | nil => exact h.resolve_right (by simp)
  | cons a rest ih =>
    refine ih ?_
    rcases h with hfiles | ⟨b, hb, hplace⟩
    · exact .inl (writes_insert_put (.inl hfiles))
    · rcases mem_cons.1 hb with rfl | hrest
      · exact .inl (writes_insert_put (.inr hplace))
      · exact .inr ⟨b, hrest, hplace⟩

theorem writes_foldl_addOrphan (h : writes files path = true) :
    writes (orphans.foldl addOrphan files) path = true := by
  induction orphans generalizing files with
  | nil => exact h
  | cons orphan rest ih =>
    refine ih ?_
    have hmem : path ∈ files := by
      unfold writes at h
      split at h
      · rename_i hput
        exact Std.ExtTreeMap.mem_iff_isSome_getElem?.2 (by simp [hput])
      · cases h
    unfold writes at h ⊢
    rw [getElem?_addOrphan, if_neg]
    · exact h
    · rintro ⟨rfl, hnot⟩
      exact hnot hmem

end Writes

theorem writes_buildFiles_observed {root : String} {entry : Observed β} (h : entry ∈ observed) :
    writes (buildFiles root content packageRepo observed carried blobs orphans)
      (objectPath packageRepo entry.content .json) = true := by
  exact writes_foldl_addOrphan (writes_foldl_put (.inl (writes_foldl_put (.inl
    (writes_foldl_put (.inr ⟨entry, h, rfl⟩))))))

theorem writes_buildFiles_blob {root : String} {blob : DescBlob β} (h : blob ∈ blobs) :
    writes (buildFiles root content packageRepo observed carried blobs orphans)
      (objectPath packageRepo blob.digest blob.extension) = true := by
  exact writes_foldl_addOrphan (writes_foldl_put (.inr ⟨blob, h, rfl⟩))

theorem unputRef_of_writes {digest : Digest} {raw : String}
    {extension : Extension} (hraw : Digest.tryFrom raw = some digest)
    (h : writes files (objectPath package digest extension) = true) :
    unputRef base package files (raw, some extension) = .ok none := by
  unfold unputRef
  split
  · rfl
  · rw [hraw]
    simp [candidatePaths, h]

theorem unputRef_of_mem {reference : String × Option Extension}
    (h : reference ∈ referencedRaw base) : unputRef base package files reference = .ok none :=
  if_pos h

theorem refuseUnwrittenRefs_of_forall {tree : Tree β} {new : Root}
    (h : ∀ reference ∈ referencedRaw new, unputRef base package files reference = .ok none) :
    refuseUnwrittenRefs answers tree package new base files = .ok () := by
  obtain ⟨suspects, hsuspects, hnone⟩ := exists_mapM_ok
    (R := fun _ (found : Option (List String)) => found = none) fun reference hreference =>
      ⟨none, h reference hreference, rfl⟩
  have hempty : suspects.filterMap id = [] := by
    rw [filterMap_eq_nil_iff]
    intro found hfound
    obtain ⟨_, -, hfound⟩ := exists_of_forall₂ hnone hfound
    exact hfound
  unfold refuseUnwrittenRefs unputIntroducedRefs
  rw [hsuspects]
  simp only [bind, Except.bind, pure, Except.pure, hempty]
  rfl

theorem tryFrom_takeoverDigest : Digest.tryFrom takeoverDigest.toString = some takeoverDigest := by
  decide +kernel

/-- The references of the description of the new root: those of the base, or the readme that was
observed. -/
theorem descField_takeover {key raw : String} (hkey : key = "readme" ∨ key = "logo")
    (h : descField (insertDesc (takeoverRoot members tag)
      (takeoverDesc codec physical root bytes).desc) key = some raw) :
    descField (.object members) key = some raw ∨
      key = "readme" ∧ raw = (codec.hash .sha256 bytes).toString := by
  unfold takeoverDesc describe at h
  split at h
  · refine .inl ?_
    rw [← h]
    unfold descField insertDesc takeoverRoot
    rw [Value.get_object, Value.get_object, OrderedMap.get_insert_of_ne (by decide),
      OrderedMap.get_shiftRemove_of_ne (by decide)]
  · have hdesc : descField (insertDesc (takeoverRoot members tag) (some (descObject ⟨∅, bytes, none⟩
        root physical takeoverDigest (codec.hash .sha256 bytes) none))) key =
        ((descObject (⟨∅, bytes, none⟩ : Description β) root physical takeoverDigest
          (codec.hash .sha256 bytes) none).get key).bind JsonNode.asString := by
      unfold descField insertDesc takeoverRoot
      simp [JsonNode.asObject]
    refine .inr ?_
    have hfield := hdesc.symm.trans h
    unfold descObject at hfield
    rcases hkey with rfl | rfl
    · simp [JsonNode.asString] at hfield
      exact ⟨rfl, hfield.symm⟩
    · simp [OrderedMap.get_insert] at hfield

theorem exists_branchHeadTags (answers : Answers β) {forge : Forge β} {head : Commit β}
    {path name : String} (hreads : ∀ path, answers.readFails path = false)
    (hbranch : forge.branch repo name = some head)
    (hparses : ∀ found ∈ head.tree path, (codec.parse found).isSome) :
    ∃ carried, branchHeadTags codec answers forge repo path name = .ok carried := by
  unfold branchHeadTags
  rw [hbranch]
  have hread : readAt answers head.tree path = .ok (head.tree path) :=
    readAt_eq_ok_iff.2 ⟨hreads path, rfl⟩
  dsimp only
  rw [hread]
  simp only [bind, Except.bind]
  cases hfound : head.tree path with
  | none => exact ⟨none, rfl⟩
  | some found =>
    obtain ⟨root, hroot⟩ := isSome_iff_exists.1 (hparses found hfound)
    dsimp only
    rw [hroot]
    dsimp only
    split <;> exact ⟨_, rfl⟩

/-- **The references of the new root** are those of the base, or written. -/
theorem refuseUnwrittenRefs_takeover {tree : Tree β} {onto : Root}
    (hhash : ∀ algorithm content,
      Digest.tryFrom (codec.hash algorithm content).toString = some (codec.hash algorithm content))
    (hdesc : ∀ key, descField (.object members) key = descField root key) :
    refuseUnwrittenRefs answers tree package
      (insertDesc (takeoverRoot members tag) (takeoverDesc codec physical onto bytes).desc) root
      (buildFiles (rootPath package) content package [takeoverObserved tag bytes] []
        (takeoverDesc codec physical onto bytes).blobs orphans) = .ok () := by
  refine refuseUnwrittenRefs_of_forall ?_
  rintro ⟨raw, extension⟩ hraw
  rcases mem_referencedRaw_iff.1 hraw with ⟨rfl, t, row, hrow, hcontent⟩ | ⟨rfl, hreadme⟩ |
    ⟨rfl, hlogo⟩
  · -- the only row is that of the observed tag
    have hrow' : tagRow (takeoverRoot members tag) t = some row := by
      rw [← hrow]
      unfold tagRow
      rw [tagRows_insertDesc]
    rw [tagRow_takeoverRoot] at hrow'
    split at hrow'
    · cases hrow'
      rw [rowContent_takeoverRow, some.injEq] at hcontent
      subst hcontent
      have hobserved : takeoverObserved tag bytes ∈ [takeoverObserved tag bytes] :=
        mem_singleton_self _
      refine unputRef_of_writes tryFrom_takeoverDigest ?_
      change writes _ (objectPath package (takeoverObserved tag bytes).content .json) = true
      exact writes_buildFiles_observed hobserved
    · cases hrow'
  · rcases descField_takeover (.inl rfl) hreadme with hbase | ⟨-, rfl⟩
    · exact unputRef_of_mem (mem_referencedRaw_iff.2 (.inr (.inl ⟨rfl, hdesc _ ▸ hbase⟩)))
    · let readme : DescBlob β := ⟨codec.hash .sha256 bytes, .md, bytes⟩
      have hblob : readme ∈ (takeoverDesc codec physical onto bytes).blobs := mem_cons_self
      refine unputRef_of_writes (hhash _ _) ?_
      change writes _ (objectPath package readme.digest readme.extension) = true
      exact writes_buildFiles_blob hblob
  · rcases descField_takeover (.inr rfl) hlogo with hbase | ⟨hkey, -⟩
    · exact unputRef_of_mem (mem_referencedRaw_iff.2 (.inr (.inr ⟨rfl, hdesc _ ▸ hbase⟩)))
    · simp at hkey

theorem exists_rootBase_object (h : root.asObject.isSome) (tree : Tree β)
    (carried : Option (BranchHead β)) :
    ∃ members, (rootBase root tree carried).root = .object members := by
  cases root with
  | object members =>
    cases carried with
    | none => exact ⟨members, rfl⟩
    | some head =>
      unfold rootBase
      dsimp only
      rcases carryBranchTags_cases (.object members) head.tags with hsame | ⟨_, _, -, -, hcarried⟩
      · exact ⟨members, by rw [hsame]⟩
      · exact ⟨_, by rw [hcarried]⟩
  | _ => cases h

/-- **The first pass succeeds** for a package that can be announced. -/
theorem exists_firstPass [DecidableEq β] {forge : Forge β} {head : Commit β}
    (hcodec : codec.ReadsBack)
    (hhash : ∀ algorithm content,
      Digest.tryFrom (codec.hash algorithm content).toString = some (codec.hash algorithm content))
    (hbranch : forge.branch repo (branchName package) = some head)
    (h : Announceable codec registry package forge.main head) :
    ∃ tag bytes read pass,
      firstPass codec (takeoverAnswers bytes) (takeoverRequest registry package repo tag) forge
        .stale = .ok (read, pass, false) ∧ pass.base = forge.main := by
  obtain ⟨⟨root, hroot, hobject, hname, pointer, hpointer, hparsed⟩, hparses⟩ := h
  obtain ⟨bytes, hbytes, hparse⟩ := bind_eq_some_iff.1 hroot
  obtain ⟨repository, hrepository⟩ := isSome_iff_exists.1 hparsed
  obtain ⟨carried, hcarried⟩ := exists_branchHeadTags (takeoverAnswers bytes) (fun _ => rfl) hbranch
    hparses
  obtain ⟨members, hmembers⟩ := exists_rootBase_object hobject forge.main.tree carried
  -- a tag that neither root has
  obtain ⟨tag, htag, hreserved⟩ := exists_new_tag (committedTagNames root ++
    (committedTagNames (rootBase root forge.main.tree carried).root ++
      (((rootBase root forge.main.tree carried).carried.map CarriedRows.tags).getD [])))
  simp only [mem_append, not_or] at htag
  obtain ⟨htag, hnew, htags⟩ := htag
  have hphysical : physicalOf codec (takeoverAnswers bytes) registry
      (rootBase root forge.main.tree carried).root = .ok ⟨repository, pointer⟩ :=
    physicalOf_eq_ok_iff.2 ⟨pointer, repository, by rw [get_rootBase (by decide)]; exact hpointer,
      hrepository, rfl, rfl⟩
  have hrows : ∀ rows ∈ (rootBase root forge.main.tree carried).carried, tag ∉ rows.tags := by
    intro rows hrows
    rw [hrows] at htags
    exact htags
  obtain ⟨rebuilt, orphans, hrebuilt, hrebuiltRoot, hrootBytes, hfiles⟩ :=
    exists_rebuilt package repo hmembers hphysical hnew hreserved hrows
  have hdesc : ∀ key, descField (.object members) key = descField root key := by
    intro key
    rw [← hmembers]
    unfold descField
    rw [get_rootBase (by decide)]
  have hrefuse : refuseUnwrittenRefs (takeoverAnswers bytes) forge.main.tree package rebuilt.root
      root rebuilt.files = .ok () := by
    rw [hfiles, hrebuiltRoot]
    exact refuseUnwrittenRefs_takeover hhash hdesc
  have hchanged : isUnchanged (takeoverAnswers bytes) (rootPath package) bytes
      (rootBase root forge.main.tree carried).root forge.main.tree rebuilt = .ok false := by
    refine if_neg fun hsame => htag ?_
    -- equal bytes would be those of the root, which has not the tag
    have hequal : rebuilt.root = root := by
      have hparse' := hcodec (takeoverRequest registry package repo tag) ⟨forge.main, rebuilt⟩
        ⟨_, carried, root, drawn_of_branchHeadTags hcarried, hroot, hrebuilt⟩
      rw [← hrootBytes, hsame.1] at hparse'
      exact some.inj (hparse'.symm.trans hparse)
    rw [← hequal, hrebuiltRoot, committedTagNames_insertDesc, mem_committedTagNames_iff,
      tagRow_takeoverRoot, if_pos rfl]
    rfl
  refine ⟨tag, bytes, ⟨forge.main.tree (rootPath package), forge.main, false, carried⟩,
    ⟨forge.main, rebuilt⟩, firstPass_eq_ok_iff.2 ⟨?_, (bytes, root), ?_, ?_⟩, rfl⟩
  · exact readCommittedRoot_stale_iff.2 ⟨rfl, carried, hcarried, rfl⟩
  · exact requireRoot_eq_ok_iff.2 ⟨hbytes, hparse, hobject, hname⟩
  · exact runPass_eq_ok_iff.2 ⟨rfl, hrebuilt, hrefuse, hchanged⟩

end Pass

/-! ### The announce takes the branch over -/

section Announce

variable [DecidableEq β] {codec : Codec β} {registry p q repo : String} {forge : Forge β}
  {head : Commit β} {bytes : β}

/-- **The branch is taken over.** An announce succeeds, and the pending root of the other package is
no longer on the branch. -/
theorem announce_takeover (hcodec : codec.ReadsBack)
    (hhash : ∀ algorithm content,
      Digest.tryFrom (codec.hash algorithm content).toString = some (codec.hash algorithm content))
    (hpending : PendingRoot forge repo q head bytes) (hne : p ≠ q)
    (hname : branchName p = branchName q) (hdiverged : compareBranch forge.main head = .diverged)
    (h : Announceable codec registry p forge.main head) :
    ∃ request steps outcome, request.package.registry = registry ∧ request.package.repository = p ∧
      (announce codec request forge steps).1 = .finished outcome ∧
      ¬ Carries (announce codec request forge steps).2 repo q bytes := by
  have hbranch : forge.branch repo (branchName p) = some head := hname ▸ hpending.branch_eq
  obtain ⟨tag, found, read, pass, hpass, hbase⟩ := exists_firstPass hcodec hhash hbranch h
  have hrebuilds := (firstPass_spec hpass).1
  have hstate : resolveBranchState forge (some repo) (branchName p) = .stale := by
    rw [hname, hpending.resolveBranchState_eq, hdiverged]
    rfl
  have hclassify : advance codec (takeoverRequest registry p repo tag) (takeoverAnswers found) .idle
      forge = (.classified .stale, forge) := by
    rw [← hstate]
    rfl
  have hready : advance codec (takeoverRequest registry p repo tag) (takeoverAnswers found)
      (.classified .stale) forge = (.ready .stale read.carried pass, forge) := by
    unfold advance
    dsimp only
    rw [hpass]
    rfl
  have hcommit : advance codec (takeoverRequest registry p repo tag) (takeoverAnswers found)
      (.ready .stale read.carried pass) forge =
        (.finished ⟨.updated, some pass.rebuilt⟩, (forge.setBranch repo (branchName p)
          (forge.newCommit pass.base pass.rebuilt.files)).openOrUpdateRequest repo
            (branchName p)) := rfl
  have hannounce : announce codec (takeoverRequest registry p repo tag) forge
      (replicate 3 (takeoverAnswers found)) =
        (.finished ⟨.updated, some pass.rebuilt⟩, (forge.setBranch repo (branchName p)
          (forge.newCommit pass.base pass.rebuilt.files)).openOrUpdateRequest repo
            (branchName p)) := by
    unfold announce
    simp [replicate, foldl_cons, foldl_nil, hclassify, hready, hcommit]
  refine ⟨takeoverRequest registry p repo tag, replicate 3 (takeoverAnswers found),
    ⟨.updated, some pass.rebuilt⟩, rfl, rfl, by rw [hannounce], ?_⟩
  rw [hannounce]
  rintro ⟨head', hhead', hroot⟩
  have hwritten := (Forge.branch_setBranch forge repo (branchName p)
    (forge.newCommit pass.base pass.rebuilt.files) repo (branchName q)).symm.trans hhead'
  rw [if_pos ⟨rfl, hname.symm⟩, some.injEq] at hwritten
  rw [← hwritten, hrebuilds.tree_newCommit hne hname, hbase] at hroot
  exact hpending.main_ne hroot

/-- **When a pending root stays.** The branch of a package carries a root that main has not, and a
request for it is open.  Every announce of another package that succeeds leaves the root there,
unless the branches of the two have one name, the branch has diverged from main, and the other
package can be announced. -/
theorem announce_keeps_other_root_iff (codec : Codec β) (registry p q repo : String)
    (forge : Forge β) (head : Commit β) (bytes : β)
    (hcodec : codec.ReadsBack)
    (hhash : ∀ algorithm content,
      Digest.tryFrom (codec.hash algorithm content).toString = some (codec.hash algorithm content))
    (hne : p ≠ q) (hpending : PendingRoot forge repo q head bytes) :
    (∀ request steps outcome, request.package.registry = registry →
      request.package.repository = p →
      (announce codec request forge steps).1 = .finished outcome →
        Carries (announce codec request forge steps).2 repo q bytes) ↔
      ¬ (branchName p = branchName q ∧ compareBranch forge.main head = .diverged ∧
        Announceable codec registry p forge.main head) := by
  constructor
  · rintro hkeeps ⟨hname, hdiverged, hannounceable⟩
    obtain ⟨request, steps, outcome, hregistry, hpackage, hfinished, hlost⟩ :=
      announce_takeover hcodec hhash hpending hne hname hdiverged hannounceable
    exact hlost (hkeeps request steps outcome hregistry hpackage hfinished)
  · rintro hholds request steps outcome rfl rfl -
    exact carries_announce hpending hne
      (fun hname hdiverged hannounceable => hholds ⟨hname, hdiverged, hannounceable⟩) steps

end Announce

/-! ### Two packages with one branch -/

def sharedRoot (package : String) : Root :=
  .object (((∅ : OrderedMap String DocField).insert "name" (.string ("ocx.sh/" ++ package))).insert
    "repository" (.string "oci://ghcr.io/widget"))

def sharedCommit (package : String) (sha : ℕ) (history : List ℕ) : Commit Root where
  sha := sha
  history := history
  tree path := if path = rootPath package then some (sharedRoot package) else none

/-- Main has the root of `a/b-c` and has moved; the branch has a pending root of `a-b/c`. -/
def sharedForge : Forge Root where
  main := sharedCommit "a/b-c" 2 [2, 0]
  branch repo name := if repo = indexRepo ∧ name = branchName "a-b/c" then
    some (sharedCommit "a-b/c" 1 [1, 0]) else none
  openRequest _ _ := true
  next := 3

theorem pendingRoot_shared : PendingRoot sharedForge indexRepo "a-b/c"
    (sharedCommit "a-b/c" 1 [1, 0]) (sharedRoot "a-b/c") where
  branch_eq := by simp [sharedForge]
  root_eq := by simp [sharedCommit]
  unmerged := .inr rfl
  main_ne := by decide +kernel
  openRequest_eq := rfl

/-- An announce of `a/b-c`. -/
def sharedAnnounce : Phase Root × Forge Root :=
  announce raceCodec { widgetRequest with package := ⟨"ocx.sh", "a/b-c", none, none⟩ } sharedForge
    (List.replicate 3 raceAnswers)

/-- **A pending root is lost.** An announce of `a/b-c` succeeds, and the branch from which the
request of `a-b/c` is opened no longer has the root of `a-b/c`. -/
theorem announce_drops_other_root :
    PackageRef.validateRepository "a/b-c" = .ok () ∧
      PackageRef.validateRepository "a-b/c" = .ok () ∧
      PendingRoot sharedForge indexRepo "a-b/c" (sharedCommit "a-b/c" 1 [1, 0])
        (sharedRoot "a-b/c") ∧
      (sharedAnnounce.1.updated.map fun rebuilt => committedTagNames rebuilt.root) = some ["3"] ∧
      ¬ Carries sharedAnnounce.2 indexRepo "a-b/c" (sharedRoot "a-b/c") := by
  have hbranch : ((sharedAnnounce.2.branch indexRepo (branchName "a-b/c")).bind fun head =>
      head.tree (rootPath "a-b/c")) = none := by decide +kernel
  refine ⟨by decide +kernel, by decide +kernel, pendingRoot_shared, by decide +kernel, ?_⟩
  rintro ⟨head, hhead, hroot⟩
  rw [hhead, bind_some, hroot] at hbranch
  cases hbranch

/-- An announce of a package with another branch leaves the pending root. -/
theorem announce_keeps_other_root_apart :
    branchName "a/b" ≠ branchName "a-b/c" ∧
      ∀ request steps outcome, request.package.registry = "ocx.sh" →
        request.package.repository = "a/b" →
        (announce raceCodec request sharedForge steps).1 = .finished outcome →
          Carries (announce raceCodec request sharedForge steps).2 indexRepo "a-b/c"
            (sharedRoot "a-b/c") := by
  have hname : branchName "a/b" ≠ branchName "a-b/c" := by decide +kernel
  have hhash : ∀ algorithm content, Digest.tryFrom (raceCodec.hash algorithm content).toString =
      some (raceCodec.hash algorithm content) := fun _ _ => tryFrom_takeoverDigest
  refine ⟨hname, (announce_keeps_other_root_iff raceCodec "ocx.sh" "a/b" "a-b/c" indexRepo
    sharedForge (sharedCommit "a-b/c" 1 [1, 0]) (sharedRoot "a-b/c") (fun _ _ _ => rfl) hhash
    (by decide) pendingRoot_shared).2 ?_⟩
  exact fun h => hname h.1

end Ocx.Announce
