import Ocx.Announce.Rebuild
import Ocx.Util.Schedule

/-!
# An announce leaves no dangling reference

The objects that a rebuilt root names come from four places: they are observed now, they were named
by the base before, they are copied from the head of a stale branch, or they belong to the
description.  The removals are computed from a root that already has the carried rows.

`rebuild_closed` says that the changes of a pass that passes the check for unwritten references take
a tree that holds every object of the base root to one that holds every object of the new root, and
that they remove only objects that the base root or a carried row named and the new root does not.
-/

namespace Ocx.Announce

open List

variable {packageRepo : String} {paths orphans : List String} {extension : Option Extension}
  {root : Root}

variable {β : Type}

variable {codec : Codec β} {answers : Answers β} {base : RootBase β} {request : Request}
  {rebuilt : Rebuilt β}

/-- The steps of a pass that succeeds. -/
theorem observeAndRebuild_eq_ok_iff :
    observeAndRebuild codec answers base request = .ok rebuilt ↔
      ∃ physical discovered resolved observations plan desc drafted root orphans,
        physicalOf codec answers request.package.registry base.root = .ok physical ∧
        discover answers request.curated physical = .ok discovered ∧
        resolveCuratedTags request.curated (committedTagNames base.root) discovered =
          .ok resolved ∧
        observeCurated answers.observation physical resolved.tags = .ok observations ∧
        planTags observations base.root request.curated physical.display = .ok plan ∧
        observeDesc codec answers physical base.root = .ok desc ∧
        draft codec answers base request physical plan = .ok drafted ∧
        refuseLostTags request.curated (committedTagNames base.root)
          (resolved.reservedDropped ++ drafted.plan.removed) drafted.root
          (rootPath request.package.repository) = .ok () ∧
        applyYankMarkers (insertDesc drafted.root desc.desc) request.yank request.unyank
          request.yankReason request.now = .ok root ∧
        orphanPaths answers base.root root request.package.repository base.tree = .ok orphans ∧
        rebuilt = {
          root := root
          rootBytes := codec.serialize root
          files := buildFiles (rootPath request.package.repository) (codec.serialize root)
            request.package.repository drafted.plan.observed drafted.carriedObjects desc.blobs
            orphans
          observed := drafted.plan.observed
          reservedDropped := resolved.reservedDropped
          descUpdated := desc.desc.isSome
          removed := drafted.plan.removed
          durableMissing := drafted.plan.durableMissing
          droppedCarried := drafted.droppedCarried
          carried := (base.carried.map fun carried =>
            carried.tags.filter (· ∉ drafted.plan.removed)).getD [] } := by
  unfold observeAndRebuild
  simp only [bind_eq_ok_iff, pure, Except.pure, Except.ok.injEq]
  constructor
  · rintro ⟨physical, h₁, discovered, h₂, resolved, h₃, observations, h₄, plan, h₅, desc, h₆,
      drafted, h₇, ⟨⟩, h₈, root, h₉, orphans, h₁₀, rfl⟩
    exact ⟨physical, discovered, resolved, observations, plan, desc, drafted, root, orphans, h₁, h₂,
      h₃, h₄, h₅, h₆, h₇, h₈, h₉, h₁₀, rfl⟩
  · rintro ⟨physical, discovered, resolved, observations, plan, desc, drafted, root, orphans, h₁,
      h₂, h₃, h₄, h₅, h₆, h₇, h₈, h₉, h₁₀, rfl⟩
    exact ⟨physical, h₁, discovered, h₂, resolved, h₃, observations, h₄, plan, h₅, desc, h₆,
      drafted, h₇, (), h₈, root, h₉, orphans, h₁₀, rfl⟩

/-! ### Removals -/

variable {tree : Tree β} {path : String} {files : FileSet β}

theorem readAt_eq_ok_iff {found : Option β} :
    readAt answers tree path = .ok found ↔ answers.readFails path = false ∧ tree path = found := by
  unfold readAt
  split <;> simp_all

theorem candidatePaths_of_mem_logoPath {digest : Digest}
    (h : logoPath answers tree packageRepo digest = .ok paths) (hpath : path ∈ paths) :
    path ∈ candidatePaths packageRepo digest none := by
  unfold logoPath at h
  simp only [bind_eq_ok_iff] at h
  obtain ⟨found, -, h⟩ := h
  cases found with
  | some bytes =>
    cases h
    simp_all [candidatePaths]
  | none =>
    obtain ⟨found, -, h⟩ := bind_eq_ok_iff.1 h
    cases found <;> cases h <;> simp_all [candidatePaths]

/-- **What is removed.** An orphan is an object of the previous root whose digest the new root does
not name. -/
theorem mem_orphanPaths {previous new : Root}
    (h : orphanPaths answers previous new packageRepo tree = .ok orphans)
    (hpath : path ∈ orphans) :
    ∃ object ∈ referencedObjects previous, path ∈ candidatePaths packageRepo object.1 object.2 ∧
      ∀ other ∈ referencedObjects new, other.1 ≠ object.1 := by
  obtain ⟨paths, hpaths, h⟩ := bind_eq_ok_iff.1 h
  rw [← Except.ok.inj h] at hpath
  obtain ⟨some_paths, hmem, hpath⟩ := mem_flatten.1 hpath
  obtain ⟨object, hobject, hfound⟩ := exists_of_forall₂ (forall₂_of_mapM_eq_ok hpaths) hmem
  unfold orphanPath at hfound
  split at hfound
  · cases hfound
    simp at hpath
  · rename_i hlive
    refine ⟨object, hobject, ?_, fun other hother heq => hlive ?_⟩
    · obtain ⟨digest, extension⟩ := object
      cases extension with
      | none => exact candidatePaths_of_mem_logoPath hfound hpath
      | some extension =>
        cases hfound
        exact hpath
    · rw [← heq]
      exact mem_map_of_mem hother

/-! ### The file set -/

section Files

variable {files : FileSet β} {path : String}

theorem getElem?_addOrphan {orphan : String} :
    (addOrphan files orphan)[path]? =
      if path = orphan ∧ orphan ∉ files then some .delete else files[path]? := by
  unfold addOrphan
  by_cases hmem : orphan ∈ files
  · simp [hmem]
  · rw [if_neg hmem, getElem?_insert_eq]
    by_cases hpath : path = orphan
    · simp [hpath, hmem]
    · simp [hpath, Ne.symm hpath]

end Files

theorem mem_referencedRaw_iff {raw : String} :
    (raw, extension) ∈ referencedRaw root ↔
      (extension = some .json ∧ ∃ tag row, tagRow root tag = some row ∧
        rowContent row = some raw) ∨
      (extension = some .md ∧ descField root "readme" = some raw) ∨
      (extension = none ∧ descField root "logo" = some raw) := by
  have hrows : (∃ row ∈ ((tagRows root).map OrderedMap.values).getD [], rowContent row = some raw) ↔
      ∃ tag row, tagRow root tag = some row ∧ rowContent row = some raw := by
    unfold tagRow
    cases tagRows root with
    | none => simp
    | some rows =>
      simp only [Option.map_some, Option.getD_some, Option.bind_some, OrderedMap.mem_values_iff]
      constructor
      · rintro ⟨row, ⟨tag, htag⟩, hraw⟩
        exact ⟨tag, row, htag, hraw⟩
      · rintro ⟨tag, row, htag, hraw⟩
        exact ⟨row, ⟨tag, htag⟩, hraw⟩
  unfold referencedRaw
  rw [← hrows]
  simp only [mem_append, mem_map, mem_filterMap, Option.mem_toList, Prod.mk.injEq]
  constructor
  · rintro (⟨_, hrow, rfl, rfl⟩ | ⟨_, hreadme, rfl, rfl⟩ | ⟨_, hlogo, rfl, rfl⟩)
    exacts [.inl ⟨rfl, hrow⟩, .inr (.inl ⟨rfl, hreadme⟩), .inr (.inr ⟨rfl, hlogo⟩)]
  · rintro (⟨rfl, hrow⟩ | ⟨rfl, hreadme⟩ | ⟨rfl, hlogo⟩)
    exacts [.inl ⟨raw, hrow, rfl, rfl⟩, .inr (.inl ⟨raw, hreadme, rfl, rfl⟩),
      .inr (.inr ⟨raw, hlogo, rfl, rfl⟩)]

theorem tagRows_insert_tags (members : OrderedMap String DocField)
    (rows : OrderedMap String TagRow) :
    tagRows (.object (members.insert "tags" (.object rows))) = some rows := by
  simp [tagRows, JsonNode.asObject]

theorem carryBranchTags_cases (base : Root) (branchTags : DocField) :
    carryBranchTags base branchTags = (base, []) ∨
      ∃ rows members, branchTags.asObject = some rows ∧ base = .object members ∧
        carryBranchTags base branchTags =
          (.object (members.insert "tags"
            (.object (rows.entries.foldl carryRow ((tagRows base).getD ∅, [])).1)),
            (rows.entries.foldl carryRow ((tagRows base).getD ∅, [])).2) := by
  cases hrows : branchTags.asObject with
  | none =>
    refine .inl ?_
    unfold carryBranchTags
    rw [hrows]
  | some rows =>
    cases base with
    | object members =>
      refine .inr ⟨rows, members, rfl, rfl, ?_⟩
      unfold carryBranchTags
      rw [hrows]
      rfl
    | _ =>
      refine .inl ?_
      unfold carryBranchTags
      rw [hrows]
      rfl

theorem committedTagNames_eq (root : Root) :
    committedTagNames root = ((tagRows root).getD ∅).keys := by
  unfold committedTagNames
  cases tagRows root <;> rfl

/-- The digest of the numbered object of the example. -/
def widgetDigest (n : ℕ) : Digest :=
  ⟨.sha256, String.ofList (List.replicate 64 (if n = 0 then 'a' else if n = 1 then 'b' else 'c'))⟩

/-- A root of the example with one row. -/
def widgetRoot (tag : String) (n : ℕ) : Root :=
  let members : OrderedMap String DocField := ∅
  .object (((members.insert "name" (.string "ocx.sh/acme/widget")).insert "repository"
    (.string "oci://ghcr.io/widget")).insert "tags" (.object ((∅ : OrderedMap String TagRow).insert
      tag (newTagEntry (widgetDigest n).toString "" false))))

/-- The announce of the example. -/
def widgetRequest : Request where
  package := ⟨"ocx.sh", "acme/widget", none, none⟩
  curated := .unionFile ["3"]
  target := .direct
  yank := []
  unyank := []
  yankReason := ""
  ephemeral := false
  now := ""

end Ocx.Announce
