import Ocx.Cascade.Graph
import Ocx.Util.Schedule

/-!
# Publishing with cascade

A registry maps tags to documents. A push merges the pushed platform into the index of the version
tag and of every rolling tag its cascade moves. Gathering reads all tags of the registry back into
an observation of the tag graph.
-/

namespace Ocx

open List Option

variable {tags : List String} {node : String × AliasTag}

/-- The documents of a repository by tag. -/
abbrev Registry := Std.ExtTreeMap String ObservedTag

def Registry.fetchManifest (reg : Registry) (tag : String) : Option Manifest :=
  reg[tag]?.map (·.manifest)

/-- The versions among the listed tags. -/
def listedVersions (reg : Registry) : VersionSet :=
  Std.ExtTreeSet.ofList (reg.keys.filterMap Version.parse)

/-! ### Merging a platform into an index -/

/-- Extend the annotations of an index; an empty extension leaves them untouched. -/
def extendAnnotations (old : Option Annotations) (new : Annotations) : Option Annotations :=
  if new.isEmpty then old
  else some (new.toList.foldl (fun m a => m.insert a.1 a.2) (old.getD ∅))

/-- The entry of a pushed platform manifest. -/
def platformEntry (platform : NativePlatform) (digest : String) (size : ℤ) : ImageIndexEntry :=
  ⟨mediaTypeOciImageManifest, digest, size, some platform, none, none⟩

/-- The index a merge starts from: a bare manifest becomes an entry without a platform. -/
def existingIndex : Option ObservedTag → ImageIndex
  | some ⟨_, _, .imageIndex index⟩ => index
  | some ⟨digest, size, .image⟩ =>
    ⟨indexSchemaVersion, some mediaTypeOciImageIndex, none, [wrapManifest digest.toString size],
      none⟩
  | none => ⟨indexSchemaVersion, some mediaTypeOciImageIndex, none, [], none⟩

/-- Replace the entry of a platform in an index. -/
def mergeIndex (index : ImageIndex) (platform : NativePlatform) (digest : String) (size : ℤ)
    (annotations : Annotations) : ImageIndex where
  schemaVersion := index.schemaVersion
  mediaType := index.mediaType
  artifactType := some (index.artifactType.getD mediaTypePackageV1)
  manifests := index.manifests.filter (fun e => e.platform != some platform) ++
    [platformEntry platform digest size]
  annotations := extendAnnotations index.annotations annotations

section Push

variable (body : ImageIndex → Digest × ℤ)

/-- Merge a pushed platform manifest into the index of a tag. -/
def mergePlatformIntoIndex (reg : Registry) (tag : String) (platform : Platform) (digest : String)
    (size : ℤ) (annotations : Annotations) : Registry :=
  reg.insert tag (written body
    (mergeIndex (existingIndex reg[tag]?) platform.toNative digest size annotations))

/-- One publication: a version for a platform. The version was read from a tag. -/
structure Publication where
  version : Version
  wellFormed : version.WellFormed
  platform : Platform
  /-- The digest of the platform manifest. -/
  digest : String
  /-- The size of the platform manifest. -/
  size : ℤ
  /-- The annotations to stamp on every index. -/
  annotations : Annotations

def Publication.entry (pub : Publication) : ImageIndexEntry :=
  platformEntry pub.platform.toNative pub.digest pub.size

/-- Merge a publication into a list of tags, one after another. -/
def mergeTags (pub : Publication) (reg : Registry) (tags : List String) : Registry :=
  tags.foldl (fun reg tag => mergePlatformIntoIndex body reg tag pub.platform pub.digest pub.size
    pub.annotations) reg

/-- Push a version: decide the cascade from the listed tags, then merge the platform into the
version's tag and into every tag the cascade moves. -/
def pushWithCascade (reg : Registry) (pub : Publication) : Registry :=
  mergeTags body pub reg (pub.version.toTag ::
    (resolveCascadeTags reg.fetchManifest pub.platform pub.version (listedVersions reg)).1)

/-- A sequence of pushes into an empty registry. -/
def publish (pubs : List Publication) : Registry := pubs.foldl (pushWithCascade body) ∅

end Push

/-! ### Gathering -/

/-- The distinct variants of the versions among tags. -/
def variantNames (tags : List String) : List String :=
  (Std.ExtTreeSet.ofList ((tags.filterMap Version.parse).filterMap (·.variant))).toList

/-- Split a tag listing into graph nodes and ignored tags. -/
def classify (listed : List String) : List (String × AliasTag) × List String :=
  (listed.filterMap fun tag => (AliasTag.parse tag (variantNames listed)).map (tag, ·),
    (listed.filter fun tag => (AliasTag.parse tag (variantNames listed)).isNone).insertionSort
      (· ≤ ·))

/-- Read the tag graph of a registry. The reads finish in any order; a listed tag that cannot be
read fails the whole pass. -/
def gather (reg : Registry) (reads : Completion (classify reg.keys).1) :
    Option TagGraphObservation := do
  let tags ← reads.order.mapM fun node => reg[node.1]?.map (node.2, ·)
  return ⟨tags.foldl (fun m t => m.insert t.1 t.2) ∅, (classify reg.keys).2, none⟩

/-! ### Slots of a registry -/

def ImageIndex.entryFor (index : ImageIndex) (p : NativePlatform) : Option ImageIndexEntry :=
  index.manifests.find? (fun e => e.platform == some p)

/-- The entry the index at a tag carries for a platform. -/
def entryAt (reg : Registry) (tag : String) (p : NativePlatform) : Option ImageIndexEntry :=
  match reg[tag]? with
  | some ⟨_, _, .imageIndex index⟩ => index.entryFor p
  | _ => none

/-- The entry a graph node carries for a platform. -/
def slotAt (reg : Registry) (a : AliasTag) (p : NativePlatform) : Option ImageIndexEntry :=
  entryAt reg a.toTag p

section Slots

variable {reg : Registry} {tag tag' : String} {p q : NativePlatform}

theorem entryAt_of_not_mem (h : tag ∉ reg) : entryAt reg tag p = none := by
  rw [entryAt, Std.ExtTreeMap.getElem?_eq_none h]

theorem entryFor_existingIndex : (existingIndex reg[tag]?).entryFor p = entryAt reg tag p := by
  rw [entryAt]
  rcases reg[tag]? with _ | ⟨digest, size, _ | index⟩ <;> rfl

theorem find?_filter_ne (entries : List ImageIndexEntry) (h : p ≠ q) :
    (entries.filter fun e => e.platform != some q).find? (fun e => e.platform == some p) =
      entries.find? (fun e => e.platform == some p) := by
  rw [find?_filter]
  congr 1
  funext e
  by_cases he : e.platform = some p
  · simp [he, h]
  · simp [he]

theorem entryFor_mergeIndex (index : ImageIndex) (digest : String) (size : ℤ)
    (annotations : Annotations) :
    (mergeIndex index q digest size annotations).entryFor p =
      if p = q then some (platformEntry q digest size) else index.entryFor p := by
  rw [ImageIndex.entryFor, mergeIndex, find?_append]
  split_ifs with h
  · subst h
    have hnone : (index.manifests.filter fun e => e.platform != some p).find?
        (fun e => e.platform == some p) = none := by
      simp [find?_eq_none]
    rw [hnone]
    simp [platformEntry]
  · rw [find?_filter_ne _ h, ImageIndex.entryFor]
    simp [platformEntry, Ne.symm h]

variable (body : ImageIndex → Digest × ℤ)

/-- A merge changes one slot of one tag. -/
theorem entryAt_mergePlatformIntoIndex {platform : Platform} {digest : String} {size : ℤ}
    {annotations : Annotations} :
    entryAt (mergePlatformIntoIndex body reg tag platform digest size annotations) tag' p =
      if tag' = tag ∧ p = platform.toNative then some (platformEntry p digest size)
      else entryAt reg tag' p := by
  rw [entryAt, mergePlatformIntoIndex, getElem?_insert_eq]
  by_cases htag : tag = tag'
  · subst htag
    simp only [if_true, written, true_and, entryFor_mergeIndex, entryFor_existingIndex]
    split_ifs with hp <;> simp_all
  · simp only [htag, if_false, Ne.symm htag, false_and]
    rfl

theorem entryAt_mergeTags {pub : Publication} :
    entryAt (mergeTags body pub reg tags) tag p =
      if tag ∈ tags ∧ p = pub.platform.toNative then some pub.entry else entryAt reg tag p := by
  induction tags generalizing reg with
  | nil => simp [mergeTags]
  | cons t tags ih =>
    rw [mergeTags, foldl_cons, ← mergeTags, ih, entryAt_mergePlatformIntoIndex]
    by_cases hp : p = pub.platform.toNative
    · subst hp
      by_cases ht : tag ∈ tags
      · simp [ht]
      · by_cases heq : tag = t <;> simp [ht, heq, Publication.entry]
    · simp [hp]

theorem mem_mergeTags {pub : Publication} :
    tag ∈ mergeTags body pub reg tags ↔ tag ∈ reg ∨ tag ∈ tags := by
  induction tags generalizing reg with
  | nil => simp [mergeTags]
  | cons t tags ih =>
    rw [mergeTags, foldl_cons, ← mergeTags, ih, mergePlatformIntoIndex,
      Std.ExtTreeMap.mem_insert, mem_cons, Std.LawfulEqCmp.compare_eq_iff_eq]
    tauto

end Slots

/-! ### Well-shaped registries -/

/-- An index with one entry per platform, all of them platforms of the closed model. -/
structure ImageIndex.Clean (index : ImageIndex) : Prop where
  /-- Every entry names a platform. -/
  platform : ∀ e ∈ index.manifests, ∃ q : Platform, e.platform = some q.toNative
  /-- No platform is named twice. -/
  nodup : (index.manifests.map (·.platform)).Nodup

theorem clean_mergeIndex {index : ImageIndex} (h : index.Clean) (platform : Platform)
    (digest : String) (size : ℤ) (annotations : Annotations) :
    (mergeIndex index platform.toNative digest size annotations).Clean := by
  constructor
  · intro e he
    rcases mem_append.1 he with he | he
    · exact h.platform e (mem_filter.1 he).1
    · exact ⟨platform, by rw [mem_singleton.1 he]; rfl⟩
  · rw [mergeIndex, map_append]
    refine nodup_append.2 ⟨(h.nodup.sublist (filter_sublist.map _)), by simp, ?_⟩
    intro x hx y hy
    obtain ⟨e, he, rfl⟩ := mem_map.1 hx
    rw [map_singleton, mem_singleton] at hy
    rw [hy]
    simpa [platformEntry] using (mem_filter.1 he).2

/-- Every tag of the registry names a clean index. -/
def Registry.Clean (reg : Registry) : Prop :=
  ∀ (tag : String) (t : ObservedTag), reg[tag]? = some t →
    ∃ index, t.manifest = .imageIndex index ∧ index.Clean

theorem Registry.Clean.existingIndex {reg : Registry} (h : reg.Clean) (tag : String) :
    (existingIndex reg[tag]?).Clean := by
  cases ht : reg[tag]? with
  | none => exact ⟨by simp [Ocx.existingIndex], by simp [Ocx.existingIndex]⟩
  | some t =>
    obtain ⟨index, hindex, hclean⟩ := h tag t ht
    obtain ⟨digest, size, manifest⟩ := t
    obtain rfl : manifest = .imageIndex index := hindex
    exact hclean

theorem Registry.Clean.mergeTags {reg : Registry} (h : reg.Clean) (body : ImageIndex → Digest × ℤ)
    (pub : Publication) (tags : List String) : (mergeTags body pub reg tags).Clean := by
  induction tags generalizing reg with
  | nil => exact h
  | cons t tags ih =>
    refine ih ?_
    intro tag s hs
    simp only [mergePlatformIntoIndex, getElem?_insert_eq] at hs
    split_ifs at hs
    · rw [← some.inj hs]
      exact ⟨_, rfl, clean_mergeIndex (h.existingIndex t) _ _ _ _⟩
    · exact h tag s hs

/-! ### What gathering reads -/

section Gather

variable {reg : Registry}

theorem mem_classify_iff {listed : List String} :
    node ∈ (classify listed).1 ↔
      node.1 ∈ listed ∧ AliasTag.parse node.1 (variantNames listed) = some node.2 := by
  obtain ⟨tag, a⟩ := node
  simp [classify]

theorem mem_classify : node ∈ (classify reg.keys).1 ↔
    node.1 ∈ reg ∧ AliasTag.parse node.1 (variantNames reg.keys) = some node.2 := by
  rw [mem_classify_iff, Std.ExtTreeMap.mem_keys]

theorem mem_variantNames {name : String} : name ∈ variantNames tags ↔
    ∃ tag ∈ tags, ∃ v, Version.parse tag = some v ∧ v.variant = some name := by
  rw [variantNames, Std.ExtTreeSet.mem_toList, Std.ExtTreeSet.mem_ofList, contains_iff_mem]
  simp only [mem_filterMap]
  constructor
  · rintro ⟨v, ⟨tag, htag, hv⟩, hname⟩
    exact ⟨tag, htag, v, hv, hname⟩
  · rintro ⟨tag, htag, v, hv, hname⟩
    exact ⟨v, ⟨tag, htag, hv⟩, hname⟩

/-- **Gathering.** Over a registry without concurrent changes the pass never fails. When no two
tags stand for one node, a node holds the document of its tag, whatever order the reads finish
in. -/
theorem gather_eq_some (reads : Completion (classify reg.keys).1)
    (hinj : ∀ tag ∈ reg, ∀ tag' ∈ reg, ∀ a, AliasTag.parse tag (variantNames reg.keys) = some a →
      AliasTag.parse tag' (variantNames reg.keys) = some a → tag = tag') :
    ∃ o, gather reg reads = some o ∧ ∀ a t, o.tags[a]? = some t ↔
      ∃ tag, AliasTag.parse tag (variantNames reg.keys) = some a ∧ reg[tag]? = some t := by
  have hread : ∀ node ∈ reads.order, ∃ t, reg[node.1]?.map (node.2, ·) = some t := by
    intro node hnode
    have hmem := (mem_classify.1 (reads.perm.subset hnode)).1
    rw [Std.ExtTreeMap.mem_iff_isSome_getElem?, isSome_iff_exists] at hmem
    obtain ⟨t, ht⟩ := hmem
    exact ⟨(node.2, t), by rw [ht]; rfl⟩
  obtain ⟨ws, hws, hmem⟩ := mapM_eq_some_of_forall hread
  refine ⟨⟨ws.foldl (fun m t => m.insert t.1 t.2) ∅, (classify reg.keys).2, none⟩,
    by rw [gather, hws]; rfl, fun a t => ?_⟩
  have hmem' : ∀ a t, (a, t) ∈ ws ↔
      ∃ tag, AliasTag.parse tag (variantNames reg.keys) = some a ∧ reg[tag]? = some t := by
    intro a t
    rw [hmem]
    constructor
    · rintro ⟨⟨tag, b⟩, hnode, ht⟩
      obtain ⟨t', ht', heq⟩ := map_eq_some_iff.1 ht
      obtain ⟨rfl, rfl⟩ := Prod.mk.inj heq
      exact ⟨tag, (mem_classify.1 (reads.perm.subset hnode)).2, ht'⟩
    · rintro ⟨tag, hparse, ht⟩
      have hreg : tag ∈ reg := by simp [Std.ExtTreeMap.mem_iff_isSome_getElem?, ht]
      exact ⟨(tag, a), reads.perm.symm.subset (mem_classify.2 ⟨hreg, hparse⟩), by rw [ht]; rfl⟩
  rw [getElem?_foldl_insert, Std.ExtTreeMap.getElem?_empty, or_none, ← hmem']
  refine ⟨mem_of_lastValue_eq_some, fun h => lastValue_of_functional h ?_⟩
  intro t' h'
  obtain ⟨tag, hparse, ht⟩ := (hmem' a t).1 h
  obtain ⟨tag', hparse', ht'⟩ := (hmem' a t').1 h'
  have hreg : tag ∈ reg := by simp [Std.ExtTreeMap.mem_iff_isSome_getElem?, ht]
  have hreg' : tag' ∈ reg := by simp [Std.ExtTreeMap.mem_iff_isSome_getElem?, ht']
  rw [hinj tag hreg tag' hreg' a hparse hparse', ht'] at ht
  exact some.inj ht

end Gather

end Ocx
