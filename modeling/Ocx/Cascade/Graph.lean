import Ocx.Cascade.Decompose
import Ocx.Util.Map

/-!
# The tag graph of a package

The read-only core of the cascade audit: from an observation of a repository's tags, the content
every rolling tag should have, the difference to what it has, and the writes that repair it.
-/

namespace Ocx

open List

variable {v : Version} {a : AliasTag} {p : NativePlatform}

/-- An ordered set of graph nodes. -/
abbrev AliasSet := Std.ExtTreeSet AliasTag

/-- What a rolling tag should carry for one platform: a copy of the source's entry. -/
structure ExpectedSlot where
  entry : ImageIndexEntry
  source : Version
deriving DecidableEq

/-- The expected slots of one rolling tag. -/
abbrev ExpectedSlots := Std.ExtTreeMap NativePlatform ExpectedSlot

/-- The expected content of the whole graph. -/
abbrev ExpectedGraph := Std.ExtTreeMap AliasTag ExpectedSlots

/-- Everything one pass read about one package. A tag missing from `tags` was never created. -/
structure TagGraphObservation where
  tags : Std.ExtTreeMap AliasTag ObservedTag
  /-- The tags that are not part of the graph. -/
  ignoredTags : List String
  /-- The content the public index committed for each tag, when there is one. -/
  indexRoot : Option (Std.ExtTreeMap String Digest)

/-! ### Versions, leaves and the rolling tags above them -/

def TagGraphObservation.versions (o : TagGraphObservation) : VersionSet :=
  Std.ExtTreeSet.ofList (o.tags.keys.filterMap fun
    | .version v => some v
    | .root _ => none)

def TagGraphObservation.index (o : TagGraphObservation) (tag : AliasTag) : Option ImageIndex :=
  match o.tags[tag]? with
  | some ⟨_, _, .imageIndex index⟩ => some index
  | _ => none

/-- Every rolling tag some version cascades into. -/
def aliasUniverse (versions : VersionSet) : AliasSet :=
  Std.ExtTreeSet.ofList (versions.toList.flatMap aliasChain)

/-- The versions in nobody's chain, in ascending order. -/
def leaves (versions : VersionSet) : List Version :=
  versions.toList.filter fun v => .version v ∉ aliasUniverse versions

/-! ### Slots -/

/-- The platform an entry claims a slot for: none for a missing platform or the placeholder of
attestations. -/
def platformSlot (entry : ImageIndexEntry) : Option NativePlatform :=
  entry.platform.filter (!·.isUnknown)

/-- Whether two descriptors agree in every field. -/
def sameDescriptor (left right : ImageIndexEntry) : Bool :=
  left.digest == right.digest && left.size == right.size && left.mediaType == right.mediaType &&
    left.artifactType == right.artifactType && left.annotations == right.annotations &&
    left.platform == right.platform

/-- Read one entry into the slots held so far; an entry it replaces is shadowed. -/
def holdEntry (s : Std.ExtTreeMap NativePlatform ImageIndexEntry ×
      List (NativePlatform × ImageIndexEntry)) (entry : ImageIndexEntry) :
    Std.ExtTreeMap NativePlatform ImageIndexEntry × List (NativePlatform × ImageIndexEntry) :=
  match platformSlot entry with
  | none => s
  | some p =>
    match s.1[p]? with
    | none => (s.1.insert p entry, s.2)
    | some previous => (s.1.insert p entry, s.2 ++ [(p, previous)])

/-- The platform entries at a tag, and the entries a later one shadows. -/
def observedSlots (o : TagGraphObservation) (tag : AliasTag) :
    Std.ExtTreeMap NativePlatform ImageIndexEntry × List (NativePlatform × ImageIndexEntry) :=
  match o.index tag with
  | none => (∅, [])
  | some index => index.manifests.foldl holdEntry (∅, [])

/-- The platform entries of the leaves, in the order they are folded. -/
def leafEntries (o : TagGraphObservation) : List (Version × NativePlatform × ImageIndexEntry) :=
  (leaves o.versions).flatMap fun leaf =>
    match o.index (.version leaf) with
    | none => []
    | some index => index.manifests.filterMap fun entry =>
        (platformSlot entry).map fun p => (leaf, p, entry)

/-- Which leaf an entry came from; the greatest leaf wins on equal content. -/
def leafProvenance (o : TagGraphObservation) :
    Std.ExtTreeMap (NativePlatform ×ₗ String) Version :=
  (leafEntries o).foldl (fun m e => m.insert (toLex (e.2.1, e.2.2.digest)) e.1) ∅

/-! ### The fold -/

/-- The slots the leaves contribute, in the order they are folded. -/
def contributions (o : TagGraphObservation) : List ((AliasTag × NativePlatform) × ExpectedSlot) :=
  (leafEntries o).flatMap fun e => (aliasChain e.1).map fun a => ((a, e.2.1), ⟨e.2.2, e.1⟩)

/-- Fold every leaf into the state each rolling tag should be in. -/
def foldExpected (o : TagGraphObservation) : ExpectedGraph := (contributions o).foldl write2 ∅

/-! ### The audit -/

inductive SlotStatus
  /-- The tag carries exactly the expected entry. -/
  | ok
  /-- The tag lacks an expected platform. -/
  | missing
  /-- The tag carries another entry for the platform. -/
  | stale
  /-- The tag carries a platform nothing folds into it. -/
  | orphan
  /-- The tag carries more than one entry for the platform. -/
  | duplicate
deriving DecidableEq, Repr

/-- The position of a verdict in reports. -/
def SlotStatus.rank : SlotStatus → ℕ
  | ok => 0
  | missing => 1
  | stale => 2
  | orphan => 3
  | duplicate => 4

/-- One row of an audit: what a tag holds for a platform against what it should hold. -/
structure SlotRow where
  tag : AliasTag
  platform : NativePlatform
  status : SlotStatus
  /-- The digest the tag carries. -/
  observed : Option String
  /-- The digest it should carry. -/
  expected : Option String
  /-- The version the expectation comes from. -/
  source : Option Version
  observedSource : Option Version
deriving DecidableEq

def SlotRow.key (row : SlotRow) : NativePlatform ×ₗ ℕ ×ₗ WithBot String :=
  toLex (row.platform, toLex (row.status.rank, bottom row.observed))

/-- What the registry holds at a rolling tag, taken as a whole. -/
inductive AliasState
  /-- An image index. -/
  | present
  /-- No such tag. -/
  | absent
  /-- A bare image manifest. -/
  | notAnIndex (digest : Digest)
deriving DecidableEq

/-- A disagreement between the registry and the public index. -/
inductive IndexFinding
  /-- The index committed another digest. -/
  | stale (tag : AliasTag) (committed live : Digest)
  /-- The index never recorded the tag. -/
  | notCommitted (tag : AliasTag)
deriving DecidableEq

/-- A finding that no repair can fix without new content. -/
inductive Unrepairable
  /-- A planned entry names a manifest that the registry no longer holds. -/
  | childManifestMissing (tag : AliasTag) (digest : Digest)
  /-- A planned entry names a digest that cannot be addressed. -/
  | childDigestUnaddressable (tag : AliasTag) (digest : String)
  /-- Repairing the tag would leave it without entries. -/
  | wouldEmptyIndex (tag : AliasTag)
deriving DecidableEq

/-- The findings of an audit. -/
structure CascadeReport where
  /-- Per rolling tag, what the registry holds as a whole. -/
  aliases : Std.ExtTreeMap AliasTag AliasState
  /-- The rows, those without a finding included. -/
  rows : List SlotRow
  /-- The disagreements with the public index. -/
  indexFindings : List IndexFinding
  /-- The tags that are not part of the graph. -/
  ignoredTags : List String
  /-- The findings that need new content published before they can be fixed. -/
  unrepairable : List Unrepairable

/-- What the registry holds at a tag. -/
def aliasState (o : TagGraphObservation) (tag : AliasTag) : AliasState :=
  match o.tags[tag]? with
  | none => .absent
  | some ⟨_, _, .imageIndex _⟩ => .present
  | some ⟨digest, _, .image⟩ => .notAnIndex digest

/-- The verdict for what a slot should hold and what it holds. -/
def slotStatus : Option ExpectedSlot → Option ImageIndexEntry → Option SlotStatus
  | some want, some held => if sameDescriptor want.entry held then some .ok else some .stale
  | some _, none => some .missing
  | none, some _ => some .orphan
  | none, none => none

section Diff

variable (o : TagGraphObservation) (expected : ExpectedGraph)

def wantedSlots (tag : AliasTag) : ExpectedSlots := expected.getD tag ∅

/-- The row of a slot, when there is anything to report. -/
def slotRow (tag : AliasTag) (platform : NativePlatform) : Option SlotRow :=
  let want := (wantedSlots expected tag)[platform]?
  let held := (observedSlots o tag).1[platform]?
  (slotStatus want held).map fun status =>
    { tag, platform, status
      observed := held.map (·.digest)
      expected := want.map (·.entry.digest)
      source := want.map (·.source)
      observedSource := held.bind fun e => (leafProvenance o)[toLex (platform, e.digest)]? }

def shadowedRow (tag : AliasTag) (s : NativePlatform × ImageIndexEntry) : SlotRow :=
  let want := (wantedSlots expected tag)[s.1]?
  { tag, platform := s.1, status := .duplicate
    observed := some s.2.digest
    expected := want.map (·.entry.digest)
    source := want.map (·.source)
    observedSource := (leafProvenance o)[toLex (s.1, s.2.digest)]? }

/-- The platforms a rolling tag should hold or holds. -/
def slotPlatforms (tag : AliasTag) : Std.ExtTreeSet NativePlatform :=
  Std.ExtTreeSet.ofList ((wantedSlots expected tag).keys ++ (observedSlots o tag).1.keys)

/-- The rows of one rolling tag, sorted. -/
def aliasRows (tag : AliasTag) : List SlotRow :=
  ((slotPlatforms o expected tag).toList.filterMap (slotRow o expected tag) ++
    (observedSlots o tag).2.map (shadowedRow o expected tag)).insertionSort (·.key ≤ ·.key)

/-- Whether a rolling tag needs its index rewritten. An orphan alone is left in place. -/
def needsWrite (state : AliasState) (rows : List SlotRow) : Bool :=
  state != .present ||
    rows.any fun row => row.status == .missing || row.status == .stale || row.status == .duplicate

/-- Read one entry into a planned index: the first entry of a free slot is kept, entries without a
platform are collected. -/
def planEntry (s : Std.ExtTreeMap NativePlatform ImageIndexEntry × List ImageIndexEntry)
    (entry : ImageIndexEntry) :
    Std.ExtTreeMap NativePlatform ImageIndexEntry × List ImageIndexEntry :=
  match platformSlot entry with
  | some p => (s.1.insertIfNew p entry, s.2)
  | none => (s.1, s.2 ++ [entry])

/-- The slots of a planned index before the observed entries are read. -/
def expectedEntries (tag : AliasTag) : Std.ExtTreeMap NativePlatform ImageIndexEntry :=
  (wantedSlots expected tag).map fun _ slot => slot.entry

/-- The platform entries a rolling tag should carry, and the entries without a platform. -/
def planned (tag : AliasTag) :
    Std.ExtTreeMap NativePlatform ImageIndexEntry × List ImageIndexEntry :=
  match o.tags[tag]? with
  | none => (expectedEntries expected tag, [])
  | some ⟨_, _, .imageIndex index⟩ =>
    index.manifests.foldl planEntry (expectedEntries expected tag, [])
  | some ⟨digest, size, .image⟩ =>
    (expectedEntries expected tag, [wrapManifest digest.toString size])

/-- The complete entry list a rolling tag should carry: platform entries in platform order, then
the others as served. -/
def plannedEntries (tag : AliasTag) : List ImageIndexEntry :=
  (planned o expected tag).1.toList.map Prod.snd ++ (planned o expected tag).2

/-- The disagreements with the public index. -/
def indexFindings (scope : AliasSet) : List IndexFinding :=
  match o.indexRoot with
  | none => []
  | some root => scope.toList.filterMap fun tag =>
    match o.tags[tag]? with
    | none => none
    | some live =>
      match root[tag.toTag]? with
      | none => some (.notCommitted tag)
      | some committed => if committed ≠ live.digest then some (.stale tag committed live.digest)
        else none

/-- The difference between what the registry holds and what the fold expects. -/
def diff (scope : AliasSet) : CascadeReport where
  aliases := Std.ExtTreeMap.ofList (scope.toList.map fun tag => (tag, aliasState o tag))
  rows := scope.toList.flatMap (aliasRows o expected)
  indexFindings := indexFindings o scope
  ignoredTags := o.ignoredTags
  unrepairable := (scope.toList.filter fun tag =>
    needsWrite (aliasState o tag) (aliasRows o expected tag) &&
      (plannedEntries o expected tag).isEmpty).map .wouldEmptyIndex

/-! ### Repair -/

/-- One index to write, recomputed whole. -/
structure PlannedWrite where
  tag : AliasTag
  index : ImageIndex
  /-- The digest the tag points at now. -/
  observedDigest : Option Digest
  /-- Every manifest the index names. -/
  referencedDigests : List String
  /-- The rows that justify the write. -/
  reasons : List SlotRow

/-- The index to write at a rolling tag. The media type and the annotations of an index that is
there are kept; its artifact type is filled in when absent, never overwritten. -/
def repairIndex (tag : AliasTag) : ImageIndex where
  schemaVersion := indexSchemaVersion
  mediaType := match o.index tag with
    | some index => index.mediaType
    | none => some mediaTypeOciImageIndex
  artifactType := some (((o.index tag).bind (·.artifactType)).getD mediaTypePackageV1)
  manifests := plannedEntries o expected tag
  annotations := (o.index tag).bind (·.annotations)

/-- The rows that justify a write. -/
def repairReasons (report : CascadeReport) (tag : AliasTag) : List SlotRow :=
  report.rows.filter fun row => row.status != .ok && row.tag == tag

/-- The write for one rolling tag of a report, when it needs one that leaves entries. -/
def planRepair (report : CascadeReport) (tag : AliasTag) (state : AliasState) :
    Option PlannedWrite :=
  if needsWrite state (repairReasons report tag) && !(plannedEntries o expected tag).isEmpty then
    some
      { tag
        index := repairIndex o expected tag
        observedDigest := (o.tags[tag]?).map (·.digest)
        referencedDigests :=
          (Std.ExtTreeSet.ofList ((plannedEntries o expected tag).map (·.digest))).toList
        reasons := repairReasons report tag }
  else none

def planRepairs (report : CascadeReport) : List PlannedWrite :=
  report.aliases.toList.filterMap fun a => planRepair o expected report a.1 a.2

end Diff

/-! ### Reading the definitions -/

section Facts

variable {o : TagGraphObservation} {expected : ExpectedGraph} {versions : VersionSet}

theorem mem_versions : v ∈ o.versions ↔ .version v ∈ o.tags := by
  rw [TagGraphObservation.versions, Std.ExtTreeSet.mem_ofList, contains_iff_mem,
    mem_filterMap]
  constructor
  · rintro ⟨a, ha, hv⟩
    rcases a with variant | w
    · simp at hv
    · obtain rfl : w = v := by simpa using hv
      exact Std.ExtTreeMap.mem_keys.1 ha
  · intro h
    exact ⟨.version v, Std.ExtTreeMap.mem_keys.2 h, rfl⟩

theorem mem_aliasUniverse :
    a ∈ aliasUniverse versions ↔ ∃ v ∈ versions, a ∈ aliasChain v := by
  simp [aliasUniverse]

theorem mem_leaves :
    v ∈ leaves versions ↔ v ∈ versions ∧ .version v ∉ aliasUniverse versions := by
  simp [leaves]

theorem leaves_sorted (versions : VersionSet) : (leaves versions).Pairwise (· < ·) :=
  (pairwise_lt_toList versions).filter _

theorem sameDescriptor_iff {l r : ImageIndexEntry} : sameDescriptor l r = true ↔ l = r := by
  simp only [sameDescriptor, Bool.and_eq_true, beq_iff_eq, ImageIndexEntry.ext_iff]
  tauto

theorem getElem?_wantedSlots_foldExpected :
    (wantedSlots (foldExpected o) a)[p]? = lastValue (contributions o) (a, p) := by
  have h := lookup2_foldl_write2 (contributions o) ∅ (a, p)
  rwa [lookup2_empty, Option.or_none] at h

theorem mem_leafEntries {e : ImageIndexEntry} :
    (v, p, e) ∈ leafEntries o ↔ v ∈ leaves o.versions ∧
      ∃ index, o.index (.version v) = some index ∧ e ∈ index.manifests ∧
        platformSlot e = some p := by
  simp only [leafEntries, mem_flatMap]
  constructor
  · rintro ⟨w, hw, h⟩
    split at h
    · simp at h
    · next index hindex =>
      obtain ⟨e', he', h⟩ := mem_filterMap.1 h
      obtain ⟨p', hp', h⟩ := Option.map_eq_some_iff.1 h
      obtain ⟨rfl, rfl, rfl⟩ : w = v ∧ p' = p ∧ e' = e := by simpa using h
      exact ⟨hw, index, hindex, he', hp'⟩
  · rintro ⟨hv, index, hindex, he, hp⟩
    refine ⟨v, hv, ?_⟩
    rw [hindex]
    exact mem_filterMap.2 ⟨e, he, by rw [hp]; rfl⟩

theorem mem_contributions {slot : ExpectedSlot} :
    ((a, p), slot) ∈ contributions o ↔
      (slot.source, p, slot.entry) ∈ leafEntries o ∧ a ∈ aliasChain slot.source := by
  simp only [contributions, mem_flatMap, mem_map, Prod.exists, Prod.mk.injEq]
  constructor
  · rintro ⟨v, p', e, hmem, b, hb, ⟨rfl, rfl⟩, rfl⟩
    exact ⟨hmem, hb⟩
  · rintro ⟨hmem, ha⟩
    exact ⟨slot.source, p, slot.entry, hmem, a, ha, ⟨rfl, rfl⟩, rfl⟩

theorem platformSlot_of_wanted {slot : ExpectedSlot}
    (h : (wantedSlots (foldExpected o) a)[p]? = some slot) : platformSlot slot.entry = some p := by
  rw [getElem?_wantedSlots_foldExpected] at h
  obtain ⟨-, index, -, -, hp⟩ := mem_leafEntries.1
    (mem_contributions.1 (mem_of_lastValue_eq_some h)).1
  exact hp

theorem mem_aliasRows {row : SlotRow} :
    row ∈ aliasRows o expected a ↔ (∃ p, slotRow o expected a p = some row) ∨
      ∃ s ∈ (observedSlots o a).2, shadowedRow o expected a s = row := by
  rw [aliasRows, mem_insertionSort, mem_append, mem_filterMap, mem_map]
  refine or_congr_left ⟨fun ⟨p, _, h⟩ => ⟨p, h⟩, fun ⟨p, h⟩ => ⟨p, ?_, h⟩⟩
  rw [Std.ExtTreeSet.mem_toList, slotPlatforms, Std.ExtTreeSet.mem_ofList, contains_iff_mem,
    mem_append, Std.ExtTreeMap.mem_keys, Std.ExtTreeMap.mem_keys]
  by_contra hnot
  rw [not_or] at hnot
  have hw : (wantedSlots expected a)[p]? = none := Std.ExtTreeMap.getElem?_eq_none hnot.1
  have hh : (observedSlots o a).1[p]? = none := Std.ExtTreeMap.getElem?_eq_none hnot.2
  simp [slotRow, hw, hh, slotStatus] at h

theorem tag_of_mem_aliasRows {row : SlotRow} (h : row ∈ aliasRows o expected a) :
    row.tag = a := by
  rcases mem_aliasRows.1 h with ⟨p, h⟩ | ⟨s, -, rfl⟩
  · obtain ⟨status, -, rfl⟩ := Option.map_eq_some_iff.1 h
    rfl
  · rfl

theorem contributions_sorted (o : TagGraphObservation) :
    (contributions o).Pairwise fun l r => l.2.source ≤ r.2.source := by
  have hentries : (leafEntries o).Pairwise fun l r => l.1 ≤ r.1 := by
    refine pairwise_flatMap_of_key (k := id) ((leaves_sorted o.versions).imp le_of_lt) ?_
    intro v _ x hx
    split at hx
    · simp at hx
    · obtain ⟨e, -, he⟩ := mem_filterMap.1 hx
      obtain ⟨p, -, rfl⟩ := Option.map_eq_some_iff.1 he
      rfl
  refine pairwise_flatMap_of_key (k := Prod.fst) hentries fun e _ c hc => ?_
  obtain ⟨a, -, rfl⟩ := mem_map.1 hc
  rfl

end Facts

end Ocx
