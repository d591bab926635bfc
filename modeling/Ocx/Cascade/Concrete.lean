import Ocx.Cascade.Rolling
import Ocx.Oci.PackageRef
import Ocx.Oci.PlatformText
import Ocx.Version.Reserved

/-!
# The version behind a rolling tag

Given the leaf digests a rolling tag carries, the lookup goes through the releases that could have
moved the tag, newest first, and returns the first one that carries the same leaves. It never
replays the pushes.
-/

namespace Ocx

open List Option

open Version

/-! ### Candidates -/

/-- Whether a release could be what the advisory tag names. A tag that is not a version names the
track root of a variant, `latest` that of the default one. -/
def isNamedBy (advisory : String) (v : Version) : Bool :=
  let named := Version.parse advisory
  let latestVariant : Option (Option String) :=
    if advisory = "latest" then some none
    else if named.isNone then some (some advisory)
    else none
  match named, latestVariant with
  | some named, _ => v == named || (decomposeTargets v).targets.contains named
  | none, some variant => v.variant == variant && (decomposeTargets v).latestEligible
  | none, none => false

/-- The releases among the tags that the advisory tag could name, newest first. -/
def candidateVersions (advisory : String) (tags : List String) : List Version :=
  ((((tags.filterMap Version.parse).filter Version.isRelease).filter
    (isNamedBy advisory)).insertionSort (· ≥ ·)).dedup

def Platform.candidateFromDescriptor (entry : ImageIndexEntry) : Option Platform :=
  entry.platform.bind fun declared => (Platform.ofNative declared).toOption

structure IndexView (ε : Type*) where
  /-- The tags of a package, without the reserved ones. -/
  listTags : PackageRef → Except ε (Option (List String))
  /-- The manifest a reference names. -/
  fetchManifest : PackageRef → Except ε (Option (Digest × Manifest))
  /-- The error for a digest that cannot be read. -/
  invalidDigest : String → ε

section Lookup

variable {ε : Type*} (index : IndexView ε)

/-- Pin a selectable entry of an image index. -/
def pinEntry (identifier : PackageRef) (candidate : ImageIndexEntry × Platform) :
    Except ε (PackageRef × Platform) :=
  match Digest.tryFrom candidate.1.digest with
  | some digest => .ok (identifier.cloneWithDigest digest, candidate.2)
  | none => .error (index.invalidDigest candidate.1.digest)

/-- The platform manifests behind a reference. An entry without a known platform is skipped. -/
def fetchCandidates (identifier : PackageRef) :
    Except ε (Option (List (PackageRef × Platform))) := do
  match ← index.fetchManifest identifier with
  | none => return none
  | some (digest, .image) => return some [(identifier.cloneWithDigest digest, .any)]
  | some (_, .imageIndex image) =>
    let candidates ← (image.manifests.filterMap fun entry =>
      (Platform.candidateFromDescriptor entry).map (entry, ·)).mapM (pinEntry index identifier)
    return some candidates

/-- Whether every leaf is among the platform manifests. -/
def matchesEveryLeaf (leaves : Std.ExtTreeMap String Digest)
    (manifests : List (PackageRef × Platform)) : Bool :=
  leaves.toList.all fun leaf =>
    manifests.any fun m => m.2.toString == leaf.1 && m.1.digest == some leaf.2

/-- The first candidate that carries every leaf. -/
def probeCandidates (advisory : PackageRef) (leaves : Std.ExtTreeMap String Digest) :
    List Version → Except ε (Option Version)
  | [] => return none
  | candidate :: rest => do
    match ← fetchCandidates index (advisory.cloneWithTag candidate.toTag) with
    | none => probeCandidates advisory leaves rest
    | some manifests =>
      if matchesEveryLeaf leaves manifests then return some candidate
      else probeCandidates advisory leaves rest

/-- The newest candidate that carries every leaf, among the first `maxProbes`. -/
def resolveConcreteVersion (advisory : PackageRef) (leaves : Std.ExtTreeMap String Digest)
    (maxProbes : ℕ) : Except ε (Option Version) :=
  -- no leaf is no evidence
  if leaves.isEmpty then return none
  else do
    match ← index.listTags advisory with
    | none => return none
    | some tags =>
      probeCandidates index advisory leaves
        ((candidateVersions advisory.tagOrLatest tags).take maxProbes)

end Lookup

/-! ### The candidates of a rolling tag -/

section Candidates

variable {a : AliasTag} {v : Version}

theorem isNamedBy_toTag_iff (ha : a.WellFormed) (hrolling : a.isRolling = true)
    (hv : v.isRelease = true) : isNamedBy a.toTag v = true ↔ a ∈ aliasChain v := by
  obtain ⟨hpatch, hpre, -⟩ := isRelease_iff.1 hv
  have hparse := AliasTag.parse_toTag ha
  rcases a with (_ | name) | t
  · simp only [AliasTag.toTag] at hparse
    simp [isNamedBy, hparse, AliasTag.toTag, decomposeTargets_stable hpre, hpre]
  · have hname : name ≠ "latest" := (isVariantName_iff.1 ha).1
    simp only [AliasTag.toTag] at hparse
    simp [isNamedBy, hparse, AliasTag.toTag, hname, decomposeTargets_stable hpre, hpre]
  · have hne : v ≠ t := by
      rintro rfl
      simp [AliasTag.isRolling, hpatch] at hrolling
    simp [isNamedBy, hparse, hne]

theorem mem_candidateVersions {advisory : String} {tags : List String} :
    v ∈ candidateVersions advisory tags ↔
      (∃ tag ∈ tags, Version.parse tag = some v) ∧ v.isRelease = true ∧
        isNamedBy advisory v = true := by
  rw [candidateVersions, mem_dedup, mem_insertionSort, mem_filter, mem_filter,
    mem_filterMap, and_assoc]

theorem pairwise_candidateVersions (advisory : String) (tags : List String) :
    (candidateVersions advisory tags).Pairwise (· ≥ ·) :=
  (pairwise_insertionSort (· ≥ ·) _).sublist (dedup_sublist _)

/-- **The candidates of a rolling tag** are the listed releases below it. -/
theorem mem_candidateVersions_iff {reg : Registry} {tags : List String}
    (htags : ∀ tag, tag ∈ tags ↔ tag ∈ reg ∧ isReservedTag tag = false) (ha : a.WellFormed)
    (hrolling : a.isRolling = true) :
    v ∈ candidateVersions a.toTag tags ↔ v ∈ releasesBelow reg a := by
  have hlisted : (∃ tag ∈ tags, Version.parse tag = some v) ↔ v ∈ listedVersions reg := by
    rw [listedVersions, Std.ExtTreeSet.mem_ofList, contains_iff_mem, mem_filterMap]
    constructor
    · rintro ⟨tag, htag, hparse⟩
      exact ⟨tag, Std.ExtTreeMap.mem_keys.2 ((htags tag).1 htag).1, hparse⟩
    · rintro ⟨tag, htag, hparse⟩
      exact ⟨tag, (htags tag).2 ⟨Std.ExtTreeMap.mem_keys.1 htag, isReservedTag_of_parse hparse⟩,
        hparse⟩
  rw [mem_candidateVersions, hlisted]
  refine and_congr_right fun _ => and_congr_right fun hv => ?_
  exact isNamedBy_toTag_iff ha hrolling hv

theorem candidateVersions_eq_cons {reg : Registry} {tags : List String}
    (htags : ∀ tag, tag ∈ tags ↔ tag ∈ reg ∧ isReservedTag tag = false) (ha : a.WellFormed)
    (hrolling : a.isRolling = true) (hv : IsGreatest (releasesBelow reg a) v) :
    ∃ rest, candidateVersions a.toTag tags = v :: rest := by
  have hmem := (mem_candidateVersions_iff htags ha hrolling).2 hv.1
  have hsorted := pairwise_candidateVersions a.toTag tags
  cases hlist : candidateVersions a.toTag tags with
  | nil => simp [hlist] at hmem
  | cons w rest =>
    rw [hlist] at hmem hsorted
    have hle : v ≤ w := by
      rcases mem_cons.1 hmem with rfl | hmem
      · exact le_rfl
      · exact (pairwise_cons.1 hsorted).1 v hmem
    have hw := (mem_candidateVersions_iff htags ha hrolling).1 (hlist ▸ mem_cons_self)
    exact ⟨rest, by rw [le_antisymm hle (hv.2 hw)]⟩

end Candidates

/-! ### The lookup over a registry -/

/-- The index answers for the package as the registry stands. -/
structure Serves {ε : Type*} (index : IndexView ε) (package : PackageRef) (reg : Registry) :
    Prop where
  listed : ∃ tags, index.listTags package = .ok (some tags) ∧
    ∀ tag, tag ∈ tags ↔ tag ∈ reg ∧ isReservedTag tag = false
  /-- A tag is read as the registry serves it. -/
  manifest : ∀ (tag : String) (t : ObservedTag), reg[tag]? = some t →
    index.fetchManifest (package.cloneWithTag tag) = .ok (some (t.digest, t.manifest))

/-- The leaf digest a tag carries for a platform. -/
def leafAt (reg : Registry) (tag : String) (platform : Platform) : Option Digest :=
  (entryAt reg tag platform.toNative).bind fun entry => Digest.tryFrom entry.digest

section Publish

variable {ε : Type*} {index : IndexView ε} {package : PackageRef} {reg : Registry}
  {platform : Platform}

theorem SinglePlatform.exists_leafAt (h : SinglePlatform platform reg) {tag : String}
    (htag : tag ∈ reg) : ∃ leaf, leafAt reg tag platform = some leaf := by
  rw [Std.ExtTreeMap.mem_iff_isSome_getElem?, isSome_iff_exists] at htag
  obtain ⟨t, ht⟩ := htag
  obtain ⟨image, digest, size, himage, hmanifests, hdigest⟩ := h tag t ht
  obtain ⟨d, n, manifest⟩ := t
  obtain rfl : manifest = .imageIndex image := himage
  obtain ⟨leaf, hleaf⟩ := isSome_iff_exists.1 hdigest
  exact ⟨leaf, by simpa [leafAt, entryAt, ht, ImageIndex.entryFor, hmanifests, platformEntry]⟩

theorem fetchCandidates_eq (hserves : Serves index package reg) (hnormal : platform.Normal)
    (h : SinglePlatform platform reg) {tag : String} {leaf : Digest}
    (hleaf : leafAt reg tag platform = some leaf) :
    fetchCandidates index (package.cloneWithTag tag) =
      .ok (some [((package.cloneWithTag tag).cloneWithDigest leaf, platform)]) := by
  cases ht : reg[tag]? with
  | none => simp [leafAt, entryAt, ht] at hleaf
  | some t =>
    obtain ⟨image, digest, size, himage, hmanifests, -⟩ := h tag t ht
    have hread := hserves.manifest tag t ht
    obtain ⟨d, n, manifest⟩ := t
    obtain rfl : manifest = .imageIndex image := himage
    have hdigest : Digest.tryFrom digest = some leaf := by
      simpa [leafAt, entryAt, ht, ImageIndex.entryFor, hmanifests, platformEntry] using hleaf
    have hcandidate : Platform.candidateFromDescriptor
        (platformEntry platform.toNative digest size) = some platform := by
      simp [Platform.candidateFromDescriptor, platformEntry, Platform.ofNative_toNative hnormal,
        Except.toOption]
    have hpin : pinEntry index (package.cloneWithTag tag)
        (platformEntry platform.toNative digest size, platform) =
          .ok ((package.cloneWithTag tag).cloneWithDigest leaf, platform) := by
      simp [pinEntry, platformEntry, hdigest]
    simp [fetchCandidates, hread, hmanifests, hcandidate, hpin, bind, Except.bind, pure,
      Except.pure]

theorem matchesEveryLeaf_iff {leaves : Std.ExtTreeMap String Digest}
    {manifests : List (PackageRef × Platform)} :
    matchesEveryLeaf leaves manifests = true ↔ ∀ name leaf, leaves[name]? = some leaf →
      ∃ m ∈ manifests, m.2.toString = name ∧ m.1.digest = some leaf := by
  simp [matchesEveryLeaf, Std.ExtTreeMap.mem_toList_iff_getElem?_eq_some]

/-- **The lookup inverts the cascade.** After any sequence of pushes of full versions for one
platform, the leaf a rolling tag carries leads back to the greatest listed release below the tag,
and that release carries the same leaf. -/
theorem resolveConcreteVersion_publish (body : ImageIndex → Digest × ℤ) (hnormal : platform.Normal)
    {pubs : List Publication} (hpubs : ∀ pub ∈ pubs, pub.FullFor platform)
    (hserves : Serves index package (publish body pubs)) {a : AliasTag} (ha : a.WellFormed)
    (hrolling : a.isRolling = true) (hmem : a.toTag ∈ publish body pubs)
    (hpackage : package.tagOrLatest = a.toTag) {maxProbes : ℕ} (hprobes : 0 < maxProbes) :
    ∃ v leaf, IsGreatest (releasesBelow (publish body pubs) a) v ∧
      leafAt (publish body pubs) a.toTag platform = some leaf ∧
      leafAt (publish body pubs) v.toTag platform = some leaf ∧
      resolveConcreteVersion index package
        ((∅ : Std.ExtTreeMap String Digest).insert platform.toString leaf) maxProbes =
          .ok (some v) := by
  have h := cascaded_publish body hpubs
  obtain ⟨v, hv⟩ := h.exists_isGreatest ha hrolling hmem
  obtain ⟨leaf, hleaf⟩ := h.single.exists_leafAt hmem
  have hsame : leafAt (publish body pubs) v.toTag platform = some leaf := by
    have hslot := h.agree a v ha hrolling hv
    rw [← hleaf]
    exact congrArg (bind · _) hslot.symm
  obtain ⟨tags, hlist, htags⟩ := hserves.listed
  obtain ⟨rest, hcandidates⟩ := candidateVersions_eq_cons htags ha hrolling hv
  refine ⟨v, leaf, hv, hleaf, hsame, ?_⟩
  obtain ⟨n, rfl⟩ := Nat.exists_eq_succ_of_ne_zero hprobes.ne'
  have hmatches : matchesEveryLeaf
      ((∅ : Std.ExtTreeMap String Digest).insert platform.toString leaf)
      [((package.cloneWithTag v.toTag).cloneWithDigest leaf, platform)] = true := by
    rw [matchesEveryLeaf_iff]
    intro name digest hname
    rw [getElem?_insert_eq] at hname
    split_ifs at hname with heq
    · exact ⟨_, mem_singleton_self _, heq, hname⟩
    · simp at hname
  rw [resolveConcreteVersion, if_neg (by simp), hlist, hpackage]
  change probeCandidates index package _ ((candidateVersions a.toTag tags).take (n + 1)) = _
  rw [hcandidates, take_succ_cons, probeCandidates,
    fetchCandidates_eq hserves hnormal h.single hsame]
  exact if_pos hmatches

end Publish

/-- An index that reads a registry directly. -/
def registryView (reg : Registry) : IndexView String where
  listTags _ := .ok (some (reg.keys.filter (!isReservedTag ·)))
  fetchManifest identifier :=
    .ok (reg[identifier.tagOrLatest]?.map fun t => (t.digest, t.manifest))
  invalidDigest := id

theorem serves_registryView {reg : Registry} {package : PackageRef}
    (h : ∀ tag ∈ reg.keys, (package.cloneWithTag tag).tagOrLatest = tag) :
    Serves (registryView reg) package reg := by
  refine ⟨⟨_, rfl, fun tag => by simp⟩, fun tag t ht => ?_⟩
  have hmem : tag ∈ reg := by simp [Std.ExtTreeMap.mem_iff_isSome_getElem?, ht]
  simp [registryView, h tag (Std.ExtTreeMap.mem_keys.2 hmem), ht]

/-- A push of a version whose leaf digest repeats one digit. -/
def leafPublication (version : Version) (h : version.WellFormed) (digit : Char) : Publication where
  version := version
  wellFormed := h
  platform := .specific .linux .amd64 none []
  digest := "sha256:" ++ String.ofList (replicate 64 digit)
  size := 7
  annotations := ∅

/-- A build of an old release pushed after a newer release and a pre-release. -/
def leafPublications : List Publication :=
  [leafPublication (newBuild 1 2 3 "b1") (by decide) '1',
    leafPublication (newPatch 1 2 4) (by decide) '2',
    leafPublication (newPrerelease 1 2 5 "rc1") (by decide) '3',
    leafPublication (newBuild 1 2 3 "b2") (by decide) '4']

theorem resolveConcreteVersion_minor :
    ∃ v leaf, IsGreatest (releasesBelow (publish sampleBody leafPublications)
        (.version (newMinor 1 2))) v ∧
      leafAt (publish sampleBody leafPublications) "1.2" (.specific .linux .amd64 none []) =
        some leaf ∧
      leafAt (publish sampleBody leafPublications) v.toTag (.specific .linux .amd64 none []) =
        some leaf ∧
      resolveConcreteVersion (registryView (publish sampleBody leafPublications))
        ⟨"registry", "tool", some "1.2", none⟩
        ((∅ : Std.ExtTreeMap String Digest).insert "linux/amd64" leaf) 1 = .ok (some v) := by
  have hnormal : (Platform.specific .linux .amd64 none []).Normal := ⟨by decide, rfl⟩
  have hfull : ∀ pub ∈ leafPublications,
      pub.FullFor (.specific .linux .amd64 none []) := by
    intro pub hpub
    simp only [leafPublications, mem_cons, not_mem_nil, or_false] at hpub
    rcases hpub with rfl | rfl | rfl | rfl <;> exact ⟨rfl, rfl, by decide +kernel⟩
  exact resolveConcreteVersion_publish sampleBody hnormal hfull
    (serves_registryView (by decide +kernel)) (a := .version (newMinor 1 2))
    (show (newMinor 1 2).WellFormed by decide) (by decide) (by decide +kernel)
    (by decide +kernel) (by decide)

end Ocx
