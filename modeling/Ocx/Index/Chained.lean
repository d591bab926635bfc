import Ocx.Index.Local

/-!
# The chained index

A local index with an ordered list of sources behind it.  Reads try the local index first, except
for the mutable lookups of the remote mode; a resolve that misses walks the sources, and writes
what it finds into the local index and the blob store.

A source is given by its answers: each answer is what was asked for, nothing, or a failure.
-/

namespace Ocx

structure IndexSource where
  /-- Whether it answers for a name. -/
  jurisdiction : PackageRef → Jurisdiction
  /-- It is the configured owner of the registry. -/
  servesRegistry : String → Bool
  sourceKind : SourceKind
  indexBaseUrl : Option String
  listTags : PackageRef → Except IndexError (Option (List String))
  fetchManifest : PackageRef → Except IndexError (Option (Digest × Manifest))
  fetchManifestDigest : PackageRef → Except IndexError (Option Digest)
  fetchManifestRawBytes : PackageRef → Except IndexError (Option (Bytes × Digest × Manifest))
  fetchBlob : PinnedPackageRef → Except IndexError (Option Bytes)
  fetchRootDocument : PackageRef → Except IndexError (Option Bytes)
  /-- The root document, past every cache. -/
  revalidateRootDocument : PackageRef → Except IndexError (Option (Bytes × IndexRoot))
  /-- The physical location of a package; nothing when it is the location its name spells. -/
  physicalReference : PackageRef → Except IndexError (Option PackageRef) := fun _ => .ok none

/-- A local index with its sources. -/
structure ChainedIndex where
  sources : List IndexSource
  mode : ChainMode
  /-- What a resolve may write. -/
  writePolicy : LocalWritePolicy
  /-- A blob store is attached. -/
  contentStore : Bool
  allowYanked : Bool

/-- Operations of a chained index: the requests made to the sources are recorded. -/
abbrev ChainM := Fallible (Traced IndexState) IndexError

namespace ChainedIndex

variable (env : IndexEnv) (chain : ChainedIndex)

/-- The provenance of the source that owns the identifier's registry. -/
def kindFor (identifier : PackageRef) : SourceKind :=
  match chain.sources.find? (·.servesRegistry identifier.registry) with
  | some source => source.sourceKind
  | none => .derived

/-- The sources that answer for the identifier, each with whether it is authoritative. -/
def candidateSources (identifier : PackageRef) : List (IndexSource × Bool) :=
  chain.sources.filterMap fun source =>
    match source.jurisdiction identifier with
    | .authoritative => some (source, true)
    | .fallThrough => some (source, false)
    | .outside => none

/-! ### Recovering a manifest -/

def blobFile (registry : String) (digest : Digest) : IndexFile :=
  .blob (slugify registry) (casShardPath digest)

/-- Write a blob, unless a non-empty one is there. -/
def writeBlob (registry : String) (digest : Digest) (bytes : Bytes) : LocalM Unit := do
  match (← get).files (blobFile registry digest) with
  | .absent | .content [] => writeFile env (blobFile registry digest) bytes
  | _ => pure ()

/-- Write a recovered image index back into the local index, unless that is read-only. A failure is
ignored. -/
def healDispatch (identifier : PackageRef) (content : Digest) (bytes : Bytes) :
    Manifest → LocalM Unit
  | .imageIndex _ =>
    if chain.writePolicy = .readOnly then pure ()
    else do
      let _ ← attempt (stageDispatchBytes env identifier content bytes)
  | .image => pure ()

/-- Recover the content of an absent dispatch object from the blob store. -/
def recoverAbsentDispatch (identifier : PackageRef) (content : Digest) :
    LocalM (Option (Digest × Manifest)) := do
  if chain.contentStore then
    match ← readFile (blobFile identifier.registry content) with
    | none => pure none
    | some bytes =>
      if digestMatches env bytes content then
        match env.parseManifest bytes with
        | none => pure none
        | some manifest => do
          chain.healDispatch env identifier content bytes manifest
          pure (some (content, manifest))
      else do
        -- a corrupt blob is removed, so that it is fetched again
        let _ ← attempt (removeFile env (blobFile identifier.registry content))
        pure none
  else pure none

/-! ### The walk over the sources -/

/-- A walk for a digest must come back with that digest. -/
def verifyWalkedDigest (identifier : PackageRef) (head : Option (Digest × Manifest)) :
    Except IndexError (Option (Digest × Manifest)) :=
  match identifier.digest, head with
  | some requested, some (answered, manifest) =>
    if answered = requested then .ok (some (answered, manifest))
    else .error (.walkedDigestMismatch requested answered)
  | _, _ => .ok head

/-- Fail unless the local index knows the identifier. -/
def ensureLocallyResolvable (identifier : PackageRef) : LocalM Unit := do
  match ← resolveDispatch env identifier (chain.kindFor identifier) chain.allowYanked with
  | some _ => pure ()
  | none => throw (.policyResolutionBlocked identifier chain.mode.policyLabel)

/-- Store a manifest in the local index when it is an image index. -/
def stageImageIndex (identifier : PackageRef) (digest : Digest) (bytes : Bytes) :
    Manifest → LocalM Unit
  | .imageIndex _ => stageDispatchBytes env identifier digest bytes
  | .image => pure ()

/-- Fetch a manifest from a source, and store it when it is an image index. -/
def persistDispatch (source : IndexSource) (identifier : PackageRef) :
    LocalM (Option (Bytes × Digest × Manifest)) := do
  match ← ofExcept (source.fetchManifestRawBytes identifier) with
  | none => pure none
  | some (bytes, digest, manifest) => do
    stageImageIndex env identifier digest bytes manifest
    pure (some (bytes, digest, manifest))

/-- What a walk asks of a source: a manifest, which is stored unless the local index is read-only.
-/
def askDispatch (identifier : PackageRef) (source : IndexSource) :
    LocalM (Option (Bytes × Digest × Manifest)) :=
  if chain.writePolicy = .readOnly then ofExcept (source.fetchManifestRawBytes identifier)
  else persistDispatch env source identifier

/-- Drop the local row of a tag that the authoritative root no longer lists. Failures are ignored.
-/
def dropEphemeralRowTheRootLacks (source : IndexSource) (identifier : PackageRef) (tag : String) :
    LocalM Unit := do
  match source.revalidateRootDocument identifier with
  | .ok (some (bytes, root)) =>
    match root.tags[tag]? with
    | some _ => pure ()
    | none => do
      let _ ← attempt (commitAndSweepPublishedRoot env identifier bytes (.tags [tag]))
  | _ => pure ()

/-- The tag a walk records in the local root, if it records one. -/
def grownTag (identifier : PackageRef) (growRoot : Bool) : Option String :=
  if growRoot && chain.writePolicy = .full && identifier.digest.isNone then identifier.tag else none

/-- Cache an image manifest in the blob store. A failure is ignored. -/
def cacheLeaf (identifier : PackageRef) (digest : Digest) (bytes : Bytes) : Manifest → LocalM Unit
  | .image =>
    if chain.contentStore then do
      let _ ← attempt (writeBlob env identifier.registry digest bytes)
    else pure ()
  | .imageIndex _ => pure ()

/-- Record a tag in the local root: from the root of a published source, and as the tag itself for
a derived one. -/
def growRootTag (source : IndexSource) (identifier : PackageRef) (digest : Digest)
    (manifest : Manifest) (tag : String) : LocalM Unit :=
  match source.sourceKind with
  | .published => do
    match ← ofExcept (source.fetchRootDocument identifier) with
    | none => pure ()
    | some rootBytes => do
      let _ ← commitPublishedRoot env identifier rootBytes (.tags [tag])
  | .derived =>
    if recordsRootTag tag manifest then commitRootTag env identifier tag digest else pure ()

def persistHit (identifier : PackageRef) (growRoot : Bool) (source : IndexSource)
    (answer : Bytes × Digest × Manifest) : LocalM (Digest × Manifest) := do
  let (bytes, digest, manifest) := answer
  chain.cacheLeaf env identifier digest bytes manifest
  (chain.grownTag identifier growRoot).forM (growRootTag env source identifier digest manifest)
  pure (digest, manifest)

/-- What a walk does when an authoritative source has no such manifest. A configured index is
named in the failure. -/
def persistMiss (identifier : PackageRef) (growRoot : Bool) (source : IndexSource) :
    LocalM Unit :=
  match source.indexBaseUrl with
  | none => pure ()
  | some baseUrl => do
    let dropped :=
      if source.sourceKind = .published then chain.grownTag identifier growRoot else none
    dropped.forM (dropEphemeralRowTheRootLacks env source identifier)
    throw (.notInIndex identifier identifier.registry baseUrl)

/-- Ask the sources for a manifest, and persist what the first of them answers. -/
def fetchAndPersistChain (identifier : PackageRef) (growRoot : Bool) :
    ChainM (Option (Digest × Manifest)) :=
  consult true (chain.askDispatch env identifier) (chain.persistHit env identifier growRoot)
    (chain.persistMiss env identifier growRoot) (chain.candidateSources identifier) none

/-- Offline and when frozen, refuse a tag that the local index does not know. -/
def gateWalk (identifier : PackageRef) : LocalM Unit :=
  if (chain.mode = .offline ∨ chain.mode = .frozen) ∧ identifier.digest = none then
    chain.ensureLocallyResolvable env identifier
  else pure ()

/-- Walk the sources. Offline there is no walk. -/
def walkChain (identifier : PackageRef) (growRoot : Bool) :
    ChainM (Option (Digest × Manifest)) := do
  untraced (chain.gateWalk env identifier)
  if chain.mode = .offline then pure none
  else
    let walked := if identifier.digest.isSome then identifier
      else identifier.cloneWithTag identifier.tagOrLatest
    match ← attempt (chain.fetchAndPersistChain env walked growRoot) with
    | .ok head => ofExcept (verifyWalkedDigest walked head)
    | .error e => throw (.sourceWalkFailed e)

end ChainedIndex

namespace ChainedIndex

variable (env : IndexEnv) (chain : ChainedIndex)

/-! ### Reads that go to the sources -/

/-- Ask the sources for something that is handed on as it is. An authoritative source without an
answer ends the read; a failure does not. -/
def querySources {α : Type} (identifier : PackageRef)
    (ask : IndexSource → Except IndexError (Option α)) : ChainM (Option α) :=
  consult false (fun source => ofExcept (ask source)) (fun _ a => pure a) (fun _ => pure ())
    (chain.candidateSources identifier) none

def querySourcesManifest (identifier : PackageRef) : ChainM (Option (Digest × Manifest)) :=
  chain.querySources identifier fun source => source.fetchManifest identifier

def querySourcesManifestDigest (identifier : PackageRef) : ChainM (Option Digest) :=
  chain.querySources identifier fun source => source.fetchManifestDigest identifier

/-- The tags of a repository. The remote mode lists those of the sources; there a failure of an
authoritative source ends the read too. -/
def listTags (identifier : PackageRef) : ChainM (Option (List String)) :=
  if chain.mode = .remote then
    consult true (fun source => ofExcept (source.listTags identifier)) (fun _ tags => pure tags)
      (fun _ => pure ()) (chain.candidateSources identifier) none
  else untraced (listLocalTags env identifier (chain.kindFor identifier))

/-- A manifest with its bytes, straight from the sources. -/
def fetchManifestRawBytes (identifier : PackageRef) : ChainM (Option (Bytes × Digest × Manifest)) :=
  if chain.mode = .offline then pure none
  else chain.querySources identifier fun source => source.fetchManifestRawBytes identifier

/-- What the blob store has of a blob: the blob, a corrupt copy of it, or nothing. -/
inductive BlobCopy
  | intact (bytes : Bytes)
  /-- A copy that does not hash to the digest. -/
  | corrupt (bytes : Bytes)
  | missing

def readBlobCopy (registry : String) (digest : Digest) : LocalM BlobCopy := do
  if chain.contentStore then
    match ← readFile (blobFile registry digest) with
    | none => pure .missing
    | some bytes => pure (if digestMatches env bytes digest then .intact bytes else .corrupt bytes)
  else pure .missing

/-- Write a blob into the blob store; a corrupt copy is replaced. -/
def writeThrough (registry : String) (digest : Digest) (healCorrupt : Bool) (bytes : Bytes) :
    LocalM Unit :=
  if chain.contentStore then
    if healCorrupt then writeFile env (blobFile registry digest) bytes
    else writeBlob env registry digest bytes
  else pure ()

/-- What a read does with the blob a source answered: verify it, and write it through. -/
def persistBlob (registry : String) (digest : Digest) (healCorrupt : Bool) (bytes : Bytes) :
    LocalM Bytes := do
  if digestMatches env bytes digest then do
    let _ ← attempt (chain.writeThrough env registry digest healCorrupt bytes)
    pure bytes
  else throw (.digestMismatch digest (env.hash digest.algorithm bytes))

def querySourcesBlob (blobRef : PinnedPackageRef) (healCorrupt : Bool) : ChainM (Option Bytes) :=
  consult false (fun source => ofExcept (source.fetchBlob blobRef))
    (fun _ => chain.persistBlob env blobRef.ref.registry blobRef.digest healCorrupt)
    (fun _ => pure ()) (chain.candidateSources blobRef.ref) none

/-- A blob, from the blob store or the sources. A corrupt copy is fetched again, and is a failure
when offline. -/
def fetchBlob (blobRef : PinnedPackageRef) : ChainM (Option Bytes) := do
  let digest := blobRef.digest
  match ← untraced (chain.readBlobCopy env blobRef.ref.registry digest) with
  | .intact bytes => pure (some bytes)
  | .corrupt bytes =>
    if chain.mode = .offline then
      throw (.digestMismatch digest (env.hash digest.algorithm bytes))
    else chain.querySourcesBlob env blobRef true
  | .missing =>
    if chain.mode = .offline then pure none else chain.querySourcesBlob env blobRef false

/-! ### Manifests -/

/-- What the local index knows of an identifier, and whether its dispatch object is corrupt. The
remote mode does not ask the local index for a tag. Refusals fail, and so does a corrupt object
that cannot be fetched again; other failures count as a miss. -/
def readLocal (identifier : PackageRef) (op : IndexOperation) :
    LocalM (Option DispatchResolution × Bool) := do
  if identifier.digest.isSome || chain.mode ≠ .remote then
    match ← attempt
        (resolveDispatch env identifier (chain.kindFor identifier) chain.allowYanked) with
    | .ok resolution => pure (resolution, false)
    | .error e =>
      if isLocalReadRefusal e then throw e
      else if isCorruptIndexObject e && !(op = .resolve && chain.mode ≠ .offline) then throw e
      else pure (none, isCorruptIndexObject e)
  else pure (none, false)

/-- A manifest and its digest, from what the local index knows. A tag whose dispatch object is
absent is walked by the digest its root pins, and any other tag by its name. -/
def manifestFromLocal (identifier : PackageRef) (op : IndexOperation) :
    Option DispatchResolution × Bool → ChainM (Option (Digest × Manifest))
  | (some (.dispatch content index), _) => pure (some (content, .imageIndex index))
  | (some (.absentDispatch content), _) => do
    match ← untraced (chain.recoverAbsentDispatch env identifier content) with
    | some recovered => pure (some recovered)
    | none =>
      match op with
      | .query => pure none
      | .resolve =>
        let pinned :=
          if identifier.digest.isSome then identifier else identifier.cloneWithDigest content
        chain.walkChain env pinned false
  | (none, corruptKnown) =>
    if chain.mode = .remote ∧ op = .query ∧ identifier.digest = none then
      chain.querySourcesManifest identifier
    else
      match op with
      | .query => pure none
      | .resolve => chain.walkChain env identifier !corruptKnown

theorem manifestFromLocal_none (identifier : PackageRef) (op : IndexOperation)
    (corruptKnown : Bool) :
    chain.manifestFromLocal env identifier op (none, corruptKnown) =
      if chain.mode = .remote ∧ op = .query ∧ identifier.digest = none then
        chain.querySourcesManifest identifier
      else
        match op with
        | .query => pure none
        | .resolve => chain.walkChain env identifier !corruptKnown := rfl

def fetchManifest (identifier : PackageRef) (op : IndexOperation) :
    ChainM (Option (Digest × Manifest)) := do
  let found ← untraced (chain.readLocal env identifier op)
  chain.manifestFromLocal env identifier op found

/-- The digest that the local index and the blob store know. A tag resolves to the digest its root
pins, with or without the dispatch object; a digest is confirmed. -/
def localDigest (identifier : PackageRef) : Option DispatchResolution → LocalM (Option Digest)
  | some (.dispatch content _) => pure (some content)
  | some (.absentDispatch content) =>
    if identifier.digest = none then pure (some content)
    else (Option.map Prod.fst) <$> chain.recoverAbsentDispatch env identifier content
  | none => pure none

def fetchManifestDigest (identifier : PackageRef) (op : IndexOperation) :
    ChainM (Option Digest) := do
  let found ← untraced (chain.readLocal env identifier op)
  match ← untraced (chain.localDigest env identifier found.1) with
  | some digest => pure (some digest)
  | none =>
    if chain.mode = .remote ∧ op = .query ∧ identifier.digest = none then
      chain.querySourcesManifestDigest identifier
    else
      match op with
      | .query => pure none
      | .resolve => (Option.map Prod.fst) <$> chain.walkChain env identifier !found.2

/-! ### Physical locations -/

/-- Where the content of packages is, and which of these locations may be dialled. -/
structure Routing where
  /-- Parse the pointer of a root to the location of its content. -/
  parseRepositoryPointer : String → Option PackageRef
  /-- The verdict on the location that a logical reference is rewritten to. -/
  guardDestination : PackageRef → PackageRef → Except IndexError Unit

variable (routing : Routing)

/-- The location that the local root names. -/
def localPhysicalReference (identifier : PackageRef) : LocalM (Option PackageRef) := do
  match ← readRootByKind env identifier.registry identifier.repository
      (chain.kindFor identifier) with
  | none => pure none
  | some root =>
    match routing.parseRepositoryPointer root.repository with
    | none => throw (.malformedPhysicalRef root.repository)
    | some location => pure (some (location.atVersionOf identifier))

/-- A location on the registry that the name spells is not judged. -/
def guardLocalPhysical (logical physical : PackageRef) : Except IndexError Unit :=
  if physical.registry = logical.registry then .ok ()
  else routing.guardDestination logical physical

/-- The location that the local root names, when it may be dialled. A failed read counts as a
miss. -/
def localPhysicalAnswer (identifier : PackageRef) : LocalM (Option PackageRef) := do
  match ← attempt (chain.localPhysicalReference env routing identifier) with
  | .ok (some physical) => do
    ofExcept (guardLocalPhysical routing identifier physical)
    pure (some physical)
  | .ok none => pure none
  | .error _ => pure none

/-- Ask the sources for a location. An outage is remembered, and any other failure ends the read. -/
def askPhysical (identifier : PackageRef) :
    List (IndexSource × Bool) → Option IndexError →
      Except IndexError (Option PackageRef × Option IndexError)
  | [], lastError => .ok (none, lastError)
  | (source, _) :: rest, lastError =>
    match source.physicalReference identifier with
    | .ok (some physical) => .ok (some physical, lastError)
    | .ok none => askPhysical identifier rest lastError
    | .error e =>
      if isSourceOutage e then askPhysical identifier rest (some e) else .error e

/-- The local location, in one of the two places where it is asked for. -/
def localPhysicalAnswerWhen (asked : Bool) (identifier : PackageRef) :
    LocalM (Option PackageRef) :=
  if asked then chain.localPhysicalAnswer env routing identifier else pure none

/-- The physical location of a package. The remote mode asks the sources first, and the other modes
the local root. -/
def physicalReference (identifier : PackageRef) : LocalM (Option PackageRef) := do
  match ← chain.localPhysicalAnswerWhen env routing (chain.mode ≠ .remote) identifier with
  | some physical => pure (some physical)
  | none => do
    match ← ofExcept (askPhysical identifier (chain.candidateSources identifier) none) with
    | (some physical, _) => pure (some physical)
    | (none, lastError) => do
      match ← chain.localPhysicalAnswerWhen env routing (chain.mode = .remote) identifier with
      | some physical => pure (some physical)
      | none =>
        match lastError with
        | none => pure none
        | some e => throw e

/-! ### Read-only views -/

/-- A view of the index whose resolves may not write into the local index. -/
def readOnly : ChainedIndex := { chain with writePolicy := .readOnly }

end ChainedIndex

end Ocx
