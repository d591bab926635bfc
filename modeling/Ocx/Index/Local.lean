import Ocx.Index.Basic
import Ocx.Util.Frame

/-!
# The local index

Reads and writes of the local copy of an index.  A tag is resolved in two steps: the root document
pins it to a content digest, and the dispatch object of that digest, if it is there, is the image
index.  Objects are verified against their digest on every read and write.
-/

namespace Ocx

open Option

variable (env : IndexEnv)

def digestMatches (bytes : Bytes) (digest : Digest) : Bool :=
  env.hash digest.algorithm bytes = digest

/-! ### Files -/

/-- The bytes of a file, or nothing when it is absent. -/
def readFile (f : IndexFile) : LocalM (Option Bytes) := do
  match (← get).files f with
  | .absent => pure none
  | .unreadable => throw (.file f.fileName)
  | .content bytes => pure (some bytes)

def writeFile (f : IndexFile) (bytes : Bytes) : LocalM Unit := do
  match env.fault f with
  | some e => throw e
  | none => modify fun s => { s with files := Function.update s.files f (.content bytes) }

def removeFile (f : IndexFile) : LocalM Unit := do
  match env.fault f with
  | some e => throw e
  | none => modify fun s => { s with files := Function.update s.files f .absent }

/-- Refuse a source whose directory leads out of the index home. -/
def ensureSourceContained (source : String) : LocalM Unit :=
  if env.contained (slugify source) then pure ()
  else throw (.repositoryEscapesIndexHome source)

/-- Refuse a repository whose path leads out of the index home. -/
def ensureRepositoryContained (repository : String) : LocalM Unit :=
  if env.contained repository then pure () else throw (.repositoryEscapesIndexHome repository)

/-! ### Reading documents -/

/-- The format version of a source; nothing when it has no `config.json`. -/
def readSourceConfig (source : String) : LocalM (Option ℕ) := do
  ensureSourceContained env source
  match ← readFile (.config (slugify source)) with
  | none => pure none
  | some bytes =>
    match env.parseConfig bytes with
    | none => throw .malformedIndexDocument
    | some version => pure (some version)

/-- Check the format version of a source, once. An absent file is a supported version. -/
def checkFormatVersion (source : String) : LocalM Unit := do
  if source ∈ (← get).gatedSources then pure ()
  else
    let version ← readSourceConfig env source
    ofExcept (gateFormatVersion (version.getD supportedFormatVersion))
    modify fun s => { s with gatedSources := source :: s.gatedSources }

def readSourceCatalog (source : String) : LocalM (Option CatalogIndex) := do
  ensureSourceContained env source
  match ← readFile (.catalog (slugify source)) with
  | none => pure none
  | some bytes =>
    match env.parseCatalog bytes with
    | none => throw .serializationFailure
    | some document =>
      ofExcept (gateFormatVersion document.formatVersion)
      pure (some document.packages)

def readRootDocumentBytes (source repository : String) : LocalM (Option Bytes) := do
  ensureSourceContained env source
  ensureRepositoryContained env repository
  readFile (.root (slugify source) repository)

/-- Parse a root document and check its pointer. -/
def parseRootDocument (source repository : String) (bytes : Bytes) : Except IndexError IndexRoot :=
  match env.docs.readRoot bytes with
  | none => .error (.malformedRootDocument source repository)
  | some root =>
    if env.wellFormedPointer root.repository then .ok root
    else .error (.malformedPhysicalRef root.repository)

/-- A root document, read, parsed and checked. -/
def readRootInner (source repository : String) : LocalM (Option (Bytes × IndexRoot)) := do
  match ← readRootDocumentBytes env source repository with
  | none => pure none
  | some bytes => do
    let root ← ofExcept (parseRootDocument env source repository bytes)
    pure (some (bytes, root))

def rootCatalogEntry (bytes : Bytes) : String := (env.hash .sha256 bytes).toString

/-- Record the catalog entry of a root, as it is now, in the catalog as it is now. -/
def persistRecoveredCatalogEntry (source repository : String) (prelock : Bytes × IndexRoot) :
    LocalM (Bytes × IndexRoot) := do
  let catalog := (← readSourceCatalog env source).getD ∅
  let fresh := (← readRootInner env source repository).getD prelock
  let entry := rootCatalogEntry env fresh.1
  if catalog[repository]? = some entry then pure fresh
  else do
    writeFile env (.catalog (slugify source))
      (env.serializeCatalog (catalog.insert repository entry))
    pure fresh

/-- The root of a published source. A catalog entry that disagrees with the root is written anew;
when that fails, the root that was read is used all the same. -/
def readRoot (source repository : String) : LocalM (Option IndexRoot) := do
  match ← readRootInner env source repository with
  | none => pure none
  | some read => do
    let catalog ← readSourceCatalog env source
    if (catalog.getD ∅)[repository]? = some (rootCatalogEntry env read.1) then pure (some read.2)
    else
      match ← attempt (persistRecoveredCatalogEntry env source repository read) with
      | .ok fresh => pure (some fresh.2)
      | .error _ => pure (some read.2)

/-- The root of a source without a catalog. -/
def readRootUncatalogued (source repository : String) : LocalM (Option IndexRoot) := do
  match ← readRootInner env source repository with
  | none => pure none
  | some read => pure (some read.2)

/-- The root of a repository. Only a published source has a catalog to check it against. -/
def readRootByKind (source repository : String) (kind : SourceKind) :
    LocalM (Option IndexRoot) := do
  checkFormatVersion env source
  match kind with
  | .published => readRoot env source repository
  | .derived => readRootUncatalogued env source repository

def listLocalTags (identifier : PackageRef) (kind : SourceKind) :
    LocalM (Option (List String)) := do
  match ← readRootByKind env identifier.registry identifier.repository kind with
  | none => pure none
  | some root => pure (some root.tags.keys)

/-- Refuse a yanked tag, unless that is allowed. -/
def surfaceRootStatus (identifier : PackageRef) (root : IndexRoot) (tag : RootTag)
    (allowYanked : Bool) : Except IndexError Unit :=
  if (tag.yanked.isSome || root.status = some "yanked") && !allowYanked then
    .error (.yankedRefused identifier)
  else .ok ()

/-! ### Dispatch objects -/

/-- What the local index knows of an identifier. -/
inductive DispatchResolution
  | dispatch (content : Digest) (index : ImageIndex)
  /-- The content digest, without its image index. -/
  | absentDispatch (content : Digest)

/-- Decode a dispatch object; nothing when the bytes are no image index. -/
def decodeIndexManifest (bytes : Bytes) : Except IndexError (Option ImageIndex) :=
  match env.parseImageIndex bytes with
  | none => .ok none
  | some index => (validateImageIndex index).map fun _ => some index

def readDispatchObject (source repository : String) (digest : Digest) : LocalM (Option Bytes) := do
  ensureSourceContained env source
  ensureRepositoryContained env repository
  match ← readFile (.object (slugify source) repository digest) with
  | none => pure none
  | some bytes =>
    if digestMatches env bytes digest then pure (some bytes)
    else throw (.digestMismatch digest (env.hash digest.algorithm bytes))

/-- The dispatch object of a content digest. Bytes that are no image index count as absent. -/
def resolveContent (source repository : String) (content : Digest) : LocalM DispatchResolution := do
  match ← readDispatchObject env source repository content with
  | none => pure (.absentDispatch content)
  | some bytes => do
    match ← ofExcept (decodeIndexManifest env bytes) with
    | some index => pure (.dispatch content index)
    | none => pure (.absentDispatch content)

/-- Resolve an identifier: a digest names its own content, and a tag the content its root pins. -/
def resolveDispatch (identifier : PackageRef) (kind : SourceKind) (allowYanked : Bool) :
    LocalM (Option DispatchResolution) :=
  let source := identifier.registry
  let repository := identifier.repository
  match identifier.digest with
  | some digest => some <$> resolveContent env source repository digest
  | none => do
    match ← readRootByKind env source repository kind with
    | none => pure none
    | some root =>
      match root.tags[identifier.tagOrLatest]? with
      | none => pure none
      | some tag => do
        ofExcept (surfaceRootStatus identifier root tag allowYanked)
        some <$> resolveContent env source repository tag.content

/-- Store a dispatch object under its digest, unless it is there. -/
def stageDispatchBytes (identifier : PackageRef) (digest : Digest) (bytes : Bytes) :
    LocalM Unit := do
  ensureSourceContained env identifier.registry
  ensureRepositoryContained env identifier.repository
  let f := IndexFile.object (slugify identifier.registry) identifier.repository digest
  if digestMatches env bytes digest then
    match (← get).files f with
    | .content existing =>
      if digestMatches env existing digest then pure () else writeFile env f bytes
    | _ => writeFile env f bytes
  else throw (.digestMismatch digest (env.hash digest.algorithm bytes))

/-! ### Recording tags -/

/-- A tag of a derived root names an image index and is no reserved tag. -/
def recordsRootTag (tag : String) : Manifest → Bool
  | .imageIndex _ => !isReservedTag tag
  | .image => false

/-- Record a tag in a derived root. A root that does not parse is started anew. -/
def commitRootTag (identifier : PackageRef) (tag : String) (content : Digest) : LocalM Unit := do
  let source := identifier.registry
  let repository := identifier.repository
  let expected := "oci://" ++ source ++ "/" ++ repository
  let committed ← readRootDocumentBytes env source repository
  let doc ← match committed.bind env.parseDerivedRoot with
    | some doc =>
      if doc.repository = expected then pure doc
      else throw (.rootRepositoryMismatch repository expected doc.repository)
    | none => pure ⟨expected, ∅⟩
  writeFile env (.root (slugify source) repository)
    (env.serializeDerivedRoot { doc with tags := doc.tags.insert tag ⟨content, env.now⟩ })

/-- Merge a fetched root into the committed one, and record its catalog entry. The result is the
digests that were pinned before and after. -/
def commitPublishedRoot (identifier : PackageRef) (fetched : Bytes) (scope : RootScope) :
    LocalM (List Digest × List Digest) := do
  let source := identifier.registry
  let repository := identifier.repository
  let catalog := (← readSourceCatalog env source).getD ∅
  let committed ← readRootDocumentBytes env source repository
  let current ← match env.docs.mergeRoot committed fetched scope with
    | none => pure committed
    | some bytes => do
      ensureRepositoryContained env repository
      let _ ← ofExcept (parseRootDocument env source repository bytes)
      writeFile env (.root (slugify source) repository) bytes
      let entry := rootCatalogEntry env bytes
      if catalog[repository]? = some entry then pure (some bytes)
      else do
        writeFile env (.catalog (slugify source))
          (env.serializeCatalog (catalog.insert repository entry))
        pure (some bytes)
  match (← get).files (.config (slugify source)) with
  | .absent => writeFile env (.config (slugify source)) env.newConfig
  | _ => pure ()
  pure (env.docs.publishedPins committed, env.docs.publishedPins current)

/-- Remove the dispatch objects that were pinned before and are no longer. A failed removal is
skipped. -/
def sweepOrphanObjects (source repository : String) (previous current : List Digest) :
    LocalM Unit := do
  ensureSourceContained env source
  ensureRepositoryContained env repository
  (previous.filter (· ∉ current)).forM fun digest => do
    let _ ← attempt (removeFile env (.object (slugify source) repository digest))

/-- Merge a fetched root and remove the objects it no longer pins. -/
def commitAndSweepPublishedRoot (identifier : PackageRef) (fetched : Bytes) (scope : RootScope) :
    LocalM Unit := do
  let pins ← commitPublishedRoot env identifier fetched scope
  let _ ← attempt
    (sweepOrphanObjects env identifier.registry identifier.repository pins.1 pins.2)

/-! ### What reads leave alone -/

section Reads

variable {env} {s : IndexState} {source repository : String}

theorem runAt_readFile (f : IndexFile) :
    runAt (readFile f) s =
      (match s.files f with
        | .absent => .ok none
        | .unreadable => .error (.file f.fileName)
        | .content bytes => .ok (some bytes), s) := by
  unfold readFile
  rw [runAt_bind, runAt_get]
  cases hf : s.files f <;> simp [hf]

theorem runAt_ensureSourceContained :
    runAt (ensureSourceContained env source) s =
      (if env.contained (slugify source) then .ok ()
        else .error (.repositoryEscapesIndexHome source), s) := by
  unfold ensureSourceContained
  split <;> rfl

theorem runAt_ensureRepositoryContained :
    runAt (ensureRepositoryContained env repository) s =
      (if env.contained repository then .ok () else .error (.repositoryEscapesIndexHome repository),
        s) := by
  unfold ensureRepositoryContained
  split <;> rfl

theorem frame_eq : Frame (fun _ : IndexState => True) Eq :=
  ⟨fun _ => rfl, Eq.trans, fun _ h => h⟩

theorem state_eq_of_keeps_eq {s' : IndexState} {α : Type} {x : LocalM α} {r : Except IndexError α}
    (hx : Keeps (fun _ => True) Eq x) (h : runAt x s = (r, s')) : s = s' := by
  rw [hx s trivial, h]

theorem keeps_eq_readFile (f : IndexFile) : Keeps (fun _ => True) Eq (readFile f) := by
  intro s _
  rw [runAt_readFile]

theorem keeps_eq_ensureSourceContained :
    Keeps (fun _ => True) Eq (ensureSourceContained env source) := by
  intro s _
  rw [runAt_ensureSourceContained]

theorem keeps_eq_ensureRepositoryContained :
    Keeps (fun _ => True) Eq (ensureRepositoryContained env repository) := by
  intro s _
  rw [runAt_ensureRepositoryContained]

theorem keeps_eq_readSourceConfig : Keeps (fun _ => True) Eq (readSourceConfig env source) := by
  refine .bind frame_eq keeps_eq_ensureSourceContained fun _ =>
    .bind frame_eq (keeps_eq_readFile _) fun bytes => ?_
  cases bytes with
  | none => exact .pure frame_eq _
  | some bytes =>
    dsimp only
    split
    · exact .throw frame_eq _
    · exact .pure frame_eq _

theorem keeps_eq_readSourceCatalog : Keeps (fun _ => True) Eq (readSourceCatalog env source) := by
  refine .bind frame_eq keeps_eq_ensureSourceContained fun _ =>
    .bind frame_eq (keeps_eq_readFile _) fun bytes => ?_
  cases bytes with
  | none => exact .pure frame_eq _
  | some bytes =>
    dsimp only
    split
    · exact .throw frame_eq _
    · exact .bind frame_eq (.ofExcept frame_eq _) fun _ => .pure frame_eq _

theorem keeps_eq_readRootInner :
    Keeps (fun _ => True) Eq (readRootInner env source repository) := by
  have hread : Keeps (fun _ => True) Eq (readRootDocumentBytes env source repository) :=
    .bind frame_eq keeps_eq_ensureSourceContained fun _ =>
      .bind frame_eq keeps_eq_ensureRepositoryContained fun _ => keeps_eq_readFile _
  refine .bind frame_eq hread fun bytes => ?_
  cases bytes with
  | none => exact .pure frame_eq _
  | some bytes => exact .bind frame_eq (.ofExcept frame_eq _) fun _ => .pure frame_eq _

theorem keeps_eq_resolveContent (content : Digest) :
    Keeps (fun _ => True) Eq (resolveContent env source repository content) := by
  have hread : Keeps (fun _ => True) Eq (readDispatchObject env source repository content) := by
    refine .bind frame_eq keeps_eq_ensureSourceContained fun _ =>
      .bind frame_eq keeps_eq_ensureRepositoryContained fun _ =>
        .bind frame_eq (keeps_eq_readFile _) fun bytes => ?_
    cases bytes with
    | none => exact .pure frame_eq _
    | some bytes => exact .ite (fun _ => .pure frame_eq _) fun _ => .throw frame_eq _
  refine .bind frame_eq hread fun bytes => ?_
  cases bytes with
  | none => exact .pure frame_eq _
  | some bytes =>
    refine .bind frame_eq (.ofExcept frame_eq _) fun index => ?_
    cases index <;> exact .pure frame_eq _

end Reads

variable {env}

/-- The operation does not change the file. -/
def Preserves (f : IndexFile) {α : Type} (x : LocalM α) : Prop :=
  ∀ s, (runAt x s).2.files f = s.files f

namespace Preserves

variable {f g : IndexFile} {α β : Type} {x : LocalM α}

theorem of_eq (h : Keeps (fun _ => True) Eq x) : Preserves f x := fun s => by
  rw [← h s trivial]

theorem pure (a : α) : Preserves f (Pure.pure a : LocalM α) := fun _ => rfl

theorem frame : Frame (fun _ => True) fun s s' : IndexState => s'.files f = s.files f :=
  ⟨fun _ => rfl, fun h h' => h'.trans h, fun _ h => h⟩

theorem bind (hx : Preserves f x) {k : α → LocalM β} (hk : ∀ a, Preserves f (k a)) :
    Preserves f (x >>= k) := fun s =>
  Keeps.bind frame (fun s _ => hx s) (fun a s _ => hk a s) s trivial

theorem files_eq (hx : Preserves f x) {s s' : IndexState} {r : Except IndexError α}
    (h : runAt x s = (r, s')) : s'.files f = s.files f := by
  rw [← hx s, h]

theorem attempt (hx : Preserves f x) : Preserves f (Ocx.attempt x) := fun s => hx s

theorem writeFile (h : f ≠ g) (bytes : Bytes) : Preserves f (Ocx.writeFile env g bytes) := by
  intro s
  unfold Ocx.writeFile
  cases env.fault g with
  | some e => rfl
  | none => exact Function.update_of_ne h _ _

theorem checkFormatVersion (source : String) :
    Preserves f (Ocx.checkFormatVersion env source) := by
  refine (of_eq (.get frame_eq)).bind fun s => ?_
  split
  · exact pure _
  · exact (of_eq keeps_eq_readSourceConfig).bind fun _ =>
      (of_eq (.ofExcept frame_eq _)).bind fun _ => fun _ => rfl

theorem persistRecoveredCatalogEntry {source : String} (h : f ≠ .catalog (slugify source))
    (repository : String) (prelock : Bytes × IndexRoot) :
    Preserves f (Ocx.persistRecoveredCatalogEntry env source repository prelock) := by
  refine (of_eq keeps_eq_readSourceCatalog).bind fun _ =>
    (of_eq keeps_eq_readRootInner).bind fun _ => ?_
  dsimp only
  split
  · exact pure _
  · exact (writeFile h _).bind fun _ => pure _

theorem readRootByKind {source : String} (h : f ≠ .catalog (slugify source))
    (repository : String) (kind : SourceKind) :
    Preserves f (Ocx.readRootByKind env source repository kind) := by
  refine (checkFormatVersion source).bind fun _ => ?_
  cases kind with
  | derived =>
    refine (of_eq keeps_eq_readRootInner).bind fun read => ?_
    cases read <;> exact pure _
  | published =>
    refine (of_eq keeps_eq_readRootInner).bind fun read => ?_
    cases read with
    | none => exact pure _
    | some read =>
      refine (of_eq keeps_eq_readSourceCatalog).bind fun _ => ?_
      split
      · exact pure _
      · refine (persistRecoveredCatalogEntry h repository read).attempt.bind fun r => ?_
        cases r <;> exact pure _

end Preserves

/-! ### What reads return -/

section Returns

variable {s : IndexState} {source repository : String} {root : IndexRoot}

/-- The root document of the repository is there, and parses as this root. -/
structure Committed (env : IndexEnv) (s : IndexState) (source repository : String)
    (root : IndexRoot) : Prop where
  /-- The directory of the source is in the index home. -/
  source_contained : env.contained (slugify source) = true
  /-- The path of the repository is in the index home. -/
  repository_contained : env.contained repository = true
  document : ∃ bytes, s.files (.root (slugify source) repository) = .content bytes ∧
    parseRootDocument env source repository bytes = .ok root

theorem Committed.unique {s' : IndexState} {root' : IndexRoot}
    (h : Committed env s source repository root) (h' : Committed env s' source repository root')
    (hs : s'.files (.root (slugify source) repository) =
      s.files (.root (slugify source) repository)) : root' = root := by
  obtain ⟨bytes, hbytes, hparse⟩ := h.document
  obtain ⟨bytes', hbytes', hparse'⟩ := h'.document
  rw [hs, hbytes] at hbytes'
  rw [← FileState.content.inj hbytes', hparse] at hparse'
  exact (Except.ok.inj hparse').symm

theorem runAt_readRootInner_eq_some_iff {document : Bytes} :
    runAt (readRootInner env source repository) s = (.ok (some (document, root)), s) ↔
      env.contained (slugify source) = true ∧ env.contained repository = true ∧
        s.files (.root (slugify source) repository) = .content document ∧
        parseRootDocument env source repository document = .ok root := by
  unfold readRootInner readRootDocumentBytes
  simp only [runAt_bind, runAt_ensureSourceContained, runAt_ensureRepositoryContained]
  by_cases hsource : env.contained (slugify source) = true
  · by_cases hrepository : env.contained repository = true
    · simp only [hsource, hrepository, if_true, runAt_readFile, true_and]
      cases hfile : s.files (.root (slugify source) repository) with
      | absent => simp
      | unreadable => simp
      | content bytes =>
        simp only [runAt_bind, runAt_ofExcept, FileState.content.injEq]
        cases hparse : parseRootDocument env source repository bytes with
        | error e =>
          simp only [Prod.mk.injEq, reduceCtorEq, false_and, false_iff, not_and]
          rintro rfl
          simp [hparse]
        | ok read =>
          simp only [runAt_pure, Prod.mk.injEq, Except.ok.injEq, some.injEq, and_true]
          constructor
          · rintro ⟨rfl, rfl⟩
            exact ⟨rfl, hparse⟩
          · rintro ⟨rfl, h⟩
            exact ⟨rfl, Except.ok.inj (hparse.symm.trans h)⟩
    · simp [hsource, hrepository]
  · simp [hsource]

theorem committed_of_readRootInner {read : Bytes × IndexRoot}
    (h : (runAt (readRootInner env source repository) s).1 = .ok (some read)) :
    Committed env s source repository read.2 := by
  have hrun : runAt (readRootInner env source repository) s = (.ok (some read), s) :=
    Prod.ext h (keeps_eq_readRootInner s trivial).symm
  obtain ⟨hsource, hrepository, hcontent, hparse⟩ := runAt_readRootInner_eq_some_iff.1 hrun
  exact ⟨hsource, hrepository, _, hcontent, hparse⟩

theorem Committed.of_files_eq {s' : IndexState} (h : Committed env s' source repository root)
    (hs : s'.files (.root (slugify source) repository) =
      s.files (.root (slugify source) repository)) : Committed env s source repository root := by
  refine ⟨h.source_contained, h.repository_contained, ?_⟩
  rw [← hs]
  exact h.document

theorem committed_of_persistRecoveredCatalogEntry {prelock fresh : Bytes × IndexRoot}
    (h : (runAt (persistRecoveredCatalogEntry env source repository prelock) s).1 = .ok fresh) :
    fresh = prelock ∨ Committed env s source repository fresh.2 := by
  obtain ⟨catalog, s₁, hcatalog, h⟩ := exists_of_runAt_bind_eq_ok h
  obtain rfl := state_eq_of_keeps_eq keeps_eq_readSourceCatalog hcatalog
  obtain ⟨read, s₂, hread, h⟩ := exists_of_runAt_bind_eq_ok h
  have hfresh : read.getD prelock = fresh := by
    dsimp only at h
    split at h
    · exact Except.ok.inj h
    · obtain ⟨_, _, _, h⟩ := exists_of_runAt_bind_eq_ok h
      exact Except.ok.inj h
  cases read with
  | none => exact .inl hfresh.symm
  | some read =>
    obtain rfl : read = fresh := hfresh
    exact .inr (committed_of_readRootInner (congrArg Prod.fst hread))

theorem committed_of_readRoot
    (h : (runAt (readRoot env source repository) s).1 = .ok (some root)) :
    Committed env s source repository root := by
  obtain ⟨read, s₁, hread, h⟩ := exists_of_runAt_bind_eq_ok h
  cases read with
  | none => exact absurd (Except.ok.inj h) (by simp)
  | some read =>
    have hinner := committed_of_readRootInner (congrArg Prod.fst hread)
    obtain rfl := state_eq_of_keeps_eq keeps_eq_readRootInner hread
    obtain ⟨catalog, s₂, hcatalog, h⟩ := exists_of_runAt_bind_eq_ok h
    obtain rfl := state_eq_of_keeps_eq keeps_eq_readSourceCatalog hcatalog
    split at h
    · rwa [← some.inj (Except.ok.inj h)]
    · rw [runAt_bind, runAt_attempt] at h
      rcases hpersist : (runAt (persistRecoveredCatalogEntry env source repository read) s).1 with
        e | fresh
      · rw [hpersist] at h
        rwa [← some.inj (Except.ok.inj h)]
      · rw [hpersist] at h
        rw [← some.inj (Except.ok.inj h)]
        rcases committed_of_persistRecoveredCatalogEntry hpersist with rfl | hfresh
        · exact hinner
        · exact hfresh

theorem committed_of_readRootByKind {kind : SourceKind}
    (h : (runAt (readRootByKind env source repository kind) s).1 = .ok (some root)) :
    Committed env s source repository root := by
  obtain ⟨_, s₁, hgate, h⟩ := exists_of_runAt_bind_eq_ok h
  have hfiles : s₁.files (.root (slugify source) repository) =
      s.files (.root (slugify source) repository) :=
    (Preserves.checkFormatVersion source).files_eq hgate
  cases kind with
  | published => exact (committed_of_readRoot h).of_files_eq hfiles
  | derived =>
    obtain ⟨read, s₂, hread, h⟩ := exists_of_runAt_bind_eq_ok h
    cases read with
    | none => exact absurd (Except.ok.inj h) (by simp)
    | some read =>
      have hinner := committed_of_readRootInner (congrArg Prod.fst hread)
      rw [← some.inj (Except.ok.inj h)]
      exact hinner.of_files_eq hfiles

/-! ### Dispatch objects -/

/-- The dispatch object of the digest is absent, or intact: its bytes hash to the digest, and are a
valid image index if they are one at all. -/
def ObjectReadable (env : IndexEnv) (s : IndexState) (source repository : String)
    (content : Digest) : Prop :=
  match s.files (.object (slugify source) repository content) with
  | .absent => True
  | .unreadable => False
  | .content bytes => digestMatches env bytes content = true ∧
      ∃ index, decodeIndexManifest env bytes = .ok index

/-- Resolving the digest gives it with or without the image index when the object is readable, and
fails otherwise. -/
def Resolved (env : IndexEnv) (s : IndexState) (source repository : String) (content : Digest) :
    Except IndexError DispatchResolution → Prop
  | .ok r => ObjectReadable env s source repository content ∧
    (r = .absentDispatch content ∨ ∃ index, r = .dispatch content index)
  | .error e => ¬ ObjectReadable env s source repository content ∧
    (e = .file (content.hex ++ ".json") ∨ isCorruptIndexObject e = true)

theorem resolved_resolveContent (hsource : env.contained (slugify source) = true)
    (hrepository : env.contained repository = true) (content : Digest) :
    Resolved env s source repository content
      (runAt (resolveContent env source repository content) s).1 := by
  unfold resolveContent readDispatchObject Resolved ObjectReadable
  simp only [runAt_bind, runAt_ensureSourceContained, runAt_ensureRepositoryContained, hsource,
    hrepository, if_true, runAt_readFile]
  cases hfile : s.files (.object (slugify source) repository content) with
  | absent => exact ⟨trivial, .inl rfl⟩
  | unreadable => exact ⟨id, .inl rfl⟩
  | content bytes =>
    by_cases hmatch : digestMatches env bytes content = true
    · simp only [hmatch, if_true, runAt_pure, runAt_bind, runAt_ofExcept, true_and]
      cases hdecode : decodeIndexManifest env bytes with
      | ok index =>
        cases index with
        | none => exact ⟨⟨none, rfl⟩, .inl rfl⟩
        | some index => exact ⟨⟨some index, rfl⟩, .inr ⟨index, rfl⟩⟩
      | error e =>
        refine ⟨by simp, .inr ?_⟩
        unfold decodeIndexManifest validateImageIndex at hdecode
        split at hdecode
        · simp at hdecode
        · split at hdecode
          · simp [Except.map] at hdecode
          · rw [← Except.error.inj hdecode]
            rfl
    · simp only [hmatch]
      exact ⟨by simp, .inr rfl⟩

end Returns

end Ocx
