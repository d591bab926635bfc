import Ocx.Announce.Document
import Ocx.Util.Outcome

/-!
# One pass of an announce

A pass takes the committed root of a package, asks the registry for the tags it is given, and
rebuilds the root: observed rows are refreshed or added, rows of tags that are gone are removed, and
every other row stays.  The root comes with the objects it names and the removal of those it no
longer names, as one set of file changes.

A root that is rebuilt on the main branch takes over the rows of a stale announce branch.  The
objects of these rows are copied from the head of that branch, and a row whose object is not there
follows the registry.

Bytes are of any type: they are hashed, parsed, written and compared.  What the registry and the
forge answer in a pass is given (`Answers`).
-/

namespace Ocx.Announce

/-! ### Requests and failures -/

/-- Which tags an announce is given. -/
inductive TagSelection
  /-- The list is all there is. -/
  | replace (tags : List String)
  /-- The tags of a file; other rows stay. -/
  | unionFile (tags : List String)
  /-- Every committed tag. -/
  | refresh
  /-- Every committed tag and every tag of the registry. -/
  | fromRegistry
deriving DecidableEq

/-- Why an announce fails. -/
inductive AnnounceError
  /-- No tag is left to observe. -/
  | noCuratedTags (reservedDropped : List String)
  | rootMissingField (field : String)
  /-- The pointer of the root is malformed. -/
  | malformedPhysicalRepository (value : String)
  /-- The host of the registry may not be dialled. -/
  | ssrf (registry : String)
  | listTags (repository : String)
  | observe (tag repository : String)
  /-- A tag was absent and then present. -/
  | observeRaced (tag repository : String)
  | tagIsNotAnImageIndex (tag repository : String)
  /-- A tag is not there, and it is not known to be gone. -/
  | unresolvedTag (tag repository : String)
  /-- The description could not be observed. -/
  | observeDesc (repository : String)
  /-- The description is no longer there. -/
  | descDisappeared (repository digest : String)
  /-- Rows would be lost. -/
  | committedTagsDropped (path : String) (tags : List String)
  /-- A tag is both to be yanked and to be unyanked. -/
  | yankUnyankOverlap (tags : List String)
  /-- A tag to be yanked has no row. -/
  | yankTagNotCurated (tag : String)
  /-- A tag to be unyanked has no row. -/
  | unyankTagNotCurated (tag : String)
  /-- The root names an object that is nowhere. -/
  | rootReferencesUnwrittenObject (path : String)
  /-- The package has no root. -/
  | unclaimedPackage (package path baseRef : String)
  | rootParse (path : String)
  | rootNotObject (path : String)
  /-- The root is that of another package. -/
  | rootNameMismatch (path committed expected : String)
  | missingHeadRoot (path : String)
  /-- The open request cannot be merged. -/
  | pullRequestUnmergeable (branch : String)
  /-- The branch was moved by somebody else. -/
  | nonFastForward (branch : String)
  | forge
deriving DecidableEq

variable {β : Type}

structure Observed (β : Type) where
  tag : String
  /-- The digest of its image index. -/
  content : Digest
  /-- The image index, as the registry served it. -/
  bytes : β

/-- What a registry says when there is no such manifest. -/
inductive NotFoundCode
  | manifestUnknown
  | nameUnknown
  /-- It does not say. -/
  | other
deriving DecidableEq

inductive ManifestPresence
  | present
  | absent (code : NotFoundCode)

/-- A tag as the registry answered for it. -/
inductive TagObservation (β : Type)
  | present (observed : Observed β)
  | absent (tag : String) (code : NotFoundCode)

/-- What a pass does with the rows of its tags. -/
structure TagPlan (β : Type) where
  /-- The tags that are there. -/
  observed : List (Observed β) := []
  /-- The tags that are gone and whose rows go. -/
  removed : List String := []
  /-- The tags that are gone and whose rows stay. -/
  durableMissing : List String := []

structure DescBlob (β : Type) where
  digest : Digest
  extension : Extension
  bytes : β

structure ObservedDesc (β : Type) where
  /-- The new description field, when the description has moved. -/
  desc : Option DocField
  /-- The readme and the logo. -/
  blobs : List (DescBlob β)

/-- The description of a package in the registry. -/
structure Description (β : Type) where
  annotations : Annotations
  readme : β
  /-- The logo with its media type. -/
  logo : Option (String × β)

/-- The location of a package in its registry. -/
structure Physical where
  repository : String
  /-- The pointer as it is written. -/
  display : String

inductive AnnounceTarget
  /-- Into a directory. -/
  | out
  /-- Onto the index repository. -/
  | direct
  /-- Onto a fork: the one that is there, or the one that is created. -/
  | fork (existing created : Option String)
deriving DecidableEq

/-- What an announce is asked to do. -/
structure Request where
  package : PackageRef
  curated : TagSelection
  /-- Where it writes. -/
  target : AnnounceTarget
  /-- The tags to mark as yanked. -/
  yank : List String
  /-- The tags to clear of the mark. -/
  unyank : List String
  yankReason : String
  /-- New rows are ephemeral. -/
  ephemeral : Bool
  /-- The time of the run. -/
  now : String

/-- Hashing, parsing and writing. -/
structure Codec (β : Type) where
  hash : Algorithm → β → Digest
  parse : β → Option Root
  /-- Write a root document. -/
  serialize : Root → β
  /-- Parse the pointer of a root to the repository it names. -/
  parsePointer : String → Option String

structure TagAnswers (β : Type) where
  fetchManifest : String → Except Unit (Option (β × Digest × Manifest))
  probeManifest : String → Except Unit ManifestPresence

/-- What registry and forge answer in a step of an announce. -/
structure Answers (β : Type) where
  /-- The host of the pointer may be dialled. -/
  guardDestination : String → Bool
  listTags : Except Unit (List String)
  observation : TagAnswers β
  /-- The tags as they are observed again, for rows whose object is nowhere. -/
  reobservation : TagAnswers β
  probeDescription : Except Unit (Option Digest)
  pullDescription : Except Unit (Option (Description β))
  readFails : String → Bool
  commitFails : Bool
  /-- The forge fails to open or update the request. -/
  requestFails : Bool
  /-- Whether the forge reports that the open request cannot be merged. -/
  conflicting : Except Unit Bool

/-- The files of a commit. -/
abbrev Tree (β : Type) := String → Option β

inductive FileChange (β : Type)
  /-- Write the file. -/
  | put (bytes : β)
  /-- Remove the file, if it is there. -/
  | delete
deriving DecidableEq

/-- The changes of a commit, by path. -/
abbrev FileSet (β : Type) := Std.ExtTreeMap String (FileChange β)

/-- The tree after the changes. -/
def applyFiles (tree : Tree β) (files : FileSet β) : Tree β := fun path =>
  match files[path]? with
  | some (.put bytes) => some bytes
  | some .delete => none
  | none => tree path

/-- Read a file of a commit. -/
def readAt (answers : Answers β) (tree : Tree β) (path : String) :
    Except AnnounceError (Option β) :=
  if answers.readFails path then .error .forge else .ok (tree path)

/-! ### Which tags are observed -/

/-- The tags of a selection, and the reserved ones that were dropped from it. -/
structure ResolvedTags where
  tags : List String
  reservedDropped : List String

/-- The committed tags, and then the others. -/
def unionOntoCommitted (committed additions : List String) : List String :=
  additions.foldl (fun union tag => if tag ∈ union then union else union ++ [tag])
    committed.eraseDups

/-- The tags of a selection, in order and without repetition. -/
def selectedTags (selection : TagSelection) (committed discovered : List String) : List String :=
  match selection with
  | .replace tags => tags.eraseDups
  | .unionFile tags => tags.eraseDups
  | .refresh => committed.eraseDups
  | .fromRegistry => unionOntoCommitted committed discovered

/-- Resolve a selection. Reserved tags are dropped; only a list that is all there is must leave
something. -/
def resolveCuratedTags (selection : TagSelection) (committed discovered : List String) :
    Except AnnounceError ResolvedTags :=
  let resolved := selectedTags selection committed discovered
  let reservedDropped := resolved.filter isReservedTag
  let tags := resolved.filter (!isReservedTag ·)
  match tags, selection with
  | [], .replace _ => .error (.noCuratedTags reservedDropped)
  | _, _ => .ok ⟨tags, reservedDropped⟩

/-- The committed tags that a root no longer has, apart from those that are exempt. -/
def droppedCommittedTags (committed : List String) (regenerated : Root) (exempt : List String) :
    List String :=
  committed.filter fun tag => tag ∉ committedTagNames regenerated && tag ∉ exempt

/-- The location of the package, when its host may be dialled. -/
def guardedPhysical (codec : Codec β) (answers : Answers β) (registry pointer : String) :
    Except AnnounceError Physical :=
  match codec.parsePointer pointer with
  | none => .error (.malformedPhysicalRepository pointer)
  | some repository =>
    if answers.guardDestination pointer then .ok ⟨repository, pointer⟩ else .error (.ssrf registry)

/-- The location that the root points to. -/
def physicalOf (codec : Codec β) (answers : Answers β) (registry : String) (root : Root) :
    Except AnnounceError Physical :=
  match (root.get "repository").bind JsonNode.asString with
  | none => .error (.rootMissingField "repository")
  | some pointer => guardedPhysical codec answers registry pointer

/-- The tags of the registry, without the reserved ones; they are asked for by one selection. -/
def discover (answers : Answers β) (selection : TagSelection) (physical : Physical) :
    Except AnnounceError (List String) :=
  match selection with
  | .fromRegistry =>
    match answers.listTags with
    | .ok tags => .ok (tags.filter (!isReservedTag ·))
    | .error _ => .error (.listTags physical.display)
  | _ => .ok []

/-! ### Observing tags -/

/-- Observe a tag. One that is not found is probed, for the code of the answer. -/
def observeOneTag (registry : TagAnswers β) (physical : Physical) (tag : String) :
    Except AnnounceError (TagObservation β) :=
  match registry.fetchManifest tag with
  | .error _ => .error (.observe tag physical.display)
  | .ok none =>
    match registry.probeManifest tag with
    | .error _ => .error (.observe tag physical.display)
    | .ok (.absent code) => .ok (.absent tag code)
    | .ok .present => .error (.observeRaced tag physical.display)
  | .ok (some (bytes, content, .imageIndex _)) => .ok (.present ⟨tag, content, bytes⟩)
  | .ok (some (_, _, .image)) => .error (.tagIsNotAnImageIndex tag physical.display)

def observeCurated (registry : TagAnswers β) (physical : Physical) (curated : List String) :
    Except AnnounceError (List (TagObservation β)) :=
  curated.mapM (observeOneTag registry physical)

def TagSelection.named : TagSelection → Bool
  | .replace _ | .unionFile _ => true
  | .refresh | .fromRegistry => false

/-- Decide the row of one observed tag. Only a manifest that is known to be gone removes a row, and
a durable row only when the selection names it. -/
def planTag (committed : Root) (selection : TagSelection) (repository : String) (plan : TagPlan β) :
    TagObservation β → Except AnnounceError (TagPlan β)
  | .present observed => .ok { plan with observed := plan.observed ++ [observed] }
  | .absent tag code =>
    match (tagRow committed tag).filter fun _ => code = .manifestUnknown with
    | none => .error (.unresolvedTag tag repository)
    | some row =>
      if isEphemeral row || selection.named then .ok { plan with removed := plan.removed ++ [tag] }
      else .ok { plan with durableMissing := plan.durableMissing ++ [tag] }

/-- Decide the rows of the observed tags. -/
def planTags (observations : List (TagObservation β)) (committed : Root) (selection : TagSelection)
    (repository : String) : Except AnnounceError (TagPlan β) :=
  observations.foldlM (planTag committed selection repository) {}

/-! ### The description -/

def annotationTitle : String := "org.opencontainers.image.title"

def annotationDescription : String := "org.opencontainers.image.description"

def annotationKeywords : String := "sh.ocx.keywords"

def mediaTypePng : String := "image/png"

/-- The part after the last `/`. -/
def lastSegment (path : String) : String :=
  String.ofList ((path.toList.splitOn '/').getLastD [])

/-- The title: the annotation, or the last part of the name or of the repository. -/
def descTitle (annotations : Annotations) (committed : Root) (physical : Physical) : String :=
  let annotated := annotations[annotationTitle]?.getD ""
  let name := ((committed.get "name").bind JsonNode.asString).getD ""
  ([annotated, lastSegment name, lastSegment physical.repository].find? (· ≠ "")).getD
    physical.display

/-- The keywords of an annotation, which are separated by commas. -/
def parseKeywords (raw : Option String) : List RowField :=
  ((((raw.getD "").toList.splitOn ',').map trim).filter (· ≠ [])).map fun keyword =>
    .string (String.ofList keyword)

def descObject (description : Description β) (committed : Root) (physical : Physical)
    (digest readme : Digest) (logo : Option Digest) : DocField :=
  let fields : OrderedMap String TagRow := ∅
  let fields := fields.insert "digest" (.string digest.toString)
  let fields := fields.insert "title"
    (.string (descTitle description.annotations committed physical))
  let fields := fields.insert "description"
    (.string (description.annotations[annotationDescription]?.getD ""))
  let fields := fields.insert "keywords"
    (.array (parseKeywords description.annotations[annotationKeywords]?))
  let fields := fields.insert "readme" (.string readme.toString)
  match logo with
  | some logo => .object (fields.insert "logo" (.string logo.toString))
  | none => .object fields

def logoBlob (codec : Codec β) (logo : String × β) : DescBlob β :=
  ⟨codec.hash .sha256 logo.2, if logo.1 = mediaTypePng then .png else .svg, logo.2⟩

/-- The description that was pulled. Its field is new when its digest differs from the committed
one. -/
def describe (codec : Codec β) (physical : Physical) (committed : Root) (digest : Digest)
    (description : Description β) : ObservedDesc β :=
  let readme := codec.hash .sha256 description.readme
  let logo := description.logo.map (logoBlob codec)
  let desc := descObject description committed physical digest readme (logo.map DescBlob.digest)
  ⟨if descField committed "digest" = some digest.toString then none else some desc,
    ⟨readme, .md, description.readme⟩ :: logo.toList⟩

/-- Observe the description. One that the root records must still be there. -/
def observeDesc (codec : Codec β) (answers : Answers β) (physical : Physical) (committed : Root) :
    Except AnnounceError (ObservedDesc β) :=
  match answers.probeDescription with
  | .error _ => .error (.observeDesc physical.display)
  | .ok none =>
    match descField committed "digest" with
    | some digest => .error (.descDisappeared physical.display digest)
    | none => .ok ⟨none, []⟩
  | .ok (some digest) =>
    match answers.pullDescription with
    | .error _ => .error (.observeDesc physical.display)
    | .ok none => .error (.descDisappeared physical.display digest.toString)
    | .ok (some description) => .ok (describe codec physical committed digest description)

/-! ### Carried rows -/

/-- One row of a stale branch: it is taken over when the base has no such row. -/
def carryRow (carried : OrderedMap String TagRow × List String) (entry : String × TagRow) :
    OrderedMap String TagRow × List String :=
  if entry.1 ∈ carried.1.keys then carried
  else (carried.1.insert entry.1 entry.2, carried.2 ++ [entry.1])

/-- Take over the rows of a stale branch that the base lacks. The result is the root and the tags of
these rows. -/
def carryBranchTags (base : Root) (branchTags : DocField) : Root × List String :=
  match branchTags.asObject, base.asObject with
  | some rows, some members =>
    let carried := rows.entries.foldl carryRow ((tagRows base).getD ∅, [])
    (.object (members.insert "tags" (.object carried.1)), carried.2)
  | _, _ => (base, [])

def rowDigests (root : Root) : List String :=
  (((tagRows root).map OrderedMap.values).getD []).filterMap rowContent

/-- The carried tags whose digest no row of the held root names. -/
def carriedWithoutHeldObject (carried : List String) (root held : Root) : List String :=
  carried.filter fun tag =>
    match (tagRow root tag).bind rowContent with
    | none => true
    | some digest => digest ∉ rowDigests held

structure CarriedObjects (β : Type) where
  /-- The objects that the head of the branch has. -/
  found : List (Digest × β) := []
  /-- The tags whose objects it has not. -/
  missing : List String := []

/-- Copy the object of one carried row from the head of the branch. -/
def fetchCarriedObject (codec : Codec β) (answers : Answers β) (head : Tree β)
    (packageRepo : String) (root : Root) (observed : List (Observed β))
    (objects : CarriedObjects β) (tag : String) : Except AnnounceError (CarriedObjects β) :=
  match tagRow root tag with
  | none => .ok objects
  | some row =>
    match (rowContent row).bind Digest.tryFrom with
    | none => .ok { objects with missing := objects.missing ++ [tag] }
    | some digest =>
      if observed.any (·.content = digest) || objects.found.any (·.1 = digest) then .ok objects
      else do
        match ← readAt answers head (objectPath packageRepo digest .json) with
        | some bytes =>
          if codec.hash digest.algorithm bytes = digest then
            .ok { objects with found := objects.found ++ [(digest, bytes)] }
          else .ok { objects with missing := objects.missing ++ [tag] }
        | none => .ok { objects with missing := objects.missing ++ [tag] }

/-- Copy the objects of the carried rows that are still in the root and were not observed. -/
def fetchCarriedObjects (codec : Codec β) (answers : Answers β) (head : Tree β)
    (packageRepo : String) (root : Root) (carried : List String) (observed : List (Observed β)) :
    Except AnnounceError (CarriedObjects β) :=
  carried.foldlM (fetchCarriedObject codec answers head packageRepo root observed) {}

/-! ### Regenerating the root -/

def TagSelection.given (selection : TagSelection) (tag : String) : Bool :=
  match selection with
  | .replace tags | .unionFile tags => tag ∈ tags
  | .refresh | .fromRegistry => true

/-- The selection leaves out what it does not name. -/
def TagSelection.replaces : TagSelection → Bool
  | .replace _ => true
  | _ => false

def newTagEntry (content now : String) (ephemeral : Bool) : TagRow :=
  let entry : OrderedMap String RowField := ∅
  let entry := (entry.insert "content" (.string content)).insert "observed" (.string now)
  .object (if ephemeral then entry.insert "ephemeral" (.bool true) else entry)

/-- A committed row that was observed again: as it is when its digest has not moved, and otherwise
with the new digest and time. -/
def regenerateRow (row : TagRow) (content now : String) : TagRow :=
  if rowContent row = some content then row
  else
    match row.asObject with
    | none => newTagEntry content now false
    | some object =>
      .object ((object.insert "content" (.string content)).insert "observed" (.string now))

def TagPlan.observedFor (plan : TagPlan β) (tag : String) : Option (Observed β) :=
  plan.observed.reverse.find? (·.tag = tag)

/-- The row of the tag goes. -/
def TagPlan.drops (plan : TagPlan β) (selection : TagSelection) (tag : String) : Bool :=
  plan.removed.contains tag || (selection.replaces && !selection.given tag) ||
    (isReservedTag tag && selection.given tag)

/-- A committed row in the new root. -/
def keepRow (plan : TagPlan β) (selection : TagSelection) (now : String)
    (rows : OrderedMap String TagRow) (entry : String × TagRow) : OrderedMap String TagRow :=
  if plan.drops selection entry.1 then rows
  else
    match plan.observedFor entry.1 with
    | some observed =>
      rows.insert entry.1 (regenerateRow entry.2 observed.content.toString now)
    | none => rows.insert entry.1 entry.2

/-- An observed tag in the new root, unless it has its row already. -/
def addRow (now : String) (ephemeral : Bool) (rows : OrderedMap String TagRow)
    (entry : Observed β) : OrderedMap String TagRow :=
  if entry.tag ∈ rows.keys then rows
  else rows.insert entry.tag (newTagEntry entry.content.toString now ephemeral)

def regenerateRows (committed : Root) (plan : TagPlan β) (selection : TagSelection)
    (ephemeral : Bool) (now : String) : OrderedMap String TagRow :=
  plan.observed.foldl (addRow now ephemeral)
    ((((tagRows committed).map OrderedMap.entries).getD []).foldl (keepRow plan selection now) ∅)

/-- Rebuild the rows of a root. -/
def regenerate (committed : Root) (plan : TagPlan β) (selection : TagSelection) (ephemeral : Bool)
    (now : String) : Root :=
  match committed.asObject with
  | none => committed
  | some members =>
    .object ((members.shiftRemove "variants").insert "tags"
      (.object (regenerateRows committed plan selection ephemeral now)))

/-! ### Yank markers -/

/-- Change the row of a tag; nothing when there is no row that is an object. -/
def updateRow (root : Root) (tag : String)
    (f : OrderedMap String RowField → OrderedMap String RowField) : Option Root := do
  let members ← root.asObject
  let rows ← tagRows root
  let row ← (rows.get tag).bind JsonNode.asObject
  some (.object (members.insert "tags" (.object (rows.insert tag (.object (f row))))))

def keyPosition (entry : OrderedMap String RowField) (key : String) : Option ℕ :=
  entry.keys.findIdx? (· = key)

def yankMarker (reason now : String) : RowField :=
  .object (((∅ : OrderedMap String MarkerField).insert "reason" (.string reason)).insert "at"
    (.string now))

/-- Mark a row as yanked; a new marker stands after the time of observation. -/
def markYanked (reason now : String) (entry : OrderedMap String RowField) :
    OrderedMap String RowField :=
  match entry.keys.contains "yanked", keyPosition entry "observed" with
  | false, some observed => entry.shiftInsert (observed + 1) "yanked" (yankMarker reason now)
  | _, _ => entry.insert "yanked" (yankMarker reason now)

def yankTag (reason now : String) (root : Root) (tag : String) : Except AnnounceError Root :=
  match updateRow root tag (markYanked reason now) with
  | some root => .ok root
  | none => .error (.yankTagNotCurated tag)

/-- Clear a tag of the mark. -/
def unyankTag (root : Root) (tag : String) : Except AnnounceError Root :=
  match updateRow root tag (·.swapRemove "yanked") with
  | some root => .ok root
  | none => .error (.unyankTagNotCurated tag)

/-- Mark and clear the tags that the request names. -/
def applyYankMarkers (root : Root) (yank unyank : List String) (reason now : String) :
    Except AnnounceError Root :=
  let overlap := yank.filter (· ∈ unyank)
  if overlap ≠ [] then .error (.yankUnyankOverlap (overlap.insertionSort (· ≤ ·)).dedup)
  else do
    let root ← yank.foldlM (yankTag reason now) root
    unyank.foldlM unyankTag root

/-! ### The file set -/

def logoPath (answers : Answers β) (tree : Tree β) (packageRepo : String) (digest : Digest) :
    Except AnnounceError (List String) := do
  let png := objectPath packageRepo digest .png
  let svg := objectPath packageRepo digest .svg
  match ← readAt answers tree png with
  | some _ => .ok [png]
  | none =>
    match ← readAt answers tree svg with
    | some _ => .ok [svg]
    | none => .ok []

/-- The paths of an object that the new root does not name; none when it does. -/
def orphanPath (answers : Answers β) (tree : Tree β) (packageRepo : String) (live : List Digest)
    (object : Digest × Option Extension) : Except AnnounceError (List String) :=
  if object.1 ∈ live then .ok []
  else
    match object.2 with
    | none => logoPath answers tree packageRepo object.1
    | some extension => .ok [objectPath packageRepo object.1 extension]

/-- The paths of the objects that the previous root names and the new one does not. -/
def orphanPaths (answers : Answers β) (previous new : Root) (packageRepo : String) (tree : Tree β) :
    Except AnnounceError (List String) := do
  let live := (referencedObjects new).map Prod.fst
  let paths ← (referencedObjects previous).mapM (orphanPath answers tree packageRepo live)
  pure paths.flatten

/-- Remove a path that is not written. -/
def addOrphan (files : FileSet β) (path : String) : FileSet β :=
  if path ∈ files then files else files.insert path .delete

/-- The file set: the root, the objects and the removals. -/
def buildFiles (rootPath : String) (rootBytes : β) (packageRepo : String)
    (observed : List (Observed β)) (carried : List (Digest × β)) (blobs : List (DescBlob β))
    (orphans : List String) : FileSet β :=
  let files : FileSet β := (∅ : FileSet β).insert rootPath (.put rootBytes)
  let files := observed.foldl (fun files entry =>
    files.insert (objectPath packageRepo entry.content .json) (.put entry.bytes)) files
  let files := carried.foldl (fun files object =>
    files.insert (objectPath packageRepo object.1 .json) (.put object.2)) files
  let files := blobs.foldl (fun files blob =>
    files.insert (objectPath packageRepo blob.digest blob.extension) (.put blob.bytes)) files
  orphans.foldl addOrphan files

/-! ### The pass -/

/-- The rows that were carried onto a root. -/
structure CarriedRows (β : Type) where
  head : Tree β
  tags : List String
  /-- The root before the rows were carried. -/
  held : Root

/-- The root a pass runs against. -/
structure RootBase (β : Type) where
  /-- The root, with the carried rows. -/
  root : Root
  tree : Tree β
  carried : Option (CarriedRows β)

/-- The head of a stale branch: the rows of its root, and its tree. -/
structure BranchHead (β : Type) where
  tags : DocField
  tree : Tree β

/-- The root a pass runs against, with the rows of a stale branch carried onto it. -/
def rootBase (root : Root) (tree : Tree β) : Option (BranchHead β) → RootBase β
  | none => ⟨root, tree, none⟩
  | some head =>
    let carried := carryBranchTags root head.tags
    ⟨carried.1, tree, some ⟨head.tree, carried.2, root⟩⟩

/-- A rebuilt root with the plan it was built from. -/
structure Draft (β : Type) where
  root : Root
  plan : TagPlan β
  carriedObjects : List (Digest × β)
  droppedCarried : List String

/-- Rebuild the root once more for the carried tags whose objects are missing: these follow the
registry, as if they had been named. -/
def redraft (answers : Answers β) (base : RootBase β) (request : Request) (physical : Physical)
    (plan : TagPlan β) (found : List (Digest × β)) (missing : List String) :
    Except AnnounceError (Draft β) := do
  let observations ← observeCurated answers.reobservation physical missing
  let replan ← planTags observations base.root (.replace missing) physical.display
  let plan : TagPlan β :=
    { observed := plan.observed ++ replan.observed
      removed := plan.removed ++ replan.removed
      durableMissing := plan.durableMissing.filter (· ∉ replan.removed) }
  pure ⟨regenerate base.root plan request.curated request.ephemeral request.now, plan, found,
    replan.removed⟩

/-- Rebuild the root, with the objects of its carried rows. -/
def draft (codec : Codec β) (answers : Answers β) (base : RootBase β) (request : Request)
    (physical : Physical) (plan : TagPlan β) : Except AnnounceError (Draft β) :=
  let root := regenerate base.root plan request.curated request.ephemeral request.now
  match base.carried with
  | none => .ok ⟨root, plan, [], []⟩
  | some carried => do
    let needing := carriedWithoutHeldObject carried.tags root carried.held
    let fetched ← fetchCarriedObjects codec answers carried.head request.package.repository root
      needing plan.observed
    match fetched.missing with
    | [] => .ok ⟨root, plan, fetched.found, []⟩
    | missing => redraft answers base request physical plan fetched.found missing

/-- The selection may not lose rows. -/
def TagSelection.additive : TagSelection → Bool
  | .replace _ => false
  | .unionFile _ | .refresh | .fromRegistry => true

/-- Refuse a root of an additive selection that has lost a row which is not exempt. -/
def refuseLostTags (selection : TagSelection) (baseTags exempt : List String) (root : Root)
    (path : String) : Except AnnounceError Unit :=
  if selection.additive then
    match droppedCommittedTags baseTags root exempt with
    | [] => .ok ()
    | tags => .error (.committedTagsDropped path tags)
  else .ok ()

/-- Put the new description into the root. -/
def insertDesc (root : Root) (desc : Option DocField) : Root :=
  match desc, root.asObject with
  | some desc, some members => .object (members.insert "desc" desc)
  | _, _ => root

structure Rebuilt (β : Type) where
  root : Root
  rootBytes : β
  files : FileSet β
  observed : List (Observed β)
  reservedDropped : List String
  /-- The description has moved. -/
  descUpdated : Bool
  /-- The tags that are gone and whose rows went. -/
  removed : List String
  /-- The tags that are gone and whose rows stayed. -/
  durableMissing : List String
  droppedCarried : List String
  /-- The carried tags that were kept. -/
  carried : List String

/-- One pass over the committed root. -/
def observeAndRebuild (codec : Codec β) (answers : Answers β) (base : RootBase β)
    (request : Request) : Except AnnounceError (Rebuilt β) := do
  let package := request.package.repository
  let baseTags := committedTagNames base.root
  let physical ← physicalOf codec answers request.package.registry base.root
  let discovered ← discover answers request.curated physical
  let resolved ← resolveCuratedTags request.curated baseTags discovered
  let observations ← observeCurated answers.observation physical resolved.tags
  let plan ← planTags observations base.root request.curated physical.display
  let desc ← observeDesc codec answers physical base.root
  let drafted ← draft codec answers base request physical plan
  refuseLostTags request.curated baseTags (resolved.reservedDropped ++ drafted.plan.removed)
    drafted.root (rootPath package)
  let root ← applyYankMarkers (insertDesc drafted.root desc.desc) request.yank request.unyank
    request.yankReason request.now
  let orphans ← orphanPaths answers base.root root package base.tree
  let rootBytes := codec.serialize root
  pure {
    root := root
    rootBytes := rootBytes
    files := buildFiles (rootPath package) rootBytes package drafted.plan.observed
      drafted.carriedObjects desc.blobs orphans
    observed := drafted.plan.observed
    reservedDropped := resolved.reservedDropped
    descUpdated := desc.desc.isSome
    removed := drafted.plan.removed
    durableMissing := drafted.plan.durableMissing
    droppedCarried := drafted.droppedCarried
    carried := (base.carried.map fun carried =>
      carried.tags.filter (· ∉ drafted.plan.removed)).getD [] }

/-! ### References without an object -/

def writes (files : FileSet β) (path : String) : Bool :=
  match files[path]? with
  | some (.put _) => true
  | _ => false

/-- The possible paths of a reference that the base does not record and that the files do not
write; nothing when it need not be looked for. -/
def unputRef (base : Root) (packageRepo : String) (files : FileSet β)
    (reference : String × Option Extension) : Except AnnounceError (Option (List String)) :=
  if reference ∈ referencedRaw base then .ok none
  else
    match Digest.tryFrom reference.1 with
    | none => .error (.rootReferencesUnwrittenObject reference.1)
    | some digest =>
      let candidates := candidatePaths packageRepo digest reference.2
      if candidates.any (writes files) then .ok none else .ok (some candidates)

/-- The references of the new root that must be looked for. -/
def unputIntroducedRefs (new base : Root) (packageRepo : String) (files : FileSet β) :
    Except AnnounceError (List (List String)) := do
  let suspects ← (referencedRaw new).mapM (unputRef base packageRepo files)
  pure (suspects.filterMap id).eraseDups

def heldAt (answers : Answers β) (tree : Tree β) : List String → Except AnnounceError Bool
  | [] => .ok false
  | path :: rest => do
    match ← readAt answers tree path with
    | some _ => .ok true
    | none => heldAt answers tree rest

/-- Refuse a reference whose object is not in the tree. -/
def refuseUnheld (answers : Answers β) (tree : Tree β) (candidates : List String) :
    Except AnnounceError Unit := do
  if ← heldAt answers tree candidates then .ok ()
  else .error (.rootReferencesUnwrittenObject (" or ".intercalate candidates))

/-- Refuse a root that names an object which the files do not write and the tree does not hold. -/
def refuseUnwrittenRefs (answers : Answers β) (tree : Tree β) (packageRepo : String)
    (new base : Root) (files : FileSet β) : Except AnnounceError Unit := do
  let suspects ← unputIntroducedRefs new base packageRepo files
  suspects.forM (refuseUnheld answers tree)

end Ocx.Announce
