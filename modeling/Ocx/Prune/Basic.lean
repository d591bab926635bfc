import Ocx.Oci.PackageRef
import Ocx.Util.Triple
import Ocx.Version.Faithful

/-!
# Pruning tags

`ocx package prune` deletes tags of a registry. It selects tags, judges every selected tag against
the root document of an index, and only then deletes, one tag after another, each confirmed gone by
a read. The report has one row per selected tag and is kept whether or not the run fails.

The registry is a parameter: a machine whose answers and next states are given by functions
(`Remote`). The requests to delete are recorded in the order in which they are made.
-/

namespace Ocx

/-! ### Requests -/

/-- Why a registry call failed. -/
inductive ClientError
  /-- The repository does not exist. -/
  | repositoryNotFound (repository : String)
  /-- The credential was refused. -/
  | authentication (message : String)
  | deleteNeedsTag (reference : String)
  /-- The tag is outside the grammar of registries. -/
  | invalidTag (reference : String)
  /-- Any other failure. -/
  | other (message : String)
deriving DecidableEq, Repr

/-- Why a prune stopped. -/
inductive PruneError
  /-- The value is not a pre-release, or one with a build. -/
  | notAPrereleaseFamily (value : String)
  | digestTag (value : String)
  | invalidTag (value reason : String)
  /-- There is no index to ask, and the run is not forced. -/
  | noIndex (package : String)
  /-- The safeguard refused tags. -/
  | refused (package url : String) (durable notInIndex : List String)
  /-- The registry refused the credential of a delete. -/
  | deleteDenied (repository tag : String) (source : ClientError)
  /-- A deleted tag was still served after every confirmation. -/
  | stillPresent (repository tag : String)
  /-- Any other failure of the registry. -/
  | registry (source : ClientError)
deriving DecidableEq, Repr

/-- Read a pre-release without a build. -/
def parsePrereleaseFamily (value : String) : Except PruneError Version :=
  match Version.parse value with
  | some version =>
    if version.hasPrerelease && !version.hasBuild then .ok version
    else .error (.notAPrereleaseFamily value)
  | none => .error (.notAPrereleaseFamily value)

/-- Read a tag that may be deleted. -/
def parseTag (value : String) : Except PruneError String :=
  if ':' ∈ value.toList ∨ '@' ∈ value.toList then .error (.digestTag value)
  else if !isRegistryTag value then
    .error (.invalidTag value
      "a tag is 1 to 128 of A-Z a-z 0-9 _ . - and starts with a letter, digit or _")
  else if (stripFront "__ocx.keep.".toList value.toList).isSome then
    .error (.invalidTag value "keep tags protect their manifest and are never pruned")
  else .ok value

/-- A tag read from the command line. -/
structure TagArgument where
  value : String
  /-- It may be deleted. -/
  parsed : parseTag value = .ok value

/-- A pre-release read from the command line. -/
structure PrereleaseFamily where
  /-- The pre-release. -/
  version : Version
  /-- It is a pre-release without a build. -/
  parsed : ∃ value, parsePrereleaseFamily value = .ok version

/-- Which tags a run considers. -/
inductive PruneSelection
  | tags (tags : List TagArgument)
  /-- Every build of a pre-release and its rolling tag; the newest `keepBuilds` builds and the
  rolling tag are kept. -/
  | prerelease (family : PrereleaseFamily) (keepBuilds : Option UInt32)

/-- What a run does with its selection. -/
structure PruneRequest where
  /-- Which tags are considered. -/
  selection : PruneSelection
  /-- Delete what the index would refuse. -/
  force : Bool
  /-- Report only. -/
  dryRun : Bool

structure RootRow where
  content : Digest
  /-- The tag may be deleted. -/
  ephemeral : Bool
deriving DecidableEq

/-- The root document a run judges by. -/
structure IndexedRoot where
  /-- Where it was read from. -/
  url : String
  /-- The hash of the served bytes. -/
  rootSha256 : Digest
  tags : Std.ExtTreeMap String RootRow

/-- Where a run deletes. -/
structure PruneTarget where
  package : PackageRef
  /-- The repository the tags live in. -/
  repository : PackageRef
  /-- The root, unless no index is configured. -/
  index : Option IndexedRoot

def PruneTarget.row (target : PruneTarget) (tag : String) : Option RootRow :=
  target.index.bind fun indexed => indexed.tags[tag]?

/-! ### The report -/

/-- The final state of a selected tag. -/
inductive PruneAction
  | deleted
  /-- Already gone. -/
  | absent
  /-- A dry run would delete it. -/
  | wouldDelete
  /-- Selected, then kept. -/
  | kept
  | refused
  /-- Never reached. -/
  | notAttempted
deriving DecidableEq, Repr

/-- Why a tag was kept or refused. -/
inductive PruneReason
  | newest
  | rolling
  /-- Listed in the index without the ephemeral marker. -/
  | durable
  /-- In the registry but not in the index. -/
  | notInIndex
deriving DecidableEq, Repr

/-- A row of the report. -/
structure PruneTag where
  tag : String
  /-- The content in the root, else the digest the registry served. -/
  digest : Option Digest
  /-- The state of the tag. -/
  action : PruneAction
  /-- Why it was kept or refused. -/
  reason : Option PruneReason
  /-- Whether the root lists it. -/
  inRoot : Bool
deriving DecidableEq

/-- What a run did. -/
structure PruneOutcome where
  package : PackageRef
  /-- The repository the tags live in. -/
  repository : PackageRef
  /-- Which tags were considered. -/
  selection : PruneSelection
  /-- Whether the run was forced. -/
  force : Bool
  dryRun : Bool
  /-- Where the root was read from, and its hash. -/
  index : Option (String × Digest)
  /-- The rows, in processing order. -/
  tags : List PruneTag
  selected : Bool

def PruneTag.isGone (row : PruneTag) : Bool := row.action == .deleted || row.action == .absent

/-- The tags to remove from the index, unless the run writes no file. -/
def PruneOutcome.tagsFileEntries (outcome : PruneOutcome) : Option (List String) :=
  if outcome.dryRun || !outcome.selected then none
  else some ((outcome.tags.filter fun row => row.inRoot && row.isGone).map (·.tag))

/-! ### The registry -/

/-- Whether a registry has a manifest. -/
inductive ManifestPresence
  /-- It served the manifest under a digest. -/
  | present (digest : Digest)
  /-- It answered that there is none. -/
  | absent
deriving DecidableEq

/-- How a registry answered a delete. -/
inductive DeleteOutcome
  /-- The tag was removed. -/
  | deleted
  /-- The tag was not there. -/
  | alreadyAbsent
deriving DecidableEq, Repr

/-- A registry: the answer to each request in each state, and the state after it. -/
structure Remote (σ : Type) where
  listTags : σ → PackageRef → Except ClientError (List String) × σ
  probeManifest : σ → PackageRef → Except ClientError ManifestPresence × σ
  deleteManifest : σ → PackageRef → Except ClientError DeleteOutcome × σ

namespace Prune

/-- The state of a run. -/
structure Session (σ : Type) where
  /-- The state of the registry. -/
  remote : σ
  /-- The references of the requests to delete, in order. -/
  deletes : List PackageRef
  outcome : PruneOutcome

/-- A step of a run. -/
abbrev Pruning (σ : Type) := Fallible (Session σ) PruneError

variable {σ : Type} (remote : Remote σ)

def call {α : Type} (request : σ → Except ClientError α × σ) :
    Pruning σ (Except ClientError α) := do
  let s ← get
  set { s with remote := (request s.remote).2 }
  return (request s.remote).1

/-- Fail with the error of a request. -/
def orRegistry {α : Type} : Except ClientError α → Pruning σ α
  | .ok a => pure a
  | .error e => throw (.registry e)

/-- List the tags of a repository, none when it does not exist. -/
def listTagsOrEmpty (repository : PackageRef) : Pruning σ (List String) := do
  match ← call (remote.listTags · repository) with
  | .error (.repositoryNotFound _) => return []
  | answer => orRegistry answer

/-- Whether the tag of a reference is outside the grammar. -/
def hasInvalidTag (reference : PackageRef) : Bool :=
  reference.tag.any (!isRegistryTag ·)

/-- Read a manifest from its registry. -/
def probeManifestCanonical (reference : PackageRef) : Pruning σ ManifestPresence :=
  if hasInvalidTag reference then throw (.registry (.invalidTag reference.toString))
  else do
    let answer ← call (remote.probeManifest · reference)
    orRegistry answer

/-- Delete a tag. A request is made only for a reference with a valid tag and no digest. -/
def deleteTag (reference : PackageRef) : Pruning σ (Except ClientError DeleteOutcome) :=
  if reference.tag.isNone || reference.digest.isSome then
    return .error (.deleteNeedsTag reference.toString)
  else if hasInvalidTag reference then return .error (.invalidTag reference.toString)
  else do
    modify fun s => { s with deletes := s.deletes ++ [reference] }
    call (remote.deleteManifest · reference)

/-! ### Selecting -/

/-- Sort a listed tag into the builds of a pre-release, or take it for the rolling tag. -/
def sortTag (family : Version) (acc : List (Version × String) × Option String) (tag : String) :
    List (Version × String) × Option String :=
  match Version.parse tag with
  | none => acc
  | some version =>
    if version = family then (acc.1, some tag)
    else if version.hasBuild && version.parent == some family then
      (acc.1 ++ [(version, tag)], acc.2)
    else acc

/-- The builds of a pre-release among the listed tags, oldest first. -/
def sortedBuilds (family : Version) (listing : List String) : List (Version × String) :=
  (listing.foldl (sortTag family) ([], none)).1.insertionSort fun l r => l.1 ≤ r.1

/-- The selected tags of a pre-release in processing order, each with the reason to keep it. -/
def selectFamily (family : Version) (keepBuilds : Option UInt32) (listing : List String) :
    List (String × Option PruneReason) :=
  let builds := sortedBuilds family listing
  let keep := (keepBuilds.map UInt32.toNat).getD 0
  let firstKept := builds.length - keep
  (builds.zipIdx.map fun build =>
    (build.1.2, if firstKept ≤ build.2 then some .newest else none)) ++
  (listing.foldl (sortTag family) ([], none)).2.toList.map fun tag =>
    (tag, keepBuilds.map fun _ => .rolling)

/-- The selected tags in processing order, each with the reason to keep it. -/
def select (target : PruneTarget) : PruneSelection → Pruning σ (List (String × Option PruneReason))
  | .tags tags => return (tags.map (·.value)).eraseDups.map fun tag => (tag, none)
  | .prerelease family keepBuilds => do
    let listing ← listTagsOrEmpty remote
      { target.repository with tag := none, digest := none }
    return selectFamily family.version keepBuilds listing

/-! ### Judging -/

/-- The verdict on a selected tag. -/
inductive Verdict
  | keep (reason : PruneReason)
  | delete
  /-- It is gone already. -/
  | absent
  | refuse (reason : PruneReason)
deriving DecidableEq, Repr

/-- The verdict on a tag, with the digest to report and whether the root lists the tag. A tag that
the root does not list is looked for in the registry. -/
def judge (target : PruneTarget) (tag : String) (kept : Option PruneReason) (force : Bool) :
    Pruning σ (Verdict × Option Digest × Bool) :=
  match kept, target.row tag with
  | some reason, row => return (.keep reason, row.map (·.content), row.isSome)
  | none, some row =>
    return (if row.ephemeral || force then .delete else .refuse .durable, some row.content, true)
  | none, none => do
    match ← probeManifestCanonical remote (target.repository.cloneWithTag tag) with
    | .present digest =>
      return (if force then .delete else .refuse .notInIndex, some digest, false)
    | .absent => return (.absent, none, false)

def rowState (dryRun : Bool) : Verdict → PruneAction × Option PruneReason
  | .keep reason => (.kept, some reason)
  | .refuse reason => (.refused, some reason)
  | .absent => (.absent, none)
  | .delete => (if dryRun then .wouldDelete else .notAttempted, none)

/-- Judge a selected tag and report it. -/
def judgeRow (target : PruneTarget) (request : PruneRequest)
    (item : String × Option PruneReason) : Pruning σ Verdict := do
  let judged ← judge remote target item.1 item.2 request.force
  let state := rowState request.dryRun judged.1
  modify fun s => { s with outcome.tags := s.outcome.tags ++
    [⟨item.1, judged.2.1, state.1, state.2, judged.2.2⟩] }
  return judged.1

/-! ### Deleting -/

/-- How often a delete is confirmed. -/
def confirmTries : ℕ := 3

/-- Read a deleted tag until it is gone. -/
def confirm (repository : PackageRef) (tag : String) (answer : DeleteOutcome) :
    ℕ → Pruning σ PruneAction
  | 0 => throw (.stillPresent repository.toString tag)
  | tries + 1 => do
    match ← probeManifestCanonical remote (repository.cloneWithTag tag) with
    | .absent => return if answer = .deleted then .deleted else .absent
    | .present _ => confirm repository tag answer tries

def deleteAndConfirm (repository : PackageRef) (tag : String) : Pruning σ PruneAction := do
  match ← deleteTag remote (repository.cloneWithTag tag) with
  | .ok answer => confirm remote repository tag answer confirmTries
  | .error (.authentication message) =>
    throw (.deleteDenied repository.toString tag (.authentication message))
  | .error error => throw (.registry error)

/-- Report the state of a row. -/
def setAction (position : ℕ) (action : PruneAction) (rows : List PruneTag) : List PruneTag :=
  rows.modify position fun row => { row with action := action }

/-- Delete the tag of a row when its verdict says so, and report how that went. -/
def deleteRow (target : PruneTarget) (item : Verdict × ℕ) : Pruning σ PUnit := do
  let s ← get
  match item.1, s.outcome.tags[item.2]? with
  | .delete, some row => do
    let action ← deleteAndConfirm remote target.repository row.tag
    modify fun s => { s with outcome.tags := setAction item.2 action s.outcome.tags }
  | _, _ => return ⟨⟩

/-! ### The run -/

def refusedTags (outcome : PruneOutcome) (reason : PruneReason) : List String :=
  (outcome.tags.filter fun row => row.action == .refused && row.reason == some reason).map (·.tag)

/-- A row of a run that was stopped by a refusal. -/
def stopped (row : PruneTag) : PruneTag :=
  if row.action = .wouldDelete ∨ row.action = .absent then { row with action := .notAttempted }
  else row

/-- Stop when the safeguard refused a tag. -/
def checkRefused (target : PruneTarget) : Pruning σ PUnit := do
  let s ← get
  let durable := refusedTags s.outcome .durable
  let notInIndex := refusedTags s.outcome .notInIndex
  if durable = [] ∧ notInIndex = [] then return ⟨⟩
  else do
    modify fun s => { s with outcome.tags := s.outcome.tags.map stopped }
    throw (.refused target.package.toString ((target.index.map (·.url)).getD "") durable notInIndex)

/-- Select, judge the whole selection, then delete. -/
def run (target : PruneTarget) (request : PruneRequest) : Pruning σ PUnit :=
  if target.index.isNone && !request.force then throw (.noIndex target.package.toString)
  else do
    let selected ← select remote target request.selection
    modify fun s => { s with outcome.selected := true }
    let verdicts ← selected.mapM (judgeRow remote target request)
    checkRefused target
    if request.dryRun then return ⟨⟩
    else verdicts.zipIdx.forM (deleteRow remote target)

end Prune

/-- A run's report, its error, and what it left behind. -/
structure PruneRun (σ : Type) where
  outcome : PruneOutcome
  /-- Why the run failed. -/
  error : Option PruneError
  /-- The references of the requests to delete, in order. -/
  deletes : List PackageRef
  /-- The registry after the run. -/
  remote : σ

/-- The report before anything is done. -/
def emptyOutcome (target : PruneTarget) (request : PruneRequest) : PruneOutcome where
  package := target.package
  repository := target.repository
  selection := request.selection
  force := request.force
  dryRun := request.dryRun
  index := target.index.map fun indexed => (indexed.url, indexed.rootSha256)
  tags := []
  selected := false

/-- Prune a repository from a state of its registry. -/
def prune {σ : Type} (remote : Remote σ) (target : PruneTarget) (request : PruneRequest) (s : σ) :
    PruneRun σ :=
  let result := runAt (Prune.run remote target request) ⟨s, [], emptyOutcome target request⟩
  { outcome := result.2.outcome
    error := match result.1 with | .ok _ => none | .error e => some e
    deletes := result.2.deletes
    remote := result.2.remote }

end Ocx
