import Ocx.Index.Merge
import Ocx.Oci.Manifest
import Ocx.Store.Layout
import Ocx.Util.Consult
import Ocx.Version.Tag

/-!
# The documents and files of the local index

The local index keeps, for each source it copies, a version file `config.json`, a catalog, a root
document per repository that pins tags to content digests, and the image indexes those digests name
(dispatch objects).  Manifests and other blobs are kept in the blob store of the machine.

Files are read and written through a state: a file is absent, cannot be read, or has some bytes.
Hashing and parsing of bytes, and which writes fail, are parameters (`IndexEnv`).
-/

namespace Ocx

/-- File contents. -/
abbrev Bytes := List UInt8

/-- How a chained index uses its local index and its sources. -/
inductive ChainMode
  /-- Local index first. -/
  | default
  /-- Mutable lookups go to the sources. -/
  | remote
  /-- Local index only. -/
  | offline
  /-- No new tag is resolved, but content is fetched. -/
  | frozen
deriving DecidableEq, Repr

/-- The name of the mode in messages. -/
def ChainMode.policyLabel : ChainMode → String
  | default => "default"
  | remote => "remote"
  | offline => "offline"
  | frozen => "frozen"

/-- What a caller wants of a manifest lookup. -/
inductive IndexOperation
  /-- A pure read. -/
  | query
  /-- A read with write-through. -/
  | resolve
deriving DecidableEq, Repr

/-- Whether a source answers for a name, and what its silence means. -/
inductive Jurisdiction
  /-- Its miss or refusal is terminal. -/
  | authoritative
  /-- Its miss falls through to the next source. -/
  | fallThrough
  /-- It is never asked. -/
  | outside
deriving DecidableEq, Repr

/-- Whether a source is a published copy, or derived from a plain registry. -/
inductive SourceKind
  /-- A published copy, with a catalog. -/
  | published
  | derived
deriving DecidableEq, Repr

/-- How much a resolve may write into the local index. -/
inductive LocalWritePolicy
  /-- Dispatch objects and tag pointers. -/
  | full
  /-- Dispatch objects. -/
  | noTag
  | readOnly
deriving DecidableEq, Repr

inductive IndexError
  /-- A document without a name could not be parsed. -/
  | serializationFailure
  /-- Stored bytes do not hash to the digest they are stored under. -/
  | digestMismatch (claimed computed : Digest)
  | malformedRootDocument (source repository : String)
  /-- A name leads out of the index home. -/
  | repositoryEscapesIndexHome (repository : String)
  | file (name : String)
  | invalidImageIndex
  | yankedRefused (identifier : PackageRef)
  | unsupportedIndexFormat (version : ℕ)
  | malformedIndexDocument
  /-- A root's repository pointer is malformed. -/
  | malformedPhysicalRef (value : String)
  /-- A derived root belongs to another repository. -/
  | rootRepositoryMismatch (repository expected found : String)
  /-- A policy refuses to ask a source. -/
  | policyResolutionBlocked (identifier : PackageRef) (policy : String)
  /-- The authoritative index has no such entry. -/
  | notInIndex (identifier : PackageRef) (registry baseUrl : String)
  /-- A source answered a digest with another one. -/
  | walkedDigestMismatch (requested answered : Digest)
  | sourceWalkFailed (cause : IndexError)
  /-- A fetch that several callers shared failed. -/
  | sourceFetchFailed (cause : IndexError)
  /-- The site of a published index could not be reached. -/
  | indexHttpFailed (url : String)
  /-- The guard of physical locations refused one. -/
  | ssrf (registry : String)
  /-- A source failed in some other way. -/
  | sourceFailed (message : String)
deriving DecidableEq

/-- A stored object is there but corrupt. -/
def isCorruptIndexObject : IndexError → Bool
  | .digestMismatch _ _ => true
  | .invalidImageIndex => true
  | _ => false

/-- A refusal of the local read that no source may override. -/
def isLocalReadRefusal : IndexError → Bool
  | .yankedRefused _ => true
  | .unsupportedIndexFormat _ => true
  | .malformedIndexDocument => true
  | .file name => name = "config.json"
  | _ => false

/-- The failure a shared fetch was handed. -/
def coalescedCause : IndexError → IndexError
  | .sourceFetchFailed cause => cause
  | e => e

/-- The source could not be reached. -/
def isSourceOutage (e : IndexError) : Bool :=
  match coalescedCause e with
  | .indexHttpFailed _ => true
  | _ => false

/-! ### Documents -/

structure DerivedTag where
  /-- The digest of the image index the tag names. -/
  content : Digest
  observed : String

/-- A root document that is derived from a registry. -/
structure DerivedRoot where
  repository : String
  tags : Std.ExtTreeMap String DerivedTag

/-- A catalog: for each repository, the digest of its root document. -/
abbrev CatalogIndex := Std.ExtTreeMap String String

/-- A catalog with its format version. -/
structure CatalogDocument where
  formatVersion : ℕ
  packages : CatalogIndex

def supportedFormatVersion : ℕ := 1

/-- Refuse any other format version. -/
def gateFormatVersion (version : ℕ) : Except IndexError Unit :=
  if version = supportedFormatVersion then .ok () else .error (.unsupportedIndexFormat version)

def validateImageIndex (index : ImageIndex) : Except IndexError Unit :=
  if index.schemaVersion = indexSchemaVersion ∧
      ∀ e ∈ index.manifests, e.mediaType ≠ "" ∧ e.digest ≠ "" ∧ 0 ≤ e.size then .ok ()
  else .error .invalidImageIndex

/-! ### Files -/

/-- The files the index uses. Sources are named by their directories. -/
inductive IndexFile
  | config (source : String)
  /-- `c/index.json`. -/
  | catalog (source : String)
  | root (source repository : String)
  | object (source repository : String) (digest : Digest)
  | blob (registry : String) (shard : Path)
deriving DecidableEq

def IndexFile.fileName : IndexFile → String
  | config _ => "config.json"
  | catalog _ => "index.json"
  | root _ repository => (repositoryPath repository).getLastD "" ++ ".json"
  | object _ _ digest => digest.hex ++ ".json"
  | blob _ _ => "data"

inductive FileState
  /-- There is no such file. -/
  | absent
  /-- Reading it fails. -/
  | unreadable
  | content (bytes : Bytes)
deriving DecidableEq

structure IndexState where
  files : IndexFile → FileState
  /-- The sources whose format version was checked. -/
  gatedSources : List String

/-- Hashing, parsing, guards and failing writes. -/
structure IndexEnv where
  hash : Algorithm → Bytes → Digest
  parseManifest : Bytes → Option Manifest
  parseImageIndex : Bytes → Option ImageIndex
  /-- Reading, writing and merging published roots. -/
  docs : DocCodec Bytes
  /-- Parse the format version of `config.json`. -/
  parseConfig : Bytes → Option ℕ
  parseCatalog : Bytes → Option CatalogDocument
  serializeCatalog : CatalogIndex → Bytes
  /-- The `config.json` that is written for a new source. -/
  newConfig : Bytes
  parseDerivedRoot : Bytes → Option DerivedRoot
  serializeDerivedRoot : DerivedRoot → Bytes
  /-- The time of the operation. -/
  now : String
  wellFormedPointer : String → Bool
  /-- A path stays under the index home. -/
  contained : String → Bool
  /-- The failure of a write. -/
  fault : IndexFile → Option IndexError

/-- Operations on the local index. -/
abbrev LocalM := Fallible IndexState IndexError

end Ocx
