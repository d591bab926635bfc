import Ocx.Oci.Digest
import Ocx.Util.Outcome

/-!
# Package references

The identifier a user, a lock or metadata spells, and the identifiers that are pinned to a digest.
-/

namespace Ocx

open List

structure PackageRef where
  registry : String
  repository : String
  tag : Option String
  digest : Option Digest
deriving DecidableEq

namespace PackageRef

/-- The reference with another digest. -/
def cloneWithDigest (r : PackageRef) (digest : Digest) : PackageRef :=
  { r with digest := some digest }

/-- The reference with another tag, without its digest. -/
def cloneWithTag (r : PackageRef) (tag : String) : PackageRef :=
  { r with
    tag := some (String.ofList (tag.toList.map fun c => if c = '+' then '_' else c))
    digest := none }

def tagOrLatest (r : PackageRef) : String := r.tag.getD "latest"

def withoutTag (r : PackageRef) : PackageRef := { r with tag := none }

/-- This location with the tag and the digest of the logical reference, each dropped when that has
none. -/
def atVersionOf (location logical : PackageRef) : PackageRef :=
  let bare : PackageRef := { location with tag := none, digest := none }
  -- the tag comes first, because it drops a digest
  let tagged := match logical.tag with
    | some tag => bare.cloneWithTag tag
    | none => bare
  match logical.digest with
  | some digest => tagged.cloneWithDigest digest
  | none => tagged

/-- The written form `registry/repository[:tag][@digest]`. -/
def toString (r : PackageRef) : String :=
  r.registry ++ "/" ++ r.repository ++
    (match r.tag with | none => "" | some tag => ":" ++ tag) ++
    (match r.digest with | none => "" | some digest => "@" ++ digest.toString)

end PackageRef

/-- A reference that carries a digest. Equality includes the advisory tag. -/
structure PinnedPackageRef where
  ref : PackageRef
  /-- The reference carries a digest. -/
  pinned : ref.digest.isSome
deriving DecidableEq

namespace PinnedPackageRef

/-- The pinned reference without its advisory tag. -/
def stripAdvisory (r : PinnedPackageRef) : PinnedPackageRef := ⟨r.ref.withoutTag, r.pinned⟩

def digest (r : PinnedPackageRef) : Digest := r.ref.digest.get r.pinned

@[simp] theorem stripAdvisory_stripAdvisory (r : PinnedPackageRef) :
    r.stripAdvisory.stripAdvisory = r.stripAdvisory := rfl

end PinnedPackageRef

/-! ### Repository paths -/

/-- Why a text is not an identifier or a repository path. -/
inductive IdentifierErrorKind
  | empty
  | digestInvalidFormat
  | uppercaseRepository
  /-- More than `maxRepositoryLength` bytes. -/
  | repositoryTooLong
  | directoryTraversal
  /-- An empty segment, or a character that no segment has. -/
  | invalidFormat
deriving DecidableEq, Repr

structure IdentifierError where
  input : String
  /-- Why it was refused. -/
  kind : IdentifierErrorKind
deriving DecidableEq, Repr

/-- The most bytes a repository path may have. -/
def maxRepositoryLength : ℕ := 255

def isRepositorySegmentByte (c : Char) : Bool :=
  c.isLower || c.isDigit || c = '.' || c = '_' || c = '-'

/-- Why a text is not a repository path, if it is not. -/
def repositoryErrorKind (repository : String) : Option IdentifierErrorKind :=
  let segments := repository.toList.splitOn '/'
  if repository.toList.any Char.isUpper then some .uppercaseRepository
  else if maxRepositoryLength < repository.utf8ByteSize then some .repositoryTooLong
  else if segments.any fun s => s = ['.'] || s = ['.', '.'] then some .directoryTraversal
  else if segments.any fun s => s.isEmpty || !s.all isRepositorySegmentByte then
    some .invalidFormat
  else none

/-- A text is a repository path. -/
def PackageRef.validateRepository (repository : String) : Except IdentifierError Unit :=
  match repositoryErrorKind repository with
  | some kind => .error ⟨repository, kind⟩
  | none => .ok ()

/-! ### Reading identifiers -/

/-- An identifier without its digest. -/
def namePart (input : List Char) : List Char := ((splitOnce '@' input).map Prod.fst).getD input

/-- A first segment that names a host. -/
def segmentIsHost (segment : List Char) : Bool :=
  segment.contains '.' || segment.contains ':' || segment = "localhost".toList

/-- A tag has no `+`. -/
def normalizeTag (tag : List Char) : List Char := tag.map fun c => if c = '+' then '_' else c

/-- The tag is what follows the first colon of the last segment. -/
def splitTag (name : List Char) : List Char × Option (List Char) :=
  let (dir, last) := ((rsplitOnce '/' name).map fun p => (p.1 ++ ['/'], p.2)).getD ([], name)
  match splitOnce ':' last with
  | some (stem, tag) => (dir ++ stem, some (normalizeTag tag))
  | none => (name, none)

def prependDomain (name domain : List Char) : List Char :=
  match splitOnce '/' name with
  | none => domain ++ '/' :: name
  | some (left, _) => if segmentIsHost left then name else domain ++ '/' :: name

/-- The digest after the first `@`. -/
def parseDigest (input : String) : Except IdentifierError (Option Digest) :=
  match splitOnce '@' input.toList with
  | none => .ok none
  | some (_, text) =>
    match Digest.tryFrom (String.ofList text) with
    | some digest => .ok (some digest)
    | none => .error ⟨input, .digestInvalidFormat⟩

def parseInternal (input defaultRegistry : String) : Except IdentifierError PackageRef :=
  if input = "" then .error ⟨"", .empty⟩
  else do
    let digest ← parseDigest input
    let named := splitTag (namePart input.toList)
    match splitOnce '/' (prependDomain named.1 defaultRegistry.toList) with
    | none => .error ⟨input, .invalidFormat⟩
    | some (registry, repository) =>
      match repositoryErrorKind (String.ofList repository) with
      | some kind => .error ⟨input, kind⟩
      | none =>
        .ok ⟨String.ofList registry, String.ofList repository, named.2.map String.ofList, digest⟩

theorem repository_of_errorKind {repository : String}
    (h : repositoryErrorKind repository = none) :
    ∀ c ∈ repository.toList, c = '/' ∨ isRepositorySegmentByte c = true := by
  intro c hc
  by_contra hne
  rw [not_or] at hne
  obtain ⟨piece, hpiece, hin⟩ := exists_mem_splitOn hc hne.1
  unfold repositoryErrorKind at h
  dsimp only at h
  split_ifs at h with _ _ _ hbytes
  refine hbytes (any_eq_true.2 ⟨piece, hpiece, ?_⟩)
  simp only [Bool.or_eq_true, Bool.not_eq_true', all_eq_false]
  exact .inr ⟨c, hin, hne.2⟩

/-- What an accepted identifier looks like. -/
structure PackageRef.WellFormed (id : PackageRef) : Prop where
  registry : '/' ∉ id.registry.toList
  repository : ':' ∉ id.repository.toList
  tag : ∀ tag, id.tag = some tag → '+' ∉ tag.toList

theorem plus_notMem_normalizeTag (tag : List Char) : '+' ∉ normalizeTag tag := by
  simp only [normalizeTag, mem_map, not_exists, not_and]
  intro c _
  split_ifs <;> simp_all

theorem normalizeTag_of_notMem {tag : List Char} (h : '+' ∉ tag) : normalizeTag tag = tag :=
  (map_congr_left fun _ hc => if_neg (ne_of_mem_of_not_mem hc h)).trans (map_id' tag)

theorem wellFormed_of_parseInternal {input defaultRegistry : String} {id : PackageRef}
    (h : parseInternal input defaultRegistry = .ok id) : id.WellFormed := by
  unfold parseInternal at h
  split_ifs at h
  obtain ⟨digest, -, h⟩ := bind_eq_ok_iff.1 h
  dsimp only at h
  split at h
  · cases h
  · next registry repository hsplit =>
    split at h
    · cases h
    · next hkind =>
      cases h
      refine ⟨by simpa using (splitOnce_eq_some.1 hsplit).2, fun hcolon => ?_, fun tag htag => ?_⟩
      · rcases repository_of_errorKind hkind ':' hcolon with h | h <;> revert h <;> decide
      · obtain ⟨text, htext, rfl⟩ := Option.map_eq_some_iff.1 htag
        unfold splitTag at htext
        split at htext
        split at htext
        · cases htext
          simpa using plus_notMem_normalizeTag _
        · cases htext

end Ocx
