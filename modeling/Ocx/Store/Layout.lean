import Ocx.Oci.PackageRef
import Ocx.Util.Map
import Ocx.Util.Reach

/-!
# The object store

Packages, layers, blobs and shims live in directories of four content-addressed tiers.  A package
directory holds links: to the packages, layers and blobs it needs (`refs/deps`, `refs/layers`,
`refs/blobs`), and back to the install links that use it (`refs/symlinks`).  A shim directory
holds links to blobs.  All paths are canonical, so that two paths name one directory exactly when
they are equal.

The store is not the whole file system: an install link lies outside of it and leads somewhere,
possibly into an entry.  A `LinkView` says, for each path, which entry directories its resolution
runs through.
-/

namespace Ocx

open List

/-! ### Paths -/

/-- A canonical absolute path, by its components. -/
abbrev Path := List String

instance : LawfulBEq Path := inferInstance

/-- The directory a path lies in. -/
def parentDir (p : Path) : Option Path := if p = [] then none else some p.dropLast

/-- A character that a path segment keeps. -/
def isRelaxedSlugChar (c : Char) : Bool := c.isAlphanum || c = '.' || c = '_' || c = '-'

/-- A registry name as a path segment. -/
def slugify (value : String) : String :=
  String.ofList (value.toList.map fun c => if isRelaxedSlugChar c then c else '_')

/-- A repository name as a relative path. -/
def repositoryPath (repository : String) : Path :=
  ((repository.toList.splitOn '/').map String.ofList).filter (· ≠ "")

/-- The shard of a digest: `<algorithm>/<2 hex>/<30 hex>`. -/
def casShardPath (d : Digest) : Path :=
  [d.algorithm.name, String.ofList (d.hex.toList.take 2),
    String.ofList ((d.hex.toList.take 32).drop 2)]

/-- Where the four tiers are. -/
structure FileStructure where
  /-- The root of the package tier. -/
  packages : Path
  /-- The root of the layer tier. -/
  layers : Path
  /-- The root of the blob tier. -/
  blobs : Path
  /-- The root of the shim tier. -/
  shims : Path

namespace FileStructure

variable (fs : FileStructure)

def packagePath (r : PinnedPackageRef) : Path :=
  fs.packages ++ slugify r.ref.registry :: casShardPath r.digest

def shimPath (r : PinnedPackageRef) : Path :=
  fs.shims ++ slugify r.ref.registry :: repositoryPath r.ref.repository ++ casShardPath r.digest

def blobPath (registry : String) (digest : Digest) : Path :=
  fs.blobs ++ slugify registry :: casShardPath digest

end FileStructure

/-! ### Entries -/

/-- A file of a `refs` directory. -/
structure RefEntry where
  fileName : String
  /-- What the file points at, when it is a link that can be read. -/
  link : Option Path
deriving DecidableEq

structure PackageDir where
  dir : Path
  /-- `refs/symlinks`: back-references to install links. -/
  symlinks : List RefEntry
  deps : List RefEntry
  layers : List RefEntry
  blobs : List RefEntry

structure BlobData where
  size : ℕ
  /-- The digests of the manifests it lists, when it parses as an image index. -/
  index : Option (List String)

structure BlobDir where
  dir : Path
  /-- The data file, when it can be read. -/
  data : Option BlobData

structure ShimDir where
  dir : Path
  blobs : List RefEntry

/-- The content of the four tiers. -/
structure Store where
  packages : List PackageDir
  layers : List Path
  blobs : List BlobDir
  shims : List ShimDir
  /-- Directories with references are listed once. -/
  distinct : (packages.map PackageDir.dir ++ shims.map ShimDir.dir).Nodup

namespace Store

variable (S : Store)

def allEntries : List Path :=
  S.packages.map PackageDir.dir ++ S.layers ++ S.blobs.map BlobDir.dir ++ S.shims.map ShimDir.dir

/-- The store without the entries of `targets`. -/
def delete (targets : List Path) : Store where
  packages := S.packages.filter (·.dir ∉ targets)
  layers := S.layers.filter (· ∉ targets)
  blobs := S.blobs.filter (·.dir ∉ targets)
  shims := S.shims.filter (·.dir ∉ targets)
  distinct := by
    refine S.distinct.sublist (List.Sublist.append ?_ ?_)
    · exact filter_sublist.map _
    · exact filter_sublist.map _

variable {S} {targets : List Path} {p : Path}

theorem mem_allEntries_delete :
    p ∈ (S.delete targets).allEntries ↔ p ∈ S.allEntries ∧ p ∉ targets := by
  simp only [allEntries, delete, mem_append, mem_map, mem_filter,
    decide_eq_true_eq]
  grind

theorem eq_of_dir_eq {a b : PackageDir} (ha : a ∈ S.packages) (hb : b ∈ S.packages)
    (h : a.dir = b.dir) : a = b :=
  inj_on_of_nodup_map (nodup_append.1 S.distinct).1 ha hb h

end Store

/-! ### Links that lead out of the store -/

/-- For each path, the entry directories its resolution runs through, when it leads anywhere. -/
abbrev LinkView := Path → Option (List Path)

/-- A path resolves: it leads somewhere, and the entries on the way are there. -/
def pathExistsLossy (view : LinkView) (S : Store) (p : Path) : Bool :=
  match view p with
  | none => false
  | some through => through.all (· ∈ S.allEntries)

theorem pathExistsLossy_iff {view : LinkView} {S : Store} {p : Path} :
    pathExistsLossy view S p = true ↔
      ∃ through, view p = some through ∧ ∀ d ∈ through, d ∈ S.allEntries := by
  unfold pathExistsLossy
  cases view p <;> simp

end Ocx
