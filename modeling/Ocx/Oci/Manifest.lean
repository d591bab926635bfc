import Ocx.Oci.Digest
import Ocx.Oci.Platform

/-!
# Image indexes

A tag of a registry names a manifest: an image index, with one entry per platform, or a bare image
manifest. Only the fields that the tag graph reads or writes are kept.
-/

namespace Ocx

abbrev Annotations := Std.ExtTreeMap String String

@[ext] structure ImageIndexEntry where
  mediaType : String
  /-- The digest of the manifest, as written. -/
  digest : String
  size : ℤ
  platform : Option NativePlatform
  artifactType : Option String
  annotations : Option Annotations
deriving DecidableEq

@[ext] structure ImageIndex where
  /-- The version of the document format. -/
  schemaVersion : UInt8
  mediaType : Option String
  artifactType : Option String
  manifests : List ImageIndexEntry
  annotations : Option Annotations
deriving DecidableEq

/-- A manifest of a registry. The content of a bare image manifest is not read. -/
inductive Manifest
  /-- A bare image manifest. -/
  | image
  | imageIndex (index : ImageIndex)
deriving DecidableEq

/-- A tag exactly as the registry serves it. -/
structure ObservedTag where
  digest : Digest
  /-- The length of the served body. -/
  size : ℤ
  manifest : Manifest
deriving DecidableEq

/-- An index as the registry serves it once written; `body` is its digest and length. -/
def written (body : ImageIndex → Digest × ℤ) (index : ImageIndex) : ObservedTag :=
  ⟨(body index).1, (body index).2, .imageIndex index⟩

def mediaTypeOciImageManifest : String := "application/vnd.oci.image.manifest.v1+json"

def mediaTypeOciImageIndex : String := "application/vnd.oci.image.index.v1+json"

def mediaTypePackageV1 : String := "application/vnd.sh.ocx.package.v1"

def indexSchemaVersion : UInt8 := 2

/-- Whether the manifest is an index with an entry for the platform. -/
def hasPlatform (manifest : Manifest) (platform : Platform) : Bool :=
  match manifest with
  | .image => false
  | .imageIndex index => index.manifests.any (fun e => e.platform == some platform.toNative)

/-- The entry that stands for a bare manifest in an index. -/
def wrapManifest (digest : String) (size : ℤ) : ImageIndexEntry :=
  ⟨mediaTypeOciImageManifest, digest, size, none, none, none⟩

end Ocx
