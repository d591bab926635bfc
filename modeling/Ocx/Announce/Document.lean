import Ocx.Index.Basic
import Ocx.Util.OrderedMap

/-!
# Index roots as announce reads them

An announce reads the root document of its package as plain JSON and writes it back, with every
field it does not know and with the order of the keys.  A value is modelled down to the fields of a
yank marker, the deepest level that is written; what is below is kept as text.

A root names objects by digest: the image index of each tag, the readme and the logo.  The extension
of a logo is not recorded, so that a logo has two possible paths.
-/

namespace Ocx.Announce

open List

variable {digest : Digest} {packageRepo : String}

/-! ### JSON -/

/-- A JSON value whose objects keep the order of their keys. -/
abbrev Value (α : Type) := JsonNode α (OrderedMap String α)

instance {α : Type} [DecidableEq α] : DecidableEq (Value α) := inferInstance

/-- A member of an object. -/
def Value.get {α : Type} (value : Value α) (key : String) : Option α :=
  value.asObject.bind (·.get key)

@[simp] theorem Value.get_object {α : Type} (members : OrderedMap String α) (key : String) :
    Value.get (.object members) key = members.get key := rfl

/-- A field of a yank marker. -/
abbrev MarkerField := Value String

/-- A field of a tag row. -/
abbrev RowField := Value MarkerField

/-- The row of a tag. -/
abbrev TagRow := Value RowField

/-- A field of a root document. -/
abbrev DocField := Value TagRow

/-- A root document. -/
abbrev Root := Value DocField

/-! ### Tags -/

def tagRows (root : Root) : Option (OrderedMap String TagRow) :=
  (root.get "tags").bind JsonNode.asObject

/-- The tag names of a root, in the order of the document. -/
def committedTagNames (root : Root) : List String := ((tagRows root).map OrderedMap.keys).getD []

def tagRow (root : Root) (tag : String) : Option TagRow := (tagRows root).bind (·.get tag)

/-- The digest a row names, as written. -/
def rowContent (row : TagRow) : Option String := (row.get "content").bind JsonNode.asString

/-- Only a JSON `true` marks a row as removable. -/
def isEphemeral (row : TagRow) : Bool := row.get "ephemeral" = some (.bool true)

variable {root : Root} {extension : Option Extension}

theorem mem_committedTagNames_iff {tag : String} :
    tag ∈ committedTagNames root ↔ (tagRow root tag).isSome := by
  unfold committedTagNames tagRow
  cases tagRows root with
  | none => simp
  | some rows => simp [OrderedMap.get_isSome_iff]

/-! ### Objects -/

inductive Extension
  /-- An image index. -/
  | json
  | md
  | png
  | svg
deriving DecidableEq

def Extension.text : Extension → String
  | json => "json"
  | md => "md"
  | png => "png"
  | svg => "svg"

def descField (root : Root) (key : String) : Option String :=
  ((root.get "desc").bind (·.get key)).bind JsonNode.asString

/-- Every reference to an object that a root records, as written, with the extension of the object;
a logo has none. -/
def referencedRaw (root : Root) : List (String × Option Extension) :=
  ((((tagRows root).map OrderedMap.values).getD []).filterMap rowContent).map (·, some .json) ++
    ((descField root "readme").toList.map (·, some .md) ++
      (descField root "logo").toList.map (·, none))

/-- Every object that a root names. A reference that is no digest names none. -/
def referencedObjects (root : Root) : List (Digest × Option Extension) :=
  (referencedRaw root).filterMap fun (raw, extension) =>
    (Digest.tryFrom raw).map (·, extension)

def objectPath (packageRepo : String) (digest : Digest) (extension : Extension) : String :=
  "p/" ++ packageRepo ++ "/o/" ++ digest.algorithm.name ++ "/" ++ digest.hex ++ "." ++
    extension.text

def candidatePaths (packageRepo : String) (digest : Digest) : Option Extension → List String
  | some extension => [objectPath packageRepo digest extension]
  | none => [objectPath packageRepo digest .png, objectPath packageRepo digest .svg]

def rootPath (package : String) : String := "p/" ++ package ++ ".json"

/-! ### Paths determine digests -/

theorem exists_extension_of_mem_candidatePaths {path : String}
    (h : path ∈ candidatePaths packageRepo digest extension) :
    ∃ e, path = objectPath packageRepo digest e := by
  cases extension with
  | some e => exact ⟨e, by simpa [candidatePaths] using h⟩
  | none =>
    simp only [candidatePaths, mem_cons, not_mem_nil, or_false] at h
    rcases h with rfl | rfl
    exacts [⟨_, rfl⟩, ⟨_, rfl⟩]

end Ocx.Announce
