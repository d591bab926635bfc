import Ocx.Oci.Digest
import Ocx.Util.Map

/-!
# Published root documents

A root document is JSON written by somebody else.  It is read twice: as plain JSON, which keeps
every field, and as a typed root, which looks only at the fields it knows.  A value is modelled down
to the fields of a yank marker, the deepest level the typed reader looks at; what is below is kept
as text. The order of the keys of an object carries no meaning.

A typed record is read from a JSON object by the names of its fields, or from a JSON array by their
order.
-/

namespace Ocx

open Option

/-! ### JSON -/

/-- A JSON value, with the values below it. The members of an object are `μ`, so that they may have
an order or not. -/
inductive JsonNode (α μ : Type)
  | null
  | bool (value : Bool)
  | number (text : String)
  | string (text : String)
  | array (items : List α)
  | object (members : μ)
deriving DecidableEq

namespace JsonNode

variable {α μ : Type}

/-- The members of an object. -/
def asObject : JsonNode α μ → Option μ
  | object members => some members
  | _ => none

/-- The text of a string. -/
def asString : JsonNode α μ → Option String
  | string text => some text
  | _ => none

end JsonNode

/-- A JSON value whose objects have no order. -/
abbrev PlainNode (α : Type) := JsonNode α (Std.ExtTreeMap String α)

instance {α : Type} [DecidableEq α] : DecidableEq (PlainNode α) := inferInstance

/-- The member of an object. -/
def JsonNode.get {α : Type} (node : PlainNode α) (key : String) : Option α :=
  match node with
  | object members => members[key]?
  | _ => none

/-- A field of a yank marker. -/
abbrev MarkerField := PlainNode String

/-- A field of a tag row. -/
abbrev RowField := PlainNode MarkerField

/-- The row of a tag. -/
abbrev TagRow := PlainNode RowField

/-- A field of a root document. -/
abbrev DocField := PlainNode TagRow

/-- A root document. -/
abbrev RootDoc := PlainNode DocField

/-! ### Typed reading -/

/-- The fields of a record: by name in an object, by position in an array that is not too long. -/
def JsonNode.record {α : Type} (names : List String) : PlainNode α → Option (String → Option α)
  | object members => some fun name => members[name]?
  | array items =>
    if items.length ≤ names.length then some fun name => items[names.idxOf name]? else none
  | _ => none

/-- A text that is empty when it is absent. -/
def readDefaultString {α : Type} : Option (PlainNode α) → Option String
  | none => some ""
  | some node => node.asString

/-- A text that may be absent or null. -/
def readOptionString {α : Type} : Option (PlainNode α) → Option (Option String)
  | none => some none
  | some .null => some none
  | some node => node.asString.map some

structure YankMarker where
  /-- Why the tag was yanked. -/
  reason : String
  date : String
deriving DecidableEq

def YankMarker.read (node : RowField) : Option YankMarker := do
  let field ← node.record ["reason", "at"]
  let reason ← readDefaultString (field "reason")
  let date ← readDefaultString (field "at")
  some ⟨reason, date⟩

/-- Read a yank marker that may be absent or null. -/
def readYanked : Option RowField → Option (Option YankMarker)
  | none => some none
  | some .null => some none
  | some node => (YankMarker.read node).map some

structure RootTag where
  /-- The digest of the image index the tag names. -/
  content : Digest
  yanked : Option YankMarker
  /-- The publisher makes no promise to keep the tag. -/
  ephemeral : Bool
deriving DecidableEq

/-- Read a tag row. Only a JSON `true` marks it as ephemeral. -/
def RootTag.read (row : TagRow) : Option RootTag := do
  let field ← row.record ["content", "yanked", "ephemeral"]
  let content ← ((field "content").bind JsonNode.asString).bind Digest.tryFrom
  let yanked ← readYanked (field "yanked")
  some ⟨content, yanked, field "ephemeral" = some (.bool true)⟩

structure IndexRoot where
  /-- The physical location of the content. -/
  repository : String
  tags : Std.ExtTreeMap String RootTag
  status : Option String
  deprecatedMessage : Option String
  supersededBy : Option String

/-- Read the tags; absent ones are none. -/
def readTags : Option DocField → Option (Std.ExtTreeMap String RootTag)
  | none => some ∅
  | some (.object rows) =>
    if rows.toList.all fun p => (RootTag.read p.2).isSome then
      some (rows.filterMap fun _ row => RootTag.read row)
    else none
  | some _ => none

/-- The fields of a root, in their order. -/
def rootFields : List String :=
  ["repository", "tags", "status", "deprecated_message", "superseded_by"]

/-- Read a root document. Other fields are ignored. -/
def IndexRoot.read (doc : RootDoc) : Option IndexRoot := do
  let field ← doc.record rootFields
  let repository ← (field "repository").bind JsonNode.asString
  let tags ← readTags (field "tags")
  let status ← readOptionString (field "status")
  let deprecatedMessage ← readOptionString (field "deprecated_message")
  let supersededBy ← readOptionString (field "superseded_by")
  some ⟨repository, tags, status, deprecatedMessage, supersededBy⟩

/-! ### Object documents -/

/-- The fields of an object document. -/
abbrev DocFields := Std.ExtTreeMap String DocField

/-- The tag rows of an object document. -/
abbrev TagRows := Std.ExtTreeMap String TagRow

def rowsOf (fields : DocFields) : TagRows :=
  ((fields["tags"]?).bind JsonNode.asObject).getD ∅

/-- A document that reads as a root: the location is a text, the tags are an object of rows, and the
other known fields are texts. -/
structure Readable (fields : DocFields) : Prop where
  repository : ∃ text, fields["repository"]? = some (.string text)
  tags : ∀ node, fields["tags"]? = some node → ∃ rows, node = .object rows
  rows : ∀ (tag : String) (row : TagRow), (rowsOf fields)[tag]? = some row →
    (RootTag.read row).isSome
  texts : ∀ key ∈ ["status", "deprecated_message", "superseded_by"],
    (readOptionString fields[key]?).isSome

theorem readTags_eq_some_iff {field : Option DocField}
    {tags : Std.ExtTreeMap String RootTag} : readTags field = some tags ↔
      (∀ node, field = some node → ∃ rows, node = .object rows) ∧
      (∀ (tag : String) (row : TagRow), ((field.bind JsonNode.asObject).getD ∅)[tag]? = some row →
        (RootTag.read row).isSome) ∧
      tags = ((field.bind JsonNode.asObject).getD ∅).filterMap fun _ row =>
        RootTag.read row := by
  rcases field with _ | node
  · have hempty : (∅ : TagRows).filterMap (fun _ row => RootTag.read row) = ∅ := rfl
    simp [readTags, hempty, @eq_comm _ ∅ tags]
  · cases node with
    | object rows =>
      simp only [readTags, bind_some, JsonNode.asObject, getD_some,
        ite_none_right_eq_some, some.injEq, List.all_eq_true, Prod.forall,
        Std.ExtTreeMap.mem_toList_iff_getElem?_eq_some, eq_comm (b := tags)]
      simp
    | _ => simp [readTags]

/-- **What a document must have to be a root**, and what its tags are. -/
theorem IndexRoot.read_isSome_iff {fields : DocFields} :
    (IndexRoot.read (.object fields)).isSome ↔ Readable fields := by
  constructor
  · intro h
    obtain ⟨root, h⟩ := isSome_iff_exists.1 h
    simp only [IndexRoot.read, JsonNode.record, bind_eq_bind, bind_some,
      bind_eq_some_iff] at h
    obtain ⟨repository, ⟨node, hnode, hrepository⟩, tags, htags, status, hstatus, message,
      hmessage, superseded, hsuperseded, -⟩ := h
    obtain ⟨hobject, hrows, -⟩ := readTags_eq_some_iff.1 htags
    refine ⟨?_, hobject, hrows, ?_⟩
    · cases node with
      | string text => exact ⟨text, hnode⟩
      | _ => simp [JsonNode.asString] at hrepository
    · intro key hkey
      simp only [List.mem_cons, List.not_mem_nil, or_false] at hkey
      rcases hkey with rfl | rfl | rfl
      · rw [hstatus]; rfl
      · rw [hmessage]; rfl
      · rw [hsuperseded]; rfl
  · intro h
    obtain ⟨text, htext⟩ := h.repository
    have htags := readTags_eq_some_iff.2 ⟨h.tags, h.rows, rfl⟩
    obtain ⟨status, hstatus⟩ := isSome_iff_exists.1 (h.texts "status" (by simp))
    obtain ⟨message, hmessage⟩ :=
      isSome_iff_exists.1 (h.texts "deprecated_message" (by simp))
    obtain ⟨superseded, hsuperseded⟩ :=
      isSome_iff_exists.1 (h.texts "superseded_by" (by simp))
    simp [IndexRoot.read, JsonNode.record, htext, JsonNode.asString, htags, hstatus, hmessage,
      hsuperseded]

theorem IndexRoot.getElem?_tags {fields : DocFields} {root : IndexRoot}
    (h : IndexRoot.read (.object fields) = some root) (tag : String) :
    root.tags[tag]? = ((rowsOf fields)[tag]?).bind RootTag.read := by
  simp only [IndexRoot.read, JsonNode.record, bind_eq_bind, bind_some,
    bind_eq_some_iff] at h
  obtain ⟨repository, -, tags, htags, status, -, message, -, superseded, -, hroot⟩ := h
  obtain ⟨-, -, rfl⟩ := readTags_eq_some_iff.1 htags
  rw [← some.inj hroot]
  simp [rowsOf]

end Ocx
