import Ocx.Index.RootDocument

/-!
# Merging a published root into the local copy

A fetched root is merged into the local copy within a scope: named tags, the whole package, or the
routing fields of a package that has no copy yet.  The merge walks plain JSON in three passes: it
adopts package-level fields, then the rows in scope, then it drops ephemeral rows the fetched root
no longer lists.
-/

namespace Ocx

open List

/-! ### The passes -/

/-- Reading and writing root documents, as texts of type `β`. The typed reader skips what it does
not know, so that it may read a text that is no plain JSON value, and refuses a field that stands
twice. -/
structure DocCodec (β : Type) where
  /-- Read a text as plain JSON. -/
  parse : β → Option RootDoc
  /-- Read a text as a typed root. -/
  readRoot : β → Option IndexRoot
  write : RootDoc → β

/-- The digests a copy pins; none if it cannot be read. -/
def DocCodec.publishedPins {β : Type} (c : DocCodec β) (copy : Option β) : List Digest :=
  ((copy.bind c.readRoot).map fun root => root.tags.toList.map fun entry => entry.2.content).getD []

/-- How much of a fetched root a write may adopt. -/
inductive RootScope
  /-- The entries of these tags. -/
  | tags (names : List String)
  /-- Every tag and the package-level fields. -/
  | package
  /-- The package-level fields, when there is no root yet. -/
  | routing
deriving DecidableEq

/-- A row that the publisher does not promise to keep. -/
def isEphemeral (row : TagRow) : Bool := row.get "ephemeral" = some (.bool true)

/-- The row without its ephemeral marker. -/
def stripEphemeral : TagRow → TagRow
  | .object fields => .object (fields.erase "ephemeral")
  | row => row

/-- The row to record: a durable one never takes the marker of the source. -/
def settle (old : Option TagRow) (entry : TagRow) : TagRow :=
  if isEphemeral entry ∧ old.any (fun row => !isEphemeral row) then stripEphemeral entry else entry

def RootScope.includes (scope : RootScope) (tag : String) : Bool :=
  match scope with
  | .tags named => tag ∈ named
  | .package => true
  | .routing => false

/-- The rows a merge adopts; nothing when it writes nothing. -/
def adoptedRows (committed usable : Bool) (fetched : RootDoc) :
    RootScope → Option (List (String × TagRow))
  | .tags named =>
    let entries := named.filterMap fun tag =>
      ((fetched.get "tags").bind fun tags => tags.get tag).map fun entry => (tag, entry)
    -- or a package seen for the first time adopts its location on a tag its root never listed
    if entries = [] ∧ usable = false then none else some entries
  | .package =>
    some (((fetched.get "tags").bind JsonNode.asObject).elim [] fun rows => rows.toList)
  | .routing => if committed then none else some []

/-- The document with its tags emptied. -/
def withoutTags : RootDoc → RootDoc
  | .object fields => .object (fields.insert "tags" (.object ∅))
  | doc => doc

/-- Overwrite a package-level field that differs. -/
def adoptField (acc : DocFields × Bool) (field : String × DocField) : DocFields × Bool :=
  if field.1 ≠ "tags" ∧ acc.1[field.1]? ≠ some field.2 then
    (acc.1.insert field.1 field.2, true)
  else acc

/-- Overwrite the package-level fields; a field the source dropped stays. -/
def adoptFields (scope : RootScope) (fetched : RootDoc) (fields : DocFields) : DocFields × Bool :=
  match scope with
  | .package => (fetched.asObject.elim [] fun m => m.toList).foldl adoptField (fields, false)
  | _ => (fields, false)

/-- Record a row that differs. -/
def adoptRow (acc : TagRows × Bool) (entry : String × TagRow) : TagRows × Bool :=
  if acc.1[entry.1]? = some (settle acc.1[entry.1]? entry.2) then acc
  else (acc.1.insert entry.1 (settle acc.1[entry.1]? entry.2), true)

/-- An ephemeral row in scope that the fetched root no longer lists. A root without tags lists
nothing that can be trusted. -/
def isDropped (scope : RootScope) (listed : Option TagRows) (tag : String) (row : TagRow) : Bool :=
  scope.includes tag && isEphemeral row && listed.any fun rows => (rows[tag]?).isNone

/-- The document that a merge writes. There is none to write when nothing in scope changes, and none
to assemble (`some none`) when the documents cannot be taken apart. -/
def DocCodec.mergeDoc {β : Type} (c : DocCodec β) (committed : Option β) (fetched : β)
    (scope : RootScope) : Option (Option RootDoc) := do
  let doc ← c.parse fetched
  let usable := committed.any fun text => (c.readRoot text).isSome
  let adopted ← adoptedRows committed.isSome usable doc scope
  let start := ((if usable then committed else none).bind c.parse).getD (withoutTags doc)
  match start with
  | .object fields =>
    let (fields, changed) := adoptFields scope doc fields
    match (fields["tags"]?).getD (.object ∅) with
    | .object rows =>
      let (rows, changed) := adopted.foldl adoptRow (rows, changed)
      let kept := rows.filter fun tag row =>
        !isDropped scope ((doc.get "tags").bind JsonNode.asObject) tag row
      if changed ∨ kept ≠ rows ∨ usable = false then
        some (some (.object (fields.insert "tags" (.object kept))))
      else none
    | _ => some none
  | _ => some none

/-- Merge a fetched root into the committed copy. A fetched root that cannot be taken apart replaces
the copy. -/
def DocCodec.mergeRoot {β : Type} (c : DocCodec β) (committed : Option β) (fetched : β)
    (scope : RootScope) : Option β :=
  (c.mergeDoc committed fetched scope).map fun doc => doc.elim fetched c.write

/-- What is assumed of reading and writing: a text that reads both ways reads as the same document,
and what a merge writes reads back both ways. -/
structure DocCodec.Lawful {β : Type} (c : DocCodec β) : Prop where
  read_of_parse : ∀ text doc root, c.parse text = some doc → c.readRoot text = some root →
    IndexRoot.read doc = some root
  parse_write : ∀ copy fetched scope doc, c.mergeDoc copy fetched scope = some (some doc) →
    c.parse (c.write doc) = some doc
  readRoot_write : ∀ copy fetched scope doc, c.mergeDoc copy fetched scope = some (some doc) →
    c.readRoot (c.write doc) = IndexRoot.read doc

/-! ### Rows -/

theorem isEphemeral_stripEphemeral (row : TagRow) : isEphemeral (stripEphemeral row) = false := by
  cases row <;> simp [isEphemeral, stripEphemeral, JsonNode.get]

/-- A fold that raises a flag with every change, and raises none, changes nothing. -/
theorem foldl_of_unchanged {σ α : Type} {step : σ × Bool → α → σ × Bool} {l : List α}
    {acc : σ × Bool}
    (hstep : ∀ acc a, (step acc a).2 = false → step acc a = acc)
    (h : (l.foldl step acc).2 = false) : l.foldl step acc = acc := by
  induction l generalizing acc with
  | nil => rfl
  | cons a l ih =>
    have hrest : l.foldl step (step acc a) = step acc a := ih h
    rw [foldl_cons, hrest] at h ⊢
    exact hstep acc a h

theorem settle_settle (old : Option TagRow) (entry : TagRow) :
    settle (some (settle old entry)) entry = settle old entry := by
  by_cases h : isEphemeral entry = true ∧ old.any (fun row => !isEphemeral row) = true
  · have hsettle : settle old entry = stripEphemeral entry := if_pos h
    rw [hsettle, settle, if_pos]
    simp [h.1, isEphemeral_stripEphemeral]
  · have hsettle : settle old entry = entry := if_neg h
    rw [hsettle, settle, if_neg]
    simp +contextual

theorem getElem?_adoptRow (acc : TagRows × Bool) (entry : String × TagRow) (tag : String) :
    (adoptRow acc entry).1[tag]? =
      if tag = entry.1 then some (settle acc.1[tag]? entry.2) else acc.1[tag]? := by
  unfold adoptRow
  by_cases htag : tag = entry.1
  · subst htag
    rw [if_pos rfl]
    split_ifs with h
    · exact h
    · exact Std.ExtTreeMap.getElem?_insert_self
  · split_ifs
    · rfl
    · rw [getElem?_insert_eq, if_neg (Ne.symm htag)]

theorem getElem?_foldl_adoptRow (listed : String → Option TagRow)
    {entries : List (String × TagRow)} (h : ∀ e ∈ entries, listed e.1 = some e.2)
    (acc : TagRows × Bool) (tag : String) :
    (entries.foldl adoptRow acc).1[tag]? =
      if tag ∈ entries.map Prod.fst then (listed tag).map (settle acc.1[tag]?)
      else acc.1[tag]? := by
  induction entries generalizing acc with
  | nil => rfl
  | cons e entries ih =>
    have he : listed e.1 = some e.2 := h e mem_cons_self
    rw [foldl_cons, ih (fun e' he' => h e' (mem_cons_of_mem _ he')), getElem?_adoptRow]
    by_cases htag : tag = e.1
    · subst htag
      simp only [if_true, map_cons, mem_cons, true_or, he, Option.map_some,
        settle_settle, ite_self]
    · simp only [htag, if_false, map_cons, mem_cons, false_or]

theorem foldl_adoptRow_of_settled {entries : List (String × TagRow)} {acc : TagRows × Bool}
    (h : ∀ e ∈ entries, acc.1[e.1]? = some (settle acc.1[e.1]? e.2)) :
    entries.foldl adoptRow acc = acc := by
  refine foldlRecOn (motive := (· = acc)) entries _ rfl fun acc' heq e he => ?_
  rw [heq, adoptRow, if_pos (h e he)]

theorem foldl_adoptRow_of_unchanged {entries : List (String × TagRow)} {acc : TagRows × Bool}
    (h : (entries.foldl adoptRow acc).2 = false) : entries.foldl adoptRow acc = acc :=
  foldl_of_unchanged (fun acc e h => by unfold adoptRow at h ⊢; split_ifs at h ⊢; rfl) h

/-! ### Fields -/

theorem getElem?_adoptField (acc : DocFields × Bool) (field : String × DocField) (key : String) :
    (adoptField acc field).1[key]? =
      if key = field.1 ∧ key ≠ "tags" then some field.2 else acc.1[key]? := by
  unfold adoptField
  by_cases hkey : key = field.1
  · subst hkey
    split_ifs with h h' h'
    · simp
    · exact absurd ⟨rfl, h.1⟩ h'
    · by_contra hne
      exact h ⟨h'.2, hne⟩
    · rfl
  · split_ifs with h h' h'
    · exact absurd h'.1 hkey
    · rw [getElem?_insert_eq, if_neg (Ne.symm hkey)]
    · exact absurd h'.1 hkey
    · rfl

variable {entries : List (String × DocField)} {acc : DocFields × Bool}

theorem getElem?_foldl_adoptField (listed : String → Option DocField)
    (h : ∀ e ∈ entries, listed e.1 = some e.2)
    (acc : DocFields × Bool) (key : String) :
    (entries.foldl adoptField acc).1[key]? =
      if key ∈ entries.map Prod.fst ∧ key ≠ "tags" then listed key else acc.1[key]? := by
  induction entries generalizing acc with
  | nil => simp
  | cons e entries ih =>
    rw [foldl_cons, ih (fun e' he' => h e' (mem_cons_of_mem _ he')), getElem?_adoptField]
    by_cases hkey : key = e.1
    · subst hkey
      rw [h e mem_cons_self]
      by_cases htags : e.1 = "tags" <;> simp [htags]
    · simp only [hkey, false_and, if_false, map_cons, mem_cons, false_or]

theorem foldl_adoptField_of_equal (h : ∀ e ∈ entries, e.1 ≠ "tags" → acc.1[e.1]? = some e.2) :
    entries.foldl adoptField acc = acc := by
  refine foldlRecOn (motive := (· = acc)) entries _ rfl fun acc' heq e he => ?_
  rw [heq, adoptField, if_neg]
  rintro ⟨htags, hne⟩
  exact hne (h e he htags)

theorem foldl_adoptField_of_unchanged
    (h : (entries.foldl adoptField acc).2 = false) : entries.foldl adoptField acc = acc :=
  foldl_of_unchanged (fun acc e h => by unfold adoptField at h ⊢; split_ifs at h ⊢; rfl) h

end Ocx
