import Ocx.Oci.Digest
import Ocx.Version.Text

/-!
# Tags and rolling tags

A registry tag is classified by trying a fixed list of forms; the first match wins. The tag graph
of a package only has the rolling tags and version tags among them: a track root (`latest` or a
bare variant name) or a version.
-/

namespace Ocx

open List Option

/-! ### Classification -/

inductive InternalTag
  | description
  | patch
  /-- A tag that keeps a platform manifest reachable. -/
  | keep (algorithm : Algorithm) (hex : List Char)
  /-- Any other internal tag. -/
  | unknown (tag : String)
deriving DecidableEq, Repr

/-- Classify a tag of the internal namespace. -/
def InternalTag.ofTag (value : String) : InternalTag :=
  if value = "__ocx.desc" then .description
  else if value = "__ocx.patch" then .patch
  else
    match (stripFront "__ocx.keep.".toList value.toList).bind (parseKeep · '-') with
    | some (algorithm, hex) => .keep algorithm hex
    | none => .unknown value

/-- The written form of an internal tag. -/
def InternalTag.toString : InternalTag → String
  | description => "__ocx.desc"
  | patch => "__ocx.patch"
  | keep algorithm hex => "__ocx.keep." ++ algorithm.name ++ "-" ++ String.ofList hex
  | unknown tag => tag

/-- The internal namespace, matched without regard to case. -/
def isInternalNamespace (tag : String) : Bool :=
  (tag.toList.take 5).map Char.toLower == "__ocx".toList

/-- A referrers fallback tag `<algorithm>-<hex>`, with or without a sidecar suffix. -/
def isReferrerFallbackTag (value : String) : Bool :=
  let strip (suffix : String) : Option (List Char) :=
    (stripFront suffix.toList.reverse value.toList.reverse).map reverse
  let base := (((strip ".sig").or (strip ".att")).or (strip ".sbom")).getD value.toList
  Algorithm.all.any fun algorithm =>
    match (stripFront algorithm.name.toList base).bind (stripFront ['-']) with
    | some hex => (hex.length = 64 || hex.length = algorithm.hexLen) && hex.all isHexDigit
    | none => false

/-- A tag that never names a version. -/
def isReservedTag (tag : String) : Bool :=
  isInternalNamespace tag || (parseKeep tag.toList '.').isSome || isReferrerFallbackTag tag

/-- Classification of a registry tag. -/
inductive Tag
  | latest
  | internal (tag : InternalTag)
  /-- A version, optionally of a variant. -/
  | version (version : Version)
  /-- The frozen keep form `sha256.<hex>`. -/
  | legacyKeep (algorithm : Algorithm) (hex : List Char)
  /-- Any other tag, bare variant names among them. -/
  | other (value : String)
deriving DecidableEq, Repr

/-- Classify a tag. The forms are tried in this order. -/
def Tag.ofString (value : String) : Tag :=
  if value = "latest" then .latest
  else if isInternalNamespace value then .internal (InternalTag.ofTag value)
  else
    match Version.parse value with
    | some v => .version v
    | none =>
      match parseKeep value.toList '.' with
      | some (algorithm, hex) => .legacyKeep algorithm hex
      | none => .other value

/-- The classes that never name a version. -/
def Tag.isReserved : Tag → Bool
  | internal _ | legacyKeep _ _ => true
  | other value => isReferrerFallbackTag value
  | latest | version _ => false

/-- The written form of a classified tag. -/
def Tag.toString : Tag → String
  | latest => "latest"
  | internal tag => tag.toString
  | version v => v.toTag
  | legacyKeep algorithm hex => algorithm.name ++ "." ++ String.ofList hex
  | other value => value

theorem InternalTag.toString_ofTag (value : String) : (ofTag value).toString = value := by
  rw [ofTag]
  split_ifs with hdesc hpatch
  · exact hdesc.symm
  · exact hpatch.symm
  · split
    case h_1 algorithm hex h =>
      obtain ⟨body, hbody, hkeep⟩ := bind_eq_some_iff.1 h
      have htext := stripFront_eq_some.1 hbody
      rw [eq_of_parseKeep hkeep] at htext
      rw [← String.toList_inj, htext]
      simp [toString]
    case h_2 => rfl

theorem Tag.toString_ofString (value : String) : (ofString value).toString = value ∨
    ∃ v, Version.parse value = some v ∧ (ofString value).toString = v.toTag := by
  rw [ofString]
  split_ifs with hlatest hinternal
  · exact .inl hlatest.symm
  · exact .inl (InternalTag.toString_ofTag value)
  · cases hparse : Version.parse value with
    | some v => exact .inr ⟨v, rfl, rfl⟩
    | none =>
      left
      cases hkeep : parseKeep value.toList '.' with
      | none => rfl
      | some keep =>
        rw [← String.toList_inj, eq_of_parseKeep hkeep]
        simp [toString]

/-- A node of a package's tag graph. -/
inductive AliasTag
  /-- The root of a track: `latest` for the default track, else the bare variant name. -/
  | root (variant : Option String)
  /-- Any other node, named by its version. -/
  | version (version : Version)
deriving DecidableEq, Repr

namespace AliasTag

/-- The node a registry tag stands for. A bare name is a track root only when `variants` lists
it. -/
def parse (tag : String) (variants : List String) : Option AliasTag :=
  match Tag.ofString tag with
  | .latest => some (.root none)
  | .version v => some (.version v)
  | .other name => if variants.any (· == name) then some (.root (some name)) else none
  | _ => none

/-- The registry tag of a node. -/
def toTag : AliasTag → String
  | root none => "latest"
  | root (some variant) => variant
  | version v => v.toTag

/-! ### Order -/

/-- Roots sort before versions, the default root first. -/
def key : AliasTag → WithBot String ⊕ₗ Version
  | root variant => toLex (.inl (bottom variant))
  | version v => toLex (.inr v)

theorem key_injective : key.Injective := by
  rintro (a | a) (b | b) h <;> simp_all [key, bottom_injective.eq_iff]

instance : LinearOrder AliasTag :=
  linearOrderOfKey key key_injective (fun a b => compare a.key b.key) (fun _ _ => rfl)

instance : Std.TransCmp (compare : AliasTag → AliasTag → Ordering) := inferInstance

/-! ### Reading back -/

/-- The nodes whose names can come from a tag. -/
def WellFormed : AliasTag → Prop
  | root none => True
  | root (some variant) => Version.isVariantName variant = true
  | version v => v.WellFormed

/-- A track root whose variant has the legacy keep form. -/
def IsKeepRoot : AliasTag → Prop
  | root (some variant) => (parseKeep variant.toList '.').isSome
  | _ => False

instance : DecidablePred IsKeepRoot := fun a =>
  match a with
  | root none => inferInstanceAs (Decidable False)
  | root (some v) => inferInstanceAs (Decidable ((parseKeep v.toList '.').isSome = true))
  | version _ => inferInstanceAs (Decidable False)

theorem parse_latest : Version.parse "latest" = none := by decide

theorem parse_of_isInternalNamespace {tag : String} (h : isInternalNamespace tag = true) :
    Version.parse tag = none := by
  cases ht : tag.toList with
  | nil => simp [isInternalNamespace, ht] at h
  | cons c s =>
    simp only [isInternalNamespace, ht, take_succ_cons, map_cons, beq_iff_eq] at h
    obtain rfl : c = '_' := eq_of_toLower (by decide) (cons.inj h).1
    simp [Version.parse, Version.captures, ht, Version.scanVariant, Version.capturesBody,
      Version.scanNumber]

theorem ofString_of_parse {tag : String} {v : Version} (h : Version.parse tag = some v) :
    Tag.ofString tag = .version v := by
  have hlatest : tag ≠ "latest" := by
    rintro rfl
    simp [parse_latest] at h
  have hinternal : ¬ isInternalNamespace tag = true := fun hint => by
    simp [parse_of_isInternalNamespace hint] at h
  simp [Tag.ofString, hlatest, hinternal, h]

theorem parse_of_isVariantName {name : String} (h : Version.isVariantName name = true) :
    Version.parse name = none := by
  obtain ⟨-, c, s, hname, hc, hs⟩ := Version.isVariantName_iff.1 h
  have : s.dropWhile Version.isVariantChar = [] := by simpa using hs
  simp [Version.parse, Version.captures, hname, Version.scanVariant, hc, this]

theorem ofString_of_isVariantName {name : String} (h : Version.isVariantName name = true) :
    Tag.ofString name =
      match parseKeep name.toList '.' with
      | some (algorithm, hex) => .legacyKeep algorithm hex
      | none => .other name := by
  obtain ⟨hlatest, c, s, hname, hc, -⟩ := Version.isVariantName_iff.1 h
  have hinternal : ¬ isInternalNamespace name = true := fun hint => by
    simp only [isInternalNamespace, hname, take_succ_cons, map_cons, beq_iff_eq] at hint
    obtain rfl : c = '_' := eq_of_toLower (by decide) (cons.inj hint).1
    simp at hc
  simp [Tag.ofString, hlatest, hinternal, parse_of_isVariantName h]

variable {a : AliasTag} {variants : List String}

/-- **Reading a node back.** A well-formed node is read back from its tag exactly when it is not a
track root in the legacy keep form. A bare name also has to be a known variant. -/
theorem parse_toTag_iff (ha : a.WellFormed)
    (hvariants : ∀ variant, a = root (some variant) → variant ∈ variants) :
    parse a.toTag variants = if a.IsKeepRoot then none else some a := by
  rcases a with (_ | variant) | v
  · simp [parse, toTag, Tag.ofString, IsKeepRoot]
  · have hmem := hvariants variant rfl
    cases hkeep : parseKeep variant.toList '.' with
    | none =>
      rw [if_neg (by simp [IsKeepRoot, hkeep])]
      simpa [parse, toTag, ofString_of_isVariantName ha, hkeep] using hmem
    | some keep =>
      rw [if_pos (by simp [IsKeepRoot, hkeep])]
      simp [parse, toTag, ofString_of_isVariantName ha, hkeep]
  · simp [parse, toTag, ofString_of_parse (Version.parse_toTag ha), IsKeepRoot]

theorem parse_toTag (ha : a.WellFormed) :
    Version.parse a.toTag = match a with
      | root _ => none
      | version v => some v := by
  rcases a with (_ | variant) | v
  · exact parse_latest
  · exact parse_of_isVariantName ha
  · exact Version.parse_toTag ha

theorem toTag_injOn {b : AliasTag} (ha : a.WellFormed) (hb : b.WellFormed)
    (h : a.toTag = b.toTag) : a = b := by
  have hparse : Version.parse a.toTag = Version.parse b.toTag := by rw [h]
  rw [parse_toTag ha, parse_toTag hb] at hparse
  rcases a with (_ | a) | a <;> rcases b with (_ | b) | b <;> simp at hparse
  · rfl
  · exact absurd h.symm (Version.isVariantName_iff.1 hb).1
  · exact absurd h (Version.isVariantName_iff.1 ha).1
  · exact congrArg (root ∘ some) h
  · exact congrArg version hparse

theorem eq_of_parse_toTag {b : AliasTag} (hb : b.WellFormed)
    (h : parse b.toTag variants = some a) : a = b ∧ ¬ b.IsKeepRoot := by
  rcases b with (_ | variant) | v
  · simpa [parse, toTag, Tag.ofString, IsKeepRoot, eq_comm] using h
  · cases hkeep : parseKeep variant.toList '.' with
    | some keep => simp [parse, toTag, ofString_of_isVariantName hb, hkeep] at h
    | none =>
      simp only [parse, toTag, ofString_of_isVariantName hb, hkeep] at h
      split_ifs at h
      exact ⟨(some.inj h).symm, by simp [IsKeepRoot, hkeep]⟩
  · simpa [parse, toTag, ofString_of_parse (Version.parse_toTag hb), IsKeepRoot, eq_comm] using h

end AliasTag

end Ocx
