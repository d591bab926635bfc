import Ocx.Cascade.Push
import Ocx.Version.Faithful

/-!
# Listings read faithfully

What the tag graph of a package is built from is a listing of tag names. Every tag stands for
itself in the graph exactly when no minor or patch number in the listing overflows: such a tag is
read as a shorter version, takes that version's place, and is written back under its name.
-/

namespace Ocx

/-- The tags of a registry keep their names. -/
structure FaithfulListing (reg : Registry) : Prop where
  /-- A version is written as the tag it was read from. -/
  written : ∀ tag ∈ reg, ∀ v, Version.parse tag = some v → v.toTag = tag
  /-- Two tags are two versions. -/
  distinct : ∀ tag ∈ reg, ∀ tag' ∈ reg, ∀ v, Version.parse tag = some v →
    Version.parse tag' = some v → tag = tag'
  /-- A classified tag is written as it was. -/
  classified : ∀ tag ∈ reg, (Tag.ofString tag).toString = tag
  /-- However the tags are listed, no two of them share a node. -/
  nodes : ∀ listed, (∀ tag ∈ listed, tag ∈ reg) → ∀ x ∈ (classify listed).1,
    ∀ y ∈ (classify listed).1, x.2 = y.2 → x.1 = y.1
  /-- In whatever order the documents arrive, each one is found under the node of its tag. -/
  gathered : ∀ reads, ∃ o, gather reg reads = some o ∧ ∀ tag t a, reg[tag]? = some t →
    AliasTag.parse tag (variantNames reg.keys) = some a → o.tags[a]? = some t

theorem AliasTag.eq_toTag_of_parse {tag : String} (htag : isRegistryTag tag = true)
    (hfit : Version.NumbersFit tag) {variants : List String} {a : AliasTag}
    (h : AliasTag.parse tag variants = some a) : tag = a.toTag := by
  rw [AliasTag.toTag_of_parse h, (Tag.toString_ofString_iff htag).2 hfit]

theorem FaithfulListing.of_numbersFit {reg : Registry}
    (hreg : ∀ tag ∈ reg, isRegistryTag tag = true) (hfit : ∀ tag ∈ reg, Version.NumbersFit tag) :
    FaithfulListing reg where
  written tag htag := (Version.toTag_of_parse_iff (hreg tag htag)).2 (hfit tag htag)
  distinct tag htag tag' htag' v :=
    Version.parse_injOn (hreg tag htag) (hreg tag' htag') (hfit tag htag) (hfit tag' htag')
  classified tag htag := (Tag.toString_ofString_iff (hreg tag htag)).2 (hfit tag htag)
  nodes listed hlisted x hx y hy hnode := by
    obtain ⟨hxmem, hxparse⟩ := mem_classify_iff.1 hx
    obtain ⟨hymem, hyparse⟩ := mem_classify_iff.1 hy
    have hxreg := hlisted _ hxmem
    have hyreg := hlisted _ hymem
    rw [AliasTag.eq_toTag_of_parse (hreg _ hxreg) (hfit _ hxreg) hxparse, hnode,
      ← AliasTag.eq_toTag_of_parse (hreg _ hyreg) (hfit _ hyreg) hyparse]
  gathered reads := by
    have hinj : ∀ tag ∈ reg, ∀ tag' ∈ reg, ∀ a,
        AliasTag.parse tag (variantNames reg.keys) = some a →
        AliasTag.parse tag' (variantNames reg.keys) = some a → tag = tag' := by
      intro tag htag tag' htag' a h h'
      rw [AliasTag.eq_toTag_of_parse (hreg _ htag) (hfit _ htag) h,
        ← AliasTag.eq_toTag_of_parse (hreg _ htag') (hfit _ htag') h']
    obtain ⟨o, ho, hslots⟩ := gather_eq_some reads hinj
    exact ⟨o, ho, fun tag t a ht ha => (hslots a t).2 ⟨tag, ha, ht⟩⟩

/-- **Faithful reading.** A version that was read from a tag survives being written and read again.
A registry's tags are read faithfully exactly when no minor or patch number of a tag that names a
version overflows. -/
theorem faithfulListing_iff (reg : Registry) (hreg : ∀ tag ∈ reg, isRegistryTag tag = true) :
    (∀ tag v, Version.parse tag = some v → Version.parse v.toTag = some v) ∧
      (FaithfulListing reg ↔ ∀ tag ∈ reg, Version.NumbersFit tag) := by
  refine ⟨fun tag v h => Version.parse_toTag (Version.wellFormed_of_parse h),
    fun h tag htag => ?_, FaithfulListing.of_numbersFit hreg⟩
  exact (Version.toTag_of_parse_iff (hreg tag htag)).1 (h.written tag htag)

/-- A registry that holds the given tags. -/
def Registry.ofTags (tags : List String) : Registry :=
  Std.ExtTreeMap.ofList (tags.map fun tag => (tag, (⟨⟨.sha256, ""⟩, 0, .image⟩ : ObservedTag)))

theorem faithfulListing_builds :
    FaithfulListing (.ofTags ["latest", "1", "debug-1.2.3-rc1_b7", "debug", "__ocx.desc"]) := by
  refine (faithfulListing_iff _ ?_).2.2 ?_ <;>
  · simp only [← Std.ExtTreeMap.mem_keys]
    decide +kernel

/-- The tag `1.4294967296` is read as the version `1`, written back as `1`, and takes the place of
the tag `1` in the graph. -/
theorem overflowing_tag_folded :
    isRegistryTag "1.4294967296" = true ∧
    Version.parse "1.4294967296" = some ⟨none, 1, none⟩ ∧
    (Tag.ofString "1.4294967296").toString = "1" ∧
    (classify ["1", "1.4294967296"]).1 =
      [("1", .version ⟨none, 1, none⟩), ("1.4294967296", .version ⟨none, 1, none⟩)] := by
  decide +kernel

end Ocx
