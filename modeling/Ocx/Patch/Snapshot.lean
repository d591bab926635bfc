import Ocx.Oci.PackageRef

/-!
# Frozen patch companions

A snapshot of the patches records each companion under a key, `registry/repository:tag`, and reads
the identifier back from it.  The parser takes a tag from the first colon of the last segment on,
whatever follows, while a key is cut at its last colon: a tag with a colon is not found again
(`companion_lost`).
-/

namespace Ocx

open List Option

/-- The key of a companion: `registry/repository:tag`. -/
def companionKey (companion : PackageRef) : String :=
  companion.registry ++ "/" ++ companion.repository ++ ":" ++ companion.tagOrLatest

/-- The identifier that a key names. -/
def companionKeyIdentifier (key : String) : Option PackageRef := do
  let (registry, rest) ← splitOnce '/' key.toList
  let (repository, tag) ← rsplitOnce ':' rest
  some ((⟨String.ofList registry, String.ofList repository, none, none⟩ : PackageRef).cloneWithTag
    (String.ofList tag))

/-- The parser accepts the identifier, with some default registry. -/
def Accepted (companion : PackageRef) : Prop :=
  ∃ input defaultRegistry, parseInternal input defaultRegistry = .ok companion

/-- A companion is found again under its key, and shares the key with no other. -/
structure FoundAgain (companion : PackageRef) : Prop where
  found : companionKeyIdentifier (companionKey companion) =
    some { companion with tag := some companion.tagOrLatest, digest := none }
  unique : ∀ other, Accepted other → companionKey other = companionKey companion →
    other.registry = companion.registry ∧ other.repository = companion.repository ∧
      other.tagOrLatest = companion.tagOrLatest

variable {companion other : PackageRef}

theorem toList_companionKey : (companionKey companion).toList = companion.registry.toList ++
    '/' :: (companion.repository.toList ++ ':' :: companion.tagOrLatest.toList) := by
  simp [companionKey]

theorem PackageRef.WellFormed.plus_notMem (h : companion.WellFormed) :
    '+' ∉ companion.tagOrLatest.toList := by
  unfold PackageRef.tagOrLatest
  cases htag : companion.tag with
  | none => decide
  | some tag => exact h.tag tag htag

theorem companionKey_inj (h : companion.WellFormed) (hother : other.WellFormed)
    (heq : companionKey other = companionKey companion) :
    other.registry = companion.registry ∧ other.repository = companion.repository ∧
      other.tagOrLatest = companion.tagOrLatest := by
  have hkeys := congrArg (splitOnce '/' ·.toList) heq
  simp only [toList_companionKey, splitOnce_append hother.registry, splitOnce_append h.registry,
    some.injEq, Prod.mk.injEq, String.toList_inj] at hkeys
  have hrest := congrArg (splitOnce ':') hkeys.2
  simp only [splitOnce_append hother.repository, splitOnce_append h.repository,
    some.injEq, Prod.mk.injEq, String.toList_inj] at hrest
  exact ⟨hkeys.1, hrest⟩

/-- **Frozen companions are found again**, exactly when the tag has no colon. The parser takes the
tag from the first colon on, the key is cut at the last one. -/
theorem foundAgain_iff (companion : PackageRef) (haccepted : Accepted companion) :
    FoundAgain companion ↔ ':' ∉ companion.tagOrLatest.toList := by
  obtain ⟨input, defaultRegistry, hparse⟩ := haccepted
  have h := wellFormed_of_parseInternal hparse
  have hkey : companionKeyIdentifier (companionKey companion) = (rsplitOnce ':'
      (companion.repository.toList ++ ':' :: companion.tagOrLatest.toList)).map fun p =>
        ⟨companion.registry, String.ofList p.1, some (String.ofList (normalizeTag p.2)), none⟩ := by
    unfold companionKeyIdentifier
    rw [toList_companionKey, splitOnce_append h.registry, map_eq_bind]
    simp [PackageRef.cloneWithTag, normalizeTag, Function.comp_def]
  constructor
  · intro hfound hcolon
    obtain ⟨p, hsplit, hp⟩ := map_eq_some_iff.1 (hkey.symm.trans hfound.found)
    have htag : normalizeTag p.2 = companion.tagOrLatest.toList := by
      simpa using congrArg String.toList (some.inj (congrArg PackageRef.tag hp))
    -- what follows the last colon has none
    rw [← htag, normalizeTag, List.mem_map] at hcolon
    obtain ⟨c, hc, heq⟩ := hcolon
    split_ifs at heq
    · simp at heq
    · exact (rsplitOnce_eq_some.1 hsplit).2 (heq ▸ hc)
  · refine fun hcolon => ⟨?_, ?_⟩
    · rw [hkey, rsplitOnce_eq_some.2 ⟨rfl, hcolon⟩]
      simp [normalizeTag_of_notMem h.plus_notMem]
    · rintro other ⟨input, defaultRegistry, hother⟩ heq
      exact companionKey_inj h (wellFormed_of_parseInternal hother) heq

theorem foundAgain_cmake : Accepted ⟨"ocx.sh", "tools/cmake", some "3.28", none⟩ ∧
    FoundAgain ⟨"ocx.sh", "tools/cmake", some "3.28", none⟩ := by
  have haccepted : Accepted ⟨"ocx.sh", "tools/cmake", some "3.28", none⟩ :=
    ⟨"ocx.sh/tools/cmake:3.28", "ocx.sh", by decide +kernel⟩
  exact ⟨haccepted, (foundAgain_iff _ haccepted).2 (by decide)⟩

theorem companion_lost : ∃ companion,
    parseInternal "ocx.sh/tools/cmake:3:28" "ocx.sh" = .ok companion ∧
    companionKeyIdentifier (companionKey companion) =
      some ⟨"ocx.sh", "tools/cmake:3", some "28", none⟩ :=
  ⟨⟨"ocx.sh", "tools/cmake", some "3:28", none⟩, by decide +kernel, by decide +kernel⟩

end Ocx
