import Ocx.Project.Basic

/-!
# The platforms of a locked tool

The leaves of a tool are kept in the lock under the written form of their platform.  A host reads
its leaf from the lock by reading the keys back and selecting among them as a fresh resolve selects
among the candidates of the index.
-/

namespace Ocx

open List

variable {candidates : List (PackageRef × Platform)}

/-- Insert a leaf, refusing a key that is there already. -/
def guardUniqueKey (map : Platforms) (key : String) (digest : Digest) :
    Except ProjectErrorKind Platforms :=
  if key ∈ map then .error (.duplicatePlatformKey key) else .ok (map.insert key digest)

/-- Insert the leaf of a candidate. A candidate without digest is skipped. -/
def insertCandidate (map : Platforms) (candidate : PackageRef × Platform) :
    Except ProjectErrorKind Platforms :=
  match candidate.1.digest with
  | some digest => guardUniqueKey map candidate.2.toString digest
  | none => .ok map

/-- A key is the written form of the platform it is read as. -/
def validateCanonicalKey (key : String) : Except ProjectErrorKind Unit :=
  match Platform.parse key with
  | .ok parsed => if parsed.toString = key then .ok () else .error (.noncanonicalPlatformKey key)
  | .error _ => .error (.noncanonicalPlatformKey key)

/-- Every key is the written form of the platform it is read as. -/
def validateCanonicalPlatformKeys (platforms : Platforms) : Except ProjectErrorKind Unit :=
  platforms.keys.forM validateCanonicalKey

/-- The leaves of the candidates, by the written form of their platform. -/
def buildPlatformsMap (candidates : List (PackageRef × Platform)) :
    Except ProjectErrorKind Platforms := do
  let map ← candidates.foldlM insertCandidate ∅
  validateCanonicalPlatformKeys map
  .ok map

/-- A leaf as a candidate of the selection. A key that cannot be read is skipped. -/
def leafCandidate (leaf : String × Digest) : Option ((Digest × String) × Platform) :=
  match Platform.parse leaf.1 with
  | .ok platform => some ((leaf.2, leaf.1), platform)
  | .error _ => none

def lookupHostLeaf (platforms : Platforms) (host : Platform) : Selection (Digest × String) :=
  selectBest host (platforms.toList.filterMap leafCandidate)

/-! ### What the map holds -/

/-- The map holds the leaves of the candidates seen so far, under distinct keys. -/
structure HoldsLeaves (map : Platforms) (seen : List (PackageRef × Platform)) : Prop where
  /-- The leaf under a key is that of a candidate. -/
  getElem?_iff : ∀ key digest, map[key]? = some digest ↔
    ∃ c ∈ seen, c.2.toString = key ∧ c.1.digest = some digest
  /-- The keys are distinct. -/
  nodup : (seen.map fun c => c.2.toString).Nodup

theorem holdsLeaves_nil : HoldsLeaves ∅ [] := ⟨by simp, by simp⟩

variable {map map' : Platforms} {seen : List (PackageRef × Platform)} {c : PackageRef × Platform}

theorem HoldsLeaves.insert (h : HoldsLeaves map seen) (hdigest : c.1.digest.isSome)
    (hseen : ∀ c ∈ seen, c.1.digest.isSome) (hmap : insertCandidate map c = .ok map') :
    HoldsLeaves map' (seen ++ [c]) := by
  obtain ⟨digest, hd⟩ := Option.isSome_iff_exists.1 hdigest
  unfold insertCandidate guardUniqueKey at hmap
  rw [hd] at hmap
  split_ifs at hmap with hkey
  cases hmap
  have hfresh : ∀ c' ∈ seen, c'.2.toString ≠ c.2.toString := by
    intro c' hc' heq
    obtain ⟨digest', hd'⟩ := Option.isSome_iff_exists.1 (hseen c' hc')
    refine hkey (Std.ExtTreeMap.mem_iff_isSome_getElem?.2 ?_)
    rw [(h.getElem?_iff _ _).2 ⟨c', hc', heq, hd'⟩]
    rfl
  constructor
  · intro key digest'
    rw [getElem?_insert_eq]
    split_ifs with heq
    · subst heq
      constructor
      · intro hsome
        exact ⟨c, by simp, rfl, hd.trans hsome⟩
      · rintro ⟨c', hc', hkey', hd'⟩
        rcases mem_append.1 hc' with hc' | hc'
        · exact absurd hkey' (hfresh c' hc')
        · rw [mem_singleton.1 hc', hd] at hd'
          exact hd'
    · rw [h.getElem?_iff]
      constructor
      · rintro ⟨c', hc', hrest⟩
        exact ⟨c', mem_append_left _ hc', hrest⟩
      · rintro ⟨c', hc', hkey', hd'⟩
        rcases mem_append.1 hc' with hc' | hc'
        · exact ⟨c', hc', hkey', hd'⟩
        · rw [mem_singleton.1 hc'] at hkey'
          exact absurd hkey' heq
  · rw [map_append, nodup_append]
    refine ⟨h.nodup, by simp, ?_⟩
    intro key hmem key' hmem' heq
    obtain ⟨c', hc', rfl⟩ := mem_map.1 hmem
    rw [map_singleton, mem_singleton] at hmem'
    exact hfresh c' hc' (heq.trans hmem')

theorem HoldsLeaves.foldlM (h : HoldsLeaves map seen)
    (hseen : ∀ c ∈ seen, c.1.digest.isSome) (hdigest : ∀ c ∈ candidates, c.1.digest.isSome)
    (hmap : candidates.foldlM insertCandidate map = .ok map') :
    HoldsLeaves map' (seen ++ candidates) := by
  induction candidates generalizing map seen with
  | nil =>
    cases hmap
    rwa [append_nil]
  | cons c candidates ih =>
    rw [forall_mem_cons] at hdigest
    rw [foldlM_cons] at hmap
    obtain ⟨map₁, hc, hmap⟩ := bind_eq_ok_iff.1 hmap
    have hstep := h.insert hdigest.1 hseen hc
    have hseen' : ∀ c' ∈ seen ++ [c], c'.1.digest.isSome :=
      forall_mem_append.2 ⟨hseen, by simpa using hdigest.1⟩
    have hrun := ih hstep hseen' hdigest.2 hmap
    rwa [append_assoc] at hrun

/-! ### Reading the map -/

/-- An accepted map holds the leaves of the candidates, and each key is read as the platform it was
written from. -/
theorem holdsLeaves_of_buildPlatformsMap
    (hdigest : ∀ c ∈ candidates, c.1.digest.isSome) (hnormal : ∀ c ∈ candidates, c.2.Normal)
    (hmap : buildPlatformsMap candidates = .ok map) :
    HoldsLeaves map candidates ∧ ∀ c ∈ candidates, Platform.parse c.2.toString = .ok c.2 := by
  obtain ⟨map₀, hfold, hmap⟩ := bind_eq_ok_iff.1 hmap
  obtain ⟨_, hvalid, hmap⟩ := bind_eq_ok_iff.1 hmap
  cases hmap
  have hholds : HoldsLeaves map candidates := holdsLeaves_nil.foldlM (by simp) hdigest hfold
  refine ⟨hholds, fun c hc => ?_⟩
  obtain ⟨digest, hd⟩ := Option.isSome_iff_exists.1 (hdigest c hc)
  have hkey : c.2.toString ∈ map.keys := by
    rw [Std.ExtTreeMap.mem_keys, Std.ExtTreeMap.mem_iff_isSome_getElem?,
      (hholds.getElem?_iff _ _).2 ⟨c, hc, rfl, hd⟩]
    rfl
  have hcanonical := forM_eq_ok_iff.1 hvalid _ hkey
  unfold validateCanonicalKey at hcanonical
  rw [Platform.parse_toString (hnormal c hc)] at hcanonical ⊢
  by_cases hprintable : c.2.Printable
  · rw [if_pos hprintable]
  · simp [hprintable] at hcanonical

theorem perm_leafCandidates
    (hdigest : ∀ c ∈ candidates, c.1.digest.isSome) (hholds : HoldsLeaves map candidates)
    (hparse : ∀ c ∈ candidates, Platform.parse c.2.toString = .ok c.2) :
    ((map.toList.filterMap leafCandidate).map fun x => (some x.1.1, x.2)).Perm
      (candidates.map fun c => (c.1.digest, c.2)) := by
  -- both lists have distinct keys, so it is enough to compare their elements with the keys
  have hkeyed : ((map.toList.filterMap leafCandidate).map fun x => (some x.1.1, x.1.2, x.2)).Perm
      (candidates.map fun c => (c.1.digest, c.2.toString, c.2)) := by
    rw [perm_ext_iff_of_nodup]
    · rintro ⟨digest?, key, platform⟩
      simp only [mem_map, mem_filterMap, Prod.mk.injEq, Prod.exists]
      constructor
      · rintro ⟨digest, key', platform', ⟨k, d, hmem, hleaf⟩, rfl, rfl, rfl⟩
        rw [Std.ExtTreeMap.mem_toList_iff_getElem?_eq_some, hholds.getElem?_iff] at hmem
        obtain ⟨⟨r, p⟩, hc, rfl, hd⟩ := hmem
        unfold leafCandidate at hleaf
        rw [hparse _ hc] at hleaf
        obtain ⟨⟨rfl, rfl⟩, rfl⟩ := hleaf
        exact ⟨r, p, hc, hd, rfl, rfl⟩
      · rintro ⟨r, p, hc, rfl, rfl, rfl⟩
        obtain ⟨digest, hd⟩ := Option.isSome_iff_exists.1 (hdigest _ hc)
        refine ⟨digest, p.toString, p, ⟨p.toString, digest, ?_, ?_⟩, hd.symm, rfl, rfl⟩
        · rw [Std.ExtTreeMap.mem_toList_iff_getElem?_eq_some, hholds.getElem?_iff]
          exact ⟨(r, p), hc, rfl, hd⟩
        · unfold leafCandidate
          rw [hparse _ hc]
    · refine List.Nodup.of_map (fun x => x.2.1) ?_
      rw [map_map]
      have hsub : ((map.toList.filterMap leafCandidate).map
          ((fun x => x.2.1) ∘ fun x => (some x.1.1, x.1.2, x.2))).Sublist
            (map.toList.map Prod.fst) := by
        induction map.toList with
        | nil => simp
        | cons leaf rest ih =>
          cases hleaf : leafCandidate leaf with
          | none =>
            rw [filterMap_cons_none hleaf]
            exact ih.trans (sublist_cons_self _ _)
          | some x =>
            rw [filterMap_cons_some hleaf, map_cons, map_cons]
            have hkey : x.1.2 = leaf.1 := by
              unfold leafCandidate at hleaf
              split at hleaf
              · cases hleaf
                rfl
              · simp at hleaf
            exact hkey ▸ ih.cons_cons _
      exact (nodup_keys_toList map).sublist hsub
    · refine List.Nodup.of_map (fun x => x.2.1) ?_
      rw [map_map]
      exact hholds.nodup
  have hforget := hkeyed.map fun x => (x.1, x.2.2)
  rw [map_map, map_map] at hforget
  exact hforget

/-- **Locked and fresh resolves agree.** For every host, the leaf that is read from an accepted map
is the one that is selected among the candidates it was built from, with none and with ambiguous
candidates reported alike. -/
theorem lookupHostLeaf_agrees (candidates : List (PackageRef × Platform)) (platforms : Platforms)
    (host : Platform) (hdigest : ∀ c ∈ candidates, c.1.digest.isSome)
    (hnative : ∀ c ∈ candidates, ∃ native, Platform.ofNative native = .ok c.2)
    (hmap : buildPlatformsMap candidates = .ok platforms) :
    ((lookupHostLeaf platforms host).map fun leaf => some leaf.1).SameChoice
      ((selectBest host candidates).map PackageRef.digest) := by
  have hnormal : ∀ c ∈ candidates, c.2.Normal := fun c hc =>
    (hnative c hc).elim fun _ h => Platform.normal_of_ofNative h
  obtain ⟨hholds, hparse⟩ := holdsLeaves_of_buildPlatformsMap hdigest hnormal hmap
  unfold lookupHostLeaf
  rw [map_selectBest, map_selectBest]
  exact sameChoice_selectBest_of_perm (perm_leafCandidates hdigest hholds hparse)

def repeatedDigest (c : Char) : Digest := ⟨.sha256, String.ofList (List.replicate 64 c)⟩

/-- Two leaves of a package. -/
def sampleCandidates : List (PackageRef × Platform) :=
  [(⟨"ocx.sh", "cmake", none, some (repeatedDigest 'a')⟩, .specific .linux .amd64 none []),
    (⟨"ocx.sh", "cmake", none, some (repeatedDigest 'b')⟩, .any)]

/-- A Linux host reads the leaf of its platform. -/
theorem lookupHostLeaf_sample :
    ∃ platforms, buildPlatformsMap sampleCandidates = .ok platforms ∧
      ((lookupHostLeaf platforms (.specific .linux .amd64 none ["libc.glibc"])).map
        fun leaf => some leaf.1).SameChoice
          ((selectBest (.specific .linux .amd64 none ["libc.glibc"]) sampleCandidates).map
            PackageRef.digest) := by
  refine ⟨_, rfl, lookupHostLeaf_agrees sampleCandidates _ _ (by decide) ?_ rfl⟩
  intro c hc
  unfold sampleCandidates at hc
  simp only [mem_cons, not_mem_nil, or_false] at hc
  rcases hc with rfl | rfl
  · exact ⟨(Platform.specific .linux .amd64 none []).toNative, rfl⟩
  · exact ⟨Platform.any.toNative, rfl⟩

end Ocx
