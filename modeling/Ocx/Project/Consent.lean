import Ocx.Config.Shell
import Ocx.Project.Platforms
import Ocx.Store.Layout

/-!
# Activation consent

A project's environment applies only where a human consented to it: by a stamp for the directory, by
a directory of the whitelist, or by a namespace of the whitelist.  The last clause does not trust
the lock, which the project itself writes; it asks the store from which repositories the locked
digests were pulled.
-/

namespace Ocx

open List

variable {registry : List Char} {origins : List String} {sources : Finset String} {c : ShellConsent}
  {tiers tiers' : List ConsentTier}

/-! ### Sources -/

/-- The namespace of a repository: its registry in lower case, and its first path segment. -/
def sourceOf (r : Repository) : String :=
  String.ofList (r.registry.toList.map Char.toLower ++
    '/' :: r.repository.toList.takeWhile (· ≠ '/'))

/-- The namespaces that a lock claims. -/
def lockSources (lock : ProjectLock) : Finset String :=
  (lock.tools.map fun tool => sourceOf tool.repository).toFinset

/-- The namespace of a recorded origin, if the record is well-formed. -/
def sourceOfOrigin (origin : String) : Option String :=
  match splitOnce '/' origin.toList with
  | none => none
  | some (registry, repository) =>
    if registry = [] ∨ repository = [] then none
    else some (sourceOf ⟨String.ofList registry, String.ofList repository⟩)

def Repository.pinUntagged (r : Repository) (digest : Digest) : PinnedPackageRef :=
  ⟨⟨r.registry, r.repository, none, some digest⟩, rfl⟩

/-- The package tier with the origin markers of its packages. -/
structure PackageStore where
  /-- Where the tiers are. -/
  layout : FileStructure
  /-- The readable files below `refs/origins` of a package directory: name and content. -/
  originMarkers : Path → List (String × String)
  originMarkerName : String → String

namespace PackageStore

variable (store : PackageStore)

/-- The origin that a marker records, if the marker has the name of its content. -/
def markedOrigin (marker : String × String) : Option String :=
  let origin := String.ofList (trim marker.2.toList)
  if store.originMarkerName origin = marker.1 then some origin else none

def recordedOrigins (r : PinnedPackageRef) : List String :=
  (((store.originMarkers (store.layout.packagePath r)).filterMap
    store.markedOrigin).insertionSort (· ≤ ·)).dedup

end PackageStore

/-- The namespaces of the origins recorded for a package, of which there must be one. -/
def originSources : List String → Option (Finset String)
  | [] => none
  | origins => (origins.mapM sourceOfOrigin).map List.toFinset

section Verified

variable (store : PackageStore) (host : Platform)

/-- The namespaces that the store corroborates for a tool. -/
def toolSources (tool : LockedTool) : Option (Finset String) :=
  match lookupHostLeaf tool.platforms host with
  | .found (leaf, _) => originSources (store.recordedOrigins (tool.repository.pinUntagged leaf))
  | _ => none

/-- The namespaces that the store corroborates for a lock, if it does for every tool. -/
def verifiedSources (lock : ProjectLock) : Option (Finset String) :=
  (lock.tools.mapM (toolSources store host)).map fun sources => sources.foldr (· ∪ ·) ∅

end Verified

/-! ### The decision -/

/-- The clause that granted activation. -/
inductive Grant
  | stamp
  | namespaces
  /-- The directories of the whitelist. -/
  | path
deriving DecidableEq, Repr

/-- Why a project does not activate. -/
inductive Reason
  /-- No clause applies. -/
  | noStampNoGrant (derivedSources : Finset String) (pathsTested namespacesTested : List String)
  /-- The lock claims namespaces that the stamp does not have. -/
  | sourceSetDrift (newSources : Finset String)
  /-- The lock claims granted namespaces, but the store does not corroborate them. -/
  | uncorroboratedNamespace (claimed : Finset String) (verified : Option (Finset String))
  | lockUnavailable
deriving DecidableEq

inductive Decision
  | activate (grant : Grant)
  /-- The project stays inert. -/
  | inert (reason : Reason)
deriving DecidableEq

structure ConsentStamp where
  projectDir : String
  /-- The namespaces consented to. -/
  sources : Finset String

section Evaluate

variable (home : Option (List Component)) (projectDir : String) (stamp : Option ConsentStamp)

/-- The whitelist names the project directory. -/
def pathGranted (whitelist : ShellConsent) : Bool :=
  whitelist.paths.any (consentPathMatches home · projectDir)

def namespaceGranted (sources : Finset String) (whitelist : ShellConsent) : Bool :=
  decide (sources.Nonempty ∧ ∀ source ∈ sources, whitelist.grantsNamespace source = true)

/-- A stamp is for the project directory. -/
def ConsentStamp.isFor (s : ConsentStamp) : Bool := components s.projectDir = components projectDir

def stampCovers (sources : Finset String) : Bool :=
  stamp.any fun s => s.isFor projectDir && decide (sources ⊆ s.sources)

/-- The activation decision for a directory, from its stamp, the sources its lock claims, the
sources the store corroborates and the whitelist. -/
def evaluateWithStamp (claimed verified : Option (Finset String)) (whitelist : ShellConsent) :
    Decision :=
  if pathGranted home projectDir whitelist then .activate .path
  else
    match claimed with
    | none => .inert .lockUnavailable
    | some sources =>
      if stampCovers projectDir stamp sources then .activate .stamp
      else if verified.any (namespaceGranted · whitelist) then .activate .namespaces
      else if namespaceGranted sources whitelist then
        .inert (.uncorroboratedNamespace sources verified)
      else
        match stamp.filter (·.isFor projectDir) with
        | some s => .inert (.sourceSetDrift (sources \ s.sources))
        | none => .inert (.noStampNoGrant sources whitelist.paths whitelist.includes)

def evaluateProject (store : PackageStore) (host : Platform) (lock : ProjectLock)
    (whitelist : ShellConsent) : Decision :=
  evaluateWithStamp home projectDir stamp (some (lockSources lock))
    (verifiedSources store host lock) whitelist

end Evaluate

/-! ### Sources have one separator -/

theorem toList_sourceOf (registry repository : List Char) :
    (sourceOf ⟨String.ofList registry, String.ofList repository⟩).toList =
      registry.map Char.toLower ++ '/' :: repository.takeWhile (· ≠ '/') := by
  simp [sourceOf]

theorem slash_notMem_map_toLower (h : '/' ∉ registry) :
    '/' ∉ registry.map Char.toLower := by
  intro hmem
  obtain ⟨c, hc, hlower⟩ := mem_map.1 hmem
  exact h (eq_of_toLower (by decide) hlower ▸ hc)

theorem slash_notMem_takeWhile (repository : List Char) :
    '/' ∉ repository.takeWhile (· ≠ '/') := by
  intro hmem
  simpa using mem_takeWhile_imp hmem

theorem count_sourceOf (repository : List Char) (h : '/' ∉ registry) :
    (sourceOf ⟨String.ofList registry, String.ofList repository⟩).toList.count '/' = 1 := by
  rw [toList_sourceOf, count_append, count_cons_self,
    count_eq_zero.2 (slash_notMem_map_toLower h),
    count_eq_zero.2 (slash_notMem_takeWhile repository)]

theorem ne_nil_of_isConsentPattern {repository : List Char} (hslash : '/' ∉ registry)
    (h : IsConsentPattern (sourceOf ⟨String.ofList registry, String.ofList repository⟩)) :
    registry ≠ [] ∧ repository ≠ [] := by
  obtain ⟨host, org, htext, hhost, horg, hs, -⟩ := h.two
  rw [toList_sourceOf] at htext
  -- both texts are split at their first separator
  have hsplit := (splitOnce_append (slash_notMem_map_toLower hslash)
    (repository.takeWhile (· ≠ '/'))).symm.trans (htext ▸ splitOnce_append hs org)
  simp only [Option.some.injEq, Prod.mk.injEq] at hsplit
  constructor
  · rintro rfl
    exact hhost hsplit.1.symm
  · rintro rfl
    exact horg hsplit.2.symm

/-! ### Recorded origins -/

/-- Every tool of a lock has a leaf for the host with recorded origins, and all of them are
granted. -/
structure Corroborated (store : PackageStore) (host : Platform) (lock : ProjectLock)
    (granted : String → Prop) : Prop where
  ne_nil : lock.tools ≠ []
  /-- The store vouches for every tool. -/
  tool : ∀ tool ∈ lock.tools, ∃ leaf key, lookupHostLeaf tool.platforms host = .found (leaf, key) ∧
    store.recordedOrigins (tool.repository.pinUntagged leaf) ≠ [] ∧
    ∀ origin ∈ store.recordedOrigins (tool.repository.pinUntagged leaf), granted origin

theorem nonempty_originSources
    (h : originSources origins = some sources) : sources.Nonempty := by
  cases origins with
  | nil => cases h
  | cons first rest =>
    rw [originSources] at h
    · obtain ⟨list, hlist, rfl⟩ := Option.map_eq_some_iff.1 h
      cases forall₂_of_mapM_eq_some hlist with
      | cons hfirst hrest => simp
    · simp

theorem exists_originSources_iff {P : String → Prop} :
    (∃ sources, originSources origins = some sources ∧ ∀ s ∈ sources, P s) ↔
      origins ≠ [] ∧ ∀ origin ∈ origins, ∃ s, sourceOfOrigin origin = some s ∧ P s := by
  cases origins with
  | nil => simp [originSources]
  | cons first rest =>
    rw [originSources, ← exists_mapM_eq_some_iff, and_iff_right (cons_ne_nil first rest)]
    · constructor
      · rintro ⟨sources, hsources, hP⟩
        obtain ⟨list, hlist, rfl⟩ := Option.map_eq_some_iff.1 hsources
        exact ⟨list, hlist, fun s hs => hP s (mem_toFinset.2 hs)⟩
      · rintro ⟨list, hlist, hP⟩
        exact ⟨list.toFinset, by rw [hlist]; rfl, fun s hs => hP s (mem_toFinset.1 hs)⟩
    · simp

theorem mem_foldr_union {sets : List (Finset String)} {s : String} :
    s ∈ sets.foldr (· ∪ ·) ∅ ↔ ∃ set ∈ sets, s ∈ set := by
  induction sets with
  | nil => simp
  | cons set sets ih => simp [ih]

section Verified

variable {store : PackageStore} {host : Platform} {P : String → Prop}

theorem nonempty_toolSources {tool : LockedTool}
    (h : toolSources store host tool = some sources) : sources.Nonempty := by
  rw [toolSources] at h
  split at h
  · exact nonempty_originSources h
  · cases h

theorem exists_toolSources_iff {tool : LockedTool} :
    (∃ sources, toolSources store host tool = some sources ∧ ∀ s ∈ sources, P s) ↔
      ∃ leaf key, lookupHostLeaf tool.platforms host = .found (leaf, key) ∧
        store.recordedOrigins (tool.repository.pinUntagged leaf) ≠ [] ∧
        ∀ origin ∈ store.recordedOrigins (tool.repository.pinUntagged leaf),
          ∃ s, sourceOfOrigin origin = some s ∧ P s := by
  rw [toolSources]
  cases hleaf : lookupHostLeaf tool.platforms host with
  | ambiguous items => simp
  | none => simp
  | found found =>
    obtain ⟨leaf, key⟩ := found
    simp only [exists_originSources_iff]
    constructor
    · intro h
      exact ⟨leaf, key, rfl, h⟩
    · rintro ⟨leaf', key', heq, h⟩
      cases heq
      exact h

theorem exists_verifiedSources_iff {lock : ProjectLock} :
    (∃ sources, verifiedSources store host lock = some sources ∧
        (sources.Nonempty ∧ ∀ s ∈ sources, P s)) ↔
      Corroborated store host lock fun origin => ∃ s, sourceOfOrigin origin = some s ∧ P s := by
  constructor
  · rintro ⟨sources, hsources, hne, hP⟩
    obtain ⟨sets, hsets, rfl⟩ := Option.map_eq_some_iff.1 hsources
    refine ⟨?_, fun tool htool => exists_toolSources_iff.1 ?_⟩
    · intro hnil
      rw [hnil] at hsets
      cases hsets
      simp at hne
    · refine exists_mapM_eq_some_iff.1 ⟨sets, hsets, fun set hset s hs => ?_⟩ tool htool
      exact hP s (mem_foldr_union.2 ⟨set, hset, hs⟩)
  · rintro ⟨hne, htool⟩
    obtain ⟨sets, hsets, hall⟩ := exists_mapM_eq_some_iff.2 fun tool h =>
      exists_toolSources_iff.2 (htool tool h)
    refine ⟨_, by rw [verifiedSources, hsets]; rfl, ?_, fun s hs => ?_⟩
    · obtain ⟨first, rest, htools⟩ := exists_cons_of_ne_nil hne
      rw [htools] at hsets
      cases forall₂_of_mapM_eq_some hsets with
      | cons hfirst hrest =>
        obtain ⟨s, hs⟩ := nonempty_toolSources hfirst
        exact ⟨s, mem_foldr_union.2 ⟨_, mem_cons_self, hs⟩⟩
    · obtain ⟨set, hset, hmem⟩ := mem_foldr_union.1 hs
      exact hall set hset s hmem

end Verified

/-! ### Activation by namespace -/

/-- The tiers consent to a namespace: one of them grants it, and none withdraws it. -/
def Consents (tiers : List ConsentTier) (source : String) : Prop :=
  (∃ tier ∈ tiers, tier.Grants source) ∧ ∀ tier ∈ tiers, ¬ tier.Withdraws source

/-- Every tool of a lock has a leaf for the host and recorded origins, and the tiers consent to the
namespace of each of them: its registry in lower case and its first path segment. -/
def NamespaceConsented (store : PackageStore) (host : Platform) (lock : ProjectLock)
    (tiers : List ConsentTier) : Prop :=
  Corroborated store host lock fun origin => ∃ registry repository,
    splitOnce '/' origin.toList = some (registry, repository) ∧
      Consents tiers (sourceOf ⟨String.ofList registry, String.ofList repository⟩)

theorem Accumulates.grantsNamespace_iff
    (h : Accumulates c tiers) {source : String} (hsource : source.toList.count '/' = 1) :
    c.grantsNamespace source = true ↔ Consents tiers source := by
  rw [c.grantsNamespace_iff hsource, Consents, h.excludes]
  simp only [not_exists, not_and]
  refine ⟨fun hs => ⟨?_, hs.2⟩, fun hs => ⟨h.includes_of source hs.1, hs.2⟩⟩
  refine (h.of_includes source hs.1).resolve_right ?_
  rw [h.excludes]
  rintro ⟨tier, htier, hwithdraws⟩
  exact hs.2 tier htier hwithdraws

theorem ShellConsent.isConsentPattern {p : String} (h : p ∈ c.includes) :
    IsConsentPattern p := by
  obtain ⟨paths, _ | spec⟩ := c
  · simp [ShellConsent.includes] at h
  · exact spec.isConsentPattern p (.inl h)

/-- An origin is granted when the tiers consent to its namespace. A malformed origin has a namespace
that no pattern names. -/
theorem Accumulates.origin_iff
    (h : Accumulates c tiers) (origin : String) :
    (∃ s, sourceOfOrigin origin = some s ∧ c.grantsNamespace s = true) ↔
      ∃ registry repository, splitOnce '/' origin.toList = some (registry, repository) ∧
        Consents tiers (sourceOf ⟨String.ofList registry, String.ofList repository⟩) := by
  rw [sourceOfOrigin]
  cases hsplit : splitOnce '/' origin.toList with
  | none => simp
  | some pair =>
    obtain ⟨registry, repository⟩ := pair
    have hslash := (splitOnce_eq_some.1 hsplit).2
    have hgrants := h.grantsNamespace_iff (count_sourceOf repository hslash)
    simp only [Option.some.injEq, Prod.mk.injEq]
    constructor
    · rintro ⟨s, hs, hgranted⟩
      split_ifs at hs with hnil
      cases hs
      exact ⟨registry, repository, ⟨rfl, rfl⟩, hgrants.1 hgranted⟩
    · rintro ⟨registry', repository', ⟨rfl, rfl⟩, hconsents⟩
      have hpattern := ShellConsent.isConsentPattern (h.includes_of _ hconsents.1)
      have hne := ne_nil_of_isConsentPattern hslash hpattern
      exact ⟨_, if_neg (not_or.2 hne), hgrants.2 hconsents⟩

section Evaluate

variable {home : Option (List Component)} {projectDir : String} {stamp : Option ConsentStamp}
  {store : PackageStore} {host : Platform} {lock : ProjectLock}

theorem evaluateProject_eq_activate_iff {whitelist : ShellConsent} {grant : Grant} :
    evaluateProject home projectDir stamp store host lock whitelist = .activate grant ↔
      match grant with
      | .path => pathGranted home projectDir whitelist = true
      | .stamp => pathGranted home projectDir whitelist = false ∧
          stampCovers projectDir stamp (lockSources lock) = true
      | .namespaces => pathGranted home projectDir whitelist = false ∧
          stampCovers projectDir stamp (lockSources lock) = false ∧
          ∃ sources, verifiedSources store host lock = some sources ∧
            (sources.Nonempty ∧ ∀ s ∈ sources, whitelist.grantsNamespace s = true) := by
  have hverified : (verifiedSources store host lock).any (namespaceGranted · whitelist) = true ↔
      ∃ sources, verifiedSources store host lock = some sources ∧
        (sources.Nonempty ∧ ∀ s ∈ sources, whitelist.grantsNamespace s = true) := by
    rw [Option.any_eq_true]
    simp [namespaceGranted, decide_eq_true_eq]
  rw [← hverified, evaluateProject, evaluateWithStamp]
  -- the first clause that applies decides
  split_ifs with hpath hstamp hnamespace hclaimed
  · cases grant <;> simp [hpath]
  · cases grant <;> simp [hpath, hstamp]
  · cases grant <;> simp [hpath, hstamp, hnamespace]
  · cases grant <;> simp [hpath, hstamp, hnamespace]
  · split <;> cases grant <;> simp [hpath, hstamp, hnamespace]

end Evaluate

theorem Accumulates.pathGranted_iff {home : Option (List Component)} {projectDir : String}
    (h : Accumulates c tiers) :
    pathGranted home projectDir c = true ↔
      ∃ tier ∈ tiers, ∃ entry ∈ tier.consentPaths, consentPathMatches home entry projectDir := by
  rw [pathGranted, any_eq_true]
  constructor
  · rintro ⟨entry, hentry, hmatch⟩
    obtain ⟨tier, htier, hmem⟩ := (h.paths entry).1 hentry
    exact ⟨tier, htier, entry, hmem, hmatch⟩
  · rintro ⟨tier, htier, entry, hmem, hmatch⟩
    exact ⟨entry, (h.paths entry).2 ⟨tier, htier, hmem⟩, hmatch⟩

theorem Accumulates.verified_iff {store : PackageStore} {host : Platform} {lock : ProjectLock}
    (h : Accumulates c tiers) :
    (∃ sources, verifiedSources store host lock = some sources ∧
        (sources.Nonempty ∧ ∀ s ∈ sources, c.grantsNamespace s = true)) ↔
      NamespaceConsented store host lock tiers := by
  rw [exists_verifiedSources_iff, NamespaceConsented]
  simp [h.origin_iff]

section Activation

variable {home : Option (List Component)} {projectDir : String} {stamp : Option ConsentStamp}
  {store : PackageStore} {host : Platform} {lock : ProjectLock}

theorem activate_mono {small large : List ConsentTier} {d : ShellConsent}
    (hc : Accumulates c small) (hd : Accumulates d large)
    (hpath : pathGranted home projectDir c = pathGranted home projectDir d)
    (hconsents : ∀ source, Consents small source → Consents large source) {grant : Grant}
    (h : evaluateProject home projectDir stamp store host lock c = .activate grant) :
    evaluateProject home projectDir stamp store host lock d = .activate grant := by
  rw [evaluateProject_eq_activate_iff] at h ⊢
  cases grant with
  | path => exact hpath ▸ h
  | stamp => exact hpath ▸ h
  | namespaces =>
    rw [hc.verified_iff] at h
    rw [hd.verified_iff, ← hpath]
    refine ⟨h.1, h.2.1, h.2.2.ne_nil, fun tool htool => ?_⟩
    obtain ⟨leaf, key, hleaf, hne, horigins⟩ := h.2.2.tool tool htool
    refine ⟨leaf, key, hleaf, hne, fun origin horigin => ?_⟩
    obtain ⟨registry, repository, hsplit, hsource⟩ := horigins origin horigin
    exact ⟨registry, repository, hsplit, hconsents _ hsource⟩

theorem consents_of_perm (h : tiers'.Perm tiers)
    {source : String} (hs : Consents tiers' source) : Consents tiers source := by
  obtain ⟨⟨tier, htier, hgrants⟩, hnone⟩ := hs
  exact ⟨⟨tier, h.mem_iff.1 htier, hgrants⟩, fun t ht => hnone t (h.mem_iff.2 ht)⟩

theorem pathGranted_of_perm (h : tiers'.Perm tiers)
    {c' : ShellConsent} (hc : Accumulates c tiers) (hc' : Accumulates c' tiers') :
    pathGranted home projectDir c' = pathGranted home projectDir c := by
  rw [Bool.eq_iff_iff, hc.pathGranted_iff, hc'.pathGranted_iff]
  simp [h.mem_iff]

theorem managed_unpinned {source : PackageRef} (h : source.digest = none)
    (table : Option RawConsent) :
    (ConsentTier.managed source table).includePatterns = [] ∧
      (ConsentTier.managed source table).consentPaths = [] := by
  cases table <;> simp [ConsentTier.includePatterns, ConsentTier.consentPaths, h]

end Activation

/-- **Activation by namespace is decided by what this host pulled and by the operator's tiers.**
Without a stamp or a directory that applies, a project activates by namespace exactly when its lock
has a tool, every tool has a leaf for the host and recorded origins, and the tiers consent to the
namespace of every origin.  The tiers may be merged in any order.  A managed payload from an
unpinned source, merged anywhere among them, takes activations away only. -/
theorem activates_by_namespace_iff (home : Option (List Component)) (projectDir : String)
    (stamp : Option ConsentStamp) (store : PackageStore) (host : Platform) (lock : ProjectLock)
    (tiers : List ConsentTier) (whitelist : ShellConsent)
    (hload : loadConsent tiers = .ok whitelist) :
    (stampCovers projectDir stamp (lockSources lock) = false →
      pathGranted home projectDir whitelist = false →
      (evaluateProject home projectDir stamp store host lock whitelist = .activate .namespaces ↔
        NamespaceConsented store host lock tiers)) ∧
    (∀ tiers', tiers'.Perm tiers → ∃ whitelist', loadConsent tiers' = .ok whitelist' ∧
      ∀ grant, evaluateProject home projectDir stamp store host lock whitelist' = .activate grant ↔
        evaluateProject home projectDir stamp store host lock whitelist = .activate grant) ∧
    (∀ before after source payload, tiers = before ++ after → source.digest = none →
      ∃ whitelist', loadConsent (before ++ .managed source payload :: after) = .ok whitelist' ∧
        ∀ grant,
          evaluateProject home projectDir stamp store host lock whitelist' = .activate grant →
          evaluateProject home projectDir stamp store host lock whitelist = .activate grant) := by
  have hacc := accumulates_loadConsent hload
  have hok := exists_loadConsent_iff.1 ⟨whitelist, hload⟩
  refine ⟨fun hstamp hpath => ?_, fun tiers' hperm => ?_, ?_⟩
  · rw [evaluateProject_eq_activate_iff]
    simp only [hstamp, hpath, true_and]
    exact hacc.verified_iff
  · obtain ⟨whitelist', hload'⟩ :=
      exists_loadConsent_iff.2 fun tier htier => hok tier (hperm.mem_iff.1 htier)
    have hacc' := accumulates_loadConsent hload'
    refine ⟨whitelist', hload', fun grant => ⟨?_, ?_⟩⟩
    · exact activate_mono hacc' hacc (pathGranted_of_perm hperm hacc hacc')
        fun _ => consents_of_perm hperm
    · exact activate_mono hacc hacc' (pathGranted_of_perm hperm hacc hacc').symm
        fun _ => consents_of_perm hperm.symm
  · rintro before after source payload rfl hdigest
    obtain ⟨hinc, hpaths⟩ := managed_unpinned hdigest payload
    obtain ⟨whitelist', hload'⟩ : ∃ c, loadConsent (before ++ .managed source payload :: after) =
        .ok c := by
      refine exists_loadConsent_iff.2 fun tier htier => ?_
      rcases mem_append.1 htier with h | h
      · exact hok tier (mem_append_left _ h)
      · rcases mem_cons.1 h with rfl | h
        · exact exists_contribution_managed source payload
        · exact hok tier (mem_append_right _ h)
    have hacc' := accumulates_loadConsent hload'
    refine ⟨whitelist', hload', fun grant => activate_mono hacc' hacc ?_ ?_⟩
    · rw [Bool.eq_iff_iff, hacc.pathGranted_iff, hacc'.pathGranted_iff]
      simp [or_and_right, exists_or, hpaths]
    · rintro s ⟨⟨tier, htier, hgrants⟩, hnone⟩
      refine ⟨⟨tier, ?_, hgrants⟩, fun t ht => hnone t ?_⟩
      · -- the payload itself grants nothing
        have hne : tier ≠ .managed source payload := by
          rintro rfl
          simp [ConsentTier.Grants, hinc] at hgrants
        simpa [hne] using htier
      · rw [mem_append] at ht ⊢
        exact ht.imp_right (mem_cons_of_mem _)

/-- A configuration file that grants one organisation. -/
def acmeTiers : List ConsentTier := [.file (some ⟨[], some (.pattern "ocx.sh/acme/*"), none⟩)]

/-- A lock of one tool with one leaf for every platform. -/
def acmeLock : ProjectLock :=
  ⟨⟨.v4, ""⟩, [⟨"tool", "default", ⟨"ocx.sh", "acme/tool"⟩, none,
    (∅ : Platforms).insert "any" (repeatedDigest 'a')⟩]⟩

/-- A store that pulled every package from one repository. -/
def acmeStore : PackageStore :=
  ⟨⟨[], [], [], []⟩, fun _ => [("marker", "OCX.sh/acme/tool\n")], fun _ => "marker"⟩

/-- A project whose tool was pulled from the granted organisation activates. -/
theorem acme_activates : ∃ whitelist, loadConsent acmeTiers = .ok whitelist ∧
    evaluateProject none "/w/acme" none acmeStore .any acmeLock whitelist =
      .activate .namespaces := by
  obtain ⟨whitelist, hload⟩ : ∃ c, loadConsent acmeTiers = .ok c := ⟨_, rfl⟩
  have hpath : pathGranted none "/w/acme" whitelist = false := by
    cases hload; rfl
  refine ⟨whitelist, hload, ((activates_by_namespace_iff none "/w/acme" none acmeStore .any acmeLock
    acmeTiers whitelist hload).1 rfl hpath).2 ⟨by simp [acmeLock], fun tool htool => ?_⟩⟩
  obtain rfl := mem_singleton.1 htool
  have horigins : acmeStore.recordedOrigins (Repository.pinUntagged ⟨"ocx.sh", "acme/tool"⟩
      (repeatedDigest 'a')) = ["OCX.sh/acme/tool"] := by decide
  refine ⟨repeatedDigest 'a', "any", rfl, by rw [horigins]; simp, fun origin horigin => ?_⟩
  rw [horigins, mem_singleton] at horigin
  subst horigin
  refine ⟨"OCX.sh".toList, "acme/tool".toList, by decide, ?_, ?_⟩
  · exact ⟨_, mem_singleton_self _, "ocx.sh/acme/*", by decide, by decide⟩
  · rintro tier htier ⟨pattern, hpattern, -⟩
    obtain rfl := mem_singleton.1 htier
    simp [ConsentTier.excludePatterns, RawConsent.excludePatterns] at hpattern

end Ocx
