import Ocx.Config.Basic

/-!
# Loading the configuration

The loader merges the system file, the files of the user and of the home, the managed payload and
the files named explicitly, in this order, over compiled-in defaults.  The files named explicitly
are first merged among themselves.  What the system file locks is the same whatever the other tiers
contribute, and also when ambient configuration is switched off.
-/

namespace Ocx

open List Option

/-! ### Tiers -/

/-- A document without locked policies, as parsing makes it: a lock cannot be written down. -/
def Config.Unlocked (c : Config) : Prop := ∀ p ∈ c.trustPolicies, p.systemLocked = false

/-- A document as the loader takes it from a file. -/
structure FileConfig where
  config : Config
  unlocked : config.Unlocked

/-- A file merged after the system file. The path of a tier may name the system file again, which is
then locked again. -/
inductive FileTier
  | systemFile
  | file (file : FileConfig)

/-- A managed payload, and the reference it was fetched from. -/
structure ManagedPayload where
  source : PackageRef
  /-- The parsed payload. -/
  config : Config
  unlocked : config.Unlocked

/-- What is merged after the system file. -/
structure Tiers where
  /-- The files of the user and of the home. -/
  discovered : List FileTier
  /-- The managed payload, if one applies. -/
  managed : Option ManagedPayload
  /-- The files named in the environment and on the command line. -/
  explicit : List FileTier

/-! ### Loading -/

/-- The reference to a key is taken from a signer; a signer left without a key accepts nobody. -/
def SignerSpec.withoutKeyPath : SignerSpec → SignerSpec
  | .key ⟨some _, none⟩ => .unknown
  | .key ⟨_, keyPem⟩ => .key ⟨none, keyPem⟩
  | signer => signer

/-- Take from a payload the trust settings that it may not make: paths of this machine, and without
a pinned source also the trust root and the endpoints. -/
def guardManagedSigstoreTrust (source : PackageRef) (c : Config) : Config :=
  { c with
    extraCaCerts := none
    trust := c.trust.map fun t =>
      { policy := t.policy.map fun p =>
          { p with signers := p.signers.map SignerSpec.withoutKeyPath }
        sigstore := t.sigstore.map fun s =>
          if source.digest.isSome then { s with trustedRoot := none }
          else { s with
            trustedRoot := none, trustedRootJson := none, fulcioUrl := none, rekorUrl := none } } }

/-- Why the consent table of an unpinned payload was dropped. -/
def managedStripReason (source : PackageRef) (carveOuts : List String) : String :=
  let kept :=
    if carveOuts.isEmpty then ""
    else "; its namespaces exclude list (" ++ ", ".intercalate carveOuts ++
      ") was kept, since a withdrawal can only ever narrow"
  "managed-config payload for '" ++ source.toString ++
    "' carries [shell.consent] but the [managed] source is not digest-pinned; " ++
    "the grant was ignored" ++ kept ++ " (pin the source to a digest so an activation grant " ++
    "cannot be added by whoever can move the tag)"

/-- What the loader merges of a managed payload. -/
def ManagedPayload.contribution (payload : ManagedPayload) : Config :=
  let c := guardManagedSigstoreTrust payload.source
    { payload.config with managed := none, update := none }
  { c with
    shell := c.shell.map fun shell =>
      { shell with
        consent := shell.consent.bind (guardManagedShellConsent payload.source)
        consentStripReason := shell.consent.elim shell.consentStripReason fun consent =>
          if payload.source.digest.isSome then shell.consentStripReason
          else some (managedStripReason payload.source consent.excludes)
        hookTier := if shell.hook.isSome then some .managed else shell.hookTier
        completionsTier :=
          if shell.completions.isSome then some .managed else shell.completionsTier } }

/-- What the loader merges of a file. -/
def FileTier.contribution (system : FileConfig) : FileTier → Config
  | systemFile => applySystemLocks system.config
  | file f => f.config

/-- Merge documents in order. -/
def loadAndMerge (contributions : List Config) : Config := contributions.foldl Config.merge {}

/-- The registry of the program itself. -/
def ocxShRegistry : String := "ocx.sh"

/-- The index of the program's own registry. -/
def defaultIndexBaseUrl : String := "https://index.ocx.sh"

/-- The compiled-in tier. -/
def builtinDefaults : Config :=
  { registries := some ((∅ : Std.ExtTreeMap String RegistryConfig).insert ocxShRegistry
      { index := some defaultIndexBaseUrl, indexIsCompiledDefault := true }) }

section Load

variable (system : FileConfig)

/-- The files named explicitly, merged among themselves. -/
def overlay (explicit : List FileTier) : Config :=
  loadAndMerge (explicit.map (FileTier.contribution system))

/-- The merged document. -/
def load (tiers : Tiers) : Config :=
  let discovered := loadAndMerge (applySystemLocks system.config ::
    tiers.discovered.map (FileTier.contribution system))
  let base := builtinDefaults.merge discovered
  let merged := tiers.managed.elim base fun payload => base.merge payload.contribution
  merged.merge (overlay system tiers.explicit)

/-- The merged document without ambient configuration: of the discovered files only the system file
is read, and only its locked sections are kept. -/
def loadNoConfig (explicit : List FileTier) : Config :=
  let discovered := retainSystemLockedSections (loadAndMerge [applySystemLocks system.config])
  (builtinDefaults.merge discovered).merge (overlay system explicit)

end Load

open Config RegistryConfig

/-! ### Parts that ignore what is merged into them -/

section Absorbs

variable {σ : Type} {system : FileConfig} {part : Config → σ} {merge : σ → σ → σ}

/-- A part of the merged document that is the same in every load, with and without ambient
configuration. -/
def Settled (system : FileConfig) (part : Config → σ) : Prop :=
  ∃ value, (∀ tiers, part (load system tiers) = value) ∧
    ∀ explicit, part (loadNoConfig system explicit) = value

/-- **A part that ignores what is merged into it is the same in every load.** The part of the system
file is first merged into the empty document, and the result into the compiled-in tier. -/
theorem load_of_absorbs (hom : ∀ a b : Config, part (a.merge b) = merge (part a) (part b))
    {locked : σ} (hsystem : merge (part {}) (part (applySystemLocks system.config)) = locked)
    (hlocked : Absorbs merge locked) (hbase : Absorbs merge (merge (part builtinDefaults) locked))
    (tiers : Tiers) : part (load system tiers) = merge (part builtinDefaults) locked := by
  have hfirst : part (Config.merge {} (applySystemLocks system.config)) = locked := by
    rw [hom, hsystem]
  have hdiscovered : part (builtinDefaults.merge (loadAndMerge (applySystemLocks system.config ::
      tiers.discovered.map (FileTier.contribution system)))) =
        merge (part builtinDefaults) locked := by
    rw [hom, loadAndMerge, foldl_cons, foldl_of_absorbs hom (hfirst ▸ hlocked), hfirst]
  rw [load, hom]
  cases tiers.managed with
  | none => rw [elim_none, hdiscovered, hbase]
  | some payload => rw [elim_some, hom, hdiscovered, hbase, hbase]

theorem settled_of_absorbs (hom : ∀ a b : Config, part (a.merge b) = merge (part a) (part b))
    {locked : σ} (hsystem : merge (part {}) (part (applySystemLocks system.config)) = locked)
    (hretained : part (retainSystemLockedSections
      (Config.merge {} (applySystemLocks system.config))) = locked)
    (hlocked : Absorbs merge locked) (hbase : Absorbs merge (merge (part builtinDefaults) locked)) :
    Settled system part := by
  refine ⟨_, load_of_absorbs hom hsystem hlocked hbase, fun explicit => ?_⟩
  rw [loadNoConfig, hom, hom]
  show merge (merge _ (part (retainSystemLockedSections (Config.merge {} _)))) _ = _
  rw [hretained, hbase]

theorem settled_section {α : Type} {part : Config → Option α} {merge : α → α → α} (locked : α)
    (hom : ∀ a b : Config, part (a.merge b) = mergeOption merge (part a) (part b))
    (hempty : part {} = none) (hbuiltin : part builtinDefaults = none)
    (hsystem : part (applySystemLocks system.config) = some locked)
    (hretained : ∀ c : Config, part c = some locked →
      part (retainSystemLockedSections c) = some locked)
    (hlocked : Absorbs merge locked) : Settled system part := by
  have hfirst : part (Config.merge {} (applySystemLocks system.config)) = some locked := by
    rw [hom, hempty, hsystem]
    rfl
  refine settled_of_absorbs hom (hom _ _ ▸ hfirst) (hretained _ hfirst) hlocked.mergeOption ?_
  rw [hbuiltin, none_mergeOption]
  exact hlocked.mergeOption

end Absorbs

/-! ### The sections of the system file -/

section Sections

variable {system : FileConfig}

theorem RegistryDefaults.absorbs {r : RegistryDefaults} (h : r.systemLocked = true) :
    Absorbs merge r := fun _ => if_pos h

theorem RegistryConfig.absorbs {r : RegistryConfig} (h : r.systemLocked = true) :
    Absorbs merge r := fun _ => if_pos h

theorem PatchConfig.absorbs {p : PatchConfig} (h : p.systemLocked = true) :
    Absorbs merge p := fun _ => if_pos h

theorem ManagedConfig.absorbs {m : ManagedConfig} (h : m.systemLocked = true) :
    Absorbs merge m := fun _ => if_pos h

theorem RecordsOptions.absorbs {r : RecordsOptions} (h : r.systemLocked = true) :
    Absorbs merge r := fun _ => if_pos h

theorem SigstoreTrust.absorbs {s : SigstoreTrust} (h : s.systemLocked = true) :
    Absorbs merge s := fun _ => if_pos h

theorem mergeRole_absorbs {role : Option String × Bool} (h : role.2 = true) :
    Absorbs mergeRole role := fun _ => if_pos h

theorem mergeExtraCaCerts_absorbs {pair : Option String × Option String × Bool}
    (h : pair.2.2 = true) : Absorbs mergeExtraCaCerts pair := by
  simp [Absorbs, mergeExtraCaCerts, h]

theorem settled_registry {r : RegistryDefaults} (h : system.config.registry = some r) :
    Settled system registry := by
  refine settled_section r.lockAsSystem (fun _ _ => rfl) rfl rfl ?_ ?_
    (RegistryDefaults.absorbs rfl)
  · simp [applySystemLocks, h]
  · intro c hc
    simp [retainSystemLockedSections, hc, RegistryDefaults.lockAsSystem]

theorem settled_records {r : RecordsOptions} (h : system.config.records = some r) :
    Settled system records := by
  refine settled_section r.lockAsSystem (fun _ _ => rfl) rfl rfl ?_ ?_ (RecordsOptions.absorbs rfl)
  · simp [applySystemLocks, h]
  · intro c hc
    simp [retainSystemLockedSections, hc, RecordsOptions.lockAsSystem]

theorem settled_patches {p : PatchConfig} (h : system.config.patches = some p)
    (hrequired : p.isRequired = true) : Settled system patches := by
  have hlocked : p.lockAsSystem.systemLocked = true := by
    rw [PatchConfig.lockAsSystem, if_pos hrequired]
  refine settled_section p.lockAsSystem (fun _ _ => rfl) rfl rfl ?_ ?_ (PatchConfig.absorbs hlocked)
  · simp [applySystemLocks, h]
  · intro c hc
    simp [retainSystemLockedSections, hc, hlocked]

/-- The sub-table `[trust.sigstore]` of a document. -/
def Config.sigstore (c : Config) : Option SigstoreTrust := c.trust.bind (·.sigstore)

theorem Config.sigstore_merge (a b : Config) :
    (a.merge b).sigstore = mergeOption SigstoreTrust.merge a.sigstore b.sigstore := by
  cases ha : a.trust <;> cases hb : b.trust <;>
    simp [sigstore, merge, TrustConfig.merge, ha, hb]

theorem settled_sigstore {s : SigstoreTrust} (h : system.config.sigstore = some s) :
    Settled system sigstore := by
  refine settled_section s.lockAsSystem sigstore_merge rfl rfl ?_ ?_
    (SigstoreTrust.absorbs rfl)
  · obtain ⟨t, ht, hs⟩ := bind_eq_some_iff.1 h
    simp [sigstore, applySystemLocks, ht, TrustConfig.lockAsSystem, hs]
  · intro c hc
    obtain ⟨t, ht, hs⟩ := bind_eq_some_iff.1 hc
    simp [sigstore, retainSystemLockedSections, ht, TrustConfig.retainLocked, hs,
      SigstoreTrust.lockAsSystem, filter_some]

/-! ### The tables of the system file -/

theorem getD_mergeTable {α : Type} (merge : α → α → α) (default : α)
    (own added : Option (Std.ExtTreeMap String α)) (k : String) :
    ((mergeTable merge default own added).getD ∅)[k]? =
      mergeEntry merge default (own.getD ∅)[k]? (added.getD ∅)[k]? := by
  cases added with
  | none => simp [mergeTable, mergeEntry]
  | some added => exact getElem?_mergeMap merge default _ _ k

theorem getD_filter_table {α : Type} {keep : α → Bool} {own : Option (Std.ExtTreeMap String α)}
    {k : String} {e : α} (h : (own.getD ∅)[k]? = some e) (hkeep : keep e = true) :
    (((own.map fun entries => entries.filter fun _ e => keep e).filter
      fun entries => !entries.isEmpty).getD ∅)[k]? = some e := by
  cases own with
  | none => simp at h
  | some entries =>
    have hentry : (entries.filter fun _ e => keep e)[k]? = some e := by
      rw [getElem?_filterValues, show entries[k]? = some e from h, filter_some, if_pos hkeep]
    have hne : (entries.filter fun _ e => keep e).isEmpty = false := by
      rw [Bool.eq_false_iff]
      intro hempty
      rw [Std.ExtTreeMap.isEmpty_iff] at hempty
      rw [hempty] at hentry
      simp at hentry
    simp [filter_some, hne, hentry]

theorem RegistryConfig.systemLocked_merge {own added : RegistryConfig}
    (h : added.systemLocked = true) : (own.merge added).systemLocked = true := by
  rw [merge]
  by_cases hown : own.systemLocked = true
  · rwa [if_pos hown]
  · rwa [if_neg hown]

theorem settled_registries {name : String} {r : RegistryConfig}
    (h : system.config.registryEntries[name]? = some r) :
    Settled system fun c => c.registryEntries[name]? := by
  have hlocked : (RegistryConfig.merge {} r.lockAsSystem).systemLocked = true :=
    RegistryConfig.systemLocked_merge rfl
  have hom : ∀ a b : Config, (a.merge b).registryEntries[name]? =
      mergeEntry RegistryConfig.merge {} a.registryEntries[name]? b.registryEntries[name]? :=
    fun a b => getD_mergeTable _ _ _ _ _
  have hsystem : (applySystemLocks system.config).registryEntries[name]? =
      some r.lockAsSystem := by
    cases hentries : system.config.registries with
    | none => simp [registryEntries, hentries] at h
    | some entries =>
      simp only [registryEntries, hentries, getD_some] at h
      simp [registryEntries, applySystemLocks, hentries, h]
  have hfirst : (merge {} (applySystemLocks system.config)).registryEntries[name]? =
      some (merge {} r.lockAsSystem) := by
    rw [hom, hsystem]
    rfl
  refine settled_of_absorbs hom (hom _ _ ▸ hfirst) ?_
    ((RegistryConfig.absorbs hlocked).mergeEntry _)
    ((RegistryConfig.absorbs (RegistryConfig.systemLocked_merge hlocked)).mergeEntry _)
  exact getD_filter_table hfirst hlocked

theorem settled_mirror {host : String} {m : MirrorConfig}
    {role : MirrorConfig → Option String × Bool}
    (hmerge : ∀ a b : MirrorConfig, role (a.merge b) = mergeRole (role a) (role b))
    (hdefault : role {} = (none, false))
    (hkeep : ∀ a, (role a).2 = true → (a.registrySystemLocked || a.indexSystemLocked) = true)
    (h : system.config.mirrorEntries[host]? = some m) (hlocked : (role m.lockAsSystem).2 = true) :
    Settled system fun c => c.mirrorEntries[host]?.map role := by
  have hentry : ∀ a b : Config, (a.merge b).mirrorEntries[host]? =
      mergeEntry MirrorConfig.merge {} a.mirrorEntries[host]? b.mirrorEntries[host]? :=
    fun a b => getD_mergeTable _ _ _ _ _
  have hom : ∀ a b : Config, (a.merge b).mirrorEntries[host]?.map role =
      mergeEntry mergeRole (none, false) (a.mirrorEntries[host]?.map role)
        (b.mirrorEntries[host]?.map role) := by
    intro a b
    rw [hentry]
    cases a.mirrorEntries[host]? <;> cases b.mirrorEntries[host]? <;>
      simp [mergeEntry, hmerge, hdefault]
  have hsystem : (applySystemLocks system.config).mirrorEntries[host]? =
      some m.lockAsSystem := by
    cases hentries : system.config.mirrors with
    | none => simp [Config.mirrorEntries, hentries] at h
    | some entries =>
      simp only [Config.mirrorEntries, hentries, getD_some] at h
      simp [Config.mirrorEntries, applySystemLocks, hentries, h]
  have hfirst : (Config.merge {} (applySystemLocks system.config)).mirrorEntries[host]? =
      some (MirrorConfig.merge {} m.lockAsSystem) := by
    rw [hentry, hsystem]
    rfl
  have hrole : (role (MirrorConfig.merge {} m.lockAsSystem)).2 = true := by
    rw [hmerge, hdefault]
    exact hlocked
  refine settled_of_absorbs hom (hom _ _ ▸ congrArg (Option.map role) hfirst) ?_
    ((mergeRole_absorbs hrole).mergeEntry _) ((mergeRole_absorbs ?_).mergeEntry _)
  · exact congrArg (Option.map role) (getD_filter_table hfirst (hkeep _ hrole))
  · show (if _ then _ else _ : Option String × Bool).2 = true
    split_ifs with hown
    · exact hown
    · exact hrole

theorem settled_extraCa (h : system.config.setsExtraCaCerts = true) :
    Settled system Config.extraCa := by
  -- both the empty document and the compiled-in tier leave the pair open
  have hopen : mergeExtraCaCerts (none, none, false)
      (system.config.extraCaCerts, system.config.extraCaCertsPem, true) =
        (system.config.extraCaCerts, system.config.extraCaCertsPem, true) := if_pos h
  have hsystem : mergeExtraCaCerts (extraCa {}) (applySystemLocks system.config).extraCa =
      (system.config.extraCaCerts, system.config.extraCaCertsPem, true) := by
    simpa [extraCa, applySystemLocks, h] using hopen
  refine settled_of_absorbs (fun _ _ => rfl) hsystem ?_ (mergeExtraCaCerts_absorbs rfl)
    (mergeExtraCaCerts_absorbs (congrArg (·.2.2) hopen))
  have hfirst : (merge {} (applySystemLocks system.config)).extraCa =
      (system.config.extraCaCerts, system.config.extraCaCertsPem, true) := hsystem
  simp only [extraCa, Prod.mk.injEq] at hfirst
  simp [extraCa, retainSystemLockedSections, hfirst]

/-! ### The policies of the system file -/

theorem Config.trustPolicies_merge (a b : Config) :
    (a.merge b).trustPolicies = a.trustPolicies ++ b.trustPolicies := by
  cases ha : a.trust <;> cases hb : b.trust <;>
    simp [trustPolicies, merge, TrustConfig.merge, ha, hb]

theorem trustPolicies_foldl (contributions : List Config) (c : Config) :
    (contributions.foldl Config.merge c).trustPolicies =
      c.trustPolicies ++ contributions.flatMap trustPolicies := by
  induction contributions generalizing c with
  | nil => simp
  | cons b contributions ih => simp [ih, trustPolicies_merge]

def FileConfig.systemPolicies (system : FileConfig) : List TrustPolicy :=
  (applySystemLocks system.config).trustPolicies

theorem systemLocked_of_mem_systemPolicies {p : TrustPolicy} (h : p ∈ system.systemPolicies) :
    p.systemLocked = true := by
  cases ht : system.config.trust with
  | none => simp [FileConfig.systemPolicies, trustPolicies, applySystemLocks, ht] at h
  | some t =>
    simp only [FileConfig.systemPolicies, trustPolicies, applySystemLocks, ht,
      map_some, elim_some, TrustConfig.lockAsSystem, List.mem_map] at h
    obtain ⟨q, -, rfl⟩ := h
    rfl

/-- The only locked policies of a list are those of the system file. -/
def LockedBySystem (system : FileConfig) (policies : List TrustPolicy) : Prop :=
  ∀ p ∈ policies, p.systemLocked = true → p ∈ system.systemPolicies

theorem lockedBySystem_contribution (tier : FileTier) :
    LockedBySystem system (tier.contribution system).trustPolicies := by
  intro p hp hlocked
  cases tier with
  | systemFile => exact hp
  | file f => simp [f.unlocked p hp] at hlocked

theorem lockedBySystem_flatMap (tiers : List FileTier) :
    LockedBySystem system
      ((tiers.map (FileTier.contribution system)).flatMap trustPolicies) := by
  intro p hp hlocked
  obtain ⟨c, hc, hmem⟩ := mem_flatMap.1 hp
  obtain ⟨tier, -, rfl⟩ := mem_map.1 hc
  exact lockedBySystem_contribution tier p hmem hlocked

theorem lockedBySystem_managed (payload : ManagedPayload) :
    LockedBySystem system payload.contribution.trustPolicies := by
  intro p hp hlocked
  cases ht : payload.config.trust with
  | none =>
    simp [ManagedPayload.contribution, guardManagedSigstoreTrust, trustPolicies, ht] at hp
  | some t =>
    simp only [ManagedPayload.contribution, guardManagedSigstoreTrust, trustPolicies, ht,
      map_some, elim_some, List.mem_map] at hp
    obtain ⟨q, hq, rfl⟩ := hp
    have hunlocked := payload.unlocked q (by simp [trustPolicies, ht, hq])
    simp [hunlocked] at hlocked

theorem trustPolicies_load (tiers : Tiers) : ∃ rest,
    (load system tiers).trustPolicies = system.systemPolicies ++ rest ∧
      LockedBySystem system rest := by
  have hoverlay : LockedBySystem system (overlay system tiers.explicit).trustPolicies := by
    rw [overlay, loadAndMerge, trustPolicies_foldl]
    exact lockedBySystem_flatMap tiers.explicit
  have hdiscovered : (loadAndMerge (applySystemLocks system.config ::
      tiers.discovered.map (FileTier.contribution system))).trustPolicies =
      system.systemPolicies ++
        (tiers.discovered.map (FileTier.contribution system)).flatMap Config.trustPolicies := by
    rw [loadAndMerge, trustPolicies_foldl, flatMap_cons]
    rfl
  have happend : ∀ {first second : List TrustPolicy}, LockedBySystem system first →
      LockedBySystem system second → LockedBySystem system (first ++ second) :=
    fun hfirst hsecond p hp => (mem_append.1 hp).elim (hfirst p) (hsecond p)
  have hflat := @lockedBySystem_flatMap system tiers.discovered
  have hbuiltin : builtinDefaults.trustPolicies = [] := rfl
  rw [load, Config.trustPolicies_merge]
  cases tiers.managed with
  | none =>
    refine ⟨_, ?_, happend hflat hoverlay⟩
    rw [elim_none, Config.trustPolicies_merge, hdiscovered]
    simp [hbuiltin, nil_append, append_assoc]
  | some payload =>
    refine ⟨_, ?_, happend (happend hflat (lockedBySystem_managed payload)) hoverlay⟩
    rw [elim_some, Config.trustPolicies_merge, Config.trustPolicies_merge, hdiscovered]
    simp [hbuiltin, nil_append, append_assoc]

theorem trustPolicies_retain (c : Config) :
    (retainSystemLockedSections c).trustPolicies = c.trustPolicies.filter (·.systemLocked) := by
  cases ht : c.trust with
  | none => simp [trustPolicies, retainSystemLockedSections, ht]
  | some t =>
    simp only [trustPolicies, retainSystemLockedSections, ht, map_some,
      elim_some, filter_some]
    split_ifs with hkeep
    · rfl
    · -- the section is dropped when no policy is locked
      rw [Bool.or_eq_true, not_or] at hkeep
      simpa [TrustConfig.retainLocked] using hkeep.1

theorem trustPolicies_loadNoConfig (explicit : List FileTier) : ∃ rest,
    (loadNoConfig system explicit).trustPolicies = system.systemPolicies ++ rest ∧
      LockedBySystem system rest := by
  have hkept : (retainSystemLockedSections
      (loadAndMerge [applySystemLocks system.config])).trustPolicies = system.systemPolicies := by
    rw [trustPolicies_retain, loadAndMerge, trustPolicies_foldl, flatMap_singleton]
    exact filter_eq_self.2 fun p hp => systemLocked_of_mem_systemPolicies hp
  refine ⟨(overlay system explicit).trustPolicies, ?_, ?_⟩
  · rw [loadNoConfig, Config.trustPolicies_merge, Config.trustPolicies_merge, hkept]
    rfl
  · rw [overlay, loadAndMerge, trustPolicies_foldl]
    exact lockedBySystem_flatMap explicit

end Sections

/-! ### What the system file locks -/

/-- The parts of a merged document that the system file locks; `none` where it locks nothing. -/
@[ext] structure LockedParts where
  registry : Option RegistryDefaults
  registries : String → Option RegistryConfig
  mirrorRegistry : String → Option (Option String × Bool)
  mirrorIndex : String → Option (Option String × Bool)
  patches : Option PatchConfig
  records : Option RecordsOptions
  sigstore : Option SigstoreTrust
  /-- The policies in the place of those of the system file. -/
  policies : List TrustPolicy
  lockedPolicies : Set TrustPolicy
  extraCa : Option (Option String × Option String × Bool)

/-- A part of a document, where the system file locks it. -/
def whereLocked {σ : Type} (locks : Bool) (part : Option σ) : Option σ :=
  if locks then part else none

/-- The parts of a merged document that the system file locks, apart from `[managed]`. -/
def lockedParts (system : FileConfig) (merged : Config) : LockedParts where
  registry := whereLocked system.config.registry.isSome merged.registry
  registries name :=
    whereLocked system.config.registryEntries[name]?.isSome merged.registryEntries[name]?
  mirrorRegistry host :=
    whereLocked (system.config.mirrorEntries[host]?.any (·.registry.isSome))
      (merged.mirrorEntries[host]?.map MirrorConfig.registryRole)
  mirrorIndex host :=
    whereLocked (system.config.mirrorEntries[host]?.any (·.index.isSome))
      (merged.mirrorEntries[host]?.map MirrorConfig.indexRole)
  patches := whereLocked (system.config.patches.any (·.isRequired)) merged.patches
  records := whereLocked system.config.records.isSome merged.records
  sigstore := whereLocked system.config.sigstore.isSome merged.sigstore
  policies := merged.trustPolicies.take system.config.trustPolicies.length
  lockedPolicies := {p | p ∈ merged.trustPolicies ∧ p.systemLocked = true}
  extraCa := whereLocked system.config.setsExtraCaCerts (some merged.extraCa)

/-- The section `[managed]` of a merged document, where the system file locks it. -/
def lockedManaged (system : FileConfig) (merged : Config) : Option ManagedConfig :=
  whereLocked (system.config.managed.any (·.isRequired)) merged.managed

section Locked

variable {system : FileConfig}

theorem Settled.whereLocked {σ : Type} {part : Config → Option σ} {locks : Bool}
    (h : locks = true → Settled system part) :
    Settled system fun c => Ocx.whereLocked locks (part c) := by
  cases locks with
  | false => exact ⟨none, fun _ => rfl, fun _ => rfl⟩
  | true => exact h rfl

/-- The policies of the system file are in their place in every load, and they are the locked
ones. -/
theorem policies_of_append {c : Config} {rest : List TrustPolicy}
    (h : c.trustPolicies = system.systemPolicies ++ rest) (hrest : LockedBySystem system rest) :
    (lockedParts system c).policies = system.systemPolicies ∧
      (lockedParts system c).lockedPolicies = {p | p ∈ system.systemPolicies} := by
  have hlength : system.config.trustPolicies.length = system.systemPolicies.length := by
    cases ht : system.config.trust <;>
      simp [FileConfig.systemPolicies, trustPolicies, applySystemLocks, ht,
        TrustConfig.lockAsSystem]
  constructor
  · show c.trustPolicies.take _ = _
    rw [h, hlength, take_left]
  · ext p
    show p ∈ c.trustPolicies ∧ _ ↔ _
    rw [h, mem_append]
    constructor
    · rintro ⟨hp | hp, hlocked⟩
      · exact hp
      · exact hrest p hp hlocked
    · intro hp
      exact ⟨.inl hp, systemLocked_of_mem_systemPolicies hp⟩

/-- A document that some load makes. -/
def Loaded (system : FileConfig) (c : Config) : Prop :=
  (∃ tiers, c = load system tiers) ∨ ∃ explicit, c = loadNoConfig system explicit

theorem Settled.eq {σ : Type} {part : Config → σ} (h : Settled system part) {c d : Config}
    (hc : Loaded system c) (hd : Loaded system d) : part c = part d := by
  obtain ⟨value, hload, hno⟩ := h
  have hvalue : ∀ {c : Config}, Loaded system c → part c = value := by
    rintro c (⟨tiers, rfl⟩ | ⟨explicit, rfl⟩)
    · exact hload tiers
    · exact hno explicit
  rw [hvalue hc, hvalue hd]

theorem Loaded.policies {c : Config} (h : Loaded system c) :
    (lockedParts system c).policies = system.systemPolicies ∧
      (lockedParts system c).lockedPolicies = {p | p ∈ system.systemPolicies} := by
  rcases h with ⟨tiers, rfl⟩ | ⟨explicit, rfl⟩
  · obtain ⟨rest, happend, hrest⟩ := @trustPolicies_load system tiers
    exact policies_of_append happend hrest
  · obtain ⟨rest, happend, hrest⟩ := @trustPolicies_loadNoConfig system explicit
    exact policies_of_append happend hrest

theorem settled_roles {host : String} (role : MirrorConfig → Option String × Bool)
    (declares : MirrorConfig → Bool)
    (hmerge : ∀ a b : MirrorConfig, role (a.merge b) = mergeRole (role a) (role b))
    (hdefault : role {} = (none, false))
    (hkeep : ∀ a, (role a).2 = true → (a.registrySystemLocked || a.indexSystemLocked) = true)
    (hlock : ∀ m : MirrorConfig, declares m = true → (role m.lockAsSystem).2 = true) :
    Settled system fun c => whereLocked (system.config.mirrorEntries[host]?.any declares)
      (c.mirrorEntries[host]?.map role) := by
  refine .whereLocked fun h => ?_
  rw [Option.any_eq_true] at h
  obtain ⟨m, hm, hdeclares⟩ := h
  exact settled_mirror hmerge hdefault hkeep hm (hlock m hdeclares)

theorem Loaded.lockedParts_eq {c d : Config} (hc : Loaded system c) (hd : Loaded system d) :
    lockedParts system c = lockedParts system d := by
  ext1
  · refine (Settled.whereLocked fun h => ?_).eq hc hd
    exact settled_registry (isSome_iff_exists.1 h).choose_spec
  · funext name
    have hsettled : Settled system fun c => whereLocked
        system.config.registryEntries[name]?.isSome c.registryEntries[name]? :=
      .whereLocked fun h => settled_registries (isSome_iff_exists.1 h).choose_spec
    exact hsettled.eq hc hd
  · funext host
    refine (settled_roles MirrorConfig.registryRole (·.registry.isSome) ?_ rfl ?_ ?_).eq hc hd
    · intro a b; rfl
    · intro a ha; exact Bool.or_eq_true_iff.2 (.inl ha)
    · intro m hm; exact Bool.or_eq_true_iff.2 (.inr hm)
  · funext host
    refine (settled_roles MirrorConfig.indexRole (·.index.isSome) ?_ rfl ?_ ?_).eq hc hd
    · intro a b; rfl
    · intro a ha; exact Bool.or_eq_true_iff.2 (.inr ha)
    · intro m hm; exact Bool.or_eq_true_iff.2 (.inr hm)
  · refine (Settled.whereLocked fun h => ?_).eq hc hd
    rw [Option.any_eq_true] at h
    obtain ⟨p, hp, hrequired⟩ := h
    exact settled_patches hp hrequired
  · refine (Settled.whereLocked fun h => ?_).eq hc hd
    exact settled_records (isSome_iff_exists.1 h).choose_spec
  · refine (Settled.whereLocked fun h => ?_).eq hc hd
    exact settled_sigstore (isSome_iff_exists.1 h).choose_spec
  · rw [hc.policies.1, hd.policies.1]
  · rw [hc.policies.2, hd.policies.2]
  · have hsettled : Settled system fun c => whereLocked
        system.config.setsExtraCaCerts (some c.extraCa) := by
      refine .whereLocked fun h => ?_
      obtain ⟨value, hload, hno⟩ := settled_extraCa h
      exact ⟨some value, fun t => congrArg some (hload t), fun e => congrArg some (hno e)⟩
    exact hsettled.eq hc hd

theorem lockedManaged_load (first second : Tiers) :
    lockedManaged system (load system first) = lockedManaged system (load system second) := by
  rw [lockedManaged, lockedManaged]
  cases hlocks : system.config.managed.any (·.isRequired) with
  | false => rfl
  | true =>
    rw [Option.any_eq_true] at hlocks
    obtain ⟨m, hm, hrequired⟩ := hlocks
    have hlocked : m.lockAsSystem.systemLocked = true := by
      rw [ManagedConfig.lockAsSystem, if_pos hrequired]
    have habsorbs := (ManagedConfig.absorbs hlocked).mergeOption
    have hsystem : mergeOption ManagedConfig.merge none (applySystemLocks system.config).managed =
        some m.lockAsSystem := by
      simp [applySystemLocks, hm]
    have hload := @load_of_absorbs _ system managed _ (fun _ _ => rfl) _ hsystem habsorbs
      habsorbs
    rw [hload first, hload second]

end Locked

/-- **What the system file locks cannot be influenced by any other tier.** For any two choices of
the files and the payload that are merged after the system file, the merged documents agree on every
part that the system file locks; and without ambient configuration all of these parts but
`[managed]` are as they are with it. -/
theorem lockedParts_load (system : FileConfig) (first second : Tiers)
    (explicit : List FileTier) :
    lockedParts system (load system first) = lockedParts system (load system second) ∧
      lockedManaged system (load system first) = lockedManaged system (load system second) ∧
      lockedParts system (loadNoConfig system explicit) =
        lockedParts system (load system first) :=
  ⟨Loaded.lockedParts_eq (.inl ⟨first, rfl⟩) (.inl ⟨second, rfl⟩), lockedManaged_load first second,
    Loaded.lockedParts_eq (.inr ⟨explicit, rfl⟩) (.inl ⟨first, rfl⟩)⟩

/-- A file that sets the default registry and the patches. -/
def registryFile (name : String) (required : Bool) : FileConfig where
  config := { registry := some { default := some name }
              patches := some { registry := some name, required := some required } }
  unlocked := by simp [Unlocked, trustPolicies]

/-- A system file that locks both, a file of the user and an explicit one that would override them.
-/
theorem lockedParts_load_corporate :
    let system := registryFile "registry.corp" true
    let other := FileTier.file (registryFile "elsewhere" false)
    (load system ⟨[other], none, [other]⟩).registry = some ⟨some "registry.corp", true⟩ ∧
      lockedParts system (load system ⟨[other], none, [other]⟩) =
        lockedParts system (load system ⟨[], none, []⟩) :=
  ⟨rfl, (lockedParts_load (registryFile "registry.corp" true) _ _ []).1⟩

end Ocx
