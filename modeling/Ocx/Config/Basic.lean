import Ocx.Config.Shell
import Ocx.Trust.Policy

/-!
# Configuration

The sections of `config.toml`, how a tier of higher precedence is merged into them, and how the
sections of the system file are locked.
-/

namespace Ocx

/-! ### Sections -/

structure RegistryDefaults where
  /-- The registry of bare identifiers. -/
  default : Option String := none
  /-- The section was declared by the system file. -/
  systemLocked : Bool := false
deriving DecidableEq, Repr

namespace RegistryDefaults

/-- Mark the section as declared by the system file. -/
def lockAsSystem (r : RegistryDefaults) : RegistryDefaults := { r with systemLocked := true }

/-- Merge a tier of higher precedence. -/
def merge (self other : RegistryDefaults) : RegistryDefaults :=
  if self.systemLocked then self else { self with default := other.default.or self.default }

end RegistryDefaults

structure RegistryConfig where
  /-- The index that resolves the namespace. -/
  index : Option String := none
  /-- The hosts that may have private addresses. -/
  trustedHosts : Option (List String) := none
  /-- Whether the registry is contacted over plain HTTP. -/
  insecure : Option Bool := none
  /-- The entry was declared by the system file. -/
  systemLocked : Bool := false
  indexIsCompiledDefault : Bool := false
deriving DecidableEq, Repr

namespace RegistryConfig

/-- Mark the entry as declared by the system file. -/
def lockAsSystem (r : RegistryConfig) : RegistryConfig := { r with systemLocked := true }

/-- Merge a tier of higher precedence. The lock is taken over, because entries start from the
default one. -/
def merge (self other : RegistryConfig) : RegistryConfig :=
  if self.systemLocked then self
  else
    { index := other.index.or self.index
      trustedHosts := other.trustedHosts.or self.trustedHosts
      insecure := other.insecure.or self.insecure
      systemLocked := other.systemLocked
      indexIsCompiledDefault :=
        if other.index.isSome then other.indexIsCompiledDefault else self.indexIsCompiledDefault }

end RegistryConfig

/-- An entry of `[mirrors]`: a replacement for each of the two roles of a host. -/
structure MirrorConfig where
  /-- The replacement for registry traffic. -/
  registry : Option String := none
  /-- The replacement for index traffic. -/
  index : Option String := none
  /-- The first role was declared by the system file. -/
  registrySystemLocked : Bool := false
  /-- The second role was declared by the system file. -/
  indexSystemLocked : Bool := false
deriving DecidableEq, Repr

/-- Merge one role of a mirror, a replacement and its lock. -/
def mergeRole (self other : Option String × Bool) : Option String × Bool :=
  if self.2 then self else (other.1.or self.1, other.2)

namespace MirrorConfig

/-- Lock the roles that the entry declares. -/
def lockAsSystem (m : MirrorConfig) : MirrorConfig :=
  { m with
    registrySystemLocked := m.registrySystemLocked || m.registry.isSome
    indexSystemLocked := m.indexSystemLocked || m.index.isSome }

def registryRole (m : MirrorConfig) : Option String × Bool := (m.registry, m.registrySystemLocked)

def indexRole (m : MirrorConfig) : Option String × Bool := (m.index, m.indexSystemLocked)

/-- Merge a tier of higher precedence, role by role. -/
def merge (self other : MirrorConfig) : MirrorConfig :=
  let registry := mergeRole self.registryRole other.registryRole
  let index := mergeRole self.indexRole other.indexRole
  ⟨registry.1, index.1, registry.2, index.2⟩

end MirrorConfig

structure PatchConfig where
  registry : Option String := none
  /-- The template of patch repositories. -/
  path : Option String := none
  /-- Whether a missing companion is an error. -/
  required : Option Bool := none
  /-- The section was declared by the system file, as a required one. -/
  systemLocked : Bool := false
deriving DecidableEq, Repr

/-- A section is required unless it says otherwise. -/
def defaultRequired : Bool := true

namespace PatchConfig

/-- A missing companion is an error. -/
def isRequired (p : PatchConfig) : Bool := p.required.getD defaultRequired

/-- Lock a required section of the system file. -/
def lockAsSystem (p : PatchConfig) : PatchConfig :=
  if p.isRequired then { p with systemLocked := true } else p

/-- Merge a tier of higher precedence. -/
def merge (self other : PatchConfig) : PatchConfig :=
  if self.systemLocked then self
  else
    { self with
      registry := other.registry.or self.registry
      path := other.path.or self.path
      required := other.required.or self.required }

end PatchConfig

/-- What a background check does when it finds a change. -/
inductive RefreshPolicy
  /-- It applies the change. -/
  | apply
  /-- It prints a notice. -/
  | notify
  /-- There is no check. -/
  | manual
deriving DecidableEq, Repr

structure ManagedConfig where
  /-- The reference of the payload. -/
  source : Option String := none
  /-- Whether a missing payload is an error. -/
  required : Option Bool := none
  /-- The background check. -/
  refresh : Option RefreshPolicy := none
  /-- The time between two checks. -/
  interval : Option String := none
  /-- The section was declared by the system file, as a required one. -/
  systemLocked : Bool := false
deriving DecidableEq, Repr

namespace ManagedConfig

/-- A missing payload is an error. -/
def isRequired (m : ManagedConfig) : Bool := m.required.getD defaultRequired

/-- Lock a required section of the system file. -/
def lockAsSystem (m : ManagedConfig) : ManagedConfig :=
  if m.isRequired then { m with systemLocked := true } else m

/-- Merge a tier of higher precedence. -/
def merge (self other : ManagedConfig) : ManagedConfig :=
  if self.systemLocked then self
  else
    { self with
      source := other.source.or self.source
      required := other.required.or self.required
      refresh := other.refresh.or self.refresh
      interval := other.interval.or self.interval }

end ManagedConfig

/-- A value that the section `[update]` cannot hold. -/
structure Rejected where
  value : String
  /-- The file it came from. -/
  origin : Option String
deriving DecidableEq, Repr

structure UpdateConfig where
  /-- The check for a newer version of the program. -/
  selfPolicy : Option (Except Rejected RefreshPolicy) := none
  /-- The check for newer tools. -/
  toolchain : Option (Except Rejected RefreshPolicy) := none
  /-- The seconds between two checks. -/
  interval : Option (Except Rejected ℕ) := none
  /-- The section was not a table. -/
  «section» : Option Rejected := none

/-- Merge a tier of higher precedence. -/
def UpdateConfig.merge (self other : UpdateConfig) : UpdateConfig where
  selfPolicy := other.selfPolicy.or self.selfPolicy
  toolchain := other.toolchain.or self.toolchain
  interval := other.interval.or self.interval
  «section» := other.section.or self.section

inductive ConfigTier
  | system
  | user
  /-- The file in the home of the program. -/
  | home
  | managed
  /-- A file named on the command line or in the environment. -/
  | explicit
deriving DecidableEq, Repr

structure ShellConfig where
  /-- Whether the prompt hook runs. -/
  hook : Option Bool := none
  /-- Whether completions load. -/
  completions : Option Bool := none
  /-- Whether the setup may change search paths. -/
  modifyPath : Option Bool := none
  /-- The profiles that receive the managed block. -/
  profiles : Option (List String) := none
  consent : Option ShellConsent := none
  hookTier : Option ConfigTier := none
  completionsTier : Option ConfigTier := none
  /-- The tier that set `modifyPath`. -/
  modifyPathTier : Option ConfigTier := none
  profilesTier : Option ConfigTier := none
  /-- Why a consent table was dropped. -/
  consentStripReason : Option String := none

/-- Merge a tier of higher precedence. A value keeps the tier that set it; the whitelists
accumulate. -/
def ShellConfig.merge (self other : ShellConfig) : ShellConfig where
  hook := other.hook.or self.hook
  completions := other.completions.or self.completions
  modifyPath := other.modifyPath.or self.modifyPath
  profiles := other.profiles.or self.profiles
  consent := other.consent.elim self.consent fun c => some ((self.consent.getD .empty).merge c)
  hookTier := if other.hook.isSome then other.hookTier else self.hookTier
  completionsTier :=
    if other.completions.isSome then other.completionsTier else self.completionsTier
  modifyPathTier := if other.modifyPath.isSome then other.modifyPathTier else self.modifyPathTier
  profilesTier := if other.profiles.isSome then other.profilesTier else self.profilesTier
  consentStripReason := other.consentStripReason.or self.consentStripReason

structure RecordsOptions where
  /-- The directory of the records. -/
  dir : Option String := none
  /-- The template of their names. -/
  name : Option String := none
  /-- Whether a record that cannot be written is an error. -/
  required : Option Bool := none
  /-- The section was declared by the system file. -/
  systemLocked : Bool := false
deriving DecidableEq, Repr

namespace RecordsOptions

/-- Mark the section as declared by the system file. -/
def lockAsSystem (r : RecordsOptions) : RecordsOptions := { r with systemLocked := true }

/-- Merge a tier of higher precedence. -/
def merge (self other : RecordsOptions) : RecordsOptions :=
  if self.systemLocked then self
  else
    { self with
      dir := other.dir.or self.dir
      name := other.name.or self.name
      required := other.required.or self.required }

end RecordsOptions

/-! ### The document -/

/-- A `config.toml` document. -/
structure Config where
  registry : Option RegistryDefaults := none
  registries : Option (Std.ExtTreeMap String RegistryConfig) := none
  mirrors : Option (Std.ExtTreeMap String MirrorConfig) := none
  patches : Option PatchConfig := none
  managed : Option ManagedConfig := none
  update : Option UpdateConfig := none
  trust : Option TrustConfig := none
  shell : Option ShellConfig := none
  records : Option RecordsOptions := none
  toolchainDir : Option String := none
  /-- The path of the extra certificates. -/
  extraCaCerts : Option String := none
  /-- The extra certificates themselves. -/
  extraCaCertsPem : Option String := none
  /-- The extra certificates were declared by the system file. -/
  extraCaCertsSystemLocked : Bool := false

/-- Merge a table that may be absent. -/
def mergeTable {α : Type} (merge : α → α → α) (default : α)
    (own added : Option (Std.ExtTreeMap String α)) : Option (Std.ExtTreeMap String α) :=
  added.elim own fun added => some (mergeMap merge default (own.getD ∅) added)

/-- Merge the extra certificates: the path, the text and the lock. The two forms are taken
together. -/
def mergeExtraCaCerts (self other : Option String × Option String × Bool) :
    Option String × Option String × Bool :=
  if !self.2.2 && (other.1.isSome || other.2.1.isSome) then other else self

namespace Config

/-- The extra certificates: the path, the text and the lock. -/
def extraCa (c : Config) : Option String × Option String × Bool :=
  (c.extraCaCerts, c.extraCaCertsPem, c.extraCaCertsSystemLocked)

/-- Merge a tier of higher precedence. -/
def merge (self other : Config) : Config where
  registry := mergeOption RegistryDefaults.merge self.registry other.registry
  registries := mergeTable RegistryConfig.merge {} self.registries other.registries
  mirrors := mergeTable MirrorConfig.merge {} self.mirrors other.mirrors
  patches := mergeOption PatchConfig.merge self.patches other.patches
  managed := mergeOption ManagedConfig.merge self.managed other.managed
  update := mergeOption UpdateConfig.merge self.update other.update
  trust := mergeOption TrustConfig.merge self.trust other.trust
  shell := mergeOption ShellConfig.merge self.shell other.shell
  records := mergeOption RecordsOptions.merge self.records other.records
  toolchainDir := (other.toolchainDir.filter (· ≠ "")).or self.toolchainDir
  extraCaCerts := (mergeExtraCaCerts self.extraCa other.extraCa).1
  extraCaCertsPem := (mergeExtraCaCerts self.extraCa other.extraCa).2.1
  extraCaCertsSystemLocked := (mergeExtraCaCerts self.extraCa other.extraCa).2.2

def trustPolicies (c : Config) : List TrustPolicy := c.trust.elim [] (·.policy)

def registryEntries (c : Config) : Std.ExtTreeMap String RegistryConfig := c.registries.getD ∅

def mirrorEntries (c : Config) : Std.ExtTreeMap String MirrorConfig := c.mirrors.getD ∅

/-- The document sets the extra certificates, in one form or the other. -/
def setsExtraCaCerts (c : Config) : Bool := c.extraCaCerts.isSome || c.extraCaCertsPem.isSome

end Config

/-! ### The lock -/

/-- Lock what the system file declares. -/
def applySystemLocks (c : Config) : Config :=
  { c with
    extraCaCertsSystemLocked := c.setsExtraCaCerts
    patches := c.patches.map PatchConfig.lockAsSystem
    registry := c.registry.map RegistryDefaults.lockAsSystem
    registries := c.registries.map fun entries => entries.map fun _ e => e.lockAsSystem
    mirrors := c.mirrors.map fun entries => entries.map fun _ e => e.lockAsSystem
    managed := c.managed.map ManagedConfig.lockAsSystem
    trust := c.trust.map TrustConfig.lockAsSystem
    records := c.records.map RecordsOptions.lockAsSystem }

/-- The locked policies and the locked sub-table of `[trust]`. -/
def TrustConfig.retainLocked (t : TrustConfig) : TrustConfig where
  policy := t.policy.filter (·.systemLocked)
  sigstore := t.sigstore.filter (·.systemLocked)

/-- Keep the locked sections only. The section `[managed]` is dropped even if it is locked. -/
def retainSystemLockedSections (c : Config) : Config where
  patches := c.patches.filter (·.systemLocked)
  registry := c.registry.filter (·.systemLocked)
  records := c.records.filter (·.systemLocked)
  managed := none
  shell := none
  update := none
  toolchainDir := none
  extraCaCerts := if c.extraCaCertsSystemLocked then c.extraCaCerts else none
  extraCaCertsPem := if c.extraCaCertsSystemLocked then c.extraCaCertsPem else none
  extraCaCertsSystemLocked := c.extraCaCertsSystemLocked
  registries := (c.registries.map fun entries =>
    entries.filter fun _ e => e.systemLocked).filter fun entries => !entries.isEmpty
  mirrors := (c.mirrors.map fun entries =>
    entries.filter fun _ m => m.registrySystemLocked || m.indexSystemLocked).filter
      fun entries => !entries.isEmpty
  trust := (c.trust.map TrustConfig.retainLocked).filter fun t =>
    !t.policy.isEmpty || t.sigstore.isSome

end Ocx
