import Ocx.Patch.Installed

/-!
# Composing the companions of admitted bases

Patch descriptors match companions to the packages of a composition.  A companion matched by several
bases is composed once, under the first of them, on the axes of all of them; the outcome is cached.
A required companion that is not installed is fetched, an optional one is not.  A required companion
that cannot be had, or that fails to compose, fails the whole composition; an optional one is
skipped.
-/

namespace Ocx

/-! ### Matched companions -/

/-- A companion that a descriptor matched to a base. -/
structure CompanionEntry where
  identifier : PackageRef
  /-- The composition fails without it. -/
  required : Bool
  ruleMatch : String
deriving DecidableEq

/-- An admitted package with the companions it matched. -/
structure AdmittedBase where
  admitted : PinnedPackageRef
  companions : List CompanionEntry
  /-- Every companion is listed once. -/
  distinct : (companions.map CompanionEntry.identifier).Nodup

/-! ### The digests of a repository -/

/-- The packages recorded so far; of those of one repository the distinct digests count. -/
abbrev RepositoryDigests : Type := List PinnedPackageRef

namespace RepositoryDigests

/-- Refuse candidates that would give a repository a second digest. -/
def refuse (known : RepositoryDigests) (candidates : List PinnedPackageRef) :
    Except ComposeError Unit :=
  let repositories := (candidates.map fun id => Repository.ofRef id.ref).dedup.insertionSort
    fun a b => a.le b = true
  match repositories.find? fun r => 2 ≤ (repositoryDigests (known ++ candidates) r).length with
  | some r => .error (.conflict r (repositoryDigests (known ++ candidates) r))
  | none => .ok ()

end RepositoryDigests

/-- No repository has two digests. -/
def OneDigest (s : Set PinnedPackageRef) : Prop :=
  ∀ a ∈ s, ∀ b ∈ s, Repository.ofRef a.ref = Repository.ofRef b.ref → a.digest = b.digest

theorem OneDigest.mono {a b : Set PinnedPackageRef} (h : OneDigest b) (hsub : a ⊆ b) :
    OneDigest a :=
  fun x hx y hy => h x (hsub hx) y (hsub hy)

theorem length_repositoryDigests_le {ids : List PinnedPackageRef} (h : OneDigest {id | id ∈ ids})
    (r : Repository) : (repositoryDigests ids r).length ≤ 1 := by
  -- at most one of the packages of the repository is kept
  have hfold : ∀ rest seen : List PinnedPackageRef,
      (∀ id ∈ rest, id ∈ ids ∧ Repository.ofRef id.ref = r) →
      (∀ id ∈ seen, id ∈ ids ∧ Repository.ofRef id.ref = r) → seen.length ≤ 1 →
      (rest.foldl (fun seen id => if seen.any fun existing => existing.digest = id.digest then seen
        else seen ++ [id]) seen).length ≤ 1 := by
    intro rest
    induction rest with
    | nil => exact fun _ _ _ hlength => hlength
    | cons id rest ih =>
      intro seen hrest hseen hlength
      rw [List.forall_mem_cons] at hrest
      rw [List.foldl_cons]
      split_ifs with hany
      · exact ih seen hrest.2 hseen hlength
      · obtain rfl : seen = [] := by
          cases seen with
          | nil => rfl
          | cons x xs =>
            have hx := hseen x List.mem_cons_self
            have hdigest := h x hx.1 id hrest.1.1 (hx.2.trans hrest.1.2.symm)
            simp [hdigest] at hany
        refine ih _ hrest.2 ?_ (by simp)
        simpa using hrest.1
  refine hfold _ [] (fun id hid => ?_) (by simp) (by simp)
  simpa using hid

theorem RepositoryDigests.refuse_of_forall {known : RepositoryDigests}
    {candidates : List PinnedPackageRef} (h : OneDigest {id | id ∈ known ++ candidates}) :
    known.refuse candidates = .ok () := by
  have hnone : ∀ repositories : List Repository, repositories.find? (fun r =>
      decide (2 ≤ (repositoryDigests (known ++ candidates) r).length)) = none := by
    intro repositories
    refine List.find?_eq_none.2 fun r _ => ?_
    have := length_repositoryDigests_le h r
    simp only [decide_eq_true_eq]
    omega
  rw [refuse]
  simp [hnone]

/-! ### The surroundings -/

def surfaceAxes (selfView : Bool) : Visibility := if selfView then ⟨true, false⟩ else .interface

/-- The axes a package is admitted through: a root on those of the surface, a dependency on its
interface. -/
def targetAxes (isRoot selfView : Bool) : Visibility :=
  if isRoot then surfaceAxes selfView else .interface

/-- Integrations are carried by the surface of consumers only. -/
def integrationsCross (selfView : Bool) : Bool := !selfView

/-- What the composition of companions asks of its surroundings. -/
structure OverlayEnv (Fault : Type) where
  /-- The packages on the machine. -/
  store : ObjectStore
  /-- The roots of the composition. -/
  packages : List InstallInfo
  /-- The surface is that of the roots themselves. -/
  selfView : Bool
  /-- The network must not be used. -/
  isOffline : Bool
  companionPin : PackageRef → Except Fault (Option Digest)
  findCompanionLocalAt : PackageRef → Digest → Except Fault (Option (Installed store))
  /-- Fetch a companion, at its pin if it has one. -/
  fetchCompanion : PackageRef → Option Digest → Except Fault (Installed store)

/-- Why there is no companion. -/
inductive CompanionFailure (Fault : Type)
  | notFound
  | fetch (fault : Fault)
  | lookup (fault : Fault)
  | compose (error : ComposeError)

structure RequiredCompanionFailed (Fault : Type) where
  companion : PackageRef
  source : CompanionFailure Fault

inductive CompanionOutcome
  | projected
  | missing
deriving DecidableEq

/-- Where an entry of an overlay comes from. -/
structure PatchProvenance where
  ruleMatch : String
  companion : PackageRef
  pinned : PinnedPackageRef

structure CompanionProjection where
  pinned : PinnedPackageRef
  surface : Visibility
  dependencies : List ResolvedDependency

/-- What the companions contribute under one base. -/
structure CompanionOverlay where
  entries : List (ComposedEntry × PatchProvenance)
  binaries : List (PinnedPackageRef × String)
  /-- The claimed entry points. -/
  entrypoints : List (PinnedPackageRef × String)
  integrations : List (PinnedPackageRef × String × Json)
  /-- The companions composed here. -/
  companions : List CompanionProjection

/-- Nothing is contributed yet. -/
def CompanionOverlay.empty : CompanionOverlay := ⟨[], [], [], [], []⟩

def CompanionOverlay.add (overlay : CompanionOverlay) (entry : CompanionEntry) (info : InstallInfo)
    (axes : Visibility) (out : ComposeOutput) : CompanionOverlay where
  entries := overlay.entries ++ out.entries.map fun e =>
    (e, ⟨entry.ruleMatch, entry.identifier, info.identifier⟩)
  binaries := overlay.binaries ++ out.admittedBinaries
  entrypoints := overlay.entrypoints ++ out.admittedEntrypoints
  integrations := overlay.integrations ++ out.admittedIntegrations
  companions := overlay.companions ++ [⟨info.identifier, axes, info.resolved.dependencies⟩]

/-- The state of the composition between two companions. -/
structure OverlayState where
  /-- What became of the companions so far. -/
  cache : PackageRef → Option CompanionOutcome
  /-- The axes every package was emitted on. -/
  emitted : Emitted
  /-- The packages of the environment, without the companions themselves. -/
  accepted : RepositoryDigests
  acceptedCompanions : RepositoryDigests

/-- The dependencies of a companion that are admitted on some axes. -/
def admittedDependencies (root : InstallInfo) (axes : Visibility) : List PinnedPackageRef :=
  (root.resolved.dependencies.filter fun dep => onAxes dep.visibility axes).map
    ResolvedDependency.identifier

/-! ### The composition -/

/-- The axes that the bases give to companions, in order. -/
def axesWrites (target : PinnedPackageRef → Visibility) (bases : List AdmittedBase) :
    List (PackageRef × Visibility) :=
  bases.flatMap fun base =>
    base.companions.map fun entry => (entry.identifier, target base.admitted)

/-- Merge the axes of a base into those of a companion. -/
def mergeAxes (companion : PackageRef) (axes : Option Visibility) (w : PackageRef × Visibility) :
    Option Visibility :=
  if w.1 = companion then some (axes.elim w.2 fun a => a.merge w.2) else axes

namespace OverlayEnv

variable {Fault : Type} (env : OverlayEnv Fault)

/-- The axes a base is admitted through. -/
def targetAxesOf (admitted : PinnedPackageRef) : Visibility :=
  targetAxes (decide (admitted.stripAdvisory ∈
    env.packages.map fun root => root.identifier.stripAdvisory)) env.selfView

/-- The axes of a companion: those of all bases that matched it. -/
def companionAxes (bases : List AdmittedBase) (companion : PackageRef) : Visibility :=
  ((axesWrites env.targetAxesOf bases).foldl (mergeAxes companion) none).getD .interface

def baseEmitted (bases : List AdmittedBase) : Emitted := fun k =>
  if k ∈ bases.map fun base => base.admitted.stripAdvisory then some (env.targetAxesOf k) else none

/-- The state before the first companion. -/
def start (bases : List AdmittedBase) : OverlayState where
  cache := fun _ => none
  emitted := env.baseEmitted bases
  accepted := env.packages.flatMap fun root => surfaceClosure root (surfaceAxes env.selfView)
  acceptedCompanions := []

/-- Look a companion up on the machine, with its pin. -/
def lookup (companion : PackageRef) :
    Except Fault (Option Digest × Option (Installed env.store)) := do
  match ← env.companionPin companion with
  | none => .ok (none, none)
  | some pin =>
    let installed ← env.findCompanionLocalAt companion pin
    .ok (some pin, installed)

/-- The companion to compose: the installed one, or a required one is fetched. -/
def obtain (companion : PackageRef) (required : Bool) :
    Except (CompanionFailure Fault) (Installed env.store) :=
  match env.lookup companion with
  | .ok (_, some info) => .ok info
  | .ok (pin, none) =>
    if !required || env.isOffline then .error .notFound
    else (env.fetchCompanion companion pin).mapError .fetch
  | .error fault => .error (.lookup fault)

def graft (axes : Visibility) (info : Installed env.store) : Graft :=
  ⟨env.store.site, info.info, axes, integrationsCross env.selfView⟩

/-- Compose a companion, unless a repository would then have two digests. -/
def project (axes : Visibility) (s : OverlayState) (info : Installed env.store) :
    Except ComposeError (ComposeOutput × OverlayState) := do
  let deps := admittedDependencies info.info axes
  s.accepted.refuse (deps ++ [info.info.identifier])
  s.acceptedCompanions.refuse deps
  match composeCompanion (env.graft axes info) s.emitted with
  | (.error e, _) => .error e
  | (.ok out, emitted) =>
    .ok (out, { s with
      emitted
      accepted := s.accepted ++ deps
      acceptedCompanions := s.acceptedCompanions ++ [info.info.identifier] })

/-- There is no companion: that is an error if it is required, and noted otherwise. -/
def miss (entry : CompanionEntry) (failure : CompanionFailure Fault) (overlay : CompanionOverlay)
    (s : OverlayState) :
    Except (RequiredCompanionFailed Fault) (CompanionOverlay × OverlayState) :=
  if entry.required then .error ⟨entry.identifier, failure⟩
  else .ok (overlay, { s with cache := Function.update s.cache entry.identifier (some .missing) })

def visitCompanion (axesOf : PackageRef → Visibility) (t : CompanionOverlay × OverlayState)
    (entry : CompanionEntry) :
    Except (RequiredCompanionFailed Fault) (CompanionOverlay × OverlayState) :=
  match t.2.cache entry.identifier with
  | some .missing => if entry.required then .error ⟨entry.identifier, .notFound⟩ else .ok t
  | some .projected => .ok t
  | none =>
    match env.obtain entry.identifier entry.required with
    | .error failure => miss entry failure t.1 t.2
    | .ok info =>
      match env.project (axesOf entry.identifier) t.2 info with
      | .error error => miss entry (.compose error) t.1 t.2
      | .ok (out, s) =>
        .ok (t.1.add entry info.info (axesOf entry.identifier) out,
          { s with cache := Function.update s.cache entry.identifier (some .projected) })

/-- Visit a base: its overlay is kept if a companion was composed under it. -/
def visitBase (axesOf : PackageRef → Visibility)
    (t : List (PinnedPackageRef × CompanionOverlay) × OverlayState) (base : AdmittedBase) :
    Except (RequiredCompanionFailed Fault)
      (List (PinnedPackageRef × CompanionOverlay) × OverlayState) := do
  let (overlay, s) ← base.companions.foldlM (env.visitCompanion axesOf) (.empty, t.2)
  .ok (if overlay.companions.isEmpty then t.1 else t.1 ++ [(base.admitted, overlay)], s)

def buildSitePatchSet (bases : List AdmittedBase) :
    Except (RequiredCompanionFailed Fault) (List (PinnedPackageRef × CompanionOverlay)) := do
  let visited := bases.filter fun base => !base.companions.isEmpty
  let (patchSet, _) ← visited.foldlM (env.visitBase (env.companionAxes bases)) ([], env.start bases)
  .ok patchSet

end OverlayEnv

/-! ### The order of the bases -/

instance (companion : PackageRef) : RightCommutative (mergeAxes companion) where
  right_comm axes w w' := by
    unfold mergeAxes
    split_ifs <;> try rfl
    cases axes with
    | none => exact congrArg some (sup_comm w.2 w'.2)
    | some a => exact congrArg some (sup_right_comm a w.2 w'.2)

variable {Fault : Type} (env : OverlayEnv Fault) {bases bases' : List AdmittedBase}

theorem companionAxes_of_perm (h : bases.Perm bases') :
    env.companionAxes bases = env.companionAxes bases' := by
  funext companion
  have hwrites : (axesWrites env.targetAxesOf bases).Perm (axesWrites env.targetAxesOf bases') :=
    h.flatMap_right _
  rw [OverlayEnv.companionAxes, OverlayEnv.companionAxes, hwrites.foldl_eq]

theorem start_of_perm (h : bases.Perm bases') : env.start bases = env.start bases' := by
  have hemitted : env.baseEmitted bases = env.baseEmitted bases' := by
    funext k
    simp [OverlayEnv.baseEmitted, (h.map _).mem_iff]
  rw [OverlayEnv.start, OverlayEnv.start, hemitted]

end Ocx
