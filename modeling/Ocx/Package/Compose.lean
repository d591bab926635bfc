import Ocx.Package.PublishGate
import Ocx.Project.Basic

/-!
# Grafting patch companions

A patch companion is composed as part of the packages it patches.  The composition keeps, for every
package, the axes its variables were emitted on; a later graft emits only what is new.  A package is
reached as the companion itself, on the axes of the call, or as a dependency of one, through its
interface, in any order and in calls that may fail.
-/

namespace Ocx

/-! ### Surface axes -/

/-- The interface axis alone. -/
def Visibility.interface : Visibility := ⟨false, true⟩

/-- Both axes. -/
def Visibility.public : Visibility := ⟨true, true⟩

def onAxes (visibility axes : Visibility) : Bool :=
  (visibility.hasPrivate && axes.hasPrivate) || (visibility.hasInterface && axes.hasInterface)

/-- A carrier crosses: that of a root on any of the axes, that of a dependency on its interface. -/
def carrierCrossesOn (carrier : Visibility) (isRoot : Bool) (axes : Visibility) : Bool :=
  if isRoot then onAxes carrier axes else carrier.hasInterface

/-- The carrier of a root crosses and was not emitted before. -/
def crossesAnew (carrier axes done : Visibility) : Bool :=
  onAxes carrier axes && !onAxes carrier done

/-- The carrier of a dependency crosses and was not emitted before. -/
def dependencyCrosses (carrier axes done : Visibility) : Bool :=
  carrierCrossesOn carrier false axes && !onAxes carrier done

theorem onAxes_merge (v a b : Visibility) : onAxes v (a.merge b) = (onAxes v a || onAxes v b) := by
  rcases v with ⟨_ | _, _ | _⟩ <;> rcases a with ⟨_ | _, _ | _⟩ <;>
    rcases b with ⟨_ | _, _ | _⟩ <;> rfl

@[simp] theorem onAxes_sealed (v : Visibility) : onAxes v .sealed = false := by
  simp [onAxes, Visibility.sealed]

theorem dependencyCrosses_eq (carrier axes done : Visibility) :
    dependencyCrosses carrier axes done = crossesAnew carrier .interface done := by
  simp [dependencyCrosses, crossesAnew, carrierCrossesOn, onAxes, Visibility.interface]

/-! ### What was emitted -/

/-- The axes on which packages, without their advisory tags, were emitted. -/
abbrev Emitted : Type := PinnedPackageRef → Option Visibility

namespace Emitted

def axes (e : Emitted) (p : PinnedPackageRef) : Visibility := (e p).getD .sealed

/-- Merge axes into those of a package. -/
def write (e : Emitted) (w : PinnedPackageRef × Visibility) : Emitted :=
  Function.update e w.1 (some ((e.axes w.1).merge w.2))

theorem write_apply (e : Emitted) (w : PinnedPackageRef × Visibility) (p : PinnedPackageRef) :
    e.write w p = if p = w.1 then some ((e.axes p).merge w.2) else e p := by
  rw [write, Function.update_apply]
  split_ifs with h
  · rw [h]
  · rfl

theorem axes_write (e : Emitted) (w : PinnedPackageRef × Visibility) (p : PinnedPackageRef) :
    (e.write w).axes p = if p = w.1 then (e.axes p).merge w.2 else e.axes p := by
  rw [axes, write_apply]
  split_ifs <;> rfl

theorem write_of_le {e : Emitted} {w : PinnedPackageRef × Visibility} {done : Visibility}
    (h : e w.1 = some done) (hle : w.2 ≤ done) : e.write w = e := by
  have hmerge : done.merge w.2 = done := sup_eq_left.2 hle
  rw [write, axes, h, Option.getD_some, hmerge, ← h]
  exact Function.update_eq_self _ _

/-- Writes commute. -/
instance : RightCommutative write where
  right_comm e w w' := by
    funext p
    rw [write_apply, write_apply, axes_write, write_apply, write_apply, axes_write]
    split_ifs with h h' h' <;> try rfl
    have hcomm := sup_right_comm (e.axes p) w.2 w'.2
    exact congrArg some hcomm

end Emitted

/-! ### The composition -/

/-- The directories of an installed package. -/
structure PackageDirs where
  content : String
  entrypoints : String

/-- A resolved package that a composition starts from. -/
structure InstallInfo where
  /-- The package, with its advisory tag. -/
  identifier : PinnedPackageRef
  metadata : Bundle
  /-- Its transitive dependencies. -/
  resolved : ResolvedPackage
  dir : PackageDirs
  /-- Its directories do not exist yet. -/
  deferred : Bool

/-- The metadata and the resolution of a dependency. -/
structure ObjectData where
  metadata : Bundle
  /-- The transitive dependencies. -/
  resolved : ResolvedPackage

/-- Why a composition fails. -/
inductive ComposeError
  | conflict (repository : Repository) (identifiers : List PinnedPackageRef)
  | notFound (identifier : PinnedPackageRef)
  | unreadable (identifier : PinnedPackageRef)
  | package (error : PackageError)

/-- What a composition asks of its surroundings. -/
structure Site where
  machine : Machine
  /-- The directories of a package, by its digest. -/
  packageDir : PinnedPackageRef → PackageDirs
  /-- Load a dependency of a root: from the store, or from the closure of a deferred root. -/
  load : InstallInfo → PinnedPackageRef → Except ComposeError ObjectData

inductive ComposedEntry
  /-- The variable of a package at a position. -/
  | declared (package : PinnedPackageRef) (index : ℕ) (entry : Entry)
  | launchers (package : PinnedPackageRef) (entry : Entry)

/-- The variable an entry comes from. -/
def ComposedEntry.declared? : ComposedEntry → Option (PinnedPackageRef × ℕ)
  | declared package index _ => some (package, index)
  | launchers _ _ => none

structure ComposeOutput where
  /-- The entries, in emit order. -/
  entries : List ComposedEntry
  admitted : List PinnedPackageRef
  admittedBinaries : List (PinnedPackageRef × String)
  /-- The claimed entry points. -/
  admittedEntrypoints : List (PinnedPackageRef × String)
  admittedIntegrations : List (PinnedPackageRef × String × Json)

def ComposeOutput.variables (out : ComposeOutput) : List (PinnedPackageRef × ℕ) :=
  out.entries.filterMap ComposedEntry.declared?

/-- The root and its dependencies admitted on the axes. -/
def surfaceClosure (root : InstallInfo) (axes : Visibility) : List PinnedPackageRef :=
  root.identifier ::
    (root.resolved.dependencies.filter fun dep => onAxes dep.visibility axes).map
      ResolvedDependency.identifier

/-- The distinct digests a repository was reached at, in first-seen order. -/
def repositoryDigests (identifiers : List PinnedPackageRef) (repository : Repository) :
    List PinnedPackageRef :=
  (identifiers.filter fun id => Repository.ofRef id.ref = repository).foldl (fun seen id =>
    if seen.any fun existing => existing.digest = id.digest then seen else seen ++ [id]) []

def Repository.le (a b : Repository) : Bool :=
  toLex (a.registry, a.repository) ≤ toLex (b.registry, b.repository)

/-- Refuse a closure that holds a repository at two digests; the first such one is reported. -/
def checkRepoDigestConflicts (root : InstallInfo) (axes : Visibility) :
    Except ComposeError Unit :=
  let closure := surfaceClosure root axes
  let repositories := (closure.map fun id => Repository.ofRef id.ref).dedup.insertionSort
    fun a b => a.le b = true
  match repositories.find? fun r => 2 ≤ (repositoryDigests closure r).length with
  | some r => .error (.conflict r (repositoryDigests closure r))
  | none => .ok ()

/-- The contexts of the direct dependencies of a package, at their resolved identifiers. -/
def buildDepContextMap (site : Site) (metadata : Bundle) (resolved : ResolvedPackage) :
    Std.ExtTreeMap String DependencyContext :=
  let resolvedIds := resolved.dependencies.map fun d =>
    (Repository.ofRef d.identifier.ref, d.identifier)
  (metadata.dependencies.map fun d =>
    let id := (lastValue resolvedIds (Repository.ofRef d.identifier.ref)).getD d.identifier
    (d.interpolationName, DependencyContext.mk id (site.packageDir id).content)).foldl
      (fun m w => m.insert w.1 w.2) ∅

/-- The dependencies that are still to be emitted, with what was emitted of them before. -/
structure GraftVisit where
  /-- The axes every package is emitted on once the visible ones are. -/
  seen : Emitted
  admitted : List PinnedPackageRef
  /-- The dependencies to emit, with the axes of an earlier emission. -/
  visible : List (PinnedPackageRef × Visibility)

def GraftVisit.step (rootKey : PinnedPackageRef) (axes : Visibility) (v : GraftVisit)
    (dep : ResolvedDependency) : GraftVisit :=
  let key := dep.identifier.stripAdvisory
  let done := v.seen.axes key
  if key = rootKey then v
  else if onAxes dep.visibility axes = false then v
  else if done.hasInterface then v
  else
    { seen := v.seen.write (key, .interface)
      admitted := if done = .sealed then v.admitted ++ [dep.identifier] else v.admitted
      visible := v.visible ++ [(dep.identifier, done)] }

def ofPackage {α : Type} (x : Except PackageError α) : Except ComposeError α :=
  x.mapError .package

def envResolver (site : Site) (deferred : Bool) (content : String)
    (contexts : Std.ExtTreeMap String DependencyContext) : EnvResolver :=
  ⟨site.machine, content, contexts, if deferred then .deferred else .materialized⟩

/-- The variables of a package that cross, with where they come from. -/
def composeVars (package : PinnedPackageRef) (b : Bundle) (r : EnvResolver)
    (crosses : Visibility → Bool) : Except ComposeError (List ComposedEntry) := do
  let entries ← ofPackage (emitPackageVars b r crosses)
  .ok (entries.map fun e => .declared package.stripAdvisory e.1 e.2)

/-- The launchers of a dependency: one entry, if it has any. -/
def launcherEntries (package : PinnedPackageRef) (b : Bundle) (dir : PackageDirs) :
    List ComposedEntry :=
  if b.entrypoints.isEmpty then []
  else [.launchers package.stripAdvisory ⟨"PATH", dir.entrypoints, .path, none⟩]

/-- The resolved integrations of a package, if they are collected. -/
def composeIntegrations (collect : Bool) (r : TemplateResolver) (b : Bundle) :
    Except ComposeError (List (String × Json)) :=
  if collect then ofPackage (resolveIntegrations r b.integrations) else .ok []

def emitDependency (site : Site) (root : InstallInfo) (axes : Visibility)
    (collectIntegrations : Bool) (out : ComposeOutput)
    (id : PinnedPackageRef) (done : Visibility) (data : ObjectData) :
    Except ComposeError ComposeOutput := do
  let dir := site.packageDir id
  let contexts := buildDepContextMap site data.metadata data.resolved
  let integrations ← composeIntegrations collectIntegrations
    (integrationResolver site.machine dir.content contexts) data.metadata
  let vars ← composeVars id data.metadata (envResolver site root.deferred dir.content contexts)
    fun v => dependencyCrosses v axes done
  .ok
    { out with
      entries := out.entries ++ (vars ++ launcherEntries id data.metadata dir)
      admittedBinaries := out.admittedBinaries ++
        if dependencyCrosses .public axes done then
          (data.metadata.binaries.getD []).map fun name => (id, name) else []
      admittedEntrypoints := out.admittedEntrypoints ++
        data.metadata.entrypoints.map fun e => (id, e.1)
      admittedIntegrations := out.admittedIntegrations ++ integrations.map fun e => (id, e) }

/-- Emit the companion itself, without its launchers. -/
def emitRoot (site : Site) (root : InstallInfo) (axes : Visibility) (collectIntegrations : Bool)
    (done : Visibility) (out : ComposeOutput) : Except ComposeError ComposeOutput := do
  let contexts := buildDepContextMap site root.metadata root.resolved
  -- an earlier emission on the interface axis collected these
  let integrations ← composeIntegrations (collectIntegrations && !done.hasInterface)
    (integrationResolver site.machine root.dir.content contexts) root.metadata
  let vars ← composeVars root.identifier root.metadata
    (envResolver site root.deferred root.dir.content contexts) fun v => crossesAnew v axes done
  .ok
    { out with
      entries := out.entries ++ vars
      admitted := if done = .sealed then out.admitted ++ [root.identifier] else out.admitted
      admittedBinaries := out.admittedBinaries ++
        if crossesAnew .public axes done then
          (root.metadata.binaries.getD []).map fun name => (root.identifier, name) else []
      admittedIntegrations :=
        out.admittedIntegrations ++ integrations.map fun e => (root.identifier, e) }

/-- Compose one graft: its dependencies that are not emitted yet, then the companion. -/
def composeGraft (site : Site) (root : InstallInfo) (axes : Visibility)
    (collectIntegrations : Bool) (emitted : Emitted) :
    Except ComposeError (ComposeOutput × Emitted) := do
  checkRepoDigestConflicts root axes
  let rootKey := root.identifier.stripAdvisory
  let visit := root.resolved.dependencies.foldl (GraftVisit.step rootKey axes) ⟨emitted, [], []⟩
  -- the loads run in parallel; of several failures the first in order is reported here
  let loaded ← visit.visible.mapM fun entry => site.load root entry.1
  let out ← (visit.visible.zip loaded).foldlM (fun out dep =>
    emitDependency site root axes collectIntegrations out dep.1.1 dep.1.2 dep.2)
    ⟨[], visit.admitted, [], [], []⟩
  let done := visit.seen.axes rootKey
  let out ← emitRoot site root axes collectIntegrations done out
  .ok (out, visit.seen.write (rootKey, axes))

/-- A call that grafts a companion. Every call has its own surroundings, so that any of them may
fail. -/
structure Graft where
  site : Site
  companion : InstallInfo
  /-- The axes its targets are admitted through. -/
  axes : Visibility
  collectIntegrations : Bool

/-- Graft a companion; the map changes only on success. -/
def composeCompanion (g : Graft) (emitted : Emitted) :
    Except ComposeError ComposeOutput × Emitted :=
  match composeGraft g.site g.companion g.axes g.collectIntegrations emitted with
  | .error e => (.error e, emitted)
  | .ok (out, attempt) => (.ok out, attempt)

/-- A sequence of grafts: the variables emitted by those that succeed, and the map after them. -/
def runCompanions : List Graft → Emitted → List (PinnedPackageRef × ℕ) × Emitted
  | [], emitted => ([], emitted)
  | g :: grafts, emitted =>
    match composeCompanion g emitted with
    | (.error _, emitted) => runCompanions grafts emitted
    | (.ok out, emitted) =>
      (out.variables ++ (runCompanions grafts emitted).1, (runCompanions grafts emitted).2)

def AllSucceed : List Graft → Emitted → Prop
  | [], _ => True
  | g :: grafts, emitted =>
    (∃ out, (composeCompanion g emitted).1 = .ok out) ∧
      AllSucceed grafts (composeCompanion g emitted).2

end Ocx
