import Ocx.Store.Layout

/-!
# Garbage collection of the object store

The collector lists every entry of the store, takes as roots the packages with a live install
reference, the packages and shims that a project lock pins and the roots of the site patches, and
selects the entries that a breadth-first search from the roots does not visit.  Edges lead from a
package or a shim to what it references, and from a blob to every image index that lists it, so
that an index stays as long as one of its children does.

The edges are themselves read from the store, and so are the install references, hence deleting
the selected entries changes both.  No edge out of a reached node is lost
(`Store.edge_collect_of_reached`): its source is kept, and the index of a retention edge is reached
by that very edge.  An install reference can be lost: it counts as live as long as the install
link it names resolves, also when that link leads into *another* package, and that package can be
among the deleted ones.
-/

namespace Ocx

open List

/-! ### References -/

/-- The size above which a blob is not probed as an image index. -/
def indexManifestMaxBytes : ℕ := 4 * 1024 * 1024

/-- The entry directories that a `refs` directory points at, without those outside of the tier. -/
def readRefs (entries : List RefEntry) (storeRoot : Path) : List Path :=
  entries.filterMap fun e => do
    let refTarget ← e.link
    let entryDir ← parentDir refTarget
    if storeRoot <+: entryDir then some entryDir else none

/-- An install reference is live: it is no staging file, and the path it points at resolves. -/
def RefEntry.isLive (view : LinkView) (S : Store) (e : RefEntry) : Bool :=
  !(".tmp-".toList.isPrefixOf e.fileName.toList) &&
    match e.link with
    | some target => pathExistsLossy view S target
    | none => false

/-- The package has a live install reference. -/
def hasLiveRefs (view : LinkView) (S : Store) (pkg : PackageDir) : Bool :=
  pkg.symlinks.any (RefEntry.isLive view S)

def PackageDir.refs (fs : FileStructure) (pkg : PackageDir) : List Path :=
  readRefs pkg.deps fs.packages ++ readRefs pkg.layers fs.layers ++ readRefs pkg.blobs fs.blobs

def ShimDir.refs (fs : FileStructure) (shim : ShimDir) : List Path :=
  readRefs shim.blobs fs.blobs

/-- The digests an image index lists; none when the blob is unreadable, too large or no index. -/
def BlobDir.manifests (blob : BlobDir) : List String :=
  match blob.data with
  | some data => if data.size ≤ indexManifestMaxBytes then data.index.getD [] else []
  | none => []

/-- The directories of the blobs an image index lists. They lie in the index's own registry, three
levels up from its shard. -/
def BlobDir.children (blob : BlobDir) : List Path :=
  match (parentDir blob.dir).bind fun p => (parentDir p).bind parentDir with
  | some registryRoot =>
    (blob.manifests.filterMap Digest.tryFrom).map fun d => registryRoot ++ casShardPath d
  | none => []

/-- The edges that keep an index alive, from each of its children. -/
def indexRetentionPairs (blob : BlobDir) : List (Path × Path) :=
  blob.children.map fun child => (child, blob.dir)

/-! ### The graph -/

/-- The digests a project's lock pins. -/
structure ProjectRootDigests where
  ocxLockPath : Path
  digests : List PinnedPackageRef

structure SitePatchRoots where
  companions : List PinnedPackageRef
  /-- The descriptor blobs, with their registries. -/
  descriptors : List (String × Digest)

/-- The graph over the four tiers. -/
structure ReachabilityGraph where
  roots : List Path
  /-- The references of each entry, as they are written. -/
  edges : List (Path × List Path)
  /-- The edges added to the references one by one. -/
  retention : List (Path × Path)
  allEntries : List Path

namespace ReachabilityGraph

/-- The successors of a node. -/
def neighbors (G : ReachabilityGraph) (p : Path) : List Path :=
  (lastValue G.edges p).getD [] ++ (G.retention.filter (·.1 = p)).map Prod.snd

/-- The nodes with successors. -/
def sources (G : ReachabilityGraph) : List Path :=
  G.edges.map Prod.fst ++ G.retention.map Prod.fst

/-- Breadth-first search from the roots. -/
def reachable (G : ReachabilityGraph) : List Path := bfs G.neighbors G.sources G.roots

end ReachabilityGraph

section Build

variable (fs : FileStructure) (view : LinkView) (S : Store)

/-- The packages and shims that the project locks pin, where the store has them. -/
def lockPinnedRoots (projectRoots : List ProjectRootDigests) : List Path :=
  (projectRoots.flatMap fun project => project.digests.flatMap fun pinned =>
    [fs.packagePath pinned, fs.shimPath pinned]).filter (· ∈ S.allEntries)

/-- The roots of the site patches, where the store has them. -/
def patchRootPaths (patchRoots : SitePatchRoots) : List Path :=
  (patchRoots.companions.map fs.packagePath ++
    patchRoots.descriptors.map fun d => fs.blobPath d.1 d.2).filter (· ∈ S.allEntries)

/-- Scan the store. -/
def ReachabilityGraph.build (projectRoots : List ProjectRootDigests) : ReachabilityGraph where
  roots := (S.packages.filter (hasLiveRefs view S)).map PackageDir.dir ++
    lockPinnedRoots fs S projectRoots
  edges := S.packages.map (fun pkg => (pkg.dir, pkg.refs fs)) ++
    S.shims.map fun shim => (shim.dir, shim.refs fs)
  retention := S.blobs.flatMap indexRetentionPairs
  allEntries := S.allEntries

def GarbageCollector.build (projectRoots : List ProjectRootDigests)
    (patchRoots : SitePatchRoots) : ReachabilityGraph :=
  let graph := ReachabilityGraph.build fs view S projectRoots
  { graph with roots := graph.roots ++ patchRootPaths fs S patchRoots }

/-- The entries that are not reachable from a root. -/
def GarbageCollector.unreachableObjects (G : ReachabilityGraph) : List Path :=
  G.allEntries.filter (· ∉ G.reachable)

end Build

/-! ### What the graph is meant to be -/

namespace Store

section Spec

variable (fs : FileStructure) (view : LinkView) (projectRoots : List ProjectRootDigests)
  (patchRoots : SitePatchRoots) (S : Store)

/-- Pinned by a project lock, or a root of the site patches. -/
def Pinned (p : Path) : Prop :=
  p ∈ S.allEntries ∧
    ((∃ project ∈ projectRoots, ∃ r ∈ project.digests, p = fs.packagePath r ∨ p = fs.shimPath r) ∨
      (∃ r ∈ patchRoots.companions, p = fs.packagePath r) ∨
      ∃ d ∈ patchRoots.descriptors, p = fs.blobPath d.1 d.2)

/-- A package with a live install reference, or a pinned entry. -/
def IsRoot (p : Path) : Prop :=
  (∃ pkg ∈ S.packages, hasLiveRefs view S pkg ∧ pkg.dir = p) ∨
    S.Pinned fs projectRoots patchRoots p

/-- The edges: references of packages and shims, and retention of an index by its children. -/
inductive Edge : Path → Path → Prop
  | package (pkg : PackageDir) (hpkg : pkg ∈ S.packages) (q : Path) (hq : q ∈ pkg.refs fs) :
    Edge pkg.dir q
  | shim (shim : ShimDir) (hshim : shim ∈ S.shims) (q : Path) (hq : q ∈ shim.refs fs) :
    Edge shim.dir q
  | index (blob : BlobDir) (hblob : blob ∈ S.blobs) (child : Path)
      (hchild : child ∈ blob.children) :
    Edge child blob.dir

def Reached : Path → Prop :=
  Reach (S.IsRoot fs view projectRoots patchRoots) (S.Edge fs)

/-- Each package with a live install reference is pinned, or one of its install references leads
only through entries that some root reaches. -/
def KeepsRoots : Prop :=
  ∀ pkg ∈ S.packages, hasLiveRefs view S pkg →
    S.Pinned fs projectRoots patchRoots pkg.dir ∨
      ∃ e ∈ pkg.symlinks, e.isLive view S ∧
        ∃ target through, e.link = some target ∧ view target = some through ∧
          ∀ d ∈ through, S.Reached fs view projectRoots patchRoots d

end Spec

end Store

open GarbageCollector ReachabilityGraph

/-! ### The graph is what it is meant to be -/

section Exact

variable {fs : FileStructure} {view : LinkView} {projectRoots : List ProjectRootDigests}
  {patchRoots : SitePatchRoots} {S : Store} {p q : Path}

theorem mem_roots_build :
    p ∈ (GarbageCollector.build fs view S projectRoots patchRoots).roots ↔
      S.IsRoot fs view projectRoots patchRoots p := by
  simp only [GarbageCollector.build, ReachabilityGraph.build, lockPinnedRoots, patchRootPaths,
    Store.IsRoot, Store.Pinned, mem_append, mem_map, mem_filter, mem_flatMap,
    mem_cons, not_mem_nil, or_false, decide_eq_true_eq]
  grind

theorem lastValue_edges_build (p : Path) (refs : List Path) :
    lastValue (build fs view S projectRoots patchRoots).edges p = some refs ↔
      (∃ pkg ∈ S.packages, pkg.dir = p ∧ pkg.refs fs = refs) ∨
        ∃ shim ∈ S.shims, shim.dir = p ∧ shim.refs fs = refs := by
  have hmem : (p, refs) ∈ (build fs view S projectRoots patchRoots).edges ↔
      (∃ pkg ∈ S.packages, pkg.dir = p ∧ pkg.refs fs = refs) ∨
        ∃ shim ∈ S.shims, shim.dir = p ∧ shim.refs fs = refs := by
    simp [GarbageCollector.build, ReachabilityGraph.build]
  have hnodup :
      ((build fs view S projectRoots patchRoots).edges.map Prod.fst).Nodup := by
    have hdirs := S.distinct
    show ((S.packages.map _ ++ S.shims.map _).map Prod.fst).Nodup
    rw [map_append, map_map, map_map]
    exact hdirs
  rw [← hmem]
  exact ⟨mem_of_lastValue_eq_some, lastValue_of_unique hnodup⟩

theorem mem_neighbors_build :
    q ∈ (build fs view S projectRoots patchRoots).neighbors p ↔
      S.Edge fs p q := by
  have hrefs : q ∈ (lastValue (build fs view S projectRoots patchRoots).edges
        p).getD [] ↔
      ∃ refs, lastValue (build fs view S projectRoots patchRoots).edges p =
        some refs ∧ q ∈ refs := by
    cases lastValue (GarbageCollector.build fs view S projectRoots patchRoots).edges p <;> simp
  have hretention : q ∈ ((GarbageCollector.build fs view S projectRoots patchRoots).retention.filter
        (·.1 = p)).map Prod.snd ↔ ∃ blob ∈ S.blobs, p ∈ blob.children ∧ blob.dir = q := by
    simp [GarbageCollector.build, ReachabilityGraph.build, indexRetentionPairs]
  rw [ReachabilityGraph.neighbors, mem_append, hrefs, hretention]
  simp only [lastValue_edges_build]
  constructor
  · rintro (⟨refs, ⟨pkg, hpkg, rfl, rfl⟩ | ⟨shim, hshim, rfl, rfl⟩, hq⟩ | ⟨blob, hblob, hp, rfl⟩)
    · exact .package pkg hpkg q hq
    · exact .shim shim hshim q hq
    · exact .index blob hblob p hp
  · intro h
    cases h with
    | package pkg hpkg _ hq => exact .inl ⟨_, .inl ⟨pkg, hpkg, rfl, rfl⟩, hq⟩
    | shim shim hshim _ hq => exact .inl ⟨_, .inr ⟨shim, hshim, rfl, rfl⟩, hq⟩
    | index blob hblob _ hchild => exact .inr ⟨blob, hblob, hchild, rfl⟩

theorem ReachabilityGraph.neighbors_of_notMem_sources (G : ReachabilityGraph) (h : p ∉ G.sources) :
    G.neighbors p = [] := by
  simp only [sources, mem_append, mem_map, not_or, not_exists, not_and] at h
  have hedges : lastValue G.edges p = none := lastValue_eq_none_iff.2 h.1
  have hretention : G.retention.filter (·.1 = p) = [] := by
    rw [filter_eq_nil_iff]
    intro w hw
    simpa using h.2 w hw
  simp [neighbors, hedges, hretention]

theorem mem_reachable_build :
    p ∈ (build fs view S projectRoots patchRoots).reachable ↔
      S.Reached fs view projectRoots patchRoots p := by
  rw [reachable,
    mem_bfs_iff fun y => neighbors_of_notMem_sources _]
  simp only [mem_roots_build, mem_neighbors_build]
  rfl

/-- **Sound and complete**: an entry is selected exactly when no root reaches it. -/
theorem GarbageCollector.mem_unreachableObjects_iff :
    p ∈ unreachableObjects (build fs view S projectRoots patchRoots) ↔
      p ∈ S.allEntries ∧ ¬ S.Reached fs view projectRoots patchRoots p := by
  rw [unreachableObjects, mem_filter, decide_eq_true_eq, mem_reachable_build]
  rfl

end Exact

/-! ### After the deletion -/

namespace Store

variable {fs : FileStructure} {view : LinkView} {projectRoots : List ProjectRootDigests}
  {patchRoots : SitePatchRoots} {S : Store} {p q : Path}

def collect (fs : FileStructure) (view : LinkView) (projectRoots : List ProjectRootDigests)
    (patchRoots : SitePatchRoots) (S : Store) : Store :=
  S.delete (GarbageCollector.unreachableObjects
    (GarbageCollector.build fs view S projectRoots patchRoots))

theorem mem_allEntries_collect :
    p ∈ (S.collect fs view projectRoots patchRoots).allEntries ↔
      p ∈ S.allEntries ∧ S.Reached fs view projectRoots patchRoots p := by
  rw [collect, mem_allEntries_delete, mem_unreachableObjects_iff]
  tauto

theorem notMem_unreachableObjects_iff (hp : p ∈ S.allEntries) :
    p ∉ unreachableObjects
        (build fs view S projectRoots patchRoots) ↔
      S.Reached fs view projectRoots patchRoots p := by
  rw [mem_unreachableObjects_iff]
  tauto

theorem mem_packages_collect {pkg : PackageDir} :
    pkg ∈ (S.collect fs view projectRoots patchRoots).packages ↔
      pkg ∈ S.packages ∧ S.Reached fs view projectRoots patchRoots pkg.dir := by
  rw [collect, delete, mem_filter, decide_eq_true_eq]
  refine and_congr_right fun hpkg => notMem_unreachableObjects_iff ?_
  simp only [allEntries, mem_append, mem_map]
  exact .inl (.inl (.inl ⟨pkg, hpkg, rfl⟩))

theorem mem_blobs_collect {blob : BlobDir} :
    blob ∈ (S.collect fs view projectRoots patchRoots).blobs ↔
      blob ∈ S.blobs ∧ S.Reached fs view projectRoots patchRoots blob.dir := by
  rw [collect, delete, mem_filter, decide_eq_true_eq]
  refine and_congr_right fun hblob => notMem_unreachableObjects_iff ?_
  simp only [allEntries, mem_append, mem_map]
  exact .inl (.inr ⟨blob, hblob, rfl⟩)

theorem mem_shims_collect {shim : ShimDir} :
    shim ∈ (S.collect fs view projectRoots patchRoots).shims ↔
      shim ∈ S.shims ∧ S.Reached fs view projectRoots patchRoots shim.dir := by
  rw [collect, delete, mem_filter, decide_eq_true_eq]
  refine and_congr_right fun hshim => notMem_unreachableObjects_iff ?_
  simp only [allEntries, mem_append, mem_map]
  exact .inr ⟨shim, hshim, rfl⟩

theorem edge_of_edge_collect (h : (S.collect fs view projectRoots patchRoots).Edge fs p q) :
    S.Edge fs p q := by
  cases h with
  | package pkg hpkg _ hq => exact .package pkg (mem_packages_collect.1 hpkg).1 q hq
  | shim shim hshim _ hq => exact .shim shim (mem_shims_collect.1 hshim).1 q hq
  | index blob hblob _ hchild => exact .index blob (mem_blobs_collect.1 hblob).1 p hchild

theorem edge_collect_of_reached (hp : S.Reached fs view projectRoots patchRoots p)
    (h : S.Edge fs p q) : (S.collect fs view projectRoots patchRoots).Edge fs p q := by
  -- the index of a retention edge is reached along that edge, so it is kept too
  have hq : S.Reached fs view projectRoots patchRoots q := hp.step h
  cases h with
  | package pkg hpkg _ hmem => exact .package pkg (mem_packages_collect.2 ⟨hpkg, hp⟩) q hmem
  | shim shim hshim _ hmem => exact .shim shim (mem_shims_collect.2 ⟨hshim, hp⟩) q hmem
  | index blob hblob _ hchild => exact .index blob (mem_blobs_collect.2 ⟨hblob, hq⟩) p hchild

theorem pinned_collect :
    (S.collect fs view projectRoots patchRoots).Pinned fs projectRoots patchRoots p ↔
      S.Pinned fs projectRoots patchRoots p := by
  constructor
  · rintro ⟨hentry, hpin⟩
    exact ⟨(mem_allEntries_collect.1 hentry).1, hpin⟩
  · intro h
    have hreached : S.Reached fs view projectRoots patchRoots p := .of_root (.inr h)
    exact ⟨mem_allEntries_collect.2 ⟨h.1, hreached⟩, h.2⟩

theorem isLive_collect {e : RefEntry} :
    e.isLive view (S.collect fs view projectRoots patchRoots) ↔
      e.isLive view S ∧ ∃ target through, e.link = some target ∧ view target = some through ∧
        ∀ d ∈ through, S.Reached fs view projectRoots patchRoots d := by
  unfold RefEntry.isLive
  cases e.link with
  | none => simp
  | some target =>
    simp only [Bool.and_eq_true, pathExistsLossy_iff, mem_allEntries_collect, Option.some.injEq]
    grind

theorem isRoot_collect_iff :
    (∀ p, (S.collect fs view projectRoots patchRoots).IsRoot fs view projectRoots patchRoots p ↔
        S.IsRoot fs view projectRoots patchRoots p) ↔
      S.KeepsRoots fs view projectRoots patchRoots := by
  constructor
  · intro hroots pkg hpkg hlive
    have hroot := (hroots pkg.dir).2 (.inl ⟨pkg, hpkg, hlive, rfl⟩)
    rcases hroot with ⟨pkg', hpkg', hlive', hdir⟩ | hpinned
    · obtain rfl := eq_of_dir_eq (mem_packages_collect.1 hpkg').1 hpkg hdir
      rw [hasLiveRefs, any_eq_true] at hlive'
      obtain ⟨e, he, hkept⟩ := hlive'
      exact .inr ⟨e, he, isLive_collect.1 hkept⟩
    · exact .inl (pinned_collect.1 hpinned)
  · intro hkeeps p
    constructor
    · rintro (⟨pkg, hpkg, hlive, rfl⟩ | hpinned)
      · refine .inl ⟨pkg, (mem_packages_collect.1 hpkg).1, ?_, rfl⟩
        rw [hasLiveRefs, any_eq_true] at hlive ⊢
        obtain ⟨e, he, hkept⟩ := hlive
        exact ⟨e, he, (isLive_collect.1 hkept).1⟩
      · exact .inr (pinned_collect.1 hpinned)
    · rintro (⟨pkg, hpkg, hlive, rfl⟩ | hpinned)
      · rcases hkeeps pkg hpkg hlive with hpinned | ⟨e, he, hkept⟩
        · exact .inr (pinned_collect.2 hpinned)
        · have hreached : S.Reached fs view projectRoots patchRoots pkg.dir :=
            .of_root (.inl ⟨pkg, hpkg, hlive, rfl⟩)
          refine .inl ⟨pkg, mem_packages_collect.2 ⟨hpkg, hreached⟩, ?_, rfl⟩
          rw [hasLiveRefs, any_eq_true]
          exact ⟨e, he, isLive_collect.2 hkept⟩
      · exact .inr (pinned_collect.2 hpinned)

theorem reached_collect
    (hroots : ∀ p, (S.collect fs view projectRoots patchRoots).IsRoot fs view projectRoots
      patchRoots p ↔ S.IsRoot fs view projectRoots patchRoots p) :
    (S.collect fs view projectRoots patchRoots).Reached fs view projectRoots patchRoots p ↔
      S.Reached fs view projectRoots patchRoots p :=
  Reach.congr hroots (fun _ _ => edge_of_edge_collect) fun _ _ => edge_collect_of_reached

end Store

/-- **Exact and idempotent**: the collector selects what no root reaches, and a collection of the
store that is left finds the same roots and nothing to delete, exactly when every live install
reference survives. -/
theorem GarbageCollector.collect_exact_iff (fs : FileStructure) (view : LinkView) (S : Store)
    (projectRoots : List ProjectRootDigests) (patchRoots : SitePatchRoots) :
    (let G := build fs view S projectRoots patchRoots
      let G' := build fs view (S.delete (unreachableObjects G)) projectRoots patchRoots
      (∀ p, p ∈ unreachableObjects G ↔
          p ∈ S.allEntries ∧ ¬ S.Reached fs view projectRoots patchRoots p) ∧
        unreachableObjects G' = [] ∧ ∀ p, p ∈ G'.roots ↔ p ∈ G.roots) ↔
      S.KeepsRoots fs view projectRoots patchRoots := by
  rw [← Store.isRoot_collect_iff]
  simp only [mem_roots_build]
  constructor
  · rintro ⟨-, -, hroots⟩
    exact hroots
  · intro hroots
    refine ⟨fun p => mem_unreachableObjects_iff, ?_, hroots⟩
    rw [eq_nil_iff_forall_not_mem]
    intro p hp
    rw [mem_unreachableObjects_iff] at hp
    have hentry := Store.mem_allEntries_collect.1 hp.1
    exact hp.2 ((Store.reached_collect hroots).2 hentry.2)

/-! ### An install reference that does not survive -/

def sampleTiers : FileStructure where
  packages := ["ocx", "packages"]
  layers := ["ocx", "layers"]
  blobs := ["ocx", "blobs"]
  shims := ["ocx", "shims"]

def sampleInstallLink : Path := ["ocx", "symlinks", "ghcr.io", "cmake", "current"]

/-- A package that the install link used to point at and that still refers back to it. -/
def previousPackage : PackageDir where
  dir := ["ocx", "packages", "ghcr.io", "sha256", "1f", "0c4d6a8e0b2c4d6a8e0b2c4d6a8e0b"]
  symlinks := [⟨"5d41402abc4b2a76", some sampleInstallLink⟩]
  deps := []
  layers := []
  blobs := []

/-- The package the install link points at now, without a reference back. -/
def currentPackage : PackageDir where
  dir := ["ocx", "packages", "ghcr.io", "sha256", "e7", "5b3f1d9a7c5b3f1d9a7c5b3f1d9a7c"]
  symlinks := []
  deps := []
  layers := []
  blobs := []

/-- A store with both packages. -/
def relinkedStore : Store where
  packages := [previousPackage, currentPackage]
  layers := []
  blobs := []
  shims := []
  distinct := by decide

/-- The install link leads into the current package. -/
def relinkedView : LinkView := fun p =>
  if p = sampleInstallLink then some [currentPackage.dir] else none

/-- The collection deletes the current package, and with it the only root. -/
theorem GarbageCollector.relinked_loses_root :
    ¬ (let G := build sampleTiers relinkedView relinkedStore [] ⟨[], []⟩
      let G' := build sampleTiers relinkedView (relinkedStore.delete (unreachableObjects G)) []
        ⟨[], []⟩
      (∀ p, p ∈ unreachableObjects G ↔ p ∈ relinkedStore.allEntries ∧
          ¬ relinkedStore.Reached sampleTiers relinkedView [] ⟨[], []⟩ p) ∧
        unreachableObjects G' = [] ∧ ∀ p, p ∈ G'.roots ↔ p ∈ G.roots) := by
  rintro ⟨-, hnothing, -⟩
  revert hnothing
  decide

end Ocx
