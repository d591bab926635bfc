import Ocx.Oci.PackageRef
import Ocx.Package.Visibility
import Ocx.Util.Merge

/-!
# Resolved packages

A package's resolution state is the list of its transitive dependencies, each with the visibility
it has from the package. It is built bottom-up: the lists of the direct dependencies are
concatenated, an identity that comes again is merged into its first occurrence.
-/

namespace Ocx

open List

variable {k p : PinnedPackageRef} {edges : List Visibility} {v : Visibility}

/-- A dependency of the transitive closure with its visibility from the root. -/
structure ResolvedDependency where
  /-- The package, with its advisory tag. -/
  identifier : PinnedPackageRef
  visibility : Visibility
deriving DecidableEq

/-- The resolution state of a package: its transitive closure, the package itself excluded. -/
structure ResolvedPackage where
  /-- The closure, dependencies before their dependents. -/
  dependencies : List ResolvedDependency
deriving DecidableEq

/-- A package without dependencies. -/
def ResolvedPackage.new : ResolvedPackage := ⟨[]⟩

/-- A closure while it is built, with the positions of the identities in it. -/
structure Building where
  dependencies : List ResolvedDependency
  /-- The position of every identity recorded so far. -/
  seen : List (PinnedPackageRef × ℕ)

/-- Record a package: an identity that was seen is merged, a new one is appended. -/
def Building.record (s : Building) (identifier : PinnedPackageRef) (visibility : Visibility) :
    Building :=
  match s.seen.lookup identifier.stripAdvisory with
  | some idx =>
    { s with
      dependencies := s.dependencies.modify idx fun d =>
        { d with visibility := d.visibility.merge visibility } }
  | none =>
    { dependencies := s.dependencies ++ [⟨identifier, visibility⟩]
      seen := (identifier.stripAdvisory, s.dependencies.length) :: s.seen }

/-- Record a direct dependency: its own closure first, then the dependency itself. -/
def Building.recordDirect (s : Building) (dep : PinnedPackageRef × ResolvedPackage × Visibility) :
    Building :=
  let s := dep.2.1.dependencies.foldl
    (fun s t => s.record t.identifier (dep.2.2.throughEdge t.visibility)) s
  s.record dep.1 dep.2.2

/-- Build the closure from the direct dependencies and their closures. -/
def ResolvedPackage.withDependencies (self : ResolvedPackage)
    (deps : List (PinnedPackageRef × ResolvedPackage × Visibility)) : ResolvedPackage :=
  ⟨(deps.foldl Building.recordDirect ⟨self.dependencies, []⟩).dependencies⟩

/-- The identities of a closure with their visibilities. -/
def ResolvedPackage.pairs (r : ResolvedPackage) : List (PinnedPackageRef × Visibility) :=
  r.dependencies.map fun d => (d.identifier.stripAdvisory, d.visibility)

/-! ### One bottom-up step -/

namespace Building

/-- The identities recorded so far with their visibilities. -/
def pairs (s : Building) : List (PinnedPackageRef × Visibility) :=
  s.dependencies.map fun d => (d.identifier.stripAdvisory, d.visibility)

/-- The positions are those of the identities in the closure. -/
def Indexed (s : Building) : Prop :=
  ∀ k i, s.seen.lookup k = some i ↔ (s.pairs.map Prod.fst)[i]? = some k

theorem indexed_empty : Indexed ⟨[], []⟩ := by
  intro k i
  simp [pairs]

variable {s : Building} {identifier : PinnedPackageRef} {visibility : Visibility}

theorem Indexed.mem_iff (h : s.Indexed) :
    k ∈ s.pairs.map Prod.fst ↔ (s.seen.lookup k).isSome := by
  rw [mem_iff_getElem?, Option.isSome_iff_exists]
  exact exists_congr fun i => (h k i).symm

theorem Indexed.record_of_seen (h : s.Indexed) {idx : ℕ}
    (hseen : s.seen.lookup identifier.stripAdvisory = some idx) :
    (s.record identifier visibility).pairs =
        mergeInto s.pairs (identifier.stripAdvisory, visibility) ∧
      (s.record identifier visibility).Indexed := by
  have hrec : s.record identifier visibility = { s with
      dependencies := s.dependencies.modify idx fun d =>
        { d with visibility := d.visibility.merge visibility } } := by
    rw [Building.record, hseen]
  have hmem : identifier.stripAdvisory ∈ s.pairs.map Prod.fst := h.mem_iff.2 (by simp [hseen])
  have hpairs : (s.record identifier visibility).pairs =
      mergeInto s.pairs (identifier.stripAdvisory, visibility) := by
    rw [mergeInto, if_pos hmem, hrec]
    refine ext_getElem? fun j => ?_
    -- the position of the identity is the only place where it stands
    have hidx := h identifier.stripAdvisory j
    simp only [pairs, map_map, getElem?_map, getElem?_modify] at hidx ⊢
    rw [hseen] at hidx
    cases hj : s.dependencies[j]? with
    | none => simp
    | some d =>
      simp only [hj, Option.map_some, Option.some.injEq, Function.comp_apply,
        Option.map_eq_map] at hidx ⊢
      by_cases hij : idx = j
      · rw [if_pos hij, if_pos (hidx.1 hij), Visibility.sup_eq_merge]
      · rw [if_neg hij, if_neg fun heq => hij (hidx.2 heq)]
  refine ⟨hpairs, fun k i => ?_⟩
  rw [hpairs, map_fst_mergeInto, addNew_of_mem hmem, hrec]
  exact h k i

theorem Indexed.record_of_new (h : s.Indexed)
    (hseen : s.seen.lookup identifier.stripAdvisory = none) :
    (s.record identifier visibility).pairs =
        mergeInto s.pairs (identifier.stripAdvisory, visibility) ∧
      (s.record identifier visibility).Indexed := by
  have hrec : s.record identifier visibility =
      { dependencies := s.dependencies ++ [⟨identifier, visibility⟩]
        seen := (identifier.stripAdvisory, s.dependencies.length) :: s.seen } := by
    rw [Building.record, hseen]
  have hmem : identifier.stripAdvisory ∉ s.pairs.map Prod.fst := fun hmem => by
    simpa [hseen] using h.mem_iff.1 hmem
  have hpairs : (s.record identifier visibility).pairs =
      mergeInto s.pairs (identifier.stripAdvisory, visibility) := by
    rw [mergeInto, if_neg hmem, hrec]
    simp [pairs]
  refine ⟨hpairs, fun k i => ?_⟩
  have hlength : s.dependencies.length = (s.pairs.map Prod.fst).length := by simp [pairs]
  rw [hpairs, map_fst_mergeInto, addNew_of_not_mem hmem, hrec, lookup_cons,
    getElem?_append, hlength]
  by_cases hk : k = identifier.stripAdvisory
  · subst hk
    have hnot : ¬ (s.pairs.map Prod.fst)[i]? = some identifier.stripAdvisory := fun hi =>
      hmem (mem_of_getElem? hi)
    by_cases hi : i < (s.pairs.map Prod.fst).length
    · simp only [beq_self_eq_true, hi, if_true, hnot, Option.some.injEq, iff_false]
      omega
    · simp only [beq_self_eq_true, hi, if_false, getElem?_singleton, Option.some.injEq]
      split_ifs with hzero
      · simp only [iff_true]
        omega
      · simp only [iff_false]
        omega
  · have hne : (k == identifier.stripAdvisory) = false := by simpa using hk
    simp only [hne, h k i]
    by_cases hi : i < (s.pairs.map Prod.fst).length
    · simp only [hi, if_true]
    · simp only [hi, if_false, getElem?_singleton]
      rw [getElem?_eq_none (not_lt.1 hi)]
      split_ifs <;> simp [Ne.symm hk]

theorem Indexed.record (h : s.Indexed) (identifier : PinnedPackageRef) (visibility : Visibility) :
    (s.record identifier visibility).pairs =
        mergeInto s.pairs (identifier.stripAdvisory, visibility) ∧
      (s.record identifier visibility).Indexed := by
  cases hseen : s.seen.lookup identifier.stripAdvisory with
  | some idx => exact h.record_of_seen hseen
  | none => exact h.record_of_new hseen

end Building

/-- What the direct dependencies contribute, in the order it is recorded. -/
def inherited (deps : List (PinnedPackageRef × ResolvedPackage × Visibility)) :
    List (PinnedPackageRef × Visibility) :=
  deps.flatMap fun dep =>
    dep.2.1.pairs.map (fun t => (t.1, dep.2.2.throughEdge t.2)) ++ [(dep.1.stripAdvisory, dep.2.2)]

theorem Building.Indexed.foldl_record {s : Building} (h : s.Indexed) (edge : Visibility)
    (ts : List ResolvedDependency) :
    (ts.foldl (fun s t => s.record t.identifier (edge.throughEdge t.visibility)) s).pairs =
        (ts.map fun t => (t.identifier.stripAdvisory, edge.throughEdge t.visibility)).foldl
          mergeInto s.pairs ∧
      (ts.foldl (fun s t => s.record t.identifier (edge.throughEdge t.visibility)) s).Indexed := by
  induction ts generalizing s with
  | nil => exact ⟨rfl, h⟩
  | cons t ts ih =>
    obtain ⟨hpairs, hindexed⟩ := h.record t.identifier (edge.throughEdge t.visibility)
    rw [map_cons, foldl_cons, foldl_cons, ← hpairs]
    exact ih hindexed

theorem Building.Indexed.recordDirect {s : Building} (h : s.Indexed)
    (dep : PinnedPackageRef × ResolvedPackage × Visibility) :
    (s.recordDirect dep).pairs = (inherited [dep]).foldl mergeInto s.pairs ∧
      (s.recordDirect dep).Indexed := by
  obtain ⟨hclosure, hindexed⟩ := h.foldl_record dep.2.2 dep.2.1.dependencies
  obtain ⟨hdirect, hindexed'⟩ := hindexed.record dep.1 dep.2.2
  refine ⟨?_, hindexed'⟩
  rw [inherited, flatMap_singleton, foldl_append, ResolvedPackage.pairs, map_map]
  exact hdirect.trans (congrArg (mergeInto · _) hclosure)

/-- **One bottom-up step** merges the contributions of the direct dependencies. -/
theorem withDependencies_pairs (deps : List (PinnedPackageRef × ResolvedPackage × Visibility)) :
    (ResolvedPackage.new.withDependencies deps).pairs = mergeAll (inherited deps) := by
  have hfold : ∀ s : Building, s.Indexed →
      (deps.foldl Building.recordDirect s).pairs = (inherited deps).foldl mergeInto s.pairs := by
    induction deps with
    | nil => exact fun s _ => rfl
    | cons dep deps ih =>
      intro s hs
      obtain ⟨hpairs, hindexed⟩ := hs.recordDirect dep
      have hcons : inherited (dep :: deps) = inherited [dep] ++ inherited deps := by
        simp [inherited]
      rw [foldl_cons, ih _ hindexed, hpairs, hcons, foldl_append]
  exact hfold ⟨[], []⟩ Building.indexed_empty

/-! ### Dependency graphs -/

/-- Packages with their direct dependencies. -/
structure DependencyGraph where
  /-- The direct dependencies of a package: the resolved reference and the declared visibility. -/
  deps : PinnedPackageRef → List (PinnedPackageRef × Visibility)
  /-- There is no infinite chain of dependencies. -/
  acyclic : WellFounded fun child parent => ∃ d ∈ deps parent, d.1.stripAdvisory = child

namespace DependencyGraph

/-- The resolution state of a package, built from those of its direct dependencies. -/
def resolve (g : DependencyGraph) (p : PinnedPackageRef) : ResolvedPackage :=
  ResolvedPackage.new.withDependencies
    ((g.deps p).attach.map fun d => (d.1.1, g.resolve d.1.1.stripAdvisory, d.1.2))
termination_by g.acyclic.wrap p
decreasing_by exact ⟨d.1, d.2, rfl⟩

variable {g : DependencyGraph}

theorem resolve_eq (p : PinnedPackageRef) : g.resolve p = ResolvedPackage.new.withDependencies
    ((g.deps p).map fun d => (d.1, g.resolve d.1.stripAdvisory, d.2)) := by
  rw [resolve]
  exact congrArg _ (attach_map_val (f := fun d : PinnedPackageRef × Visibility =>
    (d.1, g.resolve d.1.stripAdvisory, d.2)))

/-- A package depends on another directly. -/
def DependsOn (g : DependencyGraph) (p c : PinnedPackageRef) : Prop :=
  ∃ d ∈ g.deps p, d.1.stripAdvisory = c

inductive Path (g : DependencyGraph) : PinnedPackageRef → List Visibility → PinnedPackageRef → Prop
  | single {p : PinnedPackageRef} {d : PinnedPackageRef × Visibility} (hd : d ∈ g.deps p) :
    Path g p [d.2] d.1.stripAdvisory
  | cons {p k : PinnedPackageRef} {d : PinnedPackageRef × Visibility} {edges : List Visibility}
    (hd : d ∈ g.deps p) (hrest : Path g d.1.stripAdvisory edges k) : Path g p (d.2 :: edges) k

theorem Path.ne_nil (h : g.Path p edges k) :
    edges ≠ [] := by
  cases h <;> simp

theorem Path.concat (h : g.Path p edges k)
    {d : PinnedPackageRef × Visibility} (hd : d ∈ g.deps k) :
    g.Path p (edges ++ [d.2]) d.1.stripAdvisory := by
  induction h with
  | single hd' => exact .cons hd' (.single hd)
  | cons hd' _ ih => exact .cons hd' (ih hd)

theorem Path.transGen (h : g.Path p edges k) :
    Relation.TransGen (fun child parent => ∃ d ∈ g.deps parent, d.1.stripAdvisory = child) k p := by
  induction h with
  | single hd => exact .single ⟨_, hd, rfl⟩
  | cons hd _ ih => exact ih.tail ⟨_, hd, rfl⟩

theorem path_iff : g.Path p edges k ↔
    ∃ d ∈ g.deps p, (d.1.stripAdvisory = k ∧ edges = [d.2]) ∨
      ∃ rest, g.Path d.1.stripAdvisory rest k ∧ edges = d.2 :: rest := by
  constructor
  · rintro (⟨hd⟩ | ⟨hd, hrest⟩)
    · exact ⟨_, hd, .inl ⟨rfl, rfl⟩⟩
    · exact ⟨_, hd, .inr ⟨_, hrest, rfl⟩⟩
  · rintro ⟨d, hd, ⟨rfl, rfl⟩ | ⟨rest, hrest, rfl⟩⟩
    · exact .single hd
    · exact .cons hd hrest

end DependencyGraph

/-! ### The closure of a package -/

namespace DependencyGraph

variable {g : DependencyGraph}

/-- The identities in the closure of a package, in order. -/
def closureKeys (g : DependencyGraph) (p : PinnedPackageRef) : List PinnedPackageRef :=
  (g.resolve p).pairs.map Prod.fst

theorem mem_inherited_resolve :
    (k, v) ∈ inherited ((g.deps p).map fun d => (d.1, g.resolve d.1.stripAdvisory, d.2)) ↔
      ∃ d ∈ g.deps p, (d.1.stripAdvisory = k ∧ v = d.2) ∨
        ∃ w, (k, w) ∈ (g.resolve d.1.stripAdvisory).pairs ∧ v = d.2.throughEdge w := by
  simp only [inherited, flatMap_map, mem_flatMap, mem_append, mem_map,
    mem_singleton, Prod.mk.injEq, Prod.exists]
  refine exists_congr fun r => exists_congr fun e => and_congr_right fun _ => ?_
  constructor
  · rintro (⟨k', w, hw, rfl, rfl⟩ | ⟨rfl, rfl⟩)
    · exact .inr ⟨w, hw, rfl⟩
    · exact .inl ⟨rfl, rfl⟩
  · rintro (⟨rfl, rfl⟩ | ⟨w, hw, rfl⟩)
    · exact .inr ⟨rfl, rfl⟩
    · exact .inl ⟨k, w, hw, rfl, rfl⟩

theorem pairs_resolve (p : PinnedPackageRef) : (g.resolve p).pairs =
    mergeAll (inherited ((g.deps p).map fun d => (d.1, g.resolve d.1.stripAdvisory, d.2))) := by
  rw [resolve_eq, withDependencies_pairs]

theorem closureKeys_eq (p : PinnedPackageRef) : g.closureKeys p =
    addAllNew [] ((g.deps p).flatMap fun d =>
      g.closureKeys d.1.stripAdvisory ++ [d.1.stripAdvisory]) := by
  rw [closureKeys, pairs_resolve, map_fst_mergeAll, inherited, map_flatMap, flatMap_map]
  simp [closureKeys, Function.comp_def]

theorem nodup_closureKeys (p : PinnedPackageRef) : (g.closureKeys p).Nodup := by
  rw [closureKeys_eq]
  exact nodup_addAllNew nodup_nil _

theorem mem_closureKeys_step : k ∈ g.closureKeys p ↔
    ∃ d ∈ g.deps p, k ∈ g.closureKeys d.1.stripAdvisory ∨ k = d.1.stripAdvisory := by
  rw [closureKeys_eq, mem_addAllNew]
  simp [mem_flatMap]

theorem mem_closureKeys : k ∈ g.closureKeys p ↔ ∃ edges, g.Path p edges k := by
  induction p using g.acyclic.induction with
  | _ p ih =>
    rw [mem_closureKeys_step]
    constructor
    · rintro ⟨d, hd, hk | rfl⟩
      · obtain ⟨edges, hpath⟩ := (ih _ ⟨d, hd, rfl⟩).1 hk
        exact ⟨d.2 :: edges, .cons hd hpath⟩
      · exact ⟨[d.2], .single hd⟩
    · rintro ⟨edges, hpath⟩
      obtain ⟨d, hd, ⟨rfl, -⟩ | ⟨rest, hrest, -⟩⟩ := path_iff.1 hpath
      · exact ⟨d, hd, .inr rfl⟩
      · exact ⟨d, hd, .inl ((ih _ ⟨d, hd, rfl⟩).2 ⟨rest, hrest⟩)⟩

theorem not_mem_closureKeys_self (p : PinnedPackageRef) : p ∉ g.closureKeys p := by
  intro hmem
  obtain ⟨edges, hpath⟩ := mem_closureKeys.1 hmem
  exact g.acyclic.transGen.irrefl.irrefl p hpath.transGen

theorem dependsFirst_closureKeys (p : PinnedPackageRef) :
    DependsFirst g.DependsOn (g.closureKeys p) := by
  induction p using g.acyclic.induction with
  | _ p ih =>
    rw [closureKeys_eq]
    have hdeps : ∀ deps : List (PinnedPackageRef × Visibility), (∀ d ∈ deps, d ∈ g.deps p) →
        ∀ l, DependsFirst g.DependsOn l → DependsFirst g.DependsOn (addAllNew l
          (deps.flatMap fun d => g.closureKeys d.1.stripAdvisory ++ [d.1.stripAdvisory])) := by
      intro deps
      induction deps with
      | nil => exact fun _ l hl => hl
      | cons d deps ihdeps =>
        intro hsub l hl
        rw [forall_mem_cons] at hsub
        rw [flatMap_cons, addAllNew_append]
        refine ihdeps hsub.2 _ (hl.addAllNew ?_)
        refine (ih _ ⟨d, hsub.1, rfl⟩).concat ?_
        rintro c ⟨d', hd', rfl⟩
        exact mem_closureKeys_step.2 ⟨d', hd', .inr rfl⟩
    exact hdeps (g.deps p) (fun _ hd => hd) [] dependsFirst_nil

def pathVisibilities (g : DependencyGraph) (p k : PinnedPackageRef) : Set Visibility :=
  {v | ∃ edges, g.Path p edges k ∧ v = pathVisibility edges}

theorem mem_pathVisibilities :
    v ∈ g.pathVisibilities p k ↔ ∃ d ∈ g.deps p, (d.1.stripAdvisory = k ∧ v = d.2) ∨
      v ∈ d.2.throughEdge '' g.pathVisibilities d.1.stripAdvisory k := by
  constructor
  · rintro ⟨edges, hpath, rfl⟩
    obtain ⟨d, hd, ⟨rfl, rfl⟩ | ⟨rest, hrest, rfl⟩⟩ := path_iff.1 hpath
    · exact ⟨d, hd, .inl ⟨rfl, rfl⟩⟩
    · exact ⟨d, hd, .inr ⟨_, ⟨rest, hrest, rfl⟩, throughEdge_pathVisibility d.2 hrest.ne_nil⟩⟩
  · rintro ⟨d, hd, ⟨rfl, rfl⟩ | ⟨_, ⟨rest, hrest, rfl⟩, rfl⟩⟩
    · exact ⟨[d.2], .single hd, rfl⟩
    · exact ⟨d.2 :: rest, .cons hd hrest, throughEdge_pathVisibility d.2 hrest.ne_nil⟩

/-- **Visibility of all paths.** A listed package carries the least upper bound of the visibilities
of all paths to it. -/
theorem isLUB_pathVisibilities
    (h : (k, v) ∈ (g.resolve p).pairs) : IsLUB (g.pathVisibilities p k) v := by
  induction p using g.acyclic.induction generalizing v with
  | _ p ih =>
    rw [pairs_resolve] at h
    have hlub := isLUB_of_mem_mergeAll h
    -- both sets have the same upper bounds, dependency by dependency
    suffices hbounds : upperBounds (g.pathVisibilities p k) = upperBounds {w | (k, w) ∈
        inherited ((g.deps p).map fun d => (d.1, g.resolve d.1.stripAdvisory, d.2))} by
      rwa [IsLUB, hbounds]
    ext u
    constructor
    · intro hu w hw
      obtain ⟨d, hd, ⟨rfl, rfl⟩ | ⟨x, hx, rfl⟩⟩ := mem_inherited_resolve.1 hw
      · exact hu (mem_pathVisibilities.2 ⟨d, hd, .inl ⟨rfl, rfl⟩⟩)
      · have himage := Visibility.isLUB_image_throughEdge (ih _ ⟨d, hd, rfl⟩ hx) d.2
        exact himage.2 fun y hy => hu (mem_pathVisibilities.2 ⟨d, hd, .inr hy⟩)
    · intro hu w hw
      obtain ⟨d, hd, ⟨rfl, rfl⟩ | himage⟩ := mem_pathVisibilities.1 hw
      · exact hu (mem_inherited_resolve.2 ⟨d, hd, .inl ⟨rfl, rfl⟩⟩)
      · obtain ⟨_, ⟨rest, hrest, rfl⟩, rfl⟩ := id himage
        obtain ⟨⟨k', x⟩, hx, rfl⟩ := mem_map.1 (mem_closureKeys.2 ⟨rest, hrest⟩)
        have hbound := (Visibility.isLUB_image_throughEdge (ih _ ⟨d, hd, rfl⟩ hx) d.2).1 himage
        exact hbound.trans (hu (mem_inherited_resolve.2 ⟨d, hd, .inr ⟨x, hx, rfl⟩⟩))

/-- The order of the direct dependencies of any package. -/
def Reordered (g g' : DependencyGraph) : Prop := ∀ p, (g'.deps p).Perm (g.deps p)

theorem Reordered.symm {g' : DependencyGraph} (h : g.Reordered g') : g'.Reordered g :=
  fun p => (h p).symm

theorem Reordered.path {g' : DependencyGraph} (h : g.Reordered g') (hpath : g.Path p edges k) :
    g'.Path p edges k := by
  induction hpath with
  | single hd => exact .single ((h _).symm.subset hd)
  | cons hd _ ih => exact .cons ((h _).symm.subset hd) ih

theorem Reordered.mem_pairs {g' : DependencyGraph} (h : g.Reordered g')
    {x : PinnedPackageRef × Visibility} (hx : x ∈ (g.resolve p).pairs) :
    x ∈ (g'.resolve p).pairs := by
  obtain ⟨k, v⟩ := x
  obtain ⟨edges, hpath⟩ := mem_closureKeys.1 (mem_map.2 ⟨(k, v), hx, rfl⟩)
  obtain ⟨⟨k', w⟩, hw, rfl⟩ := mem_map.1 (mem_closureKeys.2 ⟨edges, h.path hpath⟩)
  have hsame : g'.pathVisibilities p k' = g.pathVisibilities p k' := by
    ext u
    exact ⟨fun ⟨es, hes, hu⟩ => ⟨es, h.symm.path hes, hu⟩,
      fun ⟨es, hes, hu⟩ => ⟨es, h.path hes, hu⟩⟩
  rw [(isLUB_pathVisibilities hx).unique (hsame ▸ isLUB_pathVisibilities hw)]
  exact hw

/-- **Transitive closure and visibility.** The resolution state of a package lists every package
that can be reached from it exactly once and after all packages it depends on. The visibility of a
listed package is the union over all paths to it. None of this depends on the order of the direct
dependencies of any package. -/
theorem resolve_spec (g : DependencyGraph) (root : PinnedPackageRef) :
    (∀ k, k ∈ (g.resolve root).pairs.map Prod.fst ↔ ∃ edges, g.Path root edges k) ∧
    ((g.resolve root).pairs.map Prod.fst).Nodup ∧
    DependsFirst g.DependsOn ((g.resolve root).pairs.map Prod.fst) ∧
    (∀ k v, (k, v) ∈ (g.resolve root).pairs →
      IsLUB {w | ∃ edges, g.Path root edges k ∧ w = pathVisibility edges} v) ∧
    ∀ g' : DependencyGraph, g.Reordered g' →
      ∀ x, x ∈ (g'.resolve root).pairs ↔ x ∈ (g.resolve root).pairs :=
  ⟨fun _ => mem_closureKeys, nodup_closureKeys root, dependsFirst_closureKeys root,
    fun _ _ => isLUB_pathVisibilities, fun _ h _ => ⟨h.symm.mem_pairs, h.mem_pairs⟩⟩

end DependencyGraph

end Ocx
