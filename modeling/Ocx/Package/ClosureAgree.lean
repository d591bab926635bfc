import Ocx.Package.Gather
import Ocx.Util.Schedule

/-!
# The metadata-only closure is the installed closure

Installing a package stores the closure that nested bottom-up steps build. Inspecting it walks the
gathered metadata in post-order instead. Both list the same packages in the same order with the
same visibilities, and no internal expectation of the walk fails.
-/

namespace Ocx

open List

variable {k : PinnedPackageRef} {s : Visit} {edges : List ClosureEdge}
  {children : List (PinnedPackageRef × ResolvedPackage × Visibility)}

/-- The identity of the package behind a declared edge. -/
def Catalog.child (c : Catalog) (e : ClosureEdge) : PinnedPackageRef :=
  (c.resolved e.identifier).stripAdvisory

def IsGathered (identity : List (PinnedPackageRef × PinnedPackageRef)) (k : PinnedPackageRef) :
    Prop :=
  ∃ x ∈ identity, x.2 = k

section Lookup

variable {c : Catalog} {F : List ClosureEdge} {gathered : List GatheredClosureNode}
  {identity : List (PinnedPackageRef × PinnedPackageRef)}

theorem Covered.resolvedEdgeIdentity (h : Covered c F gathered identity) {e : ClosureEdge}
    (he : ∃ k, (e.identifier.stripAdvisory, k) ∈ identity) :
    resolvedEdgeIdentity identity e = .ok (c.child e) ∧ IsGathered identity (c.child e) := by
  obtain ⟨k, hk⟩ := he
  have hvalue : ∀ k', (e.identifier.stripAdvisory, k') ∈ identity → k' = c.child e := fun k' hk' =>
    (h.resolved _ hk').trans (c.resolved_strip e.identifier)
  obtain rfl := hvalue k hk
  refine ⟨?_, _, hk, rfl⟩
  rw [Ocx.resolvedEdgeIdentity, lastValue_of_functional hk hvalue]
  rfl

theorem Covered.lookup (h : Covered c F gathered identity)
    (hk : IsGathered identity k) : ∃ node, lastValue (byIdentity gathered) k = some node ∧
      node.identifier.stripAdvisory = k ∧
      node.edges = closureEdgesFromMetadata (c.metadata k) ∧
      ∀ e ∈ node.edges, ∃ k, (e.identifier.stripAdvisory, k) ∈ identity := by
  obtain ⟨x, hx, rfl⟩ := hk
  obtain ⟨entry, hentry, heq⟩ := h.node x hx
  cases hlast : lastValue (byIdentity gathered) x.2 with
  | none =>
    exact absurd heq (lastValue_eq_none_iff.1 hlast _ (mem_map.2 ⟨entry, hentry, rfl⟩))
  | some node =>
    obtain ⟨node', hnode, hpair⟩ := mem_map.1 (mem_of_lastValue_eq_some hlast)
    obtain ⟨hkey, rfl⟩ := Prod.mk.inj hpair
    obtain ⟨d, hd⟩ := h.entry node' hnode
    refine ⟨node', rfl, hkey, ?_, h.edges node' hnode⟩
    rw [← hkey, hd]
    rfl

end Lookup

/-! ### The walk -/

/-- The invariant of the walk: the visited packages are closed under dependencies, and each has
its resolution state recorded. -/
structure VisitInv (c : Catalog) (identity : List (PinnedPackageRef × PinnedPackageRef))
    (s : Visit) : Prop where
  /-- A package has a resolution state once it is visited. -/
  recorded : ∀ k, (lastValue s.resolved k).isSome ↔ k ∈ s.order
  /-- The resolution states are those of the installed packages. -/
  pairs : ∀ k r, lastValue s.resolved k = some r → r.pairs = (c.graph.resolve k).pairs
  /-- With a package its whole closure is visited. -/
  closed : ∀ k ∈ s.order, ∀ j ∈ c.graph.closureKeys k, j ∈ s.order
  /-- Visited packages were gathered. -/
  gathered : ∀ k ∈ s.order, IsGathered identity k

/-- The closure of a package, followed by the package. -/
def Catalog.chainOf (c : Catalog) (k : PinnedPackageRef) : List PinnedPackageRef :=
  c.graph.closureKeys k ++ [k]

/-- What the walk knows of a child. -/
def childView (child : PinnedPackageRef × ResolvedPackage × Visibility) :
    PinnedPackageRef × List (PinnedPackageRef × Visibility) × Visibility :=
  (child.1.stripAdvisory, child.2.1.pairs, child.2.2)

/-- A visit of a package appends what is missing of its chain. -/
def Visits (c : Catalog) (identity : List (PinnedPackageRef × PinnedPackageRef))
    (visit : PinnedPackageRef → Visit → Except Halt Visit) (k : PinnedPackageRef) : Prop :=
  ∀ s, VisitInv c identity s → ∃ s', visit k s = .ok s' ∧ VisitInv c identity s' ∧
    s'.order = addAllNew s.order (c.chainOf k)

theorem inherited_congr {deps deps' : List (PinnedPackageRef × ResolvedPackage × Visibility)}
    (h : deps.map childView = deps'.map childView) : inherited deps = inherited deps' := by
  have hview : ∀ deps, inherited deps = (deps.map childView).flatMap fun v =>
      v.2.1.map (fun t => (t.1, v.2.2.throughEdge t.2)) ++ [(v.1, v.2.2)] := fun deps => by
    rw [inherited, flatMap_map]
    rfl
  rw [hview, hview, h]

open DependencyGraph

section Walk

variable {c : Catalog} {F : List ClosureEdge} {gathered : List GatheredClosureNode}
  {identity : List (PinnedPackageRef × PinnedPackageRef)}

theorem VisitInv.child (h : VisitInv c identity s) {e : ClosureEdge}
    (he : c.child e ∈ s.order) : childView (s.child (c.child e) e) =
      (c.child e, (c.graph.resolve (c.child e)).pairs, e.visibility) := by
  obtain ⟨r, hr⟩ := Option.isSome_iff_exists.1 ((h.recorded _).2 he)
  rw [Visit.child, hr, Option.getD_some, childView, h.pairs _ r hr]
  rfl

/-- **Visiting edges** appends what is missing of the chains of the children, in order. -/
theorem visitEdges_spec (h : Covered c F gathered identity)
    {visit : PinnedPackageRef → Visit → Except Halt Visit}
    (hedges : ∀ e ∈ edges, ∃ k, (e.identifier.stripAdvisory, k) ∈ identity)
    (hvisit : ∀ e ∈ edges, Visits c identity visit (c.child e))
    (hs : VisitInv c identity s) :
    ∃ s' children, visitEdges identity visit edges s = .ok (s', children) ∧
      VisitInv c identity s' ∧
      s'.order = addAllNew s.order (edges.flatMap fun e => c.chainOf (c.child e)) ∧
      children.map childView = edges.map fun e =>
        (c.child e, (c.graph.resolve (c.child e)).pairs, e.visibility) := by
  induction edges generalizing s with
  | nil => exact ⟨s, [], rfl, hs, rfl, rfl⟩
  | cons e edges ih =>
    rw [forall_mem_cons] at hedges hvisit
    obtain ⟨s₁, hrun, hinv, horder⟩ := hvisit.1 s hs
    obtain ⟨s₂, children, hrest, hinv', horder', hchildren⟩ := ih hedges.2 hvisit.2 hinv
    have hmem : c.child e ∈ s₁.order := by
      rw [horder, mem_addAllNew]
      exact .inr (by simp [Catalog.chainOf])
    refine ⟨s₂, s₁.child (c.child e) e :: children, ?_, hinv', ?_, ?_⟩
    · rw [visitEdges, (h.resolvedEdgeIdentity hedges.1).1]
      simp only [bind, Except.bind, hrun, hrest]
      rfl
    · rw [horder', horder, flatMap_cons, addAllNew_append]
    · rw [map_cons, map_cons, hchildren, hinv.child hmem]

theorem addAllNew_chain (l : List PinnedPackageRef) :
    addAllNew l ((closureEdgesFromMetadata (c.metadata k)).flatMap fun e => c.chainOf (c.child e)) =
      addAllNew l (c.graph.closureKeys k) := by
  have hedges : ((closureEdgesFromMetadata (c.metadata k)).flatMap fun e => c.chainOf (c.child e)) =
      (c.graph.deps k).flatMap fun d =>
        c.graph.closureKeys d.1.stripAdvisory ++ [d.1.stripAdvisory] := by
    simp only [closureEdgesFromMetadata, Catalog.graph, flatMap_map]
    rfl
  rw [hedges, closureKeys_eq, addAllNew_addAllNew]
  rfl

theorem pairs_withDependencies
    (h : children.map childView = (closureEdgesFromMetadata (c.metadata k)).map fun e =>
      (c.child e, (c.graph.resolve (c.child e)).pairs, e.visibility)) :
    (ResolvedPackage.new.withDependencies children).pairs = (c.graph.resolve k).pairs := by
  rw [withDependencies_pairs, pairs_resolve]
  refine congrArg mergeAll (inherited_congr (h.trans ?_))
  simp only [closureEdgesFromMetadata, Catalog.graph, map_map]
  rfl

theorem VisitInv.record (h : VisitInv c identity s)
    {r : ResolvedPackage} (hk : IsGathered identity k) (hr : r.pairs = (c.graph.resolve k).pairs)
    (hclosed : ∀ j ∈ c.graph.closureKeys k, j ∈ s.order) :
    VisitInv c identity ⟨s.resolved ++ [(k, r)], s.order ++ [k]⟩ := by
  have hlast : ∀ j, lastValue (s.resolved ++ [(k, r)]) j =
      if k = j then some r else lastValue s.resolved j := by
    intro j
    rw [lastValue_append, lastValue_cons, lastValue_nil, Option.none_or]
    split_ifs <;> rfl
  refine ⟨fun j => ?_, fun j r' hj => ?_, fun j hj i hi => mem_append_left _ ?_,
    forall_mem_append.2 ⟨h.gathered, by simpa using hk⟩⟩
  · rw [hlast, mem_append, mem_singleton, ← h.recorded]
    split_ifs with heq
    · simp [heq]
    · simp [Ne.symm heq]
  · rw [hlast] at hj
    split_ifs at hj with heq
    · rw [← heq, ← Option.some.inj hj, hr]
    · exact h.pairs j r' hj
  · rcases mem_append.1 hj with hj | hj
    · exact h.closed j hj i hi
    · exact hclosed i (mem_singleton.1 hj ▸ hi)

theorem exists_fuel {P : ClosureEdge → ℕ → Prop}
    (h : ∀ e ∈ edges, ∃ n, ∀ fuel ≥ n, P e fuel) : ∃ n, ∀ fuel ≥ n, ∀ e ∈ edges, P e fuel := by
  induction edges with
  | nil => exact ⟨0, by simp⟩
  | cons e edges ih =>
    rw [forall_mem_cons] at h
    obtain ⟨n, hn⟩ := h.1
    obtain ⟨m, hm⟩ := ih h.2
    refine ⟨max n m, fun fuel hfuel => forall_mem_cons.2 ⟨?_, ?_⟩⟩
    · exact hn fuel ((le_max_left n m).trans hfuel)
    · exact hm fuel ((le_max_right n m).trans hfuel)

/-- **Visiting a package** with enough fuel appends what is missing of its chain. -/
theorem visitClosureNode_spec (h : Covered c F gathered identity)
    (hk : IsGathered identity k) : ∃ n, ∀ fuel ≥ n,
      Visits c identity (visitClosureNode (byIdentity gathered) identity fuel) k := by
  induction k using c.graph.acyclic.induction with
  | _ k ih =>
    obtain ⟨node, hnode, -, hedges, halias⟩ := h.lookup hk
    have hchildren : ∀ e ∈ node.edges, ∃ n, ∀ fuel ≥ n,
        Visits c identity (visitClosureNode (byIdentity gathered) identity fuel) (c.child e) := by
      intro e he
      refine ih _ ?_ (h.resolvedEdgeIdentity (halias e he)).2
      rw [hedges] at he
      obtain ⟨d, hd, rfl⟩ := mem_map.1 he
      exact ⟨_, mem_map.2 ⟨d, hd, rfl⟩, rfl⟩
    obtain ⟨n, hn⟩ := exists_fuel hchildren
    refine ⟨n + 1, fun fuel hfuel s hs => ?_⟩
    obtain ⟨m, rfl⟩ := Nat.exists_eq_add_of_le' (Nat.one_le_of_lt hfuel)
    rw [visitClosureNode]
    by_cases hseen : k ∈ s.order
    · rw [if_pos ((hs.recorded k).2 hseen)]
      exact ⟨s, rfl, hs, (addAllNew_of_subset (forall_mem_append.2
        ⟨hs.closed k hseen, by simpa using hseen⟩)).symm⟩
    · obtain ⟨s₁, children, hrun, hinv, horder, hview⟩ :=
        visitEdges_spec h halias (hn m (Nat.le_of_succ_le_succ hfuel)) hs
      rw [hedges, addAllNew_chain] at horder
      rw [hedges] at hview
      have hclosed : ∀ j ∈ c.graph.closureKeys k, j ∈ s₁.order := fun j hj => by
        rw [horder, mem_addAllNew]
        exact .inr hj
      have hnew : k ∉ s₁.order := by
        rw [horder, mem_addAllNew, not_or]
        exact ⟨hseen, not_mem_closureKeys_self k⟩
      refine ⟨⟨s₁.resolved ++ [(k, ResolvedPackage.new.withDependencies children)],
        s₁.order ++ [k]⟩, ?_, hinv.record hk (pairs_withDependencies hview) hclosed, ?_⟩
      · rw [if_neg (by rwa [hs.recorded]), hnode]
        simp only [expect, bind, Except.bind, hrun]
        rfl
      · rw [Catalog.chainOf, addAllNew_concat, ← horder, addNew_of_not_mem hnew]

theorem visitRootEdges_of_visitEdges {fuel : ℕ} {s' : Visit}
    {nodes : List (PinnedPackageRef × GatheredClosureNode)}
    (h : visitEdges identity (visitClosureNode nodes identity fuel) edges s = .ok (s', children)) :
    visitRootEdges nodes identity fuel edges s = .ok s' := by
  induction edges generalizing s children with
  | nil =>
    cases h
    rfl
  | cons e edges ih =>
    rw [visitRootEdges]
    obtain ⟨key, hkey, h⟩ := bind_eq_ok_iff.1 h
    obtain ⟨s₁, hvisit, h⟩ := bind_eq_ok_iff.1 h
    obtain ⟨rest, hrest, h⟩ := bind_eq_ok_iff.1 h
    cases h
    simp only [hkey, bind, Except.bind, hvisit]
    exact ih hrest

theorem exists_closureNode (identifier : PinnedPackageRef) (configDigest : Digest)
    (visibility : Option Visibility) (metadata : ValidMetadata) (edges : List ClosureEdge)
    (isRoot : Bool) :
    ∃ node, closureNode identifier configDigest visibility metadata edges isRoot = .ok node ∧
      node.identifier = identifier ∧ node.effectiveVisibility = visibility ∧
      node.isRoot = isRoot := by
  have henv : ∃ env, closureEnvVars metadata = .ok env := by
    have hvar : ∀ v ∈ metadata.metadata.env, ∃ y, closureEnvVar v = .ok y ∧ True := by
      intro v hv
      obtain ⟨kind, hkind⟩ := Option.isSome_iff_exists.1 (metadata.known v hv)
      rw [closureEnvVar, hkind]
      exact ⟨_, rfl, trivial⟩
    obtain ⟨env, henv, -⟩ := exists_mapM_ok hvar
    exact ⟨env, henv⟩
  obtain ⟨env, henv⟩ := henv
  rw [closureNode, henv]
  exact ⟨_, rfl, rfl, rfl, rfl⟩

end Walk

/-- **The metadata-only closure is the installed closure.** Over the result of any gather of the
root's dependencies, the fold with enough fuel yields the packages of the installed closure in the
same order and with the same visibilities, followed by the root. -/
theorem foldEffectiveVisibility_spec (c : Catalog) (root : PinnedPackageRef) (digest : Digest)
    {gathered : List GatheredClosureNode} {identity : List (PinnedPackageRef × PinnedPackageRef)}
    (h : c.Gathers (.start (closureEdgesFromMetadata (c.metadata root.stripAdvisory))) gathered
      identity) :
    ∃ n, ∀ fuel ≥ n, ∃ nodes rootNode,
      foldEffectiveVisibility fuel root (c.metadata root.stripAdvisory) digest gathered identity =
        .ok (nodes ++ [rootNode]) ∧
      nodes.map (fun node => (node.identifier.stripAdvisory, node.effectiveVisibility)) =
        (c.graph.resolve root.stripAdvisory).pairs.map (fun x => (x.1, some x.2)) ∧
      (∀ node ∈ nodes, node.isRoot = false) ∧
      rootNode.identifier = root ∧ rootNode.isRoot = true := by
  have hcov := h.covered
  set edges := closureEdgesFromMetadata (c.metadata root.stripAdvisory) with hedges
  have hchildren :=
    fun e he => visitClosureNode_spec hcov (hcov.resolvedEdgeIdentity (hcov.frontier e he)).2
  obtain ⟨n, hn⟩ := exists_fuel hchildren
  refine ⟨n, fun fuel hfuel => ?_⟩
  have hempty : VisitInv c identity ⟨[], []⟩ := by
    constructor <;> simp
  obtain ⟨s, _, hrun, hinv, horder, -⟩ :=
    visitEdges_spec hcov hcov.frontier (hn fuel hfuel) hempty
  rw [addAllNew_chain, closureKeys_eq, addAllNew_addAllNew, addAllNew_nil,
    ← closureKeys_eq] at horder
  have hmem : ∀ k, k ∈ s.order ↔ k ∈ c.graph.closureKeys root.stripAdvisory := fun k => by
    rw [horder]
  -- the children of the root
  have hchild : ∀ e ∈ edges, ∃ child, rootChild identity s e = .ok child ∧
      childView child = (c.child e, (c.graph.resolve (c.child e)).pairs, e.visibility) := by
    intro e he
    refine ⟨s.child (c.child e) e, ?_, hinv.child ?_⟩
    · rw [rootChild, (hcov.resolvedEdgeIdentity (hcov.frontier e he)).1]
      rfl
    · obtain ⟨d, hd, rfl⟩ := mem_map.1 he
      rw [hmem, mem_closureKeys]
      have hdep : (c.resolved d.identifier, d.visibility) ∈ c.graph.deps root.stripAdvisory :=
        mem_map.2 ⟨d, hd, rfl⟩
      exact ⟨_, DependencyGraph.Path.single hdep⟩
  obtain ⟨rootChildren, hrootChildren, hviews⟩ := exists_mapM_ok hchild
  have heffective := pairs_withDependencies (map_eq_of_forall₂ hviews)
  -- the visited packages
  have hnodup := nodup_closureKeys (g := c.graph) root.stripAdvisory
  set pairs := (c.graph.resolve root.stripAdvisory).pairs with hpairs
  have hnode : ∀ k ∈ s.order, ∃ node, effectiveNode (byIdentity gathered) pairs k = .ok node ∧
      (node.identifier.stripAdvisory, node.effectiveVisibility, node.isRoot) =
        (k, lastValue pairs k, false) := by
    intro k hk
    obtain ⟨entry, hentry, hkey, -, -⟩ := hcov.lookup (hinv.gathered k hk)
    obtain ⟨⟨k', v⟩, hv, rfl⟩ := mem_map.1 ((hmem k).1 hk)
    have hlast := lastValue_of_unique hnodup hv
    obtain ⟨node, hnode, hid, hvis, hroot⟩ := exists_closureNode entry.identifier
      entry.configDigest (some v) entry.metadata entry.edges false
    refine ⟨node, ?_, ?_⟩
    · rw [effectiveNode, hentry, hlast]
      exact hnode
    · rw [hid, hvis, hroot, hkey, hlast]
  obtain ⟨nodes, hnodes, hviews'⟩ := exists_mapM_ok hnode
  obtain ⟨rootNode, hroot, hid, -, hisRoot⟩ := exists_closureNode root digest none
    (c.metadata root.stripAdvisory) edges true
  have hview := map_eq_of_forall₂ hviews'
  refine ⟨nodes, rootNode, ?_, ?_, ?_, hid, hisRoot⟩
  · rw [foldEffectiveVisibility, ← hedges, visitRootEdges_of_visitEdges hrun]
    simp only [bind, Except.bind, hrootChildren, heffective, hnodes, hroot]
    rfl
  · have hkeys : s.order.map (fun k => (k, lastValue pairs k)) =
        pairs.map fun x => (x.1, some x.2) := by
      rw [horder, closureKeys, map_map]
      refine map_congr_left fun x hx => ?_
      rw [Function.comp_apply, lastValue_of_unique hnodup hx]
    rw [← hkeys]
    simpa only [map_map, Function.comp_def] using
      congrArg (map fun t => (t.1, t.2.1)) hview
  · intro node hmem'
    have htriple := mem_map_of_mem (f := fun node : ClosureNode =>
      (node.identifier.stripAdvisory, node.effectiveVisibility, node.isRoot)) hmem'
    rw [hview] at htriple
    obtain ⟨k, -, hk⟩ := mem_map.1 htriple
    exact (congrArg (fun t => t.2.2) hk).symm

def sampleRef (repository hex : String) : PinnedPackageRef :=
  ⟨⟨"ocx.sh", repository, none, some ⟨.sha256, hex⟩⟩, rfl⟩

/-- The length of the longest chain of dependencies in the sample repository. -/
def sampleDepth (p : PinnedPackageRef) : ℕ := if p = sampleRef "cmake" "root" then 1 else 0

/-- A package that depends on an image index and on the package the index resolves to. -/
def sampleCatalog : Catalog where
  resolved d := if d.stripAdvisory = sampleRef "zlib" "index" then sampleRef "zlib" "child" else d
  resolved_strip d := by
    rw [PinnedPackageRef.stripAdvisory_stripAdvisory]
    split_ifs <;> rfl
  configDigest _ := ⟨.sha256, "config"⟩
  metadata p :=
    if p = sampleRef "cmake" "root" then
      ⟨⟨[], [⟨sampleRef "zlib" "index", ⟨true, false⟩, none⟩,
        ⟨sampleRef "zlib" "child", ⟨false, true⟩, some "z"⟩], [], none, []⟩, by simp⟩
    else ⟨⟨[], [], [], none, []⟩, by simp⟩
  acyclic := by
    refine Subrelation.wf ?_ (measure sampleDepth).wf
    rintro child parent ⟨d, hd, rfl⟩
    split_ifs at hd with hroot
    · simp only [List.mem_cons, List.not_mem_nil, or_false] at hd
      subst hroot
      rcases hd with rfl | rfl
      · show sampleDepth _ < sampleDepth _
        decide
      · show sampleDepth _ < sampleDepth _
        decide
    · simp at hd

theorem foldEffectiveVisibility_sample : ∃ gathered identity,
    sampleCatalog.Gathers (.start (closureEdgesFromMetadata
      (sampleCatalog.metadata (sampleRef "cmake" "root")))) gathered identity ∧
    ∃ n, ∀ fuel ≥ n, ∃ nodes, foldEffectiveVisibility fuel (sampleRef "cmake" "root")
      (sampleCatalog.metadata (sampleRef "cmake" "root")) ⟨.sha256, "config"⟩ gathered identity =
        .ok nodes := by
  obtain ⟨gathered, identity, h⟩ := sampleCatalog.exists_gathers (sampleRef "cmake" "root")
  refine ⟨gathered, identity, h, ?_⟩
  obtain ⟨n, hn⟩ :=
    foldEffectiveVisibility_spec sampleCatalog (sampleRef "cmake" "root") ⟨.sha256, "config"⟩ h
  refine ⟨n, fun fuel hfuel => ?_⟩
  obtain ⟨nodes, rootNode, hfold, -⟩ := hn fuel hfuel
  exact ⟨_, hfold⟩

end Ocx
