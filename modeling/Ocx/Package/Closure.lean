import Ocx.Package.Resolved

/-!
# The metadata-only closure

Inspecting a package walks its dependency closure from metadata alone: a parallel gather fetches
every node once, a fold over the gathered nodes computes the effective visibilities.
-/

namespace Ocx

/-! ### Metadata -/

/-- How a variable is combined, with the template of its value; a type this version does not know is
kept by name. -/
inductive EnvModifier
  | path (required : Bool) (value : String)
  | constant (value : String)
  | list (separator : Option String) (value : String)
  | unknown (typeName : String)
deriving DecidableEq

/-- The kinds of modifiers this version knows. -/
inductive ModifierKind
  | path
  | constant
  | list
deriving DecidableEq

/-- The kind of a modifier, if it is known. -/
def ModifierKind.ofModifier : EnvModifier → Option ModifierKind
  | .path .. => some .path
  | .constant _ => some .constant
  | .list .. => some .list
  | .unknown _ => none

/-- A declared environment variable. -/
structure EnvVar where
  key : String
  /-- How its value is combined. -/
  modifier : EnvModifier
  visibility : Visibility
deriving DecidableEq

/-- The template of a variable, if its modifier is known. -/
def EnvVar.value (var : EnvVar) : Option String :=
  match var.modifier with
  | .path _ value => some value
  | .constant value => some value
  | .list _ value => some value
  | .unknown _ => none

/-- A JSON value. Numbers are kept as they are written. -/
inductive Json
  | null
  | bool (value : Bool)
  | number (text : String)
  | string (text : String)
  | array (items : List Json)
  | object (members : List (String × Json))

/-- A declared dependency. -/
structure Dependency where
  identifier : PinnedPackageRef
  /-- The declared visibility of the edge. -/
  visibility : Visibility
  /-- The declared interpolation name. -/
  name : Option String
deriving DecidableEq

def slugMaxLen : ℕ := 64

def isSlugChar (c : Char) : Bool := c.isLower || c.isDigit || c == '_' || c == '-'

/-- The slug pattern `[a-z0-9][a-z0-9_-]*`. -/
def isSlug (value : List Char) : Bool :=
  value.length ≤ slugMaxLen && match value with
    | [] => false
    | c :: rest => (c.isLower || c.isDigit) && rest.all isSlugChar

/-- The default interpolation name of a repository basename. -/
def defaultDependencyName (basename : List Char) : String :=
  let sanitized := (basename.map fun c => if isSlugChar c.toLower then c.toLower else '-').take
    slugMaxLen
  if isSlug sanitized then String.ofList sanitized else "dep"

/-- The last path segment of a repository. -/
def PackageRef.name (r : PackageRef) : List Char :=
  (r.repository.toList.reverse.takeWhile (· != '/')).reverse

def Dependency.interpolationName (d : Dependency) : String :=
  d.name.getD (defaultDependencyName d.identifier.ref.name)

/-- The metadata of a package. -/
structure Bundle where
  /-- The environment, in declaration order. -/
  env : List EnvVar
  /-- The declared dependencies, in order. -/
  dependencies : List Dependency
  /-- The entry points with their arguments. -/
  entrypoints : List (String × List String)
  /-- The claimed binaries, if declared. -/
  binaries : Option (List String)
  integrations : List (String × Json)

/-- Metadata that passed validation: no modifier is unknown. -/
structure ValidMetadata where
  metadata : Bundle
  known : ∀ v ∈ metadata.env, (ModifierKind.ofModifier v.modifier).isSome

/-! ### Closure nodes -/

/-- A declared environment variable of a closure node. -/
structure ClosureEnvVar where
  /-- The name of the variable. -/
  key : String
  kind : ModifierKind
  /-- The declared separator of a list. -/
  separator : Option String
  visibility : Visibility
deriving DecidableEq

/-- A declared dependency edge. -/
structure ClosureEdge where
  /-- The declared reference. -/
  identifier : PinnedPackageRef
  visibility : Visibility
  name : String
deriving DecidableEq

/-- A node of a metadata-only closure. -/
structure ClosureNode where
  identifier : PinnedPackageRef
  configDigest : Digest
  /-- The visibility from the root, `none` for the root itself. -/
  effectiveVisibility : Option Visibility
  binaries : Option (List String)
  entrypoints : List String
  /-- The declared environment. -/
  env : List ClosureEnvVar
  integrations : List String
  dependencies : List ClosureEdge
  /-- Whether the node is the root. -/
  isRoot : Bool

/-- A fetched node, keyed by the reference its declared edge resolved to. -/
structure GatheredClosureNode where
  /-- The resolved reference. -/
  identifier : PinnedPackageRef
  configDigest : Digest
  metadata : ValidMetadata
  edges : List ClosureEdge

/-- The declared edges of a package. -/
def closureEdgesFromMetadata (metadata : ValidMetadata) : List ClosureEdge :=
  metadata.metadata.dependencies.map fun d => ⟨d.identifier, d.visibility, d.interpolationName⟩

/-! ### The packages behind the references -/

/-- What an index serves for declared references. A declared reference may name an image index, so
it resolves to another reference; only the digest of a declared reference counts. -/
structure Catalog where
  /-- The reference a declared one resolves to. -/
  resolved : PinnedPackageRef → PinnedPackageRef
  /-- The advisory tag of a declared reference does not matter. -/
  resolved_strip : ∀ d, (resolved d.stripAdvisory).stripAdvisory = (resolved d).stripAdvisory
  configDigest : PinnedPackageRef → Digest
  metadata : PinnedPackageRef → ValidMetadata
  /-- There is no infinite chain of dependencies. -/
  acyclic : WellFounded fun child parent =>
    ∃ d ∈ (metadata parent).metadata.dependencies, (resolved d.identifier).stripAdvisory = child

namespace Catalog

variable (c : Catalog)

def fetchClosureNode (declared : PinnedPackageRef) : GatheredClosureNode where
  identifier := c.resolved declared
  configDigest := c.configDigest (c.resolved declared).stripAdvisory
  metadata := c.metadata (c.resolved declared).stripAdvisory
  edges := closureEdgesFromMetadata (c.metadata (c.resolved declared).stripAdvisory)

/-- The dependency graph of the installed packages. -/
def graph : DependencyGraph where
  deps p := (c.metadata p).metadata.dependencies.map fun d =>
    (c.resolved d.identifier, d.visibility)
  acyclic := by
    refine Subrelation.wf ?_ c.acyclic
    rintro child parent ⟨d, hd, rfl⟩
    obtain ⟨dep, hdep, rfl⟩ := List.mem_map.1 hd
    exact ⟨dep, hdep, rfl⟩

end Catalog

/-! ### Gathering -/

/-- How many fetches run at once. -/
def closureFetchConcurrency : ℕ := 8

structure GatherState where
  /-- The declared references discovered so far. -/
  visited : List PinnedPackageRef
  /-- The discovered edges that wait, with their slots. -/
  pending : List (ℕ × ClosureEdge)
  /-- The edges that are being fetched. -/
  tasks : List (ℕ × ClosureEdge)
  nextSlot : ℕ
  slots : List (Option GatheredClosureNode)
  /-- The writes to the map from declared to resolved identities. -/
  resolvedIdentity : List (PinnedPackageRef × PinnedPackageRef)
  /-- The resolved identities gathered so far. -/
  resolvedSeen : List PinnedPackageRef

namespace GatherState

/-- Discover an edge: an unseen declared reference gets the next slot. -/
def discover (s : GatherState) (edge : ClosureEdge) : GatherState :=
  if edge.identifier.stripAdvisory ∈ s.visited then s
  else
    { s with
      visited := edge.identifier.stripAdvisory :: s.visited
      pending := s.pending ++ [(s.nextSlot, edge)]
      nextSlot := s.nextSlot + 1 }

/-- Start waiting fetches up to the bound. -/
def launch (s : GatherState) : GatherState :=
  { s with
    tasks := s.tasks ++ s.pending.take (closureFetchConcurrency - s.tasks.length)
    pending := s.pending.drop (closureFetchConcurrency - s.tasks.length) }

def store (s : GatherState) (slot : ℕ) (node : GatheredClosureNode) : GatherState :=
  { s with
    slots := (s.slots ++ List.replicate (slot + 1 - s.slots.length) none).set slot (some node) }

/-- Take in a fetched node: note its identity, discover its edges, and store it unless its
resolved identity was gathered before. -/
def join (s : GatherState) (slot : ℕ) (declared : PinnedPackageRef) (node : GatheredClosureNode) :
    GatherState :=
  let s := { s with
    resolvedIdentity := s.resolvedIdentity ++
      [(declared.stripAdvisory, node.identifier.stripAdvisory)] }
  let s := node.edges.foldl discover s
  if node.identifier.stripAdvisory ∈ s.resolvedSeen then s
  else store { s with resolvedSeen := node.identifier.stripAdvisory :: s.resolvedSeen } slot node

def start (frontier : List ClosureEdge) : GatherState :=
  launch (frontier.foldl discover ⟨[], [], [], 0, [], [], []⟩)

end GatherState

/-- A gather from a state to its result; the running fetches finish in any order. -/
inductive Catalog.Gathers (c : Catalog) : GatherState → List GatheredClosureNode →
    List (PinnedPackageRef × PinnedPackageRef) → Prop
  | done {s : GatherState} (h : s.tasks = []) :
    Gathers c s (s.slots.filterMap id) s.resolvedIdentity
  | join {s : GatherState} {before after : List (ℕ × ClosureEdge)} {task : ℕ × ClosureEdge}
    {gathered : List GatheredClosureNode}
    {identity : List (PinnedPackageRef × PinnedPackageRef)} (h : s.tasks = before ++ task :: after)
    (rest : Gathers c (({ s with tasks := before ++ after } : GatherState).join task.1
      task.2.identifier (c.fetchClosureNode task.2.identifier)).launch gathered identity) :
    Gathers c s gathered identity

/-! ### Folding -/

/-- Why a fold stops without a result. -/
inductive Halt
  /-- The recursion is deeper than the fuel. -/
  | outOfFuel
  /-- An internal expectation does not hold. -/
  | panicked (message : String)
deriving DecidableEq

/-- Unwrap a value that is expected to be there. -/
def expect {α : Type*} (message : String) : Option α → Except Halt α
  | some a => .ok a
  | none => .error (.panicked message)

/-- The state of the post-order walk. -/
structure Visit where
  /-- The writes to the map of resolution states. -/
  resolved : List (PinnedPackageRef × ResolvedPackage)
  /-- The visited nodes, dependencies first. -/
  order : List PinnedPackageRef

section Fold

variable (byIdentity : List (PinnedPackageRef × GatheredClosureNode))
  (identity : List (PinnedPackageRef × PinnedPackageRef))

def resolvedEdgeIdentity (edge : ClosureEdge) : Except Halt PinnedPackageRef :=
  expect "gather_closure_nodes populates the alias map for every edge reachable from root"
    (lastValue identity edge.identifier.stripAdvisory)

/-- The child of an edge with its resolution state, as recorded so far. -/
def Visit.child (s : Visit) (key : PinnedPackageRef) (edge : ClosureEdge) :
    PinnedPackageRef × ResolvedPackage × Visibility :=
  (key, (lastValue s.resolved key).getD .new, edge.visibility)

/-- Visit the edges of a node one after another and collect the children. -/
def visitEdges (visit : PinnedPackageRef → Visit → Except Halt Visit) :
    List ClosureEdge → Visit →
      Except Halt (Visit × List (PinnedPackageRef × ResolvedPackage × Visibility))
  | [], s => .ok (s, [])
  | edge :: edges, s => do
    let key ← resolvedEdgeIdentity identity edge
    let s ← visit key s
    let rest ← visitEdges visit edges s
    return (rest.1, s.child key edge :: rest.2)

/-- Post-order walk that records the resolution state of every node. -/
def visitClosureNode : ℕ → PinnedPackageRef → Visit → Except Halt Visit
  | 0, _, _ => .error .outOfFuel
  | fuel + 1, key, s =>
    if (lastValue s.resolved key).isSome then .ok s
    else do
      let node ← expect
        "gather_closure_nodes populates by_identity for every edge reachable from root"
        (lastValue byIdentity key)
      let visited ← visitEdges identity (visitClosureNode fuel) node.edges s
      return ⟨visited.1.resolved ++ [(key, ResolvedPackage.new.withDependencies visited.2)],
        visited.1.order ++ [key]⟩

/-- Visit the edges of the root one after another. -/
def visitRootEdges (fuel : ℕ) : List ClosureEdge → Visit → Except Halt Visit
  | [], s => .ok s
  | edge :: edges, s => do
    let key ← resolvedEdgeIdentity identity edge
    let s ← visitClosureNode byIdentity identity fuel key s
    visitRootEdges fuel edges s

end Fold

/-- The declared variable of a node. -/
def closureEnvVar (v : EnvVar) : Except Halt ClosureEnvVar := do
  let kind ← expect "ValidMetadata rejects unknown modifier types before any closure walk"
    (ModifierKind.ofModifier v.modifier)
  return { key := v.key, kind, visibility := v.visibility
           separator := match v.modifier with
             | .list separator _ => separator
             | _ => none }

/-- The declared environment of a node. -/
def closureEnvVars (metadata : ValidMetadata) : Except Halt (List ClosureEnvVar) :=
  metadata.metadata.env.mapM closureEnvVar

/-- The node of a package. -/
def closureNode (identifier : PinnedPackageRef) (configDigest : Digest)
    (effectiveVisibility : Option Visibility) (metadata : ValidMetadata)
    (edges : List ClosureEdge) (isRoot : Bool) : Except Halt ClosureNode := do
  let env ← closureEnvVars metadata
  return { identifier, configDigest, effectiveVisibility, env, isRoot
           binaries := metadata.metadata.binaries
           entrypoints := metadata.metadata.entrypoints.map Prod.fst
           integrations := metadata.metadata.integrations.map Prod.fst
           dependencies := edges }

def rootChild (identity : List (PinnedPackageRef × PinnedPackageRef)) (s : Visit)
    (edge : ClosureEdge) : Except Halt (PinnedPackageRef × ResolvedPackage × Visibility) := do
  let key ← resolvedEdgeIdentity identity edge
  return s.child key edge

/-- The node of a visited package, with its visibility from the root. -/
def effectiveNode (byIdentity : List (PinnedPackageRef × GatheredClosureNode))
    (effective : List (PinnedPackageRef × Visibility)) (key : PinnedPackageRef) :
    Except Halt ClosureNode := do
  let node ← expect "fold_effective_visibility only visits keys populated by gather_closure_nodes"
    (lastValue byIdentity key)
  let visibility ← expect "every gathered node is reachable from root by construction"
    (lastValue effective key)
  closureNode node.identifier node.configDigest (some visibility) node.metadata node.edges false

def byIdentity (gathered : List GatheredClosureNode) :
    List (PinnedPackageRef × GatheredClosureNode) :=
  gathered.map fun entry => (entry.identifier.stripAdvisory, entry)

/-- Fold the gathered nodes into the closure of the root, dependencies first, the root last. -/
def foldEffectiveVisibility (fuel : ℕ) (rootPinned : PinnedPackageRef)
    (rootMetadata : ValidMetadata) (rootConfigDigest : Digest)
    (gathered : List GatheredClosureNode)
    (identity : List (PinnedPackageRef × PinnedPackageRef)) : Except Halt (List ClosureNode) := do
  let rootEdges := closureEdgesFromMetadata rootMetadata
  let s ← visitRootEdges (byIdentity gathered) identity fuel rootEdges ⟨[], []⟩
  let rootChildren ← rootEdges.mapM (rootChild identity s)
  let effective := (ResolvedPackage.new.withDependencies rootChildren).pairs
  let nodes ← s.order.mapM (effectiveNode (byIdentity gathered) effective)
  let root ← closureNode rootPinned rootConfigDigest none rootMetadata rootEdges true
  return nodes ++ [root]

end Ocx
