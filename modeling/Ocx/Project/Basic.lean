import Ocx.Oci.PackageRef
import Ocx.Oci.PlatformText
import Ocx.Oci.Selection
import Ocx.Util.Schedule
import Ocx.Util.Sorted

/-!
# Project declarations and locks

A project declares tools in `ocx.toml`: the top-level table, which is the group `default`, and named
groups.  A group may declare a tool as a follower of the top-level one.  The lock records one entry
for each declared binding of a group and a name, with a digest for each platform.
-/

namespace Ocx

open List

/-! ### Identifiers -/

/-- A repository without tag and digest. -/
structure Repository where
  registry : String
  repository : String
deriving DecidableEq

def Repository.ofRef (r : PackageRef) : Repository := ⟨r.registry, r.repository⟩

/-! ### Bindings -/

/-- A group and the name of a tool in it. -/
@[ext] structure Binding where
  group : String
  name : String
deriving DecidableEq, Repr

namespace Binding

/-- The group first, then the name. -/
def key (b : Binding) : String ×ₗ String := toLex (b.group, b.name)

theorem key_injective : key.Injective := by
  intro a b h
  simp only [key, EmbeddingLike.apply_eq_iff_eq, Prod.mk.injEq] at h
  exact Binding.ext h.1 h.2

instance : LinearOrder Binding :=
  linearOrderOfKey key key_injective (fun a b => compare a.key b.key) (fun _ _ => rfl)

instance : Std.TransCmp (compare : Binding → Binding → Ordering) := inferInstance

end Binding

/-- The group of the top-level tools. -/
def defaultGroup : String := "default"

/-- The reserved name for every group. -/
def allGroup : String := "all"

/-! ### Declarations -/

structure Group where
  tools : Std.ExtTreeMap String PackageRef
  /-- The tools that follow the top-level tool of the same name. -/
  inherited : Std.ExtTreeSet String

structure ProjectConfig where
  /-- The top-level tools. -/
  tools : Std.ExtTreeMap String PackageRef
  groups : Std.ExtTreeMap String Group
  /-- The reserved names are refused as groups. -/
  reserved : ∀ g, g ∈ groups → g ≠ defaultGroup ∧ g ≠ allGroup
  /-- A follower carries the identifier of the tool it follows. -/
  follows : ∀ (g : String) (body : Group), groups[g]? = some body → ∀ n ∈ body.inherited,
    ∃ identifier : PackageRef, tools[n]? = some identifier ∧ body.tools[n]? = some identifier

/-- What the declaration hash covers: the sections, each with its tools and their identifiers. -/
abbrev Declarations := List (String × List (String × String))

/-- The names of a table of tools with their written identifiers. -/
def writtenTools (tools : Std.ExtTreeMap String PackageRef) : List (String × String) :=
  tools.toList.map fun t => (t.1, t.2.toString)

/-- What is hashed of the declarations. Followers are hashed as the identifier they carry. -/
def declarations (config : ProjectConfig) : Declarations :=
  (defaultGroup, writtenTools config.tools) ::
    config.groups.toList.map fun g => ("group." ++ g.1, writtenTools g.2.tools)

/-- The name of a group is a follower of the top-level tool. -/
def isFollower (config : ProjectConfig) (b : Binding) : Bool :=
  match config.groups[b.group]? with
  | some body => body.inherited.contains b.name
  | none => false

def declaredIdentifier (config : ProjectConfig) (b : Binding) : Option PackageRef :=
  if b.group = defaultGroup then config.tools[b.name]?
  else config.groups[b.group]?.bind fun body => body.tools[b.name]?

def bindingsOf (group : String) (tools : Std.ExtTreeMap String PackageRef) :
    List (Binding × PackageRef) :=
  tools.toList.map fun t => (⟨group, t.1⟩, t.2)

/-- Whether a group is selected; no selection selects all. -/
def includesGroup (selected : Option (List String)) (group : String) : Bool :=
  match selected with
  | none => true
  | some groups => groups.contains group

/-- The declared bindings of the selected groups. -/
def collectWork (config : ProjectConfig) (selected : Option (List String)) :
    List (Binding × PackageRef) :=
  (if includesGroup selected defaultGroup then bindingsOf defaultGroup config.tools else []) ++
    (config.groups.toList.filter fun g => includesGroup selected g.1).flatMap fun g =>
      bindingsOf g.1 g.2.tools

section Declared

variable {config : ProjectConfig} {b : Binding} {identifier : PackageRef}

theorem mem_bindingsOf {group : String} {tools : Std.ExtTreeMap String PackageRef} :
    (b, identifier) ∈ bindingsOf group tools ↔
      b.group = group ∧ tools[b.name]? = some identifier := by
  unfold bindingsOf
  rw [mem_map]
  constructor
  · rintro ⟨⟨n, r⟩, hmem, heq⟩
    obtain ⟨rfl, rfl⟩ := Prod.mk.inj heq
    exact ⟨rfl, Std.ExtTreeMap.mem_toList_iff_getElem?_eq_some.1 hmem⟩
  · rintro ⟨rfl, htool⟩
    exact ⟨(b.name, identifier), Std.ExtTreeMap.mem_toList_iff_getElem?_eq_some.2 htool, rfl⟩

theorem group_ne_default {g : String} {body : Group} (h : config.groups[g]? = some body) :
    g ≠ defaultGroup :=
  (config.reserved g (Std.ExtTreeMap.mem_iff_isSome_getElem?.2 (by simp [h]))).1

theorem mem_collectWork {selected : Option (List String)} :
    (b, identifier) ∈ collectWork config selected ↔
      includesGroup selected b.group = true ∧ declaredIdentifier config b = some identifier := by
  have hgroups : (b, identifier) ∈
      ((config.groups.toList.filter fun g => includesGroup selected g.1).flatMap fun g =>
        bindingsOf g.1 g.2.tools) ↔ ∃ body : Group, config.groups[b.group]? = some body ∧
          includesGroup selected b.group = true ∧ body.tools[b.name]? = some identifier := by
    simp only [mem_flatMap, mem_filter, mem_bindingsOf]
    constructor
    · rintro ⟨⟨g, body⟩, ⟨hg, hsel⟩, heq, htool⟩
      cases heq
      exact ⟨body, Std.ExtTreeMap.mem_toList_iff_getElem?_eq_some.1 hg, hsel, htool⟩
    · rintro ⟨body, hg, hsel, htool⟩
      exact ⟨(b.group, body), ⟨Std.ExtTreeMap.mem_toList_iff_getElem?_eq_some.2 hg, hsel⟩, rfl,
        htool⟩
  unfold collectWork declaredIdentifier
  rw [mem_append, hgroups]
  by_cases hdefault : b.group = defaultGroup
  · -- no named group is called `default`
    have hnone : ¬ ∃ body : Group, config.groups[b.group]? = some body ∧
        includesGroup selected b.group = true ∧ body.tools[b.name]? = some identifier := by
      rintro ⟨body, hg, -⟩
      exact group_ne_default hg hdefault
    rw [or_iff_left hnone, if_pos hdefault, hdefault]
    by_cases hsel : includesGroup selected defaultGroup = true
    · simp [hsel, mem_bindingsOf, hdefault]
    · simp [hsel]
  · rw [if_neg hdefault]
    have hnone : (b, identifier) ∉ (if includesGroup selected defaultGroup = true then
        bindingsOf defaultGroup config.tools else []) := by
      split_ifs
      · rw [mem_bindingsOf]
        exact fun h => hdefault h.1
      · simp
    rw [or_iff_right hnone]
    cases hg : config.groups[b.group]? with
    | none => simp
    | some body => simp

/-- The bindings that are collected without a selection are the declared ones. -/
theorem mem_collectWork_none :
    (b, identifier) ∈ collectWork config none ↔ declaredIdentifier config b = some identifier := by
  rw [mem_collectWork]
  exact and_iff_right rfl

theorem mem_map_fst_collectWork_none :
    b ∈ (collectWork config none).map Prod.fst ↔ (declaredIdentifier config b).isSome := by
  rw [mem_map, Option.isSome_iff_exists]
  constructor
  · rintro ⟨⟨b', identifier⟩, hmem, rfl⟩
    exact ⟨identifier, mem_collectWork_none.1 hmem⟩
  · rintro ⟨identifier, h⟩
    exact ⟨(b, identifier), mem_collectWork_none.2 h, rfl⟩

theorem nodup_bindingsOf (group : String) (tools : Std.ExtTreeMap String PackageRef) :
    ((bindingsOf group tools).map Prod.fst).Nodup := by
  unfold bindingsOf
  rw [map_map]
  have hkeys : (tools.toList.map Prod.fst).Nodup := nodup_keys_toList tools
  have hmap := hkeys.map (f := fun n => (⟨group, n⟩ : Binding)) fun a b h => congrArg Binding.name h
  rw [map_map] at hmap
  exact hmap

/-- No binding is collected twice. -/
theorem nodup_collectWork (config : ProjectConfig) (selected : Option (List String)) :
    ((collectWork config selected).map Prod.fst).Nodup := by
  have hgroup : ∀ {g : String} {tools : Std.ExtTreeMap String PackageRef} {b : Binding},
      b ∈ (bindingsOf g tools).map Prod.fst → b.group = g := by
    intro g tools b hmem
    obtain ⟨⟨b', identifier⟩, htool, rfl⟩ := mem_map.1 hmem
    exact (mem_bindingsOf.1 htool).1
  unfold collectWork
  rw [map_append, nodup_append, map_flatMap]
  refine ⟨?_, ?_, ?_⟩
  · split_ifs
    · exact nodup_bindingsOf _ _
    · simp
  · rw [nodup_flatMap]
    refine ⟨fun g _ => nodup_bindingsOf g.1 g.2.tools, ?_⟩
    have hkeys : (config.groups.toList.map Prod.fst).Nodup := nodup_keys_toList config.groups
    rw [List.Nodup, pairwise_map] at hkeys
    refine (hkeys.sublist filter_sublist).imp ?_
    intro g g' hne b hb hb'
    exact hne ((hgroup hb).symm.trans (hgroup hb'))
  · intro b hb b' hb' heq
    subst heq
    obtain ⟨g, hg, hb'⟩ := mem_flatMap.1 hb'
    have hdefault : b.group = defaultGroup := by
      split_ifs at hb
      · exact hgroup hb
      · simp at hb
    have hmem : config.groups[g.1]? = some g.2 :=
      Std.ExtTreeMap.mem_toList_iff_getElem?_eq_some.1 (mem_filter.1 hg).1
    exact group_ne_default hmem ((hgroup hb').symm.trans hdefault)

/-! ### Followers -/

/-- The top-level tool of the same name. -/
def Binding.source (b : Binding) : Binding := ⟨defaultGroup, b.name⟩

theorem isFollower_source : isFollower config b.source = false := by
  unfold isFollower
  cases hg : config.groups[b.source.group]? with
  | none => rfl
  | some body => exact absurd rfl (group_ne_default hg)

theorem declared_of_isFollower (h : isFollower config b = true) :
    ∃ identifier, declaredIdentifier config b = some identifier ∧
      declaredIdentifier config b.source = some identifier := by
  unfold isFollower at h
  cases hg : config.groups[b.group]? with
  | none => simp [hg] at h
  | some body =>
    rw [hg] at h
    obtain ⟨identifier, hsource, htool⟩ := config.follows b.group body hg b.name
      (Std.ExtTreeSet.mem_iff_contains.2 h)
    refine ⟨identifier, ?_, ?_⟩
    · unfold declaredIdentifier
      rw [if_neg (group_ne_default hg), hg]
      exact htool
    · exact hsource

end Declared

/-! ### Locks -/

inductive LockVersion
  /-- Entries carry no spelling. -/
  | v3
  /-- Every entry carries the spelling it was resolved from. -/
  | v4
deriving DecidableEq, Repr

/-- The leaf digests of a tool, by the written form of their platform. -/
abbrev Platforms := Std.ExtTreeMap String Digest

structure LockedTool where
  name : String
  group : String
  repository : Repository
  /-- The spelling the entry was resolved from. -/
  declared : Option String
  /-- The leaf digests. -/
  platforms : Platforms

def LockedTool.binding (t : LockedTool) : Binding := ⟨t.group, t.name⟩

structure LockMetadata where
  lockVersion : LockVersion
  declarationHash : String

structure ProjectLock where
  metadata : LockMetadata
  tools : List LockedTool

/-- The first entry of a binding. -/
def findTool (tools : List LockedTool) (b : Binding) : Option LockedTool :=
  tools.find? fun t => t.binding = b

/-- The declaration of an entry, when it names the repository of the entry. -/
def declarationOf (config : ProjectConfig) (t : LockedTool) : Option PackageRef :=
  (declaredIdentifier config t.binding).filter fun declared =>
    Repository.ofRef declared = t.repository

def ProjectLock.isCurrent (hash : Declarations → String) (config : ProjectConfig)
    (lock : ProjectLock) : Bool :=
  lock.metadata.declarationHash = hash (declarations config) &&
    lock.tools.all fun t => (declarationOf config t).isSome

/-- Why a lock does not describe the declarations. -/
inductive LockDrift
  | declarationHash (previousHash currentHash : String)
  /-- An entry's declaration names another repository. -/
  | entry (binding : Binding) (locked : Repository) (declared : Option Repository)
deriving DecidableEq

inductive ProjectErrorKind
  /-- The lock does not describe the declarations. -/
  | lockOutOfSync (drift : LockDrift)
  /-- A binding to resolve is not declared. -/
  | toolNotInConfig (name : String)
  | emptyGroupFilter
  | unknownGroup (name : String)
  /-- The index has no such tag. -/
  | tagNotFound (identifier : PackageRef)
  /-- Two leaves have the same platform. -/
  | duplicatePlatformKey (key : String)
  /-- The written form of a platform is not the canonical one. -/
  | noncanonicalPlatformKey (key : String)
  /-- The index did not answer in time. -/
  | resolveTimeout (identifier : PackageRef)
  /-- The index failed in some other way. -/
  | indexFailed (identifier : PackageRef) (message : String)
deriving DecidableEq

end Ocx
