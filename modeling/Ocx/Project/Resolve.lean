import Ocx.Project.Platforms

/-!
# Resolving a lock

Locking resolves the declared tags to leaf digests.  A full resolve starts from nothing.  A partial
one re-resolves the bindings that were touched, or those that changed since the lock was written,
and carries every other entry forward.

Each binding is resolved by its own task.  The tasks finish in any order, and a tag may move between
two of them, so the index answers per binding.
-/

namespace Ocx

open List

/-- The index, as the tasks of one run see it. -/
structure LockIndex where
  /-- The digest of a tag, after retries. -/
  retryFetch : Binding → PackageRef → Except ProjectErrorKind Digest
  /-- The leaves of a tag with their platforms. -/
  fetchCandidates : Binding → PackageRef →
    Except ProjectErrorKind (Option (List (PackageRef × Platform)))
  /-- The order in which the tasks finish. -/
  schedule : (tasks : List (Binding × PackageRef)) → Completion tasks

/-! ### Resolving bindings -/

/-- The leaves of a tag. No leaves are a missing tag. -/
def fanOutCandidates (index : LockIndex) (b : Binding) (identifier : PackageRef) :
    Except ProjectErrorKind Platforms := do
  match ← index.fetchCandidates b identifier with
  | some (child :: children) => buildPlatformsMap (child :: children)
  | _ => .error (.tagNotFound identifier)

/-- Check that the tag is there, then find its leaves. -/
def resolveToPlatforms (index : LockIndex) (b : Binding) (identifier : PackageRef) :
    Except ProjectErrorKind Platforms := do
  let _ ← index.retryFetch b identifier
  fanOutCandidates index b identifier

def resolveOne (index : LockIndex) (w : Binding × PackageRef) :
    Except ProjectErrorKind LockedTool := do
  let platforms ← resolveToPlatforms index w.1 w.2
  .ok ⟨w.1.name, w.1.group, Repository.ofRef w.2, none, platforms⟩

/-- A binding is a follower whose source is resolved in the same run. -/
def isCopied (config : ProjectConfig) (work : List (Binding × PackageRef))
    (w : Binding × PackageRef) : Bool :=
  isFollower config w.1 && work.any fun v => v.1 = w.1.source

/-- Copy the entry of the source for a follower. -/
def copyFollower (resolved : List LockedTool) (w : Binding × PackageRef) : List LockedTool :=
  match findTool resolved w.1.source with
  | some source => resolved ++ [{ source with group := w.1.group }]
  | none => resolved

/-- Resolve bindings. A follower whose source is among them is not resolved: it takes a copy of the
entry of its source. Any failure fails the run. -/
def resolveWork (index : LockIndex) (config : ProjectConfig) (work : List (Binding × PackageRef)) :
    Except ProjectErrorKind (List LockedTool) := do
  let followers := work.filter (isCopied config work)
  let own := work.filter fun w => !isCopied config work w
  let resolved ← (index.schedule own).order.mapM (resolveOne index)
  .ok (followers.foldl copyFollower resolved)

/-! ### What moves together -/

/-- The predecessor's entry of a binding records another spelling. -/
def respelled (previous : List LockedTool) (b : Binding) (identifier : PackageRef) : Bool :=
  match (findTool previous b).bind LockedTool.declared with
  | some declared => declared ≠ identifier.toString
  | none => false

/-- The source of a name with its followers. -/
def family (config : ProjectConfig) (name : String) : List Binding :=
  (if name ∈ config.tools then [⟨defaultGroup, name⟩] else []) ++
    (config.groups.toList.filter fun g => g.2.inherited.contains name).map fun g => ⟨g.1, name⟩

/-- The touched bindings with those that must move with them: the bindings with another spelling,
and then sources and followers with each other. -/
def expandTouched (config : ProjectConfig) (previous : Option ProjectLock)
    (touched : List Binding) : List Binding :=
  let moved := match previous with
    | some previous => ((collectWork config none).filter fun w =>
        respelled previous.tools w.1 w.2).map Prod.fst
    | none => []
  let set : Std.ExtTreeSet Binding := Std.ExtTreeSet.ofList (touched ++ moved)
  let shared := (set.toList.filter fun b => b.group = defaultGroup || isFollower config b).map
    Binding.name
  (Std.ExtTreeSet.ofList (set.toList ++ shared.flatMap (family config)) :
    Std.ExtTreeSet Binding).toList

/-! ### Assembling a lock -/

/-- Entries in the order of their bindings. -/
def sortTools (tools : List LockedTool) : List LockedTool :=
  tools.insertionSort fun a b => a.binding ≤ b.binding

/-- Carry forward the entries that were not resolved again and are still declared. -/
def mergeCarryForward (previous resolved : List LockedTool) (config : ProjectConfig) :
    List LockedTool :=
  sortTools ((previous.filter fun t => !(resolved.any fun r => r.binding = t.binding) &&
    (declaredIdentifier config t.binding).isSome) ++ resolved)

/-- Record the spelling of an entry. -/
def recordDeclared (config : ProjectConfig) (t : LockedTool) : LockedTool :=
  { t with declared := (declaredIdentifier config t.binding).map PackageRef.toString }

/-- The lock of resolved and carried entries. -/
def buildLock (hash : Declarations → String) (tools : List LockedTool) (config : ProjectConfig) :
    ProjectLock :=
  ⟨⟨.v4, hash (declarations config)⟩, tools.map (recordDeclared config)⟩

/-! ### A full resolve -/

/-- Take one name of a list of groups into account. -/
def normalizeGroup (config : ProjectConfig) (out : List String) (raw : String) :
    Except ProjectErrorKind (List String) :=
  if raw = "" then .error .emptyGroupFilter
  else if raw = defaultGroup then .ok (if raw ∈ out then out else out ++ [raw])
  else if raw ∉ config.groups then .error (.unknownGroup raw)
  else .ok (if raw ∈ out then out else out ++ [raw])

/-- The groups to resolve; none named selects all. -/
def normalizeGroups (config : ProjectConfig) (groups : List String) :
    Except ProjectErrorKind (Option (List String)) :=
  if groups = [] then .ok none else some <$> groups.foldlM (normalizeGroup config) []

def resolveLock (hash : Declarations → String) (index : LockIndex) (config : ProjectConfig)
    (groups : List String) : Except ProjectErrorKind ProjectLock := do
  let selected ← normalizeGroups config groups
  let resolved ← resolveWork index config (collectWork config selected)
  .ok (buildLock hash (sortTools resolved) config)

/-! ### A resolve of touched bindings -/

/-- Collect the entries that are carried, refusing two of one binding. -/
def carryEntry (stale : ProjectErrorKind) (touched : List Binding)
    (carried : Std.ExtTreeMap Binding LockedTool) (t : LockedTool) :
    Except ProjectErrorKind (Std.ExtTreeMap Binding LockedTool) :=
  if t.binding ∈ touched then .ok carried
  else if t.binding ∈ carried then .error stale
  else .ok (carried.insert t.binding t)

/-- A declared binding is touched, or carried with the repository it is declared with. -/
def checkCarried (stale : ProjectErrorKind) (touched : List Binding)
    (carried : Std.ExtTreeMap Binding LockedTool) (w : Binding × PackageRef) :
    Except ProjectErrorKind Unit :=
  if w.1 ∈ touched then .ok ()
  else match carried[w.1]? with
    | none => .error stale
    | some t =>
      if t.repository ≠ Repository.ofRef w.2 then
        .error (.lockOutOfSync (.entry w.1 t.repository (some (Repository.ofRef w.2))))
      else .ok ()

/-- Every declared binding is touched, or carried exactly once. -/
def validatePredecessorCoherence (hash : Declarations → String) (candidate : ProjectConfig)
    (previous : ProjectLock) (touched : List Binding) : Except ProjectErrorKind Unit := do
  let stale := ProjectErrorKind.lockOutOfSync
    (.declarationHash previous.metadata.declarationHash (hash (declarations candidate)))
  let carried ← previous.tools.foldlM (carryEntry stale touched) ∅
  (collectWork candidate none).forM (checkCarried stale touched carried)

def touchedWork (candidate : ProjectConfig) (b : Binding) :
    Except ProjectErrorKind (Binding × PackageRef) :=
  match declaredIdentifier candidate b with
  | some identifier => .ok (b, identifier)
  | none => .error (.toolNotInConfig b.name)

/-- Resolve the touched bindings again, and carry the others forward. The predecessor must be the
lock of the declarations before the change. -/
def resolveLockTouched (hash : Declarations → String) (index : LockIndex)
    (candidate preMutation : ProjectConfig) (previous : ProjectLock) (touched : List Binding) :
    Except ProjectErrorKind ProjectLock := do
  if previous.metadata.declarationHash ≠ hash (declarations preMutation) then
    .error (.lockOutOfSync (.declarationHash previous.metadata.declarationHash
      (hash (declarations preMutation))))
  else do
    let touched := expandTouched candidate (some previous) touched
    validatePredecessorCoherence hash candidate previous touched
    let work ← touched.mapM (touchedWork candidate)
    let resolved ← resolveWork index candidate work
    .ok (buildLock hash (mergeCarryForward previous.tools resolved candidate) candidate)

/-! ### Reconciling a lock -/

/-- The entries of a predecessor. -/
def carriedTools (previous : Option ProjectLock) : List LockedTool :=
  match previous with
  | some previous => previous.tools
  | none => []

/-- A predecessor of the old format that does not describe the declarations. -/
def v3Drifted (hash : Declarations → String) (config : ProjectConfig)
    (previous : Option ProjectLock) : Bool :=
  match previous with
  | some previous => previous.metadata.lockVersion = .v3 && !previous.isCurrent hash config
  | none => false

/-- A binding changed since the predecessor was written: it has no entry, or one of another
repository or another spelling. -/
def changed (hash : Declarations → String) (config : ProjectConfig)
    (previous : Option ProjectLock) (b : Binding) (identifier : PackageRef) : Bool :=
  match findTool (carriedTools previous) b with
  | none => true
  | some t =>
    v3Drifted hash config previous || t.repository ≠ Repository.ofRef identifier ||
      respelled (carriedTools previous) b identifier

def reconcileSeed (hash : Declarations → String) (config : ProjectConfig)
    (previous : Option ProjectLock) (forced : List Binding) : List Binding :=
  ((collectWork config none).filter fun w =>
    forced.contains w.1 || changed hash config previous w.1 w.2).map Prod.fst

/-- A follower that only changed adopts the entry of a source that stays. -/
def isAdopting (config : ProjectConfig) (previous : Option ProjectLock) (forced : List Binding)
    (seed : List Binding) (b : Binding) : Bool :=
  isFollower config b && !forced.contains b && !seed.contains b.source &&
    (carriedTools previous).any fun t => t.binding = b.source

/-- Copy the carried entry of the source for a follower. -/
def adoptEntry (carried : List LockedTool) (b : Binding) : Option LockedTool :=
  (findTool carried b.source).map fun source => { source with group := b.group }

/-- The followers that adopt the entry of their source. -/
def reconcileAdopting (hash : Declarations → String) (config : ProjectConfig)
    (previous : Option ProjectLock) (forced : List Binding) : List Binding :=
  let seed := reconcileSeed hash config previous forced
  seed.filter (isAdopting config previous forced seed)

/-- The bindings to resolve again: a source takes its followers with it, and a forced follower its
source. -/
def reconcileWork (hash : Declarations → String) (config : ProjectConfig)
    (previous : Option ProjectLock) (forced : List Binding) : List (Binding × PackageRef) :=
  let seed := reconcileSeed hash config previous forced
  let moving := expandTouched config previous
    (seed.filter fun b => !isAdopting config previous forced seed b)
  (collectWork config none).filter fun w => moving.contains w.1

/-- Reconcile a lock with the declarations: re-resolve what was forced or changed, and carry the
rest forward. Returns the lock and the bindings that were re-resolved. -/
def resolveLockReconcile (hash : Declarations → String) (index : LockIndex)
    (config : ProjectConfig) (previous : Option ProjectLock) (forced : List Binding) :
    Except ProjectErrorKind (ProjectLock × List Binding) := do
  let adopting := reconcileAdopting hash config previous forced
  let work := reconcileWork hash config previous forced
  let resolved ← resolveWork index config work
  let adopted := adopting.filterMap (adoptEntry (carriedTools previous))
  .ok (buildLock hash (mergeCarryForward (carriedTools previous) (resolved ++ adopted) config)
    config, work.map Prod.fst ++ adopting)

open LockedTool

/-! ### Entries of a resolve -/

section Entries

variable {config : ProjectConfig} {index : LockIndex} {work : List (Binding × PackageRef)}
  {tools resolved : List LockedTool} {b : Binding} {t s : LockedTool}

theorem findTool_eq_some (h : findTool tools b = some t) : t ∈ tools ∧ t.binding = b := by
  have hmem := find?_some h
  exact ⟨mem_of_find?_eq_some h, by simpa using hmem⟩

theorem isSome_findTool_iff : (findTool tools b).isSome ↔ b ∈ tools.map binding := by
  unfold findTool
  simp

theorem findTool_of_mem (hnodup : (tools.map binding).Nodup) (ht : t ∈ tools) :
    findTool tools t.binding = some t := by
  obtain ⟨u, hu⟩ := Option.isSome_iff_exists.1
    (isSome_findTool_iff.2 (mem_map_of_mem (f := binding) ht))
  obtain ⟨humem, hub⟩ := findTool_eq_some hu
  rw [hu, inj_on_of_nodup_map hnodup humem ht hub]

theorem adoptEntry_eq_some (h : adoptEntry tools b = some t) :
    t.binding = b ∧ ∃ s, findTool tools b.source = some s ∧ t.repository = s.repository ∧
      t.platforms = s.platforms := by
  obtain ⟨s, hs, rfl⟩ := Option.map_eq_some_iff.1 h
  have hname : s.name = b.name := congrArg Binding.name (findTool_eq_some hs).2
  refine ⟨?_, s, hs, rfl, rfl⟩
  unfold binding
  rw [hname]

theorem isSome_adoptEntry : (adoptEntry tools b).isSome = (findTool tools b.source).isSome := by
  unfold adoptEntry
  rw [Option.isSome_map]

theorem map_binding_filterMap_adoptEntry {followers : List Binding}
    (h : ∀ b ∈ followers, (findTool tools b.source).isSome) :
    (followers.filterMap (adoptEntry tools)).map binding = followers := by
  induction followers with
  | nil => rfl
  | cons b followers ih =>
    rw [forall_mem_cons] at h
    obtain ⟨t, ht⟩ := Option.isSome_iff_exists.1 (isSome_adoptEntry.trans h.1)
    rw [filterMap_cons_some ht, map_cons, ih h.2, (adoptEntry_eq_some ht).1]

theorem foldl_copyFollower {followers : List (Binding × PackageRef)}
    (h : ∀ w ∈ followers, (findTool resolved w.1.source).isSome) (extra : List LockedTool) :
    followers.foldl copyFollower (resolved ++ extra) =
      resolved ++ extra ++ (followers.map Prod.fst).filterMap (adoptEntry resolved) := by
  induction followers generalizing extra with
  | nil => simp
  | cons w followers ih =>
    rw [forall_mem_cons] at h
    obtain ⟨source, hsource⟩ := Option.isSome_iff_exists.1 h.1
    have hfind : findTool (resolved ++ extra) w.1.source = some source := by
      unfold findTool at hsource ⊢
      rw [find?_append, hsource]
      rfl
    have hadopt : adoptEntry resolved w.1 = some { source with group := w.1.group } := by
      unfold adoptEntry
      rw [hsource]
      rfl
    have hcopy : copyFollower (resolved ++ extra) w =
        resolved ++ (extra ++ [{ source with group := w.1.group }]) := by
      unfold copyFollower
      rw [hfind, ← append_assoc]
    rw [foldl_cons, map_cons, filterMap_cons_some hadopt, hcopy, ih h.2]
    simp

theorem resolveOne_eq_ok {w : Binding × PackageRef} (h : resolveOne index w = .ok t) :
    t.binding = w.1 ∧ t.repository = Repository.ofRef w.2 ∧
      resolveToPlatforms index w.1 w.2 = .ok t.platforms := by
  obtain ⟨platforms, hplatforms, h⟩ := bind_eq_ok_iff.1 h
  cases h
  exact ⟨rfl, rfl, hplatforms⟩

theorem source_of_isCopied {w : Binding × PackageRef} (h : isCopied config work w = true) :
    isFollower config w.1 = true ∧
      ∃ v ∈ work, v.1 = w.1.source ∧ isCopied config work v = false := by
  unfold isCopied at h
  rw [Bool.and_eq_true, any_eq_true] at h
  obtain ⟨hfollower, v, hv, heq⟩ := h
  have hsource : v.1 = w.1.source := by simpa using heq
  refine ⟨hfollower, v, hv, hsource, ?_⟩
  unfold isCopied
  rw [hsource, isFollower_source]
  rfl

theorem resolveWork_eq_ok (h : resolveWork index config work = .ok resolved) :
    ∃ own, List.Forall₂ (fun w t => resolveOne index w = .ok t)
        (index.schedule (work.filter fun w => !isCopied config work w)).order own ∧
      (∀ w ∈ work, isCopied config work w = true → (findTool own w.1.source).isSome) ∧
      resolved = own ++
        ((work.filter (isCopied config work)).map Prod.fst).filterMap (adoptEntry own) := by
  obtain ⟨own, hown, h⟩ := bind_eq_ok_iff.1 h
  cases h
  have htasks := forall₂_of_mapM_eq_ok hown
  have hsources : ∀ w ∈ work, isCopied config work w = true →
      (findTool own w.1.source).isSome := by
    intro w _ hcopied
    obtain ⟨-, v, hv, hsource, hvown⟩ := source_of_isCopied hcopied
    have hbindings := map_eq_of_forall₂ (htasks.imp fun _ _ h => (resolveOne_eq_ok h).1)
    rw [isSome_findTool_iff, hbindings, ← hsource]
    refine mem_map_of_mem (f := Prod.fst) ?_
    rw [(index.schedule _).perm.mem_iff]
    exact mem_filter.2 ⟨hv, by simp [hvown]⟩
  refine ⟨own, htasks, hsources, ?_⟩
  have hcopied :=  fun w hw => hsources w (mem_filter.1 hw).1 (mem_filter.1 hw).2
  simpa using foldl_copyFollower hcopied []

end Entries

structure Resolves (index : LockIndex) (config : ProjectConfig)
    (work : List (Binding × PackageRef)) (resolved : List LockedTool) : Prop where
  bindings : (resolved.map LockedTool.binding).Perm (work.map Prod.fst)
  /-- An entry has the repository its binding is declared with. -/
  repository : ∀ t ∈ resolved, ∃ identifier,
    declaredIdentifier config t.binding = some identifier ∧
      t.repository = Repository.ofRef identifier
  shares : ∀ t ∈ resolved, isFollower config t.binding = true → ∀ s ∈ resolved,
    s.binding = t.binding.source → t.platforms = s.platforms
  /-- The leaves of other bindings are those the index answered. -/
  answered : ∀ t ∈ resolved, isFollower config t.binding = false → ∃ identifier,
    declaredIdentifier config t.binding = some identifier ∧
      resolveToPlatforms index t.binding identifier = .ok t.platforms

section Resolves

variable {config : ProjectConfig} {index : LockIndex} {work : List (Binding × PackageRef)}
  {resolved : List LockedTool}

theorem follower_of_mem_copies {own : List LockedTool} {t : LockedTool}
    (ht : t ∈ ((work.filter (isCopied config work)).map Prod.fst).filterMap (adoptEntry own)) :
    isFollower config t.binding = true ∧ ∃ s, findTool own t.binding.source = some s ∧
      t.repository = s.repository ∧ t.platforms = s.platforms := by
  obtain ⟨b, hb, hadopt⟩ := mem_filterMap.1 ht
  obtain ⟨rfl, hentry⟩ := adoptEntry_eq_some hadopt
  obtain ⟨w, hw, hwb⟩ := mem_map.1 hb
  refine ⟨?_, hentry⟩
  rw [← hwb]
  exact (source_of_isCopied (mem_filter.1 hw).2).1

theorem resolveWork_spec (hnodup : (work.map Prod.fst).Nodup)
    (hdeclared : ∀ w ∈ work, declaredIdentifier config w.1 = some w.2)
    (h : resolveWork index config work = .ok resolved) : Resolves index config work resolved := by
  obtain ⟨own, htasks, hsources, rfl⟩ := resolveWork_eq_ok h
  set tasks := work.filter fun w => !isCopied config work w with htasksDef
  set copied := (work.filter (isCopied config work)).map Prod.fst with hcopiedDef
  have hperm := (index.schedule tasks).perm
  have hownBindings : own.map binding = (index.schedule tasks).order.map Prod.fst :=
    map_eq_of_forall₂ (htasks.imp fun _ _ h => (resolveOne_eq_ok h).1)
  have hcopiedBindings : (copied.filterMap (adoptEntry own)).map binding = copied := by
    refine map_binding_filterMap_adoptEntry fun b hb => ?_
    obtain ⟨w, hw, rfl⟩ := mem_map.1 hb
    exact hsources w (mem_filter.1 hw).1 (mem_filter.1 hw).2
  have hbindings : ((own ++ copied.filterMap (adoptEntry own)).map binding).Perm
      (work.map Prod.fst) := by
    rw [map_append, hownBindings, hcopiedBindings, hcopiedDef]
    refine ((hperm.map Prod.fst).append_right _).trans ?_
    rw [← map_append]
    refine List.Perm.map Prod.fst ?_
    exact perm_append_comm.trans (filter_append_perm (isCopied config work) work)
  -- an entry of a task is the answer to a binding that is not copied
  have hown : ∀ t ∈ own, ∃ w ∈ work, isCopied config work w = false ∧
      resolveOne index w = .ok t := by
    intro t ht
    obtain ⟨w, hw, hwt⟩ := exists_of_forall₂ htasks ht
    rw [hperm.mem_iff, mem_filter] at hw
    exact ⟨w, hw.1, by simpa using hw.2, hwt⟩
  have hnodupAll := hbindings.nodup_iff.2 hnodup
  have hnodupOwn : (own.map binding).Nodup := by
    rw [map_append] at hnodupAll
    exact hnodupAll.of_append_left
  have hownSpec : ∀ t ∈ own, ∃ identifier, declaredIdentifier config t.binding = some identifier ∧
      t.repository = Repository.ofRef identifier ∧
      resolveToPlatforms index t.binding identifier = .ok t.platforms := by
    intro t ht
    obtain ⟨w, hw, -, hwt⟩ := hown t ht
    obtain ⟨hbinding, hrepository, hplatforms⟩ := resolveOne_eq_ok hwt
    rw [hbinding]
    exact ⟨w.2, hdeclared w hw, hrepository, hplatforms⟩
  refine ⟨hbindings, ?_, ?_, ?_⟩
  · intro t ht
    rcases mem_append.1 ht with ht | ht
    · obtain ⟨identifier, hid, hrepository, -⟩ := hownSpec t ht
      exact ⟨identifier, hid, hrepository⟩
    · obtain ⟨hfollower, s, hs, hrepository, -⟩ := follower_of_mem_copies ht
      obtain ⟨identifier, hid, hsource⟩ := declared_of_isFollower hfollower
      obtain ⟨hsmem, hsbinding⟩ := findTool_eq_some hs
      obtain ⟨identifier', hid', hrepository', -⟩ := hownSpec s hsmem
      rw [hsbinding, hsource] at hid'
      exact ⟨identifier, hid, by rw [hrepository, hrepository', Option.some.inj hid']⟩
  · intro t ht hfollower s hs hsource
    -- the source is not a follower, so its entry is the answer of a task
    have hsown : s ∈ own := by
      rcases mem_append.1 hs with hs | hs
      · exact hs
      · have hcopy := (follower_of_mem_copies hs).1
        rw [hsource, isFollower_source] at hcopy
        exact absurd hcopy (by decide)
    rcases mem_append.1 ht with ht | ht
    · -- a follower whose source is resolved too is not a task of its own
      obtain ⟨w, hw, hnot, hwt⟩ := hown t ht
      obtain ⟨v, hv, -, hvs⟩ := hown s hsown
      refine absurd ?_ (Bool.eq_false_iff.1 hnot)
      unfold isCopied
      rw [Bool.and_eq_true, any_eq_true]
      rw [(resolveOne_eq_ok hwt).1] at hfollower hsource
      refine ⟨hfollower, v, hv, ?_⟩
      rw [← (resolveOne_eq_ok hvs).1, hsource]
      simp
    · obtain ⟨-, s', hs', -, hplatforms⟩ := follower_of_mem_copies ht
      rw [← hsource, findTool_of_mem hnodupOwn hsown] at hs'
      rw [hplatforms, Option.some.inj hs']
  · intro t ht hfollower
    rcases mem_append.1 ht with ht | ht
    · obtain ⟨identifier, hid, -, hplatforms⟩ := hownSpec t ht
      exact ⟨identifier, hid, hplatforms⟩
    · have hcopy := (follower_of_mem_copies ht).1
      rw [hfollower] at hcopy
      exact absurd hcopy (by decide)

end Resolves

/-! ### The bindings that move -/

section Expand

variable {config : ProjectConfig} {previous : Option ProjectLock} {touched : List Binding}
  {b : Binding} {name : String}

/-- A binding is touched, or declared with another spelling than its entry records. -/
def Stirred (config : ProjectConfig) (previous : Option ProjectLock) (touched : List Binding)
    (b : Binding) : Prop :=
  b ∈ touched ∨ ∃ identifier, declaredIdentifier config b = some identifier ∧
    respelled (carriedTools previous) b identifier = true

theorem mem_family :
    b ∈ family config name ↔
      b.name = name ∧
        (b.group = defaultGroup ∧ name ∈ config.tools ∨ isFollower config b = true) := by
  have hfollowers : b ∈ ((config.groups.toList.filter fun g => g.2.inherited.contains name).map
      fun g => (⟨g.1, name⟩ : Binding)) ↔ b.name = name ∧ isFollower config b = true := by
    rw [mem_map]
    constructor
    · rintro ⟨⟨g, body⟩, hg, rfl⟩
      obtain ⟨hg, hname⟩ := mem_filter.1 hg
      refine ⟨rfl, ?_⟩
      unfold isFollower
      rw [Std.ExtTreeMap.mem_toList_iff_getElem?_eq_some.1 hg]
      exact hname
    · rintro ⟨rfl, hfollower⟩
      unfold isFollower at hfollower
      cases hg : config.groups[b.group]? with
      | none => simp [hg] at hfollower
      | some body =>
        rw [hg] at hfollower
        exact ⟨(b.group, body), mem_filter.2
          ⟨Std.ExtTreeMap.mem_toList_iff_getElem?_eq_some.2 hg, hfollower⟩, rfl⟩
  have hsource : b ∈ (if name ∈ config.tools then [(⟨defaultGroup, name⟩ : Binding)] else []) ↔
      b.name = name ∧ b.group = defaultGroup ∧ name ∈ config.tools := by
    split_ifs with hmem
    · rw [mem_singleton, Binding.ext_iff]
      exact ⟨fun h => ⟨h.2, h.1, hmem⟩, fun h => ⟨h.2.1, h.1⟩⟩
    · simp [hmem]
  unfold family
  rw [mem_append, hsource, hfollowers, ← and_or_left]

theorem mem_expandTouched :
    b ∈ expandTouched config previous touched ↔ Stirred config previous touched b ∨
      ∃ b', Stirred config previous touched b' ∧
        (b'.group = defaultGroup ∨ isFollower config b' = true) ∧ b ∈ family config b'.name := by
  have hmoved : ∀ b, b ∈ touched ++ (match previous with
      | some previous => ((collectWork config none).filter fun w =>
          respelled previous.tools w.1 w.2).map Prod.fst
      | none => []) ↔ Stirred config previous touched b := by
    intro b
    rw [mem_append]
    refine or_congr_right ?_
    cases previous with
    | none =>
      refine iff_of_false (by simp) ?_
      rintro ⟨identifier, -, h⟩
      exact absurd h (by simp [respelled, carriedTools, findTool])
    | some previous =>
      simp only [mem_map, mem_filter, Prod.exists, exists_and_right, exists_eq_right,
        mem_collectWork_none]
      rfl
  unfold expandTouched
  simp only [Std.ExtTreeSet.mem_toList, Std.ExtTreeSet.mem_ofList, contains_iff_mem,
    mem_append, mem_flatMap, mem_map, mem_filter] at hmoved ⊢
  simp only [hmoved, Bool.or_eq_true, decide_eq_true_eq]
  refine or_congr_right ⟨?_, ?_⟩
  · rintro ⟨_, ⟨b', ⟨hstirred, hshared⟩, rfl⟩, hfamily⟩
    exact ⟨b', hstirred, hshared, hfamily⟩
  · rintro ⟨b', hstirred, hshared, hfamily⟩
    exact ⟨b'.name, ⟨b', ⟨hstirred, hshared⟩, rfl⟩, hfamily⟩

theorem source_mem_family (hb : b ∈ family config name) : b.source ∈ family config name := by
  obtain ⟨rfl, hkin⟩ := mem_family.1 hb
  refine mem_family.2 ⟨rfl, .inl ⟨rfl, ?_⟩⟩
  rcases hkin with ⟨-, hmem⟩ | hfollower
  · exact hmem
  · obtain ⟨identifier, -, hsource⟩ := declared_of_isFollower hfollower
    rw [Std.ExtTreeMap.mem_iff_isSome_getElem?]
    have htool : config.tools[b.name]? = some identifier := hsource
    simp [htool]

theorem mem_expandTouched_of_mem_family (hb : b ∈ family config name) :
    b ∈ expandTouched config previous touched ↔
      ∃ b' ∈ family config name, Stirred config previous touched b' := by
  rw [mem_expandTouched]
  constructor
  · rintro (hstirred | ⟨b', hstirred, hshared, hb'⟩)
    · exact ⟨b, hb, hstirred⟩
    · have hname : b'.name = name := (mem_family.1 hb').1.symm.trans (mem_family.1 hb).1
      subst hname
      refine ⟨b', mem_family.2 ⟨rfl, ?_⟩, hstirred⟩
      rcases hshared with hdefault | hfollower
      · have hsource := (mem_family.1 (source_mem_family hb)).2
        simp only [isFollower_source, Bool.false_eq_true, or_false] at hsource
        exact .inl ⟨hdefault, hsource.2⟩
      · exact .inr hfollower
  · rintro ⟨b', hb', hstirred⟩
    obtain ⟨rfl, hkin⟩ := mem_family.1 hb'
    exact .inr ⟨b', hstirred, hkin.imp_left And.left, hb⟩

end Expand

/-! ### Merging -/

section Merge

variable {config : ProjectConfig} {previous resolved tools : List LockedTool} {b : Binding}
  {t : LockedTool}

theorem perm_sortTools (tools : List LockedTool) : (sortTools tools).Perm tools :=
  perm_insertionSort _ tools

theorem mem_mergeCarryForward :
    t ∈ mergeCarryForward previous resolved config ↔
      (t ∈ previous ∧ t.binding ∉ resolved.map binding ∧
        (declaredIdentifier config t.binding).isSome) ∨ t ∈ resolved := by
  unfold mergeCarryForward
  rw [(perm_sortTools _).mem_iff, mem_append, mem_filter, Bool.and_eq_true,
    Bool.not_eq_true', any_eq_false]
  simp

theorem nodup_mergeCarryForward_iff
    (hcarried : ((previous.filter fun t => t.binding ∉ resolved.map binding).map
      binding).Nodup) :
    ((mergeCarryForward previous resolved config).map binding).Nodup ↔
      (resolved.map binding).Nodup := by
  unfold mergeCarryForward
  rw [((perm_sortTools _).map binding).nodup_iff, map_append, nodup_append]
  constructor
  · exact fun h => h.2.1
  · intro hnodup
    have hnew : ∀ t : LockedTool, (!(resolved.any fun r => r.binding = t.binding) &&
        (declaredIdentifier config t.binding).isSome) = true →
        t.binding ∉ resolved.map binding := by
      intro t ht hmem
      obtain ⟨r, hr, hrt⟩ := mem_map.1 hmem
      rw [Bool.and_eq_true, Bool.not_eq_true', any_eq_false] at ht
      exact ht.1 r hr (by simpa using hrt)
    refine ⟨hcarried.sublist (List.Sublist.map _ (monotone_filter_right _ fun t ht => ?_)),
      hnodup, ?_⟩
    · exact decide_eq_true (hnew t ht)
    · intro b hb b' hb' heq
      obtain ⟨t, ht, rfl⟩ := mem_map.1 hb
      exact hnew t (mem_filter.1 ht).2 (heq ▸ hb')

theorem binding_recordDeclared (config : ProjectConfig) (t : LockedTool) :
    (recordDeclared config t).binding = t.binding := rfl

theorem map_binding_buildLock (hash : Declarations → String) (tools : List LockedTool) :
    (buildLock hash tools config).tools.map binding = tools.map binding := by
  unfold buildLock
  rw [map_map]
  rfl

end Merge

/-! ### Resolving touched bindings -/

theorem nodup_expandTouched (config : ProjectConfig) (previous : Option ProjectLock)
    (touched : List Binding) : (expandTouched config previous touched).Nodup :=
  (pairwise_lt_toList _).imp ne_of_lt

section Touched

variable {hash : Declarations → String} {index : LockIndex}
  {candidate preMutation : ProjectConfig} {previous lock : ProjectLock}
  {touched : List Binding} {b : Binding}

theorem mem_of_carryEntry {stale : ProjectErrorKind} {tools : List LockedTool}
    {carried carried' : Std.ExtTreeMap Binding LockedTool}
    (h : tools.foldlM (carryEntry stale touched) carried = .ok carried') {t : LockedTool}
    (ht : carried'[b]? = some t) : carried[b]? = some t ∨ t ∈ tools ∧ t.binding = b := by
  induction tools generalizing carried with
  | nil =>
    cases h
    exact .inl ht
  | cons u tools ih =>
    obtain ⟨carried₁, hu, h⟩ := bind_eq_ok_iff.1 h
    rcases ih h with hc | ⟨hmem, hb⟩
    · unfold carryEntry at hu
      split_ifs at hu with h₁ h₂
      · cases hu
        exact .inl hc
      · cases hu
        rw [getElem?_insert_eq] at hc
        split_ifs at hc with heq
        · cases hc
          exact .inr ⟨mem_cons_self, heq⟩
        · exact .inl hc
    · exact .inr ⟨mem_cons_of_mem _ hmem, hb⟩

/-- A coherent predecessor has an entry of the declared repository for every binding that is not
touched. -/
theorem entry_of_coherence
    (h : validatePredecessorCoherence hash candidate previous touched = .ok ())
    {identifier : PackageRef} (hdeclared : declaredIdentifier candidate b = some identifier)
    (hb : b ∉ touched) :
    ∃ t ∈ previous.tools, t.binding = b ∧ t.repository = Repository.ofRef identifier := by
  obtain ⟨carried, hcarried, h⟩ := bind_eq_ok_iff.1 h
  have hcheck := forM_eq_ok_iff.1 h _ (mem_collectWork_none.2 hdeclared)
  unfold checkCarried at hcheck
  rw [if_neg hb] at hcheck
  cases ht : carried[b]? with
  | none => simp [ht] at hcheck
  | some t =>
    simp only [ht] at hcheck
    split_ifs at hcheck with hrepository
    rcases mem_of_carryEntry hcarried ht with hempty | ⟨hmem, hbinding⟩
    · simp at hempty
    · exact ⟨t, hmem, hbinding, not_not.1 hrepository⟩

theorem touched_eq_ok
    (hrun : resolveLockTouched hash index candidate preMutation previous touched = .ok lock) :
    ∃ work resolved, Resolves index candidate work resolved ∧
      (resolved.map LockedTool.binding).Perm (expandTouched candidate (some previous) touched) ∧
      validatePredecessorCoherence hash candidate previous
        (expandTouched candidate (some previous) touched) = .ok () ∧
      lock = buildLock hash (mergeCarryForward previous.tools resolved candidate) candidate := by
  unfold resolveLockTouched at hrun
  split_ifs at hrun
  obtain ⟨⟨⟩, hvalid, hrun⟩ := bind_eq_ok_iff.1 hrun
  obtain ⟨work, hwork, hrun⟩ := bind_eq_ok_iff.1 hrun
  obtain ⟨resolved, hresolved, hrun⟩ := bind_eq_ok_iff.1 hrun
  cases hrun
  have htasks := forall₂_of_mapM_eq_ok hwork
  have hspec : ∀ {b : Binding} {w : Binding × PackageRef},
      touchedWork candidate b = .ok w →
        w.1 = b ∧ declaredIdentifier candidate b = some w.2 := by
    intro b w h
    unfold touchedWork at h
    split at h
    · rename_i identifier hdeclared
      cases h
      exact ⟨rfl, hdeclared⟩
    · simp at h
  have hbindings : work.map Prod.fst =
      (expandTouched candidate (some previous) touched).map id :=
    map_eq_of_forall₂ (htasks.imp fun _ _ h => (hspec h).1)
  rw [map_id] at hbindings
  have hdeclared : ∀ w ∈ work, declaredIdentifier candidate w.1 = some w.2 := by
    intro w hw
    obtain ⟨b, -, hb⟩ := exists_of_forall₂ htasks hw
    rw [(hspec hb).1]
    exact (hspec hb).2
  have hspec := resolveWork_spec (hbindings ▸ nodup_expandTouched _ _ _) hdeclared hresolved
  exact ⟨work, resolved, hspec, hbindings ▸ hspec.bindings, hvalid, rfl⟩

end Touched

end Ocx
