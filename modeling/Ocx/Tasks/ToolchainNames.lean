import Ocx.Patch.Overlay
import Ocx.Util.Buckets
import Ocx.Util.Visits

/-!
# Who owns an exposed name

The tools of a toolchain and their admitted dependencies expose names: the binaries they claim and
their entry points.  The closures are walked one after the other; the last node that claims a name
owns it, and the owner remembers whom it shadows.  On a file system that ignores case the names that
differ only in case are folded into one.
-/

namespace Ocx

open List

/-! ### Names -/

/-- Why a text is not the name of a binary. -/
inductive BinaryError
  | empty
  | tooLong (name : String)
  | whitespace (name : String)
  | invalidCharacter (name : String)
  | leadingDash (name : String)
  | leadingOrTrailingDot (name : String)
  | reservedWindowsDeviceName (name reserved : String)
deriving DecidableEq

/-- The characters Windows reserves in file names. -/
def forbiddenChars : List Char := ['/', '\\', '<', '>', ':', '\x22', '|', '?', '*']

/-- The names of devices on Windows. -/
def reservedDeviceNames : List String :=
  ["CON", "PRN", "AUX", "NUL", "COM0", "COM1", "COM2", "COM3", "COM4", "COM5", "COM6", "COM7",
    "COM8", "COM9", "LPT0", "LPT1", "LPT2", "LPT3", "LPT4", "LPT5", "LPT6", "LPT7", "LPT8", "LPT9"]

/-- The name of a binary. -/
def binaryName (value : String) : Except BinaryError String :=
  let chars := value.toList
  let reserved := (String.ofList (chars.takeWhile (· ≠ '.'))).toUpper
  if chars = [] then throw .empty
  else if value.utf8ByteSize > slugMaxLen then throw (.tooLong value)
  else if chars.any isWhiteSpace then throw (.whitespace value)
  else if chars.any fun c => c ∈ forbiddenChars || !(0x21 ≤ c.toNat && c.toNat ≤ 0x7E) then
    throw (.invalidCharacter value)
  else if chars.head? = some '-' then throw (.leadingDash value)
  else if chars.head? = some '.' ∨ chars.getLast? = some '.' then
    throw (.leadingOrTrailingDot value)
  else if reserved ∈ reservedDeviceNames then throw (.reservedWindowsDeviceName value reserved)
  else pure value

theorem binaryName_eq_ok {value name : String} (h : binaryName value = .ok name) :
    name = value := by
  unfold binaryName at h
  simp only at h
  split_ifs at h
  cases h
  rfl

/-! ### The walk -/

/-- What becomes of a node that claims neither binaries nor entry points. -/
inductive NotEnumerablePolicy
  | refuse
  | skip

/-- Why there is no set of names. -/
inductive NameError
  | shimNamesNotEnumerable (package : PinnedPackageRef)
  | shimNameInvalid (error : BinaryError)
deriving DecidableEq

structure NameOwner where
  /-- The tool that claimed it last. -/
  tool : PinnedPackageRef
  /-- The tool is the root of its closure. -/
  isRoot : Bool
  /-- The other tools that claimed it, in the order of their last claims. -/
  shadowed : List PinnedPackageRef
  /-- The position of the last claim in the walk. -/
  walkIndex : ℕ
deriving DecidableEq

abbrev NameMap := Std.ExtTreeMap String NameOwner

def admittedOnSurface (node : ClosureNode) (selfView : Bool) : Bool :=
  node.isRoot || node.effectiveVisibility.any fun effective =>
    onAxes effective (surfaceAxes selfView)

/-- The names a node claims on the interface, each once. -/
def claimedNames (node : ClosureNode) : Except BinaryError (List String) := do
  let binaries :=
    if carrierCrossesOn .public node.isRoot (surfaceAxes false) then node.binaries.getD [] else []
  let entrypoints ←
    if carrierCrossesOn .interface node.isRoot (surfaceAxes false) then
      node.entrypoints.mapM binaryName
    else pure []
  -- the order does not matter: claims on different names are recorded apart
  pure (binaries ++ entrypoints).dedup

/-- The owner of a name after one more claim. -/
def claimName (owner : Option NameOwner) (node : ClosureNode) (walkIndex : ℕ) : NameOwner :=
  match owner with
  | none => ⟨node.identifier, node.isRoot, [], walkIndex⟩
  | some owner =>
    if owner.tool = node.identifier then
      -- a shared dependency is walked twice and does not shadow itself
      { owner with isRoot := node.isRoot, walkIndex }
    else
      ⟨node.identifier, node.isRoot,
        owner.shadowed.filter (· ≠ node.identifier) ++ [owner.tool], walkIndex⟩

def recordClaim (exposed : NameMap) (name : String) (node : ClosureNode) (walkIndex : ℕ) :
    NameMap :=
  exposed.insert name (claimName exposed[name]? node walkIndex)

/-- Record the claims of a node. -/
def exposeNode (policy : NotEnumerablePolicy) (exposed : NameMap) (entry : ClosureNode × ℕ) :
    Except NameError NameMap :=
  let (node, walkIndex) := entry
  if admittedOnSurface node false = false then pure exposed
  else if node.binaries = none ∧ node.entrypoints = [] then
    match policy with
    | .refuse => throw (.shimNamesNotEnumerable node.identifier)
    | .skip => pure exposed
  else
    match claimedNames node with
    | .error e => throw (.shimNameInvalid e)
    | .ok claimed =>
      pure (claimed.foldl (fun exposed name => recordClaim exposed name node walkIndex) exposed)

def exposedNames (nodes : List ClosureNode) (policy : NotEnumerablePolicy) :
    Except NameError NameMap :=
  nodes.zipIdx.foldlM (exposeNode policy) ∅

/-- The names a node has to offer. -/
def ClosureNode.exposes (node : ClosureNode) : List String :=
  node.binaries.getD [] ++ node.entrypoints

/-- The node is walked and claims one of these names. -/
def ClosureNode.claims (node : ClosureNode) (names : String → Bool) : Bool :=
  admittedOnSurface node false && node.exposes.any names

/-- The nodes that claim one of these names, with their positions. -/
def claimsOf (nodes : List ClosureNode) (names : String → Bool) : List (ClosureNode × ℕ) :=
  nodes.zipIdx.filter fun entry => entry.1.claims names

def ownerOf (claims : List (ClosureNode × ℕ)) : Option NameOwner :=
  claims.getLast?.map fun last =>
    ⟨last.1.identifier, last.1.isRoot,
      (claims.map fun entry => entry.1.identifier).dedup.filter (· ≠ last.1.identifier), last.2⟩

variable {claimed : List String} {names : NameMap} {policy : NotEnumerablePolicy}
  {group : List (String × NameOwner)} {folded : String × NameOwner}

theorem claimedNames_eq_ok {node : ClosureNode}
    (h : claimedNames node = .ok claimed) : claimed = node.exposes.dedup := by
  have hcross (carrier : Visibility) (hc : carrier.hasInterface = true) :
      carrierCrossesOn carrier node.isRoot (surfaceAxes false) = true := by
    simp [carrierCrossesOn, onAxes, surfaceAxes, Visibility.interface, hc]
  have hmap : ∀ {names out : List String}, names.mapM binaryName = .ok out → out = names := by
    intro names
    induction names with
    | nil =>
      intro out hout
      cases hout
      rfl
    | cons n names ih =>
      intro out hout
      rw [mapM_cons] at hout
      obtain ⟨m, hm, hrest⟩ := bind_eq_ok_iff.1 hout
      obtain ⟨rest, hr, hout⟩ := bind_eq_ok_iff.1 hrest
      cases hout
      rw [binaryName_eq_ok hm, ih hr]
  rw [claimedNames, hcross .public rfl, hcross .interface rfl] at h
  obtain ⟨entrypoints, hentry, hout⟩ := bind_eq_ok_iff.1 h
  cases hout
  rw [hmap hentry]
  rfl

theorem getElem?_foldl_recordClaim (hnodup : claimed.Nodup)
    (exposed : NameMap) (node : ClosureNode) (walkIndex : ℕ) (name : String) :
    (claimed.foldl (fun exposed name => recordClaim exposed name node walkIndex) exposed)[name]? =
      if name ∈ claimed then some (claimName exposed[name]? node walkIndex)
      else exposed[name]? := by
  induction claimed generalizing exposed with
  | nil => simp
  | cons n claimed ih =>
    obtain ⟨hn, hrest⟩ := nodup_cons.1 hnodup
    rw [foldl_cons, ih hrest, recordClaim, getElem?_insert_eq]
    by_cases hname : n = name
    · subst hname
      simp [hn]
    · simp [hname, Ne.symm hname]

theorem getElem?_exposeNode {exposed : NameMap}
    {entry : ClosureNode × ℕ} (h : exposeNode policy exposed entry = .ok names) (name : String) :
    names[name]? =
      if entry.1.claims (· = name) then some (claimName exposed[name]? entry.1 entry.2)
      else exposed[name]? := by
  obtain ⟨node, walkIndex⟩ := entry
  unfold exposeNode at h
  simp only at h
  split_ifs at h with hadmitted hnone
  · obtain rfl : exposed = names := by simpa [pure, Except.pure] using h
    simp [ClosureNode.claims, hadmitted]
  · cases policy with
    | refuse => cases h
    | skip =>
      obtain rfl : exposed = names := by simpa [pure, Except.pure] using h
      simp [ClosureNode.claims, ClosureNode.exposes, hnone.1, hnone.2]
  · cases hclaimed : claimedNames node with
    | error e =>
      rw [hclaimed] at h
      cases h
    | ok claimed =>
      rw [hclaimed] at h
      obtain rfl := claimedNames_eq_ok hclaimed
      obtain rfl : _ = names := Except.ok.inj h
      rw [getElem?_foldl_recordClaim (nodup_dedup _)]
      simp [ClosureNode.claims, hadmitted]

theorem foldl_claimName (claims : List (ClosureNode × ℕ)) :
    claims.foldl (fun owner entry => some (claimName owner entry.1 entry.2)) none =
      ownerOf claims := by
  induction claims using reverseRecOn with
  | nil => rfl
  | append_singleton claims entry ih =>
    rw [foldl_append, ih, foldl_cons, foldl_nil]
    rcases eq_nil_or_concat claims with rfl | ⟨past, last, rfl⟩
    · simp [ownerOf, claimName]
    · -- the claimant before becomes the last of those shadowed
      simp only [ownerOf, getLast?_append_of_ne_nil, getLast?_singleton, Option.map_some,
        map_append, map_cons, map_nil, ne_eq, cons_ne_nil, not_false_eq_true,
        Option.some.injEq, claimName, concat_eq_append, dedup_concat]
      split_ifs with hsame
      · simp [hsame]
      · simp [hsame, filter_append, filter_filter]

/-- **What the walk records under every name.** -/
theorem getElem?_exposedNames {nodes : List ClosureNode} (h : exposedNames nodes policy = .ok names)
    (name : String) :
    names[name]? = ownerOf (claimsOf nodes (· = name)) := by
  have hwalk : ∀ (entries : List (ClosureNode × ℕ)) (exposed : NameMap),
      entries.foldlM (exposeNode policy) exposed = .ok names →
      names[name]? = (entries.filter fun entry => entry.1.claims (· = name)).foldl
        (fun owner entry => some (claimName owner entry.1 entry.2)) exposed[name]? := by
    intro entries
    induction entries with
    | nil =>
      intro exposed hwalk
      cases hwalk
      rfl
    | cons entry entries ih =>
      intro exposed hwalk
      obtain ⟨next, hnext, hrest⟩ := bind_eq_ok_iff.1 hwalk
      rw [ih next hrest, getElem?_exposeNode hnext, filter_cons]
      split_ifs <;> rfl
  rw [hwalk _ _ h, ← foldl_claimName]
  rfl

/-! ### Folding case -/

/-- The order of the owners of one folded name: by their last claim, then by spelling. -/
def walkOrder (a b : String × NameOwner) : Prop :=
  a.2.walkIndex < b.2.walkIndex ∨ a.2.walkIndex = b.2.walkIndex ∧ a.1 ≤ b.1

instance : DecidableRel walkOrder := fun a b =>
  inferInstanceAs (Decidable (a.2.walkIndex < b.2.walkIndex ∨
    a.2.walkIndex = b.2.walkIndex ∧ a.1 ≤ b.1))

instance : Std.Total walkOrder where
  total a b := by
    rcases lt_trichotomy a.2.walkIndex b.2.walkIndex with h | h | h
    · exact .inl (.inl h)
    · rcases le_total a.1 b.1 with hle | hle
      · exact .inl (.inr ⟨h, hle⟩)
      · exact .inr (.inr ⟨h.symm, hle⟩)
    · exact .inr (.inl h)

instance : IsTrans (String × NameOwner) walkOrder where
  trans a b c hab hbc := by
    rcases hab with hab | ⟨hab, hle⟩
    · exact .inl (hbc.elim hab.trans fun h => h.1 ▸ hab)
    · rcases hbc with hbc | ⟨hbc, hle'⟩
      · exact .inl (hab ▸ hbc)
      · exact .inr ⟨hab.trans hbc, hle.trans hle'⟩

/-- The owners of one folded name become one: the last in the walk, under its own spelling. -/
def foldGroup : List (String × NameOwner) → Option (String × NameOwner)
  | [entry] => some entry
  | group =>
    let sorted := group.insertionSort walkOrder
    sorted.getLast?.map fun winner =>
      let tool := winner.2.tool
      let lost := sorted.dropLast.flatMap fun loser =>
        -- the winner may own the other spelling, too
        if loser.2.tool = tool then []
        else loser.2.shadowed.filter (· ≠ tool) ++ [loser.2.tool]
      (winner.1, { winner.2 with shadowed := lost ++ winner.2.shadowed.filter (· ≠ tool) })

/-- Fold the names that differ in ASCII case only. -/
def foldCaseInsensitive (names : NameMap) : NameMap :=
  -- the order of the groups does not matter: their names differ
  let groups := pushAllTo [] (names.toList.map fun entry => (entry.1.toLower, entry))
  (groups.filterMap fun group => foldGroup group.2).foldl
    (fun folded entry => folded.insert entry.1 entry.2) ∅

def spellings (names : NameMap) (fold : String) : List (String × NameOwner) :=
  names.toList.filter fun entry => entry.1.toLower = fold

theorem mem_spellings_iff {fold : String} {entry : String × NameOwner} :
    entry ∈ spellings names fold ↔ names[entry.1]? = some entry.2 ∧ entry.1.toLower = fold := by
  rw [spellings, mem_filter, Std.ExtTreeMap.mem_toList_iff_getElem?_eq_some, decide_eq_true_eq]

theorem nodup_spellings (names : NameMap) (fold : String) :
    ((spellings names fold).map Prod.fst).Nodup :=
  (nodup_keys_toList names).sublist (filter_sublist.map _)

/-- The tools a spelling adds to those the winner shadows. -/
def shadowedBy (winner entry : String × NameOwner) : List PinnedPackageRef :=
  if entry.1 = winner.1 ∨ entry.2.tool ≠ winner.2.tool then
    (entry.2.shadowed ++ [entry.2.tool]).filter (· ≠ winner.2.tool)
  else []

theorem foldGroup_eq_some
    (hkeys : (group.map Prod.fst).Nodup) (hself : ∀ e ∈ group, e.2.tool ∉ e.2.shadowed)
    (h : foldGroup group = some folded) :
    ∃ winner ∈ group, (∀ e ∈ group, walkOrder e winner) ∧ folded.1 = winner.1 ∧
      folded.2.tool = winner.2.tool ∧
      ∃ sorted : List (String × NameOwner), sorted.Perm group ∧
        folded.2.shadowed = sorted.flatMap (shadowedBy winner) := by
  unfold foldGroup at h
  split at h
  case h_1 entry =>
    obtain rfl : entry = folded := Option.some.inj h
    refine ⟨entry, mem_singleton_self _, fun e he => ?_, rfl, rfl, [entry], .refl _, ?_⟩
    · rw [mem_singleton.1 he]
      exact .inr ⟨rfl, le_rfl⟩
    · have hnot := hself entry (mem_singleton_self _)
      have hkeep : entry.2.shadowed.filter (· ≠ entry.2.tool) = entry.2.shadowed :=
        filter_eq_self.2 fun a ha => by
          simpa using fun (heq : a = entry.2.tool) => hnot (heq ▸ ha)
      simpa [shadowedBy, filter_append] using hkeep.symm
  case h_2 other hnot =>
    obtain ⟨winner, hlast, rfl⟩ := Option.map_eq_some_iff.1 h
    have hsplit := (dropLast_append_getLast? winner hlast).symm
    have hperm := perm_insertionSort walkOrder group
    have hmem : winner ∈ group := hperm.subset (mem_of_getLast? hlast)
    have hsorted := pairwise_insertionSort walkOrder group
    refine ⟨winner, hmem, fun e he => ?_, rfl, rfl, group.insertionSort walkOrder, hperm, ?_⟩
    · have he' := hperm.symm.subset he
      rw [hsplit] at he' hsorted
      rcases mem_append.1 he' with he' | he'
      · exact (pairwise_append.1 hsorted).2.2 e he' winner (mem_singleton_self _)
      · rw [mem_singleton.1 he']
        exact .inr ⟨rfl, le_rfl⟩
    · have hkeys' := (hperm.map Prod.fst).nodup_iff.2 hkeys
      rw [hsplit] at hkeys'
      conv_rhs => rw [hsplit, flatMap_append, flatMap_singleton]
      refine congrArg₂ (· ++ ·) ?_ ?_
      · refine flatMap_congr fun loser hloser => ?_
        have hne : loser.1 ≠ winner.1 := by
          rw [map_append, nodup_append] at hkeys'
          exact hkeys'.2.2 _ (mem_map_of_mem hloser) _ (by simp)
        by_cases htool : loser.2.tool = winner.2.tool
        · simp [shadowedBy, hne, htool]
        · simp [shadowedBy, hne, htool, filter_append]
      · simp [shadowedBy, filter_append]

theorem spelling_of_foldGroup
    (h : foldGroup group = some folded) : folded.1 ∈ group.map Prod.fst := by
  unfold foldGroup at h
  split at h
  case h_1 entry =>
    obtain rfl : entry = folded := Option.some.inj h
    simp
  case h_2 other hnot =>
    obtain ⟨winner, hlast, rfl⟩ := Option.map_eq_some_iff.1 h
    have hmem : winner ∈ group :=
      (perm_insertionSort walkOrder group).subset (mem_of_getLast? hlast)
    exact mem_map.2 ⟨winner, hmem, rfl⟩

theorem foldGroup_isSome (h : group ≠ []) :
    (foldGroup group).isSome := by
  unfold foldGroup
  split
  · rfl
  · have hsorted : group.insertionSort walkOrder ≠ [] := by
      intro hnil
      exact h (perm_nil.1 (hnil ▸ (perm_insertionSort walkOrder group).symm))
    simp [getLast?_eq_some_getLast hsorted]

/-- **What the fold records.** -/
theorem foldCaseInsensitive_eq_some_iff {key : String} {owner : NameOwner} :
    (foldCaseInsensitive names)[key]? = some owner ↔
      foldGroup (spellings names key.toLower) = some (key, owner) := by
  have hpushed (fold : String) : pushedTo (names.toList.map fun entry => (entry.1.toLower, entry))
      fold = spellings names fold := by
    simp [pushedTo, spellings, filter_map, Function.comp_def]
  -- a group is the spellings of its name
  have hgroups : ∀ group ∈ pushAllTo [] (names.toList.map fun entry => (entry.1.toLower, entry)),
      group.2 = spellings names group.1 := by
    intro group hgroup
    have hlast := lastValue_of_unique (nodup_keys_pushAllTo (by simp) _) hgroup
    rw [lastValue_pushAllTo, hpushed] at hlast
    split_ifs at hlast
    · simp [lastValue] at hlast
    · simpa [lastValue, eq_comm] using hlast
  have hfold : ∀ group ∈ pushAllTo [] (names.toList.map fun entry => (entry.1.toLower, entry)),
      ∀ folded, foldGroup group.2 = some folded → folded.1.toLower = group.1 := by
    intro group hgroup folded hfolded
    obtain ⟨entry, hentry, hkey⟩ := mem_map.1 (spelling_of_foldGroup hfolded)
    rw [hgroups group hgroup] at hentry
    rw [← hkey]
    exact (mem_spellings_iff.1 hentry).2
  rw [foldCaseInsensitive, getElem?_foldl_insert, Std.ExtTreeMap.getElem?_empty, Option.or_none]
  have hiff : ∀ o, (key, o) ∈ (pushAllTo [] (names.toList.map fun entry =>
        (entry.1.toLower, entry))).filterMap (fun group => foldGroup group.2) ↔
      foldGroup (spellings names key.toLower) = some (key, o) := by
    intro o
    rw [mem_filterMap]
    constructor
    · rintro ⟨group, hgroup, hfolded⟩
      have hname := hfold group hgroup _ hfolded
      rw [hgroups group hgroup] at hfolded
      rwa [← hname] at hfolded
    · intro hfolded
      have hne : spellings names key.toLower ≠ [] := by
        intro hnil
        simp [hnil, foldGroup] at hfolded
      refine ⟨(key.toLower, spellings names key.toLower), mem_of_lastValue_eq_some ?_, hfolded⟩
      rw [lastValue_pushAllTo, hpushed, if_neg hne]
      rfl
  constructor
  · intro h
    exact (hiff owner).1 (mem_of_lastValue_eq_some h)
  · intro h
    refine lastValue_of_functional ((hiff owner).2 h) fun o ho => ?_
    have hsame := ((hiff o).1 ho).symm.trans h
    simpa using hsame

end Ocx
