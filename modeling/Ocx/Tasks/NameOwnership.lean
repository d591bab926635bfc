import Ocx.Package.ClosureAgree
import Ocx.Tasks.ToolchainNames

/-!
# The owner of a name and the tool that runs

A rendered toolchain records who owns each exposed name; a shell that composed the same tools runs
the tool whose entry comes first on its `PATH`.  The walk gives a name to the *last* visit of a
claimant.  The composer emits every package once, at its *first* visit, and puts each entry before
the earlier ones.  A dependency that two tools share is visited twice, and then the two can
disagree.

A package is identified by its digest; the walk tells tools apart by their advisory tags, too.
`owned_iff` says exactly when the recorded owners run and their rivals are listed (`Owned`).
-/

namespace Ocx

open List

variable {entry : ClosureNode × ℕ} {a : PinnedPackageRef} {e : String × NameOwner}

/-! ### The walk and the composition -/

/-- A tool with its closure. -/
structure RootClosure where
  root : ClosureNode
  /-- Its dependencies, each before those that depend on it. -/
  dependencies : List ClosureNode
  root_isRoot : root.isRoot = true
  dependencies_isRoot : ∀ d ∈ dependencies, d.isRoot = false

/-- The package of a node, whatever its tag. -/
def ClosureNode.package (node : ClosureNode) : PinnedPackageRef := node.identifier.stripAdvisory

/-- The nodes of all tools: each tool after its dependencies. -/
def toolchainSurface (roots : List RootClosure) : List ClosureNode :=
  roots.flatMap fun r => r.dependencies ++ [r.root]

/-- The packages that are tools themselves. -/
def rootKeys (roots : List RootClosure) : List PinnedPackageRef := roots.map fun r => r.root.package

/-- Emit a dependency, unless it is a tool, is not on the surface, or was emitted. -/
def orderDependency (keys seen : List PinnedPackageRef) (d : ClosureNode) : List PinnedPackageRef :=
  if d.package ∈ keys then seen
  else if d.effectiveVisibility.any fun visibility => onAxes visibility (surfaceAxes false) then
    addNew seen d.package
  else seen

/-- Emit what a tool adds: its dependencies, then the tool. -/
def orderRoot (keys seen : List PinnedPackageRef) (r : RootClosure) : List PinnedPackageRef :=
  addNew (r.dependencies.foldl (orderDependency keys) seen) r.root.package

/-- The packages in the order in which the composer emits their entries. -/
def composeOrder (roots : List RootClosure) : List PinnedPackageRef :=
  roots.foldl (orderRoot (rootKeys roots)) []

/-- The composed path: each entry goes to the front. -/
def composedPath (roots : List RootClosure) : List PinnedPackageRef :=
  (composeOrder roots).foldl bringToFront []

/-! ### The property -/

/-- The package is walked and claims one of these names. -/
def packageClaims (nodes : List ClosureNode) (names : String → Bool) (p : PinnedPackageRef) :
    Bool :=
  nodes.any fun node => node.claims names && node.package = p

/-- The names equal to a recorded one. -/
def sameName (key name : String) : Bool := name = key

/-- The names equal to a recorded one up to ASCII case. -/
def sameFold (key name : String) : Bool := name.toLower = key.toLower

/-- The rivals of a tool for these names are listed once each. -/
def ListsRivals (nodes : List ClosureNode) (names : String → Bool) (tool : PinnedPackageRef)
    (rivals : List PinnedPackageRef) : Prop :=
  (rivals.map PinnedPackageRef.stripAdvisory).Nodup ∧
    ∀ p, p ∈ rivals.map PinnedPackageRef.stripAdvisory ↔
      packageClaims nodes names p = true ∧ p ≠ tool.stripAdvisory

/-- The owners recorded under `names` are those that run, with names compared by `same`. -/
structure Owned (roots : List RootClosure) (same : String → String → Bool) (names : NameMap) :
    Prop where
  /-- Every claimed name has an owner. -/
  recorded : ∀ node ∈ toolchainSurface roots, admittedOnSurface node false = true →
    ∀ name ∈ node.exposes, ∃ key owner, names[key]? = some owner ∧ same key name = true
  runs : ∀ (key : String) (owner : NameOwner), names[key]? = some owner →
    (composedPath roots).find? (packageClaims (toolchainSurface roots) (same key)) =
      some owner.tool.stripAdvisory
  rivals : ∀ (key : String) (owner : NameOwner), names[key]? = some owner →
    ListsRivals (toolchainSurface roots) (same key) owner.tool owner.shadowed

/-! ### The condition -/

/-- The tools that claim one of these names, in the order of the walk. -/
def claimants (nodes : List ClosureNode) (names : String → Bool) : List PinnedPackageRef :=
  (claimsOf nodes names).map fun entry => entry.1.identifier

/-- The packages the composer comes by: dependencies that are no tools themselves, and tools. -/
def emissions (roots : List RootClosure) : List PinnedPackageRef :=
  roots.flatMap fun r =>
    ((r.dependencies.filter fun d => admittedOnSurface d false && d.package ∉ rootKeys roots).map
      ClosureNode.package) ++ [r.root.package]

/-- The last to claim one of these names in the walk is also the last to be emitted. -/
def LastEmitted (roots : List RootClosure) (names : String → Bool) : Prop :=
  ∀ last, (claimants (toolchainSurface roots) names).getLast? = some last →
    ∀ p ∈ claimants (toolchainSurface roots) names,
      (emissions roots).idxOf p.stripAdvisory ≤ (emissions roots).idxOf last.stripAdvisory

/-- The last claim on a folded name: its tool, and the spelling it goes by. -/
def LastSpelling (nodes : List ClosureNode) (fold spelling : String) (tool : PinnedPackageRef) :
    Prop :=
  ∃ last, (claimsOf nodes (·.toLower = fold)).getLast? = some last ∧ last.1.identifier = tool ∧
    spelling ∈ last.1.exposes ∧ spelling.toLower = fold ∧
    ∀ s ∈ last.1.exposes, s.toLower = fold → s ≤ spelling

/-- A spelling whose claimants are listed: that of the last claim, or one that somebody else claims
last. -/
def Counted (nodes : List ClosureNode) (fold spelling : String) (tool : PinnedPackageRef)
    (s : String) : Prop :=
  s.toLower = fold ∧ (s = spelling ∨ (claimants nodes (· = s)).getLast? ≠ some tool)

/-- Every rival for a folded name claims exactly one spelling that is counted. -/
structure RivalsApart (nodes : List ClosureNode) (fold spelling : String)
    (tool : PinnedPackageRef) : Prop where
  /-- The package of the last claim has no other tag there. -/
  tags : ∀ s a, Counted nodes fold spelling tool s → a ∈ claimants nodes (· = s) →
    a.stripAdvisory = tool.stripAdvisory → a = tool
  /-- No rival is counted twice. -/
  once : ∀ s a t b, Counted nodes fold spelling tool s → a ∈ claimants nodes (· = s) →
    Counted nodes fold spelling tool t → b ∈ claimants nodes (· = t) → a ≠ tool → b ≠ tool →
      a.stripAdvisory = b.stripAdvisory → s = t ∧ a = b
  /-- Every rival is counted. -/
  listed : ∀ p ∈ claimants nodes (·.toLower = fold), p.stripAdvisory ≠ tool.stripAdvisory →
    ∃ s a, Counted nodes fold spelling tool s ∧ a ∈ claimants nodes (· = s) ∧
      a.stripAdvisory = p.stripAdvisory

/-- The walk and the composition agree on every name, and every rival can be told apart. -/
structure NamesSettled (roots : List RootClosure) : Prop where
  last : ∀ name, LastEmitted roots (· = name)
  /-- No package claims a name under two tags. -/
  tags : ∀ name, ∀ a ∈ claimants (toolchainSurface roots) (· = name),
    ∀ b ∈ claimants (toolchainSurface roots) (· = name), a.stripAdvisory = b.stripAdvisory → a = b
  foldedLast : ∀ fold, LastEmitted roots (·.toLower = fold)
  foldedRivals : ∀ fold spelling tool, LastSpelling (toolchainSurface roots) fold spelling tool →
    RivalsApart (toolchainSurface roots) fold spelling tool

/-! ### What the composer emits -/

variable {roots : List RootClosure} {nodes : List ClosureNode} {names : String → Bool}

theorem admitted_dependency {r : RootClosure} {d : ClosureNode} (hd : d ∈ r.dependencies) :
    admittedOnSurface d false =
      d.effectiveVisibility.any fun visibility => onAxes visibility (surfaceAxes false) := by
  rw [admittedOnSurface, r.dependencies_isRoot d hd, Bool.false_or]

/-- **The composer emits packages in the order of their first visits.** -/
theorem composeOrder_eq (roots : List RootClosure) :
    composeOrder roots = addAllNew [] (emissions roots) := by
  have hdeps : ∀ (keys : List PinnedPackageRef) (r : RootClosure) (ds : List ClosureNode)
      (seen : List PinnedPackageRef), (∀ d ∈ ds, d ∈ r.dependencies) →
      ds.foldl (orderDependency keys) seen =
        ((ds.filter fun d => admittedOnSurface d false && d.package ∉ keys).map
          ClosureNode.package).foldl addNew seen := by
    intro keys r ds
    induction ds with
    | nil => intro seen _; rfl
    | cons d ds ih =>
      intro seen hds
      rw [foldl_cons, ih _ fun d' hd' => hds d' (mem_cons_of_mem _ hd'), filter_cons,
        admitted_dependency (hds d mem_cons_self), orderDependency]
      by_cases hkey : d.package ∈ keys
      · simp [hkey]
      · by_cases hadmitted : (d.effectiveVisibility.any fun visibility =>
            onAxes visibility (surfaceAxes false)) = true
        · simp [hkey, hadmitted]
        · simp [hkey, hadmitted]
  have hroots : ∀ (keys : List PinnedPackageRef) (rs : List RootClosure)
      (seen : List PinnedPackageRef), rs.foldl (orderRoot keys) seen =
        (rs.flatMap fun r => ((r.dependencies.filter fun d =>
          admittedOnSurface d false && d.package ∉ keys).map ClosureNode.package) ++
            [r.root.package]).foldl addNew seen := by
    intro keys rs
    induction rs with
    | nil => intro seen; rfl
    | cons r rs ih =>
      intro seen
      rw [foldl_cons, ih, flatMap_cons, foldl_append, foldl_append, orderRoot,
        hdeps keys r r.dependencies seen fun _ hd => hd]
      rfl
  exact hroots _ _ _

theorem find?_composedPath_iff {P : PinnedPackageRef → Bool} {q : PinnedPackageRef} :
    (composedPath roots).find? P = some q ↔
      q ∈ emissions roots ∧ P q = true ∧
        ∀ p ∈ emissions roots, P p = true →
          (emissions roots).idxOf p ≤ (emissions roots).idxOf q := by
  rw [composedPath, composeOrder_eq, foldl_bringToFront (nodup_addAllNew nodup_nil _),
    find?_reverse_addAllNew_iff]

/-! ### Claims -/

theorem mem_claimsOf_iff :
    entry ∈ claimsOf nodes names ↔
      nodes[entry.2]? = some entry.1 ∧ entry.1.claims names = true := by
  rw [claimsOf, mem_filter, mem_zipIdx_iff_getElem?]

theorem mem_claimants_iff :
    a ∈ claimants nodes names ↔ ∃ node ∈ nodes, node.claims names = true ∧ node.identifier = a := by
  simp only [claimants, mem_map, Prod.exists, mem_claimsOf_iff]
  constructor
  · rintro ⟨node, i, ⟨hnode, hclaims⟩, rfl⟩
    exact ⟨node, mem_of_getElem? hnode, hclaims, rfl⟩
  · rintro ⟨node, hnode, hclaims, rfl⟩
    obtain ⟨i, hi⟩ := mem_iff_getElem?.1 hnode
    exact ⟨node, i, ⟨hi, hclaims⟩, rfl⟩

theorem packageClaims_iff {p : PinnedPackageRef} :
    packageClaims nodes names p = true ↔ ∃ a ∈ claimants nodes names, a.stripAdvisory = p := by
  simp only [packageClaims, any_eq_true, Bool.and_eq_true, decide_eq_true_eq,
    mem_claimants_iff]
  constructor
  · rintro ⟨node, hnode, hclaims, hp⟩
    exact ⟨_, ⟨node, hnode, hclaims, rfl⟩, hp⟩
  · rintro ⟨a, ⟨node, hnode, hclaims, rfl⟩, hp⟩
    exact ⟨node, hnode, hclaims, hp⟩

theorem mem_emissions_of_claimant
    (h : a ∈ claimants (toolchainSurface roots) names) : a.stripAdvisory ∈ emissions roots := by
  obtain ⟨node, hnode, hclaims, rfl⟩ := mem_claimants_iff.1 h
  have hadmitted : admittedOnSurface node false = true := by
    rw [ClosureNode.claims, Bool.and_eq_true] at hclaims
    exact hclaims.1
  obtain ⟨r, hr, hmem⟩ := mem_flatMap.1 hnode
  have hroot : ∀ r ∈ roots, r.root.package ∈ emissions roots := fun r hr =>
    mem_flatMap.2 ⟨r, hr, mem_append_right _ (mem_singleton_self _)⟩
  rcases mem_append.1 hmem with hdep | hself
  · by_cases hkey : node.package ∈ rootKeys roots
    · -- a dependency that is a tool is emitted as a tool
      obtain ⟨r', hr', heq⟩ := mem_map.1 hkey
      have hmem' := hroot r' hr'
      rwa [heq] at hmem'
    · refine mem_flatMap.2 ⟨r, hr, mem_append_left _ (mem_map.2 ⟨node, ?_, rfl⟩)⟩
      simp [hdep, hadmitted, hkey]
  · rw [mem_singleton.1 hself]
    exact hroot r hr

theorem getLast?_claimsOf_iff :
    (claimsOf nodes names).getLast? = some entry ↔
      entry ∈ claimsOf nodes names ∧ ∀ e ∈ claimsOf nodes names, e.2 ≤ entry.2 := by
  have hsorted : (claimsOf nodes names).Pairwise fun a b => a.2 < b.2 := by
    have hzip : nodes.zipIdx.Pairwise fun a b => a.2 < b.2 := by
      rw [← pairwise_map (f := Prod.snd) (R := (· < ·)), zipIdx_map_snd]
      exact pairwise_lt_range'
    exact hzip.sublist filter_sublist
  constructor
  · intro hlast
    refine ⟨mem_of_getLast? hlast, fun e he => ?_⟩
    rw [← dropLast_append_getLast? entry hlast] at he hsorted
    rcases mem_append.1 he with he | he
    · exact ((pairwise_append.1 hsorted).2.2 e he entry (mem_singleton_self _)).le
    · rw [mem_singleton.1 he]
  · rintro ⟨hmem, hmax⟩
    obtain ⟨last, hlast⟩ : ∃ last, (claimsOf nodes names).getLast? = some last :=
      ⟨_, getLast?_eq_some_getLast (ne_nil_of_mem hmem)⟩
    rw [hlast, Option.some.injEq]
    have hlastmem := mem_of_getLast? hlast
    rw [← dropLast_append_getLast? last hlast] at hmem hsorted
    rcases mem_append.1 hmem with hmem | hmem
    · have hlt := (pairwise_append.1 hsorted).2.2 entry hmem last (mem_singleton_self _)
      exact absurd (hmax last hlastmem) (not_le.2 hlt)
    · exact (mem_singleton.1 hmem).symm

theorem getLast?_claimants :
    (claimants nodes names).getLast? =
      (claimsOf nodes names).getLast?.map fun entry => entry.1.identifier := by
  rw [claimants, getLast?_map]

open PinnedPackageRef

/-! ### What is recorded -/

section Recorded

variable {policy : NotEnumerablePolicy} {recorded : NameMap} {key : String} {owner : NameOwner}

variable (hnames : exposedNames nodes policy = .ok recorded)

include hnames

theorem getLast?_of_recorded (h : recorded[key]? = some owner) :
    ∃ last, (claimsOf nodes (· = key)).getLast? = some last ∧ last.1.identifier = owner.tool ∧
      last.2 = owner.walkIndex ∧
      owner.shadowed = (claimants nodes (· = key)).dedup.filter (· ≠ owner.tool) := by
  rw [getElem?_exposedNames hnames] at h
  obtain ⟨last, hlast, rfl⟩ := Option.map_eq_some_iff.1 h
  exact ⟨last, hlast, rfl, rfl, rfl⟩

theorem recorded_of_getLast?
    {last : ClosureNode × ℕ} (h : (claimsOf nodes (· = key)).getLast? = some last) :
    ∃ owner, recorded[key]? = some owner := by
  rw [getElem?_exposedNames hnames, ownerOf, h]
  exact ⟨_, rfl⟩

theorem recorded_of_claims (h : entry ∈ claimsOf nodes (· = key)) :
    ∃ owner, recorded[key]? = some owner ∧ entry.2 ≤ owner.walkIndex := by
  have hlast := getLast?_eq_some_getLast (ne_nil_of_mem h)
  obtain ⟨owner, howner⟩ := recorded_of_getLast? hnames hlast
  obtain ⟨last', hlast', -, hindex, -⟩ := getLast?_of_recorded hnames howner
  exact ⟨owner, howner, hindex ▸ (getLast?_claimsOf_iff.1 hlast').2 entry h⟩

theorem recorded_of_mem_claimants (h : a ∈ claimants nodes (· = key)) :
    ∃ owner, recorded[key]? = some owner := by
  obtain ⟨entry, hentry, -⟩ := mem_map.1 h
  obtain ⟨owner, howner, -⟩ := recorded_of_claims hnames hentry
  exact ⟨owner, howner⟩

theorem claimant_of_recorded (h : recorded[key]? = some owner) :
    (claimants nodes (· = key)).getLast? = some owner.tool := by
  obtain ⟨last, hlast, htool, -⟩ := getLast?_of_recorded hnames h
  rw [getLast?_claimants, hlast, Option.map_some, htool]

theorem mem_claimants_iff_recorded (h : recorded[key]? = some owner) :
    a ∈ claimants nodes (· = key) ↔ a ∈ owner.shadowed ++ [owner.tool] := by
  obtain ⟨last, -, -, -, hshadowed⟩ := getLast?_of_recorded hnames h
  have htool := mem_of_getLast? (claimant_of_recorded hnames h)
  rw [hshadowed]
  by_cases ha : a = owner.tool
  · simp [ha, htool]
  · simp [ha]

theorem nodup_recorded
    (h : recorded[key]? = some owner) : (owner.shadowed ++ [owner.tool]).Nodup := by
  obtain ⟨last, -, -, -, hshadowed⟩ := getLast?_of_recorded hnames h
  rw [hshadowed]
  refine nodup_append_comm.1 (nodup_cons.2 ⟨by simp, ?_⟩)
  exact (nodup_dedup _).filter _

omit hnames in
theorem claims_fold_iff {node : ClosureNode} {fold : String} :
    node.claims (·.toLower = fold) = true ↔ ∃ s, s.toLower = fold ∧ node.claims (· = s) = true := by
  simp only [ClosureNode.claims, Bool.and_eq_true, any_eq_true, decide_eq_true_eq]
  constructor
  · rintro ⟨hadmitted, s, hs, hfold⟩
    exact ⟨s, hfold, hadmitted, s, hs, rfl⟩
  · rintro ⟨s, hfold, hadmitted, s', hs, rfl⟩
    exact ⟨hadmitted, s', hs, hfold⟩

omit hnames in
theorem mem_claimants_fold_iff {fold : String} :
    a ∈ claimants nodes (·.toLower = fold) ↔
      ∃ s, s.toLower = fold ∧ a ∈ claimants nodes (· = s) := by
  simp only [mem_claimants_iff, claims_fold_iff]
  constructor
  · rintro ⟨node, hnode, ⟨s, hs, hclaims⟩, hid⟩
    exact ⟨s, hs, node, hnode, hclaims, hid⟩
  · rintro ⟨s, hs, node, hnode, hclaims, hid⟩
    exact ⟨node, hnode, ⟨s, hs, hclaims⟩, hid⟩

omit hnames in
theorem exposes_of_claims {node : ClosureNode} {name : String}
    (h : node.claims (· = name) = true) : name ∈ node.exposes := by
  simp only [ClosureNode.claims, Bool.and_eq_true, any_eq_true, decide_eq_true_eq] at h
  obtain ⟨-, s, hs, rfl⟩ := h
  exact hs

/-! ### What the fold leaves -/

variable {fold : String} {winner : String × NameOwner}

theorem lastSpelling_of_winner (hmem : winner ∈ spellings recorded fold)
    (hmax : ∀ e ∈ spellings recorded fold, walkOrder e winner) :
    LastSpelling nodes fold winner.1 winner.2.tool := by
  obtain ⟨hwinner, hfold⟩ := mem_spellings_iff.1 hmem
  obtain ⟨last, hlast, htool, hindex, -⟩ := getLast?_of_recorded hnames hwinner
  obtain ⟨hnode, hclaims⟩ := mem_claimsOf_iff.1 (mem_of_getLast? hlast)
  -- no spelling is claimed after the last claim of the winner
  have hlatest : ∀ s, s.toLower = fold → ∀ e ∈ claimsOf nodes (· = s),
      e.2 ≤ last.2 ∧ (e.2 = last.2 → s ≤ winner.1) := by
    intro s hs e he
    obtain ⟨o, ho, hle⟩ := recorded_of_claims hnames he
    rw [hindex]
    rcases hmax (s, o) (mem_spellings_iff.2 ⟨ho, hs⟩) with hlt | ⟨heq, hspelling⟩
    · exact ⟨hle.trans hlt.le, fun h => absurd (h ▸ hle) (not_le.2 hlt)⟩
    · exact ⟨hle.trans heq.le, fun _ => hspelling⟩
  refine ⟨last, getLast?_claimsOf_iff.2 ⟨?_, fun e he => ?_⟩, htool, exposes_of_claims hclaims,
    hfold, fun s hs hsfold => ?_⟩
  · exact mem_claimsOf_iff.2 ⟨hnode, claims_fold_iff.2 ⟨_, hfold, hclaims⟩⟩
  · obtain ⟨henode, heclaims⟩ := mem_claimsOf_iff.1 he
    obtain ⟨s, hs, hsclaims⟩ := claims_fold_iff.1 heclaims
    exact (hlatest s hs e (mem_claimsOf_iff.2 ⟨henode, hsclaims⟩)).1
  · refine (hlatest s hsfold last (mem_claimsOf_iff.2 ⟨hnode, ?_⟩)).2 rfl
    simp only [ClosureNode.claims, Bool.and_eq_true, any_eq_true, decide_eq_true_eq]
      at hclaims ⊢
    exact ⟨hclaims.1, s, hs, rfl⟩

omit hnames in
theorem LastSpelling.unique {s t : String} {b : PinnedPackageRef}
    (h : LastSpelling nodes fold s a) (h' : LastSpelling nodes fold t b) : s = t ∧ a = b := by
  obtain ⟨last, hlast, rfl, hs, hsfold, hsmax⟩ := h
  obtain ⟨last', hlast', rfl, ht, htfold, htmax⟩ := h'
  obtain rfl : last = last' := Option.some.inj (hlast.symm.trans hlast')
  exact ⟨le_antisymm (htmax s hs hsfold) (hsmax t ht htfold), rfl⟩

theorem mem_shadowedBy_iff (he : e ∈ spellings recorded fold) :
    a ∈ shadowedBy winner e ↔ Counted nodes fold winner.1 winner.2.tool e.1 ∧
      a ∈ claimants nodes (· = e.1) ∧ a ≠ winner.2.tool := by
  obtain ⟨hrecorded, hfold⟩ := mem_spellings_iff.1 he
  have hlast := claimant_of_recorded hnames hrecorded
  have hcounted : Counted nodes fold winner.1 winner.2.tool e.1 ↔
      e.1 = winner.1 ∨ e.2.tool ≠ winner.2.tool := by
    rw [Counted, hlast]
    simp [hfold]
  rw [hcounted, mem_claimants_iff_recorded hnames hrecorded, shadowedBy]
  split_ifs with hc
  · simp [hc, or_and_right]
  · simp [hc]

theorem nodup_shadowedBy (he : e ∈ spellings recorded fold) :
    (shadowedBy winner e).Nodup := by
  rw [shadowedBy]
  split_ifs
  · exact (nodup_recorded hnames (mem_spellings_iff.1 he).1).filter _
  · exact nodup_nil

/-- **The fold lists every rival once exactly if the rivals are apart.** -/
theorem rivals_fold_iff (winner : String × NameOwner)
    {sorted : List (String × NameOwner)} (hperm : sorted.Perm (spellings recorded fold)) :
    ListsRivals nodes (·.toLower = fold) winner.2.tool (sorted.flatMap (shadowedBy winner)) ↔
      RivalsApart nodes fold winner.1 winner.2.tool := by
  -- the spelling of a claimant is one of the group
  have hgroup : ∀ s a, s.toLower = fold → a ∈ claimants nodes (· = s) →
      ∃ o, (s, o) ∈ sorted ∧ (s, o) ∈ spellings recorded fold := by
    intro s a hs ha
    obtain ⟨o, ho⟩ := recorded_of_mem_claimants hnames ha
    have hmem : (s, o) ∈ spellings recorded fold := mem_spellings_iff.2 ⟨ho, hs⟩
    exact ⟨o, hperm.symm.subset hmem, hmem⟩
  have hmem : ∀ a, a ∈ sorted.flatMap (shadowedBy winner) ↔
      ∃ s, Counted nodes fold winner.1 winner.2.tool s ∧ a ∈ claimants nodes (· = s) ∧
        a ≠ winner.2.tool := by
    intro a
    rw [mem_flatMap]
    constructor
    · rintro ⟨e, he, ha⟩
      exact ⟨e.1, (mem_shadowedBy_iff hnames (hperm.subset he)).1 ha⟩
    · rintro ⟨s, hcounted, ha, hne⟩
      obtain ⟨o, ho, ho'⟩ := hgroup s a hcounted.1 ha
      exact ⟨(s, o), ho, (mem_shadowedBy_iff hnames ho').2 ⟨hcounted, ha, hne⟩⟩
  have hkeys : (sorted.map Prod.fst).Nodup :=
    (hperm.map Prod.fst).nodup_iff.2 (nodup_spellings recorded fold)
  constructor
  · rintro ⟨hnodup, hclaims⟩
    rw [map_flatMap, nodup_flatMap] at hnodup
    refine ⟨fun s a hs ha htool => ?_, fun s a t b hs ha ht hb hane hbne hab => ?_,
      fun p hp hne => ?_⟩
    · by_contra hane
      have hlisted := (hclaims _).1 (mem_map_of_mem ((hmem a).2 ⟨s, hs, ha, hane⟩))
      exact hlisted.2 htool
    · obtain ⟨o, ho, ho'⟩ := hgroup s a hs.1 ha
      obtain ⟨o', hmem', ho''⟩ := hgroup t b ht.1 hb
      have ha' := (mem_shadowedBy_iff hnames ho').2 ⟨hs, ha, hane⟩
      have hb' := (mem_shadowedBy_iff hnames ho'').2 ⟨ht, hb, hbne⟩
      by_cases hst : (s, o) = (t, o')
      · obtain ⟨rfl, rfl⟩ := Prod.mk.inj hst
        exact ⟨rfl, inj_on_of_nodup_map (hnodup.1 _ ho) ha' hb' hab⟩
      · have : Std.Symm (Function.onFun List.Disjoint fun e =>
            (shadowedBy winner e).map stripAdvisory) := ⟨fun _ _ h => h.symm⟩
        have hdisjoint := hnodup.2.forall ho hmem' hst
        exact absurd (hab ▸ mem_map_of_mem hb') (hdisjoint (mem_map_of_mem ha'))
    · have hlisted := (hclaims _).2 ⟨packageClaims_iff.2 ⟨p, hp, rfl⟩, hne⟩
      obtain ⟨a, ha, hap⟩ := mem_map.1 hlisted
      obtain ⟨s, hs, hclaim, -⟩ := (hmem a).1 ha
      exact ⟨s, a, hs, hclaim, hap⟩
  · intro hapart
    refine ⟨?_, fun p => ?_⟩
    · rw [map_flatMap, nodup_flatMap]
      refine ⟨fun e he => ?_, ?_⟩
      · refine (nodup_shadowedBy hnames (hperm.subset he)).map_on fun a ha b hb hab => ?_
        obtain ⟨hs, ha, hane⟩ := (mem_shadowedBy_iff hnames (hperm.subset he)).1 ha
        obtain ⟨ht, hb, hbne⟩ := (mem_shadowedBy_iff hnames (hperm.subset he)).1 hb
        exact (hapart.once _ a _ b hs ha ht hb hane hbne hab).2
      · refine (pairwise_map.1 hkeys).imp_of_mem fun {e e'} he he' hne => ?_
        intro p hp hp'
        obtain ⟨a, ha, rfl⟩ := mem_map.1 hp
        obtain ⟨b, hb, hab⟩ := mem_map.1 hp'
        obtain ⟨hs, ha, hane⟩ := (mem_shadowedBy_iff hnames (hperm.subset he)).1 ha
        obtain ⟨ht, hb, hbne⟩ := (mem_shadowedBy_iff hnames (hperm.subset he')).1 hb
        exact hne (hapart.once _ a _ b hs ha ht hb hane hbne hab.symm).1
    · rw [mem_map, packageClaims_iff]
      constructor
      · rintro ⟨a, ha, rfl⟩
        obtain ⟨s, hs, hclaim, hane⟩ := (hmem a).1 ha
        exact ⟨⟨a, mem_claimants_fold_iff.2 ⟨s, hs.1, hclaim⟩, rfl⟩,
          fun htool => hane (hapart.tags s a hs hclaim htool)⟩
      · rintro ⟨⟨a, ha, rfl⟩, hne⟩
        obtain ⟨s, b, hs, hb, hba⟩ := hapart.listed a ha hne
        refine ⟨b, (hmem b).2 ⟨s, hs, hb, ?_⟩, hba⟩
        rintro rfl
        exact hne hba.symm

theorem rivals_iff (h : recorded[key]? = some owner) :
    ListsRivals nodes (· = key) owner.tool owner.shadowed ↔
      ∀ a ∈ claimants nodes (· = key), ∀ b ∈ claimants nodes (· = key),
        a.stripAdvisory = b.stripAdvisory → a = b := by
  have hmem (a : PinnedPackageRef) :
      a ∈ claimants nodes (· = key) ↔ a ∈ owner.shadowed ∨ a = owner.tool := by
    rw [mem_claimants_iff_recorded hnames h, mem_append, mem_singleton]
  obtain ⟨htool, hshadowed⟩ := nodup_cons.1
    (nodup_append_comm.1 (nodup_recorded hnames h))
  constructor
  · rintro ⟨hnodup, hclaims⟩ a ha b hb hab
    have hother : ∀ a ∈ owner.shadowed, a.stripAdvisory ≠ owner.tool.stripAdvisory := fun a ha =>
      ((hclaims _).1 (mem_map_of_mem ha)).2
    rcases (hmem a).1 ha with ha | rfl
    · rcases (hmem b).1 hb with hb | rfl
      · exact inj_on_of_nodup_map hnodup ha hb hab
      · exact absurd hab (hother a ha)
    · rcases (hmem b).1 hb with hb | rfl
      · exact absurd hab.symm (hother b hb)
      · rfl
  · intro htags
    refine ⟨hshadowed.map_on fun a ha b hb => ?_, fun p => ?_⟩
    · exact htags a ((hmem a).2 (.inl ha)) b ((hmem b).2 (.inl hb))
    · rw [mem_map, packageClaims_iff]
      constructor
      · rintro ⟨a, ha, rfl⟩
        refine ⟨⟨a, (hmem a).2 (.inl ha), rfl⟩, fun heq => htool ?_⟩
        rwa [← htags a ((hmem a).2 (.inl ha)) _ ((hmem _).2 (.inr rfl)) heq]
      · rintro ⟨⟨a, ha, rfl⟩, hne⟩
        rcases (hmem a).1 ha with ha | rfl
        · exact ⟨a, ha, rfl⟩
        · exact absurd rfl hne

theorem folded_spec (h : (foldCaseInsensitive recorded)[key]? = some owner) :
    LastSpelling nodes key.toLower key owner.tool ∧
      (ListsRivals nodes (·.toLower = key.toLower) owner.tool owner.shadowed ↔
        RivalsApart nodes key.toLower key owner.tool) := by
  have hself : ∀ e ∈ spellings recorded key.toLower, e.2.tool ∉ e.2.shadowed := fun e he =>
    (nodup_cons.1 (nodup_append_comm.1
      (nodup_recorded hnames (mem_spellings_iff.1 he).1))).1
  obtain ⟨winner, hmem, hmax, hkey, htool, sorted, hperm, hshadowed⟩ :=
    foldGroup_eq_some (nodup_spellings recorded _) hself (foldCaseInsensitive_eq_some_iff.1 h)
  have hlast := lastSpelling_of_winner hnames hmem hmax
  have hrivals := rivals_fold_iff hnames winner hperm
  rw [← hshadowed, ← hkey, ← htool] at hrivals
  rw [← hkey, ← htool] at hlast
  exact ⟨hlast, hrivals⟩

omit hnames in
theorem LastSpelling.getLast? {s : String}
    (h : LastSpelling nodes fold s a) :
    (claimants nodes (·.toLower = fold)).getLast? = some a := by
  obtain ⟨last, hlast, rfl, -⟩ := h
  rw [getLast?_claimants, hlast]
  rfl

theorem folded_of_mem (h : a ∈ claimants nodes (·.toLower = fold)) :
    ∃ (key : String) (owner : NameOwner), key.toLower = fold ∧
      (foldCaseInsensitive recorded)[key]? = some owner := by
  obtain ⟨s, rfl, ha⟩ := mem_claimants_fold_iff.1 h
  obtain ⟨o, ho⟩ := recorded_of_mem_claimants hnames ha
  have hmem : (s, o) ∈ spellings recorded s.toLower := mem_spellings_iff.2 ⟨ho, rfl⟩
  obtain ⟨⟨key, owner⟩, hfolded⟩ :=
    Option.isSome_iff_exists.1 (foldGroup_isSome (ne_nil_of_mem hmem))
  obtain ⟨e, he, hkey⟩ := mem_map.1 (spelling_of_foldGroup hfolded)
  have hlower : key.toLower = s.toLower := by
    rw [← (mem_spellings_iff.1 he).2, hkey]
  exact ⟨key, owner, hlower, foldCaseInsensitive_eq_some_iff.2 (hlower ▸ hfolded)⟩

end Recorded

/-! ### Ownership -/

theorem runs_iff {tool : PinnedPackageRef}
    (h : (claimants (toolchainSurface roots) names).getLast? = some tool) :
    (composedPath roots).find? (packageClaims (toolchainSurface roots) names) =
      some tool.stripAdvisory ↔ LastEmitted roots names := by
  have hmem := mem_of_getLast? h
  rw [find?_composedPath_iff]
  constructor
  · rintro ⟨-, -, hmax⟩ last hlast p hp
    obtain rfl : tool = last := Option.some.inj (h.symm.trans hlast)
    exact hmax _ (mem_emissions_of_claimant hp) (packageClaims_iff.2 ⟨p, hp, rfl⟩)
  · intro hlast
    refine ⟨mem_emissions_of_claimant hmem, packageClaims_iff.2 ⟨tool, hmem, rfl⟩, ?_⟩
    intro p _ hp
    obtain ⟨a, ha, rfl⟩ := packageClaims_iff.1 hp
    exact hlast tool h a ha

/-- **The recorded owners run, and their rivals are listed once each, with and without folding case,
exactly if the toolchain is settled.** -/
theorem owned_iff (roots : List RootClosure) (policy : NotEnumerablePolicy) (recorded : NameMap)
    (hnames : exposedNames (toolchainSurface roots) policy = .ok recorded) :
    Owned roots sameName recorded ∧ Owned roots sameFold (foldCaseInsensitive recorded) ↔
      NamesSettled roots := by
  constructor
  · rintro ⟨hexact, hfolded⟩
    refine ⟨fun name last hlast => ?_, fun name a ha b hb => ?_, fun fold last hlast => ?_,
      fun fold spelling tool hspelling => ?_⟩
    · obtain ⟨owner, howner⟩ := recorded_of_mem_claimants hnames (mem_of_getLast? hlast)
      have htool := claimant_of_recorded hnames howner
      exact (runs_iff htool).1 (hexact.runs name owner howner) last hlast
    · obtain ⟨owner, howner⟩ := recorded_of_mem_claimants hnames ha
      exact (rivals_iff hnames howner).1 (hexact.rivals name owner howner) a ha b hb
    · obtain ⟨key, owner, rfl, howner⟩ := folded_of_mem hnames (mem_of_getLast? hlast)
      have htool := (folded_spec hnames howner).1.getLast?
      exact (runs_iff htool).1 (hfolded.runs key owner howner) last hlast
    · obtain ⟨key, owner, rfl, howner⟩ :=
        folded_of_mem hnames (mem_of_getLast? hspelling.getLast?)
      obtain ⟨hlast, hrivals⟩ := folded_spec hnames howner
      obtain ⟨rfl, rfl⟩ := hlast.unique hspelling
      exact hrivals.1 (hfolded.rivals key owner howner)
  · intro hsettled
    have hclaims : ∀ node ∈ toolchainSurface roots, admittedOnSurface node false = true →
        ∀ name ∈ node.exposes, node.identifier ∈ claimants (toolchainSurface roots) (· = name) := by
      intro node hnode hadmitted name hname
      refine mem_claimants_iff.2 ⟨node, hnode, ?_, rfl⟩
      simp [ClosureNode.claims, hadmitted, hname]
    refine ⟨⟨fun node hnode hadmitted name hname => ?_, fun key owner howner => ?_,
      fun key owner howner => ?_⟩, ⟨fun node hnode hadmitted name hname => ?_,
      fun key owner howner => ?_, fun key owner howner => ?_⟩⟩
    · obtain ⟨owner, howner⟩ :=
        recorded_of_mem_claimants hnames (hclaims node hnode hadmitted name hname)
      exact ⟨name, owner, howner, by simp [sameName]⟩
    · exact (runs_iff (claimant_of_recorded hnames howner)).2 (hsettled.last key)
    · exact (rivals_iff hnames howner).2 (hsettled.tags key)
    · obtain ⟨key, owner, hkey, howner⟩ := folded_of_mem hnames
        (mem_claimants_fold_iff.2 ⟨name, rfl, hclaims node hnode hadmitted name hname⟩)
      exact ⟨key, owner, howner, by simp [sameFold, hkey]⟩
    · exact (runs_iff (folded_spec hnames howner).1.getLast?).2 (hsettled.foldedLast _)
    · obtain ⟨hlast, hrivals⟩ := folded_spec hnames howner
      exact hrivals.2 (hsettled.foldedRivals _ _ _ hlast)

/-! ### Toolchains that are not settled -/

/-- A node that claims binaries and entry points. -/
def namedNode (package : String) (isRoot : Bool) (binaries entrypoints : List String) :
    ClosureNode where
  identifier := sampleRef package package
  configDigest := ⟨.sha256, package⟩
  effectiveVisibility := if isRoot then none else some .public
  binaries := some binaries
  entrypoints := entrypoints
  env := []
  integrations := []
  dependencies := []
  isRoot := isRoot

/-- A tool and its dependencies, by what they claim. -/
def namedClosure (tool : String × List String × List String)
    (dependencies : List (String × List String × List String)) : RootClosure where
  root := namedNode tool.1 true tool.2.1 tool.2.2
  dependencies := dependencies.map fun d => namedNode d.1 false d.2.1 d.2.2
  root_isRoot := rfl
  dependencies_isRoot := by
    intro d hd
    obtain ⟨e, -, rfl⟩ := List.mem_map.1 hd
    rfl

/-- Two tools share a dependency, and the first one claims a name of it. -/
def sharingTools : List RootClosure :=
  [namedClosure ("cmake", ["make"], []) [("make", ["make"], [])],
    namedClosure ("ninja", ["ninja"], []) [("make", ["make"], [])]]

/-- A dependency claims a name in two spellings, and each is claimed by another package. -/
def twiceClaimed : List RootClosure :=
  [namedClosure ("c", ["make"], []) [("a", ["Make"], ["make"]), ("b", ["Make"], [])]]

/-- A tool claims a name in two spellings, and its dependency claims one of them. -/
def coveredClaim : List RootClosure :=
  [namedClosure ("tool", ["Make"], ["make"]) [("lib", ["Make"], [])]]

/-- The owner of a name, with or without folding case. -/
def recordedOwner (roots : List RootClosure) (folds : Bool) (name : String) : Option NameOwner :=
  (exposedNames (toolchainSurface roots) .skip).toOption.bind fun names =>
    (if folds then foldCaseInsensitive names else names)[name]?

theorem exists_recordedOwner {name : String} {folds : Bool} {owner : NameOwner}
    (h : recordedOwner roots folds name = some owner) :
    ∃ recorded, exposedNames (toolchainSurface roots) .skip = .ok recorded ∧
      (if folds then foldCaseInsensitive recorded else recorded)[name]? = some owner := by
  unfold recordedOwner at h
  cases hnames : exposedNames (toolchainSurface roots) .skip with
  | error e => simp [hnames, Except.toOption] at h
  | ok recorded =>
    rw [hnames] at h
    exact ⟨recorded, rfl, h⟩

/-- The shared dependency owns the name and the tool runs. The fold lists one rival twice, and
forgets another. -/
theorem toolchains_not_owned :
    (∃ recorded, exposedNames (toolchainSurface sharingTools) .skip = .ok recorded ∧
      ¬Owned sharingTools sameName recorded) ∧
    (∃ recorded, exposedNames (toolchainSurface twiceClaimed) .skip = .ok recorded ∧
      ¬Owned twiceClaimed sameFold (foldCaseInsensitive recorded)) ∧
    ∃ recorded, exposedNames (toolchainSurface coveredClaim) .skip = .ok recorded ∧
      ¬Owned coveredClaim sameFold (foldCaseInsensitive recorded) := by
  refine ⟨?_, ?_, ?_⟩
  · have howner : recordedOwner sharingTools false "make" =
        some ⟨sampleRef "make" "make", false, [sampleRef "cmake" "cmake"], 2⟩ := by decide +kernel
    have hruns : (composedPath sharingTools).find? (packageClaims (toolchainSurface sharingTools)
        (sameName "make")) = some (sampleRef "cmake" "cmake") := by decide +kernel
    obtain ⟨recorded, hrecorded, hname⟩ := exists_recordedOwner howner
    refine ⟨recorded, hrecorded, fun howned => ?_⟩
    have := (howned.runs "make" _ hname).symm.trans hruns
    revert this
    decide
  · have howner : recordedOwner twiceClaimed true "make" = some ⟨sampleRef "c" "c", true,
        [sampleRef "a" "a", sampleRef "b" "b", sampleRef "a" "a"], 2⟩ := by decide +kernel
    obtain ⟨recorded, hrecorded, hname⟩ := exists_recordedOwner howner
    refine ⟨recorded, hrecorded, fun howned => ?_⟩
    have := (howned.rivals "make" _ hname).1
    revert this
    decide
  · have howner : recordedOwner coveredClaim true "make" =
        some ⟨sampleRef "tool" "tool", true, [], 1⟩ := by decide +kernel
    have hclaims : packageClaims (toolchainSurface coveredClaim) (sameFold "make")
        (sampleRef "lib" "lib") = true := by decide +kernel
    obtain ⟨recorded, hrecorded, hname⟩ := exists_recordedOwner howner
    refine ⟨recorded, hrecorded, fun howned => ?_⟩
    have := ((howned.rivals "make" _ hname).2 (sampleRef "lib" "lib")).2 ⟨hclaims, by decide⟩
    simp at this

theorem sharingTools_owned_iff :
    ∃ recorded, exposedNames (toolchainSurface sharingTools) .skip = .ok recorded ∧
      (Owned sharingTools sameName recorded ∧
        Owned sharingTools sameFold (foldCaseInsensitive recorded) ↔
          NamesSettled sharingTools) := by
  have howner : (recordedOwner sharingTools false "make").isSome = true := by decide +kernel
  obtain ⟨owner, howner⟩ := Option.isSome_iff_exists.1 howner
  obtain ⟨recorded, hrecorded, -⟩ := exists_recordedOwner howner
  exact ⟨recorded, hrecorded, owned_iff sharingTools .skip recorded hrecorded⟩

end Ocx
