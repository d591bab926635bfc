import Ocx.Project.Touched

/-!
# Followers share the pin of their source

A group that declares a tool as a follower is meant to run the very leaf the top-level tool runs.
A full resolve copies the entry of the source.  A partial one keeps entries of the predecessor, and
nothing in it looks at whether a binding was a follower when those entries were written: neither the
spelling nor the hash of the declarations tells a follower from a literal of the same identifier.
-/

namespace Ocx

open List Option

inductive LockRequest
  | resolve (groups : List String)
  /-- Resolve touched bindings, with the declarations before the change and the predecessor. -/
  | touched (preMutation : ProjectConfig) (previous : ProjectLock) (bindings : List Binding)
  | reconcile (previous : Option ProjectLock) (forced : List Binding)

/-- Followers have the repository and the leaves of their source. -/
def SharesPins (config : ProjectConfig) (tools : List LockedTool) : Prop :=
  ∀ f ∈ tools, isFollower config f.binding = true → ∀ s ∈ tools,
    s.binding = f.binding.source → f.repository = s.repository ∧ f.platforms = s.platforms

/-- The entries of a follower and of its source have the same leaves. -/
def CarriesShared (tools : List LockedTool) (b : Binding) : Prop :=
  ∀ f s, findTool tools b = some f → findTool tools b.source = some s → f.platforms = s.platforms

namespace LockRequest

def run (hash : Declarations → String) (index : LockIndex) (config : ProjectConfig) :
    LockRequest → Except ProjectErrorKind ProjectLock
  | resolve groups => resolveLock hash index config groups
  | touched preMutation previous bindings =>
    resolveLockTouched hash index config preMutation previous bindings
  | reconcile previous forced =>
    Prod.fst <$> resolveLockReconcile hash index config previous forced

/-- The entries of the predecessor. -/
def previousTools : LockRequest → List LockedTool
  | resolve _ => []
  | touched _ previous _ => previous.tools
  | reconcile previous _ => carriedTools previous

/-- What a request needs to keep pins shared. Entries that are carried forward together must have
shared leaves before. When a follower adopts the entry of its source while its family is resolved
again, the index must answer with the leaves the source had. -/
def Sharing (hash : Declarations → String) (index : LockIndex) (config : ProjectConfig) :
    LockRequest → Prop
  | resolve _ => True
  | touched _ previous bindings => ∀ b, isFollower config b = true →
      (∀ b' ∈ family config b.name, b' ∉ bindings ∧ ¬ Respelled config (some previous) b') →
      CarriesShared previous.tools b
  | reconcile previous forced =>
    (∀ b, isFollower config b = true → ¬ Unsettled hash config previous forced b →
      ¬ Unsettled hash config previous forced b.source → ¬ Drags config previous forced b.name →
      CarriesShared (carriedTools previous) b) ∧
    ∀ b, Adopts hash config previous forced b → Drags config previous forced b.name →
      ∀ identifier s, declaredIdentifier config b.source = some identifier →
        findTool (carriedTools previous) b.source = some s →
        resolveToPlatforms index b.source identifier = .ok s.platforms

end LockRequest

variable {hash : Declarations → String} {index : LockIndex} {config : ProjectConfig}

theorem sharesPins_buildLock {tools : List LockedTool} :
    SharesPins config (buildLock hash tools config).tools ↔ SharesPins config tools := by
  constructor
  · intro h f hf hfollower s hs hsource
    exact h (recordDeclared config f) (mem_map_of_mem hf) hfollower
      (recordDeclared config s) (mem_map_of_mem hs) hsource
  · intro h f hf hfollower s hs hsource
    obtain ⟨f, hf', rfl⟩ := mem_map.1 hf
    obtain ⟨s, hs', rfl⟩ := mem_map.1 hs
    exact h f hf' hfollower s hs' hsource

/-! ### Pins that are resolved together -/

section Resolved

theorem sharesPins_iff_platforms {tools : List LockedTool} (h : ∀ t ∈ tools, AsDeclared config t) :
    SharesPins config tools ↔ ∀ f ∈ tools, isFollower config f.binding = true → ∀ s ∈ tools,
      s.binding = f.binding.source → f.platforms = s.platforms := by
  refine forall₂_congr fun f hf => forall_congr' fun hfollower => forall₂_congr fun s hs =>
    forall_congr' fun hsb => and_iff_right ?_
  obtain ⟨identifier, hdeclared, hsource⟩ := declared_of_isFollower hfollower
  obtain ⟨idF, hidF, hrepoF⟩ := h f hf
  obtain ⟨idS, hidS, hrepoS⟩ := h s hs
  rw [hdeclared, some.injEq] at hidF
  rw [hsb, hsource, some.injEq] at hidS
  rw [hrepoF, hrepoS, ← hidF, ← hidS]

theorem sharesPins_resolveLock {groups : List String} {lock : ProjectLock}
    (hrun : resolveLock hash index config groups = .ok lock) : SharesPins config lock.tools := by
  obtain ⟨selected, -, hrun⟩ := bind_eq_ok_iff.1 hrun
  obtain ⟨resolved, hwork, hrun⟩ := bind_eq_ok_iff.1 hrun
  cases hrun
  have hresolves := resolveWork_spec (nodup_collectWork config selected)
    (fun w hw => (mem_collectWork.1 hw).2) hwork
  have hmem := fun t => (perm_sortTools resolved).mem_iff (a := t)
  rw [sharesPins_buildLock, sharesPins_iff_platforms fun t ht =>
    hresolves.repository t ((hmem t).1 ht)]
  exact fun f hf hfollower s hs hsource =>
    hresolves.shares f ((hmem f).1 hf) hfollower s ((hmem s).1 hs) hsource

end Resolved

/-! ### Pins of a reconciled lock -/

section Reconciled

variable {previous : Option ProjectLock} {forced touched : List Binding} {lock : ProjectLock}
  {b : Binding}

theorem source_mem_expandTouched (hfollower : isFollower config b = true) :
    b.source ∈ expandTouched config previous touched ↔
      b ∈ expandTouched config previous touched := by
  have hfamily : b ∈ family config b.name := mem_family.2 ⟨rfl, .inr hfollower⟩
  rw [mem_expandTouched_of_mem_family hfamily,
    mem_expandTouched_of_mem_family (source_mem_family hfamily)]

theorem mem_reconcileWork_source (hfollower : isFollower config b = true) :
    b.source ∈ (reconcileWork hash config previous forced).map Prod.fst ↔
      b ∈ (reconcileWork hash config previous forced).map Prod.fst := by
  obtain ⟨identifier, hdeclared, hsource⟩ := declared_of_isFollower hfollower
  rw [mem_reconcileWork, mem_reconcileWork, source_mem_expandTouched hfollower]
  simp [hdeclared, hsource]

theorem sharesPins_reconcile_iff
    (hprevious : ((carriedTools previous).map LockedTool.binding).Nodup)
    (hrun : resolveLockReconcile hash index config previous forced = .ok (lock, touched)) :
    SharesPins config lock.tools ↔
      (LockRequest.reconcile previous forced).Sharing hash index config := by
  obtain ⟨resolved, hresolved, rfl, -⟩ := reconcile_eq_ok hrun
  have hmem := fun t => mem_reconciledTools (t := t) hresolved
  rw [sharesPins_buildLock, sharesPins_iff_platforms fun t =>
    asDeclared_of_mem_reconciledTools hprevious hresolved]
  constructor
  · intro hshares
    constructor
    · intro b hfollower hsettled hsource hdrags f s hf hs
      obtain ⟨identifier, hdeclared, hdeclared'⟩ := declared_of_isFollower hfollower
      have hwork := mt (mem_reconcileWork_iff_drags hfollower hsource).1 hdrags
      obtain ⟨hfmem, rfl⟩ := findTool_eq_some hf
      obtain ⟨hsmem, hsb⟩ := findTool_eq_some hs
      refine hshares f ((hmem f).2 (.inl ⟨hfmem, ⟨hwork, hsettled⟩, by simp [hdeclared]⟩)) hfollower
        s ((hmem s).2 (.inl ⟨hsmem, ?_, by simp [hsb, hdeclared']⟩)) hsb
      rw [hsb]
      exact ⟨mt (mem_reconcileWork_source hfollower).1 hwork, hsource⟩
    · intro b hadopts hdrags identifier s hdeclared hs
      -- the follower has an adopted entry, and the source a resolved one
      have hadopt : adoptEntry (carriedTools previous) b = some { s with group := b.group } := by
        unfold adoptEntry
        rw [hs]
        rfl
      have hsource := (mem_reconcileWork_source hadopts.1).2
        ((mem_reconcileWork_iff_drags hadopts.1 hadopts.2.2.2).2 hdrags)
      obtain ⟨r, hr, hrb⟩ := mem_map.1 (hresolved.bindings.mem_iff.2 hsource)
      have hbinding := (adoptEntry_eq_some hadopt).1
      have hplatforms := hshares _ ((hmem _).2 (.inr (.inr (hbinding.symm ▸ ⟨hadopts, hadopt⟩))))
        (hbinding ▸ hadopts.1) r ((hmem r).2 (.inr (.inl hr))) (hbinding ▸ hrb)
      obtain ⟨identifier', hdeclared', hanswer⟩ :=
        hresolved.answered r hr (hrb ▸ isFollower_source)
      rw [hrb, hdeclared, some.injEq] at hdeclared'
      rw [hrb, ← hdeclared', ← hplatforms] at hanswer
      exact hanswer
  · rintro ⟨hcarries, hanswers⟩ f hf hfollower s hs hsource
    rcases (hmem s).1 hs with ⟨hscarried, ⟨hswork, hssettled⟩, -⟩ | hsres | ⟨hadopts, -⟩
    · -- the source stays: the follower stays with it, or adopts its entry
      rw [hsource] at hswork hssettled
      have hfwork := mt (mem_reconcileWork_source hfollower).2 hswork
      have hsfind : findTool (carriedTools previous) f.binding.source = some s :=
        hsource ▸ findTool_of_mem hprevious hscarried
      rcases (hmem f).1 hf with ⟨hfcarried, ⟨-, hfsettled⟩, -⟩ | hfres | ⟨-, hadopt⟩
      · exact hcarries f.binding hfollower hfsettled hssettled
          (mt (mem_reconcileWork_iff_drags hfollower hssettled).2 hfwork) f s
          (findTool_of_mem hprevious hfcarried) hsfind
      · exact absurd (hresolved.bindings.mem_iff.1 (mem_map_of_mem hfres)) hfwork
      · obtain ⟨-, s', hs', -, hplatforms⟩ := adoptEntry_eq_some hadopt
        rw [hsfind, some.injEq] at hs'
        rw [hplatforms, hs']
    · -- the source is resolved: so is the follower, unless it adopts the entry of before
      have hswork := hresolved.bindings.mem_iff.1 (mem_map_of_mem hsres)
      rw [hsource] at hswork
      have hfwork := (mem_reconcileWork_source hfollower).1 hswork
      rcases (hmem f).1 hf with ⟨-, ⟨hwork, -⟩, -⟩ | hfres | ⟨hadopts, hadopt⟩
      · exact absurd hfwork hwork
      · exact hresolved.shares f hfres hfollower s hsres hsource
      · obtain ⟨-, s', hs', -, hplatforms⟩ := adoptEntry_eq_some hadopt
        obtain ⟨identifier, hdeclared, hanswer⟩ :=
          hresolved.answered s hsres (hsource ▸ isFollower_source)
        rw [hsource] at hdeclared hanswer
        have hdrags := (mem_reconcileWork_iff_drags hfollower hadopts.2.2.2).1 hfwork
        rw [hanswers f.binding hadopts hdrags identifier s' hdeclared hs',
          Except.ok.injEq] at hanswer
        rw [hplatforms, hanswer]
    · have hfollower' := hadopts.1
      rw [hsource, isFollower_source] at hfollower'
      exact absurd hfollower' (by decide)

end Reconciled

/-! ### Pins of a lock with touched bindings -/

section Touched

variable {preMutation : ProjectConfig} {previous lock : ProjectLock} {touched : List Binding}

theorem sharesPins_touched_iff (hprevious : (previous.tools.map LockedTool.binding).Nodup)
    (hrun : resolveLockTouched hash index config preMutation previous touched = .ok lock) :
    SharesPins config lock.tools ↔
      (LockRequest.touched preMutation previous touched).Sharing hash index config := by
  obtain ⟨work, resolved, hresolved, hperm, hcoherent, rfl⟩ := touched_eq_ok hrun
  have hnew := fun b => hperm.mem_iff (a := b)
  -- a follower is carried exactly when its family is at rest
  have hrest : ∀ b, isFollower config b = true →
      (b ∉ expandTouched config (some previous) touched ↔
        ∀ b' ∈ family config b.name, b' ∉ touched ∧ ¬ Respelled config (some previous) b') := by
    intro b hfollower
    have hfamily : b ∈ family config b.name := mem_family.2 ⟨rfl, .inr hfollower⟩
    rw [mem_expandTouched_of_mem_family hfamily, not_exists]
    refine forall_congr' fun b' => ?_
    rw [not_and]
    refine imp_congr_right fun _ => ?_
    exact not_or
  rw [sharesPins_buildLock, sharesPins_iff_platforms fun t =>
    asDeclared_of_coherence hresolved hperm hcoherent]
  constructor
  · intro hshares b hfollower hfamily f s hf hs
    have hb := (hrest b hfollower).2 hfamily
    obtain ⟨identifier, hdeclared, hdeclared'⟩ := declared_of_isFollower hfollower
    obtain ⟨hfmem, rfl⟩ := findTool_eq_some hf
    obtain ⟨hsmem, hsb⟩ := findTool_eq_some hs
    refine hshares f (mem_mergeCarryForward.2 (.inl ⟨hfmem, ?_, by simp [hdeclared]⟩)) hfollower s
      (mem_mergeCarryForward.2 (.inl ⟨hsmem, ?_, by simp [hsb, hdeclared']⟩)) hsb
    · rwa [hnew]
    · rwa [hnew, hsb, source_mem_expandTouched hfollower]
  · intro hcarries f hf hfollower s hs hsb
    rcases mem_mergeCarryForward.1 hs with ⟨hsmem, hsnot, -⟩ | hsres
    · rw [hnew, hsb] at hsnot
      have hfnot := mt (source_mem_expandTouched hfollower).2 hsnot
      rcases mem_mergeCarryForward.1 hf with ⟨hfmem, -⟩ | hfres
      · exact hcarries f.binding hfollower ((hrest _ hfollower).1 hfnot) f s
          (findTool_of_mem hprevious hfmem) (hsb ▸ findTool_of_mem hprevious hsmem)
      · exact absurd ((hnew _).1 (mem_map_of_mem (f := LockedTool.binding) hfres)) hfnot
    · have hsmem := (hnew _).1 (mem_map_of_mem (f := LockedTool.binding) hsres)
      rw [hsb, source_mem_expandTouched hfollower] at hsmem
      rcases mem_mergeCarryForward.1 hf with ⟨-, hfnot, -⟩ | hfres
      · exact absurd ((hnew _).2 hsmem) hfnot
      · exact hresolved.shares f hfres hfollower s hsres hsb

end Touched

/-- **Shared pins.** In every lock that a request produces, each follower has the repository and the
leaves of its source, exactly when the entries it carries forward together were shared before, and
no follower adopts leaves that its source loses in the same run. -/
theorem sharesPins_iff (hash : Declarations → String) (index : LockIndex) (config : ProjectConfig)
    (request : LockRequest) (lock : ProjectLock)
    (hprevious : (request.previousTools.map LockedTool.binding).Nodup)
    (hrun : request.run hash index config = .ok lock) :
    SharesPins config lock.tools ↔ request.Sharing hash index config := by
  cases request with
  | resolve groups => exact iff_of_true (sharesPins_resolveLock hrun) trivial
  | touched preMutation previous touched => exact sharesPins_touched_iff hprevious hrun
  | reconcile previous forced =>
    cases hreconcile : resolveLockReconcile hash index config previous forced with
    | error e =>
      simp only [LockRequest.run, hreconcile] at hrun
      exact absurd hrun (by simp [Functor.map, Except.map])
    | ok result =>
      simp only [LockRequest.run, hreconcile] at hrun
      cases hrun
      exact sharesPins_reconcile_iff hprevious hreconcile

/-- A follower and its source that shared their leaves are carried forward together. -/
theorem sharesPins_fresh :
    ∃ lock, (LockRequest.reconcile (some (literalLock "3.28" (repeatedDigest 'a'))) []).run
        (fun _ => "") (leafIndex (repeatedDigest 'b')) followingConfig = .ok lock ∧
      SharesPins followingConfig lock.tools := by
  have hleaf : ∀ t ∈ (literalLock "3.28" (repeatedDigest 'a')).tools,
      t.platforms = (∅ : Platforms).insert "any" (repeatedDigest 'a') := by
    simp [literalLock, ungroupedLock, toolEntry]
  obtain ⟨lock, hrun⟩ : ∃ lock, (LockRequest.reconcile
      (some (literalLock "3.28" (repeatedDigest 'a'))) []).run (fun _ => "")
        (leafIndex (repeatedDigest 'b')) followingConfig = .ok lock := ⟨_, rfl⟩
  refine ⟨lock, hrun, (sharesPins_iff _ _ _ _ lock (by decide) hrun).2 ⟨?_, ?_⟩⟩
  · intro b _ _ _ _ f s hf hs
    rw [hleaf f (findTool_eq_some hf).1, hleaf s (findTool_eq_some hs).1]
  · intro b hadopts
    have hmem := mem_reconcileAdopting.2 hadopts
    cases hmem

/-- A literal that becomes a follower of the same spelling keeps its own leaf. -/
theorem literal_follower_keeps_leaf :
    ((literalLock "3.28" (repeatedDigest 'c')).tools.map LockedTool.binding).Nodup ∧
      ∃ lock, (LockRequest.reconcile (some (literalLock "3.28" (repeatedDigest 'c'))) []).run
          (fun _ => "") (leafIndex (repeatedDigest 'b')) followingConfig = .ok lock ∧
        ¬ SharesPins followingConfig lock.tools := by
  refine ⟨by decide, _, rfl, fun hshares => ?_⟩
  have hplatforms := (hshares (recordDeclared followingConfig
      (toolEntry "cmake" "ci" "3.28" (repeatedDigest 'c'))) mem_cons_self rfl
    (recordDeclared followingConfig (toolEntry "cmake" defaultGroup "3.28" (repeatedDigest 'a')))
    (mem_cons_of_mem _ mem_cons_self) rfl).2
  have hleaf := congrArg (fun platforms : Platforms => platforms["any"]?) hplatforms
  exact absurd hleaf (by decide)

end Ocx
