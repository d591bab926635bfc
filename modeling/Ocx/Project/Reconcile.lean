import Ocx.Project.Resolve

/-!
# Reconciling a lock

Reconciling re-resolves what changed in `ocx.toml` and keeps every other pin.  The result should
have one entry for each declared binding, and reconciling it again should do nothing.

A follower that changed while its source did not adopts the entry of the source.  The set that is
resolved is widened after the adopting followers are taken out of it, and the widening may put them
back: then the follower is both resolved and adopted, and has two entries.  That is the only way in
which reconciling goes wrong.
-/

namespace Ocx

open List

section Statement

variable (hash : Declarations → String) (config : ProjectConfig) (previous : Option ProjectLock)
  (forced : List Binding)

/-- A declared binding is forced, or changed since the predecessor was written. -/
def Unsettled (b : Binding) : Prop :=
  ∃ identifier, declaredIdentifier config b = some identifier ∧
    (b ∈ forced ∨ changed hash config previous b identifier = true)

/-- The predecessor's entry of a declared binding records another spelling. -/
def Respelled (b : Binding) : Prop :=
  ∃ identifier, declaredIdentifier config b = some identifier ∧
    respelled (carriedTools previous) b identifier = true

/-- A follower adopts the entry of its source: it changed without being forced, and its source
stays. -/
def Adopts (b : Binding) : Prop :=
  isFollower config b = true ∧ Unsettled hash config previous forced b ∧ b ∉ forced ∧
    ¬ Unsettled hash config previous forced b.source

/-- A follower of a name is forced or spelled otherwise, which has its whole family resolved. -/
def Drags (name : String) : Prop :=
  ∃ b, isFollower config b = true ∧ b.name = name ∧ (b ∈ forced ∨ Respelled config previous b)

/-- A follower adopts an entry while its family is resolved again. -/
def Clashes : Prop :=
  ∃ b, Adopts hash config previous forced b ∧ Drags config previous forced b.name

/-- The entries of a reconciled lock: carried forward, resolved and adopted. -/
def reconciledTools (resolved : List LockedTool) : List LockedTool :=
  mergeCarryForward (carriedTools previous) (resolved ++
    (reconcileAdopting hash config previous forced).filterMap (adoptEntry (carriedTools previous)))
    config

/-- An entry has the repository its binding is declared with. -/
def AsDeclared (t : LockedTool) : Prop :=
  ∃ identifier, declaredIdentifier config t.binding = some identifier ∧
    t.repository = Repository.ofRef identifier

/-- One entry for each declared binding, and no other. -/
structure LocksExactly (lock : ProjectLock) : Prop where
  /-- No binding has two entries. -/
  nodup : (lock.tools.map LockedTool.binding).Nodup
  /-- The bindings are the declared ones. -/
  mem_iff : ∀ b, b ∈ lock.tools.map LockedTool.binding ↔ (declaredIdentifier config b).isSome

/-- A binding that was not re-resolved keeps the repository and the leaves of the predecessor. -/
def KeepsPins (lock : ProjectLock) (touched : List Binding) : Prop :=
  ∀ t ∈ lock.tools, t.binding ∉ touched → ∃ p ∈ carriedTools previous,
    p.binding = t.binding ∧ p.repository = t.repository ∧ p.platforms = t.platforms

/-- Reconciling again, with whatever index, resolves nothing and gives the same entries. -/
def Settles (lock : ProjectLock) : Prop :=
  ∀ index, ∃ lock', resolveLockReconcile hash index config (some lock) [] = .ok (lock', []) ∧
    lock'.tools = lock.tools

end Statement

variable {hash : Declarations → String} {config : ProjectConfig} {previous : Option ProjectLock}
  {forced : List Binding} {index : LockIndex} {b : Binding}

/-! ### What is resolved and what is adopted -/

theorem mem_reconcileSeed :
    b ∈ reconcileSeed hash config previous forced ↔ Unsettled hash config previous forced b := by
  unfold reconcileSeed Unsettled
  simp [mem_map, mem_filter, Prod.exists, exists_and_right, exists_eq_right, mem_collectWork_none,
    Bool.or_eq_true]

theorem entry_of_settled {identifier : PackageRef}
    (hdeclared : declaredIdentifier config b = some identifier)
    (hsettled : ¬ Unsettled hash config previous forced b) :
    ∃ t, findTool (carriedTools previous) b = some t ∧
      t.repository = Repository.ofRef identifier := by
  have hunchanged : changed hash config previous b identifier = false := by
    rw [Bool.eq_false_iff]
    exact fun h => hsettled ⟨identifier, hdeclared, .inr h⟩
  unfold changed at hunchanged
  cases hfind : findTool (carriedTools previous) b with
  | none => simp [hfind] at hunchanged
  | some t =>
    simp only [hfind, Bool.or_eq_false_iff, decide_eq_false_iff_not, not_not] at hunchanged
    exact ⟨t, rfl, hunchanged.1.2⟩

theorem unsettled_of_respelled (h : Respelled config previous b) :
    Unsettled hash config previous forced b := by
  obtain ⟨identifier, hdeclared, hrespelled⟩ := h
  refine ⟨identifier, hdeclared, .inr ?_⟩
  unfold changed
  cases findTool (carriedTools previous) b with
  | none => rfl
  | some t => simp [hrespelled]

theorem mem_reconcileAdopting :
    b ∈ reconcileAdopting hash config previous forced ↔ Adopts hash config previous forced b := by
  unfold reconcileAdopting Adopts isAdopting
  rw [mem_filter, mem_reconcileSeed]
  simp only [Bool.and_eq_true, Bool.not_eq_true', Bool.eq_false_iff, ne_eq, contains_iff_mem,
    mem_reconcileSeed]
  constructor
  · rintro ⟨hunsettled, ⟨⟨hfollower, hforced⟩, hsource⟩, -⟩
    exact ⟨hfollower, hunsettled, hforced, hsource⟩
  · rintro ⟨hfollower, hunsettled, hforced, hsource⟩
    refine ⟨hunsettled, ⟨⟨hfollower, hforced⟩, hsource⟩, ?_⟩
    -- a source that stays has an entry
    obtain ⟨identifier, -, hdeclared⟩ := declared_of_isFollower hfollower
    obtain ⟨t, hfind, -⟩ := entry_of_settled hdeclared hsource
    obtain ⟨ht, hbinding⟩ := findTool_eq_some hfind
    exact any_eq_true.2 ⟨t, ht, by simpa using hbinding⟩

theorem mem_reconcileWork :
    b ∈ (reconcileWork hash config previous forced).map Prod.fst ↔
      (declaredIdentifier config b).isSome ∧ b ∈ expandTouched config previous
        ((reconcileSeed hash config previous forced).filter fun b =>
          !isAdopting config previous forced (reconcileSeed hash config previous forced) b) := by
  unfold reconcileWork
  rw [← mem_map_fst_collectWork_none]
  simp only [mem_map, mem_filter, contains_iff_mem]
  constructor
  · rintro ⟨w, ⟨hw, hmoving⟩, rfl⟩
    exact ⟨⟨w, hw, rfl⟩, hmoving⟩
  · rintro ⟨⟨w, hw, rfl⟩, hmoving⟩
    exact ⟨w, ⟨hw, hmoving⟩, rfl⟩

theorem stirred_iff :
    Stirred config previous ((reconcileSeed hash config previous forced).filter fun b =>
        !isAdopting config previous forced (reconcileSeed hash config previous forced) b) b ↔
      (Unsettled hash config previous forced b ∧ ¬ Adopts hash config previous forced b) ∨
        Respelled config previous b := by
  refine or_congr_left ?_
  rw [← mem_reconcileSeed, ← mem_reconcileAdopting]
  unfold reconcileAdopting
  rw [mem_filter, mem_filter]
  simp only [Bool.not_eq_true']
  constructor
  · rintro ⟨hseed, hnot⟩
    exact ⟨hseed, fun h => by simp [hnot] at h⟩
  · rintro ⟨hseed, hnot⟩
    refine ⟨hseed, ?_⟩
    rw [Bool.eq_false_iff]
    exact fun h => hnot ⟨hseed, h⟩

theorem notMem_touched_iff :
    b ∉ (reconcileWork hash config previous forced).map Prod.fst ++
        reconcileAdopting hash config previous forced ↔
      b ∉ (reconcileWork hash config previous forced).map Prod.fst ∧
        ¬ Unsettled hash config previous forced b := by
  rw [mem_append, not_or, mem_reconcileAdopting]
  refine and_congr_right fun hwork => not_congr ⟨fun h => h.2.1, fun h => ?_⟩
  by_contra hnot
  obtain ⟨identifier, hdeclared, -⟩ := id h
  refine hwork (mem_reconcileWork.2 ⟨by simp [hdeclared], ?_⟩)
  exact mem_expandTouched.2 (.inl (stirred_iff.2 (.inl ⟨h, hnot⟩)))

/-- A follower of a source that stays is resolved exactly when some follower drags its family
along. -/
theorem mem_reconcileWork_iff_drags (hfollower : isFollower config b = true)
    (hsource : ¬ Unsettled hash config previous forced b.source) :
    b ∈ (reconcileWork hash config previous forced).map Prod.fst ↔
      Drags config previous forced b.name := by
  obtain ⟨identifier, hdeclared, -⟩ := declared_of_isFollower hfollower
  have hfamily : b ∈ family config b.name := mem_family.2 ⟨rfl, .inr hfollower⟩
  rw [mem_reconcileWork, and_iff_right (by simp [hdeclared]),
    mem_expandTouched_of_mem_family hfamily]
  constructor
  · rintro ⟨b', hb', hstirred⟩
    rw [stirred_iff] at hstirred
    obtain ⟨hname, ⟨hdefault, -⟩ | hfollower'⟩ := mem_family.1 hb'
    · -- the source stays
      have heq : b' = b.source := Binding.ext hdefault hname
      rw [heq] at hstirred
      rcases hstirred with ⟨hunsettled, -⟩ | hrespelled
      · exact absurd hunsettled hsource
      · exact absurd (unsettled_of_respelled hrespelled) hsource
    · refine ⟨b', hfollower', hname, ?_⟩
      rcases hstirred with ⟨hunsettled, hnot⟩ | hrespelled
      · -- a follower of a source that stays adopts unless it is forced
        by_contra hneither
        rw [not_or] at hneither
        have heq : b'.source = b.source := Binding.ext rfl hname
        exact hnot ⟨hfollower', hunsettled, hneither.1, heq ▸ hsource⟩
      · exact .inr hrespelled
  · rintro ⟨b', hfollower', hname, hdrags⟩
    refine ⟨b', mem_family.2 ⟨hname, .inr hfollower'⟩, stirred_iff.2 ?_⟩
    rcases hdrags with hforced | hrespelled
    · obtain ⟨identifier', hdeclared', -⟩ := declared_of_isFollower hfollower'
      exact .inl ⟨⟨identifier', hdeclared', .inl hforced⟩, fun hadopts => hadopts.2.2.1 hforced⟩
    · exact .inr hrespelled

open LockedTool

/-! ### The entries of the new lock -/

section Run

variable {lock : ProjectLock} {touched : List Binding} {resolved : List LockedTool}
  {t : LockedTool}

theorem nodup_reconcileWork : ((reconcileWork hash config previous forced).map Prod.fst).Nodup :=
  (nodup_collectWork config none).sublist (filter_sublist.map _)

theorem declared_of_mem_reconcileWork {w : Binding × PackageRef}
    (hw : w ∈ reconcileWork hash config previous forced) :
    declaredIdentifier config w.1 = some w.2 :=
  mem_collectWork_none.1 (mem_filter.1 hw).1

theorem nodup_reconcileAdopting : (reconcileAdopting hash config previous forced).Nodup :=
  (nodup_collectWork config none).sublist
    (filter_sublist.trans (filter_sublist.map Prod.fst))

theorem reconcile_eq_ok
    (hrun : resolveLockReconcile hash index config previous forced = .ok (lock, touched)) :
    ∃ resolved, Resolves index config (reconcileWork hash config previous forced) resolved ∧
      lock = buildLock hash (reconciledTools hash config previous forced resolved) config ∧
      touched = (reconcileWork hash config previous forced).map Prod.fst ++
        reconcileAdopting hash config previous forced := by
  obtain ⟨resolved, hresolved, hrun⟩ := bind_eq_ok_iff.1 hrun
  cases hrun
  exact ⟨resolved, resolveWork_spec nodup_reconcileWork
    (fun w => declared_of_mem_reconcileWork) hresolved, rfl, rfl⟩

theorem map_binding_adopted :
    ((reconcileAdopting hash config previous forced).filterMap
        (adoptEntry (carriedTools previous))).map binding =
      reconcileAdopting hash config previous forced := by
  refine map_binding_filterMap_adoptEntry fun b hb => ?_
  obtain ⟨hfollower, -, -, hsource⟩ := mem_reconcileAdopting.1 hb
  obtain ⟨identifier, -, hdeclared⟩ := declared_of_isFollower hfollower
  obtain ⟨t, hfind, -⟩ := entry_of_settled hdeclared hsource
  simp [hfind]

theorem perm_map_binding_new
    (hresolved : Resolves index config (reconcileWork hash config previous forced) resolved) :
    ((resolved ++ (reconcileAdopting hash config previous forced).filterMap
        (adoptEntry (carriedTools previous))).map binding).Perm
      ((reconcileWork hash config previous forced).map Prod.fst ++
        reconcileAdopting hash config previous forced) := by
  rw [map_append, map_binding_adopted]
  exact hresolved.bindings.append_right _

theorem mem_reconciledTools
    (hresolved : Resolves index config (reconcileWork hash config previous forced) resolved) :
    t ∈ reconciledTools hash config previous forced resolved ↔
      (t ∈ carriedTools previous ∧
        (t.binding ∉ (reconcileWork hash config previous forced).map Prod.fst ∧
          ¬ Unsettled hash config previous forced t.binding) ∧
        (declaredIdentifier config t.binding).isSome) ∨
      t ∈ resolved ∨ Adopts hash config previous forced t.binding ∧
        adoptEntry (carriedTools previous) t.binding = some t := by
  rw [reconciledTools, mem_mergeCarryForward, (perm_map_binding_new hresolved).mem_iff,
    notMem_touched_iff, mem_append, mem_filterMap]
  refine or_congr_right (or_congr_right ⟨?_, fun h => ⟨_, mem_reconcileAdopting.2 h.1, h.2⟩⟩)
  rintro ⟨b, hb, hadopt⟩
  obtain ⟨rfl, -⟩ := adoptEntry_eq_some hadopt
  exact ⟨mem_reconcileAdopting.1 hb, hadopt⟩

theorem nodup_iff_not_clashes (hprevious : ((carriedTools previous).map binding).Nodup)
    (hrun : resolveLockReconcile hash index config previous forced = .ok (lock, touched)) :
    (lock.tools.map binding).Nodup ↔ ¬ Clashes hash config previous forced := by
  obtain ⟨resolved, hresolved, rfl, -⟩ := reconcile_eq_ok hrun
  rw [map_binding_buildLock, reconciledTools,
    nodup_mergeCarryForward_iff (hprevious.sublist (filter_sublist.map _)),
    (perm_map_binding_new hresolved).nodup_iff, nodup_append]
  constructor
  · rintro ⟨-, -, hdisjoint⟩ ⟨b, hadopts, hdrags⟩
    exact hdisjoint b ((mem_reconcileWork_iff_drags hadopts.1 hadopts.2.2.2).2 hdrags) b
      (mem_reconcileAdopting.2 hadopts) rfl
  · intro hnot
    refine ⟨nodup_reconcileWork, nodup_reconcileAdopting, ?_⟩
    intro b hb b' hb' heq
    subst heq
    have hadopts := mem_reconcileAdopting.1 hb'
    exact hnot ⟨b, hadopts, (mem_reconcileWork_iff_drags hadopts.1 hadopts.2.2.2).1 hb⟩

theorem mem_bindings_iff
    (hrun : resolveLockReconcile hash index config previous forced = .ok (lock, touched)) :
    b ∈ lock.tools.map binding ↔ (declaredIdentifier config b).isSome := by
  obtain ⟨resolved, hresolved, rfl, -⟩ := reconcile_eq_ok hrun
  rw [map_binding_buildLock]
  constructor
  · intro hmem
    obtain ⟨t, ht, rfl⟩ := mem_map.1 hmem
    rcases (mem_reconciledTools hresolved).1 ht with
      ⟨-, -, hdeclared⟩ | ht | ⟨⟨-, hunsettled, -⟩, -⟩
    · exact hdeclared
    · obtain ⟨identifier, hdeclared, -⟩ := hresolved.repository t ht
      simp [hdeclared]
    · obtain ⟨identifier, hdeclared, -⟩ := hunsettled
      simp [hdeclared]
  · intro hdeclared
    by_cases hmem : b ∈ (reconcileWork hash config previous forced).map Prod.fst ++
        reconcileAdopting hash config previous forced
    · obtain ⟨t, ht, rfl⟩ := mem_map.1 ((perm_map_binding_new hresolved).mem_iff.2 hmem)
      exact mem_map_of_mem (mem_mergeCarryForward.2 (.inr ht))
    · -- what is not new is settled, so it has an entry to carry forward
      have hsettled := notMem_touched_iff.1 hmem
      obtain ⟨identifier, hidentifier⟩ := Option.isSome_iff_exists.1 hdeclared
      obtain ⟨t, hfind, -⟩ := entry_of_settled hidentifier hsettled.2
      obtain ⟨ht, rfl⟩ := findTool_eq_some hfind
      exact mem_map_of_mem ((mem_reconciledTools hresolved).2 (.inl ⟨ht, hsettled, hdeclared⟩))

theorem keepsPins_of_run
    (hrun : resolveLockReconcile hash index config previous forced = .ok (lock, touched)) :
    KeepsPins previous lock touched := by
  obtain ⟨resolved, hresolved, rfl, rfl⟩ := reconcile_eq_ok hrun
  intro t ht huntouched
  obtain ⟨t, ht', rfl⟩ := mem_map.1 ht
  rcases mem_mergeCarryForward.1 ht' with ⟨hcarried, -⟩ | hnew
  · exact ⟨t, hcarried, rfl, rfl, rfl⟩
  · refine absurd ?_ huntouched
    rw [binding_recordDeclared, ← (perm_map_binding_new hresolved).mem_iff]
    exact mem_map_of_mem (f := binding) hnew

theorem asDeclared_of_mem_reconciledTools (hprevious : ((carriedTools previous).map binding).Nodup)
    (hresolved : Resolves index config (reconcileWork hash config previous forced) resolved)
    (ht : t ∈ reconciledTools hash config previous forced resolved) : AsDeclared config t := by
  rcases (mem_reconciledTools hresolved).1 ht with
    ⟨hcarried, ⟨-, hsettled⟩, hdeclared⟩ | ht | ⟨⟨hfollower, -, -, hsource⟩, hadopt⟩
  · obtain ⟨identifier, hidentifier⟩ := Option.isSome_iff_exists.1 hdeclared
    obtain ⟨u, hfind, hrepository⟩ := entry_of_settled hidentifier hsettled
    rw [findTool_of_mem hprevious hcarried, Option.some.injEq] at hfind
    exact ⟨identifier, hidentifier, hfind ▸ hrepository⟩
  · exact hresolved.repository t ht
  · -- an adopted entry has the repository of a source that is settled
    obtain ⟨-, s, hs, hrepository, -⟩ := adoptEntry_eq_some hadopt
    obtain ⟨identifier, hdeclared, hdeclared'⟩ := declared_of_isFollower hfollower
    obtain ⟨u, hu, hrepository'⟩ := entry_of_settled hdeclared' hsource
    rw [hs, Option.some.injEq] at hu
    exact ⟨identifier, hdeclared, by rw [hrepository, hu, hrepository']⟩

end Run

/-! ### Reconciling again -/

/-- A lock that records the declarations: in order, in the current format, and with the repository
and the spelling of every declared binding. -/
structure Recorded (config : ProjectConfig) (lock : ProjectLock) : Prop where
  /-- The current format. -/
  version : lock.metadata.lockVersion = .v4
  /-- In order. -/
  sorted : lock.tools.Pairwise fun a b => a.binding ≤ b.binding
  /-- An entry is of a declared binding, with its repository and its spelling. -/
  entry : ∀ t ∈ lock.tools, ∃ identifier, declaredIdentifier config t.binding = some identifier ∧
    t.repository = Repository.ofRef identifier ∧ t.declared = some identifier.toString
  complete : ∀ b, (declaredIdentifier config b).isSome → b ∈ lock.tools.map LockedTool.binding

section Again

variable {lock : ProjectLock} {touched : List Binding}

theorem recorded_of_run (hprevious : ((carriedTools previous).map binding).Nodup)
    (hrun : resolveLockReconcile hash index config previous forced = .ok (lock, touched)) :
    Recorded config lock := by
  have hmem := fun b => mem_bindings_iff (b := b) hrun
  obtain ⟨resolved, hresolved, rfl, -⟩ := reconcile_eq_ok hrun
  refine ⟨rfl, ?_, ?_, fun b => (hmem b).2⟩
  · show ((mergeCarryForward _ _ _).map _).Pairwise _
    rw [pairwise_map]
    exact pairwise_insertionSort _ _
  · intro t ht
    obtain ⟨t, htool, rfl⟩ := mem_map.1 ht
    obtain ⟨identifier, hdeclared, hrepository⟩ :=
      asDeclared_of_mem_reconciledTools hprevious hresolved htool
    refine ⟨identifier, hdeclared, hrepository, ?_⟩
    unfold recordDeclared
    rw [hdeclared]
    rfl

theorem Recorded.settled (h : Recorded config lock) (b : Binding) :
    ¬ Unsettled hash config (some lock) [] b := by
  rintro ⟨identifier, hdeclared, hforced | hchanged⟩
  · simp at hforced
  · obtain ⟨t, ht⟩ := Option.isSome_iff_exists.1
      (isSome_findTool_iff.2 (h.complete b (by simp [hdeclared])))
    obtain ⟨hmem, rfl⟩ := findTool_eq_some ht
    obtain ⟨identifier', hdeclared', hrepository, hspelling⟩ := h.entry t hmem
    rw [hdeclared, Option.some.injEq] at hdeclared'
    subst hdeclared'
    have hfind : findTool (carriedTools (some lock)) t.binding = some t := ht
    unfold changed respelled v3Drifted at hchanged
    simp [hfind, hrepository, hspelling, h.version] at hchanged

theorem Recorded.not_respelled (h : Recorded config lock) (b : Binding) :
    ¬ Respelled config (some lock) b := fun hrespelled =>
  @Recorded.settled (fun _ => "") config lock h b (unsettled_of_respelled hrespelled)

theorem resolveWork_nil (index : LockIndex) (config : ProjectConfig) :
    resolveWork index config [] = .ok [] := by
  have horder : (index.schedule []).order = [] := perm_nil.1 (index.schedule []).perm
  unfold resolveWork
  simp only [filter_nil, foldl_nil]
  rw [horder]
  rfl

theorem Recorded.settles (h : Recorded config lock) : Settles hash config lock := by
  intro index
  have hadopting : reconcileAdopting hash config (some lock) [] = [] := by
    rw [eq_nil_iff_forall_not_mem]
    intro b hb
    exact h.settled b (mem_reconcileAdopting.1 hb).2.1
  have hwork : reconcileWork hash config (some lock) [] = [] := by
    rw [← map_eq_nil_iff (f := Prod.fst), eq_nil_iff_forall_not_mem]
    intro b hb
    have hstirred : ∀ b, ¬ Stirred config (some lock)
        ((reconcileSeed hash config (some lock) []).filter fun b =>
          !isAdopting config (some lock) [] (reconcileSeed hash config (some lock) []) b) b := by
      intro b hb
      rcases stirred_iff.1 hb with ⟨hunsettled, -⟩ | hrespelled
      · exact h.settled b hunsettled
      · exact h.not_respelled b hrespelled
    rcases mem_expandTouched.1 (mem_reconcileWork.1 hb).2 with hb | ⟨b', hb', -⟩
    · exact hstirred b hb
    · exact hstirred b' hb'
  refine ⟨buildLock hash (mergeCarryForward lock.tools [] config) config, ?_, ?_⟩
  · unfold resolveLockReconcile
    dsimp only
    rw [hadopting, hwork, resolveWork_nil]
    rfl
  · have hfilter : (lock.tools.filter fun t => !([].any fun r : LockedTool =>
        r.binding = t.binding) && (declaredIdentifier config t.binding).isSome) = lock.tools := by
      refine filter_eq_self.2 fun t ht => ?_
      obtain ⟨identifier, hdeclared, -⟩ := h.entry t ht
      simp [hdeclared]
    have hmerge : mergeCarryForward lock.tools [] config = lock.tools := by
      unfold mergeCarryForward sortTools
      rw [hfilter, append_nil]
      exact h.sorted.insertionSort_eq
    have hrecord : ∀ t ∈ lock.tools, recordDeclared config t = t := by
      intro t ht
      obtain ⟨identifier, hdeclared, -, hspelling⟩ := h.entry t ht
      unfold recordDeclared
      rw [hdeclared, Option.map_some, ← hspelling]
    show (mergeCarryForward lock.tools [] config).map (recordDeclared config) = lock.tools
    rw [hmerge, map_congr_left hrecord, map_id']

end Again

/-- **Reconciling.** Whenever reconciling succeeds, the new lock has one entry for each declared
binding and no other, the bindings that were not re-resolved keep their pins, and reconciling again
does nothing, exactly when no follower adopts an entry while its family is resolved again. -/
theorem reconcile_sound_iff (hash : Declarations → String) (index : LockIndex)
    (config : ProjectConfig) (previous : Option ProjectLock) (forced : List Binding)
    (lock : ProjectLock) (touched : List Binding)
    (hprevious : ((carriedTools previous).map binding).Nodup)
    (hrun : resolveLockReconcile hash index config previous forced = .ok (lock, touched)) :
    (LocksExactly config lock ∧ KeepsPins previous lock touched ∧ Settles hash config lock) ↔
      ¬ Clashes hash config previous forced := by
  constructor
  · rintro ⟨hexactly, -⟩
    exact (nodup_iff_not_clashes hprevious hrun).1 hexactly.nodup
  · intro hnot
    refine ⟨⟨?_, fun b => mem_bindings_iff hrun⟩, keepsPins_of_run hrun, ?_⟩
    · exact (nodup_iff_not_clashes hprevious hrun).2 hnot
    · exact (recorded_of_run hprevious hrun).settles

/-! ### A follower that was a literal -/

/-- A project with two tools, of which the group `ci` follows one. -/
def followingConfig : ProjectConfig where
  tools := ((∅ : Std.ExtTreeMap String PackageRef).insert "ninja"
    ⟨"ocx.sh", "ninja", some "1.12", none⟩).insert "cmake" ⟨"ocx.sh", "cmake", some "3.28", none⟩
  groups := (∅ : Std.ExtTreeMap String Group).insert "ci"
    ⟨(∅ : Std.ExtTreeMap String PackageRef).insert "cmake" ⟨"ocx.sh", "cmake", some "3.28", none⟩,
      (∅ : Std.ExtTreeSet String).insert "cmake"⟩
  reserved g hg := by
    simp only [Std.ExtTreeMap.mem_insert, Std.LawfulEqCmp.compare_eq_iff_eq,
      Std.ExtTreeMap.not_mem_empty, or_false] at hg
    subst hg
    decide
  follows g body hbody n hn := by
    rw [getElem?_insert_eq] at hbody
    split_ifs at hbody
    · cases hbody
      simp only [Std.ExtTreeSet.mem_insert, Std.LawfulEqCmp.compare_eq_iff_eq,
        Std.ExtTreeSet.not_mem_empty, or_false] at hn
      subst hn
      exact ⟨_, by rw [getElem?_insert_eq, if_pos rfl], by rw [getElem?_insert_eq, if_pos rfl]⟩
    · simp at hbody

/-- An index with one leaf for everything. -/
def leafIndex (digest : Digest) : LockIndex where
  retryFetch _ _ := .ok digest
  fetchCandidates _ identifier := .ok (some [(identifier.cloneWithDigest digest, .any)])
  schedule tasks := .inOrder tasks

/-- The entry of a tool. -/
def toolEntry (name group tag : String) (digest : Digest) : LockedTool :=
  ⟨name, group, ⟨"ocx.sh", name⟩, some ("ocx.sh/" ++ name ++ ":" ++ tag),
    (∅ : Platforms).insert "any" digest⟩

/-- The lock of the project before there was the group. -/
def ungroupedLock : ProjectLock :=
  ⟨⟨.v4, ""⟩, [toolEntry "cmake" defaultGroup "3.28" (repeatedDigest 'a'),
    toolEntry "ninja" defaultGroup "1.12" (repeatedDigest 'a')]⟩

/-- The lock of the project when the group had a literal of its own. -/
def literalLock (tag : String) (digest : Digest) : ProjectLock :=
  { ungroupedLock with tools := toolEntry "cmake" "ci" tag digest :: ungroupedLock.tools }

/-- A new follower adopts the entry of its source, and the other tool is carried forward. -/
theorem reconcile_sound_fresh :
    ∃ lock touched, resolveLockReconcile (fun _ => "") (leafIndex (repeatedDigest 'b'))
        followingConfig (some ungroupedLock) [] = .ok (lock, touched) ∧
      LocksExactly followingConfig lock ∧ KeepsPins (some ungroupedLock) lock touched ∧
        Settles (fun _ => "") followingConfig lock := by
  obtain ⟨lock, touched, hrun, hnodup⟩ : ∃ lock touched,
      resolveLockReconcile (fun _ => "") (leafIndex (repeatedDigest 'b')) followingConfig
        (some ungroupedLock) [] = .ok (lock, touched) ∧ (lock.tools.map binding).Nodup :=
    ⟨_, _, rfl, by decide⟩
  exact ⟨lock, touched, hrun, (reconcile_sound_iff _ _ _ _ _ _ _ (by decide) hrun).2
    ((nodup_iff_not_clashes (by decide) hrun).1 hnodup)⟩

/-- A literal of another tag that becomes a follower is locked twice. -/
theorem respelled_follower_locked_twice :
    ((carriedTools (some (literalLock "3.27" (repeatedDigest 'c')))).map
        binding).Nodup ∧
      ∃ lock touched, resolveLockReconcile (fun _ => "") (leafIndex (repeatedDigest 'b'))
          followingConfig (some (literalLock "3.27" (repeatedDigest 'c'))) [] =
            .ok (lock, touched) ∧
        ¬ LocksExactly followingConfig lock := by
  refine ⟨by decide, _, _, rfl, fun hexactly => ?_⟩
  exact absurd hexactly.nodup (by decide)

end Ocx
