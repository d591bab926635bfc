import Ocx.Project.Reconcile

/-!
# Locking touched bindings

Adding or removing a tool resolves the bindings it touches and carries every other entry of the
predecessor forward.  The predecessor is a file that may have been edited by hand, so what it says
of the other bindings is checked first.
-/

namespace Ocx

open List

variable {hash : Declarations → String} {index : LockIndex}
  {candidate preMutation : ProjectConfig} {previous lock : ProjectLock}
  {touched : List Binding} {b : Binding} {t p : LockedTool}

/-- An entry is the one the predecessor has for its binding: the predecessor recorded no other
spelling than the declared one, and its repository and leaves are kept. -/
structure KeptFrom (candidate : ProjectConfig) (previous t : LockedTool) : Prop where
  binding : previous.binding = t.binding
  repository : previous.repository = t.repository
  platforms : previous.platforms = t.platforms
  spelling : ∀ declared, previous.declared = some declared →
    (declaredIdentifier candidate t.binding).map PackageRef.toString = some declared

theorem nodup_of_carryEntry {stale : ProjectErrorKind} {tools : List LockedTool}
    {carried carried' : Std.ExtTreeMap Binding LockedTool}
    (h : tools.foldlM (carryEntry stale touched) carried = .ok carried') :
    ((tools.filter fun t => t.binding ∉ touched).map LockedTool.binding).Nodup ∧
      ∀ t ∈ tools, t.binding ∉ touched → t.binding ∉ carried := by
  induction tools generalizing carried with
  | nil => simp
  | cons u tools ih =>
    obtain ⟨carried₁, hu, h⟩ := bind_eq_ok_iff.1 h
    obtain ⟨hnodup, hfresh⟩ := ih h
    unfold carryEntry at hu
    rw [forall_mem_cons]
    split_ifs at hu with htouched hcarried
    · cases hu
      rw [filter_cons_of_neg (by simpa using htouched)]
      exact ⟨hnodup, fun hnot => absurd htouched hnot, hfresh⟩
    · cases hu
      simp only [Std.ExtTreeMap.mem_insert, Std.LawfulEqCmp.compare_eq_iff_eq, not_or] at hfresh
      rw [filter_cons_of_pos (by simpa using htouched), map_cons, nodup_cons]
      refine ⟨⟨?_, hnodup⟩, fun _ => hcarried, fun t ht hnot => (hfresh t ht hnot).2⟩
      intro hmem
      obtain ⟨t, ht, htu⟩ := mem_map.1 hmem
      obtain ⟨ht, hnot⟩ := mem_filter.1 ht
      exact (hfresh t ht (by simpa using hnot)).1 htu.symm

theorem nodup_of_coherence
    (h : validatePredecessorCoherence hash candidate previous touched = .ok ()) :
    ((previous.tools.filter fun t => t.binding ∉ touched).map LockedTool.binding).Nodup := by
  obtain ⟨carried, hcarried, -⟩ := bind_eq_ok_iff.1 h
  exact (nodup_of_carryEntry hcarried).1

theorem eq_of_coherence
    (h : validatePredecessorCoherence hash candidate previous touched = .ok ())
    (ht : t ∈ previous.tools) (hp : p ∈ previous.tools) (heq : p.binding = t.binding)
    (hnot : t.binding ∉ touched) : p = t := by
  refine inj_on_of_nodup_map (nodup_of_coherence h) ?_ ?_ heq
  · exact mem_filter.2 ⟨hp, by simpa [heq] using hnot⟩
  · exact mem_filter.2 ⟨ht, by simpa using hnot⟩

theorem asDeclared_of_coherence {work : List (Binding × PackageRef)} {resolved : List LockedTool}
    (hresolved : Resolves index candidate work resolved)
    (hnew : (resolved.map LockedTool.binding).Perm touched)
    (h : validatePredecessorCoherence hash candidate previous touched = .ok ())
    (ht : t ∈ mergeCarryForward previous.tools resolved candidate) : AsDeclared candidate t := by
  rcases mem_mergeCarryForward.1 ht with ⟨hprevious, hnot, hsome⟩ | ht
  · obtain ⟨identifier, hidentifier⟩ := Option.isSome_iff_exists.1 hsome
    rw [hnew.mem_iff] at hnot
    obtain ⟨u, hu, hub, hrepository⟩ := entry_of_coherence h hidentifier hnot
    rw [eq_of_coherence h hprevious hu hub hnot] at hrepository
    exact ⟨identifier, hidentifier, hrepository⟩
  · exact hresolved.repository t ht

/-- **Touched bindings.** The lock has exactly one entry for each declared binding and describes the
declarations.  A binding that does not move with those touched has one entry in the predecessor, and
keeps its pins; it was not declared with another spelling. -/
theorem resolveLockTouched_moves_only_touched (hash : Declarations → String) (index : LockIndex)
    (candidate preMutation : ProjectConfig) (previous : ProjectLock) (touched : List Binding)
    (lock : ProjectLock)
    (hrun : resolveLockTouched hash index candidate preMutation previous touched = .ok lock) :
    LocksExactly candidate lock ∧
      (∀ t ∈ lock.tools, t.binding ∉ expandTouched candidate (some previous) touched →
        (∃ p ∈ previous.tools, p.binding = t.binding) ∧
          ∀ p ∈ previous.tools, p.binding = t.binding → KeptFrom candidate p t) ∧
      lock.isCurrent hash candidate = true := by
  obtain ⟨work, resolved, hresolved, hnew, hcoherent, rfl⟩ := touched_eq_ok hrun
  have hdeclared := fun t => asDeclared_of_coherence (t := t) hresolved hnew hcoherent
  refine ⟨⟨?_, fun b => ⟨?_, ?_⟩⟩, ?_, ?_⟩
  · rw [map_binding_buildLock, nodup_mergeCarryForward_iff]
    · exact hnew.nodup_iff.2 (nodup_expandTouched _ _ _)
    · simpa only [hnew.mem_iff] using nodup_of_coherence hcoherent
  · rw [map_binding_buildLock]
    intro hb
    obtain ⟨t, ht, rfl⟩ := mem_map.1 hb
    obtain ⟨identifier, hidentifier, -⟩ := hdeclared t ht
    rw [hidentifier]
    rfl
  · intro hsome
    rw [map_binding_buildLock]
    by_cases hb : b ∈ resolved.map LockedTool.binding
    · obtain ⟨t, ht, rfl⟩ := mem_map.1 hb
      exact mem_map_of_mem (mem_mergeCarryForward.2 (.inr ht))
    · obtain ⟨identifier, hidentifier⟩ := Option.isSome_iff_exists.1 hsome
      obtain ⟨t, ht, rfl, -⟩ := entry_of_coherence hcoherent hidentifier (mt hnew.mem_iff.2 hb)
      exact mem_map_of_mem (mem_mergeCarryForward.2 (.inl ⟨ht, hb, hsome⟩))
  · intro _ hmem hnot
    obtain ⟨t, ht, rfl⟩ := mem_map.1 hmem
    rw [binding_recordDeclared] at hnot
    rcases mem_mergeCarryForward.1 ht with ⟨hprevious, -, -⟩ | ht
    · refine ⟨⟨t, hprevious, rfl⟩, fun p hp heq => ?_⟩
      obtain rfl := eq_of_coherence hcoherent hprevious hp heq hnot
      refine ⟨rfl, rfl, rfl, fun declared hspelling => ?_⟩
      obtain ⟨identifier, hidentifier, -⟩ := hdeclared p ht
      rw [binding_recordDeclared, hidentifier]
      -- a binding with another spelling would have moved
      by_contra hother
      refine hnot (mem_expandTouched.2 (.inl (.inr ⟨identifier, hidentifier, ?_⟩)))
      obtain ⟨q, hq⟩ := Option.isSome_iff_exists.1
        (isSome_findTool_iff.2 (mem_map_of_mem (f := LockedTool.binding) hprevious))
      obtain ⟨hqmem, hqb⟩ := findTool_eq_some hq
      obtain rfl := eq_of_coherence hcoherent hprevious hqmem hqb hnot
      unfold respelled
      have hfind : findTool (carriedTools (some previous)) q.binding = some q := hq
      rw [hfind, Option.bind_some, hspelling]
      exact decide_eq_true fun hsame => hother (congrArg some hsame.symm)
    · exact absurd (hnew.mem_iff.1 (mem_map_of_mem (f := LockedTool.binding) ht)) hnot
  · unfold ProjectLock.isCurrent
    rw [Bool.and_eq_true, all_eq_true]
    refine ⟨decide_eq_true rfl, fun _ hmem => ?_⟩
    obtain ⟨t, ht, rfl⟩ := mem_map.1 hmem
    obtain ⟨identifier, hidentifier, hrepository⟩ := hdeclared t ht
    unfold declarationOf
    rw [binding_recordDeclared, hidentifier]
    simp [recordDeclared, hrepository]

/-- A touched follower moves with its source, and the other tool keeps its leaf. -/
theorem untouched_project_locks :
    ∃ lock, resolveLockTouched (fun _ => "") (leafIndex (repeatedDigest 'b')) followingConfig
        followingConfig (literalLock "3.28" (repeatedDigest 'c')) [⟨"ci", "cmake"⟩] = .ok lock ∧
      lock.tools.map (fun t => (t.binding, t.platforms["any"]?)) =
        [(⟨"ci", "cmake"⟩, some (repeatedDigest 'b')),
          (⟨defaultGroup, "cmake"⟩, some (repeatedDigest 'b')),
          (⟨defaultGroup, "ninja"⟩, some (repeatedDigest 'a'))] ∧
      LocksExactly followingConfig lock :=
  ⟨_, rfl, by decide, (resolveLockTouched_moves_only_touched (fun _ => "")
    (leafIndex (repeatedDigest 'b')) _ followingConfig (literalLock "3.28" (repeatedDigest 'c'))
    [⟨"ci", "cmake"⟩] _ rfl).1⟩

end Ocx
