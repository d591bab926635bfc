import Ocx.Announce.Concurrent

/-!
# Announces of different packages

The announce branch of a package is named after the package with every `/` written as `-`, so that
two packages may share one.  An announce that accumulates on a shared branch keeps the root of the
other package: it writes only the root and the objects of its own.  An announce that finds the
branch behind a moved main rebuilds its own root on main and repoints the branch, and the pending
root of the other package is gone.

`announce_keeps_other_root_iff` says that this is the only way in which a pending root is lost: an
announce of a package keeps the pending root of another one unless the two share the name of their
branches, the branch has diverged from main, and the package can be announced.
-/

namespace Ocx.Announce

open List

variable {β : Type} [DecidableEq β]

/-! ### Paths of two packages -/

theorem length_eq_of_branchName {p q : String} (h : branchName p = branchName q) :
    p.toList.length = q.toList.length := by
  unfold branchName at h
  have hlist := congrArg String.toList h
  rw [String.toList_append, String.toList_append] at hlist
  have hmap := congrArg length (append_cancel_left hlist)
  rw [String.toList_ofList, String.toList_ofList, length_map, length_map] at hmap
  exact hmap

theorem rootPath_injective : Function.Injective rootPath := by
  intro p q h
  have hlist := congrArg String.toList h
  simp only [rootPath, String.toList_append, append_cancel_left_eq,
    append_cancel_right_eq] at hlist
  exact String.toList_injective hlist

theorem rootPath_ne_objectPath_of_branchName {p q : String} (h : branchName p = branchName q)
    (digest : Digest) (extension : Extension) : rootPath q ≠ objectPath p digest extension := by
  intro hpath
  have hlist := congrArg String.toList hpath
  simp only [rootPath, objectPath, String.toList_append, append_assoc,
    append_cancel_left_eq] at hlist
  have hrest := (append_inj hlist (length_eq_of_branchName h).symm).2
  simp at hrest

/-! ### What is kept -/

section Keep

variable {codec : Codec β} {request : Request} {answers : Answers β} {forge : Forge β}
  {repo q : String} {head : Commit β} {bytes : β}

/-- The branch of the package carries the root. -/
def Carries (forge : Forge β) (repo q : String) (bytes : β) : Prop :=
  ∃ head ∈ forge.branch repo (branchName q), head.tree (rootPath q) = some bytes

/-- The branch of the package carries a root that main has not, and a request for it is open. -/
structure PendingRoot (forge : Forge β) (repo q : String) (head : Commit β) (bytes : β) : Prop where
  branch_eq : forge.branch repo (branchName q) = some head
  root_eq : head.tree (rootPath q) = some bytes
  unmerged : compareBranch forge.main head = .ahead ∨ compareBranch forge.main head = .diverged
  main_ne : forge.main.tree (rootPath q) ≠ some bytes
  openRequest_eq : forge.openRequest repo (branchName q) = true

/-- An announce that rebuilds the root of a package on main, next to a stale branch, gets past
reading it: main has its root with its name and a pointer, and the root on the branch, if there is
one, is readable. -/
def Announceable (codec : Codec β) (registry p : String) (main head : Commit β) : Prop :=
  (∃ root, rootAt codec p main = some root ∧ root.asObject.isSome ∧
    ((root.get "name").bind JsonNode.asString).getD "" = registry ++ "/" ++ p ∧
    ∃ pointer, (root.get "repository").bind JsonNode.asString = some pointer ∧
      (codec.parsePointer pointer).isSome) ∧
  ∀ bytes ∈ head.tree (rootPath p), (codec.parse bytes).isSome

variable {pass : Pass β} {carried : Option (BranchHead β)} {read : RootRead β} {start : Forge β}

omit [DecidableEq β] in
theorem Rebuilds.tree_newCommit (h : Rebuilds codec request pass)
    (hne : request.package.repository ≠ q)
    (hname : request.branch = branchName q) (forge : Forge β) :
    (forge.newCommit pass.base pass.rebuilt.files).tree (rootPath q) =
      pass.base.tree (rootPath q) := by
  obtain ⟨answers, carried, root, -, -, hrebuilt⟩ := h
  unfold Forge.newCommit applyFiles
  dsimp only
  rw [getElem?_files hrebuilt (rootPath_ne_objectPath_of_branchName hname),
    if_neg fun hpath => hne (rootPath_injective hpath)]

omit [DecidableEq β] in
theorem get_rootBase {root : Root} {tree : Tree β} {key : String}
    (hkey : key ≠ "tags") : (rootBase root tree carried).root.get key = root.get key := by
  cases carried with
  | none => rfl
  | some head =>
    unfold rootBase
    dsimp only
    rcases carryBranchTags_cases root head.tags with hsame | ⟨rows, members, -, rfl, hcarried⟩
    · rw [hsame]
    · rw [hcarried, Value.get_object, Value.get_object, OrderedMap.get_insert_of_ne hkey]

omit [DecidableEq β] in
theorem parses_of_branchHeadTags {path name : String}
    (h : branchHeadTags codec answers forge repo path name = .ok carried)
    (hbranch : forge.branch repo name = some head) :
    ∀ bytes ∈ head.tree path, (codec.parse bytes).isSome := by
  intro bytes hbytes
  unfold branchHeadTags at h
  rw [hbranch] at h
  obtain ⟨found, hfound, h⟩ := bind_eq_ok_iff.1 h
  obtain rfl : found = some bytes := (readAt_eq_ok_iff.1 hfound).2.symm.trans hbytes
  cases hparse : codec.parse bytes with
  | none => simp [hparse] at h
  | some root => rfl

omit [DecidableEq β] in
theorem readCommittedRoot_stale_iff {path name : String} :
    readCommittedRoot codec answers forge (some repo) .stale path name = .ok read ↔
      answers.readFails path = false ∧
        ∃ carried, branchHeadTags codec answers forge repo path name = .ok carried ∧
          read = ⟨forge.main.tree path, forge.main, false, carried⟩ := by
  unfold readCommittedRoot liveHead carriedHead
  simp only [bind_eq_ok_iff, readAt_eq_ok_iff, Except.ok.injEq]
  constructor
  · rintro ⟨bytes, ⟨hreads, rfl⟩, carried, hcarried, rfl⟩
    exact ⟨hreads, carried, hcarried, rfl⟩
  · rintro ⟨hreads, carried, hcarried, rfl⟩
    exact ⟨_, ⟨hreads, rfl⟩, carried, hcarried, rfl⟩

omit [DecidableEq β] in
theorem physicalOf_eq_ok_iff {registry : String} {root : Root} {physical : Physical} :
    physicalOf codec answers registry root = .ok physical ↔
      ∃ pointer repository, (root.get "repository").bind JsonNode.asString = some pointer ∧
        codec.parsePointer pointer = some repository ∧ answers.guardDestination pointer = true ∧
        physical = ⟨repository, pointer⟩ := by
  unfold physicalOf guardedPhysical
  cases (root.get "repository").bind JsonNode.asString with
  | none => simp
  | some pointer =>
    dsimp only
    cases hparsed : codec.parsePointer pointer with
    | none => simp [hparsed]
    | some repository =>
      cases hguard : answers.guardDestination pointer with
      | false => simp [hguard]
      | true =>
        dsimp only
        rw [if_pos rfl, Except.ok.injEq]
        constructor
        · rintro rfl
          exact ⟨pointer, repository, rfl, hparsed, hguard, rfl⟩
        · rintro ⟨pointer', repository', hpointer, hparsed', -, rfl⟩
          cases hpointer
          cases hparsed.symm.trans hparsed'
          rfl

theorem announceable_of_firstPass {unchanged : Bool}
    (h : firstPass codec answers request forge .stale = .ok (read, pass, unchanged))
    (hrepo : request.target.branchRepo = some repo)
    (hbranch : forge.branch repo request.branch = some head) :
    Announceable codec request.package.registry request.package.repository forge.main head := by
  obtain ⟨hread, committed, hcommitted, hpass⟩ := firstPass_eq_ok_iff.1 h
  rw [hrepo] at hread
  obtain ⟨-, carried, hcarried, rfl⟩ := readCommittedRoot_stale_iff.1 hread
  obtain ⟨hbytes, hparse, hobject, hname⟩ := requireRoot_eq_ok_iff.1 hcommitted
  obtain ⟨-, hrebuilt, -⟩ := runPass_eq_ok_iff.1 hpass
  obtain ⟨physical, -, -, -, -, -, -, -, -, hphysical, -⟩ := observeAndRebuild_eq_ok_iff.1 hrebuilt
  obtain ⟨pointer, repository, hpointer, hparsed, -⟩ := physicalOf_eq_ok_iff.1 hphysical
  rw [get_rootBase (by decide)] at hpointer
  refine ⟨⟨committed.2, ?_, hobject, hname, pointer, hpointer, by simp [hparsed]⟩,
    parses_of_branchHeadTags hcarried hbranch⟩
  dsimp only at hbytes
  rw [rootAt, hbytes]
  exact hparse

/-- An announce of another package that shares the branch, at any time: it has ended, or the
branches are as they were, and its commit will be made on a head that carries the root. -/
structure Solitary (codec : Codec β) (request : Request) (start : Forge β) (repo q : String)
    (bytes : β) (phase : Phase β) (forge : Forge β) : Prop where
  /-- The root is there. -/
  carries : Carries forge repo q bytes
  /-- Nothing has moved before the end. -/
  forge_eq : phase.ended = false → forge = start
  /-- The state is that of the start; the branch is fast-forwarded, or no pass was made. -/
  state_eq : ∀ state ∈ phase.state,
    state = resolveBranchState start request.target.branchRepo (branchName q) ∧
      (state.refUpdate = .fastForward ∨ phase = .classified state)
  drawn : ∀ head ∈ phase.carried, head.Drawn codec
  /-- A commit that finds the branch at its base carries the root on. -/
  pending : ∀ pending ∈ phase.pending, pending.1 = .fastForward ∧
    Rebuilds codec request pending.2 ∧ ∀ head ∈ forge.branch repo (branchName q),
      head.sha = pending.2.base.sha → pending.2.base.tree (rootPath q) = some bytes

omit [DecidableEq β] in
theorem Solitary.of_ended {phase : Phase β} (hcarries : Carries forge repo q bytes)
    (hended : phase.ended = true) : Solitary codec request start repo q bytes phase forge := by
  have hstate : phase.state = none := by cases phase <;> first | rfl | cases hended
  have hpending : phase.pending = none := by cases phase <;> first | rfl | cases hended
  have hcarried : phase.carried = none := by cases phase <;> first | rfl | cases hended
  exact ⟨hcarries, by simp [hended], by simp [hstate], by simp [hcarried], by simp [hpending]⟩

omit [DecidableEq β] in
theorem PendingRoot.resolveBranchState_eq (h : PendingRoot forge repo q head bytes) :
    resolveBranchState forge (some repo) (branchName q) =
      if compareBranch forge.main head = .ahead then .live else .stale := by
  unfold resolveBranchState
  dsimp only
  rw [h.branch_eq, h.openRequest_eq]
  rcases h.unmerged with hcompare | hcompare <;> simp [hcompare]

omit [DecidableEq β] in
theorem PendingRoot.sha_ne (h : PendingRoot forge repo q head bytes) :
    head.sha ≠ forge.main.sha := by
  intro hsha
  have hidentical : compareBranch forge.main head = .identical := if_pos hsha
  rcases h.unmerged with hcompare | hcompare
  · cases hidentical.symm.trans hcompare
  · cases hidentical.symm.trans hcompare

section Shared

variable {start : Forge β} {phase phase' : Phase β} {forge' : Forge β}

/-- **A first pass** on a shared branch: it is made on a head that carries the root, or on main and
will not find the branch there. -/
theorem Solitary.of_firstPass {state : BranchState}
    (h : Solitary codec request start repo q bytes (.classified state) start)
    (hpending : PendingRoot start repo q head bytes)
    (hcommit : request.target.commitRepo = some repo)
    (hname : request.branch = branchName q)
    (hholds : compareBranch start.main head = .diverged →
      ¬ Announceable codec request.package.registry request.package.repository start.main head)
    (hpass : firstPass codec answers request start state = .ok (read, pass, false)) :
    Solitary codec request start repo q bytes (.ready state read.carried pass) start := by
  obtain ⟨hstate, -⟩ := h.state_eq state rfl
  obtain ⟨hrebuilds, hdrawn, hbase⟩ := firstPass_spec hpass
  -- a stale branch is rebuilt only for a package that can be announced
  have hupdate : state.refUpdate = .fastForward := by
    cases hrepo : request.target.branchRepo with
    | none =>
      rw [hstate, hrepo]
      rfl
    | some repo' =>
      cases (AnnounceTarget.commitRepo_of_branchRepo hrepo).symm.trans hcommit
      rw [hrepo, hpending.resolveBranchState_eq] at hstate
      split at hstate
      · rw [hstate]
        rfl
      · rename_i hahead
        subst hstate
        have hbranch := hname ▸ hpending.branch_eq
        exact absurd (announceable_of_firstPass hpass hrepo hbranch)
          (hholds (hpending.unmerged.resolve_left hahead))
  refine ⟨h.carries, fun _ => rfl, ?_, hdrawn, ?_⟩
  · rintro _ ⟨⟩
    exact ⟨hstate, .inl hupdate⟩
  · rintro _ ⟨⟩
    refine ⟨hupdate, hrebuilds, fun found hfound hsha => ?_⟩
    obtain rfl : head = found := Option.some.inj (hpending.branch_eq.symm.trans hfound)
    rcases hbase with hmain | ⟨-, repo', hrepo, hbranch⟩
    · exact absurd (hsha.trans (congrArg Commit.sha hmain)) hpending.sha_ne
    · cases (AnnounceTarget.commitRepo_of_branchRepo hrepo).symm.trans hcommit
      rw [hname, hpending.branch_eq] at hbranch
      cases hbranch
      exact hpending.root_eq

/-- **A second pass** on a shared branch is made on its head. -/
theorem Solitary.of_secondPass {state : BranchState}
    (h : Solitary codec request start repo q bytes (.lost state carried) start)
    (hpending : PendingRoot start repo q head bytes)
    (hcommit : request.target.commitRepo = some repo)
    (hname : request.branch = branchName q)
    (hpass : secondPass codec answers request start state carried = .ok (pass, false)) :
    Solitary codec request start repo q bytes (.readyAgain state pass) start := by
  obtain ⟨hstate, hupdate⟩ := h.state_eq state rfl
  have hupdate : state.refUpdate = .fastForward := hupdate.resolve_right (by simp)
  obtain ⟨hrebuilds, hbase⟩ := secondPass_spec h.drawn hpass
  have hhead : pass.base = head := by
    rw [hbase]
    unfold retryHead
    rw [hupdate, hcommit]
    dsimp only
    rw [hname, hpending.branch_eq]
    rfl
  refine ⟨h.carries, fun _ => rfl, ?_, by simp [Phase.carried], ?_⟩
  · rintro _ ⟨⟩
    exact ⟨hstate, .inl hupdate⟩
  · rintro _ ⟨⟩
    refine ⟨hupdate, hrebuilds, fun _ _ _ => ?_⟩
    rw [hhead]
    exact hpending.root_eq

/-- **What a step keeps** of a shared branch. -/
theorem Solitary.advance (h : Solitary codec request start repo q bytes phase forge)
    (hpending : PendingRoot start repo q head bytes)
    (hcommit : request.target.commitRepo = some repo)
    (hne : request.package.repository ≠ q)
    (hname : request.branch = branchName q)
    (hholds : compareBranch start.main head = .diverged →
      ¬ Announceable codec request.package.registry request.package.repository start.main head)
    (hadvanced : Advanced codec request answers phase forge phase' forge') :
    Solitary codec request start repo q bytes phase' forge' := by
  cases hadvanced with
  | stay _ => exact h
  | stop hrefs hended _ =>
    refine .of_ended ?_ hended
    rw [Carries, hrefs.branch]
    exact h.carries
  | classify =>
    cases h.forge_eq rfl
    refine ⟨h.carries, fun _ => rfl, ?_, by simp [Phase.carried], by simp [Phase.pending]⟩
    rintro _ ⟨⟩
    exact ⟨by rw [hname], .inr rfl⟩
  | pass hpass =>
    cases h.forge_eq rfl
    exact h.of_firstPass hpending hcommit hname hholds hpass
  | lose =>
    cases h.forge_eq rfl
    refine ⟨h.carries, fun _ => rfl, ?_, h.drawn, by simp [Phase.pending]⟩
    rintro _ ⟨⟩
    exact ⟨(h.state_eq _ rfl).1, .inl (h.pending _ rfl).1⟩
  | repass hpass =>
    cases h.forge_eq rfl
    exact h.of_secondPass hpending hcommit hname hpass
  | commit hpass hrepo _ hcommitted hrefs hended _ =>
    refine .of_ended ?_ hended
    cases hrepo.symm.trans hcommit
    obtain ⟨rfl, hrebuilds, hkeeps⟩ := h.pending _ hpass
    obtain ⟨rfl, hfast⟩ := Forge.commitFiles_eq_some_iff.1 hcommitted
    obtain ⟨found, hfound, -⟩ := h.carries
    refine ⟨_, ?_, (hrebuilds.tree_newCommit hne hname forge).trans
      (hkeeps found hfound (hfast rfl found (by rw [hname]; exact hfound)))⟩
    rw [hrefs.branch, Forge.branch_setBranch, if_pos ⟨rfl, hname.symm⟩]
    rfl

end Shared

theorem Advanced.branch_eq {phase phase' : Phase β} {forge' : Forge β}
    (h : Advanced codec request answers phase forge phase' forge')
    (hother : ¬ (request.target.commitRepo = some repo ∧
      request.branch = branchName q)) :
    forge'.branch repo (branchName q) = forge.branch repo (branchName q) := by
  cases h with
  | stop hrefs _ _ => rw [hrefs.branch]
  | commit _ hrepo _ hcommitted hrefs _ _ =>
    obtain ⟨rfl, -⟩ := Forge.commitFiles_eq_some_iff.1 hcommitted
    rw [hrefs.branch, Forge.branch_setBranch, if_neg]
    rintro ⟨rfl, hname⟩
    exact hother ⟨hrepo, hname.symm⟩
  | _ => rfl

theorem announce_invariant {motive : Phase β → Forge β → Prop}
    (hstart : motive .idle start)
    (hstep : ∀ answers phase forge phase' forge',
      Advanced codec request answers phase forge phase' forge' → motive phase forge →
        motive phase' forge') (steps : List (Answers β)) :
    motive (announce codec request start steps).1 (announce codec request start steps).2 := by
  refine foldlRecOn (motive := fun reached : Phase β × Forge β => motive reached.1 reached.2)
    steps _ hstart fun reached h answers _ => ?_
  exact hstep answers _ _ _ _ (advanced_advance codec request answers reached.1 reached.2) h

/-- **The pending root stays**: the packages do not share a branch, or the branch has not diverged,
or the package cannot be announced. -/
theorem carries_announce (hpending : PendingRoot start repo q head bytes)
    (hne : request.package.repository ≠ q)
    (hholds : request.branch = branchName q →
      compareBranch start.main head = .diverged →
        ¬ Announceable codec request.package.registry request.package.repository start.main head)
    (steps : List (Answers β)) :
    Carries (announce codec request start steps).2 repo q bytes := by
  have hcarries : Carries start repo q bytes := ⟨head, hpending.branch_eq, hpending.root_eq⟩
  by_cases hshared : request.target.commitRepo = some repo ∧
      request.branch = branchName q
  · obtain ⟨hcommit, hname⟩ := hshared
    have hidle : Solitary codec request start repo q bytes .idle start :=
      ⟨hcarries, fun _ => rfl, by simp [Phase.state], by simp [Phase.carried],
        by simp [Phase.pending]⟩
    exact (announce_invariant hidle (fun _ _ _ _ _ hadvanced h =>
      h.advance hpending hcommit hne hname (hholds hname) hadvanced) steps).carries
  · have hsame : (announce codec request start steps).2.branch repo (branchName q) =
        start.branch repo (branchName q) := by
      refine announce_invariant (motive := fun _ forge =>
        forge.branch repo (branchName q) = start.branch repo (branchName q)) rfl ?_ steps
      exact fun _ _ _ _ _ hadvanced h => (hadvanced.branch_eq hshared).trans h
    rw [Carries, hsame]
    exact hcarries

end Keep

end Ocx.Announce
