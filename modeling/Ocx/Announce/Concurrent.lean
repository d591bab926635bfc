import Ocx.Announce.Protocol
import Ocx.Announce.Tags
import Ocx.Util.Run

/-!
# Concurrent announces of one package

Several announces of a package run at once, each by its own steps, in any order.  They share the
forge: the main branch, which does not move, and the announce branch of the package.

An announce of an absent or live branch never loses what another has written: its commit must find
the branch where it was read.  A stale or spent branch is repointed without such a check, so that
two announces which found it so overwrite each other (`updated_tag_lost`).  With the check that a
lease makes (`LeaseHeld`), nothing is lost (`branch_keeps_updates`); `InOrder` and `Sound` say what
every step keeps.  The branch descends from main in any case (`branch_descends`).
-/

namespace Ocx.Announce

open Function List Option

variable {ι β : Type}

/-- Announces that share a forge. -/
structure System (ι β : Type) where
  forge : Forge β
  /-- How far each announce is. -/
  phase : ι → Phase β
  /-- The head of the branch that each announce saw when it classified the branch. -/
  seen : ι → Option ℕ
  /-- The tags that each announce observed as gone, in any of its passes. -/
  gone : ι → List String

/-- No announce has begun. -/
def System.start (forge : Forge β) : System ι β where
  forge := forge
  phase _ := .idle
  seen _ := none
  gone _ := []

/-- The head of the branch of a request. -/
def headOf (request : Request) (forge : Forge β) : Option (Commit β) :=
  request.target.commitRepo.bind fun repo =>
    forge.branch repo request.branch

/-- The head that an announce has seen after a step. -/
def seenAfter (request : Request) (forge : Forge β) (phase : Phase β) (seen : Option ℕ) :
    Option ℕ :=
  match phase with
  | .idle => (headOf request forge).map Commit.sha
  | _ => seen

/-- A commit that repoints the branch finds it where its announce saw it. -/
def LeaseHeld (requests : ι → Request) (system : System ι β) (event : ι × Answers β) : Prop :=
  ∀ pending ∈ (system.phase event.1).pending, pending.1 = .reset → event.2.commitFails = false →
    (headOf (requests event.1) system.forge).map Commit.sha = system.seen event.1
deriving Decidable

variable [DecidableEq β] [DecidableEq ι]

/-- The tags that the pass of a step observes as gone. -/
def observedGone (codec : Codec β) (request : Request) (answers : Answers β) (phase : Phase β)
    (forge : Forge β) : List String :=
  match phase with
  | .classified state =>
    match firstPass codec answers request forge state with
    | .ok (_, pass, _) => pass.rebuilt.removed
    | .error _ => []
  | .lost state carried =>
    match secondPass codec answers request forge state carried with
    | .ok (pass, _) => pass.rebuilt.removed
    | .error _ => []
  | _ => []

/-- One announce takes a step. -/
def System.step (codec : Codec β) (requests : ι → Request) (system : System ι β)
    (event : ι × Answers β) : System ι β :=
  let phase := system.phase event.1
  let request := requests event.1
  let moved := advance codec request event.2 phase system.forge
  { forge := moved.2
    phase := Function.update system.phase event.1 moved.1
    seen := Function.update system.seen event.1
      (seenAfter request system.forge phase (system.seen event.1))
    gone := Function.update system.gone event.1
      (system.gone event.1 ++ observedGone codec request event.2 phase system.forge) }

/-! ### Passes -/

/-- The root of a package in a commit. -/
def rootAt (codec : Codec β) (package : String) (commit : Commit β) : Option Root :=
  (commit.tree (rootPath package)).bind codec.parse

variable {pass : Pass β} {committed : Forge β}

section Pass

variable {codec : Codec β} {request : Request} {answers : Answers β} {forge : Forge β}
  {state : BranchState}

/-- The rows of a branch head are those of a root that was read. -/
def BranchHead.Drawn (codec : Codec β) (head : BranchHead β) : Prop :=
  ∃ bytes root, codec.parse bytes = some root ∧ root.get "tags" = some head.tags

/-- The pass rebuilt the root of its base, with rows that were read. -/
def Rebuilds (codec : Codec β) (request : Request) (pass : Pass β) : Prop :=
  ∃ answers carried root, (∀ head ∈ carried, head.Drawn codec) ∧
    rootAt codec request.package.repository pass.base = some root ∧
    observeAndRebuild codec answers (rootBase root pass.base.tree carried) request =
      .ok pass.rebuilt

/-- What is assumed of writing a root: one that was rebuilt from roots that were read reads back. -/
def Codec.ReadsBack (codec : Codec β) : Prop :=
  ∀ request pass, Rebuilds codec request pass →
    codec.parse (codec.serialize pass.rebuilt.root) = some pass.rebuilt.root

omit [DecidableEq β] in
theorem requireRoot_eq_ok_iff {baseRef : String} {bytes : Option β} {committed : β × Root} :
    requireRoot codec request baseRef bytes = .ok committed ↔
      bytes = some committed.1 ∧ codec.parse committed.1 = some committed.2 ∧
        committed.2.asObject.isSome ∧
        ((committed.2.get "name").bind JsonNode.asString).getD "" =
          request.package.registry ++ "/" ++ request.package.repository := by
  obtain ⟨raw, root⟩ := committed
  unfold requireRoot
  cases bytes with
  | none => simp
  | some found =>
    dsimp only
    cases hparse : codec.parse found with
    | none =>
      simp only [reduceCtorEq, some.injEq, false_iff]
      rintro ⟨rfl, h, -⟩
      simp [hparse] at h
    | some parsed =>
      dsimp only
      constructor
      · intro h
        split at h
        · cases h
        · rename_i hobject
          split at h
          · cases h
            exact ⟨rfl, hparse, by simpa [isSome_iff_ne_none] using hobject, ‹_›⟩
          · cases h
      · rintro ⟨h, hroot, hobject, hname⟩
        cases h
        obtain rfl : parsed = root := some.inj (hparse.symm.trans hroot)
        rw [if_neg (by simpa [isSome_iff_ne_none] using hobject), if_pos hname]

variable {unchanged : Bool} {carried : Option (BranchHead β)} {read : RootRead β}

theorem runPass_eq_ok_iff {base : Commit β} {bytes : β}
    {root : Root} :
    runPass codec answers request base carried bytes root = .ok (pass, unchanged) ↔
      pass.base = base ∧
        observeAndRebuild codec answers (rootBase root base.tree carried) request =
          .ok pass.rebuilt ∧
        refuseUnwrittenRefs answers base.tree request.package.repository pass.rebuilt.root root
          pass.rebuilt.files = .ok () ∧
        isUnchanged answers (rootPath request.package.repository) bytes
          (rootBase root base.tree carried).root base.tree pass.rebuilt = .ok unchanged := by
  obtain ⟨passBase, rebuilt⟩ := pass
  unfold runPass
  simp only [bind_eq_ok_iff, Except.ok.injEq, Prod.mk.injEq, Pass.mk.injEq]
  constructor
  · rintro ⟨rebuilt', hrebuilt, ⟨⟩, hrefuse, changed, hchanged, ⟨rfl, rfl⟩, rfl⟩
    exact ⟨rfl, hrebuilt, hrefuse, hchanged⟩
  · rintro ⟨rfl, hrebuilt, hrefuse, hchanged⟩
    exact ⟨rebuilt, hrebuilt, (), hrefuse, unchanged, hchanged, ⟨rfl, rfl⟩, rfl⟩

theorem firstPass_eq_ok_iff :
    firstPass codec answers request forge state = .ok (read, pass, unchanged) ↔
      readCommittedRoot codec answers forge request.target.branchRepo state
          (rootPath request.package.repository) request.branch = .ok read ∧
        ∃ committed, requireRoot codec request
            (if read.onBranch then request.branch else "main") read.bytes =
              .ok committed ∧
          runPass codec answers request read.base read.carried committed.1 committed.2 =
            .ok (pass, unchanged) := by
  unfold firstPass
  simp only [bind_eq_ok_iff, Except.ok.injEq, Prod.mk.injEq]
  constructor
  · rintro ⟨read', hread, committed, hcommitted, pass', hpass, rfl, rfl⟩
    exact ⟨hread, committed, hcommitted, hpass⟩
  · rintro ⟨hread, committed, hcommitted, hpass⟩
    exact ⟨read, hread, committed, hcommitted, (pass, unchanged), hpass, rfl, rfl⟩

omit [DecidableEq β] in
theorem drawn_of_branchHeadTags {repo path name : String}
    (h : branchHeadTags codec answers forge repo path name = .ok carried) :
    ∀ head ∈ carried, head.Drawn codec := by
  unfold branchHeadTags at h
  split at h
  · cases h
    simp
  · obtain ⟨bytes, -, h⟩ := bind_eq_ok_iff.1 h
    split at h
    · cases h
      simp
    · split at h
      · cases h
      · rename_i root hparse
        split at h
        · rename_i rows htags
          cases h
          rintro _ ⟨⟩
          exact ⟨_, root, hparse, htags⟩
        · cases h
          simp

omit [DecidableEq β] in
theorem readCommittedRoot_spec {repo : Option String} {path name : String}
    (h : readCommittedRoot codec answers forge repo state path name = .ok read) :
    read.base.tree path = read.bytes ∧ (∀ head ∈ read.carried, head.Drawn codec) ∧
      (read.base = forge.main ∨
        state = .live ∧ ∃ r, repo = some r ∧ forge.branch r name = some read.base) := by
  unfold readCommittedRoot at h
  split at h
  · rename_i head hlive
    obtain ⟨bytes, hbytes, h⟩ := bind_eq_ok_iff.1 h
    cases h
    refine ⟨(readAt_eq_ok_iff.1 hbytes).2, by simp, .inr ?_⟩
    unfold liveHead at hlive
    split at hlive
    · exact ⟨rfl, _, rfl, hlive⟩
    · cases hlive
  · obtain ⟨bytes, hbytes, h⟩ := bind_eq_ok_iff.1 h
    obtain ⟨carried, hcarried, h⟩ := bind_eq_ok_iff.1 h
    cases h
    refine ⟨(readAt_eq_ok_iff.1 hbytes).2, ?_, .inl rfl⟩
    unfold carriedHead at hcarried
    split at hcarried
    · exact drawn_of_branchHeadTags hcarried
    · cases hcarried
      simp

theorem firstPass_spec
    (h : firstPass codec answers request forge state = .ok (read, pass, unchanged)) :
    Rebuilds codec request pass ∧ (∀ head ∈ read.carried, head.Drawn codec) ∧
      (pass.base = forge.main ∨ state = .live ∧ ∃ repo, request.target.branchRepo = some repo ∧
        forge.branch repo request.branch = some pass.base) := by
  obtain ⟨hread, committed, hcommitted, hpass⟩ := firstPass_eq_ok_iff.1 h
  obtain ⟨hbytes, hparse, -⟩ := requireRoot_eq_ok_iff.1 hcommitted
  obtain ⟨hbase, hrebuilt, -⟩ := runPass_eq_ok_iff.1 hpass
  obtain ⟨htree, hdrawn, hplace⟩ := readCommittedRoot_spec hread
  rw [← hbase] at htree hplace hrebuilt
  refine ⟨⟨answers, read.carried, committed.2, hdrawn, ?_, hrebuilt⟩, hdrawn, hplace⟩
  rw [rootAt, htree, hbytes]
  exact hparse

theorem secondPass_spec (hdrawn : ∀ head ∈ carried, head.Drawn codec)
    (h : secondPass codec answers request forge state carried = .ok (pass, unchanged)) :
    Rebuilds codec request pass ∧ pass.base = retryHead request forge state := by
  obtain ⟨bytes, hread, h⟩ := bind_eq_ok_iff.1 h
  split at h
  · cases h
  · split at h
    · cases h
    · rename_i bytes root hparse
      obtain ⟨hbase, hrebuilt, -⟩ := runPass_eq_ok_iff.1 h
      rw [← hbase] at hread hrebuilt
      refine ⟨⟨answers, carried, root, hdrawn, ?_, hrebuilt⟩, hbase⟩
      rw [rootAt, (readAt_eq_ok_iff.1 hread).2]
      exact hparse

omit [DecidableEq β] in
theorem Rebuilds.rootAt_newCommit (h : Rebuilds codec request pass) (hcodec : codec.ReadsBack)
    (forge : Forge β) :
    rootAt codec request.package.repository (forge.newCommit pass.base pass.rebuilt.files) =
      some pass.rebuilt.root := by
  have hreads := hcodec request pass h
  obtain ⟨answers, carried, root, -, -, hrebuilt⟩ := h
  unfold rootAt Forge.newCommit
  dsimp only
  rw [applyFiles_rootPath hrebuilt]
  exact hreads

omit [DecidableEq β] in
theorem Rebuilds.keeps {tag : String} {root : Root}
    (h : Rebuilds codec request pass) (hadditive : request.curated.additive = true)
    (hreserved : isReservedTag tag = false)
    (hroot : rootAt codec request.package.repository pass.base = some root)
    (htag : tag ∈ committedTagNames root) :
    tag ∈ committedTagNames pass.rebuilt.root ∨ tag ∈ pass.rebuilt.removed := by
  obtain ⟨answers, carried, root', -, hroot', hrebuilt⟩ := h
  obtain rfl : root' = root := some.inj (hroot'.symm.trans hroot)
  exact mem_rebuilt_of_additive hrebuilt hadditive (mem_rootBase htag) hreserved

end Pass

/-! ### What holds in a run -/

/-- The names of the commits of a forge are in use, and determine the commits. -/
structure Named (forge : Forge β) (repo name : String) : Prop where
  main_lt : forge.main.sha < forge.next
  main_mem : forge.main.sha ∈ forge.main.history
  head_lt : ∀ head ∈ forge.branch repo name, head.sha < forge.next
  /-- They determine the commits. -/
  head_eq : ∀ head ∈ forge.branch repo name, head.sha = forge.main.sha → head = forge.main

/-- The requests are of one package, with additive selections, for one branch.  A request for a fork
that is not there yet finds no branch. -/
structure OnePackage (requests : ι → Request) (forge : Forge β) (package repo : String) : Prop where
  package_eq : ∀ i, (requests i).package.repository = package
  additive : ∀ i, (requests i).curated.additive = true
  /-- The commits go to the same repository. -/
  commitRepo_eq : ∀ i, (requests i).target.commitRepo = some repo
  branch_eq : ∀ i, (requests i).target.branchRepo = none →
    forge.branch repo (branchName package) = none

omit [DecidableEq β] [DecidableEq ι] in
theorem OnePackage.branch {requests : ι → Request} {forge : Forge β} {package repo : String}
    (h : OnePackage requests forge package repo) (i : ι) :
    (requests i).branch = branchName package := congrArg branchName (h.package_eq i)

/-- A forge in a run from `start`: the branch is as it was, or it was written in the run. -/
structure Reached (start forge : Forge β) (repo name : String) : Prop where
  main_eq : forge.main = start.main
  /-- Names are not used again. -/
  next_le : start.next ≤ forge.next
  /-- A head that was written in the run has a new name, and main among its ancestors. -/
  branch : forge.branch repo name = start.branch repo name ∨
    ∃ head, forge.branch repo name = some head ∧ start.next ≤ head.sha ∧ head.sha < forge.next ∧
      start.main.sha ∈ head.history

/-- A pass that is about to be committed. -/
structure Passed (codec : Codec β) (request : Request) (start forge : Forge β) (repo : String)
    (gone : List String) (pass : Pass β) : Prop where
  /-- It rebuilt the root of its base. -/
  rebuilds : Rebuilds codec request pass
  /-- The name of its base is in use. -/
  base_lt : pass.base.sha < forge.next
  base_mem : start.main.sha ∈ pass.base.history
  head_eq : ∀ head ∈ forge.branch repo request.branch,
    head.sha = pass.base.sha → head = pass.base
  gone_mem : ∀ tag ∈ pass.rebuilt.removed, tag ∈ gone

/-- What holds of an announce in a run. -/
structure Announcing (codec : Codec β) (request : Request) (start forge : Forge β) (repo : String)
    (phase : Phase β) (seen : Option ℕ) (gone : List String) : Prop where
  /-- One that fast-forwards finds a head that descends from main. -/
  follows : ∀ state ∈ phase.state, state.refUpdate = .fastForward →
    ∀ head ∈ forge.branch repo request.branch,
      start.main.sha ∈ head.history
  /-- One that repoints the branch saw it as it was before the run. -/
  resets : ∀ state ∈ phase.state, state.refUpdate = .reset → ∀ sha ∈ seen, sha < start.next
  drawn : ∀ head ∈ phase.carried, head.Drawn codec
  /-- Its pass. -/
  passed : ∀ pending ∈ phase.pending, Passed codec request start forge repo gone pending.2

/-- A commit was written onto the branch. -/
def Written (start forge forge' : Forge β) (repo name : String) : Prop :=
  ∃ commit, forge'.branch repo name = some commit ∧ commit.sha = forge.next ∧
    forge'.next = forge.next + 1 ∧ forge'.main = forge.main ∧ start.main.sha ∈ commit.history

section Moves

omit [DecidableEq β]

variable {codec : Codec β} {request : Request} {start forge forge' : Forge β} {repo name : String}
  {phase : Phase β} {seen : Option ℕ} {gone : List String}

theorem Reached.refl (start : Forge β) (repo name : String) : Reached start start repo name :=
  ⟨rfl, le_rfl, .inl rfl⟩

theorem Reached.of_sameRefs (h : Reached start forge repo name) (hrefs : forge.SameRefs forge') :
    Reached start forge' repo name where
  main_eq := by rw [hrefs.main, h.main_eq]
  next_le := by rw [hrefs.next]; exact h.next_le
  branch := by rw [hrefs.branch, hrefs.next]; exact h.branch

theorem Reached.of_written (h : Reached start forge repo name)
    (hwritten : Written start forge forge' repo name) : Reached start forge' repo name := by
  obtain ⟨commit, hbranch, hsha, hnext, hmain, hmem⟩ := hwritten
  have hle := h.next_le
  exact ⟨by rw [hmain, h.main_eq], by omega, .inr ⟨commit, hbranch, by omega, by omega, hmem⟩⟩

variable {head : Commit β}

/-- A head was there before the run, or it was written in it. -/
theorem Reached.head_cases (h : Reached start forge repo name)
    (hhead : head ∈ forge.branch repo name) : head ∈ start.branch repo name ∨
      start.next ≤ head.sha ∧ head.sha < forge.next ∧ start.main.sha ∈ head.history := by
  rcases h.branch with hsame | ⟨written, hwritten, hle, hlt, hmem⟩
  · exact .inl (hsame ▸ hhead)
  · obtain rfl : written = head := some.inj (hwritten.symm.trans hhead)
    exact .inr ⟨hle, hlt, hmem⟩

theorem Reached.eq_main (h : Reached start forge repo name) (hnamed : Named start repo name)
    (hhead : head ∈ forge.branch repo name) (hsha : head.sha = start.main.sha) :
    head = start.main := by
  rcases h.head_cases hhead with hold | ⟨hle, -, -⟩
  · exact hnamed.head_eq head hold hsha
  · have := hnamed.main_lt
    omega

theorem Reached.head_lt (h : Reached start forge repo name) (hnamed : Named start repo name)
    (hhead : head ∈ forge.branch repo name) : head.sha < forge.next := by
  rcases h.head_cases hhead with hold | ⟨-, hlt, -⟩
  · exact (hnamed.head_lt head hold).trans_le h.next_le
  · exact hlt

theorem Announcing.of_sameRefs (h : Announcing codec request start forge repo phase seen gone)
    (hrefs : forge.SameRefs forge') :
    Announcing codec request start forge' repo phase seen gone where
  follows := by rw [hrefs.branch]; exact h.follows
  resets := h.resets
  drawn := h.drawn
  passed pending hpending :=
    have hpassed := h.passed pending hpending
    { rebuilds := hpassed.rebuilds
      base_lt := by rw [hrefs.next]; exact hpassed.base_lt
      base_mem := hpassed.base_mem
      head_eq := by rw [hrefs.branch]; exact hpassed.head_eq
      gone_mem := hpassed.gone_mem }

theorem Announcing.of_written (h : Announcing codec request start forge repo phase seen gone)
    (hwritten : Written start forge forge' repo request.branch) :
    Announcing codec request start forge' repo phase seen gone := by
  obtain ⟨commit, hbranch, hsha, hnext, -, hmem⟩ := hwritten
  refine ⟨?_, h.resets, h.drawn, fun pending hpending => ?_⟩
  · intro state hstate hupdate head hhead
    obtain rfl : commit = head := some.inj (hbranch.symm.trans hhead)
    exact hmem
  · have hpassed := h.passed pending hpending
    refine ⟨hpassed.rebuilds, by have := hpassed.base_lt; omega, hpassed.base_mem, ?_,
      hpassed.gone_mem⟩
    intro head hhead heq
    obtain rfl : commit = head := some.inj (hbranch.symm.trans hhead)
    have := hpassed.base_lt
    omega

theorem Announcing.of_ended (h : phase.ended = true) :
    Announcing codec request start forge repo phase seen gone := by
  cases phase with
  | finished _ | failed _ => constructor <;> simp [Phase.state, Phase.carried, Phase.pending]
  | _ => cases h

theorem compareBranch_eq_ahead_iff {base : Commit β} :
    compareBranch base head = .ahead ↔ head.sha ≠ base.sha ∧ base.sha ∈ head.history := by
  unfold compareBranch
  split
  · simp_all
  · split
    · simp_all
    · split <;> simp_all

theorem refUpdate_resolveBranchState (h : forge.branch repo name = some head) :
    (resolveBranchState forge (some repo) name).refUpdate =
      if compareBranch forge.main head = .ahead then .fastForward else .reset := by
  unfold resolveBranchState
  dsimp only
  rw [h]
  dsimp only
  cases compareBranch forge.main head with
  | diverged =>
    dsimp only
    split <;> rfl
  | _ => rfl

theorem AnnounceTarget.commitRepo_of_branchRepo {target : AnnounceTarget}
    (h : target.branchRepo = some repo) : target.commitRepo = some repo := by
  cases target with
  | out => cases h
  | direct => exact h
  | fork existing created =>
    cases existing with
    | none => cases h
    | some existing => exact h

end Moves

/-! ### One step -/

section Step

variable {codec : Codec β} {request : Request} {answers : Answers β} {start forge : Forge β}
  {repo : String} {phase : Phase β} {seen : Option ℕ} {gone : List String}

omit [DecidableEq β] in
theorem retryHead_cases (hcommit : request.target.commitRepo = some repo) (forge : Forge β)
    (state : BranchState) :
    retryHead request forge state = forge.main ∨
      state.refUpdate = .fastForward ∧
        forge.branch repo request.branch =
          some (retryHead request forge state) := by
  unfold retryHead
  rw [hcommit]
  cases state.refUpdate with
  | reset => exact .inl rfl
  | fastForward =>
    dsimp only
    cases forge.branch repo request.branch with
    | none => exact .inl rfl
    | some head => exact .inr ⟨rfl, rfl⟩

section Hosted

variable (hnamed : Named start repo request.branch)
  (hreached : Reached start forge repo request.branch)

include hnamed hreached

omit [DecidableEq β] in
theorem Passed.of_rebuilds (hrebuilds : Rebuilds codec request pass)
    (hbase : pass.base = start.main ∨
      pass.base ∈ forge.branch repo request.branch ∧
        start.main.sha ∈ pass.base.history)
    (hgone : ∀ tag ∈ pass.rebuilt.removed, tag ∈ gone) :
    Passed codec request start forge repo gone pass := by
  rcases hbase with hmain | ⟨hbranch, hmem⟩
  · refine ⟨hrebuilds, ?_, ?_, ?_, hgone⟩
    · rw [hmain]
      exact hnamed.main_lt.trans_le hreached.next_le
    · rw [hmain]
      exact hnamed.main_mem
    · rw [hmain]
      exact fun head hhead => hreached.eq_main hnamed hhead
  · refine ⟨hrebuilds, hreached.head_lt hnamed hbranch, hmem, ?_, hgone⟩
    exact fun head hhead _ => some.inj (hhead.symm.trans hbranch)

variable (hcommit : request.target.commitRepo = some repo)
  (hfork : request.target.branchRepo = none →
    start.branch repo request.branch = none)

include hcommit hfork

omit [DecidableEq β] in
/-- **Classifying the branch.** A branch that is to be repointed was not written in the run. -/
theorem announcing_classified :
    Announcing codec request start forge repo
      (.classified (resolveBranchState forge request.target.branchRepo
        request.branch))
      ((headOf request forge).map Commit.sha) gone := by
  have hhead : headOf request forge = forge.branch repo request.branch := by
    rw [headOf, hcommit]
    rfl
  -- a head that is not ahead of main was there before the run
  have hold : ∀ head ∈ forge.branch repo request.branch,
      compareBranch forge.main head ≠ .ahead →
        start.branch repo request.branch = some head := by
    intro head hmem hcompare
    rcases hreached.head_cases hmem with hold | ⟨hle, -, hhistory⟩
    · exact hold
    · refine absurd (compareBranch_eq_ahead_iff.2 ?_) hcompare
      rw [hreached.main_eq]
      exact ⟨by have := hnamed.main_lt; omega, hhistory⟩
  cases hrepo : request.target.branchRepo with
  | none =>
    refine ⟨?_, ?_, by simp [Phase.carried], by simp [Phase.pending]⟩
    · rintro state - - head hmem
      rcases hreached.head_cases hmem with hold | ⟨-, -, hhistory⟩
      · rw [hfork hrepo] at hold
        cases hold
      · exact hhistory
    · rintro state hstate hreset
      cases hstate
      cases hreset
  | some repo' =>
    obtain rfl : repo' = repo := some.inj
      ((AnnounceTarget.commitRepo_of_branchRepo hrepo).symm.trans hcommit)
    refine ⟨?_, ?_, by simp [Phase.carried], by simp [Phase.pending]⟩
    · rintro state hstate hupdate head hmem
      cases hstate
      rw [refUpdate_resolveBranchState hmem] at hupdate
      split at hupdate
      · rename_i hahead
        rw [← hreached.main_eq]
        exact (compareBranch_eq_ahead_iff.1 hahead).2
      · cases hupdate
    · rintro state hstate hupdate sha hsha
      cases hstate
      rw [hhead] at hsha
      obtain ⟨head, hmem, rfl⟩ := mem_map.1 hsha
      rw [refUpdate_resolveBranchState hmem] at hupdate
      split at hupdate
      · cases hupdate
      · rename_i hahead
        exact hnamed.head_lt head (hold head hmem hahead)

/-- **The announce that takes a step.** -/
theorem Announcing.advance (h : Announcing codec request start forge repo phase seen gone)
    {phase' : Phase β} {forge' : Forge β}
    (hadvanced : Advanced codec request answers phase forge phase' forge') :
    Announcing codec request start forge' repo phase' (seenAfter request forge phase seen)
      (gone ++ observedGone codec request answers phase forge) := by
  cases hadvanced with
  | stay hended => exact .of_ended hended
  | stop _ hended _ => exact .of_ended hended
  | commit _ _ _ _ _ hended _ => exact .of_ended hended
  | classify => exact announcing_classified hnamed hreached hcommit hfork
  | lose => exact ⟨h.follows, h.resets, h.drawn, by simp [Phase.pending]⟩
  | pass hpass =>
    obtain ⟨hrebuilds, hdrawn, hbase⟩ := firstPass_spec hpass
    refine ⟨h.follows, h.resets, hdrawn, fun pending hpending => ?_⟩
    cases hpending
    refine .of_rebuilds hnamed hreached hrebuilds ?_ ?_
    · rcases hbase with hmain | ⟨rfl, repo', hrepo, hbranch⟩
      · exact .inl (hmain.trans hreached.main_eq)
      · obtain rfl : repo' = repo := some.inj
          ((AnnounceTarget.commitRepo_of_branchRepo hrepo).symm.trans hcommit)
        exact .inr ⟨hbranch, h.follows .live rfl rfl _ hbranch⟩
    · intro tag htag
      simp [observedGone, hpass, htag]
  | repass hpass =>
    rename_i state carried pass
    obtain ⟨hrebuilds, hbase⟩ := secondPass_spec h.drawn hpass
    refine ⟨h.follows, h.resets, by simp [Phase.carried], fun pending hpending => ?_⟩
    cases hpending
    refine .of_rebuilds hnamed hreached hrebuilds ?_ ?_
    · rcases retryHead_cases hcommit forge state with hmain | ⟨hupdate, hbranch⟩
      · exact .inl (hbase.trans (hmain.trans hreached.main_eq))
      · rw [← hbase] at hbranch
        exact .inr ⟨hbranch, h.follows state rfl hupdate _ hbranch⟩
    · intro tag htag
      simp [observedGone, hpass, htag]

end Hosted

theorem Advanced.outcome {phase' : Phase β} {forge' : Forge β}
    (h : Advanced codec request answers phase forge phase' forge')
    (hcommit : request.target.commitRepo = some repo) :
    (forge.SameRefs forge' ∧ ∀ rebuilt ∈ phase'.updated, rebuilt ∈ phase.updated) ∨
      ∃ update pass committed, phase.pending = some (update, pass) ∧ answers.commitFails = false ∧
        forge.commitFiles repo request.branch pass.base
          pass.rebuilt.files update = some committed ∧
        committed.SameRefs forge' ∧ ∀ rebuilt ∈ phase'.updated, rebuilt = pass.rebuilt := by
  cases h with
  | stay _ => exact .inl ⟨.refl _, fun _ h => h⟩
  | stop hrefs _ hupdated =>
    have hnone : phase'.updated = none := hupdated fun hout => by
      rw [hout] at hcommit
      cases hcommit
    exact .inl ⟨hrefs, by simp [hnone]⟩
  | commit hpending hrepo hcommits hcommitted hrefs _ hupdated =>
    cases hrepo.symm.trans hcommit
    exact .inr ⟨_, _, _, hpending, hcommits, hcommitted, hrefs, hupdated⟩
  | classify | pass _ | lose | repass _ => exact .inl ⟨.refl _, by simp [Phase.updated]⟩

omit [DecidableEq β] in
theorem Passed.branch_eq (h : Passed codec request start forge repo gone pass)
    {update : RefUpdate} {forge' : Forge β}
    (hcommitted : forge.commitFiles repo request.branch pass.base
      pass.rebuilt.files update = some committed) (hrefs : committed.SameRefs forge') :
    forge'.branch repo request.branch =
        some (forge.newCommit pass.base pass.rebuilt.files) ∧
      Written start forge forge' repo request.branch := by
  obtain ⟨rfl, -⟩ := Forge.commitFiles_eq_some_iff.1 hcommitted
  have hbranch : forge'.branch repo request.branch =
      some (forge.newCommit pass.base pass.rebuilt.files) := by
    rw [hrefs.branch, Forge.branch_setBranch, if_pos ⟨rfl, rfl⟩]
  exact ⟨hbranch, _, hbranch, rfl, by rw [hrefs.next]; rfl, by rw [hrefs.main]; rfl,
    mem_cons_of_mem _ h.base_mem⟩

end Step

/-! ### Whole runs -/

section Run

variable {codec : Codec β} {requests : ι → Request} {start : Forge β} {package repo tag : String}
  {system : System ι β}

/-- What holds at every point of a run from `start`. -/
structure InOrder (codec : Codec β) (requests : ι → Request) (start : Forge β)
    (package repo : String) (system : System ι β) : Prop where
  reached : Reached start system.forge repo (branchName package)
  announcing : ∀ i, Announcing codec (requests i) start system.forge repo (system.phase i)
    (system.seen i) (system.gone i)

omit [DecidableEq β] [DecidableEq ι] in
theorem inOrder_start :
    InOrder codec requests start package repo (System.start start : System ι β) where
  reached := .refl _ _ _
  announcing i := ⟨by simp [System.start, Phase.state], by simp [System.start, Phase.state],
    by simp [System.start, Phase.carried], by simp [System.start, Phase.pending]⟩

/-- What a step does to the branch. -/
theorem InOrder.forge_step (h : InOrder codec requests start package repo system)
    (hone : OnePackage requests start package repo) (event : ι × Answers β) :
    system.forge.SameRefs (system.step codec requests event).forge ∨
      Written start system.forge (system.step codec requests event).forge repo
        (branchName package) := by
  rw [← hone.package_eq event.1]
  rcases (advanced_advance codec (requests event.1) event.2 (system.phase event.1)
    system.forge).outcome (hone.commitRepo_eq event.1) with
      ⟨hrefs, -⟩ | ⟨_, pass, _, hpending, -, hcommitted, hrefs, -⟩
  · exact .inl hrefs
  · exact .inr (((h.announcing event.1).passed _ hpending).branch_eq hcommitted hrefs).2

/-- **What a step keeps**, whether leases hold or not. -/
theorem InOrder.step (h : InOrder codec requests start package repo system)
    (hone : OnePackage requests start package repo) (hnamed : Named start repo (branchName package))
    (event : ι × Answers β) :
    InOrder codec requests start package repo (system.step codec requests event) := by
  have hbranch := hone.branch event.1
  have hmoved := (h.announcing event.1).advance (by rwa [hbranch])
    (by rw [hbranch]; exact h.reached) (hone.commitRepo_eq event.1)
    (by rw [hbranch]; exact hone.branch_eq event.1)
    (advanced_advance codec (requests event.1) event.2 (system.phase event.1) system.forge)
  -- the new forge suits the announces that do not move
  have hothers : InOrder codec requests start package repo
      { system with forge := (system.step codec requests event).forge } := by
    rcases h.forge_step hone event with hrefs | hwritten
    · exact ⟨h.reached.of_sameRefs hrefs, fun j => (h.announcing j).of_sameRefs hrefs⟩
    · refine ⟨h.reached.of_written hwritten, fun j => (h.announcing j).of_written ?_⟩
      rwa [hone.branch j]
  refine ⟨hothers.reached, fun j => ?_⟩
  have hother := hothers.announcing j
  by_cases hj : j = event.1
  · subst hj
    simp only [System.step, update_self]
    exact hmoved
  · simp only [System.step, update_of_ne hj] at hother ⊢
    exact hother

/-- **The branch descends from main.** Between any two points of a run, leases or not, main stays,
and the branch is as it was or has a head that was written in between, with a new name and main
among its ancestors. -/
theorem branch_descends (codec : Codec β) (requests : ι → Request) (start : Forge β)
    (package repo : String) (past later : List (ι × Answers β))
    (hone : OnePackage requests start package repo)
    (hnamed : Named start repo (branchName package)) :
    Reached (past.foldl (System.step codec requests) (System.start start)).forge
      ((past ++ later).foldl (System.step codec requests) (System.start start)).forge repo
      (branchName package) := by
  have hpast := foldlRecOn past (System.step codec requests)
    (motive := InOrder codec requests start package repo) inOrder_start
    fun _ h event _ => h.step hone hnamed event
  rw [foldl_append]
  generalize past.foldl (System.step codec requests) (System.start start) = middle at hpast ⊢
  refine (foldlRecOn later (System.step codec requests)
    (motive := fun system => InOrder codec requests start package repo system ∧
      Reached middle.forge system.forge repo (branchName package)) ⟨hpast, .refl _ _ _⟩
    fun system h event _ => ⟨h.1.step hone hnamed event, ?_⟩).2
  rcases h.1.forge_step hone event with hrefs | hwritten
  · exact h.2.of_sameRefs hrefs
  · refine h.2.of_written ?_
    rwa [Written, hpast.reached.main_eq]

/-- What holds, for one tag, at every point of a run whose leases hold. -/
structure Sound (codec : Codec β) (requests : ι → Request) (start : Forge β)
    (package repo tag : String) (system : System ι β) : Prop
    extends InOrder codec requests start package repo system where
  /-- After an update the branch was written in the run. -/
  written : ∀ i, ∀ rebuilt ∈ (system.phase i).updated,
    ∃ head ∈ system.forge.branch repo (branchName package), start.next ≤ head.sha
  /-- The tag of an update is on the branch, unless another announce observed it as gone. -/
  kept : ∀ i, ∀ rebuilt ∈ (system.phase i).updated, tag ∈ committedTagNames rebuilt.root →
    (∀ j, j ≠ i → tag ∉ system.gone j) →
      ∃ head ∈ system.forge.branch repo (branchName package),
        ∃ root ∈ rootAt codec package head, tag ∈ committedTagNames root

omit [DecidableEq β] [DecidableEq ι] in
/-- **A commit keeps the tags of updates.** It finds a branch that was written in the run at its
base, so that the pass saw the tag. -/
theorem Sound.kept_of_commit (h : Sound codec requests start package repo tag system) {i j : ι}
    (hone : OnePackage requests start package repo) (hreserved : isReservedTag tag = false)
    {update : RefUpdate}
    (hpending : (system.phase i).pending = some (update, pass))
    (hlease : update = .reset →
      (headOf (requests i) system.forge).map Commit.sha = system.seen i)
    (hcommitted : system.forge.commitFiles repo (branchName package) pass.base pass.rebuilt.files
      update = some committed)
    {rebuilt : Rebuilt β} (hupdated : rebuilt ∈ (system.phase j).updated)
    (htag : tag ∈ committedTagNames rebuilt.root) (hgone : ∀ k, k ≠ j → tag ∉ system.gone k)
    (hij : i ≠ j) : tag ∈ committedTagNames pass.rebuilt.root := by
  have hpackage := hone.package_eq i
  have hpassed := (h.announcing i).passed _ hpending
  obtain ⟨head, hhead, hle⟩ := h.written j rebuilt hupdated
  -- the branch is at the base of the pass
  have hbase : head = pass.base := by
    cases update with
    | reset =>
      -- one that is to be repointed was seen before the run, so the lease does not hold
      obtain ⟨state, hstate, hreset⟩ := Phase.state_of_pending hpending
      have hseen : head.sha ∈ system.seen i := by
        rw [← hlease rfl, headOf, hone.commitRepo_eq i, bind_some, hone.branch i, hhead]
        rfl
      have hlt := (h.announcing i).resets state hstate hreset head.sha hseen
      omega
    | fastForward =>
      rw [← hpackage] at hhead hcommitted
      exact hpassed.head_eq head hhead
        ((Forge.commitFiles_eq_some_iff.1 hcommitted).2 rfl head hhead)
  obtain ⟨head', hhead', root, hroot, hmem⟩ := h.kept j rebuilt hupdated htag hgone
  obtain rfl : head' = head := some.inj (hhead'.symm.trans hhead)
  rw [hbase, ← hpackage] at hroot
  exact (hpassed.rebuilds.keeps (hone.additive i) hreserved hroot hmem).resolve_right
    fun hremoved => hgone i hij (hpassed.gone_mem tag hremoved)

/-- **What a step keeps.** -/
theorem sound_step (hcodec : codec.ReadsBack)
    (hone : OnePackage requests start package repo) (hnamed : Named start repo (branchName package))
    (hreserved : isReservedTag tag = false) (event : ι × Answers β)
    (hlease : LeaseHeld requests system event)
    (h : Sound codec requests start package repo tag system) :
    Sound codec requests start package repo tag (system.step codec requests event) := by
  obtain ⟨i, answers⟩ := event
  set after := system.step codec requests (i, answers) with hafter
  have hpackage := hone.package_eq i
  have horder : InOrder codec requests start package repo after :=
    h.toInOrder.step hone hnamed (i, answers)
  -- what was observed as gone stays so
  have hgone : ∀ j, (∀ k, k ≠ j → tag ∉ after.gone k) →
      ∀ k, k ≠ j → tag ∉ system.gone k := by
    intro j hgone k hk hmem
    refine hgone k hk ?_
    rw [hafter]
    unfold System.step
    dsimp only
    by_cases hki : k = i
    · subst hki
      rw [update_self]
      exact mem_append_left _ hmem
    · rw [update_of_ne hki]
      exact hmem
  have hphase : ∀ j, j ≠ i → after.phase j = system.phase j :=
    fun j hj => update_of_ne hj _ _
  have hphase_self : after.phase i =
      (advance codec (requests i) answers (system.phase i) system.forge).1 :=
    update_self _ _ _
  rcases (advanced_advance codec (requests i) answers (system.phase i) system.forge).outcome
    (hone.commitRepo_eq i) with
      ⟨hrefs, hupdated⟩ | ⟨_, pass, _, hpending, hcommits, hcommitted, hrefs, hupdated⟩
  · have hsame : ∀ j, ∀ rebuilt ∈ (after.phase j).updated,
        rebuilt ∈ (system.phase j).updated := by
      intro j rebuilt hrebuilt
      by_cases hj : j = i
      · subst hj
        exact hupdated rebuilt (hphase_self ▸ hrebuilt)
      · exact hphase j hj ▸ hrebuilt
    have hbranch : after.forge.branch = system.forge.branch := hrefs.branch
    refine ⟨horder, ?_, ?_⟩
    · intro j rebuilt hrebuilt
      rw [hbranch]
      exact h.written j rebuilt (hsame j rebuilt hrebuilt)
    · intro j rebuilt hrebuilt htag hothers
      rw [hbranch]
      exact h.kept j rebuilt (hsame j rebuilt hrebuilt) htag (hgone j hothers)
  · have hpassed := (h.announcing i).passed _ hpending
    have hbranch := (hpassed.branch_eq hcommitted hrefs).1
    have hroot := hpassed.rebuilds.rootAt_newCommit hcodec system.forge
    rw [hone.branch i] at hbranch hcommitted
    rw [hpackage] at hroot
    refine ⟨horder, ?_, ?_⟩
    · intro j rebuilt _
      exact ⟨_, hbranch, h.reached.next_le⟩
    · intro j rebuilt hrebuilt htag hothers
      refine ⟨_, hbranch, _, hroot, ?_⟩
      by_cases hj : j = i
      · subst hj
        rw [← hupdated rebuilt (hphase_self ▸ hrebuilt)]
        exact htag
      · refine h.kept_of_commit hone hreserved hpending (fun hreset => ?_) hcommitted
          (hphase j hj ▸ hrebuilt) htag (hgone j hothers) (Ne.symm hj)
        exact hlease _ hpending hreset hcommits

/-- **No update is lost in a run whose leases hold.** -/
theorem branch_keeps_updates (codec : Codec β) (requests : ι → Request) (start : Forge β)
    (package repo : String) (events : List (ι × Answers β))
    (hcodec : codec.ReadsBack) (hone : OnePackage requests start package repo)
    (hnamed : Named start repo (branchName package))
    (hlease : Along (System.step codec requests) (LeaseHeld requests) (System.start start) events)
    (i : ι) (rebuilt : Rebuilt β) (tag : String)
    (hupdated : rebuilt ∈
      ((events.foldl (System.step codec requests) (System.start start)).phase i).updated)
    (htag : tag ∈ committedTagNames rebuilt.root) (hreserved : isReservedTag tag = false)
    (hgone : ∀ j, j ≠ i →
      tag ∉ (events.foldl (System.step codec requests) (System.start start)).gone j) :
    ∃ head ∈ (events.foldl (System.step codec requests) (System.start start)).forge.branch repo
        (branchName package),
      ∃ root ∈ rootAt codec package head, tag ∈ committedTagNames root := by
  have hstart : Sound codec requests start package repo tag (System.start start) :=
    ⟨inOrder_start, by simp [System.start, Phase.updated], by simp [System.start, Phase.updated]⟩
  have hsound : Sound codec requests start package repo tag
      (events.foldl (System.step codec requests) (System.start start)) :=
    hlease.invariant hstart fun _ event hheld h =>
      sound_step hcodec hone hnamed hreserved event hheld h
  exact hsound.kept i rebuilt hupdated htag hgone

end Run

/-! ### Two announces of one package -/

/-- Roots are their own bytes. -/
def raceCodec : Codec Root where
  hash _ _ := widgetDigest 0
  parse := some
  serialize := id
  parsePointer _ := some "widget"

/-- A commit of the example, with the root of the package. -/
def raceCommit (sha : ℕ) (history : List ℕ) : Commit Root where
  sha := sha
  history := history
  tree path := if path = rootPath "acme/widget" then some (widgetRoot "1" 0) else none

/-- A forge whose announce branch has been merged. -/
def raceForge : Forge Root where
  main := raceCommit 1 [1, 0]
  branch repo name :=
    if repo = indexRepo ∧ name = branchName "acme/widget" then some (raceCommit 0 [0]) else none
  openRequest _ _ := false
  next := 2

/-- The registry of the example has the object under every tag. -/
def raceAnswers : Answers Root where
  guardDestination _ := true
  listTags := .ok []
  observation :=
    ⟨fun _ => .ok (some (.null, widgetDigest 0, .imageIndex ⟨2, none, none, [], none⟩)),
      fun _ => .ok .present⟩
  reobservation := ⟨fun _ => .ok none, fun _ => .ok .present⟩
  probeDescription := .ok none
  pullDescription := .ok none
  readFails _ := false
  commitFails := false
  requestFails := false
  conflicting := .ok false

/-- One announce is of a tag, and the other of another tag. -/
def raceRequests (first : Bool) : Request :=
  { widgetRequest with curated := .unionFile [if first then "2" else "3"] }

/-- The announces take turns. -/
def raceEvents (rounds : ℕ) : List (Bool × Answers Root) :=
  (replicate rounds [(true, raceAnswers), (false, raceAnswers)]).flatten

/-- The first announce is done before the second begins. -/
def inTurnEvents : List (Bool × Answers Root) :=
  replicate 3 (true, raceAnswers) ++ replicate 3 (false, raceAnswers)

/-- The system after some events, from a branch that has been merged. -/
def raceRun (events : List (Bool × Answers Root)) : System Bool Root :=
  events.foldl (System.step raceCodec raceRequests) (System.start raceForge)

theorem onePackage_race : OnePackage raceRequests raceForge "acme/widget" indexRepo :=
  ⟨fun _ => rfl, fun _ => rfl, fun _ => rfl, fun _ h => by cases h⟩

theorem named_race : Named raceForge indexRepo (branchName "acme/widget") := by
  refine ⟨by decide, mem_cons_self, ?_, ?_⟩
  · rintro commit ⟨⟩
    decide
  · rintro commit ⟨⟩ hsha
    exact absurd hsha (by decide)

/-- **An update is lost.** The branch has been merged, and two announces of one package find it so.
Both report an update, and the tag of the first is not on the branch. -/
theorem updated_tag_lost :
    OnePackage raceRequests raceForge "acme/widget" indexRepo ∧
      Named raceForge indexRepo (branchName "acme/widget") ∧
      let final := raceRun (raceEvents 3)
      ((final.phase true).updated.map fun rebuilt => committedTagNames rebuilt.root) =
          some ["1", "2"] ∧
        ((final.phase false).updated.map fun rebuilt => committedTagNames rebuilt.root) =
          some ["1", "3"] ∧
        final.gone false = [] ∧
        ((final.forge.branch indexRepo (branchName "acme/widget")).bind
          fun head => (rootAt raceCodec "acme/widget" head).map committedTagNames) =
            some ["1", "3"] :=
  ⟨onePackage_race, named_race, by decide +kernel⟩

/-- The same announces one after the other: the first repoints the branch under its lease, and the
second keeps the tag of the first. -/
theorem branch_keeps_updates_race :
    ((raceRun (inTurnEvents.take 2)).phase true).pending.map Prod.fst = some .reset ∧
      (((raceRun inTurnEvents).phase false).updated.map
        fun rebuilt => committedTagNames rebuilt.root) = some ["1", "2", "3"] ∧
      ∃ head ∈ (raceRun inTurnEvents).forge.branch indexRepo (branchName "acme/widget"),
        ∃ root ∈ rootAt raceCodec "acme/widget" head, "2" ∈ committedTagNames root := by
  have hrun : (((raceRun inTurnEvents).phase true).updated.map
        fun rebuilt => committedTagNames rebuilt.root) = some ["1", "2"] ∧
      (raceRun inTurnEvents).gone false = [] := by decide +kernel
  have hlease : Along (System.step raceCodec raceRequests) (LeaseHeld raceRequests)
      (System.start raceForge) inTurnEvents := by decide +kernel
  obtain ⟨hfirst, hgone⟩ := hrun
  obtain ⟨rebuilt, hupdated, htags⟩ := map_eq_some_iff.1 hfirst
  have hothers : ∀ j, j ≠ true → "2" ∉ (raceRun inTurnEvents).gone j := by
    intro j hj
    obtain rfl : j = false := by simpa using hj
    exact not_mem_nil
  have htag : "2" ∈ committedTagNames rebuilt.root := by
    rw [htags]
    decide
  refine ⟨by decide +kernel, by decide +kernel, ?_⟩
  exact branch_keeps_updates raceCodec raceRequests raceForge "acme/widget" indexRepo
    inTurnEvents (fun _ _ _ => rfl) onePackage_race named_race hlease true rebuilt
    "2" (mem_def.2 hupdated) htag (by decide) hothers

/-- The run that loses a tag keeps the lineage. -/
theorem branch_descends_race :
    Reached (raceRun (raceEvents 2)).forge (raceRun (raceEvents 2 ++ raceEvents 1)).forge
      indexRepo (branchName "acme/widget") :=
  branch_descends raceCodec raceRequests _ _ _ (raceEvents 2) (raceEvents 1) onePackage_race
    named_race

end Ocx.Announce
