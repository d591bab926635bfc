import Ocx.Announce.Rebuild

/-!
# The announce protocol

An announce updates the root of its package on a branch of its own, from which a request to the main
branch is opened.  It classifies the branch, reads the committed root where that state says,
rebuilds it, and commits.  The commit of an absent or live branch must find the branch where it was
read; one that does not is made once more, on the head it lost to.  A stale or spent branch is
rebuilt on the main branch and repointed.

The forge is given by the head of the main branch and the heads of the announce branches.  A commit
knows its ancestors and its tree.  Each step of an announce sees the forge as it is then; between
two steps others may write.
-/

namespace Ocx.Announce

variable {β : Type}

/-! ### The forge -/

structure Commit (β : Type) where
  sha : ℕ
  /-- Its name and those of its ancestors. -/
  history : List ℕ
  tree : Tree β

/-- How a branch stands to the main branch. -/
inductive BranchComparison
  /-- It is the same commit. -/
  | identical
  /-- It has commits of its own, and main has not. -/
  | ahead
  /-- Main has commits of its own, and it has not. -/
  | behind
  | diverged
deriving DecidableEq

def compareBranch (base head : Commit β) : BranchComparison :=
  if head.sha = base.sha then .identical
  else if base.sha ∈ head.history then .ahead
  else if head.sha ∈ base.history then .behind
  else .diverged

/-- Whether a commit may repoint its branch. -/
inductive RefUpdate
  /-- Only onto a commit that descends from the head. -/
  | fastForward
  /-- In any case. -/
  | reset
deriving DecidableEq

/-- The forge: the main branch of the index, and the announce branches with their requests, by
repository and name. -/
structure Forge (β : Type) where
  /-- The head of the main branch. -/
  main : Commit β
  branch : String → String → Option (Commit β)
  openRequest : String → String → Bool
  /-- The name of the next commit. -/
  next : ℕ

namespace Forge

def setBranch (forge : Forge β) (repo name : String) (commit : Commit β) : Forge β :=
  { forge with
    branch := Function.update forge.branch repo
      (Function.update (forge.branch repo) name (some commit))
    next := forge.next + 1 }

def openOrUpdateRequest (forge : Forge β) (repo name : String) : Forge β :=
  { forge with
    openRequest := Function.update forge.openRequest repo
      (Function.update (forge.openRequest repo) name true) }

def newCommit (forge : Forge β) (base : Commit β) (files : FileSet β) : Commit β where
  sha := forge.next
  history := forge.next :: base.history
  tree := applyFiles base.tree files

/-- Commit files onto a branch. A fast-forward is refused unless the head is the base; nothing is
returned then. -/
def commitFiles (forge : Forge β) (repo name : String) (base : Commit β) (files : FileSet β)
    (update : RefUpdate) : Option (Forge β) :=
  let committed := forge.setBranch repo name (forge.newCommit base files)
  match update, forge.branch repo name with
  | .reset, _ => some committed
  | .fastForward, none => some committed
  | .fastForward, some head => if head.sha = base.sha then some committed else none

/-- A commit points the branch to itself, unless it is a fast-forward and the head is another one
than its base. -/
theorem commitFiles_eq_some_iff {forge committed : Forge β} {repo name : String} {base : Commit β}
    {files : FileSet β} {update : RefUpdate} :
    forge.commitFiles repo name base files update = some committed ↔
      committed = forge.setBranch repo name (forge.newCommit base files) ∧
        (update = .fastForward → ∀ head ∈ forge.branch repo name, head.sha = base.sha) := by
  unfold commitFiles
  split
  · simp [eq_comm]
  · rename_i hnone
    simp [hnone, eq_comm]
  · rename_i head hsome
    by_cases hsha : head.sha = base.sha
    · simp [hsome, hsha, eq_comm]
    · simp [hsome, hsha]

theorem branch_setBranch (forge : Forge β) (repo name : String) (commit : Commit β)
    (repo' name' : String) :
    (forge.setBranch repo name commit).branch repo' name' =
      if repo' = repo ∧ name' = name then some commit else forge.branch repo' name' := by
  unfold setBranch
  by_cases hrepo : repo' = repo
  · subst hrepo
    by_cases hname : name' = name
    · subst hname
      simp
    · simp [hname]
  · simp [hrepo]

/-- The main branch and the announce branches of two forges are the same. -/
structure SameRefs (forge forge' : Forge β) : Prop where
  main : forge'.main = forge.main
  branch : forge'.branch = forge.branch
  /-- The name of the next commit. -/
  next : forge'.next = forge.next

theorem SameRefs.refl (forge : Forge β) : forge.SameRefs forge := ⟨rfl, rfl, rfl⟩

theorem sameRefs_openOrUpdateRequest (forge : Forge β) (repo name : String) :
    forge.SameRefs (forge.openOrUpdateRequest repo name) := ⟨rfl, rfl, rfl⟩

end Forge

/-! ### The branch of a package -/

def indexRepo : String := "ocx-sh/index"

/-- The branch of a package. -/
def branchName (package : String) : String :=
  "indexbot-announce-" ++ String.ofList (package.toList.map fun c => if c = '/' then '-' else c)

/-- The branch that a request is about. -/
abbrev Request.branch (request : Request) : String := branchName request.package.repository

/-- What an announce branch is worth. -/
inductive BranchState
  /-- There is none. -/
  | absent
  /-- It has commits that main lacks, on top of main. -/
  | live
  /-- It has commits that main lacks, main has moved, and a request is open. -/
  | stale
  /-- It has nothing that main needs. -/
  | spent
deriving DecidableEq

/-- How the commit lands on the branch. -/
def BranchState.refUpdate : BranchState → RefUpdate
  | .spent | .stale => .reset
  | .absent | .live => .fastForward

/-- Classify the announce branch. -/
def resolveBranchState (forge : Forge β) (repo : Option String) (name : String) : BranchState :=
  match repo with
  | none => .absent
  | some repo =>
    match forge.branch repo name with
    | none => .absent
    | some head =>
      match compareBranch forge.main head with
      | .ahead => .live
      | .identical | .behind => .spent
      | .diverged => if forge.openRequest repo name then .stale else .spent

structure RootRead (β : Type) where
  bytes : Option β
  base : Commit β
  /-- The commit is the head of the announce branch. -/
  onBranch : Bool
  carried : Option (BranchHead β)

/-- The head of the announce branch with the rows of its root; nothing when it has none. -/
def branchHeadTags (codec : Codec β) (answers : Answers β) (forge : Forge β)
    (repo path name : String) :
    Except AnnounceError (Option (BranchHead β)) :=
  match forge.branch repo name with
  | none => .ok none
  | some head => do
    match ← readAt answers head.tree path with
    | none => .ok none
    | some bytes =>
      match codec.parse bytes with
      | none => .error (.rootParse path)
      | some root =>
        match root.get "tags" with
        | some (.object rows) => .ok (some ⟨.object rows, head.tree⟩)
        | _ => .ok none

/-- The rows that a rebuild carries: those of a stale branch. -/
def carriedHead (codec : Codec β) (answers : Answers β) (forge : Forge β) (repo : Option String)
    (state : BranchState) (path name : String) : Except AnnounceError (Option (BranchHead β)) :=
  match repo, state with
  | some repo, .stale => branchHeadTags codec answers forge repo path name
  | _, _ => .ok none

def liveHead (forge : Forge β) (repo : Option String) (state : BranchState) (name : String) :
    Option (Commit β) :=
  match repo, state with
  | some repo, .live => forge.branch repo name
  | _, _ => none

/-- Read the committed root: from the head of a live branch, and otherwise from the main branch. -/
def readCommittedRoot (codec : Codec β) (answers : Answers β) (forge : Forge β)
    (repo : Option String) (state : BranchState) (path name : String) :
    Except AnnounceError (RootRead β) :=
  match liveHead forge repo state name with
  | some head => do
    let bytes ← readAt answers head.tree path
    .ok ⟨bytes, head, true, none⟩
  | none => do
    let bytes ← readAt answers forge.main.tree path
    let carried ← carriedHead codec answers forge repo state path name
    .ok ⟨bytes, forge.main, false, carried⟩

/-! ### One announce -/

def AnnounceTarget.branchRepo : AnnounceTarget → Option String
  | .out => none
  | .direct => some indexRepo
  | .fork existing _ => existing

def AnnounceTarget.commitRepo : AnnounceTarget → Option String
  | .out => none
  | .direct => some indexRepo
  | .fork (some existing) _ => some existing
  | .fork none created => created

/-- Whether an announce changed the root. -/
inductive AnnounceStatus
  /-- It did not. -/
  | unchanged
  | updated
deriving DecidableEq

/-- The result of an announce: its status, and the pass that stands, if it made one. -/
structure Outcome (β : Type) where
  status : AnnounceStatus
  rebuilt : Option (Rebuilt β)

/-- A pass with the commit it was made on. -/
structure Pass (β : Type) where
  base : Commit β
  rebuilt : Rebuilt β

inductive Phase (β : Type)
  /-- It has not begun. -/
  | idle
  | classified (state : BranchState)
  /-- It has rebuilt the root, and is about to commit. -/
  | ready (state : BranchState) (carried : Option (BranchHead β)) (pass : Pass β)
  /-- Its commit was refused. -/
  | lost (state : BranchState) (carried : Option (BranchHead β))
  /-- It has rebuilt the root once more, and is about to commit. -/
  | readyAgain (state : BranchState) (pass : Pass β)
  | finished (outcome : Outcome β)
  | failed (error : AnnounceError)

namespace Phase

/-- The announce has returned or failed. -/
def ended : Phase β → Bool
  | .finished _ | .failed _ => true
  | _ => false

/-- The state of the branch that the announce works with. -/
def state : Phase β → Option BranchState
  | .classified state | .ready state _ _ | .lost state _ | .readyAgain state _ => some state
  | _ => none

/-- The pass that is about to be committed, and how. -/
def pending : Phase β → Option (RefUpdate × Pass β)
  | .ready state _ pass | .readyAgain state pass => some (state.refUpdate, pass)
  | _ => none

/-- The rows of a stale branch that the announce carries. -/
def carried : Phase β → Option (BranchHead β)
  | .ready _ carried _ | .lost _ carried => carried
  | _ => none

/-- The pass of an announce that reports an update. -/
def updated : Phase β → Option (Rebuilt β)
  | .finished ⟨.updated, rebuilt⟩ => rebuilt
  | _ => none

theorem state_of_pending {phase : Phase β} {update : RefUpdate} {pass : Pass β}
    (h : phase.pending = some (update, pass)) :
    ∃ state, phase.state = some state ∧ state.refUpdate = update := by
  cases phase with
  | ready state _ _ | readyAgain state _ =>
    cases h
    exact ⟨state, rfl, rfl⟩
  | _ => cases h

end Phase

variable [DecidableEq β]

/-- The observed objects that no committed row names. -/
def newCasCount (committed : Root) (observed : List (Observed β)) : ℕ :=
  (observed.filter fun entry => entry.content.toString ∉ rowDigests committed).length

def absentAt (answers : Answers β) (tree : Tree β) : List String → Except AnnounceError Bool
  | [] => .ok false
  | path :: rest => do
    match ← readAt answers tree path with
    | none => .ok true
    | some _ => absentAt answers tree rest

/-- The files write an object that the tree does not hold. -/
def hasObjectAbsentAt (answers : Answers β) (tree : Tree β) (rootPath : String)
    (files : FileSet β) : Except AnnounceError Bool :=
  absentAt answers tree (files.keys.filter fun path => path ≠ rootPath ∧ writes files path)

/-- A pass leaves everything as it is: the same root, no new object, and no object that is not
there. -/
def isUnchanged (answers : Answers β) (path : String) (committedBytes : β) (committed : Root)
    (tree : Tree β) (rebuilt : Rebuilt β) : Except AnnounceError Bool :=
  if rebuilt.rootBytes = committedBytes ∧ newCasCount committed rebuilt.observed = 0 then do
    let absent ← hasObjectAbsentAt answers tree path rebuilt.files
    .ok !absent
  else .ok false

/-- The root of the package, which must be an object with its name. -/
def requireRoot (codec : Codec β) (request : Request) (baseRef : String) (bytes : Option β) :
    Except AnnounceError (β × Root) :=
  let package := request.package.repository
  let path := rootPath package
  match bytes with
  | none => .error (.unclaimedPackage package path baseRef)
  | some bytes =>
    match codec.parse bytes with
    | none => .error (.rootParse path)
    | some root =>
      let expected := request.package.registry ++ "/" ++ package
      let committed := ((root.get "name").bind JsonNode.asString).getD ""
      if root.asObject.isNone then .error (.rootNotObject path)
      else if committed = expected then .ok (bytes, root)
      else .error (.rootNameMismatch path committed expected)

/-- A pass on a root, with the check for unwritten references and whether it changes anything. -/
def runPass (codec : Codec β) (answers : Answers β) (request : Request) (base : Commit β)
    (carried : Option (BranchHead β)) (bytes : β) (root : Root) :
    Except AnnounceError (Pass β × Bool) := do
  let package := request.package.repository
  let onto := rootBase root base.tree carried
  let rebuilt ← observeAndRebuild codec answers onto request
  refuseUnwrittenRefs answers base.tree package rebuilt.root root rebuilt.files
  let unchanged ← isUnchanged answers (rootPath package) bytes onto.root base.tree rebuilt
  .ok (⟨base, rebuilt⟩, unchanged)

/-- The first pass: read the committed root and rebuild it. -/
def firstPass (codec : Codec β) (answers : Answers β) (request : Request) (forge : Forge β)
    (state : BranchState) : Except AnnounceError (RootRead β × Pass β × Bool) := do
  let package := request.package.repository
  let read ← readCommittedRoot codec answers forge request.target.branchRepo state
    (rootPath package) (branchName package)
  let committed ← requireRoot codec request (if read.onBranch then branchName package else "main")
    read.bytes
  let pass ← runPass codec answers request read.base read.carried committed.1 committed.2
  .ok (read, pass)

/-- The head a lost commit is made on once more: that of the branch, or of main for a rebuild. -/
def retryHead (request : Request) (forge : Forge β) (state : BranchState) : Commit β :=
  match state.refUpdate, request.target.commitRepo with
  | .fastForward, some repo =>
    (forge.branch repo request.branch).getD forge.main
  | _, _ => forge.main

/-- The second pass: rebuild the root on the head the commit lost to. -/
def secondPass (codec : Codec β) (answers : Answers β) (request : Request) (forge : Forge β)
    (state : BranchState) (carried : Option (BranchHead β)) :
    Except AnnounceError (Pass β × Bool) := do
  let path := rootPath request.package.repository
  let head := retryHead request forge state
  match ← readAt answers head.tree path with
  | none => .error (.missingHeadRoot path)
  | some bytes =>
    match codec.parse bytes with
    | none => .error (.rootParse path)
    | some root => runPass codec answers request head carried bytes root

/-- The selection is an empty file of tags, and there is nothing to yank. -/
def nothingGiven (request : Request) : Bool :=
  match request.curated with
  | .unionFile tags =>
    request.yank.isEmpty && request.unyank.isEmpty && (tags.all isReservedTag)
  | _ => false

/-- Refuse an outcome that moves nothing while the open request of a stale branch cannot be merged.
-/
def refuseIfUnmergeable (answers : Answers β) (state : BranchState) (name : String) :
    Except AnnounceError Unit :=
  match state, answers.conflicting with
  | .stale, .error _ => .error .forge
  | .stale, .ok true => .error (.pullRequestUnmergeable name)
  | _, _ => .ok ()

/-- What follows a first pass that changes nothing: a live branch gets its request. -/
def settle (answers : Answers β) (request : Request) (forge : Forge β) (state : BranchState)
    (onBranch : Bool) (rebuilt : Rebuilt β) : Phase β × Forge β :=
  let name := request.branch
  match refuseIfUnmergeable answers state name with
  | .error e => (.failed e, forge)
  | .ok _ =>
    match onBranch, request.target.branchRepo with
    | true, some repo =>
      if answers.requestFails then (.failed .forge, forge)
      else (.finished ⟨.unchanged, some rebuilt⟩, forge.openOrUpdateRequest repo name)
    | _, _ => (.finished ⟨.unchanged, some rebuilt⟩, forge)

/-- Open the request of a branch that was committed to. -/
def openRequest (answers : Answers β) (request : Request) (forge : Forge β) (repo : String)
    (status : AnnounceStatus) (rebuilt : Rebuilt β) : Phase β × Forge β :=
  if answers.requestFails then (.failed .forge, forge)
  else (.finished ⟨status, some rebuilt⟩,
    forge.openOrUpdateRequest repo request.branch)

/-- What follows a first pass. A directory is written whatever the pass says. -/
def afterFirstPass (answers : Answers β) (request : Request) (forge : Forge β) (state : BranchState)
    (read : RootRead β) (pass : Pass β) (unchanged : Bool) : Phase β × Forge β :=
  if request.target = .out then
    (.finished ⟨if unchanged then .unchanged else .updated, some pass.rebuilt⟩, forge)
  else if unchanged then settle answers request forge state read.onBranch pass.rebuilt
  else (.ready state read.carried pass, forge)

/-- What follows a second pass. One that changes nothing is reported, unless its request cannot be
merged. -/
def afterSecondPass (answers : Answers β) (request : Request) (forge : Forge β)
    (state : BranchState) (repo : String) (pass : Pass β) (unchanged : Bool) :
    Phase β × Forge β :=
  if unchanged then
    match refuseIfUnmergeable answers state request.branch with
    | .error e => (.failed e, forge)
    | .ok _ => openRequest answers request forge repo .unchanged pass.rebuilt
  else (.readyAgain state pass, forge)

/-- One step of an announce. -/
def advance (codec : Codec β) (request : Request) (answers : Answers β) (phase : Phase β)
    (forge : Forge β) : Phase β × Forge β :=
  let name := request.branch
  match phase with
  | .idle =>
    if nothingGiven request then (.finished ⟨.unchanged, none⟩, forge)
    else (.classified (resolveBranchState forge request.target.branchRepo name), forge)
  | .classified state =>
    match firstPass codec answers request forge state with
    | .error e => (.failed e, forge)
    | .ok (read, pass, unchanged) =>
      afterFirstPass answers request forge state read pass unchanged
  | .ready state carried pass =>
    match request.target.commitRepo with
    | none => (.failed .forge, forge)
    | some repo =>
      if answers.commitFails then (.failed .forge, forge)
      else
        match forge.commitFiles repo name pass.base pass.rebuilt.files state.refUpdate with
        | none => (.lost state carried, forge)
        | some committed => openRequest answers request committed repo .updated pass.rebuilt
  | .lost state carried =>
    match request.target.commitRepo, secondPass codec answers request forge state carried with
    | none, _ => (.failed .forge, forge)
    | _, .error e => (.failed e, forge)
    | some repo, .ok (pass, unchanged) =>
      afterSecondPass answers request forge state repo pass unchanged
  | .readyAgain state pass =>
    match request.target.commitRepo with
    | none => (.failed .forge, forge)
    | some repo =>
      if answers.commitFails then (.failed .forge, forge)
      else
        match forge.commitFiles repo name pass.base pass.rebuilt.files state.refUpdate with
        | none => (.failed (.nonFastForward name), forge)
        | some committed => openRequest answers request committed repo .updated pass.rebuilt
  | .finished outcome => (.finished outcome, forge)
  | .failed e => (.failed e, forge)

/-- An announce that is alone: its steps, one after the other. -/
def announce (codec : Codec β) (request : Request) (forge : Forge β) (answers : List (Answers β)) :
    Phase β × Forge β :=
  answers.foldl (fun reached answers => advance codec request answers reached.1 reached.2)
    (.idle, forge)

/-! ### What a step can do -/

/-- What a step of an announce can do. -/
inductive Advanced (codec : Codec β) (request : Request) (answers : Answers β) :
    Phase β → Forge β → Phase β → Forge β → Prop
  /-- It had ended. -/
  | stay {phase forge} : phase.ended = true →
    Advanced codec request answers phase forge phase forge
  /-- It ends, and no branch moves. -/
  | stop {phase forge phase' forge'} : forge.SameRefs forge' → phase'.ended = true →
    (request.target ≠ .out → phase'.updated = none) →
    Advanced codec request answers phase forge phase' forge'
  | classify {forge} : Advanced codec request answers .idle forge
    (.classified (resolveBranchState forge request.target.branchRepo
      request.branch)) forge
  | pass {forge state read pass} :
    firstPass codec answers request forge state = .ok (read, pass, false) →
    Advanced codec request answers (.classified state) forge (.ready state read.carried pass) forge
  /-- It loses the branch to somebody else. -/
  | lose {forge state carried pass} :
    Advanced codec request answers (.ready state carried pass) forge (.lost state carried) forge
  /-- It makes a second pass. -/
  | repass {forge state carried pass} :
    secondPass codec answers request forge state carried = .ok (pass, false) →
    Advanced codec request answers (.lost state carried) forge (.readyAgain state pass) forge
  | commit {phase forge phase' forge' update pass repo committed} :
    phase.pending = some (update, pass) → request.target.commitRepo = some repo →
    answers.commitFails = false →
    forge.commitFiles repo request.branch pass.base pass.rebuilt.files
      update = some committed →
    committed.SameRefs forge' → phase'.ended = true →
    (∀ rebuilt ∈ phase'.updated, rebuilt = pass.rebuilt) →
    Advanced codec request answers phase forge phase' forge'

section Cases

variable {codec : Codec β} {request : Request} {answers : Answers β}

omit [DecidableEq β] in
theorem openRequest_cases {forge : Forge β} {repo : String} {status : AnnounceStatus}
    {rebuilt : Rebuilt β} {moved : Phase β × Forge β}
    (h : openRequest answers request forge repo status rebuilt = moved) :
    forge.SameRefs moved.2 ∧ moved.1.ended = true ∧
      ∀ r ∈ moved.1.updated, r = rebuilt ∧ status = .updated := by
  unfold openRequest at h
  split at h
  · subst h
    exact ⟨.refl _, rfl, by simp [Phase.updated]⟩
  · subst h
    refine ⟨Forge.sameRefs_openOrUpdateRequest _ _ _, rfl, ?_⟩
    cases status <;> simp [Phase.updated]

omit [DecidableEq β] in
theorem settle_cases {forge : Forge β} {state : BranchState} {onBranch : Bool} {rebuilt : Rebuilt β}
    {moved : Phase β × Forge β}
    (h : settle answers request forge state onBranch rebuilt = moved) :
    forge.SameRefs moved.2 ∧ moved.1.ended = true ∧ moved.1.updated = none := by
  unfold settle at h
  dsimp only at h
  split at h
  · subst h
    exact ⟨.refl _, rfl, rfl⟩
  · split at h
    · split at h
      · subst h
        exact ⟨.refl _, rfl, rfl⟩
      · subst h
        exact ⟨Forge.sameRefs_openOrUpdateRequest _ _ _, rfl, rfl⟩
    · subst h
      exact ⟨.refl _, rfl, rfl⟩

/-- **What a step can do**, for every phase. -/
theorem advanced_advance (codec : Codec β) (request : Request) (answers : Answers β)
    (phase : Phase β) (forge : Forge β) :
    Advanced codec request answers phase forge
      (advance codec request answers phase forge).1
      (advance codec request answers phase forge).2 := by
  have hfailed : ∀ e, Advanced codec request answers phase forge (.failed e) forge := fun e =>
    .stop (.refl _) rfl fun _ => rfl
  -- a commit that lands, with the request that follows
  have hlanded : ∀ {repo update pass committed}, phase.pending = some (update, pass) →
      request.target.commitRepo = some repo → answers.commitFails = false →
      forge.commitFiles repo request.branch pass.base pass.rebuilt.files
        update = some committed →
      Advanced codec request answers phase forge
        (openRequest answers request committed repo .updated pass.rebuilt).1
        (openRequest answers request committed repo .updated pass.rebuilt).2 := by
    intro repo update pass committed hpending hrepo hcommits hcommitted
    obtain ⟨hrefs, hended, hupdated⟩ := openRequest_cases
      (rfl : openRequest answers request committed repo .updated pass.rebuilt = _)
    exact .commit hpending hrepo hcommits hcommitted hrefs hended fun r hr => (hupdated r hr).1
  cases phase with
  | idle =>
    unfold advance
    dsimp only
    split
    · exact .stop (.refl _) rfl fun _ => rfl
    · exact .classify
  | classified state =>
    unfold advance
    dsimp only
    split
    · exact hfailed _
    · rename_i read pass unchanged hpass
      unfold afterFirstPass
      split
      · rename_i hout
        exact .stop (.refl _) rfl fun h => absurd hout h
      · split
        · obtain ⟨hrefs, hended, hupdated⟩ := settle_cases
            (rfl : settle answers request forge state read.onBranch pass.rebuilt = _)
          exact .stop hrefs hended fun _ => hupdated
        · rename_i hchanged
          rw [Bool.not_eq_true] at hchanged
          exact .pass (hchanged ▸ hpass)
  | ready state carried pass =>
    unfold advance
    dsimp only
    split
    · exact hfailed _
    · rename_i repo hrepo
      split
      · exact hfailed _
      · rename_i hcommits
        split
        · exact .lose
        · exact hlanded rfl hrepo (by simpa using hcommits) ‹_›
  | lost state carried =>
    unfold advance
    dsimp only
    split
    · exact hfailed _
    · exact hfailed _
    · rename_i repo pass unchanged hrepo hpass
      unfold afterSecondPass
      split
      · split
        · exact hfailed _
        · obtain ⟨hrefs, hended, hupdated⟩ := openRequest_cases
            (rfl : openRequest answers request forge repo .unchanged pass.rebuilt = _)
          refine .stop hrefs hended fun _ => Option.eq_none_iff_forall_not_mem.2 fun r hr => ?_
          cases (hupdated r hr).2
      · rename_i hchanged
        rw [Bool.not_eq_true] at hchanged
        exact .repass (hchanged ▸ hpass)
  | readyAgain state pass =>
    unfold advance
    dsimp only
    split
    · exact hfailed _
    · rename_i repo hrepo
      split
      · exact hfailed _
      · rename_i hcommits
        split
        · exact hfailed _
        · exact hlanded rfl hrepo (by simpa using hcommits) ‹_›
  | finished outcome => exact .stay rfl
  | failed e => exact .stay rfl

end Cases

end Ocx.Announce
