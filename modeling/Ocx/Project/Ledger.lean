import Ocx.Store.Layout
import Ocx.Util.Interleave

/-!
# The ledger of live projects

The ledger has one link for each project whose lock pins packages, so that the collector keeps them.
A project registers after it wrote its lock: the link is replaced by a rename. Listing the live
projects prunes the links of departed ones: a link is probed, probed again when it is dead, and then
removed. There is no lock, so a registration can come between the second probe and the removal, and
then the removal takes the link of a live project.

Everything happens one file-system step at a time, in any order. Listing the directory is not
atomic; the names a listing finds are part of the call, and may be any.
-/

namespace Ocx

open Function

/-! ### The ledger -/

inductive ProjectEntry
  | link (project : Path)
  /-- A link that leads nowhere. -/
  | broken
  /-- Not a link. -/
  | file
deriving DecidableEq

structure LedgerStore where
  /-- The entries of the ledger, by name. -/
  entry : String → Option ProjectEntry
  lock : Path → Bool
  /-- A registration was completed since the lock was created. -/
  registered : Path → Bool

namespace LedgerStore

def setEntry (S : LedgerStore) (name : String) (entry : Option ProjectEntry) : LedgerStore :=
  { S with entry := Function.update S.entry name entry }

/-- A probe of this entry finds a live project. -/
def live (S : LedgerStore) (name : String) : Bool :=
  match S.entry name with
  | some (.link project) => S.lock project
  | _ => false

theorem live_of_link {S : LedgerStore} {name : String} {project : Path}
    (hentry : S.entry name = some (.link project)) (hlock : S.lock project = true) :
    S.live name = true := by
  rw [live, hentry]
  exact hlock

end LedgerStore

/-! ### The calls -/

inductive LedgerCall
  | register (project : Path)
  /-- The live projects are listed; reading the directory gives these names. -/
  | liveProjects (names : List String)
  | createLock (project : Path)
  | deleteLock (project : Path)

/-- The live projects found so far, and the names still to probe. -/
structure LedgerWalk where
  /-- The names to probe. -/
  rest : List String
  /-- The live projects, with their names. -/
  live : List (String × Path)
deriving DecidableEq

/-- The points between the file-system steps of a call, each named after the step that comes
next. -/
inductive LedgerPoint
  | start
  /-- Rename the staged link over the old one. -/
  | rename
  /-- Go on with the next name. -/
  | next (walk : LedgerWalk)
  /-- Is the entry a link? The flag says that it was found dead before. -/
  | probe (again : Bool) (name : String) (walk : LedgerWalk)
  /-- Where does the link lead? -/
  | resolve (again : Bool) (name : String) (walk : LedgerWalk)
  | lookLock (again : Bool) (name : String) (project : Path) (walk : LedgerWalk)
  /-- Is the dead link still there? -/
  | probeDead (name : String) (walk : LedgerWalk)
  /-- Remove the dead link. -/
  | remove (name : String) (walk : LedgerWalk)
  | done (live : List (String × Path))
deriving DecidableEq

/-- Where a probe goes on that found a dead entry: the entry is probed again, and then removed. -/
def LedgerPoint.dead (again : Bool) (name : String) (walk : LedgerWalk) : LedgerPoint :=
  if again then .probeDead name walk else .probe true name walk

/-- One file-system step; none when there is nothing to do. -/
def LedgerCall.advance (linkName : Path → String) (call : LedgerCall) (point : LedgerPoint)
    (S : LedgerStore) : Option (LedgerPoint × LedgerStore) :=
  match call, point with
  | .createLock project, .start =>
    if S.lock project then none else
      some (.done [], { S with
        lock := Function.update S.lock project true
        registered := Function.update S.registered project false })
  | .deleteLock project, .start =>
    some (.done [], { S with lock := Function.update S.lock project false })
  -- the new link is staged beside the old one
  | .register _, .start => some (.rename, S)
  | .register project, .rename =>
    some (.done [], { S.setEntry (linkName project) (some (.link project)) with
      registered := Function.update S.registered project true })
  | .liveProjects names, .start => some (.next ⟨names, []⟩, S)
  | .liveProjects _, .next walk =>
    match walk.rest with
    | [] => some (.done walk.live, S)
    | name :: rest => some (.probe false name ⟨rest, walk.live⟩, S)
  | .liveProjects _, .probe again name walk =>
    match S.entry name with
    | some (.link _) | some .broken => some (.resolve again name walk, S)
    | _ => some (.dead again name walk, S)
  | .liveProjects _, .resolve again name walk =>
    match S.entry name with
    | some (.link project) => some (.lookLock again name project walk, S)
    | _ => some (.dead again name walk, S)
  | .liveProjects _, .lookLock again name project walk =>
    if S.lock project then some (.next ⟨walk.rest, walk.live ++ [(name, project)]⟩, S)
    else some (.dead again name walk, S)
  | .liveProjects _, .probeDead name walk =>
    if S.entry name = none then some (.next walk, S) else some (.remove name walk, S)
  -- a failure of the removal is ignored
  | .liveProjects _, .remove name walk => some (.next walk, S.setEntry name none)
  | _, _ => none

/-! ### What the ledger is for -/

/-- A project that has a lock, and registered after it created it, has its link. -/
def Ledgered (linkName : Path → String) (projects : Set Path) (S : LedgerStore) : Prop :=
  ∀ project ∈ projects, S.lock project = true → S.registered project = true →
    S.entry (linkName project) = some (.link project)

section Run

variable {ι : Type} [DecidableEq ι]

def ledgerPrograms (linkName : Path → String) (calls : ι → LedgerCall) :
    ι → LedgerPoint → LedgerStore → Option (LedgerPoint × LedgerStore) :=
  fun i => (calls i).advance linkName

/-- If the turn removes a link, the link is not live. -/
def prunesDead (w : World LedgerStore ι LedgerPoint) (i : ι) : Bool :=
  match w.point i with
  | .remove name _ => !w.store.live name
  | _ => true

end Run

/-! ### A step keeps the ledger complete -/

section Step

variable {linkName : Path → String} {projects : Set Path} {call : LedgerCall}
    {point point' : LedgerPoint}
  {S S' : LedgerStore}

theorem ledgered_createLock (hledgered : Ledgered linkName projects S) (project : Path) :
    Ledgered linkName projects { S with
      lock := update S.lock project true
      registered := update S.registered project false } := by
  intro other hproject hlock hregistered
  by_cases hother : other = project
  · subst hother
    simp at hregistered
  · simp only [update_of_ne hother] at hlock hregistered
    exact hledgered other hproject hlock hregistered

theorem ledgered_deleteLock (hledgered : Ledgered linkName projects S) (project : Path) :
    Ledgered linkName projects { S with lock := update S.lock project false } := by
  intro other hproject hlock hregistered
  by_cases hother : other = project
  · subst hother
    simp at hlock
  · simp only [update_of_ne hother] at hlock
    exact hledgered other hproject hlock hregistered

theorem ledgered_rename (hinj : Set.InjOn linkName projects)
    (hledgered : Ledgered linkName projects S) {project : Path} (hmem : project ∈ projects) :
    Ledgered linkName projects { S.setEntry (linkName project) (some (.link project)) with
      registered := update S.registered project true } := by
  intro other hproject hlock hregistered
  by_cases hother : other = project
  · subst hother
    simp [LedgerStore.setEntry]
  · simp only [update_of_ne hother] at hregistered
    have hname : linkName other ≠ linkName project := fun heq =>
      hother (hinj hproject hmem heq)
    simp only [LedgerStore.setEntry, update_of_ne hname]
    exact hledgered other hproject hlock hregistered

theorem ledgered_remove (hledgered : Ledgered linkName projects S) {name : String}
    (hdead : S.live name = false) :
    Ledgered linkName projects (S.setEntry name none) := by
  intro other hproject hlock hregistered
  have hentry := hledgered other hproject hlock hregistered
  have hname : linkName other ≠ name := by
    rintro rfl
    rw [LedgerStore.live_of_link hentry hlock] at hdead
    cases hdead
  simp only [LedgerStore.setEntry, update_of_ne hname]
  exact hentry

/-- **Every step but the removal of a live link keeps the ledger complete.** -/
theorem ledgered_step (hinj : Set.InjOn linkName projects)
    (hcall : ∀ project, call = .register project → project ∈ projects)
    (h : call.advance linkName point S = some (point', S'))
    (hdead : ∀ name walk, point = .remove name walk → S.live name = false)
    (hledgered : Ledgered linkName projects S) : Ledgered linkName projects S' := by
  -- the steps that only look leave the store as it is
  have hlook : ∀ {p : LedgerPoint}, some (p, S) = some (point', S') →
      Ledgered linkName projects S' := by
    intro p hp
    cases hp
    exact hledgered
  cases call with
  | createLock project =>
    cases point with
    | start =>
      simp only [LedgerCall.advance] at h
      split_ifs at h
      cases h
      exact ledgered_createLock hledgered project
    | _ => cases h
  | deleteLock project =>
    cases point with
    | start =>
      cases h
      exact ledgered_deleteLock hledgered project
    | _ => cases h
  | register project =>
    cases point with
    | start => exact hlook h
    | rename =>
      cases h
      exact ledgered_rename hinj hledgered (hcall project rfl)
    | _ => cases h
  | liveProjects names =>
    cases point with
    | start => exact hlook h
    | next walk =>
      simp only [LedgerCall.advance] at h
      split at h <;> exact hlook h
    | probe again name walk =>
      simp only [LedgerCall.advance] at h
      split at h <;> exact hlook h
    | resolve again name walk =>
      simp only [LedgerCall.advance] at h
      split at h <;> exact hlook h
    | lookLock again name project walk =>
      simp only [LedgerCall.advance] at h
      split at h <;> exact hlook h
    | probeDead name walk =>
      simp only [LedgerCall.advance] at h
      split at h <;> exact hlook h
    | remove name walk =>
      cases h
      exact ledgered_remove hledgered (hdead name walk rfl)
    | _ => cases h

end Step

/-! ### Runs -/

section Runs

variable {ι : Type} [DecidableEq ι]

/-- **A live project does not fall out of the ledger as long as removals find dead links.** In every
run of any number of calls, from any ledger, in which every turn that removes a link finds it dead
at that moment, the projects that have a lock and registered after they created it keep their links.
Distinct projects have distinct link names. -/
theorem ledgered_of_run {linkName : Path → String} {projects : Set Path}
    (hinj : Set.InjOn linkName projects) (calls : ι → LedgerCall)
    (hcalls : ∀ i project, calls i = .register project → project ∈ projects) (S : LedgerStore)
    (hledgered : Ledgered linkName projects S)
    (schedule : List ι) {w : World LedgerStore ι LedgerPoint}
    (hrun : (⟨S, fun _ => .start⟩ : World LedgerStore ι LedgerPoint).run
      (ledgerPrograms linkName calls) schedule = some w)
    (hprunes : World.Guarded (ledgerPrograms linkName calls) (fun w i => prunesDead w i = true)
      ⟨S, fun _ => .start⟩ schedule) :
    Ledgered linkName projects w.store := by
  refine hprunes.invariant hrun (fun w => Ledgered linkName projects w.store) hledgered ?_
  intro w i w' hdead hbefore hstep
  refine ledgered_step hinj (hcalls i) (World.step_eq_some_iff.1 hstep).1 ?_ hbefore
  intro name walk hpoint
  rw [prunesDead, hpoint] at hdead
  simpa using hdead

end Runs

/-! ### A run that loses a live project -/

def sampleProject : Path := ["home", "alice", "dev", "proj-a"]

/-- A project that deleted its lock. Its link is in the ledger still. -/
def departedStore : LedgerStore where
  entry name := if name = "proj-a" then some (.link sampleProject) else none
  lock _ := false
  registered _ := false

/-- The live projects are listed while the project creates a lock and registers. -/
def departedCalls : Fin 3 → LedgerCall :=
  ![.liveProjects ["proj-a"], .createLock sampleProject, .register sampleProject]

def sampleLinkName (project : Path) : String := project.getLastD ""

/-- Both probes find the link dead. Then the project creates its lock and registers, and then the
link is removed: all calls are done, the lock is there, the registration was completed after it was
created, and the link is gone. -/
theorem pruned_after_register :
    ∃ w, (⟨departedStore, fun _ => .start⟩ : World LedgerStore (Fin 3) LedgerPoint).run
        (ledgerPrograms sampleLinkName departedCalls)
        [0, 0, 0, 0, 0, 0, 0, 0, 0, 1, 2, 2, 0, 0] = some w ∧
      (∀ i, ∃ live, w.point i = .done live) ∧
      w.store.lock sampleProject = true ∧ w.store.registered sampleProject = true ∧
      w.store.entry (sampleLinkName sampleProject) = none ∧
      ¬Ledgered sampleLinkName {sampleProject} w.store := by
  refine ⟨_, rfl, ?_, rfl, rfl, rfl, fun hledgered => ?_⟩
  · intro i
    fin_cases i <;> exact ⟨_, rfl⟩
  · have hentry := hledgered sampleProject rfl rfl rfl
    cases hentry

/-- When the link is removed before the project registers again, the project keeps its link. -/
theorem registered_after_prune :
    ∃ w, (⟨departedStore, fun _ => .start⟩ : World LedgerStore (Fin 3) LedgerPoint).run
        (ledgerPrograms sampleLinkName departedCalls)
        [0, 0, 0, 0, 0, 0, 0, 0, 0, 0, 1, 2, 0, 2] = some w ∧
      Ledgered sampleLinkName {sampleProject} w.store := by
  refine ⟨_, rfl, ?_⟩
  have hcalls : ∀ i project, departedCalls i = .register project →
      project ∈ ({sampleProject} : Set Path) := by
    intro i project h
    fin_cases i
    · cases h
    · cases h
    · cases h
      rfl
  exact ledgered_of_run (Set.injOn_singleton _ _) departedCalls hcalls departedStore
    (fun _ _ hlock => by cases hlock) [0, 0, 0, 0, 0, 0, 0, 0, 0, 0, 1, 2, 0, 2] rfl (by decide)

end Ocx
