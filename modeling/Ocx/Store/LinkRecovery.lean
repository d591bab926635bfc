import Ocx.Store.References

/-!
# A link that fails or crashes

Selecting a package links the `current` install link to it. A step of the link can fail, and then
the selection rolls the link back; or the process dies, and then the same link is run again. Both
start with the early exit of `link`: an install link that points at the wanted package already is
left alone, whether or not the package refers back to it.

So there are two windows. Between the rename and the back-reference, a crash is not repaired by the
second run. And when the rename fails, the old back-reference is gone and the link still points at
the old package, where the rollback does nothing.
-/

namespace Ocx

open Option

/-! ### Runs of one call -/

namespace LinkCall

variable (L : RefLayout) (call : LinkCall)

def after (S : LinkStore) : ℕ → Option (LinkPoint × LinkStore)
  | 0 => some (.start, S)
  | n + 1 => (after S n).bind fun s => call.advance L s.1 s.2

/-- Run a call to its end, with the steps it may take: whether it returns without an error, and the
store. A failing step changes nothing. -/
def complete : ℕ → LinkPoint → LinkStore → Bool × LinkStore
  | _, .done, S => (true, S)
  | 0, _, S => (false, S)
  | n + 1, point, S =>
    match call.advance L point S with
    | some (point', S') => complete n point' S'
    | none => (false, S)

/-- The steps a call takes at most. -/
def maxSteps : ℕ := 12

def run (S : LinkStore) : Bool × LinkStore := call.complete L maxSteps .start S

/-- Where a call goes on when the next step fails; none when the call returns an error. -/
def onFailure (point : LinkPoint) (S : LinkStore) : Option LinkPoint :=
  match point with
  -- a link that cannot be looked at is taken for none
  | .start => some (match call with | .link _ _ => .stage | .unlink _ => .done)
  | .readCurrent => some call.afterOld
  | .probeOld _ => some call.afterOld
  | .removeOld _ => some call.afterOld
  | .probeRef dir => some (.create dir)
  | .readRef dir => some (.probeStale dir)
  | .probeStale dir => some (.recreate dir)
  | .create dir => if S.backRef (call.refTo L dir) = none then none else some .done
  | .probeLink => some .done
  | .stage | .rename | .refsDir | .removeStale _ | .recreate _ | .removeLink | .done => none

end LinkCall

/-! ### Crash and failure -/

section Cut

variable (L : RefLayout) (forward target : Path)

/-- Restore the install link to what it was. -/
def rollbackSymlink (prior : Option Path) (S : LinkStore) : LinkStore :=
  match prior with
  | some priorTarget => ((LinkCall.link forward priorTarget).run L S).2
  | none => ((LinkCall.unlink forward).run L S).2

/-- The process dies at a point, and the same link is run again. -/
def crashed (S : LinkStore) : LinkStore := ((LinkCall.link forward target).run L S).2

/-- A step of the link fails. The link goes on if the failure is tolerated; an error is rolled
back. -/
def failed (prior : Option Path) (point : LinkPoint) (S : LinkStore) : LinkStore :=
  match (LinkCall.link forward target).onFailure L point S with
  | some point' =>
    match (LinkCall.link forward target).complete L LinkCall.maxSteps point' S with
    | (true, S') => S'
    | (false, S') => rollbackSymlink L forward prior S'
  | none => rollbackSymlink L forward prior S

/-- The points after the install link is replaced. -/
def LinkPoint.afterRename : LinkPoint → Bool
  | .refsDir | .probeRef _ | .readRef _ | .probeStale _ | .removeStale _ | .recreate _
  | .create _ => true
  | _ => false

/-- The new package refers to the link before the link is replaced, and is not the one whose
back-reference is removed. -/
def RefReady (S : LinkStore) : Prop :=
  ∃ dir, L.packageDir target = some dir ∧ S.backRef (dir, L.nameForPath forward) = some forward ∧
    ∀ current, S.link forward = some current → L.packageDir current ≠ some dir

/-- The new package has a back-reference of this name to something else. -/
def RefStale (S : LinkStore) : Prop :=
  ∃ dir other, L.packageDir target = some dir ∧
    S.backRef (dir, L.nameForPath forward) = some other ∧ other ≠ forward

/-- A crash at this point is repaired by a second run. -/
def CrashSafe (S : LinkStore) (point : LinkPoint) : Prop :=
  point.afterRename = true → RefReady L forward target S

/-- A failure of the step at this point leaves the link protected. -/
def FailSafe (S : LinkStore) (point : LinkPoint) : Prop :=
  (point = .stage ∨ point = .rename → S.link forward = none) ∧
    ∀ dir, point = .probeRef dir → ¬RefStale L forward target S

end Cut

/-! ### A call that runs to its end -/

variable {point' point : LinkPoint} {n : ℕ}

open LinkCall

section Complete

variable {L : RefLayout} {forward target dir : Path} {S : LinkStore}

/-- The link returned, and the install link points at a package that refers back to it. -/
def Linked (L : RefLayout) (forward target : Path) (result : Bool × LinkStore) : Prop :=
  result.1 = true ∧ result.2.link forward = some target ∧ result.2.RefersBack L forward target

theorem Linked.protected {result : Bool × LinkStore} (h : Linked L forward target result) :
    result.2.Protected L forward := by
  intro target' htarget'
  rw [h.2.1, some.injEq] at htarget'
  exact htarget' ▸ h.2.2

theorem protected_iff (hlink : S.link forward = some target)
    (hdir : L.packageDir target = some dir) :
    S.Protected L forward ↔ S.backRef (dir, L.nameForPath forward) = some forward := by
  constructor
  · intro h
    obtain ⟨dir', hdir', hback⟩ := h target hlink
    rw [hdir, some.injEq] at hdir'
    exact hdir' ▸ hback
  · intro hback target' htarget'
    rw [hlink, some.injEq] at htarget'
    exact htarget' ▸ ⟨dir, hdir, hback⟩

@[simp] theorem complete_done (call : LinkCall) (n : ℕ) :
    call.complete L n .done S = (true, S) := by
  cases n <;> rfl

theorem complete_of_advance {call : LinkCall} {S' : LinkStore}
    (h : call.advance L point S = some (point', S')) :
    call.complete L (n + 1) point S = call.complete L n point' S' := by
  cases point with
  | done => cases call <;> cases h
  | _ => rw [complete, h]; nofun

/-- A link gets there from this point in so many steps. -/
def Completes (L : RefLayout) (forward target : Path) (n : ℕ) (point : LinkPoint) (S : LinkStore) :
    Prop :=
  Linked L forward target ((LinkCall.link forward target).complete L n point S)

theorem Completes.of_advance {S' : LinkStore}
    (h : (link forward target).advance L point S = some (point', S'))
    (hcompletes : Completes L forward target n point' S') :
    Completes L forward target (n + 1) point S := by
  rwa [Completes, complete_of_advance h]

theorem Completes.of_ite {c : Prop} [Decidable c] {yes no : LinkPoint}
    (h : (link forward target).advance L point S = some (if c then yes else no, S))
    (hyes : c → Completes L forward target n yes S) (hno : ¬c → Completes L forward target n no S) :
    Completes L forward target (n + 1) point S := by
  refine .of_advance h ?_
  split_ifs with hc
  exacts [hyes hc, hno hc]

section Package

variable (hdir : L.packageDir target = some dir)

include hdir

theorem completes_done (n : ℕ) (hlink : S.link forward = some target)
    (hback : S.backRef (dir, L.nameForPath forward) = some forward) :
    Completes L forward target n .done S := by
  rw [Completes, complete_done]
  exact ⟨rfl, hlink, dir, hdir, hback⟩

theorem completes_create (n : ℕ)
    (hpoint : point = .create dir ∨ point = .recreate dir) (hlink : S.link forward = some target)
    (hnone : S.backRef (dir, L.nameForPath forward) = none) :
    Completes L forward target (n + 1) point S := by
  have hdone := completes_done hdir n (S := S.setRef (dir, L.nameForPath forward) (some forward))
    hlink (by simp)
  rcases hpoint with rfl | rfl <;> exact .of_advance (if_pos hnone) hdone

theorem completes_probeStale (n : ℕ) (hlink : S.link forward = some target) :
    Completes L forward target (n + 3) (.probeStale dir) S := by
  refine .of_ite rfl (completes_create hdir (n + 1) (.inr rfl) hlink) fun hsome => ?_
  refine .of_advance (if_neg hsome) (completes_create hdir n (.inr rfl) hlink ?_)
  simp [LinkCall.refTo, LinkCall.forward]

theorem completes_probeRef (n : ℕ) (hlink : S.link forward = some target) :
    Completes L forward target (n + 5) (.probeRef dir) S := by
  refine .of_ite rfl (completes_create hdir (n + 3) (.inl rfl) hlink) fun _ => ?_
  exact .of_ite rfl (completes_done hdir (n + 3) hlink) fun _ => completes_probeStale hdir n hlink

theorem completes_stage (n : ℕ) : Completes L forward target (n + 8) .stage S := by
  have hrefs : (link forward target).advance L .refsDir
      (S.setLink forward (some target)) =
      some (.probeRef dir, S.setLink forward (some target)) := by
    simp [advance, hdir]
  exact .of_advance rfl (.of_advance rfl (.of_advance hrefs (completes_probeRef hdir n (by simp))))

theorem completes_probeOld (n : ℕ) (old : Path) :
    Completes L forward target (n + 10) (.probeOld old) S :=
  .of_ite rfl (fun _ => completes_stage hdir (n + 1))
    fun _ => .of_advance rfl (completes_stage hdir n)

theorem completes_readCurrent (n : ℕ) (hne : S.link forward ≠ some target) :
    Completes L forward target (n + 11) .readCurrent S := by
  cases hlink : S.link forward with
  | none =>
    refine .of_advance ?_ (completes_stage (S := S) hdir (n + 2))
    simp [LinkCall.advance, LinkCall.forward, hlink, LinkCall.afterOld]
  | some current =>
    have hcurrent : target ≠ current := fun heq => hne (by rw [hlink, heq])
    cases hold : L.packageDir current with
    | none =>
      refine .of_advance ?_ (completes_stage (S := S) hdir (n + 2))
      simp [LinkCall.advance, LinkCall.forward, hlink, hcurrent, hold, LinkCall.afterOld]
    | some old =>
      refine .of_advance ?_ (completes_probeOld (S := S) hdir n old)
      simp [LinkCall.advance, LinkCall.forward, hlink, hcurrent, hold]

/-- **A link that runs to its end** is a no-op where the install link points at the target already,
and succeeds otherwise. -/
theorem run_link (S : LinkStore) (forward : Path) :
    if S.link forward = some target then (link forward target).run L S = (true, S)
    else Linked L forward target ((link forward target).run L S) := by
  split_ifs with hlink
  · have hstart : (link forward target).advance L .start S = some (.readCurrent, S) := by
      simp [advance, hlink]
    have hread : (LinkCall.link forward target).advance L .readCurrent S = some (.done, S) := by
      simp [LinkCall.advance, LinkCall.forward, hlink]
    rw [run, maxSteps, complete_of_advance hstart, complete_of_advance hread,
      complete_done]
  · show Completes L forward target 12 .start S
    by_cases hnone : S.link forward = none
    · refine .of_advance ?_ (completes_stage (S := S) hdir 3)
      simp [advance, hnone]
    · refine .of_advance ?_ (completes_readCurrent (S := S) hdir 0 hlink)
      simp [advance, hnone]

/-- A second run protects the link exactly if it does not take the early exit without a
back-reference. -/
theorem protected_run_link_iff :
    ((link forward target).run L S).2.Protected L forward ↔
      (S.link forward = some target →
        S.backRef (dir, L.nameForPath forward) = some forward) := by
  have hrun := run_link hdir S forward
  split_ifs at hrun with hlink
  · rw [hrun, protected_iff hlink hdir]
    simp [hlink]
  · exact iff_of_true hrun.protected fun h => absurd h hlink

end Package

/-- An unlink leaves no install link from this point. -/
def Unlinks (L : RefLayout) (forward : Path) (n : ℕ) (point : LinkPoint) (S : LinkStore) : Prop :=
  ((LinkCall.unlink forward).complete L n point S).2.link forward = none

theorem Unlinks.of_advance {S' : LinkStore}
    (h : (unlink forward).advance L point S = some (point', S'))
    (hunlinks : Unlinks L forward n point' S') : Unlinks L forward (n + 1) point S := by
  rwa [Unlinks, complete_of_advance h]

theorem unlinks_done (n : ℕ) (hlink : S.link forward = none) : Unlinks L forward n .done S := by
  rwa [Unlinks, complete_done]

theorem unlinks_probeLink (n : ℕ) : Unlinks L forward (n + 2) .probeLink S := by
  by_cases hnone : S.link forward = none
  · refine .of_advance ?_ (unlinks_done (S := S) (n + 1) hnone)
    simp [advance, hnone]
  · refine .of_advance (congrArg (fun p => some (p, S)) (if_neg hnone)) ?_
    exact .of_advance (if_neg hnone) (unlinks_done n (by simp))

theorem run_unlink : ((unlink forward).run L S).2.link forward = none := by
  show Unlinks L forward 12 .start S
  cases hlink : S.link forward with
  | none =>
    refine .of_advance ?_ (unlinks_done (S := S) 11 hlink)
    simp [advance, hlink]
  | some current =>
    have hstart : (unlink forward).advance L .start S = some (.readCurrent, S) := by
      simp [advance, hlink]
    refine .of_advance hstart ?_
    cases hold : L.packageDir current with
    | none =>
      refine .of_advance ?_ (unlinks_probeLink (S := S) 8)
      simp [LinkCall.advance, LinkCall.forward, hlink, hold, LinkCall.afterOld]
    | some old =>
      have hread : (LinkCall.unlink forward).advance L .readCurrent S =
          some (.probeOld old, S) := by
        simp [LinkCall.advance, LinkCall.forward, hlink, hold]
      refine .of_advance hread ?_
      by_cases hnone : S.backRef (old, L.nameForPath forward) = none
      · exact .of_advance (congrArg (fun p => some (p, S)) (if_pos hnone)) (unlinks_probeLink 7)
      · refine .of_advance (congrArg (fun p => some (p, S)) (if_neg hnone)) ?_
        exact .of_advance rfl (unlinks_probeLink 6)

end Complete

/-! ### What a link has done -/

section Prefix

variable {L : RefLayout} {forward target dir : Path} {S : LinkStore}

/-- The store without the back-reference of the package the install link points at. -/
def cleared (L : RefLayout) (forward : Path) (S : LinkStore) : LinkStore :=
  match (S.link forward).bind L.packageDir with
  | some old => S.setRef (old, L.nameForPath forward) none
  | none => S

theorem cleared_of_some {old : Path} (h : (S.link forward).bind L.packageDir = some old) :
    cleared L forward S = S.setRef (old, L.nameForPath forward) none := by
  rw [cleared, h]

theorem cleared_of_none (h : S.link forward = none) : cleared L forward S = S := by
  rw [cleared, h, bind_none]

theorem link_cleared : (cleared L forward S).link = S.link := by
  rw [cleared]
  split <;> rfl

theorem backRef_cleared (dir : Path) :
    (cleared L forward S).backRef (dir, L.nameForPath forward) =
      if (S.link forward).bind L.packageDir = some dir then none
      else S.backRef (dir, L.nameForPath forward) := by
  rw [cleared]
  split
  · next old hold =>
    rw [hold]
    by_cases hdir : dir = old
    · simp [hdir]
    · simp [hdir, Ne.symm hdir]
  · next hnone => rw [hnone, if_neg nofun]

/-- The store after the install link was replaced. -/
def replaced (L : RefLayout) (forward target : Path) (S : LinkStore) : LinkStore :=
  (cleared L forward S).setLink forward (some target)

@[simp] theorem link_replaced : (replaced L forward target S).link forward = some target := by
  simp [replaced]

@[simp] theorem backRef_replaced :
    (replaced L forward target S).backRef = (cleared L forward S).backRef := rfl

/-- The back-reference to the link is there, and refers to something else. -/
def Stale (L : RefLayout) (S : LinkStore) (forward dir : Path) : Prop :=
  S.backRef (dir, L.nameForPath forward) ≠ none ∧
    S.backRef (dir, L.nameForPath forward) ≠ some forward

section

variable (L S forward target dir)

inductive LinkPrefix : LinkPoint → LinkStore → Prop
  | start : LinkPrefix .start S
  | readCurrent : LinkPrefix .readCurrent S
  | probeOld (old : Path) (hne : S.link forward ≠ some target)
      (hold : (S.link forward).bind L.packageDir = some old) : LinkPrefix (.probeOld old) S
  | removeOld (old : Path) (hne : S.link forward ≠ some target)
      (hold : (S.link forward).bind L.packageDir = some old) : LinkPrefix (.removeOld old) S
  | stage (hne : S.link forward ≠ some target) : LinkPrefix .stage (cleared L forward S)
  | rename (hne : S.link forward ≠ some target) : LinkPrefix .rename (cleared L forward S)
  | refsDir (hne : S.link forward ≠ some target) :
    LinkPrefix .refsDir (replaced L forward target S)
  | probeRef (hne : S.link forward ≠ some target) :
    LinkPrefix (.probeRef dir) (replaced L forward target S)
  | readRef (hne : S.link forward ≠ some target)
      (hsome : (cleared L forward S).backRef (dir, L.nameForPath forward) ≠ none) :
    LinkPrefix (.readRef dir) (replaced L forward target S)
  | probeStale (hne : S.link forward ≠ some target)
      (hstale : Stale L (cleared L forward S) forward dir) :
    LinkPrefix (.probeStale dir) (replaced L forward target S)
  | removeStale (hne : S.link forward ≠ some target)
      (hstale : Stale L (cleared L forward S) forward dir) :
    LinkPrefix (.removeStale dir) (replaced L forward target S)
  | recreate (hne : S.link forward ≠ some target)
      (hstale : Stale L (cleared L forward S) forward dir) :
    LinkPrefix (.recreate dir)
      ((replaced L forward target S).setRef (dir, L.nameForPath forward) none)
  | create (hne : S.link forward ≠ some target)
      (hnone : (cleared L forward S).backRef (dir, L.nameForPath forward) = none) :
    LinkPrefix (.create dir) (replaced L forward target S)
  | done (S' : LinkStore) : LinkPrefix .done S'

end

theorem backRef_of_protected {old : Path} (hprotected : S.Protected L forward)
    (hold : (S.link forward).bind L.packageDir = some old) :
    S.backRef (old, L.nameForPath forward) = some forward := by
  obtain ⟨current, hlink, hpackage⟩ := bind_eq_some_iff.1 hold
  exact (protected_iff hlink hpackage).1 hprotected

theorem prefix_stage {S' : LinkStore} (hne : S.link forward ≠ some target)
    (h : cleared L forward S = S') : LinkPrefix L forward target dir S .stage S' :=
  h ▸ .stage hne

theorem prefix_readCurrent {S' : LinkStore}
    (hprotected : S.Protected L forward)
    (h : (link forward target).advance L .readCurrent S = some (point', S')) :
    LinkPrefix L forward target dir S point' S' := by
  cases hlink : S.link forward with
  | none =>
    simp only [LinkCall.advance, LinkCall.forward, hlink, LinkCall.afterOld] at h
    cases h
    exact prefix_stage (by rw [hlink]; nofun) (cleared_of_none hlink)
  | some current =>
    obtain ⟨old, hold, -⟩ := hprotected current hlink
    have hbind : (S.link forward).bind L.packageDir = some old := by rw [hlink]; exact hold
    by_cases hcurrent : target = current
    · simp only [LinkCall.advance, LinkCall.forward, hlink, hcurrent, if_true] at h
      cases h
      exact .done S
    · simp only [LinkCall.advance, LinkCall.forward, hlink, LinkCall.link.injEq, true_and,
        hcurrent, if_false, hold] at h
      cases h
      refine .probeOld old ?_ hbind
      rw [hlink]
      exact fun heq => hcurrent (some.inj heq).symm

theorem prefix_step {S₁ S' : LinkStore}
    (hprotected : S.Protected L forward) (hdir : L.packageDir target = some dir)
    (hstands : LinkPrefix L forward target dir S point S₁)
    (h : (LinkCall.link forward target).advance L point S₁ = some (point', S')) :
    LinkPrefix L forward target dir S point' S' := by
  cases hstands with
  | start =>
    cases h
    split_ifs with hlink
    · exact prefix_stage (by rw [hlink]; nofun) (cleared_of_none hlink)
    · exact .readCurrent
  | readCurrent => exact prefix_readCurrent hprotected h
  | probeOld old hne hold =>
    simp only [LinkCall.advance, LinkCall.refTo, LinkCall.forward,
      backRef_of_protected hprotected hold, reduceCtorEq, if_false] at h
    cases h
    exact .removeOld old hne hold
  | removeOld old hne hold =>
    cases h
    exact prefix_stage hne (cleared_of_some hold)
  | stage hne =>
    cases h
    exact .rename hne
  | rename hne =>
    cases h
    exact .refsDir hne
  | refsDir hne =>
    simp only [LinkCall.advance, hdir] at h
    cases h
    exact .probeRef hne
  | probeRef hne =>
    cases h
    split_ifs with hnone
    · exact .create hne hnone
    · exact .readRef hne hnone
  | readRef hne hsome =>
    cases h
    split_ifs with hgood
    · exact .done _
    · exact .probeStale hne ⟨hsome, hgood⟩
  | probeStale hne hstale =>
    cases h
    split_ifs with hnone
    · exact absurd hnone hstale.1
    · exact .removeStale hne hstale
  | removeStale hne hstale =>
    simp only [LinkCall.advance] at h
    split_ifs at h
    cases h
    exact .recreate hne hstale
  | recreate hne hstale =>
    simp only [LinkCall.advance] at h
    split_ifs at h
    cases h
    exact .done _
  | create hne hnone =>
    simp only [LinkCall.advance] at h
    split_ifs at h <;> cases h <;> exact .done _
  | done S' => cases h

/-- What a link has done after some steps. -/
theorem prefix_after (hprotected : S.Protected L forward) (hdir : L.packageDir target = some dir)
    {S₁ : LinkStore}
    (h : (link forward target).after L S n = some (point, S₁)) :
    LinkPrefix L forward target dir S point S₁ := by
  induction n generalizing point S₁ with
  | zero =>
    cases h
    exact .start
  | succ n ih =>
    obtain ⟨⟨point₀, S₀⟩, hbefore, hstep⟩ := bind_eq_some_iff.1 h
    exact prefix_step hprotected hdir (ih hbefore) hstep

end Prefix

/-! ### When the link is protected -/

section Exact

variable {L : RefLayout} {forward target dir : Path} {S S₁ : LinkStore} {point : LinkPoint}

theorem refReady_iff (hdir : L.packageDir target = some dir) :
    RefReady L forward target S ↔
      (cleared L forward S).backRef (dir, L.nameForPath forward) = some forward := by
  have hbind : (∀ current, S.link forward = some current → L.packageDir current ≠ some dir) ↔
      (S.link forward).bind L.packageDir ≠ some dir := by
    cases S.link forward <;> simp
  rw [backRef_cleared, RefReady]
  constructor
  · rintro ⟨dir', hdir', hback, hother⟩
    rw [hdir, some.injEq] at hdir'
    subst hdir'
    rw [if_neg (hbind.1 hother), hback]
  · intro hback
    split_ifs at hback with hsame
    exact ⟨dir, hdir, hback, hbind.2 hsame⟩

theorem refStale_iff (hprotected : S.Protected L forward)
    (hdir : L.packageDir target = some dir) :
    RefStale L forward target S ↔ Stale L (cleared L forward S) forward dir := by
  rw [Stale, backRef_cleared]
  split_ifs with hsame
  · -- the back-reference of the old package is a good one
    refine iff_of_false ?_ fun h => h.1 rfl
    rintro ⟨dir', other, hdir', hback, hother⟩
    rw [hdir, some.injEq] at hdir'
    subst hdir'
    rw [backRef_of_protected hprotected hsame, some.injEq] at hback
    exact hother hback.symm
  · constructor
    · rintro ⟨dir', other, hdir', hback, hother⟩
      rw [hdir, some.injEq] at hdir'
      subst hdir'
      rw [hback]
      exact ⟨nofun, fun heq => hother (some.inj heq)⟩
    · rintro ⟨hsome, hother⟩
      obtain ⟨other, hback⟩ := ne_none_iff_exists'.1 hsome
      exact ⟨dir, other, hdir, hback, fun heq => hother (by rw [hback, heq])⟩

theorem crashSafe_of_before (h : point.afterRename = false) :
    CrashSafe L forward target S point := by
  intro hafter
  rw [h] at hafter
  cases hafter

/-- **A second run repairs a crash** exactly if the link was not yet replaced, or the new package
refers to it already. -/
theorem protected_crashed_iff (hprotected : S.Protected L forward)
    (hdir : L.packageDir target = some dir)
    (hstands : LinkPrefix L forward target dir S point S₁) (hpoint : point ≠ .done) :
    (crashed L forward target S₁).Protected L forward ↔ CrashSafe L forward target S point := by
  rw [crashed, protected_run_link_iff hdir]
  have hbefore : S.link forward = some target →
      S.backRef (dir, L.nameForPath forward) = some forward := fun hlink =>
    backRef_of_protected hprotected (by rw [hlink]; exact hdir)
  cases hstands with
  | start | readCurrent | probeOld | removeOld =>
    exact iff_of_true hbefore (crashSafe_of_before rfl)
  | stage hne | rename hne =>
    exact iff_of_true (fun h => absurd (link_cleared ▸ h) hne) (crashSafe_of_before rfl)
  | refsDir | probeRef | readRef | probeStale | removeStale | create =>
    simp [CrashSafe, LinkPoint.afterRename, refReady_iff hdir]
  | recreate hne hstale => simp [CrashSafe, LinkPoint.afterRename, refReady_iff hdir, hstale.2]
  | done S' => exact absurd rfl hpoint

theorem protected_rollback (hprotected : S.Protected L forward)
    (hlink : S₁.link forward = some target) (hne : S.link forward ≠ some target) :
    (rollbackSymlink L forward (S.link forward) S₁).Protected L forward := by
  cases hprior : S.link forward with
  | none =>
    intro target' htarget'
    rw [rollbackSymlink, run_unlink] at htarget'
    cases htarget'
  | some prior =>
    obtain ⟨old, hold, -⟩ := hprotected prior hprior
    rw [rollbackSymlink, protected_run_link_iff hold]
    intro hsame
    rw [hlink, ← hprior] at hsame
    exact absurd hsame.symm hne

/-- A rollback before the install link was replaced does nothing, and the back-reference is
gone. -/
theorem protected_rollback_cleared_iff (hprotected : S.Protected L forward) :
    (rollbackSymlink L forward (S.link forward) (cleared L forward S)).Protected L forward ↔
      S.link forward = none := by
  cases hprior : S.link forward with
  | none =>
    refine iff_of_true ?_ rfl
    intro target' htarget'
    rw [rollbackSymlink, run_unlink] at htarget'
    cases htarget'
  | some prior =>
    obtain ⟨old, hold, -⟩ := hprotected prior hprior
    have hbind : (S.link forward).bind L.packageDir = some old := by rw [hprior]; exact hold
    rw [rollbackSymlink, protected_run_link_iff hold, link_cleared, backRef_cleared,
      if_pos hbind, hprior]
    simp

theorem protected_failed_of_linked {prior : Option Path}
    (hfailure : (link forward target).onFailure L point S₁ = some point')
    (hlinked : Completes L forward target maxSteps point' S₁) :
    (failed L forward target prior point S₁).Protected L forward := by
  have hfailed : failed L forward target prior point S₁ =
      ((link forward target).complete L maxSteps point' S₁).2 := by
    have hok := hlinked.1
    simp only [failed, hfailure]
    split
    · next S₂ heq => rw [heq]
    · next S₂ heq =>
      rw [heq] at hok
      cases hok
  rw [hfailed]
  exact hlinked.protected

theorem failed_of_error {prior : Option Path}
    (hfailure : (link forward target).onFailure L point S₁ = none) :
    failed L forward target prior point S₁ = rollbackSymlink L forward prior S₁ := by
  rw [failed, hfailure]

/-- The failed look at the back-reference: it is created where there is none, and a stale one is
taken for an identical one. -/
theorem protected_failed_probeRef_iff (hdir : L.packageDir target = some dir)
    (hlink : S₁.link forward = some target) (prior : Option Path) :
    (failed L forward target prior (.probeRef dir) S₁).Protected L forward ↔
      ¬Stale L S₁ forward dir := by
  by_cases hnone : S₁.backRef (dir, L.nameForPath forward) = none
  · refine iff_of_true ?_ fun h => h.1 hnone
    exact protected_failed_of_linked rfl (completes_create hdir 11 (.inl rfl) hlink hnone)
  · have hcreate : (link forward target).advance L (.create dir) S₁ = some (.done, S₁) :=
      if_neg hnone
    have hfailed : failed L forward target prior (.probeRef dir) S₁ = S₁ := by
      simp [failed, onFailure, maxSteps, complete_of_advance hcreate, complete_done]
    rw [hfailed, protected_iff hlink hdir]
    simp [Stale, hnone]

/-- The points where a failed step can leave the link unprotected. -/
def LinkPoint.delicate : LinkPoint → Bool
  | .stage | .rename | .probeRef _ => true
  | _ => false

theorem failSafe_of_not_delicate (h : point.delicate = false) :
    FailSafe L forward target S point := by
  constructor
  · rintro (rfl | rfl)
    · cases h
    · cases h
  · rintro dir rfl
    cases h

theorem failSafe_probeRef_iff :
    FailSafe L forward target S (.probeRef dir) ↔ ¬RefStale L forward target S := by
  simp [FailSafe]

/-- **A failed step leaves the link protected** exactly if it is no failure to replace an existing
link, and no failure to see a stale back-reference. -/
theorem protected_failed_iff (hprotected : S.Protected L forward)
    (hdir : L.packageDir target = some dir)
    (hstands : LinkPrefix L forward target dir S point S₁) (hpoint : point ≠ .done) :
    (failed L forward target (S.link forward) point S₁).Protected L forward ↔
      FailSafe L forward target S point := by
  cases hstands with
  | start | readCurrent | probeOld | removeOld =>
    refine iff_of_true ?_ (failSafe_of_not_delicate rfl)
    exact protected_failed_of_linked rfl (completes_stage hdir 4)
  | stage | rename =>
    rw [failed_of_error rfl, protected_rollback_cleared_iff hprotected]
    simp [FailSafe]
  | refsDir hne | removeStale hne | recreate hne =>
    refine iff_of_true ?_ (failSafe_of_not_delicate rfl)
    exact protected_rollback hprotected (by simp) hne
  | probeRef hne =>
    rw [protected_failed_probeRef_iff hdir link_replaced, failSafe_probeRef_iff,
      refStale_iff hprotected hdir]
    rfl
  | readRef hne hsome =>
    refine iff_of_true ?_ (failSafe_of_not_delicate rfl)
    exact protected_failed_of_linked rfl (completes_probeStale hdir 9 (by simp))
  | probeStale hne hstale =>
    refine iff_of_true ?_ (failSafe_of_not_delicate rfl)
    -- the back-reference that was not seen is in the way
    have hrecreate : (link forward target).advance L (.recreate dir)
        (replaced L forward target S) = none := if_neg hstale.1
    have hfailed : failed L forward target (S.link forward) (.probeStale dir)
        (replaced L forward target S) =
        rollbackSymlink L forward (S.link forward) (replaced L forward target S) := by
      simp [failed, onFailure, maxSteps, complete, hrecreate]
    rw [hfailed]
    exact protected_rollback hprotected (by simp) hne
  | create hne hnone =>
    refine iff_of_true ?_ (failSafe_of_not_delicate rfl)
    have herror : (link forward target).onFailure L (.create dir)
        (replaced L forward target S) = none := if_pos hnone
    rw [failed_of_error herror]
    exact protected_rollback hprotected (by simp) hne
  | done S' => exact absurd rfl hpoint

/-- **When a cut link is recovered.** From a store with a protected install link, a link to a
package is cut before one of its steps. After a crash and a second run the link is protected exactly
if `CrashSafe` holds; after a failure of the step, and the rollback where there is one, exactly if
`FailSafe` holds. -/
theorem link_recovered_iff (hprotected : S.Protected L forward)
    (hdir : L.packageDir target = some dir) (n : ℕ)
    (hafter : (link forward target).after L S n = some (point, S₁))
    (hpoint : point ≠ .done) :
    ((crashed L forward target S₁).Protected L forward ↔ CrashSafe L forward target S point) ∧
      ((failed L forward target (S.link forward) point S₁).Protected L forward ↔
        FailSafe L forward target S point) := by
  have hstands := prefix_after hprotected hdir hafter
  exact ⟨protected_crashed_iff hprotected hdir hstands hpoint,
    protected_failed_iff hprotected hdir hstands hpoint⟩

end Exact

/-- Selecting a new package in a store with a protected link. When the rename fails, the rollback
leaves the link at the old package, whose back-reference is gone. When the process dies after the
rename, the second run leaves the link at the new package without a back-reference. -/
theorem linkedStore_not_recovered :
    (∃ S₁, (link ["current"] ["new"]).after plainLayout linkedStore 5 =
        some (.rename, S₁) ∧
      ¬(failed plainLayout ["current"] ["new"] (linkedStore.link ["current"]) .rename S₁).Protected
        plainLayout ["current"]) ∧
    ∃ S₁, (link ["current"] ["new"]).after plainLayout linkedStore 6 =
        some (.refsDir, S₁) ∧
      ¬(crashed plainLayout ["current"] ["new"] S₁).Protected plainLayout ["current"] := by
  constructor
  · refine ⟨_, rfl, fun hprotected => ?_⟩
    obtain ⟨dir, hdir, hback⟩ := hprotected ["old"] rfl
    cases hdir
    cases hback
  · refine ⟨_, rfl, fun hprotected => ?_⟩
    obtain ⟨dir, hdir, hback⟩ := hprotected ["new"] rfl
    cases hdir
    cases hback

/-- Cut before the old back-reference is removed, the link is recovered. -/
theorem linkedStore_recovered :
    ∃ S₁, (link ["current"] ["new"]).after plainLayout linkedStore 3 =
        some (.removeOld ["old"], S₁) ∧
      (crashed plainLayout ["current"] ["new"] S₁).Protected plainLayout ["current"] ∧
      (failed plainLayout ["current"] ["new"] (linkedStore.link ["current"]) (.removeOld ["old"])
        S₁).Protected plainLayout ["current"] := by
  refine ⟨_, rfl, ?_⟩
  obtain ⟨hcrash, hfail⟩ := link_recovered_iff (protected_linkedStore ["current"])
    (show plainLayout.packageDir ["new"] = some ["new"] from rfl) 3 rfl (by decide)
  exact ⟨hcrash.2 (crashSafe_of_before rfl), hfail.2 (failSafe_of_not_delicate rfl)⟩

end Ocx
