import Ocx.Store.References
import Ocx.Util.Interleave

/-!
# Links that race

Any number of calls link and unlink at the same time, one file-system step at a time and without a
lock. Every call that removes a back-reference to an install link replaces or removes the link
afterwards, and a call that replaced the link writes the back-reference of its package afterwards.
So the call that replaces a link last also writes its back-reference last: when all calls are done,
the packages that install links point at refer back to them.
-/

namespace Ocx

open LinkCall Option

/-! ### What a step writes -/

section Step

variable {L : RefLayout} {call : LinkCall} {point point' : LinkPoint} {S S' : LinkStore}
  {target : Path}

theorem advance_frame (h : call.advance L point S = some (point', S')) :
    (∀ forward, forward ≠ call.forward → S'.link forward = S.link forward) ∧
      ∀ dir name, name ≠ L.nameForPath call.forward →
        S'.backRef (dir, name) = S.backRef (dir, name) := by
  cases call <;> cases point <;>
    simp only [advance, reduceCtorEq] at h <;> grind

theorem advance_backRef (h : call.advance L point S = some (point', S')) (dir : Path) :
    (S'.backRef (call.refTo L dir) = S.backRef (call.refTo L dir) ∨
        S'.backRef (call.refTo L dir) = none ∨
        S'.backRef (call.refTo L dir) = some call.forward) ∧
      (point' = .create dir → S'.backRef (call.refTo L dir) = none) := by
  cases call <;> cases point <;>
    simp only [advance, reduceCtorEq] at h <;> grind

/-- A call will still replace or remove its install link, or write the back-reference of the package
the link points at. -/
def LinkPending (L : RefLayout) (target : Path) (call : LinkCall) : LinkPoint → Prop
  | .probeOld _ | .removeOld _ | .stage | .rename | .probeLink | .removeLink => True
  | .refsDir => call = .link call.forward target
  | .probeRef dir | .readRef dir | .probeStale dir | .removeStale dir | .recreate dir
  | .create dir => L.packageDir target = some dir
  | .start | .readCurrent | .done => False

theorem pending_afterOld : LinkPending L target call call.afterOld := by
  cases call <;> trivial

/-- The install link only changes to the target of the call, which then writes the
back-reference. -/
theorem advance_link (h : call.advance L point S = some (point', S'))
    (hlink : S'.link call.forward = some target) :
    S.link call.forward = some target ∨ LinkPending L target call point' := by
  cases point with
  | rename =>
    cases call with
    | unlink forward => cases h
    | link forward target' =>
      cases h
      refine .inr ?_
      have heq : some target' = some target := by simpa [LinkCall.forward] using hlink
      rw [LinkPending, some.inj heq, LinkCall.forward]
  | _ => cases call <;>
      simp only [advance, reduceCtorEq] at h <;> grind

/-- A call that removes a back-reference to its link goes on to replace or remove the link, or to
write the back-reference again. -/
theorem advance_refersBack (h : call.advance L point S = some (point', S'))
    (hback : S.RefersBack L call.forward target) :
    S'.RefersBack L call.forward target ∨ LinkPending L target call point' := by
  obtain ⟨dir, hdir, href⟩ := hback
  have hkept : S'.backRef (call.refTo L dir) = S.backRef (call.refTo L dir) →
      S'.RefersBack L call.forward target := fun hsame => ⟨dir, hdir, hsame.trans href⟩
  cases point with
  | removeOld old =>
    simp only [advance] at h
    cases h
    exact .inr pending_afterOld
  | removeStale stale =>
    by_cases hstale : stale = dir
    · subst hstale
      simp only [advance] at h
      split_ifs at h
      cases h
      exact .inr hdir
    · refine .inl (hkept ?_)
      simp only [advance] at h
      split_ifs at h
      cases h
      simp [refTo, Ne.symm hstale]
  | _ => cases call <;> simp only [advance, reduceCtorEq] at h <;> grind

theorem advance_pending (h : call.advance L point S = some (point', S'))
    (hpending : LinkPending L target call point) (hlink : S'.link call.forward = some target)
    (hcreate : ∀ dir, point = .create dir → S.backRef (call.refTo L dir) = none ∨
      S.backRef (call.refTo L dir) = some call.forward) :
    S'.RefersBack L call.forward target ∨ LinkPending L target call point' := by
  cases point with
  | start | readCurrent | done => cases hpending
  | probeOld dir =>
    simp only [advance] at h
    cases h
    split_ifs
    · exact .inr pending_afterOld
    · exact .inr trivial
  | removeOld dir =>
    simp only [advance] at h
    cases h
    exact .inr pending_afterOld
  | stage =>
    cases call <;> cases h
    exact .inr trivial
  | rename =>
    -- the link points at the target of the call now
    cases call with
    | unlink forward => cases h
    | link forward target' =>
      cases h
      have heq : some target' = some target := by simpa [LinkCall.forward] using hlink
      rw [LinkPending, some.inj heq, LinkCall.forward]
      exact .inr rfl
  | refsDir =>
    rw [hpending] at h
    simp only [advance] at h
    split at h
    · next dir hdir =>
      cases h
      exact .inr hdir
    · cases h
  | probeRef dir | probeStale dir =>
    simp only [advance] at h
    cases h
    split_ifs
    · exact .inr hpending
    · exact .inr hpending
  | readRef dir =>
    simp only [advance] at h
    cases h
    split_ifs with hgood
    · exact .inl ⟨dir, hpending, hgood⟩
    · exact .inr hpending
  | removeStale dir =>
    simp only [advance] at h
    split_ifs at h
    cases h
    exact .inr hpending
  | recreate dir =>
    simp only [advance] at h
    split_ifs at h
    cases h
    exact .inl ⟨dir, hpending, by simp [refTo]⟩
  | create dir =>
    simp only [advance] at h
    split_ifs at h with hnone
    · cases h
      exact .inl ⟨dir, hpending, by simp [refTo]⟩
    · cases h
      exact .inl ⟨dir, hpending, (hcreate dir rfl).resolve_left hnone⟩
  | probeLink =>
    cases call with
    | link forward target' => cases h
    | unlink forward =>
      cases h
      split_ifs with hnone
      · rw [LinkCall.forward, hnone] at hlink
        cases hlink
      · exact .inr trivial
  | removeLink =>
    cases call with
    | link forward target' => cases h
    | unlink forward =>
      simp only [LinkCall.advance] at h
      split_ifs at h
      cases h
      simp [LinkCall.forward] at hlink

end Step

/-! ### All calls together -/

section Race

variable {ι : Type} [DecidableEq ι]

def linkPrograms (L : RefLayout) (calls : ι → LinkCall) :
    ι → LinkPoint → LinkStore → Option (LinkPoint × LinkStore) :=
  fun i => (calls i).advance L

/-- An install link is watched: its package refers back to it, or some call is pending. -/
structure Watched (L : RefLayout) (calls : ι → LinkCall) (forward : Path)
    (w : World LinkStore ι LinkPoint) : Prop where
  covered : ∀ target, w.store.link forward = some target →
    w.store.RefersBack L forward target ∨
      ∃ i, (calls i).forward = forward ∧ LinkPending L target (calls i) (w.point i)
  /-- A call about to create a back-reference finds none or an identical one. -/
  creating : ∀ i dir, (calls i).forward = forward → w.point i = .create dir →
    w.store.backRef (dir, L.nameForPath forward) = none ∨
      w.store.backRef (dir, L.nameForPath forward) = some forward

variable {L : RefLayout} {calls : ι → LinkCall} {forward : Path}
    {w w' : World LinkStore ι LinkPoint}
  {i : ι}

theorem watched_step_of_ne (hname : L.nameForPath forward ≠ L.nameForPath (calls i).forward)
    (hwatched : Watched L calls forward w)
    (hstep : w.step (linkPrograms L calls) i = some w') : Watched L calls forward w' := by
  obtain ⟨hadvance, hothers⟩ := World.step_eq_some_iff.1 hstep
  obtain ⟨hlink, href⟩ := advance_frame hadvance
  have hne : forward ≠ (calls i).forward := fun heq => hname (by rw [heq])
  have hsame : ∀ j, (calls j).forward = forward → w'.point j = w.point j := by
    intro j hj
    refine hothers j ?_
    rintro rfl
    exact hne hj.symm
  refine ⟨fun target htarget => ?_, fun j dir hj hpoint => ?_⟩
  · rw [hlink forward hne] at htarget
    rcases hwatched.covered target htarget with ⟨dir, hdir, hback⟩ | ⟨j, hj, hpending⟩
    · exact .inl ⟨dir, hdir, by rw [href dir _ hname, hback]⟩
    · exact .inr ⟨j, hj, by rwa [hsame j hj]⟩
  · rw [href dir _ hname]
    exact hwatched.creating j dir hj (by rw [← hsame j hj, hpoint])

theorem watched_step_of_eq (hforward : (calls i).forward = forward)
    (hwatched : Watched L calls forward w)
    (hstep : w.step (linkPrograms L calls) i = some w') : Watched L calls forward w' := by
  obtain ⟨hadvance, hothers⟩ := World.step_eq_some_iff.1 hstep
  subst hforward
  refine ⟨fun target htarget => ?_, fun j dir hj hpoint => ?_⟩
  · have hself : w'.store.RefersBack L (calls i).forward target ∨
        LinkPending L target (calls i) (w'.point i) →
        w'.store.RefersBack L (calls i).forward target ∨
          ∃ j, (calls j).forward = (calls i).forward ∧
            LinkPending L target (calls j) (w'.point j) :=
      fun h => h.imp_right fun hpending => ⟨i, rfl, hpending⟩
    rcases advance_link hadvance htarget with hbefore | hpending
    · rcases hwatched.covered target hbefore with hback | ⟨j, hj, hpending⟩
      · exact hself (advance_refersBack hadvance hback)
      · by_cases hji : j = i
        · subst hji
          exact hself (advance_pending hadvance hpending htarget
            fun dir hdir => hwatched.creating j dir rfl hdir)
        · exact .inr ⟨j, hj, by rwa [hothers j hji]⟩
    · exact hself (.inr hpending)
  · obtain ⟨hwrites, hcreate⟩ := advance_backRef hadvance dir
    by_cases hji : j = i
    · subst hji
      exact .inl (hcreate hpoint)
    · rw [hothers j hji] at hpoint
      rcases hwrites with hsame | hnone | hsome
      · have hsame' : w'.store.backRef (dir, L.nameForPath (calls i).forward) =
            w.store.backRef (dir, L.nameForPath (calls i).forward) := hsame
        rw [hsame']
        exact hwatched.creating j dir hj hpoint
      · exact .inl hnone
      · exact .inr hsome

/-- **Every step of every call keeps a link watched**, if no call for another link uses its
name. -/
theorem watched_step
    (hnames : ∀ i, L.nameForPath (calls i).forward = L.nameForPath forward →
      (calls i).forward = forward)
    (hwatched : Watched L calls forward w)
    (hstep : w.step (linkPrograms L calls) i = some w') : Watched L calls forward w' := by
  by_cases hforward : (calls i).forward = forward
  · exact watched_step_of_eq hforward hwatched hstep
  · exact watched_step_of_ne (fun hname => hforward (hnames i hname.symm)) hwatched hstep

/-- **The last call to replace a link writes its back-reference last.** Any number of link and
unlink calls start in a store whose install links are protected and take their file-system steps in
any order, without a failing step. When all of them are done, the install links they are about are
protected. -/
theorem protected_of_run (hnames : ∀ i j,
      L.nameForPath (calls i).forward = L.nameForPath (calls j).forward →
        (calls i).forward = (calls j).forward)
    (S : LinkStore) (hprotected : ∀ forward, S.Protected L forward) (schedule : List ι)
    (hrun : (⟨S, fun _ => .start⟩ : World LinkStore ι LinkPoint).run (linkPrograms L calls)
      schedule = some w)
    (hdone : ∀ i, w.point i = .done) (i : ι) : w.store.Protected L (calls i).forward := by
  have hwatched : Watched L calls (calls i).forward w := by
    refine World.run_invariant hrun _ ⟨fun target htarget => ?_, nofun⟩ ?_
    · exact .inl (hprotected _ target htarget)
    · exact fun w j w' => watched_step (fun k => hnames k i)
  intro target htarget
  rcases hwatched.covered target htarget with hback | ⟨j, -, hpending⟩
  · exact hback
  · rw [hdone j] at hpending
    cases hpending

end Race

/-- Two calls for the same link. -/
def racingCalls (first : Bool) : LinkCall :=
  .link ["current"] (if first then ["new"] else ["other"])

/-- Both calls read the old package before either of them replaces the link. -/
def raceSchedule : List Bool :=
  [true, false, true, false, true, true, false, true, true, false, false, true, true, true,
    false, false, false]

/-- The race leaves the link protected. -/
theorem linkedStore_race_protected :
    ∃ w, (⟨linkedStore, fun _ => .start⟩ : World LinkStore Bool LinkPoint).run
        (linkPrograms plainLayout racingCalls) raceSchedule = some w ∧
      w.store.link ["current"] = some ["other"] ∧
      w.store.Protected plainLayout ["current"] := by
  have hnames : ∀ i j, plainLayout.nameForPath (racingCalls i).forward =
      plainLayout.nameForPath (racingCalls j).forward →
        (racingCalls i).forward = (racingCalls j).forward := fun _ _ _ => rfl
  refine ⟨_, rfl, rfl, ?_⟩
  exact protected_of_run hnames linkedStore protected_linkedStore raceSchedule rfl
    (fun i => by cases i <;> rfl) true

end Ocx
