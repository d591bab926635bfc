import Ocx.Store.Layout

/-!
# Install links and their back-references

An install link points at a package, and the package holds a back-reference to the link, so that the
collector keeps it. Linking removes the back-reference of the old package, replaces the link by a
rename and then writes the back-reference of the new package; unlinking removes the back-reference
and then the link. Neither takes a lock. The calls are modelled one file-system step at a time.

A link is a no-op when the install link points at the wanted package already. It does not look at
the back-reference then.
-/

namespace Ocx

/-! ### The store -/

/-- Where back-references are. -/
structure RefLayout where
  /-- The package directory of a link's target, when it is one (`package_dir_for_content`). -/
  packageDir : Path → Option Path
  /-- The name of the back-reference to a link (`name_for_path`). -/
  nameForPath : Path → String

/-- The install links and the back-references. -/
structure LinkStore where
  /-- What an install link points at. -/
  link : Path → Option Path
  /-- What a back-reference points at, by package directory and name. -/
  backRef : Path × String → Option Path

namespace LinkStore

/-- The store with another install link. -/
def setLink (S : LinkStore) (forward : Path) (target : Option Path) : LinkStore :=
  { S with link := Function.update S.link forward target }

/-- The store with another back-reference. -/
def setRef (S : LinkStore) (ref : Path × String) (forward : Option Path) : LinkStore :=
  { S with backRef := Function.update S.backRef ref forward }

variable (S : LinkStore)

@[simp, grind =] theorem link_setLink (forward other : Path) (target : Option Path) :
    (S.setLink forward target).link other = if other = forward then target else S.link other :=
  Function.update_apply ..

@[simp, grind =] theorem backRef_setLink (forward : Path) (target : Option Path) :
    (S.setLink forward target).backRef = S.backRef := rfl

@[simp, grind =] theorem link_setRef (ref : Path × String) (value : Option Path) :
    (S.setRef ref value).link = S.link := rfl

@[simp, grind =] theorem backRef_setRef (ref other : Path × String) (value : Option Path) :
    (S.setRef ref value).backRef other = if other = ref then value else S.backRef other :=
  Function.update_apply ..

/-- The target is a package that refers back to the link. -/
def RefersBack (L : RefLayout) (S : LinkStore) (forward target : Path) : Prop :=
  ∃ dir, L.packageDir target = some dir ∧ S.backRef (dir, L.nameForPath forward) = some forward

/-- If the link exists, it points at a package that refers back to it. -/
def Protected (L : RefLayout) (S : LinkStore) (forward : Path) : Prop :=
  ∀ target, S.link forward = some target → S.RefersBack L forward target

end LinkStore

/-! ### The calls -/

/-- A call of the reference manager. -/
inductive LinkCall
  | link (forward target : Path)
  | unlink (forward : Path)
deriving DecidableEq

/-- The install link a call is about. -/
@[grind] def LinkCall.forward : LinkCall → Path
  | .link forward _ => forward
  | .unlink forward => forward

/-- The points between the file-system steps of a call: each is named after the step that comes
next. -/
inductive LinkPoint
  /-- Is the install link there? -/
  | start
  /-- Read the install link. -/
  | readCurrent
  /-- Is the back-reference of the old package there? -/
  | probeOld (dir : Path)
  /-- Remove the back-reference of the old package. -/
  | removeOld (dir : Path)
  /-- Stage the new install link beside the old one. -/
  | stage
  /-- Rename the staged link over the old one. -/
  | rename
  /-- Find the directory for the back-reference, and create it. -/
  | refsDir
  /-- Is the back-reference there? -/
  | probeRef (dir : Path)
  /-- Read the back-reference. -/
  | readRef (dir : Path)
  /-- Is the stale back-reference still there? -/
  | probeStale (dir : Path)
  | removeStale (dir : Path)
  /-- Create the back-reference in its place. -/
  | recreate (dir : Path)
  /-- Create the back-reference where there was none. -/
  | create (dir : Path)
  /-- Is the install link still there? -/
  | probeLink
  | removeLink
  | done
deriving DecidableEq

namespace LinkCall

variable (L : RefLayout)

/-- Where a call goes on once the old back-reference is dealt with. -/
@[grind] def afterOld : LinkCall → LinkPoint
  | .link _ _ => .stage
  | .unlink _ => .probeLink

/-- The back-reference of a package to the link of the call. -/
@[grind] def refTo (call : LinkCall) (dir : Path) : Path × String :=
  (dir, L.nameForPath call.forward)

/-- One file-system step of a call; none when the step fails and the call with it. -/
def advance (call : LinkCall) (point : LinkPoint) (S : LinkStore) :
    Option (LinkPoint × LinkStore) :=
  match call, point with
  | .link forward _, .start =>
    some (if S.link forward = none then .stage else .readCurrent, S)
  | .unlink forward, .start =>
    some (if S.link forward = none then .done else .readCurrent, S)
  | call, .readCurrent =>
    match S.link call.forward with
    | none => some (call.afterOld, S)
    | some current =>
      -- already up to date
      if call = .link call.forward current then some (.done, S) else
        match L.packageDir current with
        | some dir => some (.probeOld dir, S)
        -- the old object may be collected already
        | none => some (call.afterOld, S)
  | call, .probeOld dir =>
    some (if S.backRef (call.refTo L dir) = none then call.afterOld else .removeOld dir, S)
  -- a failure of this removal is ignored
  | call, .removeOld dir => some (call.afterOld, S.setRef (call.refTo L dir) none)
  | .link _ _, .stage => some (.rename, S)
  | .link forward target, .rename => some (.refsDir, S.setLink forward (some target))
  | .link _ target, .refsDir =>
    match L.packageDir target with
    | some dir => some (.probeRef dir, S)
    | none => none
  | call, .probeRef dir =>
    some (if S.backRef (call.refTo L dir) = none then .create dir else .readRef dir, S)
  | call, .readRef dir =>
    some (if S.backRef (call.refTo L dir) = some call.forward then .done else .probeStale dir, S)
  | call, .probeStale dir =>
    some (if S.backRef (call.refTo L dir) = none then .recreate dir else .removeStale dir, S)
  | call, .removeStale dir =>
    if S.backRef (call.refTo L dir) = none then none
    else some (.recreate dir, S.setRef (call.refTo L dir) none)
  | call, .recreate dir =>
    if S.backRef (call.refTo L dir) = none
    then some (.done, S.setRef (call.refTo L dir) (some call.forward)) else none
  -- a link that exists by now is a racer's identical one
  | call, .create dir =>
    if S.backRef (call.refTo L dir) = none
    then some (.done, S.setRef (call.refTo L dir) (some call.forward)) else some (.done, S)
  | .unlink forward, .probeLink =>
    some (if S.link forward = none then .done else .removeLink, S)
  | .unlink forward, .removeLink =>
    if S.link forward = none then none else some (.done, S.setLink forward none)
  -- no call gets to the points of the other one
  | .unlink _, .stage | .unlink _, .rename | .unlink _, .refsDir => none
  | .link _ _, .probeLink | .link _ _, .removeLink => none
  | _, .done => none

end LinkCall

/-! ### A sample store -/

/-- Packages that are their own directories, and links named by their last component. -/
def plainLayout : RefLayout where
  packageDir target := some target
  nameForPath forward := forward.getLastD ""

/-- A store where an install link points at a package that refers back to it. -/
def linkedStore : LinkStore where
  link forward := if forward = ["current"] then some ["old"] else none
  backRef ref := if ref = (["old"], "current") then some ["current"] else none

theorem protected_linkedStore (forward : Path) : linkedStore.Protected plainLayout forward := by
  intro target htarget
  simp only [linkedStore] at htarget
  split_ifs at htarget with hforward
  cases htarget
  subst hforward
  exact ⟨["old"], rfl, rfl⟩

end Ocx
