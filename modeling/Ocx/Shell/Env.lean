import Ocx.Package.Closure
import Ocx.Util.Replace

/-!
# Environments and entries

A resolved entry sets a variable, puts a directory in front of a path variable or appends an option
to a list variable.  Contributing twice moves the contribution to its end of the variable.  The
comparisons are those of a Unix host, where keys and path elements are compared exactly.
-/

namespace Ocx

/-- A resolved environment entry. -/
structure Entry where
  key : String
  value : String
  kind : ModifierKind
  /-- The declared separator of a list. -/
  separator : Option String := none
deriving DecidableEq

/-- An environment: the value of each variable that is set. -/
abbrev Env := String → Option String

/-- The separator of a list that declares none. -/
def defaultSeparator : String := " "

def pathSeparator : Char := ':'

def Entry.effectiveSeparator (e : Entry) : String := e.separator.getD defaultSeparator

/-- A text without one surrounding pair of quotation marks. -/
def stripOneQuotePair (value : String) : String :=
  (((stripFront ['"'] value.toList).bind (stripEnd ['"'])).map String.ofList).getD value

/-! ### Path variables -/

/-- The segments of a path variable. -/
def splitPaths (value : String) : List String :=
  (value.toList.splitOn pathSeparator).map String.ofList

/-- A path variable with the given segments. -/
def joinPaths (segments : List String) : String :=
  String.ofList ([pathSeparator].intercalate (segments.map String.toList))

/-- The segments that are neither empty nor the value, joined. -/
def retained (existing value : String) : String :=
  joinPaths ((splitPaths existing).filter fun segment => segment ≠ "" ∧ segment ≠ value)

/-- Take every occurrence of a segment out of a path variable. -/
def removeSegment (existing value : String) : String :=
  retained existing (stripOneQuotePair value)

/-- Put a segment in front of a path variable. -/
def moveToFront (existing value : String) : String :=
  let survivors := retained existing value
  if value = "" then survivors
  else if survivors = "" then value
  else value ++ String.singleton pathSeparator ++ survivors

/-! ### List variables -/

/-- A list between two separators, without the occurrences of a value between separators. -/
def withoutElement (existing value separator : List Char) : List Char :=
  let wrapped := separator ++ existing ++ separator
  replaceUntil (separator ++ value ++ separator) separator wrapped.length wrapped

/-- Append a value to a list variable, after taking out its earlier occurrences. -/
def appendUnique (existing value separator : String) : String :=
  if value = "" then existing
  else
    let wrapped := withoutElement existing.toList value.toList separator.toList
    let survivors :=
      ((stripFront separator.toList wrapped).bind (stripEnd separator.toList)).getD []
    if survivors = [] then value
    else String.ofList (survivors ++ separator.toList ++ value.toList)

/-- Take every occurrence of a value out of a list variable. -/
def removeElement (existing value separator : String) : String :=
  -- an unset or empty variable is wrapped in one separator only
  let wrapped :=
    if existing = "" then separator.toList
    else withoutElement existing.toList value.toList separator.toList
  let front := (stripFront separator.toList wrapped).getD wrapped
  String.ofList ((stripEnd separator.toList front).getD front)

/-! ### Folding entries -/

/-- What an entry makes of the value of its variable. -/
def Entry.apply (e : Entry) (value : Option String) : Option String :=
  match e.kind with
  | .constant => some e.value
  | .path =>
    match value with
    | some existing => some (moveToFront existing e.value)
    | none => some e.value
  | .list =>
    if e.value = "" then value
    else some (appendUnique (value.getD "") e.value e.effectiveSeparator)

namespace Env

variable (env : Env)

def set (key value : String) : Env := Function.update env key (some value)

def applyEntry (e : Entry) : Env := Function.update env e.key (e.apply (env e.key))

def applyEntries (entries : List Entry) : Env := entries.foldl applyEntry env

variable {env}

@[simp] theorem applyEntries_nil : env.applyEntries [] = env := rfl

@[simp] theorem applyEntries_cons (e : Entry) (es : List Entry) :
    env.applyEntries (e :: es) = (env.applyEntry e).applyEntries es := rfl

theorem applyEntries_apply (es : List Entry) (key : String) :
    env.applyEntries es key =
      (es.filter (·.key = key)).foldl (fun value e => e.apply value) (env key) := by
  induction es generalizing env with
  | nil => rfl
  | cons e es ih =>
    rw [applyEntries_cons, ih, List.filter_cons]
    unfold applyEntry
    by_cases h : e.key = key
    · subst h
      simp
    · simp [h, Function.update_of_ne (Ne.symm h)]

theorem applyEntries_of_filter_eq_nil {es : List Entry} {key : String}
    (h : es.filter (·.key = key) = []) : env.applyEntries es key = env key := by
  rw [applyEntries_apply, h]
  rfl

end Env

end Ocx
