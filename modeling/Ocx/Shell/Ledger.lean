import Ocx.Shell.Env

/-!
# The ledger of a shell

What ocx has applied to a shell is recorded in a ledger that the shell carries from prompt to
prompt: the entries of the global scope and of the project scope, and for the constants among them
the values that a later prompt restores.
-/

namespace Ocx

/-! ### Comparing values -/

/-- A value without one surrounding pair of quotation marks. -/
def unquote (value : String) : String := stripOneQuotePair value

/-- Two values that count as the same for the kind that wrote them. -/
def elementEq (left right : String) : ModifierKind → Bool
  | .list => left = right
  | .path | .constant => unquote left = unquote right

/-- The values that count as the same have one normal form. -/
def elementNorm (value : String) : ModifierKind → String
  | .list => value
  | .path | .constant => unquote value

theorem elementEq_iff {left right : String} {kind : ModifierKind} :
    elementEq left right kind = true ↔ elementNorm left kind = elementNorm right kind := by
  cases kind <;> simp [elementEq, elementNorm]

@[simp] theorem elementEq_self (value : String) (kind : ModifierKind) :
    elementEq value value kind = true := elementEq_iff.2 rfl

/-- The keys that no scope may declare as a constant. -/
def neverConstant : List String := ["PATH", "PATHEXT"]

/-- The key is reserved for path variables. -/
def isNeverConstant (key : String) : Bool := neverConstant.contains key

/-! ### The record -/

structure LedgerEntry where
  key : String
  value : String
  kind : ModifierKind
  /-- The effective separator of a list. -/
  separator : Option String
deriving DecidableEq

def LedgerEntry.ofEntry (e : Entry) : LedgerEntry where
  key := e.key
  value := e.value
  kind := e.kind
  separator := if e.kind = .list then some e.effectiveSeparator else none

/-- The value a variable had before ocx set it. -/
inductive Prior
  | unset
  | value (text : String)
deriving DecidableEq

/-- The recorded value of a variable. -/
def Prior.ofObserved : Option String → Prior
  | some text => .value text
  | none => .unset

/-- What a restore sets the variable to. -/
def Prior.restored : Prior → Option String
  | .unset => none
  | .value text => some text

@[simp] theorem Prior.restored_ofObserved (v : Option String) :
    (Prior.ofObserved v).restored = v := by cases v <;> rfl

/-- The recorded values of one scope's constants. -/
abbrev Priors := String → Option Prior

/-- Which project a scope belongs to. -/
structure ProjectIdentity where
  key : String
  dir : String
deriving DecidableEq

structure ProjectScope where
  identity : ProjectIdentity
  applied : List LedgerEntry
  /-- Taken from the environment after the global scope is applied. -/
  priors : Priors

structure Scopes where
  «global» : Option (List LedgerEntry) := none
  /-- Taken from the environment before the global scope is applied. -/
  globalPriors : Priors := fun _ => none
  project : Option ProjectScope := none

/-- The record that a shell carries. -/
structure Ledger where
  scopes : Scopes := {}

namespace Ledger

variable (ledger : Ledger)

/-- The record of a shell's first prompt. -/
def empty : Ledger := {}

/-- The recorded entries of the global scope. -/
def globalApplied : List LedgerEntry := ledger.scopes.global.getD []

/-- The recorded entries of the project scope. -/
def projectApplied : List LedgerEntry := (ledger.scopes.project.map (·.applied)).getD []

/-- The recorded entries of both scopes, global first. -/
def appliedInEmissionOrder : List LedgerEntry := ledger.globalApplied ++ ledger.projectApplied

/-- The value the project replaced is the one the global scope had set. -/
def globalOwns (key : String) : Prior → Bool
  | .unset => false
  | .value text => ledger.globalApplied.any fun e =>
      e.kind = .constant && e.key = key && elementEq e.value text .constant

/-- The value to restore a constant to. -/
def prior (key : String) : Option Prior :=
  match ledger.scopes.project.bind (·.priors key) with
  | none => ledger.scopes.globalPriors key
  | some project =>
    if ledger.globalOwns key project then (ledger.scopes.globalPriors key).or (some project)
    else some project

end Ledger

/-! ### Recording what constants replace -/

/-- The value recorded at an earlier prompt, while the variable still has what ocx wrote. -/
def carriedPrior (observed : Option String) (previous : Option (List LedgerEntry × Priors))
    (key : String) : Option Prior := do
  let (applied, priors) ← previous
  let recorded ← applied.find? fun e => e.key = key && e.kind = .constant
  let current ← observed
  if elementEq recorded.value current .constant then priors key else none

/-- The value to record for a constant. -/
def capturedPrior (current : Env) (previous : Option (List LedgerEntry × Priors)) (key : String) :
    Prior :=
  (carriedPrior (current key) previous key).getD (.ofObserved (current key))

/-- Record the values that constants are about to replace. -/
def capturePriors (applied : List LedgerEntry) (current : Env)
    (previous : Option (List LedgerEntry × Priors)) : Priors :=
  applied.foldl
    (fun priors e =>
      if e.kind = .constant then
        Function.update priors e.key (some (capturedPrior current previous e.key))
      else priors)
    fun _ => none

/-- A value is recorded for exactly the keys that are applied as constants. -/
theorem capturePriors_eq (applied : List LedgerEntry) (current : Env)
    (previous : Option (List LedgerEntry × Priors)) (key : String) :
    capturePriors applied current previous key =
      if applied.any (fun e => e.key = key && e.kind = .constant) then
        some (capturedPrior current previous key)
      else none := by
  unfold capturePriors
  induction applied using List.reverseRecOn with
  | nil => rfl
  | append_singleton applied e ih =>
    rw [List.foldl_concat, List.any_append]
    by_cases hkind : e.kind = .constant
    · rw [if_pos hkind]
      by_cases hkey : e.key = key
      · subst hkey
        simp [hkind]
      · rw [Function.update_of_ne (Ne.symm hkey), ih]
        simp [hkey]
    · rw [if_neg hkind, ih]
      simp [hkind]

end Ocx
