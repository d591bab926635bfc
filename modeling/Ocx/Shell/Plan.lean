import Ocx.Fs.Path
import Ocx.Shell.Ledger

/-!
# Planning a prompt

At each prompt the entries that are desired now are compared with the live environment and with the
ledger.  The result is a plan: the entries to apply, the constants to restore and the elements to
take out.
-/

namespace Ocx

open List

variable {key : String} {entries desired : List Entry} {ledger : Ledger} {current : Env}
  {owned : List String}

/-! ### The entries that are admitted -/

/-- The name is one that a shell accepts for a variable. -/
def isValidEnvKey (key : String) : Bool :=
  match key.toList with
  | [] => false
  | c :: s => (c.isAlpha || c = '_') && s.all fun c => c.isAlphanum || c = '_'

/-- Refuse an entry that no shell can emit and later revert. -/
def isEmittable (e : Entry) : Except String Unit :=
  let element := e.kind = .path ∨ e.kind = .list
  if ¬isValidEnvKey e.key then .error "not a valid environment-variable name"
  else if e.kind = .path ∧ pathSeparator ∈ e.value.toList then
    .error "a path value may not embed the platform path separator"
  else if element ∧ e.value = "" then .error "an empty element cannot be emitted or removed"
  else if element ∧ ('\n' ∈ e.value.toList ∨ '\r' ∈ e.value.toList) then
    .error "an element may not contain a line break"
  else .ok ()

/-- Refuse an entry that is not applied. -/
def admits (e : Entry) : Except String Unit :=
  if e.kind = .constant ∧ isNeverConstant e.key then
    .error "PATH and PATHEXT are never constant-kind"
  else isEmittable e

def admitted (e : Entry) : Bool :=
  match admits e with
  | .ok _ => true
  | .error _ => false

def emittableEntries (desired : List Entry) : List Entry := desired.filter admitted

/-! ### Indexes -/

def declaredIndex (entries : List Entry) (key : String) : Option Entry :=
  (entries.filter (·.key = key)).getLast?

def recordedIndex (ledger : Ledger) (key : String) : Option LedgerEntry :=
  (ledger.appliedInEmissionOrder.filter (·.key = key)).getLast?

/-- An element that is still wanted. -/
def contributes (entries : List Entry) (key normal : String) : Bool :=
  entries.any fun e => e.kind ≠ .constant && e.key = key && elementNorm e.value e.kind = normal

def declaresConstant (entries : List Entry) (key : String) : Bool :=
  entries.any fun e => e.key = key && e.kind = .constant

/-! ### The entries to set -/

/-- Two segments name the same directory, or differ in quotation marks only. -/
def pathSegmentEq (left right : String) : Bool :=
  components left = components right || elementEq left right .path

/-- Two path variables have the same segments. -/
def pathSegmentsEq (left right : String) : Bool :=
  let left := splitPaths left
  let right := splitPaths right
  left.length = right.length && (left.zip right).all fun pair => pathSegmentEq pair.1 pair.2

/-- The folded value is the live one, by the rule of its kind. -/
def valueSettled (folded live : Option String) (kind : ModifierKind) : Bool :=
  match folded, live with
  | none, none => true
  | some folded, some live => if kind = .path then pathSegmentsEq folded live else folded = live
  | _, _ => false

/-- Some entry contributes elements to the key. -/
def isCandidate (entries : List Entry) (key : String) : Bool :=
  entries.any fun e => e.key = key && e.kind ≠ .constant

/-- The rule that decides whether the key is settled. -/
def candidateKind (entries : List Entry) (key : String) : ModifierKind :=
  if entries.any fun e => e.key = key && e.kind = .list then .list else .path

/-- The live values of the keys that elements are contributed to. -/
def probe (entries : List Entry) (current : Env) : Env :=
  fun key => if isCandidate entries key then current key else none

/-- Folding the entries again would not change the variable. -/
def settled (entries : List Entry) (current : Env) (key : String) : Bool :=
  isCandidate entries key && !declaresConstant entries key &&
    valueSettled ((probe entries current).applyEntries entries key) (current key)
      (candidateKind entries key)

/-- Applying the entry would change something. -/
def changes (entries : List Entry) (ledger : Ledger) (current : Env) (e : Entry) : Bool :=
  match e.kind with
  | .constant => !(recordedIndex ledger e.key).any fun previous =>
      previous.kind = .constant && elementEq previous.value e.value .constant
  | .path | .list => !settled entries current e.key

/-- The entries whose application would change something. -/
def applySet (entries : List Entry) (ledger : Ledger) (current : Env) : List Entry :=
  entries.filter (changes entries ledger current)

/-! ### What is taken back -/

/-- An element to take out of a variable; a path variable has no separator of its own. -/
structure Removal where
  key : String
  element : String
  separator : Option String
deriving DecidableEq

/-- Take out a recorded element that is no longer wanted. -/
def retireRecordedElement (entries : List Entry) (e : LedgerEntry) : Option Removal :=
  let current := declaredIndex entries e.key
  let kind := (current.map (·.kind)).getD e.kind
  if contributes entries e.key (elementNorm e.value kind) then none
  else
    match current with
    | some d =>
      match d.kind with
      | .constant => none
      | .path => some ⟨e.key, e.value, none⟩
      | .list => some ⟨e.key, e.value, some d.effectiveSeparator⟩
    | none =>
      match e.kind with
      | .path => some ⟨e.key, e.value, none⟩
      | _ => some ⟨e.key, e.value, some (e.separator.getD defaultSeparator)⟩

/-- Restore a recorded constant that is no longer declared, while it is still what ocx wrote. -/
def retireRecordedConstant (entries : List Entry) (current : Env) (ledger : Ledger)
    (e : LedgerEntry) : Option (String × Option String) :=
  if isNeverConstant e.key || (declaredIndex entries e.key).isSome then none
  else
    match current e.key with
    | none => none
    | some observed =>
      if elementEq observed e.value .constant then
        (ledger.prior e.key).map fun prior => (e.key, prior.restored)
      else none

/-- The path variables that a repair looks at. -/
def repairedKeys (entries : List Entry) (ledger : Ledger) : List String :=
  let declared := (entries.map (·.key)).filter fun key =>
    (declaredIndex entries key).any (·.kind = .path)
  let recorded := (ledger.appliedInEmissionOrder.map (·.key)).filter fun key =>
    (recordedIndex ledger key).any (·.kind = .path) && (declaredIndex entries key).isNone
  (declared ++ recorded).dedup.insertionSort (· ≤ ·)

/-- The segment lies under one of the given directories. -/
def isOwned (segment : String) (owned : List String) : Bool :=
  owned.any fun dir => (components dir).isPrefixOf (components segment)

/-- The segments under an owned directory that are not wanted. -/
def repairOwnedSegments (entries : List Entry) (ledger : Ledger) (current : Env)
    (owned : List String) : List Removal :=
  (repairedKeys entries ledger).flatMap fun key =>
    match current key with
    | none => []
    | some value =>
      ((splitPaths value).filter fun segment =>
        segment ≠ "" && isOwned segment owned &&
          !contributes entries key (elementNorm segment .path)).map (⟨key, ·, none⟩)

def Removal.kind (r : Removal) : ModifierKind := if r.separator = none then .path else .list

/-- Two removals of the same element. -/
def Removal.same (r r' : Removal) : Bool :=
  r.key = r'.key && elementNorm r.element r.kind = elementNorm r'.element r'.kind &&
    r.separator = r'.separator

/-- Plan a removal unless the same one is planned already. -/
def pushRemoval (removes : List Removal) (r : Removal) : List Removal :=
  if removes.any (·.same r) then removes else removes ++ [r]

/-! ### The plan -/

/-- What one prompt changes. -/
structure Plan where
  sets : List Entry
  removes : List Removal
  restores : List (String × Option String)
deriving DecidableEq

/-- Compare what is desired with the live environment and the ledger. The owned directories are
given in every spelling, as written and resolved. -/
def plan (desired : List Entry) (current : Env) (ledger : Ledger) (owned : List String) : Plan :=
  let entries := emittableEntries desired
  let recorded := ledger.appliedInEmissionOrder
  { sets := applySet entries ledger current
    restores := (recorded.filter (·.kind = .constant)).filterMap
      (retireRecordedConstant entries current ledger)
    removes :=
      ((recorded.filter (·.kind ≠ .constant)).filterMap (retireRecordedElement entries) ++
        repairOwnedSegments entries ledger current owned).foldl pushRemoval [] }

/-- Set a variable, or unset it. -/
def Env.restore (env : Env) (r : String × Option String) : Env := Function.update env r.1 r.2

/-- Take an element out of a variable. -/
def Env.takeOut (env : Env) (r : Removal) : Env :=
  match r.separator with
  | none =>
    if stripOneQuotePair r.element = "" then env
    else env.set r.key (removeSegment ((env r.key).getD "") r.element)
  | some separator =>
    if r.element = "" then env
    else env.set r.key (removeElement ((env r.key).getD "") r.element separator)

/-- The environment after a plan: sets, then restores, then removals. A shell emits nothing for a
name that is not one of a variable. -/
def Plan.apply (p : Plan) (env : Env) : Env :=
  let env := env.applyEntries p.sets
  let env := (p.restores.filter (isValidEnvKey ·.1)).foldl Env.restore env
  (p.removes.filter (isValidEnvKey ·.key)).foldl Env.takeOut env

/-! ### Reading a plan -/

variable {r : Removal} {l : List (String × Option String)} {e : Entry}

theorem mem_foldl_pushRemoval {l removes : List Removal}
    (h : r ∈ l.foldl pushRemoval removes) : r ∈ removes ∨ r ∈ l := by
  induction l generalizing removes with
  | nil => exact .inl h
  | cons a l ih =>
    rcases ih h with h | h
    · unfold pushRemoval at h
      split at h
      · exact .inl h
      · rcases mem_append.1 h with h | h
        · exact .inl h
        · exact .inr (mem_cons.2 (.inl (mem_singleton.1 h)))
    · exact .inr (mem_cons_of_mem _ h)

theorem Env.takeOut_of_ne {env : Env} (h : r.key ≠ key) :
    env.takeOut r key = env key := by
  have hset : ∀ value, env.set r.key value key = env key :=
    fun value => Function.update_of_ne (Ne.symm h) _ _
  rcases r with ⟨k, element, _ | separator⟩
  all_goals
    unfold Env.takeOut
    dsimp only
    split
    exacts [rfl, hset _]

theorem foldl_takeOut_of_ne {l : List Removal} (h : ∀ r ∈ l, r.key ≠ key)
    (env : Env) : l.foldl Env.takeOut env key = env key := by
  induction l generalizing env with
  | nil => rfl
  | cons r l ih =>
    rw [forall_mem_cons] at h
    rw [foldl_cons, ih h.2, Env.takeOut_of_ne h.1]

theorem foldl_restore_of_ne
    (h : ∀ r ∈ l, r.1 ≠ key) (env : Env) : l.foldl Env.restore env key = env key := by
  induction l generalizing env with
  | nil => rfl
  | cons r l ih =>
    rw [forall_mem_cons] at h
    rw [foldl_cons, ih h.2, Env.restore, Function.update_of_ne (Ne.symm h.1)]

theorem foldl_restore_of_agree
    {v : Option String} (hne : ∃ r ∈ l, r.1 = key) (h : ∀ r ∈ l, r.1 = key → r.2 = v) (env : Env) :
    l.foldl Env.restore env key = v := by
  induction l using reverseRecOn with
  | nil => simp at hne
  | append_singleton l r ih =>
    rw [foldl_concat, Env.restore]
    by_cases hr : r.1 = key
    · rw [hr, Function.update_self]
      exact h r (by simp) hr
    · rw [Function.update_of_ne (Ne.symm hr)]
      obtain ⟨r', hr', hkey⟩ := hne
      rcases mem_append.1 hr' with hmem | hmem
      · exact ih ⟨r', hmem, hkey⟩ fun r hmem => h r (mem_append_left _ hmem)
      · exact absurd (mem_singleton.1 hmem ▸ hkey) hr

/-- **A variable without restores and removals is only subject to what is set.** -/
theorem Plan.apply_of_untouched {p : Plan} (hrestore : ∀ r ∈ p.restores, r.1 ≠ key)
    (hremove : ∀ r ∈ p.removes, r.key ≠ key) (env : Env) :
    p.apply env key = env.applyEntries p.sets key := by
  unfold Plan.apply
  rw [foldl_takeOut_of_ne fun r hr => hremove r (mem_of_mem_filter hr),
    foldl_restore_of_ne fun r hr => hrestore r (mem_of_mem_filter hr)]

theorem isValidEnvKey_of_admitted (h : admitted e = true) :
    isValidEnvKey e.key = true := by
  unfold admitted admits isEmittable at h
  by_contra hkey
  by_cases hc : e.kind = .constant ∧ isNeverConstant e.key = true <;> simp [hc, hkey] at h

theorem isNeverConstant_of_admitted (h : admitted e = true)
    (hkind : e.kind = .constant) : isNeverConstant e.key = false := by
  unfold admitted admits at h
  by_contra hkey
  rw [Bool.not_eq_false] at hkey
  simp [hkind, hkey] at h

theorem declaredIndex_eq_none :
    declaredIndex entries key = none ↔ ∀ e ∈ entries, e.key ≠ key := by
  unfold declaredIndex
  simp

theorem recordedIndex_eq_none :
    recordedIndex ledger key = none ↔ ∀ e ∈ ledger.appliedInEmissionOrder, e.key ≠ key := by
  unfold recordedIndex
  simp

theorem mem_of_declaredIndex
    (h : declaredIndex entries key = some e) : e ∈ entries ∧ e.key = key := by
  have := mem_of_getLast? h
  simpa using this

theorem mem_of_recordedIndex {e : LedgerEntry}
    (h : recordedIndex ledger key = some e) :
    e ∈ ledger.appliedInEmissionOrder ∧ e.key = key := by
  have := mem_of_getLast? h
  simpa using this

theorem settled_of_declaresConstant (h : declaresConstant entries key = true) (current : Env) :
    settled entries current key = false := by
  simp [settled, h]

/-- What a plan restores was recorded as a constant and is no longer declared. -/
theorem restores_of_mem {r : String × Option String}
    (h : r ∈ (plan desired current ledger owned).restores) :
    ∃ e ∈ ledger.appliedInEmissionOrder, e.kind = .constant ∧ e.key = r.1 ∧
      declaredIndex (emittableEntries desired) r.1 = none ∧
      ∃ prior, ledger.prior r.1 = some prior ∧ r.2 = prior.restored := by
  obtain ⟨e, he, hr⟩ := mem_filterMap.1 h
  rw [mem_filter, decide_eq_true_eq] at he
  unfold retireRecordedConstant at hr
  split at hr
  · cases hr
  · rename_i hguard
    rw [Bool.or_eq_true, not_or, Bool.not_eq_true, Bool.not_eq_true, Option.isSome_eq_false_iff,
      Option.isNone_iff_eq_none] at hguard
    split at hr
    · cases hr
    · split at hr
      · obtain ⟨prior, hprior, rfl⟩ := Option.map_eq_some_iff.1 hr
        exact ⟨e, he.1, he.2, rfl, hguard.2, prior, hprior, rfl⟩
      · cases hr

/-- A removal takes an element out of a variable that is recorded or declared as a path or a list.
-/
theorem removes_of_mem (h : r ∈ (plan desired current ledger owned).removes) :
    (∃ e ∈ ledger.appliedInEmissionOrder, e.kind ≠ .constant ∧ e.key = r.key ∧
        retireRecordedElement (emittableEntries desired) e = some r) ∨
      r ∈ repairOwnedSegments (emittableEntries desired) ledger current owned := by
  rcases mem_foldl_pushRemoval h with h | h
  · cases h
  · rcases mem_append.1 h with h | h
    · obtain ⟨e, he, hr⟩ := mem_filterMap.1 h
      rw [mem_filter, decide_eq_true_eq] at he
      refine .inl ⟨e, he.1, he.2, ?_, hr⟩
      unfold retireRecordedElement at hr
      grind
    · exact .inr h

theorem mem_repairOwnedSegments (h : r ∈ repairOwnedSegments entries ledger current owned) :
    ((∃ d, declaredIndex entries r.key = some d ∧ d.kind = .path) ∨
      ∃ e, recordedIndex ledger r.key = some e ∧ e.kind = .path ∧
        declaredIndex entries r.key = none) ∧
    r.separator = none ∧
    ∃ value, current r.key = some value ∧ r.element ∈ splitPaths value ∧ r.element ≠ "" ∧
      isOwned r.element owned = true ∧
      contributes entries r.key (elementNorm r.element .path) = false := by
  obtain ⟨key, hkey, h⟩ := mem_flatMap.1 h
  split at h
  · cases h
  · rename_i value hvalue
    obtain ⟨segment, hseg, rfl⟩ := mem_map.1 h
    rw [mem_filter] at hseg
    simp only [Bool.and_eq_true, decide_eq_true_eq, Bool.not_eq_true'] at hseg
    refine ⟨?_, rfl, value, hvalue, hseg.1, hseg.2.1.1, hseg.2.1.2, hseg.2.2⟩
    unfold repairedKeys at hkey
    rw [mem_insertionSort, mem_dedup, mem_append, mem_filter,
      mem_filter] at hkey
    rcases hkey with ⟨-, hkey⟩ | ⟨-, hkey⟩
    · rw [Option.any_eq_true] at hkey
      obtain ⟨d, hd, hkind⟩ := hkey
      exact .inl ⟨d, hd, by simpa using hkind⟩
    · rw [Bool.and_eq_true, Option.any_eq_true, Option.isNone_iff_eq_none] at hkey
      obtain ⟨⟨e, he, hkind⟩, hnone⟩ := hkey
      exact .inr ⟨e, he, by simpa using hkind, hnone⟩

/-- **A declared constant.** A variable whose last declaration is a constant is neither restored nor
does it lose elements: only what is set counts. -/
theorem plan_apply_of_declared_constant {d : Entry}
    (hd : declaredIndex (emittableEntries desired) key = some d) (hkind : d.kind = .constant) :
    (plan desired current ledger owned).apply current key =
      (((emittableEntries desired).filter (·.key = key)).filter
        (changes (emittableEntries desired) ledger current)).foldl
          (fun value e => e.apply value) (current key) := by
  rw [Plan.apply_of_untouched, Env.applyEntries_apply]
  · show foldl _ _ ((applySet _ _ _).filter _) = _
    unfold applySet
    simp [Bool.and_comm]
  · rintro r hr rfl
    obtain ⟨-, -, -, -, hnone, -⟩ := restores_of_mem hr
    rw [hd] at hnone
    cases hnone
  · rintro r hr rfl
    rcases removes_of_mem hr with ⟨e, -, -, hkey, hretire⟩ | hrepair
    · unfold retireRecordedElement at hretire
      rw [hkey, hd] at hretire
      simp [hkind] at hretire
    · obtain ⟨⟨d', hd', hpath⟩ | ⟨-, -, -, hnone⟩, -⟩ := mem_repairOwnedSegments hrepair
      · rw [hd] at hd'
        cases hd'
        rw [hkind] at hpath
        cases hpath
      · rw [hd] at hnone
        cases hnone

end Ocx
