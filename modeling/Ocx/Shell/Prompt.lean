import Ocx.Shell.Plan

/-!
# From prompt to prompt

A prompt composes what the global toolchain and the project want, plans against the ledger of the
prompt before, applies the plan and records the next ledger.

A constant of the project should win over one of the global toolchain at every prompt.  It does so
exactly when the other declarations of the key, applied to its value, give that value again: from
the second prompt on a declaration is only suppressed when it agrees with the record of the
project's.
-/

namespace Ocx

open List

/-! ### What a prompt wants -/

/-- The session's own path directories, the backmost first. -/
structure SessionPath where
  installBin : String
  globalBin : String
  projectBin : Option String := none

def SessionPath.entries (s : SessionPath) : List Entry :=
  ([some s.installBin, some s.globalBin, s.projectBin].filterMap id).map
    fun dir => { key := "PATH", value := dir, kind := .path }

inductive ScopeId
  | «global»
  | project
deriving DecidableEq

/-- What one prompt resolved. -/
structure Outcome where
  session : SessionPath
  «global» : List Entry := []
  project : List Entry := []
  slot : Option ProjectIdentity := none
  /-- The directories whose path segments ocx owns, in every spelling. -/
  owned : List String := []
  /-- Only a project that is recorded contributes entries. -/
  recorded : slot = none → project = [] := by simp

namespace Outcome

def entries (o : Outcome) : ScopeId → List Entry
  | .global => o.global
  | .project => o.project

end Outcome

/-- Everything a prompt wants: global, session, project. -/
def desiredEntries (o : Outcome) : List Entry := o.global ++ o.session.entries ++ o.project

def planFor (previous : Ledger) (o : Outcome) (current : Env) : Plan :=
  plan (desiredEntries o) current previous o.owned

/-! ### What a prompt records -/

def recordOf (entries : List Entry) : List LedgerEntry :=
  (emittableEntries entries).map LedgerEntry.ofEntry

/-- The record of the next prompt, from the environment before this prompt's plan is applied. -/
def nextLedger (previous : Ledger) (o : Outcome) (current : Env) : Ledger where
  scopes :=
    { «global» := some (recordOf o.global)
      globalPriors := capturePriors (recordOf o.global) current
        (previous.scopes.global.map fun applied => (applied, previous.scopes.globalPriors))
      project := o.slot.map fun slot =>
        let applied := recordOf o.project
        -- the project's constants replace what the global scope leaves
        let afterGlobal :=
          if applied.any (·.kind = .constant) then
            current.applyEntries (emittableEntries o.global)
          else current
        { identity := slot
          applied := applied
          priors := capturePriors applied afterGlobal
            (previous.scopes.project.map fun scope => (scope.applied, scope.priors)) } }

/-! ### Sessions -/

/-- A shell between two prompts. -/
structure Session where
  env : Env
  ledger : Ledger

namespace Session

/-- A shell before its first prompt. -/
def start (env : Env) : Session := ⟨env, .empty⟩

def prompt (s : Session) (o : Outcome) : Session where
  env := (planFor s.ledger o s.env).apply s.env
  ledger := nextLedger s.ledger o s.env

/-- A sequence of prompts. -/
def run (s : Session) (outcomes : List Outcome) : Session := outcomes.foldl prompt s

@[simp] theorem run_nil (s : Session) : s.run [] = s := rfl

@[simp] theorem run_cons (s : Session) (o : Outcome) (os : List Outcome) :
    s.run (o :: os) = (s.prompt o).run os := rfl

theorem run_append (s : Session) (os os' : List Outcome) :
    s.run (os ++ os') = (s.run os).run os' := foldl_append

end Session

/-! ### Reading the ledger by scope -/

namespace Ledger

def applied (ledger : Ledger) : ScopeId → List LedgerEntry
  | .global => ledger.globalApplied
  | .project => ledger.projectApplied

/-- The recorded values of a scope's constants. -/
def priors (ledger : Ledger) : ScopeId → Priors
  | .global => ledger.scopes.globalPriors
  | .project => fun key => ledger.scopes.project.bind (·.priors key)

theorem mem_appliedInEmissionOrder {ledger : Ledger} {e : LedgerEntry} :
    e ∈ ledger.appliedInEmissionOrder ↔ ∃ scope, e ∈ ledger.applied scope := by
  unfold appliedInEmissionOrder
  rw [mem_append]
  constructor
  · rintro (h | h)
    exacts [⟨.global, h⟩, ⟨.project, h⟩]
  · rintro ⟨_ | _, h⟩
    exacts [.inl h, .inr h]

end Ledger

theorem mem_recordOf {entries : List Entry} {e : LedgerEntry} :
    e ∈ recordOf entries ↔ ∃ d ∈ emittableEntries entries, LedgerEntry.ofEntry d = e :=
  mem_map

theorem any_recordOf (entries : List Entry) (key : String) :
    (recordOf entries).any (fun e => e.key = key && e.kind = .constant) =
      declaresConstant (emittableEntries entries) key := by
  unfold recordOf declaresConstant
  rw [any_map]
  rfl

theorem applied_nextLedger (previous : Ledger) (o : Outcome) (current : Env) (scope : ScopeId) :
    (nextLedger previous o current).applied scope = recordOf (o.entries scope) := by
  cases scope with
  | «global» => rfl
  | project =>
    unfold Ledger.applied Ledger.projectApplied nextLedger
    cases hslot : o.slot with
    | none =>
      have hproject : o.project = [] := o.recorded hslot
      simp [Outcome.entries, hproject, recordOf, emittableEntries]
    | some slot => rfl

theorem emittableEntries_append (l l' : List Entry) :
    emittableEntries (l ++ l') = emittableEntries l ++ emittableEntries l' := filter_append ..

/-! ### A project's constant against the other declarations of its key -/

/-- The declarations of a key that differ from a constant with the given value. -/
def contesting (o : Outcome) (key value : String) : List Entry :=
  (emittableEntries (desiredEntries o)).filter fun e =>
    e.key = key && !(e.kind = .constant && elementEq value e.value .constant)

/-- The project declares the key, as a constant only, and this is its last declaration. -/
structure DeclaresConstantOnly (o : Outcome) (key : String) (e : Entry) : Prop where
  last : declaredIndex (emittableEntries o.project) key = some e
  only : ∀ d ∈ o.project, d.key = key → d.kind = .constant

namespace DeclaresConstantOnly

variable {o : Outcome} {key : String} {e : Entry}

theorem kind_eq (h : DeclaresConstantOnly o key e) : e.kind = .constant := by
  obtain ⟨hmem, hkey⟩ := mem_of_declaredIndex h.last
  exact h.only e (mem_of_mem_filter hmem) hkey

theorem declaredIndex_desired (h : DeclaresConstantOnly o key e) :
    declaredIndex (emittableEntries (desiredEntries o)) key = some e := by
  unfold desiredEntries declaredIndex
  rw [emittableEntries_append, filter_append, getLast?_append]
  have hlast := h.last
  unfold declaredIndex at hlast
  rw [hlast]
  rfl

theorem declaresConstant_desired (h : DeclaresConstantOnly o key e) :
    declaresConstant (emittableEntries (desiredEntries o)) key = true := by
  obtain ⟨hmem, hkey⟩ := mem_of_declaredIndex h.declaredIndex_desired
  exact any_eq_true.2 ⟨e, hmem, by simp [hkey, h.kind_eq]⟩

theorem recordedIndex_nextLedger (h : DeclaresConstantOnly o key e) (previous : Ledger)
    (current : Env) :
    recordedIndex (nextLedger previous o current) key = some (.ofEntry e) := by
  have hproject : (nextLedger previous o current).projectApplied = recordOf o.project :=
    applied_nextLedger previous o current .project
  have hlast : ((recordOf o.project).filter (·.key = key)).getLast? = some (.ofEntry e) := by
    unfold recordOf
    rw [filter_map, getLast?_map]
    have hlast := h.last
    unfold declaredIndex at hlast
    show Option.map _ ((emittableEntries o.project).filter (·.key = key)).getLast? = _
    rw [hlast]
    rfl
  unfold recordedIndex Ledger.appliedInEmissionOrder
  rw [hproject, filter_append, getLast?_append, hlast]
  rfl

theorem prompt_of_unrecorded (h : DeclaresConstantOnly o key e) {s : Session}
    (hs : recordedIndex s.ledger key = none) : (s.prompt o).env key = some e.value := by
  show (plan _ _ _ _).apply _ _ = _
  rw [plan_apply_of_declared_constant h.declaredIndex_desired h.kind_eq, filter_eq_self.2]
  · have hlast := h.declaredIndex_desired
    obtain ⟨init, hinit⟩ := getLast?_eq_some_iff.1 hlast
    rw [hinit, foldl_concat]
    unfold Entry.apply
    rw [h.kind_eq]
  · -- nothing is recorded and the key is not settled, so every declaration is set
    intro d hd
    have hkey : d.key = key := by simpa using (mem_filter.1 hd).2
    unfold changes
    split
    · rw [hkey, hs]
      rfl
    all_goals rw [hkey, settled_of_declaresConstant h.declaresConstant_desired]; rfl

theorem prompt_of_recorded (h : DeclaresConstantOnly o key e) {s : Session}
    (hs : recordedIndex s.ledger key = some (.ofEntry e)) :
    (s.prompt o).env key =
      (contesting o key e.value).foldl (fun value e => e.apply value) (s.env key) := by
  show (plan _ _ _ _).apply _ _ = _
  rw [plan_apply_of_declared_constant h.declaredIndex_desired h.kind_eq, filter_filter]
  congr 1
  refine filter_congr fun d _ => ?_
  by_cases hkey : d.key = key
  · cases hd : d.kind <;>
      simp [changes, hd, hkey, hs, LedgerEntry.ofEntry, h.kind_eq,
        settled_of_declaresConstant h.declaresConstant_desired]
  · simp [hkey]

end DeclaresConstantOnly

theorem run_replicate_succ (s : Session) (o : Outcome) (n : ℕ) :
    s.run (replicate (n + 1) o) = (s.run (replicate n o)).prompt o := by
  rw [replicate_succ', Session.run_append]
  rfl

/-- **When a project's constant survives.** A key that the project declares only as a constant holds
the value of its last declaration after every prompt exactly when the contesting declarations of the
key, applied to that value, give it again. -/
theorem constant_stays_iff (o : Outcome) (start : Env) (key : String) (e : Entry)
    (h : DeclaresConstantOnly o key e) :
    (∀ n, ((Session.start start).run (replicate (n + 1) o)).env key = some e.value) ↔
      (contesting o key e.value).foldl (fun value d => d.apply value) (some e.value) =
        some e.value := by
  have hrecorded : ∀ n, recordedIndex ((Session.start start).run (replicate (n + 1) o)).ledger
      key = some (.ofEntry e) := by
    intro n
    rw [run_replicate_succ]
    exact h.recordedIndex_nextLedger _ _
  have hfirst : ((Session.start start).run (replicate 1 o)).env key = some e.value := by
    exact h.prompt_of_unrecorded (recordedIndex_eq_none.2 (by
      intro d hd
      cases hd))
  constructor
  · intro hall
    have hsecond := hall 1
    rwa [run_replicate_succ, h.prompt_of_recorded (hrecorded 0), hfirst] at hsecond
  · intro hfix n
    induction n with
    | zero => exact hfirst
    | succ n ih => rw [run_replicate_succ, h.prompt_of_recorded (hrecorded n), ih, hfix]

/-- A toolchain and a project that both set `JAVA_HOME`. -/
def sharedHome (own : String) : Outcome where
  session := { installBin := "/ocx/bin", globalBin := "/ocx/toolchain/active/bin" }
  «global» := [{ key := "JAVA_HOME", value := "/opt/jdk17", kind := .constant }]
  project := [{ key := "JAVA_HOME", value := own, kind := .constant }]
  slot := some ⟨"acme", "/work/acme"⟩

theorem declaresConstantOnly_sharedHome (own : String) :
    DeclaresConstantOnly (sharedHome own) "JAVA_HOME"
      { key := "JAVA_HOME", value := own, kind := .constant } where
  last := by
    have hadmitted : admitted { key := "JAVA_HOME", value := own, kind := .constant } = true := by
      have hkey : isValidEnvKey "JAVA_HOME" = true := by decide +kernel
      have hfree : isNeverConstant "JAVA_HOME" = false := by decide +kernel
      simp [admitted, admits, isEmittable, hkey, hfree]
    simp [sharedHome, emittableEntries, hadmitted, declaredIndex]
  only d hd _ := by
    rw [mem_singleton.1 hd]

/-- Scopes that agree keep the value. -/
theorem sharedHome_stays :
    DeclaresConstantOnly (sharedHome "/opt/jdk17") "JAVA_HOME"
        { key := "JAVA_HOME", value := "/opt/jdk17", kind := .constant } ∧
      ∀ (start : Env) (n : ℕ),
        ((Session.start start).run (replicate (n + 1) (sharedHome "/opt/jdk17"))).env
          "JAVA_HOME" = some "/opt/jdk17" :=
  ⟨declaresConstantOnly_sharedHome _, fun start =>
    (constant_stays_iff _ start _ _ (declaresConstantOnly_sharedHome "/opt/jdk17")).2
      (by decide +kernel)⟩

/-- At the second prompt the global constant is set over the project's. -/
theorem sharedHome_lost :
    DeclaresConstantOnly (sharedHome "/opt/jdk21") "JAVA_HOME"
        { key := "JAVA_HOME", value := "/opt/jdk21", kind := .constant } ∧
      ((Session.start fun _ => none).run (replicate 2 (sharedHome "/opt/jdk21"))).env
        "JAVA_HOME" = some "/opt/jdk17" :=
  ⟨declaresConstantOnly_sharedHome _, by decide +kernel⟩

end Ocx
