import Ocx.Shell.Prompt

/-!
# Leaving restores the user's constants

The value a constant replaced is recorded per scope, and carried from prompt to prompt only while
the live value is what that scope itself recorded.  A key that one scope takes over from the other,
or that both declare, therefore loses the user's value.  In a session in which no such prompt
occurs, leaving both scopes restores it.
-/

namespace Ocx

open List

variable {kind : ModifierKind} {scope : ScopeId} {d : Entry}

variable {s : Session} {o : Outcome} {key : String} {start : Option String}

/-! ### Undisputed prompts -/

/-- The admitted declarations of the key come from one scope and agree, and no other scope has the
key on record. -/
def Undisputed (ledger : Ledger) (o : Outcome) (key : String) : Prop :=
  ∀ scope, ∀ d ∈ emittableEntries (o.entries scope), d.key = key →
    (∀ d' ∈ emittableEntries (o.entries scope), d'.key = key →
      elementEq d.value d'.value .constant = true) ∧
    ∀ scope', scope' ≠ scope →
      (∀ d' ∈ emittableEntries (o.entries scope'), d'.key ≠ key) ∧
      ∀ e ∈ ledger.applied scope', e.key ≠ key

def UndisputedRun (key : String) : Session → List Outcome → Prop
  | _, [] => True
  | s, o :: os => Undisputed s.ledger o key ∧ UndisputedRun key (s.prompt o) os

/-- The key is only ever declared as a constant. -/
def OnlyConstant (o : Outcome) (key : String) : Prop :=
  ∀ d ∈ desiredEntries o, d.key = key → d.kind = .constant

/-! ### What the ledger holds -/

theorem elementEq_symm {a b : String} (h : elementEq a b kind = true) :
    elementEq b a kind = true := elementEq_iff.2 (elementEq_iff.1 h).symm

theorem elementEq_trans {a b c : String} (h : elementEq a b kind = true)
    (h' : elementEq b c kind = true) : elementEq a c kind = true :=
  elementEq_iff.2 ((elementEq_iff.1 h).trans (elementEq_iff.1 h'))

theorem capturedPrior_of_unrecorded {current : Env} {previous : Option (List LedgerEntry × Priors)}
    (h : ∀ p ∈ previous, ∀ e ∈ p.1, e.key ≠ key) :
    capturedPrior current previous key = .ofObserved (current key) := by
  unfold capturedPrior carriedPrior
  cases previous with
  | none => rfl
  | some p =>
    have hfind : p.1.find? (fun e => e.key = key && e.kind = .constant) = none := by
      rw [find?_eq_none]
      intro e he
      simp [h p rfl e he]
    simp [hfind]

theorem capturedPrior_of_recorded {current : Env} {applied : List LedgerEntry} {priors : Priors}
    {v : String} {prior : Prior} (hcurrent : current key = some v)
    (hsome : ∃ e ∈ applied, e.key = key)
    (hall : ∀ e ∈ applied, e.key = key → e.kind = .constant ∧ elementEq e.value v .constant = true)
    (hprior : priors key = some prior) :
    capturedPrior current (some (applied, priors)) key = prior := by
  obtain ⟨e, he, hkey⟩ := hsome
  have hfind : (applied.find? (fun e => e.key = key && e.kind = .constant)).isSome = true := by
    rw [find?_isSome]
    exact ⟨e, he, by simp [hkey, (hall e he hkey).1]⟩
  obtain ⟨found, hfound⟩ := Option.isSome_iff_exists.1 hfind
  have hkey' : found.key = key := by
    have hmatch := find?_some hfound
    simp only [Bool.and_eq_true, decide_eq_true_eq] at hmatch
    exact hmatch.1
  have heq := (hall found (mem_of_find?_eq_some hfound) hkey').2
  unfold capturedPrior carriedPrior
  simp [hfound, hcurrent, heq, hprior]

open Ledger

theorem priors_nextLedger (previous : Ledger) (current : Env)
    (hother : ∀ scope', scope' ≠ scope → ∀ d ∈ emittableEntries (o.entries scope'), d.key ≠ key) :
    (nextLedger previous o current).priors scope key =
      if declaresConstant (emittableEntries (o.entries scope)) key then
        some (capturedPrior current (some (previous.applied scope, previous.priors scope)) key)
      else none := by
  cases scope with
  | «global» =>
    show capturePriors _ _ _ _ = _
    rw [capturePriors_eq, any_recordOf]
    congr 2
    unfold capturedPrior carriedPrior
    cases hprev : previous.scopes.global with
    | none => simp [applied, globalApplied, hprev]
    | some applied => simp [Ledger.applied, Ledger.globalApplied, Ledger.priors, hprev]
  | project =>
    unfold priors nextLedger
    cases hslot : o.slot with
    | none => simp [Outcome.entries, o.recorded hslot, emittableEntries, declaresConstant]
    | some slot =>
      have hglobal : (emittableEntries o.global).filter (·.key = key) = [] := by
        rw [filter_eq_nil_iff]
        intro d hd
        simpa using hother .global (by decide) d hd
      have hafter : (if (recordOf o.project).any (·.kind = .constant) then
          current.applyEntries (emittableEntries o.global) else current) key = current key := by
        split
        · exact Env.applyEntries_of_filter_eq_nil hglobal
        · rfl
      simp only [Option.map_some, Option.bind_some]
      rw [capturePriors_eq, any_recordOf]
      congr 2
      unfold capturedPrior carriedPrior
      rw [hafter]
      cases hprev : previous.scopes.project with
      | none => simp [applied, projectApplied, hprev]
      | some scope => simp [applied, projectApplied, hprev]

theorem priors_nextLedger_of_undeclared (previous : Ledger) (current : Env)
    (h : ∀ d ∈ emittableEntries (o.entries scope), d.key ≠ key) :
    (nextLedger previous o current).priors scope key = none := by
  have hundeclared : declaresConstant (emittableEntries (o.entries scope)) key = false := by
    unfold declaresConstant
    rw [any_eq_false]
    intro d hd
    simp [h d hd]
  cases scope with
  | «global» =>
    show capturePriors _ _ _ _ = _
    rw [capturePriors_eq, any_recordOf]
    exact if_neg (Bool.eq_false_iff.1 hundeclared)
  | project =>
    unfold priors nextLedger
    cases o.slot with
    | none => rfl
    | some slot =>
      simp only [Option.map_some, Option.bind_some]
      rw [capturePriors_eq, any_recordOf]
      exact if_neg (Bool.eq_false_iff.1 hundeclared)

/-! ### Where the user's value is -/

/-- The user's value is live while no scope has the key on record, and otherwise recorded by the one
scope that has. -/
inductive Kept (start : Option String) (key : String) (s : Session) : Prop
  | idle (hnone : ∀ scope, ∀ e ∈ s.ledger.applied scope, e.key ≠ key) (henv : s.env key = start)
  | held (scope : ScopeId) (v : String) (hvalid : isValidEnvKey key = true)
      (hfree : isNeverConstant key = false) (hlive : s.env key = some v)
      (hsome : ∃ e ∈ s.ledger.applied scope, e.key = key)
      (hall : ∀ e ∈ s.ledger.applied scope, e.key = key →
        e.kind = .constant ∧ elementEq e.value v .constant = true)
      (hprior : s.ledger.priors scope key = some (.ofObserved start))
      (hother : ∀ scope', scope' ≠ scope →
        (∀ e ∈ s.ledger.applied scope', e.key ≠ key) ∧ s.ledger.priors scope' key = none)

theorem mem_desiredEntries (h : d ∈ o.entries scope) :
    d ∈ desiredEntries o := by
  cases scope with
  | «global» => exact mem_append_left _ (mem_append_left _ h)
  | project => exact mem_append_right _ h

theorem mem_entries_of_mem_desired (honly : OnlyConstant o key)
    (hd : d ∈ desiredEntries o) (hkey : d.key = key) : ∃ scope, d ∈ o.entries scope := by
  have hkind := honly d hd hkey
  rcases mem_append.1 hd with hd | hd
  · rcases mem_append.1 hd with hd | hd
    · exact ⟨.global, hd⟩
    · obtain ⟨dir, -, rfl⟩ := mem_map.1 hd
      cases hkind
  · exact ⟨.project, hd⟩

theorem applied_nextLedger_ne (previous : Ledger) (current : Env)
    (h : ∀ d ∈ emittableEntries (o.entries scope), d.key ≠ key) :
    ∀ e ∈ (nextLedger previous o current).applied scope, e.key ≠ key := by
  intro e he
  rw [applied_nextLedger] at he
  obtain ⟨d, hd, rfl⟩ := mem_recordOf.1 he
  exact h d hd

/-! ### A prompt that does not declare the key -/

theorem prior_of_held {ledger : Ledger} {prior : Prior}
    (hprior : ledger.priors scope key = some prior)
    (hother : ∀ scope', scope' ≠ scope →
      (∀ e ∈ ledger.applied scope', e.key ≠ key) ∧ ledger.priors scope' key = none) :
    ledger.prior key = some prior := by
  unfold Ledger.prior
  cases scope with
  | «global» =>
    have hproject : ledger.scopes.project.bind (·.priors key) = none :=
      (hother .project (by decide)).2
    rw [hproject]
    exact hprior
  | project =>
    have hproject : ledger.scopes.project.bind (·.priors key) = some prior := hprior
    have howns : ledger.globalOwns key prior = false := by
      unfold globalOwns
      cases prior with
      | unset => rfl
      | value text =>
        rw [any_eq_false]
        intro e he
        simp [(hother .global (by decide)).1 e he]
    rw [hproject]
    simp [howns]

/-- **Leaving.** A prompt that does not declare the key gives back the user's value. -/
theorem Kept.prompt_of_undeclared (h : Kept start key s)
    (hnone : ∀ d ∈ emittableEntries (desiredEntries o), d.key ≠ key) :
    (s.prompt o).env key = start := by
  have hindex := declaredIndex_eq_none.2 hnone
  have hsets : ((planFor s.ledger o s.env).sets.filter (·.key = key)) = [] := by
    rw [filter_eq_nil_iff]
    intro d hd
    simpa using hnone d (mem_of_mem_filter hd)
  -- the key is on record as a constant at most, so no element is taken out of it
  have hconstant : ∀ e ∈ s.ledger.appliedInEmissionOrder, e.key = key → e.kind = .constant := by
    intro e he hkey
    obtain ⟨scope', he⟩ := mem_appliedInEmissionOrder.1 he
    cases h with
    | idle hidle _ => exact absurd hkey (hidle scope' e he)
    | held scope v _ _ _ _ hall _ hother =>
      by_cases hscope : scope' = scope
      · exact (hall e (hscope ▸ he) hkey).1
      · exact absurd hkey ((hother scope' hscope).1 e he)
  have hremove : ∀ r ∈ (planFor s.ledger o s.env).removes, r.key ≠ key := by
    rintro r hr rfl
    rcases removes_of_mem hr with ⟨e, he, hkind, hkey, -⟩ | hrepair
    · exact hkind (hconstant e he hkey)
    · obtain ⟨⟨d, hd, -⟩ | ⟨e, he, hpath, -⟩, -⟩ := mem_repairOwnedSegments hrepair
      · rw [hindex] at hd
        cases hd
      · obtain ⟨hmem, hkey⟩ := mem_of_recordedIndex he
        rw [hconstant e hmem hkey] at hpath
        cases hpath
  show Plan.apply _ _ _ = _
  unfold Plan.apply
  rw [foldl_takeOut_of_ne fun r hr => hremove r (mem_of_mem_filter hr)]
  cases h with
  | idle hidle henv =>
    rw [foldl_restore_of_ne, Env.applyEntries_of_filter_eq_nil hsets, henv]
    rintro r hr rfl
    obtain ⟨e, he, -, hkey, -⟩ := restores_of_mem (mem_of_mem_filter hr)
    obtain ⟨scope, he⟩ := mem_appliedInEmissionOrder.1 he
    exact hidle scope e he hkey
  | held scope v hvalid hfree hlive hsome hall hprior hother =>
    have hledger : s.ledger.prior key = some (.ofObserved start) := prior_of_held hprior hother
    apply foldl_restore_of_agree
    · -- the record itself is restored
      obtain ⟨e, he, hkey⟩ := hsome
      refine ⟨(key, start), mem_filter.2 ⟨mem_filterMap.2 ⟨e, ?_, ?_⟩, hvalid⟩, rfl⟩
      · rw [mem_filter]
        exact ⟨mem_appliedInEmissionOrder.2 ⟨scope, he⟩, by simp [(hall e he hkey).1]⟩
      · unfold retireRecordedConstant
        simp [hkey, hfree, hindex, hlive, elementEq_symm (hall e he hkey).2, hledger]
    · rintro r hr rfl
      obtain ⟨-, -, -, -, -, prior, hp, hr⟩ := restores_of_mem (mem_of_mem_filter hr)
      rw [hledger] at hp
      cases hp
      rw [hr, Prior.restored_ofObserved]

/-! ### A prompt that declares the key -/

theorem Kept.live_of_declared (h : Kept start key s) (honly : OnlyConstant o key)
    (hundisputed : Undisputed s.ledger o key)
    (hd : d ∈ emittableEntries (o.entries scope)) (hkey : d.key = key) :
    ∃ v, (s.prompt o).env key = some v ∧ elementEq d.value v .constant = true := by
  -- every admitted declaration of the key agrees with `d`
  have hagree : ∀ d' ∈ emittableEntries (desiredEntries o), d'.key = key →
      d'.kind = .constant ∧ elementEq d.value d'.value .constant = true := by
    intro d' hd' hkey'
    have hmem : d' ∈ desiredEntries o := mem_of_mem_filter hd'
    obtain ⟨scope', hscope⟩ := mem_entries_of_mem_desired honly hmem hkey'
    have hd'' : d' ∈ emittableEntries (o.entries scope') :=
      mem_filter.2 ⟨hscope, (mem_filter.1 hd').2⟩
    refine ⟨honly d' hmem hkey', ?_⟩
    by_cases hsame : scope' = scope
    · exact (hundisputed scope d hd hkey).1 d' (hsame ▸ hd'') hkey'
    · exact absurd hkey' (((hundisputed scope d hd hkey).2 scope' hsame).1 d' hd'')
  have hdesired : d ∈ emittableEntries (desiredEntries o) :=
    mem_filter.2 ⟨mem_desiredEntries (mem_of_mem_filter hd), (mem_filter.1 hd).2⟩
  obtain ⟨last, hlast⟩ :
      ∃ last, declaredIndex (emittableEntries (desiredEntries o)) key = some last :=
    Option.ne_none_iff_exists'.1 fun hnone => declaredIndex_eq_none.1 hnone d hdesired hkey
  obtain ⟨hlastmem, hlastkey⟩ := mem_of_declaredIndex hlast
  have henv : (s.prompt o).env key = _ :=
    plan_apply_of_declared_constant hlast (hagree last hlastmem hlastkey).1
  by_cases hkeep : ∃ r, recordedIndex s.ledger key = some r ∧
      elementEq r.value d.value .constant = true
  · -- the record agrees, so nothing is set and the live value stays
    obtain ⟨r, hr, heq⟩ := hkeep
    obtain ⟨hrmem, hrkey⟩ := mem_of_recordedIndex hr
    obtain ⟨scope', hrmem⟩ := mem_appliedInEmissionOrder.1 hrmem
    cases h with
    | idle hidle _ => exact absurd hrkey (hidle scope' r hrmem)
    | held scope₀ v _ _ hlive _ hall _ hother =>
      have hscope : scope' = scope₀ := by
        by_contra hne
        exact (hother scope' hne).1 r hrmem hrkey
      obtain ⟨hrkind, hrlive⟩ := hall r (hscope ▸ hrmem) hrkey
      refine ⟨v, ?_, elementEq_trans (elementEq_symm heq) hrlive⟩
      rw [henv, filter_eq_nil_iff.2, foldl_nil, hlive]
      intro d' hd'
      rw [mem_filter, decide_eq_true_eq] at hd'
      obtain ⟨hkind', heq'⟩ := hagree d' hd'.1 hd'.2
      simp [changes, hkind', hd'.2, hr, hrkind, elementEq_trans heq heq']
  · -- nothing on record agrees, so the last declaration is set
    refine ⟨last.value, ?_, (hagree last hlastmem hlastkey).2⟩
    rw [henv, filter_eq_self.2]
    · obtain ⟨init, hinit⟩ := getLast?_eq_some_iff.1 hlast
      rw [hinit, foldl_concat]
      unfold Entry.apply
      rw [(hagree last hlastmem hlastkey).1]
    · intro d' hd'
      rw [mem_filter, decide_eq_true_eq] at hd'
      obtain ⟨hkind', heq'⟩ := hagree d' hd'.1 hd'.2
      unfold changes
      rw [hkind', hd'.2]
      simp only [Bool.not_eq_true', Option.any_eq_false, Bool.and_eq_false_iff,
        decide_eq_false_iff_not]
      intro r hr
      refine or_iff_not_imp_left.2 fun _ => ?_
      rw [Bool.eq_false_iff]
      exact fun heq => hkeep ⟨r, hr, elementEq_trans heq (elementEq_symm heq')⟩

/-- **Step.** An undisputed prompt keeps the user's value. -/
theorem Kept.prompt (h : Kept start key s) (honly : OnlyConstant o key)
    (hundisputed : Undisputed s.ledger o key) : Kept start key (s.prompt o) := by
  by_cases hdeclared : ∃ scope, ∃ d ∈ emittableEntries (o.entries scope), d.key = key
  · obtain ⟨scope, d, hd, hkey⟩ := hdeclared
    obtain ⟨v, hlive, heq⟩ := h.live_of_declared honly hundisputed hd hkey
    obtain ⟨hsame, hother⟩ := hundisputed scope d hd hkey
    have hkind : ∀ d' ∈ emittableEntries (o.entries scope), d'.key = key → d'.kind = .constant :=
      fun d' hd' hkey' => honly d' (mem_desiredEntries (mem_of_mem_filter hd')) hkey'
    have hadmitted : admitted d = true := (mem_filter.1 hd).2
    refine .held scope v (hkey ▸ isValidEnvKey_of_admitted hadmitted)
      (hkey ▸ isNeverConstant_of_admitted hadmitted (hkind d hd hkey)) hlive ?_ ?_ ?_ ?_
    · refine ⟨.ofEntry d, ?_, hkey⟩
      rw [Session.prompt, applied_nextLedger]
      exact mem_recordOf.2 ⟨d, hd, rfl⟩
    · intro e he hekey
      rw [Session.prompt, applied_nextLedger] at he
      obtain ⟨d', hd', rfl⟩ := mem_recordOf.1 he
      exact ⟨hkind d' hd' hekey, elementEq_trans (elementEq_symm (hsame d' hd' hekey)) heq⟩
    · have hdeclares : declaresConstant (emittableEntries (o.entries scope)) key = true :=
        any_eq_true.2 ⟨d, hd, by simp [hkey, hkind d hd hkey]⟩
      rw [Session.prompt, priors_nextLedger _ _ fun scope' hne => (hother scope' hne).1,
        if_pos hdeclares]
      congr 1
      cases h with
      | idle hidle henv =>
        rw [capturedPrior_of_unrecorded, henv]
        rintro p hp
        cases hp
        exact hidle scope
      | held scope₀ v₀ _ _ hlive₀ hsome₀ hall₀ hprior₀ _ =>
        -- the scope that has the key on record is the one that declares it
        have hscope : scope₀ = scope := by
          by_contra hne
          obtain ⟨e, he, hekey⟩ := hsome₀
          exact (hother scope₀ hne).2 e he hekey
        subst hscope
        exact capturedPrior_of_recorded hlive₀ hsome₀ hall₀ hprior₀
    · intro scope' hne
      exact ⟨applied_nextLedger_ne _ _ (hother scope' hne).1,
        priors_nextLedger_of_undeclared _ _ (hother scope' hne).1⟩
  · simp only [not_exists, not_and] at hdeclared
    have hnone : ∀ d ∈ emittableEntries (desiredEntries o), d.key ≠ key := by
      intro d hd hkey
      obtain ⟨scope, hscope⟩ := mem_entries_of_mem_desired honly (mem_of_mem_filter hd) hkey
      exact hdeclared scope d (mem_filter.2 ⟨hscope, (mem_filter.1 hd).2⟩) hkey
    exact .idle (fun scope => applied_nextLedger_ne _ _ (hdeclared scope))
      (h.prompt_of_undeclared hnone)

/-! ### Whole sessions -/

/-- **Run.** A session of undisputed prompts keeps the user's value. -/
theorem Kept.run (h : Kept start key s) {os : List Outcome} (honly : ∀ o ∈ os, OnlyConstant o key)
    (hrun : UndisputedRun key s os) : Kept start key (s.run os) := by
  induction os generalizing s with
  | nil => exact h
  | cons o os ih =>
    rw [forall_mem_cons] at honly
    exact ih (h.prompt honly.1 hrun.1) honly.2 hrun.2

theorem kept_start (env : Env) (key : String) : Kept (env key) key (Session.start env) :=
  .idle (by rintro (_ | _) e he <;> cases he) rfl

/-- **Leaving restores the user's constants.** After a session of undisputed prompts, a prompt with
no global and no project entries gives a key that was only ever declared as a constant the value it
had at the start. -/
theorem restored_after_undisputed_run (start : Env) (os : List Outcome) (last : Outcome)
    (key : String) (hglobal : last.global = []) (hproject : last.project = [])
    (honly : ∀ o ∈ os ++ [last], OnlyConstant o key)
    (hrun : UndisputedRun key (Session.start start) os) :
    ((Session.start start).run (os ++ [last])).env key = start key := by
  rw [forall_mem_append] at honly
  rw [Session.run_append]
  have hkept := (kept_start start key).run honly.1 hrun
  refine hkept.prompt_of_undeclared fun d hd hkey => ?_
  obtain ⟨_ | _, hscope⟩ := mem_entries_of_mem_desired (honly.2 last (mem_singleton.2 rfl))
    (mem_of_mem_filter hd) hkey
  · exact absurd (hglobal ▸ hscope : d ∈ []) not_mem_nil
  · exact absurd (hproject ▸ hscope : d ∈ []) not_mem_nil

/-- A prompt that sets `JAVA_HOME` in the given scopes. -/
def javaHome (globalHome projectHome : Option String) : Outcome where
  session := { installBin := "/ocx/bin", globalBin := "/ocx/toolchain/active/bin" }
  «global» := globalHome.toList.map fun v => { key := "JAVA_HOME", value := v, kind := .constant }
  project := projectHome.toList.map fun v => { key := "JAVA_HOME", value := v, kind := .constant }
  slot := projectHome.map fun _ => ⟨"acme", "/work/acme"⟩
  recorded h := by simp_all

/-- The user's own setting. -/
def userHome : Env := fun key => if key = "JAVA_HOME" then some "/home/user/jdk" else none

theorem onlyConstant_javaHome (g p : Option String) : OnlyConstant (javaHome g p) "JAVA_HOME" := by
  intro d hd hkey
  rcases mem_append.1 hd with hd | hd
  · rcases mem_append.1 hd with hd | hd
    · obtain ⟨v, -, rfl⟩ := mem_map.1 hd
      rfl
    · obtain ⟨dir, -, rfl⟩ := mem_map.1 hd
      exact absurd hkey (by simp)
  · obtain ⟨v, -, rfl⟩ := mem_map.1 hd
    rfl

theorem undisputed_javaHome {ledger : Ledger} (h : ledger.applied .global = []) (v : String) :
    Undisputed ledger (javaHome none (some v)) "JAVA_HOME" := by
  rintro (_ | _) d hd -
  · exact absurd (mem_of_mem_filter hd) not_mem_nil
  · refine ⟨fun d' hd' _ => ?_, ?_⟩
    · rw [mem_singleton.1 (mem_of_mem_filter hd),
        mem_singleton.1 (mem_of_mem_filter hd')]
      exact elementEq_self _ _
    · rintro (_ | _) hne
      · rw [h]
        exact ⟨fun d' hd' => absurd (mem_of_mem_filter hd') not_mem_nil, by simp⟩
      · exact absurd rfl hne

/-- Switching between two projects and leaving restores the user's value. -/
theorem userHome_restored :
    ∃ os : List Outcome, os.length = 2 ∧
      ((Session.start userHome).run (os ++ [javaHome none none])).env "JAVA_HOME" =
        some "/home/user/jdk" := by
  refine ⟨[javaHome none (some "/opt/jdk17"), javaHome none (some "/opt/jdk21")], rfl, ?_⟩
  refine restored_after_undisputed_run _ _ _ _ rfl rfl ?_
    ⟨undisputed_javaHome rfl _, undisputed_javaHome rfl _, trivial⟩
  intro o ho
  simp only [cons_append, nil_append, mem_cons, not_mem_nil, or_false] at ho
  rcases ho with rfl | rfl | rfl <;> exact onlyConstant_javaHome _ _

/-- When the project is left before the global toolchain, its value is what leaving restores. -/
theorem userHome_lost :
    (∀ g p, OnlyConstant (javaHome g p) "JAVA_HOME") ∧
      userHome "JAVA_HOME" = some "/home/user/jdk" ∧
      ((Session.start userHome).run [javaHome (some "/opt/jdk17") (some "/opt/jdk21"),
        javaHome (some "/opt/jdk17") none, javaHome none none]).env "JAVA_HOME" =
          some "/opt/jdk21" :=
  ⟨onlyConstant_javaHome, by decide +kernel, by decide +kernel⟩

end Ocx
