import Ocx.Package.Bundle

/-!
# Assertions on emitted values

A value that is emitted is checked further than one that is only resolved: the dependencies it names
and the paths it requires must exist, and a list value must not be edged by its separator.  These
checks never change a value, so whether the environment of a package can be emitted is a question
about each of its variables alone.
-/

namespace Ocx

variable {text : String} {entry : Option Entry} {c c' c'' : Visibility → Bool}

namespace TemplateResolver

variable {r : TemplateResolver} {checkExists : Bool}

theorem substitute_of_ok {shape : TokenShape}
    (h : r.substitute shape checkExists = .ok text) : r.substitute shape false = .ok text := by
  cases shape with
  | installPath => exact h
  | selfEnv key => exact h
  | dep name =>
    simp only [substitute] at h ⊢
    cases hcontext : r.depContexts[name]? with
    | none => simp [hcontext] at h
    | some context =>
      simp only [hcontext] at h ⊢
      split_ifs at h
      simpa using h

theorem piece_of_ok {segment : Segment}
    (h : r.piece checkExists segment = .ok text) : r.piece false segment = .ok text := by
  cases segment with
  | literal _ => exact h
  | token token =>
    obtain ⟨value, hvalue, htext⟩ := bind_eq_ok_iff.1 h
    exact bind_eq_ok_iff.2 ⟨value, substitute_of_ok hvalue, htext⟩

theorem resolveSegments_of_ok {resolved : String} {segments : List Segment}
    (h : r.resolveSegments checkExists resolved segments = .ok text) :
    r.resolveSegments false resolved segments = .ok text := by
  induction segments generalizing resolved with
  | nil => exact h
  | cons segment segments ih =>
    obtain ⟨first, hfirst, h⟩ := bind_eq_ok_iff.1 h
    refine bind_eq_ok_iff.2 ⟨first, piece_of_ok hfirst, ?_⟩
    split_ifs at h ⊢
    exact ih h

theorem resolveInner_of_ok {template : String}
    (h : r.resolveInner template checkExists = .ok text) :
    r.resolveInner template false = .ok text := by
  obtain ⟨segments, hscan, h⟩ := bind_eq_ok_iff.1 h
  refine bind_eq_ok_iff.2 ⟨segments, hscan, ?_⟩
  cases hgate : firstDisallowedToken segments r.allowed with
  | some token => simp [hgate] at h
  | none =>
    rw [hgate] at h
    exact resolveSegments_of_ok h

end TemplateResolver

namespace EnvResolver

variable {r : EnvResolver}

theorem entryOf_of_ok {var : EnvVar} {asserted : Bool} {value : String}
    (h : r.entryOf var asserted value = .ok entry) : r.entryOf var false value = .ok entry := by
  unfold entryOf at h ⊢
  cases hmodifier : var.modifier <;> simp only [hmodifier] at h ⊢
  case path =>
    split_ifs at h
    simpa using h
  case constant => exact h
  case list =>
    split_ifs at h
    simpa using h
  case unknown => exact h

theorem resolveInner_of_ok {var : EnvVar} {declaredBefore : SelfEnvScope Entry} {asserted : Bool}
    (h : r.resolveInner var declaredBefore asserted = .ok entry) :
    r.resolveInner var declaredBefore false = .ok entry := by
  unfold resolveInner at h ⊢
  cases hvalue : var.value with
  | none => simpa [hvalue] using h
  | some template =>
    rw [hvalue] at h
    obtain ⟨value, htemplate, h⟩ := bind_eq_ok_iff.1 h
    rw [mapError_eq_ok_iff] at htemplate
    refine bind_eq_ok_iff.2 ⟨value, ?_, entryOf_of_ok h⟩
    exact mapError_eq_ok_iff.2 (TemplateResolver.resolveInner_of_ok htemplate)

theorem exists_emitVars
    (hsub : ∀ v, c'' v = true → c v = true ∨ c' v = true) {vars : List EnvVar} {i i' : ℕ}
    {s s' t t' : EmitState} (i'' : ℕ) (s'' : EmitState) (hs : s.declaredBefore = s''.declaredBefore)
    (hs' : s'.declaredBefore = s''.declaredBefore) (h : r.emitVars c i s vars = .ok t)
    (h' : r.emitVars c' i' s' vars = .ok t') : ∃ t'', r.emitVars c'' i'' s'' vars = .ok t'' := by
  induction vars generalizing i i' i'' s s' s'' with
  | nil => exact ⟨s'', rfl⟩
  | cons var vars ih =>
    obtain ⟨x, hx, h⟩ := bind_eq_ok_iff.1 h
    obtain ⟨x', hx', h'⟩ := bind_eq_ok_iff.1 h'
    rw [hs] at hx
    rw [hs'] at hx'
    -- both emissions found the same value
    obtain rfl : x = x' := Except.ok.inj
      ((resolveInner_of_ok hx).symm.trans (resolveInner_of_ok hx'))
    have hx'' : r.resolveInner var s''.declaredBefore (c'' var.visibility) = .ok x := by
      cases hc : c'' var.visibility with
      | false => exact resolveInner_of_ok hx
      | true =>
        rcases hsub _ hc with hc | hc
        · rwa [hc] at hx
        · rwa [hc] at hx'
    cases x with
    | none =>
      obtain ⟨t'', ht''⟩ := ih (i'' + 1) s'' hs hs' h h'
      exact ⟨t'', bind_eq_ok_iff.2 ⟨none, hx'', ht''⟩⟩
    | some entry =>
      obtain ⟨t'', ht''⟩ := ih (i'' + 1) (s''.record i'' (c'' var.visibility) entry)
        (congrArg (·.push entry) hs) (congrArg (·.push entry) hs') h h'
      exact ⟨t'', bind_eq_ok_iff.2 ⟨some entry, hx'', ht''⟩⟩

end EnvResolver

/-- The variables of a package that cross can be emitted. -/
def Emits (b : Bundle) (r : EnvResolver) (crosses : Visibility → Bool) : Prop :=
  ∃ entries, emitPackageVars b r crosses = .ok entries

/-- **Emissions.** What crosses in one of two emissions that succeed can be emitted. -/
theorem Emits.of_subset {b : Bundle} {r : EnvResolver}
    (h : Emits b r c) (h' : Emits b r c') (hsub : ∀ v, c'' v = true → c v = true ∨ c' v = true) :
    Emits b r c'' := by
  obtain ⟨entries, h⟩ := h
  obtain ⟨entries', h'⟩ := h'
  obtain ⟨t, ht, -⟩ := bind_eq_ok_iff.1 h
  obtain ⟨t', ht', -⟩ := bind_eq_ok_iff.1 h'
  obtain ⟨t'', ht''⟩ := EnvResolver.exists_emitVars hsub 0 .new rfl rfl ht ht'
  exact ⟨t''.entries, bind_eq_ok_iff.2 ⟨t'', ht'', rfl⟩⟩

end Ocx
