import Ocx.Util.Text

/-!
# Scopes

A scope says which packages a trust policy or a consent is about.  A pattern without `*` matches on
the boundaries of path segments; one with a `*` matches every text that starts as the pattern does
before it.  A scope is one pattern, or a set of patterns to cover minus a set to carve out again.
-/

namespace Ocx

/-- A pattern matches a target `registry/repository`. -/
def patternMatches (pattern target : String) : Bool :=
  pattern = "" ||
    match splitOnce '*' pattern.toList with
    | some (literal, _) => literal.isPrefixOf target.toList
    | none => target = pattern || (pattern.toList ++ ['/']).isPrefixOf target.toList

/-- The text of a pattern before its first `*`. -/
def patternLiteralPrefix (pattern : String) : String :=
  match splitOnce '*' pattern.toList with
  | some (literal, _) => String.ofList literal
  | none => pattern

inductive ScopeSpec
  | pattern (pattern : String)
  /-- Patterns to cover, and patterns to carve out again. -/
  | set (includes excludes : List String)
deriving DecidableEq, Repr

namespace ScopeSpec

/-- A scope matches a target. A set without patterns to cover covers everything. -/
def matchesTarget (scope : ScopeSpec) (target : String) : Bool :=
  match scope with
  | pattern p => patternMatches p target
  | set includes excludes =>
    (includes.isEmpty || includes.any (patternMatches · target)) &&
      !excludes.any (patternMatches · target)

/-- How specifically a scope matches a target. What a set carves out does not count. -/
def specificityFor (scope : ScopeSpec) (target : String) : ℕ :=
  match scope with
  | pattern p => (patternLiteralPrefix p).utf8ByteSize
  | set includes _ =>
    ((includes.filter (patternMatches · target)).map
      fun p => (patternLiteralPrefix p).utf8ByteSize).max?.getD 0

end ScopeSpec

/-- A text with one separator is not matched by a pattern that goes on behind it. -/
theorem patternMatches_iff_eq {pattern target : String} (hstar : '*' ∉ pattern.toList)
    (hpattern : pattern.toList.count '/' = 1) (htarget : target.toList.count '/' = 1) :
    patternMatches pattern target = true ↔ target = pattern := by
  have hne : pattern ≠ "" := by rintro rfl; simp at hpattern
  have hlonger : (pattern.toList ++ ['/']).isPrefixOf target.toList = false := by
    rw [Bool.eq_false_iff]
    intro h
    obtain ⟨rest, hrest⟩ := List.isPrefixOf_iff_prefix.1 h
    rw [← hrest, List.count_append, List.count_append, hpattern] at htarget
    simp only [List.count_singleton_self] at htarget
    omega
  simp [patternMatches, hne, splitOnce_eq_none hstar, hlonger]

end Ocx
