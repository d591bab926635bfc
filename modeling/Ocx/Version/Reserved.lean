import Ocx.Version.Faithful

/-!
# Reserved tags and versions

Reserved tags are recognised without parsing them as versions, and a listing drops them before its
tags are parsed. No version is lost by that, since no reserved form is a version: the keep form has
no dash, and the referrers fallback form has at least 64 digits where a version has a 32-bit number.
-/

namespace Ocx

open List Option

/-! ### The referrers fallback form -/

theorem eq_append_of_strip (value suffix base : List Char)
    (h : (stripFront suffix.reverse value.reverse).map reverse = some base) :
    value = base ++ suffix := by
  obtain ⟨rest, hrest, rfl⟩ := map_eq_some_iff.1 h
  have := congrArg reverse (stripFront_eq_some.1 hrest)
  simpa using this

theorem exists_append_of_strips {value s₁ s₂ s₃ : List Char} {x y z : Option (List Char)}
    (hx : ∀ base, x = some base → value = base ++ s₁)
    (hy : ∀ base, y = some base → value = base ++ s₂)
    (hz : ∀ base, z = some base → value = base ++ s₃) :
    ∃ suffix, value = ((x.or y).or z).getD value ++ suffix := by
  rcases x with _ | base
  · rcases y with _ | base
    · rcases z with _ | base
      · exact ⟨[], (append_nil _).symm⟩
      · exact ⟨s₃, hz base rfl⟩
    · exact ⟨s₂, hy base rfl⟩
  · exact ⟨s₁, hx base rfl⟩

theorem exists_of_isReferrerFallbackTag {value : String} (h : isReferrerFallbackTag value = true) :
    ∃ (algorithm : Algorithm) (hex suffix : List Char),
      value.toList = algorithm.name.toList ++ '-' :: (hex ++ suffix) ∧ 64 ≤ hex.length ∧
      ∀ c ∈ hex, isHexDigit c = true := by
  obtain ⟨algorithm, -, halgorithm⟩ := any_eq_true.1 h
  split at halgorithm
  · next hex hhex =>
    obtain ⟨rest, hrest, hdash⟩ := bind_eq_some_iff.1 hhex
    simp only [Bool.and_eq_true, Bool.or_eq_true, decide_eq_true_eq, List.all_eq_true] at halgorithm
    obtain ⟨hlength, hdigits⟩ := halgorithm
    have hbase := stripFront_eq_some.1 hrest
    rw [stripFront_eq_some.1 hdash, singleton_append] at hbase
    have hlong : 64 ≤ hex.length := by
      rcases hlength with h | h
      · exact h.ge
      · rw [h]
        cases algorithm <;> decide
    -- the sidecar suffixes are tried in order; without one the whole tag is the base
    obtain ⟨suffix, hvalue⟩ := exists_append_of_strips
      (eq_append_of_strip value.toList ".sig".toList)
      (eq_append_of_strip value.toList ".att".toList)
      (eq_append_of_strip value.toList ".sbom".toList)
    rw [hbase] at hvalue
    exact ⟨algorithm, hex, suffix, by rw [hvalue, List.append_assoc, List.cons_append], hlong,
      hdigits⟩
  · cases halgorithm

namespace Version

theorem length_digits_le (n : UInt32) : (digits n).length ≤ 10 := by
  rw [digits, Nat.length_toDigits_le_iff (by omega) (by omega)]
  exact n.toNat_lt.trans (by decide)

theorem algorithm_name_cons (algorithm : Algorithm) :
    ∃ run, algorithm.name.toList = 's' :: run ∧ (∀ d ∈ run, isVariantChar d = true) ∧
      '-' ∉ run := by
  cases algorithm
  exacts [⟨['h', 'a', '2', '5', '6'], by decide +kernel, by simp [isVariantChar], by decide⟩,
    ⟨['h', 'a', '3', '8', '4'], by decide +kernel, by simp [isVariantChar], by decide⟩,
    ⟨['h', 'a', '5', '1', '2'], by decide +kernel, by simp [isVariantChar], by decide⟩]

theorem major_of_capturesBody {variant : Option (List Char)} {s : List Char} {c : Captures}
    (h : capturesBody variant s = some c) :
    ∃ rest, s = c.major ++ rest ∧ IsNumeral c.major ∧ ∀ d ∈ rest.head?, d = '.' := by
  simp only [capturesBody, bind_eq_bind, bind_eq_some_iff, Prod.exists] at h
  obtain ⟨major, rest, hscan, h⟩ := h
  obtain ⟨rfl, hmajor⟩ := scanNumber_eq_some hscan
  split at h
  · obtain rfl := some.inj h
    exact ⟨[], rfl, hmajor, by simp⟩
  · next rest =>
    simp only [bind_eq_some_iff, Prod.exists] at h
    obtain ⟨minor, s, -, h⟩ := h
    have hc : c.major = major := by
      split at h
      · rw [← some.inj h]
      · simp only [bind_eq_some_iff, Prod.exists] at h
        obtain ⟨patch, s, -, pre, s', -, build, s'', -, h⟩ := h
        split_ifs at h
        rw [← some.inj h]
      · cases h
    exact ⟨'.' :: rest, by rw [hc], by rwa [hc], by simp⟩
  · cases h

theorem parse_of_fallback_form {algorithm : Algorithm} {hex suffix : List Char} {value : String}
    (hvalue : value.toList = algorithm.name.toList ++ '-' :: (hex ++ suffix))
    (hlength : 64 ≤ hex.length) (hhex : ∀ c ∈ hex, isHexDigit c = true) : parse value = none := by
  by_contra hne
  obtain ⟨v, hv⟩ := ne_none_iff_exists'.1 hne
  obtain ⟨c, hc, hv⟩ := bind_eq_some_iff.1 hv
  have hvariant : scanVariant value.toList = some (some algorithm.name.toList, hex ++ suffix) := by
    obtain ⟨run, hname, hrun, -⟩ := algorithm_name_cons algorithm
    rw [hvalue, hname]
    exact scanVariant_cons (by decide) hrun
  simp only [captures, hvariant, bind_eq_bind, bind_some] at hc
  obtain ⟨rest, htext, hmajor, hrest⟩ := major_of_capturesBody hc
  -- no hex digit is a dot, so the number takes all of them
  have hlong : 64 ≤ c.major.length := by
    rcases append_eq_append_iff.1 htext with ⟨more, hmore, -⟩ | ⟨more, hmore, rfl⟩
    · rw [hmore, length_append]
      omega
    · cases more with
      | nil => simpa [hmore] using hlength
      | cons d more =>
        have hdigit := hhex d (by simp [hmore])
        rw [hrest d rfl] at hdigit
        exact absurd hdigit (by decide)
  simp only [ofCaptures] at hv
  split_ifs at hv
  obtain ⟨n, hn, -⟩ := map_eq_some_iff.1 hv
  have hshort := length_digits_le n
  rw [hmajor.digits_of_parseU32 hn] at hshort
  omega

theorem captures_of_no_dash {c : Char} {s : List Char} (hc : c.isLower = true) (hs : '-' ∉ s) :
    captures (c :: s) = none := by
  have hscan : scanVariant (c :: s) = none := by
    simp only [scanVariant, hc, if_true]
    split
    · next t ht => exact absurd (dropWhile_subset _ (ht ▸ mem_cons_self)) hs
    · rfl
  rw [captures, hscan, bind_eq_bind, bind_none]

theorem parse_of_keep_form {value : String} {algorithm : Algorithm} {hex : List Char}
    (h : parseKeep value.toList '.' = some (algorithm, hex)) : parse value = none := by
  have hdash : '-' ∉ hex := fun hmem =>
    absurd (isHexDigit_of_parseKeep h _ hmem) (by decide)
  obtain ⟨run, hname, -, hrun⟩ := algorithm_name_cons algorithm
  rw [parse, eq_of_parseKeep h, hname, cons_append,
    captures_of_no_dash (by decide) (by simp [hrun, hdash]), bind_none]

end Version

/-! ### Versions and reserved tags -/

/-- **Versions are not reserved.** No tag that names a version is reserved. -/
theorem isReservedTag_of_parse {tag : String} {v : Version} (h : Version.parse tag = some v) :
    isReservedTag tag = false := by
  have hinternal : isInternalNamespace tag = false := by
    by_contra hne
    simp [AliasTag.parse_of_isInternalNamespace (Bool.of_not_eq_false hne)] at h
  have hkeep : (parseKeep tag.toList '.').isSome = false := by
    by_contra hne
    obtain ⟨keep, hkeep⟩ := isSome_iff_exists.1 (Bool.of_not_eq_false hne)
    simp [Version.parse_of_keep_form hkeep] at h
  have hfallback : isReferrerFallbackTag tag = false := by
    by_contra hne
    obtain ⟨algorithm, hex, suffix, htag, hlength, hhex⟩ :=
      exists_of_isReferrerFallbackTag (Bool.of_not_eq_false hne)
    simp [Version.parse_of_fallback_form htag hlength hhex] at h
  simp [isReservedTag, hinternal, hkeep, hfallback]

theorem Tag.isReserved_ofString (value : String) :
    (ofString value).isReserved = isReservedTag value := by
  rw [ofString]
  split_ifs with hlatest hinternal
  · rw [hlatest]
    decide +kernel
  · simp [isReserved, isReservedTag, hinternal]
  · cases hparse : Version.parse value with
    | some v => exact (isReservedTag_of_parse hparse).symm
    | none =>
      cases hkeep : parseKeep value.toList '.' <;>
        simp [isReserved, isReservedTag, hinternal, hkeep]

/-- **One notion of a reserved tag.** The predicate on texts and the one on classified tags agree,
and what they accept is never a version. -/
theorem reserved_recognised (value : String) :
    isReservedTag value = (Tag.ofString value).isReserved ∧
      (isReservedTag value = true → ∀ v, Tag.ofString value ≠ .version v) := by
  refine ⟨(Tag.isReserved_ofString value).symm, fun hreserved v hv => ?_⟩
  rw [← Tag.isReserved_ofString, hv] at hreserved
  cases hreserved

end Ocx
