import Ocx.Version.Tag

/-!
# Versions read from registry tags

A registry tag consists of letters, digits, `_`, `.` and `-`, so the one character that the version
pattern rewrites, the `+` in front of a build, cannot occur in it. What is left between a tag and
the written form of its version are the numbers. The pattern allows digit runs of any length, a
component is a 32-bit integer, and a minor or patch number that does not fit ends the version
silently.
-/

namespace Ocx

open Option List

variable {tag : String} {s rest : List Char} {variant : Option (List Char)} {v : Version}

/-- A character of a registry tag behind the first one. -/
def isTagChar (c : Char) : Bool := c.isAlphanum || c == '_' || c == '.' || c == '-'

/-- The tag grammar of registries, `[a-zA-Z0-9_][a-zA-Z0-9._-]{0,127}`. -/
def isRegistryTag (tag : String) : Bool :=
  match tag.toList with
  | [] => false
  | c :: s => (c.isAlphanum || c == '_') && s.all isTagChar && s.length ≤ 127

theorem plus_notMem_of_isRegistryTag (h : isRegistryTag tag = true) :
    '+' ∉ tag.toList := by
  rw [isRegistryTag] at h
  split at h
  case h_1 heq => simp [heq]
  case h_2 c s heq =>
    simp only [Bool.and_eq_true, List.all_eq_true] at h
    obtain ⟨⟨hc, hs⟩, -⟩ := h
    rw [heq, List.mem_cons]
    rintro (rfl | hmem)
    · exact absurd hc (by decide)
    · exact absurd (hs _ hmem) (by decide)

namespace Version

/-! ### The matched text -/

/-- A decimal number without leading zeros. -/
structure IsNumeral (run : List Char) : Prop where
  /-- It has a digit. -/
  ne_nil : run ≠ []
  /-- It has nothing else. -/
  digits : ∀ c ∈ run, c.isDigit = true
  /-- Only zero itself starts with a zero. -/
  lead : run.head? = some '0' → run = ['0']

theorem IsNumeral.digits_of_parseU32 {run : List Char} (h : IsNumeral run) {n : UInt32}
    (hn : parseU32 run = some n) : Version.digits n = run := by
  rw [parseU32] at hn
  split_ifs at hn with hlt
  obtain rfl := some.inj hn
  rw [Version.digits, UInt32.toNat_ofNat_of_lt' hlt, toDigits_ofDigitChars h.digits h.ne_nil h.lead]

/-- The text `rest` behind an optional variant. -/
def withVariant : Option (List Char) → List Char → List Char
  | some name, rest => name ++ '-' :: rest
  | none, rest => rest

theorem scanVariant_eq_some
    (h : scanVariant s = some (variant, rest)) : s = withVariant variant rest := by
  cases s with
  | nil =>
    obtain ⟨rfl, rfl⟩ := Prod.mk.inj (some.inj h)
    rfl
  | cons c s =>
    simp only [scanVariant] at h
    split_ifs at h with hc
    · split at h
      case h_1 t heq =>
        obtain ⟨rfl, rfl⟩ := Prod.mk.inj (some.inj h)
        rw [withVariant, ← heq, cons_append, takeWhile_append_dropWhile]
      case h_2 => cases h
    · obtain ⟨rfl, rfl⟩ := Prod.mk.inj (some.inj h)
      rfl

theorem scanNumber_eq_some {run : List Char} (h : scanNumber s = some (run, rest)) :
    s = run ++ rest ∧ IsNumeral run := by
  cases s with
  | nil => cases h
  | cons c s =>
    simp only [scanNumber] at h
    split_ifs at h with hzero hdigit
    · obtain ⟨rfl, rfl⟩ := Prod.mk.inj (some.inj h)
      obtain rfl : c = '0' := by simpa using hzero
      exact ⟨rfl, by simp, by simp, by simp⟩
    · obtain ⟨rfl, rfl⟩ := Prod.mk.inj (some.inj h)
      refine ⟨by rw [cons_append, takeWhile_append_dropWhile], by simp, ?_, ?_⟩
      · intro d hd
        rcases mem_cons.1 hd with rfl | hd
        exacts [hdigit, mem_takeWhile_imp hd]
      · intro h0
        exact absurd (by simpa using h0) (show ¬ c = '0' by simpa using hzero)

theorem scanSegment_eq_some {opens : Char → Bool} {name : Option (List Char)}
    (h : scanSegment opens s = some (name, rest)) : ∃ c, (name.isSome → opens c = true) ∧
      s = segmentText c (name.map String.ofList) ++ rest := by
  cases s with
  | nil =>
    obtain ⟨rfl, rfl⟩ := Prod.mk.inj (some.inj h)
    exact ⟨'_', by simp, rfl⟩
  | cons c s =>
    simp only [scanSegment] at h
    split_ifs at h with hc hne
    · obtain ⟨rfl, rfl⟩ := Prod.mk.inj (some.inj h)
      exact ⟨c, fun _ => hc, by simp [segmentText]⟩
    · obtain ⟨rfl, rfl⟩ := Prod.mk.inj (some.inj h)
      exact ⟨c, by simp, rfl⟩

namespace Captures

/-- The text behind the variant, with the build opened by `_`. -/
def body (c : Captures) : List Char :=
  c.major ++
  match c.minor with
  | none => []
  | some minor => '.' :: minor ++
    match c.patch with
    | none => []
    | some patch => '.' :: patch ++
      (segmentText '-' (c.prerelease.map String.ofList) ++
        segmentText '_' (c.build.map String.ofList))

def text (c : Captures) : List Char := withVariant c.variant c.body

/-- The numbers of a match. -/
structure Numerals (c : Captures) : Prop where
  /-- The major number has no leading zeros. -/
  major : IsNumeral c.major
  /-- Nor has the minor number. -/
  minor : ∀ run ∈ c.minor, IsNumeral run
  /-- Nor has the patch number. -/
  patch : ∀ run ∈ c.patch, IsNumeral run
  /-- A patch number stands behind a minor number. -/
  nested : c.minor = none → c.patch = none

/-- The minor and the patch number fit into machine integers. -/
def Fits (c : Captures) : Prop :=
  (∀ run ∈ c.minor, (parseU32 run).isSome) ∧ ∀ run ∈ c.patch, (parseU32 run).isSome

instance (c : Captures) : Decidable c.Fits := inferInstanceAs (Decidable (_ ∧ _))

end Captures

theorem segmentText_eq {c d : Char} {name : Option String} (h : name.isSome → c = d) :
    segmentText c name = segmentText d name := by
  cases name with
  | none => rfl
  | some name => rw [h rfl]

theorem capturesBody_eq_some {c : Captures}
    (h : capturesBody variant s = some c) (hplus : '+' ∉ s) :
    c.variant = variant ∧ s = c.body ∧ c.Numerals := by
  simp only [capturesBody, bind_eq_bind, bind_eq_some_iff, Prod.exists] at h
  obtain ⟨major, s, hscan, h⟩ := h
  obtain ⟨rfl, hmajor⟩ := scanNumber_eq_some hscan
  split at h
  · obtain rfl := some.inj h
    exact ⟨rfl, rfl, hmajor, by simp, by simp, by simp⟩
  · simp only [bind_eq_some_iff, Prod.exists] at h
    obtain ⟨minor, s, hscan, h⟩ := h
    obtain ⟨rfl, hminor⟩ := scanNumber_eq_some hscan
    split at h
    · obtain rfl := some.inj h
      exact ⟨rfl, by simp [Captures.body], hmajor, by simpa using hminor, by simp, by simp⟩
    · simp only [bind_eq_some_iff, Prod.exists] at h
      obtain ⟨patch, s, hscan, pre, s', hpre, build, s'', hbuild, h⟩ := h
      obtain ⟨rfl, hpatch⟩ := scanNumber_eq_some hscan
      obtain ⟨dash, hdash, rfl⟩ := scanSegment_eq_some hpre
      obtain ⟨mark, hmark, rfl⟩ := scanSegment_eq_some hbuild
      split_ifs at h with hend
      obtain rfl := some.inj h
      subst hend
      have hdash : segmentText dash (pre.map String.ofList) =
          segmentText '-' (pre.map String.ofList) :=
        segmentText_eq fun hsome => by simpa using hdash (by simpa using hsome)
      -- a build is opened by `_`, since the text has no `+`
      have hmark : segmentText mark (build.map String.ofList) =
          segmentText '_' (build.map String.ofList) := by
        refine segmentText_eq fun hsome => ?_
        obtain ⟨name, rfl⟩ := isSome_iff_exists.1 (show build.isSome by simpa using hsome)
        have hopens : mark = '_' ∨ mark = '+' := by simpa using hmark rfl
        refine hopens.resolve_right fun h => hplus ?_
        simp [segmentText, h]
      refine ⟨rfl, ?_, hmajor, by simpa using hminor, by simpa using hpatch, by simp⟩
      rw [hdash, hmark]
      simp [Captures.body]
    · cases h
  · cases h

/-- **The matched text.** A text without a `+` consists of the groups the version pattern captures
in it. -/
theorem captures_eq_some {c : Captures} (h : captures s = some c)
    (hplus : '+' ∉ s) : s = c.text ∧ c.Numerals := by
  simp only [captures, bind_eq_bind, bind_eq_some_iff, Prod.exists] at h
  obtain ⟨variant, rest, hvariant, hbody⟩ := h
  have htext := scanVariant_eq_some hvariant
  have hrest : '+' ∉ rest := by
    intro hmem
    refine hplus ?_
    rw [htext]
    cases variant <;> simp [withVariant, hmem]
  obtain ⟨rfl, rfl, hnumerals⟩ := capturesBody_eq_some hbody hrest
  exact ⟨htext, hnumerals⟩

/-! ### The written form of what was read -/

theorem text_eq_iff {c : Captures}
    (hvariant : v.variant = c.variant.map String.ofList) :
    v.text = c.text ↔ v.body = c.body := by
  rw [text, Captures.text, hvariant]
  cases c.variant <;> simp [withVariant]

theorem text_of_ofCaptures_iff {c : Captures} (h : ofCaptures c = some v)
    (hc : c.Numerals) : v.text = c.text ↔ c.Fits := by
  rw [ofCaptures] at h
  split_ifs at h
  obtain ⟨major, hmajor, rfl⟩ := map_eq_some_iff.1 h
  have hmaj := hc.major.digits_of_parseU32 hmajor
  rw [text_eq_iff (by split <;> [skip; split] <;> rfl)]
  cases hminor : c.minor with
  | none => simp [body, Captures.body, Captures.Fits, hminor, hc.nested hminor, hmaj]
  | some m =>
    cases hm : parseU32 m with
    | none => simp [body, Captures.body, Captures.Fits, hminor, hm, hmaj]
    | some minor =>
      have hmin := (hc.minor m hminor).digits_of_parseU32 hm
      cases hpatch : c.patch with
      | none => simp [body, Captures.body, Captures.Fits, hminor, hpatch, hm, hmaj, hmin]
      | some p =>
        cases hp : parseU32 p with
        | none => simp [body, Captures.body, Captures.Fits, hminor, hpatch, hm, hp, hmaj, hmin]
        | some patch =>
          have hpat := (hc.patch p hpatch).digits_of_parseU32 hp
          simp [body, Captures.body, Captures.Fits, hminor, hpatch, hm, hp, hmaj, hmin, hpat]

/-- No minor or patch number of the tag overflows, unless the tag names no version anyway: for its
reserved variant, or for its major number. -/
def NumbersFit (tag : String) : Prop :=
  ∀ c ∈ captures tag.toList,
    c.variant = some "latest".toList ∨ parseU32 c.major = none ∨ c.Fits

instance (tag : String) : Decidable (NumbersFit tag) :=
  inferInstanceAs (Decidable (∀ c ∈ captures tag.toList, _))

/-- A registry tag is the written form of the version read from it exactly when its numbers
fit. -/
theorem toTag_of_parse_iff (htag : isRegistryTag tag = true) :
    (∀ v, parse tag = some v → v.toTag = tag) ↔ NumbersFit tag := by
  have hplus := plus_notMem_of_isRegistryTag htag
  simp only [← String.toList_inj, toTag, String.toList_ofList]
  constructor
  · intro h c hc
    obtain ⟨htext, hnumerals⟩ := captures_eq_some hc hplus
    cases hv : ofCaptures c with
    | some v =>
      have hwritten := h v (by rw [parse, mem_def.1 hc, bind_some, hv])
      rw [htext] at hwritten
      exact .inr (.inr ((text_of_ofCaptures_iff hv hnumerals).1 hwritten))
    | none =>
      rw [ofCaptures] at hv
      split_ifs at hv with hlatest
      · exact .inl hlatest
      · exact .inr (.inl (map_eq_none_iff.1 hv))
  · intro h v hv
    obtain ⟨c, hc, hv⟩ := bind_eq_some_iff.1 hv
    obtain ⟨htext, hnumerals⟩ := captures_eq_some hc hplus
    rw [htext, text_of_ofCaptures_iff hv hnumerals]
    -- a version was read, so neither the variant nor the major number stands in the way
    rw [ofCaptures] at hv
    split_ifs at hv with hlatest
    obtain ⟨major, hmajor, -⟩ := map_eq_some_iff.1 hv
    rcases h c hc with hreserved | hoverflow | hfits
    · exact absurd hreserved hlatest
    · rw [hoverflow] at hmajor
      cases hmajor
    · exact hfits

theorem toTag_of_parse_full (htag : isRegistryTag tag = true)
    (h : parse tag = some v) (hv : v.hasPatch = true) : v.toTag = tag := by
  obtain ⟨c, hc, hv'⟩ := bind_eq_some_iff.1 h
  obtain ⟨htext, hnumerals⟩ := captures_eq_some hc (plus_notMem_of_isRegistryTag htag)
  rw [← String.toList_inj, toTag, String.toList_ofList, htext, text_of_ofCaptures_iff hv' hnumerals]
  rw [ofCaptures] at hv'
  split_ifs at hv'
  obtain ⟨major, -, rfl⟩ := map_eq_some_iff.1 hv'
  -- a patch number was read, and with it the minor number before it
  cases hminor : c.minor.bind parseU32 with
  | none => simp [hminor, hasPatch, patch] at hv
  | some minor =>
    cases hpatch : c.patch.bind parseU32 with
    | none => simp [hminor, hpatch, hasPatch, patch] at hv
    | some patch =>
      obtain ⟨m, hm, hm'⟩ := bind_eq_some_iff.1 hminor
      obtain ⟨q, hq, hq'⟩ := bind_eq_some_iff.1 hpatch
      simp [Captures.Fits, hm, hm', hq, hq']

theorem parse_injOn {tag' : String} (htag : isRegistryTag tag = true)
    (htag' : isRegistryTag tag' = true) (hfit : NumbersFit tag) (hfit' : NumbersFit tag')
    (h : parse tag = some v) (h' : parse tag' = some v) : tag = tag' := by
  rw [← (toTag_of_parse_iff htag).2 hfit v h, (toTag_of_parse_iff htag').2 hfit' v h']

end Version

/-- A registry tag is the written form of its classification exactly when its numbers fit. -/
theorem Tag.toString_ofString_iff (htag : isRegistryTag tag = true) :
    (Tag.ofString tag).toString = tag ↔ Version.NumbersFit tag := by
  rw [← Version.toTag_of_parse_iff htag]
  constructor
  · intro h v hv
    rw [AliasTag.ofString_of_parse hv] at h
    exact h
  · intro h
    rcases Tag.toString_ofString tag with heq | ⟨v, hv, heq⟩
    · exact heq
    · rw [heq, h v hv]

/-- A graph node is written like the classification of the tag it was read from. -/
theorem AliasTag.toTag_of_parse {variants : List String} {a : AliasTag}
    (h : AliasTag.parse tag variants = some a) : a.toTag = (Tag.ofString tag).toString := by
  rw [AliasTag.parse] at h
  split at h
  case h_1 heq =>
    obtain rfl := some.inj h
    rw [heq]
    rfl
  case h_2 heq =>
    obtain rfl := some.inj h
    rw [heq]
    rfl
  case h_3 heq =>
    split_ifs at h
    obtain rfl := some.inj h
    rw [heq]
    rfl
  case h_4 => cases h

end Ocx
