import Ocx.Util.Text
import Ocx.Version.Basic

/-!
# Versions as tags

A version is written `[variant-]major[.minor[.patch[-prerelease][_build]]]` and read back by one
anchored pattern. The pattern is deterministic: every optional group is opened by a character that
no group before it can contain, so the scanner below takes longest runs and never goes back.
-/

namespace Ocx

open Option List

variable {s : List Char} {p : Char → Bool} {v : Version}

namespace Version

/-! ### Writing -/

/-- The decimal digits of a machine integer. -/
def digits (n : UInt32) : List Char := Nat.toDigits 10 n.toNat

/-- An optional segment, opened by the character `c`. -/
def segmentText (c : Char) : Option String → List Char
  | some name => c :: name.toList
  | none => []

/-- The written form of a version behind its variant. -/
def body (v : Version) : List Char :=
  digits v.major ++
  match v.rest with
  | none => []
  | some (minor, rest) => '.' :: digits minor ++
    match rest with
    | none => []
    | some (patch, build, prerelease) =>
      '.' :: digits patch ++ (segmentText '-' prerelease ++ segmentText '_' build)

/-- The written form of a version. -/
def text (v : Version) : List Char :=
  match v.variant with
  | some variant => variant.toList ++ '-' :: v.body
  | none => v.body

def toTag (v : Version) : String := String.ofList v.text

/-! ### Reading -/

/-- A character of a variant name after the first one. -/
def isVariantChar (c : Char) : Bool := c.isLower || c.isDigit || c == '.'

/-- Read an optional variant, closed by a dash. -/
def scanVariant : List Char → Option (Option (List Char) × List Char)
  | [] => some (none, [])
  | c :: s =>
    if c.isLower then
      match s.dropWhile isVariantChar with
      | '-' :: rest => some (some (c :: s.takeWhile isVariantChar), rest)
      | _ => none
    else some (none, c :: s)

/-- Read a decimal number without leading zeros. -/
def scanNumber : List Char → Option (List Char × List Char)
  | [] => none
  | c :: s =>
    if c == '0' then some ([c], s)
    else if c.isDigit then some (c :: s.takeWhile Char.isDigit, s.dropWhile Char.isDigit)
    else none

/-- Read an optional alphanumeric segment, opened by a character of the class `opens`. -/
def scanSegment (opens : Char → Bool) : List Char → Option (Option (List Char) × List Char)
  | [] => some (none, [])
  | c :: s =>
    if opens c then
      if s.takeWhile Char.isAlphanum = [] then none
      else some (some (s.takeWhile Char.isAlphanum), s.dropWhile Char.isAlphanum)
    else some (none, c :: s)

/-- The groups of the version pattern. -/
structure Captures where
  /-- The variant, without its dash. -/
  variant : Option (List Char)
  major : List Char
  minor : Option (List Char)
  patch : Option (List Char)
  /-- The pre-release segment. -/
  prerelease : Option (List Char)
  build : Option (List Char)
deriving DecidableEq

/-- Match the part of a text behind the variant against the version pattern. -/
def capturesBody (variant : Option (List Char)) (s : List Char) : Option Captures := do
  let (major, s) ← scanNumber s
  match s with
  | [] => some ⟨variant, major, none, none, none, none⟩
  | '.' :: s => do
    let (minor, s) ← scanNumber s
    match s with
    | [] => some ⟨variant, major, some minor, none, none, none⟩
    | '.' :: s => do
      let (patch, s) ← scanNumber s
      let (prerelease, s) ← scanSegment (· == '-') s
      let (build, s) ← scanSegment (fun c => c == '_' || c == '+') s
      if s = [] then some ⟨variant, major, some minor, some patch, prerelease, build⟩ else none
    | _ => none
  | _ => none

/-- Match a text against the version pattern. -/
def captures (s : List Char) : Option Captures := do
  let (variant, s) ← scanVariant s
  capturesBody variant s

/-- The machine integer written by a run of digits, unless it overflows. -/
def parseU32 (digits : List Char) : Option UInt32 :=
  if Nat.ofDigitChars 10 digits 0 < 2 ^ 32 then some (UInt32.ofNat (Nat.ofDigitChars 10 digits 0))
  else none

/-- The version a match stands for. A minor or patch number that overflows ends the version where
it stands. -/
def ofCaptures (c : Captures) : Option Version :=
  if c.variant = some "latest".toList then none
  else
    let variant := c.variant.map String.ofList
    (parseU32 c.major).map fun major =>
      match c.minor.bind parseU32 with
      | none => { variant, major, rest := none }
      | some minor =>
        match c.patch.bind parseU32 with
        | none => { variant, major, rest := some (minor, none) }
        | some patch => { variant, major, rest := some (minor, some (patch,
            c.build.map String.ofList, c.prerelease.map String.ofList)) }

def parse (tag : String) : Option Version := (captures tag.toList).bind ofCaptures

/-! ### Well-formed names -/

/-- A name the version pattern accepts as a variant. -/
def isVariantName (name : String) : Bool :=
  name != "latest" && match name.toList with
    | [] => false
    | c :: s => c.isLower && s.all isVariantChar

/-- A name the version pattern accepts as a build or pre-release segment. -/
def isSegment (name : String) : Bool := name.toList != [] && name.toList.all Char.isAlphanum

/-- The names a version read from a tag can carry. -/
structure WellFormed (v : Version) : Prop where
  variant : ∀ name ∈ v.variant, isVariantName name = true
  prerelease : ∀ name ∈ v.prerelease, isSegment name = true
  build : ∀ name ∈ v.build, isSegment name = true

instance (v : Version) : Decidable v.WellFormed :=
  decidable_of_iff ((∀ name ∈ v.variant, isVariantName name = true) ∧
    (∀ name ∈ v.prerelease, isSegment name = true) ∧ ∀ name ∈ v.build, isSegment name = true)
    ⟨fun ⟨h₁, h₂, h₃⟩ => ⟨h₁, h₂, h₃⟩, fun ⟨h₁, h₂, h₃⟩ => ⟨h₁, h₂, h₃⟩⟩

theorem isVariantName_iff {name : String} : isVariantName name = true ↔
    name ≠ "latest" ∧ ∃ c s, name.toList = c :: s ∧ c.isLower = true ∧
      ∀ d ∈ s, isVariantChar d = true := by
  cases h : name.toList <;> simp [isVariantName, h]

theorem isSegment_iff {name : String} : isSegment name = true ↔
    name.toList ≠ [] ∧ ∀ c ∈ name.toList, c.isAlphanum = true := by
  simp [isSegment]

/-! ### Reading back what was written -/

theorem scanNumber_digits (n : UInt32) (hs : Stops Char.isDigit s) :
    scanNumber (digits n ++ s) = some (digits n, s) := by
  rcases Nat.eq_zero_or_pos n.toNat with h | h
  · simp [digits, h, scanNumber]
  · cases hd : Nat.toDigits 10 n.toNat with
    | nil => exact absurd hd Nat.toDigits_ne_nil
    | cons c t =>
      have hrun : ∀ d ∈ c :: t, d.isDigit = true := fun d hmem =>
        isDigit_of_mem_toDigits (hd ▸ hmem)
      have hc : c ≠ '0' := head_toDigits_ne_zero h hd
      have ht : ∀ d ∈ t, d.isDigit = true := fun d hmem => hrun d (mem_cons_of_mem _ hmem)
      simp [digits, hd, scanNumber, hc, hrun c mem_cons_self, takeWhile_append_of_stops ht hs,
        dropWhile_append_of_stops ht hs]

theorem scanNumber_digits_end (n : UInt32) : scanNumber (digits n) = some (digits n, []) := by
  simpa using scanNumber_digits n (stops_nil _)

theorem scanSegment_cons {c : Char} {run : List Char} (hc : p c = true)
    (hne : run ≠ []) (hrun : ∀ d ∈ run, d.isAlphanum = true) (hs : Stops Char.isAlphanum s) :
    scanSegment p (c :: (run ++ s)) = some (some run, s) := by
  simp [scanSegment, hc, hne, takeWhile_append_of_stops hrun hs, dropWhile_append_of_stops hrun hs]

theorem scanSegment_of_stops (hs : Stops p s) :
    scanSegment p s = some (none, s) := by
  cases s with
  | nil => rfl
  | cons c s => simp_all [scanSegment]

theorem scanVariant_cons {c : Char} {run : List Char} (hc : c.isLower = true)
    (hrun : ∀ d ∈ run, isVariantChar d = true) :
    scanVariant (c :: (run ++ '-' :: s)) = some (some (c :: run), s) := by
  have hs : Stops isVariantChar ('-' :: s) := by simp; decide
  simp [scanVariant, hc, takeWhile_append_of_stops hrun hs, dropWhile_append_of_stops hrun hs]

theorem scanVariant_of_stops (hs : Stops Char.isLower s) :
    scanVariant s = some (none, s) := by
  cases s with
  | nil => rfl
  | cons c s => simp_all [scanVariant]

theorem parseU32_digits (n : UInt32) : parseU32 (digits n) = some n := by
  rw [parseU32, digits, Nat.ofDigitChars_ten_toDigits, if_pos n.toNat_lt, UInt32.ofNat_toNat]

theorem stops_digits (hp : ∀ c : Char, c.isDigit = true → p c = false)
    (n : UInt32) (s : List Char) : Stops p (digits n ++ s) := by
  cases hd : Nat.toDigits 10 n.toNat with
  | nil => exact absurd hd Nat.toDigits_ne_nil
  | cons c t =>
    rw [digits, hd, cons_append, stops_cons]
    exact hp c (isDigit_of_mem_toDigits (n := n.toNat) (by simp [hd]))

theorem isLower_eq_false_of_isDigit (c : Char) (h : c.isDigit = true) : c.isLower = false := by
  simp only [Char.isDigit, Char.isLower, Bool.and_eq_true, Bool.and_eq_false_iff,
    decide_eq_true_eq, decide_eq_false_iff_not, ge_iff_le, UInt32.le_iff_toNat_le] at *
  have h₉ : '9'.val.toNat = 57 := rfl
  have ha : 'a'.val.toNat = 97 := rfl
  omega

/-- The groups the written form of a version falls into. -/
def toCaptures (v : Version) : Captures where
  variant := v.variant.map String.toList
  major := digits v.major
  minor := v.minor.map digits
  patch := v.patch.map digits
  prerelease := v.prerelease.map String.toList
  build := v.build.map String.toList

theorem stops_segmentText {c : Char} (hc : p c = false)
    (hs : Stops p s) (name : Option String) : Stops p (segmentText c name ++ s) := by
  cases name with
  | none => exact hs
  | some name => simpa [segmentText] using hc

theorem scanSegment_segmentText {c : Char} (hc : p c = true)
    {name : Option String} (hname : ∀ n ∈ name, isSegment n = true)
    (hs : Stops Char.isAlphanum s) (ho : Stops p s) :
    scanSegment p (segmentText c name ++ s) = some (name.map String.toList, s) := by
  cases name with
  | none => exact scanSegment_of_stops ho
  | some name =>
    obtain ⟨hne, hrun⟩ := isSegment_iff.1 (hname name rfl)
    exact scanSegment_cons hc hne hrun hs

theorem capturesBody_body (hv : v.WellFormed) :
    capturesBody (v.variant.map String.toList) v.body = some v.toCaptures := by
  have hdot {s : List Char} : Stops Char.isDigit ('.' :: s) := by simp
  obtain ⟨-, hpre, hbuild⟩ := hv
  obtain ⟨var, maj, rest⟩ := v
  rcases rest with _ | ⟨m, _ | ⟨p, b, pre⟩⟩
  · simp [body, capturesBody, scanNumber_digits_end, toCaptures, minor, patch, prerelease, build]
  · simp [body, capturesBody, scanNumber_digits maj hdot, scanNumber_digits_end, toCaptures, minor,
      patch, prerelease, build]
  · -- the tail is read segment by segment, each stopped by the opening character of the next
    have hbuildStops {q : Char → Bool} (hq : q '_' = false) : Stops q (segmentText '_' b) := by
      simpa using stops_segmentText hq (stops_nil q) b
    have hnum := scanNumber_digits p (stops_segmentText (c := '-') (by decide)
      (hbuildStops (q := Char.isDigit) (by decide)) pre)
    have hseg := scanSegment_segmentText (p := (· == '-')) (c := '-') (by decide) hpre
      (hbuildStops (by decide)) (hbuildStops (by decide))
    have hend := scanSegment_segmentText (p := fun c => c == '_' || c == '+') (c := '_')
      (by decide) hbuild (stops_nil _) (stops_nil _)
    simp only [prerelease, build, bind_some, append_nil] at hseg hend
    simp [body, capturesBody, scanNumber_digits maj hdot, scanNumber_digits m hdot, hnum, hseg,
      hend, toCaptures, minor, patch, prerelease, build]

theorem captures_text (hv : v.WellFormed) :
    captures v.text = some v.toCaptures := by
  have hbody := capturesBody_body hv
  cases hvar : v.variant with
  | none =>
    have hs : Stops Char.isLower v.body := stops_digits isLower_eq_false_of_isDigit _ _
    simpa [captures, text, hvar, scanVariant_of_stops hs] using hbody
  | some name =>
    obtain ⟨-, c, s, hname, hc, hs⟩ := isVariantName_iff.1 (hv.variant name hvar)
    simpa [captures, text, hvar, hname, scanVariant_cons hc hs] using hbody

/-- **Round trip.** A well-formed version is read back from its tag. -/
theorem parse_toTag (hv : v.WellFormed) : parse v.toTag = some v := by
  have hlatest : v.toCaptures.variant ≠ some "latest".toList := by
    intro h
    obtain ⟨name, hname, htext⟩ := map_eq_some_iff.1 h
    exact (isVariantName_iff.1 (hv.variant name hname)).1 (String.toList_inj.1 htext)
  rw [parse, toTag, String.toList_ofList, captures_text hv, bind_some, ofCaptures,
    if_neg hlatest]
  obtain ⟨var, maj, rest⟩ := v
  rcases rest with _ | ⟨m, _ | ⟨p, b, pre⟩⟩ <;>
    simp [toCaptures, minor, patch, prerelease, build, parseU32_digits, Function.comp_def]

/-! ### Soundness of reading -/

theorem scanVariant_sound {rest name : List Char}
    (h : scanVariant s = some (some name, rest)) :
    ∃ c t, name = c :: t ∧ c.isLower = true ∧ ∀ d ∈ t, isVariantChar d = true := by
  cases s with
  | nil => simp [scanVariant] at h
  | cons c s =>
    simp only [scanVariant] at h
    split_ifs at h with hc
    · split at h
      · obtain ⟨rfl, -⟩ : c :: s.takeWhile isVariantChar = name ∧ _ = rest := by simpa using h
        exact ⟨c, _, rfl, hc, fun d hd => (mem_takeWhile_imp hd)⟩
      · simp at h
    · simp at h

theorem scanSegment_sound {rest name : List Char}
    (h : scanSegment p s = some (some name, rest)) :
    name ≠ [] ∧ ∀ c ∈ name, c.isAlphanum = true := by
  cases s with
  | nil => simp [scanSegment] at h
  | cons c s =>
    simp only [scanSegment] at h
    split_ifs at h with hc hne
    · obtain ⟨rfl, -⟩ : s.takeWhile Char.isAlphanum = name ∧ _ = rest := by simpa using h
      exact ⟨hne, fun d hd => mem_takeWhile_imp hd⟩
    · simp at h

/-- What the pattern guarantees about its groups. -/
structure Captures.Sound (c : Captures) : Prop where
  /-- The variant starts with a letter and goes on with variant characters. -/
  variant : ∀ name ∈ c.variant, ∃ d t, name = d :: t ∧ d.isLower = true ∧
    ∀ e ∈ t, isVariantChar e = true
  /-- The pre-release segment is a non-empty run of letters and digits. -/
  prerelease : ∀ name ∈ c.prerelease, name ≠ [] ∧ ∀ d ∈ name, d.isAlphanum = true
  /-- The build segment is a non-empty run of letters and digits. -/
  build : ∀ name ∈ c.build, name ≠ [] ∧ ∀ d ∈ name, d.isAlphanum = true

theorem captures_sound {c : Captures} (h : captures s = some c) : c.Sound := by
  simp only [captures, bind_eq_bind, bind_eq_some_iff, Prod.exists] at h
  obtain ⟨variant, s, hvar, h⟩ := h
  have hv : ∀ name ∈ variant, ∃ d t, name = d :: t ∧ d.isLower = true ∧
      ∀ e ∈ t, isVariantChar e = true := by
    rintro name rfl
    exact scanVariant_sound hvar
  simp only [capturesBody, bind_eq_bind, bind_eq_some_iff, Prod.exists] at h
  obtain ⟨major, s, -, h⟩ := h
  split at h
  · obtain rfl := some.inj h
    exact ⟨hv, by simp, by simp⟩
  · simp only [bind_eq_some_iff, Prod.exists] at h
    obtain ⟨minor, s, -, h⟩ := h
    split at h
    · obtain rfl := some.inj h
      exact ⟨hv, by simp, by simp⟩
    · simp only [bind_eq_some_iff, Prod.exists] at h
      obtain ⟨patch, s, -, pre, s', hpre, build, s'', hbuild, h⟩ := h
      split_ifs at h
      obtain rfl := some.inj h
      refine ⟨hv, ?_, ?_⟩
      · rintro name rfl
        exact scanSegment_sound hpre
      · rintro name rfl
        exact scanSegment_sound hbuild
    · simp at h
  · simp at h

theorem wellFormed_of_parse {tag : String} (h : parse tag = some v) :
    v.WellFormed := by
  obtain ⟨c, hc, h⟩ := bind_eq_some_iff.1 h
  obtain ⟨hvar, hpre, hbuild⟩ := captures_sound hc
  simp only [ofCaptures] at h
  split_ifs at h with hlatest
  obtain ⟨major, -, rfl⟩ := map_eq_some_iff.1 h
  have hvariant : ∀ name ∈ c.variant.map String.ofList, isVariantName name = true := by
    intro name hname
    obtain ⟨t, ht, rfl⟩ := map_eq_some_iff.1 hname
    refine isVariantName_iff.2 ⟨?_, by simpa using hvar t ht⟩
    rintro heq
    exact hlatest (by rw [ht, ← heq, String.toList_ofList])
  have hseg {seg : Option (List Char)}
      (hs : ∀ name ∈ seg, name ≠ [] ∧ ∀ d ∈ name, d.isAlphanum = true) :
      ∀ name ∈ seg.map String.ofList, isSegment name = true := by
    intro name hname
    obtain ⟨t, ht, rfl⟩ := map_eq_some_iff.1 hname
    exact isSegment_iff.2 (by simpa using hs t ht)
  rcases c.minor.bind parseU32 with _ | minor
  · exact ⟨hvariant, by simp [prerelease], by simp [Version.build]⟩
  · rcases c.patch.bind parseU32 with _ | patch
    · exact ⟨hvariant, by simp [prerelease], by simp [Version.build]⟩
    · exact ⟨hvariant, hseg hpre, hseg hbuild⟩

end Version

end Ocx
