import Ocx.Oci.Platform
import Ocx.Util.Outcome
import Ocx.Util.Text

/-!
# The platform grammar

The written form of a platform, `os/arch[/variant][+feature[,feature...]]` or `any`, is the key of
a platform in locks and pins.  The variant and the features come from the registry, so the
characters of the grammar are escaped in them.

Printing and reading are inverse to each other up to one corner: the grammar has no form for an
empty variant or an empty feature, which the platform object of a registry may have.  Reading
refuses what is printed for them.
-/

namespace Ocx

open List Option

variable {features : List String} {variant : Option String} {p : Platform}

/-! ### Names -/

namespace OperatingSystem

def name : OperatingSystem → String
  | linux => "linux"
  | darwin => "darwin"
  | windows => "windows"
  | wasip1 => "wasip1"
  | wasip2 => "wasip2"

def parse (s : String) : Except PlatformErrorKind OperatingSystem :=
  if s = "linux" then .ok linux
  else if s = "darwin" then .ok darwin
  else if s = "windows" then .ok windows
  else if s = "wasip1" then .ok wasip1
  else if s = "wasip2" then .ok wasip2
  else .error (.unsupportedOs s)

theorem parse_name (os : OperatingSystem) : parse os.name = .ok os := by cases os <;> rfl

end OperatingSystem

namespace Architecture

def name : Architecture → String
  | amd64 => "amd64"
  | arm64 => "arm64"
  | wasm => "wasm"

def parse (s : String) : Except PlatformErrorKind Architecture :=
  if s = "amd64" then .ok amd64
  else if s = "arm64" then .ok arm64
  else if s = "wasm" then .ok wasm
  else .error (.unsupportedArch s)

theorem parse_name (arch : Architecture) : parse arch.name = .ok arch := by cases arch <;> rfl

end Architecture

/-! ### Escaping -/

/-- A structural character is escaped, any other stands for itself. -/
def escapeChar (c : Char) : List Char :=
  if c = '%' then ['%', '2', '5']
  else if c = '/' then ['%', '2', 'F']
  else if c = '+' then ['%', '2', 'B']
  else if c = ',' then ['%', '2', 'C']
  else [c]

def escapePlatformComponent (value : String) : List Char := value.toList.flatMap escapeChar

def unescapeChar (a b : Char) : Option Char :=
  if a = '2' ∧ b = '5' then some '%'
  else if a = '2' ∧ b = 'F' then some '/'
  else if a = '2' ∧ b = 'B' then some '+'
  else if a = '2' ∧ b = 'C' then some ','
  else none

/-- Undo the escapes of a text; no other use of `%` is accepted. -/
def unescapeChars : List Char → Option (List Char)
  | [] => some []
  | c :: s =>
    if c = '%' then
      match s with
      | a :: b :: rest => do
        let decoded ← unescapeChar a b
        (decoded :: ·) <$> unescapeChars rest
      | _ => none
    else (c :: ·) <$> unescapeChars s

/-- Undo the escapes of a component. -/
def unescapePlatformComponent (s : List Char) : Option String := String.ofList <$> unescapeChars s

variable {c : Char} {os : OperatingSystem} {arch : Architecture}

theorem unescapeChars_cons (h : c ≠ '%') (s : List Char) :
    unescapeChars (c :: s) = (c :: ·) <$> unescapeChars s := by
  rcases s with _ | ⟨a, _ | ⟨b, rest⟩⟩ <;> simp [unescapeChars, h]

theorem unescapeChars_escapeChar_append (c : Char) (s : List Char) :
    unescapeChars (escapeChar c ++ s) = (c :: ·) <$> unescapeChars s := by
  unfold escapeChar
  split_ifs with h₁ h₂ h₃ h₄
  · subst h₁
    rfl
  · subst h₂
    rfl
  · subst h₃
    rfl
  · subst h₄
    rfl
  · exact unescapeChars_cons h₁ s

theorem unescape_escape (value : String) :
    unescapePlatformComponent (escapePlatformComponent value) = some value := by
  have hchars : ∀ s : List Char, unescapeChars (s.flatMap escapeChar) = some s := by
    intro s
    induction s with
    | nil => rfl
    | cons c s ih => rw [flatMap_cons, unescapeChars_escapeChar_append, ih]; rfl
  unfold unescapePlatformComponent escapePlatformComponent
  rw [hchars]
  simp

theorem notMem_escapePlatformComponent (hc : c = '/' ∨ c = '+' ∨ c = ',')
    (value : String) : c ∉ escapePlatformComponent value := by
  intro hmem
  obtain ⟨d, -, hd⟩ := mem_flatMap.1 hmem
  unfold escapeChar at hd
  split_ifs at hd with h₁ h₂ h₃ h₄ <;> simp at hd <;> grind

theorem escapePlatformComponent_eq_nil {value : String} :
    escapePlatformComponent value = [] ↔ value = "" := by
  unfold escapePlatformComponent
  rw [flatMap_eq_nil_iff, ← String.toList_eq_nil_iff]
  constructor
  · intro h
    refine eq_nil_iff_forall_not_mem.2 fun c hc => ?_
    have hnil := h c hc
    unfold escapeChar at hnil
    split_ifs at hnil
  · intro h
    simp [h]

/-! ### Printing -/

namespace Platform

/-- The part of the written form before the features. -/
def coreText (os : OperatingSystem) (arch : Architecture) (variant : Option String) : List Char :=
  ['/'].intercalate
    ([os.name.toList, arch.name.toList] ++ (variant.map escapePlatformComponent).toList)

/-- The feature list of the written form, without its `+`. -/
def featureText (features : List String) : List Char :=
  [','].intercalate (features.map escapePlatformComponent)

/-- The characters of the written form. -/
def chars : Platform → List Char
  | any => ['a', 'n', 'y']
  | specific os arch variant osFeatures =>
    let normalized := normalizeOsFeatures osFeatures
    coreText os arch variant ++ if normalized = [] then [] else '+' :: featureText normalized

/-- The written form of a platform. -/
def toString (p : Platform) : String := String.ofList p.chars

end Platform

/-! ### Reading -/

/-- A text that is refused as a platform. -/
structure PlatformError where
  input : String
  /-- Why it is refused. -/
  kind : PlatformErrorKind
deriving DecidableEq, Repr

/-- Split and unescape a feature list; neither the list nor a feature may be empty. -/
def splitFeatureList (segment : List Char) : Option (List String) :=
  if segment = [] then none
  else (segment.splitOn ',').mapM fun token =>
    if token = [] then none else unescapePlatformComponent token

namespace Platform

/-- Split off the features. The first `+` introduces them, as any other is escaped. -/
def splitFeatures (value : List Char) : Except PlatformErrorKind (List Char × List String) :=
  match splitOnce '+' value with
  | some (head, featureList) =>
    match splitFeatureList featureList with
    | some features => .ok (head, features)
    | none => .error .invalidFormat
  | none => .ok (value, [])

def parseVariant (segment : List Char) : Except PlatformErrorKind String :=
  match unescapePlatformComponent segment with
  | some variant => if variant = "" then .error .invalidFormat else .ok variant
  | none => .error .invalidFormat

def parsePair (os arch : List Char) :
    Except PlatformErrorKind (OperatingSystem × Architecture) := do
  let os ← OperatingSystem.parse (String.ofList os)
  let arch ← Architecture.parse (String.ofList arch)
  validatePair os arch
  .ok (os, arch)

/-- Read what comes before the features. -/
def parseCore (core : List Char) :
    Except PlatformErrorKind ((OperatingSystem × Architecture) × Option String) :=
  match core.splitOn '/' with
  | [os, arch] => do
    let pair ← parsePair os arch
    .ok (pair, none)
  | [os, arch, segment] => do
    let pair ← parsePair os arch
    let variant ← parseVariant segment
    .ok (pair, some variant)
  | _ => .error .invalidFormat

def parseChars (value : List Char) : Except PlatformErrorKind Platform :=
  if value = ['a', 'n', 'y'] then .ok any
  else do
    let (core, osFeatures) ← splitFeatures value
    let ((os, arch), variant) ← parseCore core
    .ok (specific os arch variant (normalizeOsFeatures osFeatures))

def parse (value : String) : Except PlatformError Platform :=
  (parseChars value.toList).mapError fun kind => ⟨value, kind⟩

end Platform

/-! ### Printing and reading -/

theorem normalizeOsFeatures_normalizeOsFeatures (features : List String) :
    normalizeOsFeatures (normalizeOsFeatures features) = normalizeOsFeatures features := by
  by_cases h : features.length ≤ 1
  · simp [normalizeOsFeatures, h]
  · have hsorted := (pairwise_insertionSort (· ≤ ·) features).sublist (dedup_sublist _)
    simp only [normalizeOsFeatures, h, if_false]
    split_ifs
    · rfl
    · rw [hsorted.insertionSort_eq, dedup_idem]

theorem splitOn_featureText (hne : features ≠ []) :
    (Platform.featureText features).splitOn ',' = features.map escapePlatformComponent := by
  refine splitOn_intercalate _ ?_ (by simpa using hne)
  intro l hl
  obtain ⟨feature, -, rfl⟩ := mem_map.1 hl
  exact notMem_escapePlatformComponent (by simp) feature

theorem splitFeatureList_featureText (hne : features ≠ []) :
    splitFeatureList (Platform.featureText features) =
      if "" ∈ features then none else some features := by
  have hsplit := splitOn_featureText hne
  have hmapM : ∀ l : List String, (l.map escapePlatformComponent).mapM (fun token =>
      if token = [] then none else unescapePlatformComponent token) =
      if "" ∈ l then none else some l := by
    intro l
    induction l with
    | nil => rfl
    | cons feature l ih =>
      rw [map_cons, mapM_cons, ih]
      by_cases hempty : feature = ""
      · rw [if_pos (escapePlatformComponent_eq_nil.2 hempty)]
        simp [hempty]
      · rw [if_neg (mt escapePlatformComponent_eq_nil.1 hempty), unescape_escape]
        by_cases hmem : "" ∈ l
        · simp [hmem]
        · simp [hmem, Ne.symm hempty]
  unfold splitFeatureList
  by_cases hnil : Platform.featureText features = []
  · -- only the list of one empty feature has no text
    have hmem : "" ∈ features := by
      rw [hnil] at hsplit
      obtain ⟨feature, hfeature, hescape⟩ := mem_map.1
        (show [] ∈ features.map escapePlatformComponent by rw [← hsplit]; simp)
      rwa [← escapePlatformComponent_eq_nil.1 hescape]
    rw [if_pos hnil, if_pos hmem]
  · rw [if_neg hnil, hsplit]
    exact hmapM features

namespace Platform

theorem notMem_name (hc : c = '/' ∨ c = '+') (os : OperatingSystem)
    (arch : Architecture) : c ∉ os.name.toList ∧ c ∉ arch.name.toList := by
  rcases hc with rfl | rfl <;> cases os <;> cases arch <;> decide

theorem splitOn_coreText (os : OperatingSystem) (arch : Architecture) (variant : Option String) :
    (coreText os arch variant).splitOn '/' =
      [os.name.toList, arch.name.toList] ++ (variant.map escapePlatformComponent).toList := by
  have hname := notMem_name (.inl rfl) os arch
  refine splitOn_intercalate _ ?_ (by simp)
  intro l hl
  cases variant with
  | none =>
    simp only [map_none, toList_none, append_nil, mem_cons,
      not_mem_nil, or_false] at hl
    rcases hl with rfl | rfl
    · exact hname.1
    · exact hname.2
  | some variant =>
    simp only [map_some, toList_some, cons_append, nil_append,
      mem_cons, not_mem_nil, or_false] at hl
    rcases hl with rfl | rfl | rfl
    · exact hname.1
    · exact hname.2
    · exact notMem_escapePlatformComponent (by simp) variant

theorem parsePair_name (hpair : (os, arch) ∈ supportedPairs) :
    parsePair os.name.toList arch.name.toList = .ok (os, arch) := by
  unfold parsePair validatePair
  rw [String.ofList_toList, String.ofList_toList, OperatingSystem.parse_name,
    Architecture.parse_name]
  simp [bind, Except.bind, hpair]

theorem parseCore_coreText (hpair : (os, arch) ∈ supportedPairs) :
    parseCore (coreText os arch variant) =
      if variant = some "" then .error .invalidFormat else .ok ((os, arch), variant) := by
  unfold parseCore
  rw [splitOn_coreText]
  cases variant with
  | none =>
    show (parsePair os.name.toList arch.name.toList >>= fun pair => .ok (pair, none)) = _
    rw [parsePair_name hpair]
    rfl
  | some variant =>
    show (parsePair os.name.toList arch.name.toList >>= fun pair =>
      parseVariant (escapePlatformComponent variant) >>= fun variant =>
        .ok (pair, some variant)) = _
    rw [parsePair_name hpair]
    unfold parseVariant
    rw [unescape_escape]
    by_cases hempty : variant = ""
    · simp [hempty, bind, Except.bind]
    · simp [hempty, bind, Except.bind]

end Platform

namespace Platform

/-- The platforms that are read from a text or from the platform object of a registry: the pair is
supported, and the features are sorted without duplicates. -/
def Normal : Platform → Prop
  | any => True
  | specific os arch _ osFeatures =>
    (os, arch) ∈ supportedPairs ∧ normalizeOsFeatures osFeatures = osFeatures

/-- Neither the variant nor a feature is empty. -/
def Printable : Platform → Prop
  | any => True
  | specific _ _ variant osFeatures => variant ≠ some "" ∧ "" ∉ osFeatures

instance : DecidablePred Printable
  | any => inferInstanceAs (Decidable True)
  | specific _ _ variant osFeatures =>
    inferInstanceAs (Decidable (variant ≠ some "" ∧ "" ∉ osFeatures))

theorem normal_of_ofNative {native : NativePlatform} (h : ofNative native = .ok p) :
    p.Normal := by
  unfold ofNative at h
  split at h
  · split_ifs at h
    cases h
    trivial
  · obtain ⟨os, -, h⟩ := bind_eq_ok_iff.1 h
    obtain ⟨arch, -, h⟩ := bind_eq_ok_iff.1 h
    obtain ⟨_, hvalid, h⟩ := bind_eq_ok_iff.1 h
    unfold validatePair at hvalid
    split_ifs at hvalid with hpair
    cases h
    exact ⟨hpair, normalizeOsFeatures_normalizeOsFeatures _⟩

theorem ofNative_toNative (hp : p.Normal) : ofNative p.toNative = .ok p := by
  rcases p with _ | ⟨os, arch, variant, osFeatures⟩
  · rfl
  · obtain ⟨hpair, hnormal⟩ := hp
    have hfeatures : normalizeOsFeatures ((nativeFeatures osFeatures).getD []) = osFeatures := by
      rw [nativeFeatures, hnormal]
      split_ifs with hempty
      · rw [hempty]
        rfl
      · exact hnormal
    cases os <;> cases arch <;>
      first
      | exact absurd hpair (by decide)
      | exact congrArg (fun features => Except.ok (specific _ _ variant features)) hfeatures

theorem notMem_coreText (os : OperatingSystem) (arch : Architecture) (variant : Option String) :
    '+' ∉ coreText os arch variant := by
  have hname := notMem_name (.inr rfl) os arch
  unfold coreText
  cases variant with
  | none => simp [intercalate, hname.1, hname.2]
  | some variant =>
    simp [intercalate, hname.1, hname.2,
      notMem_escapePlatformComponent (show '+' = '/' ∨ '+' = '+' ∨ '+' = ',' by simp) variant]

theorem splitFeatures_chars
    {osFeatures : List String} (hnormal : normalizeOsFeatures osFeatures = osFeatures) :
    splitFeatures (specific os arch variant osFeatures).chars =
      if "" ∈ osFeatures then .error .invalidFormat
      else .ok (coreText os arch variant, osFeatures) := by
  unfold splitFeatures chars
  dsimp only
  rw [hnormal]
  by_cases hnil : osFeatures = []
  · subst hnil
    rw [if_pos rfl, append_nil, splitOnce_eq_none (notMem_coreText os arch variant)]
    simp
  · rw [if_neg hnil, splitOnce_append (notMem_coreText os arch variant)]
    dsimp only
    rw [splitFeatureList_featureText hnil]
    by_cases hmem : "" ∈ osFeatures
    · simp [hmem]
    · simp [hmem]

theorem chars_ne_any (os : OperatingSystem) (arch : Architecture) (variant : Option String)
    (osFeatures : List String) : (specific os arch variant osFeatures).chars ≠ ['a', 'n', 'y'] := by
  have hslash : '/' ∈ (specific os arch variant osFeatures).chars := by
    unfold chars coreText
    cases variant <;> simp [intercalate]
  intro h
  rw [h] at hslash
  exact absurd hslash (by decide)

/-- **Printing and reading.** A platform without empty components is read back from its written
form; the written form of any other is refused. -/
theorem parse_toString (hp : p.Normal) :
    parse p.toString =
      if p.Printable then .ok p else .error ⟨p.toString, .invalidFormat⟩ := by
  unfold parse toString
  rw [String.toList_ofList]
  cases p with
  | any => rfl
  | specific os arch variant osFeatures =>
    obtain ⟨hpair, hnormal⟩ := hp
    unfold parseChars
    rw [if_neg (chars_ne_any os arch variant osFeatures), splitFeatures_chars hnormal]
    by_cases hmem : "" ∈ osFeatures
    · rw [if_pos hmem, if_neg fun h => h.2 hmem]
      rfl
    · rw [if_neg hmem]
      show Except.mapError _ (parseCore (coreText os arch variant) >>= fun core =>
        .ok (specific core.1.1 core.1.2 core.2 (normalizeOsFeatures osFeatures))) = _
      rw [parseCore_coreText hpair, hnormal]
      by_cases hvariant : variant = some ""
      · rw [if_pos hvariant, if_neg fun h => h.1 hvariant]
        rfl
      · rw [if_neg hvariant, if_pos ⟨hvariant, hmem⟩]
        rfl

end Platform

end Ocx
