import Ocx.Oci.PlatformText
import Ocx.Util.Schedule

/-!
# Which platforms the grammar can name

Platforms enter through a text or through the platform object of a registry. A text never yields
an empty variant or an empty feature. A platform object may carry either, and the conversion takes
it over. Such a platform still has a written form of its own, but reading refuses that form.
-/

namespace Ocx

open List Option

variable {segment : List Char} {features : List String} {pair : OperatingSystem × Architecture}
  {p : Platform}

/-! ### Reading a text -/

theorem unescapePlatformComponent_ne_empty {s : List Char} {value : String} (hs : s ≠ [])
    (h : unescapePlatformComponent s = some value) : value ≠ "" := by
  obtain ⟨t, ht, rfl⟩ := map_eq_some_iff.1 h
  rw [Ne, String.ofList_eq_empty_iff]
  rintro rfl
  cases s with
  | nil => exact hs rfl
  | cons c s =>
    by_cases hc : c = '%'
    · subst hc
      rcases s with _ | ⟨a, _ | ⟨b, rest⟩⟩
      · simp [unescapeChars] at ht
      · simp [unescapeChars] at ht
      · simp [unescapeChars, bind_eq_some_iff] at ht
    · simp [unescapeChars_cons hc] at ht

theorem empty_notMem_of_splitFeatureList
    (h : splitFeatureList segment = some features) : "" ∉ features := by
  unfold splitFeatureList at h
  split_ifs at h
  intro hmem
  obtain ⟨token, -, htoken⟩ := exists_of_forall₂ (forall₂_of_mapM_eq_some h) hmem
  split_ifs at htoken with hnil
  exact unescapePlatformComponent_ne_empty hnil htoken rfl

theorem mem_normalizeOsFeatures {feature : String} :
    feature ∈ normalizeOsFeatures features ↔ feature ∈ features := by
  unfold normalizeOsFeatures
  split_ifs
  · rfl
  · rw [mem_dedup, mem_insertionSort]

namespace Platform

theorem empty_notMem_of_splitFeatures {value core : List Char}
    (h : splitFeatures value = .ok (core, features)) : "" ∉ features := by
  unfold splitFeatures at h
  split at h
  · split at h
    case h_1 hlist =>
      obtain ⟨-, rfl⟩ := Prod.mk.inj (Except.ok.inj h)
      exact empty_notMem_of_splitFeatureList hlist
    case h_2 => cases h
  · obtain ⟨-, rfl⟩ := Prod.mk.inj (Except.ok.inj h)
    exact not_mem_nil

theorem supported_of_parsePair {os arch : List Char}
    (h : parsePair os arch = .ok pair) : pair ∈ supportedPairs := by
  obtain ⟨os', -, h⟩ := bind_eq_ok_iff.1 h
  obtain ⟨arch', -, h⟩ := bind_eq_ok_iff.1 h
  obtain ⟨⟨⟩, hpair, h⟩ := bind_eq_ok_iff.1 h
  obtain rfl := Except.ok.inj h
  unfold validatePair at hpair
  split_ifs at hpair with hmem
  exact hmem

theorem parseVariant_ne_empty {variant : String}
    (h : parseVariant segment = .ok variant) : variant ≠ "" := by
  unfold parseVariant at h
  split at h
  · split_ifs at h with hempty
    obtain rfl := Except.ok.inj h
    exact hempty
  · cases h

variable {variant : Option String} {os : OperatingSystem}

theorem parseCore_eq_ok {core : List Char} (h : parseCore core = .ok (pair, variant)) :
    pair ∈ supportedPairs ∧ variant ≠ some "" := by
  unfold parseCore at h
  split at h
  · obtain ⟨pair', hpair, h⟩ := bind_eq_ok_iff.1 h
    obtain ⟨rfl, rfl⟩ := Prod.mk.inj (Except.ok.inj h)
    exact ⟨supported_of_parsePair hpair, by simp⟩
  · obtain ⟨pair', hpair, h⟩ := bind_eq_ok_iff.1 h
    obtain ⟨name, hname, h⟩ := bind_eq_ok_iff.1 h
    obtain ⟨rfl, rfl⟩ := Prod.mk.inj (Except.ok.inj h)
    exact ⟨supported_of_parsePair hpair, by simpa using parseVariant_ne_empty hname⟩
  · cases h

theorem normal_printable_of_parse {value : String} (h : parse value = .ok p) :
    p.Normal ∧ p.Printable := by
  have h := mapError_eq_ok_iff.1 h
  unfold parseChars at h
  split_ifs at h
  · obtain rfl := Except.ok.inj h
    exact ⟨trivial, trivial⟩
  · obtain ⟨⟨core, features⟩, hfeatures, h⟩ := bind_eq_ok_iff.1 h
    obtain ⟨⟨⟨os, arch⟩, variant⟩, hcore, h⟩ := bind_eq_ok_iff.1 h
    obtain rfl := Except.ok.inj h
    obtain ⟨hpair, hvariant⟩ := parseCore_eq_ok hcore
    exact ⟨⟨hpair, normalizeOsFeatures_normalizeOsFeatures _⟩, hvariant,
      mt mem_normalizeOsFeatures.1 (empty_notMem_of_splitFeatures hfeatures)⟩

/-! ### Distinct written forms -/

theorem escapePlatformComponent_injective : escapePlatformComponent.Injective := by
  intro a b h
  have hread := unescape_escape a
  rw [h, unescape_escape] at hread
  exact (some.inj hread).symm

theorem coreText_inj {os' : OperatingSystem} {arch arch' : Architecture}
    {variant' : Option String} (h : coreText os arch variant = coreText os' arch' variant') :
    os = os' ∧ arch = arch' ∧ variant = variant' := by
  have hparts := splitOn_coreText os arch variant
  rw [h, splitOn_coreText] at hparts
  obtain ⟨hos, hrest⟩ := cons.inj hparts
  obtain ⟨harch, hvariant⟩ := cons.inj hrest
  have hread := OperatingSystem.parse_name os'
  rw [String.toList_inj.1 hos, OperatingSystem.parse_name] at hread
  have hread' := Architecture.parse_name arch'
  rw [String.toList_inj.1 harch, Architecture.parse_name] at hread'
  refine ⟨Except.ok.inj hread, Except.ok.inj hread', ?_⟩
  cases variant <;> cases variant' <;> simp [escapePlatformComponent_injective.eq_iff] at hvariant ⊢
  exact hvariant.symm

theorem featureText_inj {features' : List String} (hne : features ≠ [])
    (hne' : features' ≠ []) (h : featureText features = featureText features') :
    features = features' := by
  have hparts := splitOn_featureText hne
  rw [h, splitOn_featureText hne'] at hparts
  exact (map_injective_iff.2 escapePlatformComponent_injective hparts).symm

theorem splitOnce_chars {arch : Architecture} (hnormal : normalizeOsFeatures features = features) :
    splitOnce '+' (specific os arch variant features).chars =
      if features = [] then none else some (coreText os arch variant, featureText features) := by
  unfold chars
  dsimp only
  rw [hnormal]
  split_ifs
  · rw [append_nil, splitOnce_eq_none (notMem_coreText os arch variant)]
  · rw [splitOnce_append (notMem_coreText os arch variant)]

theorem toString_injOn {q : Platform} (hp : p.Normal) (hq : q.Normal)
    (h : p.toString = q.toString) : p = q := by
  have hchars : p.chars = q.chars := String.ofList_injective h
  rcases p with _ | ⟨os, arch, variant, features⟩ <;>
    rcases q with _ | ⟨os', arch', variant', features'⟩
  · rfl
  · exact absurd hchars.symm (chars_ne_any os' arch' variant' features')
  · exact absurd hchars (chars_ne_any os arch variant features)
  · have hsplit := congrArg (splitOnce '+') hchars
    rw [splitOnce_chars hp.2, splitOnce_chars hq.2] at hsplit
    split_ifs at hsplit with hnil hnil' hnil'
    · subst hnil hnil'
      unfold chars at hchars
      simp only [hp.2, if_true, append_nil] at hchars
      obtain ⟨rfl, rfl, rfl⟩ := coreText_inj hchars
      rfl
    · obtain ⟨hcore, hfeatures⟩ := Prod.mk.inj (some.inj hsplit)
      obtain ⟨rfl, rfl, rfl⟩ := coreText_inj hcore
      rw [featureText_inj hnil hnil' hfeatures]

/-! ### Admitted platforms -/

/-- The platforms that come from a text or from the platform object of a registry. -/
def Admitted (p : Platform) : Prop :=
  (∃ value, parse value = .ok p) ∨ ∃ native, ofNative native = .ok p

theorem Admitted.normal (h : p.Admitted) : p.Normal := by
  rcases h with ⟨value, h⟩ | ⟨native, h⟩
  · exact (normal_printable_of_parse h).1
  · exact normal_of_ofNative h

/-- **The canonical grammar.** An admitted platform is read back from its written form exactly when
neither its variant nor one of its features is empty, which is so for every platform that was read
from a text. Distinct admitted platforms have distinct written forms. -/
theorem parse_toString_iff (p : Platform) (hp : p.Admitted) :
    (parse p.toString = .ok p ↔ p.Printable) ∧
    (∀ value, parse value = .ok p → p.Printable) ∧
    ∀ q : Platform, q.Admitted → p.toString = q.toString → p = q := by
  refine ⟨?_, fun value h => (normal_printable_of_parse h).2,
    fun q hq h => toString_injOn hp.normal hq.normal h⟩
  rw [parse_toString hp.normal]
  by_cases hprint : p.Printable
  · simp [hprint]
  · simp [hprint]

theorem parse_toString_musl :
    parse (specific .linux .amd64 (some "v8/10") ["a,b", "libc.musl"]).toString =
      .ok (specific .linux .amd64 (some "v8/10") ["a,b", "libc.musl"]) :=
  (parse_toString_iff _ (.inr
    ⟨⟨.amd64, .linux, none, some ["libc.musl", "a,b"], some "v8/10", none⟩, by decide +kernel⟩)).1.2
    (by decide +kernel)

/-- A registry may serve an empty variant. The platform is admitted, but its written form
`linux/amd64/` is refused. -/
theorem parse_toString_empty_variant :
    ofNative ⟨.amd64, .linux, none, none, some "", none⟩ =
      .ok (specific .linux .amd64 (some "") []) ∧
    (specific .linux .amd64 (some "") []).toString = "linux/amd64/" ∧
    parse "linux/amd64/" = .error ⟨"linux/amd64/", .invalidFormat⟩ := by
  decide +kernel

end Platform

end Ocx
