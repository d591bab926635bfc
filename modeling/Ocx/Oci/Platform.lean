import Ocx.Util.Order

/-!
# Platforms

A package is published per platform. Registries describe a platform by the open OCI object
(`NativePlatform`); packages use a closed enumeration of operating systems and architectures
(`Platform`), of which only some pairs are legal.
-/

namespace Ocx

/-! ### The closed model -/

inductive OperatingSystem
  | darwin
  | linux
  | windows
  | wasip1
  | wasip2
deriving DecidableEq, Repr

inductive Architecture
  | amd64
  | arm64
  | wasm
deriving DecidableEq, Repr

/-- Every pair of operating system and architecture that is accepted. -/
def supportedPairs : List (OperatingSystem × Architecture) :=
  [(.linux, .amd64), (.linux, .arm64), (.darwin, .amd64), (.darwin, .arm64), (.windows, .amd64),
    (.windows, .arm64), (.wasip1, .wasm), (.wasip2, .wasm)]

inductive Platform
  /-- A platform-agnostic package. -/
  | any
  | specific (os : OperatingSystem) (arch : Architecture) (variant : Option String)
      (osFeatures : List String)
deriving DecidableEq, Repr

/-! ### The platform object of a registry -/

/-- The operating system of a platform object. -/
inductive NativeOs
  | linux
  | windows
  | darwin
  /-- Any other enumerated system, under its registered name. -/
  | named (name : String)
  /-- A name the object model does not enumerate. -/
  | other (name : String)
deriving DecidableEq, Repr

inductive NativeArch
  | amd64
  | arm64
  | wasm
  /-- Any other enumerated architecture, under its registered name. -/
  | named (name : String)
  /-- A name the object model does not enumerate. -/
  | other (name : String)
deriving DecidableEq, Repr

namespace NativeOs

def text : NativeOs → String
  | linux => "linux"
  | windows => "windows"
  | darwin => "darwin"
  | named name => name
  | other name => name

/-- Constructors first, then names. -/
def key : NativeOs → ℕ ×ₗ String
  | linux => toLex (0, "")
  | windows => toLex (1, "")
  | darwin => toLex (2, "")
  | named name => toLex (3, name)
  | other name => toLex (4, name)

theorem key_injective : key.Injective := by
  intro a b h
  cases a <;> cases b <;> simp_all [key]

end NativeOs

namespace NativeArch

def text : NativeArch → String
  | amd64 => "amd64"
  | arm64 => "arm64"
  | wasm => "wasm"
  | named name => name
  | other name => name

/-- Constructors first, then names. -/
def key : NativeArch → ℕ ×ₗ String
  | amd64 => toLex (0, "")
  | arm64 => toLex (1, "")
  | wasm => toLex (2, "")
  | named name => toLex (3, name)
  | other name => toLex (4, name)

theorem key_injective : key.Injective := by
  intro a b h
  cases a <;> cases b <;> simp_all [key]

end NativeArch

/-- The platform object of a registry. -/
@[ext] structure NativePlatform where
  architecture : NativeArch
  /-- The operating system. -/
  os : NativeOs
  /-- The version of the operating system. -/
  osVersion : Option String
  /-- The features required of the operating system. -/
  osFeatures : Option (List String)
  variant : Option String
  features : Option (List String)
deriving DecidableEq, Repr

namespace NativePlatform

/-- The fields in order, a missing one first. -/
def key (p : NativePlatform) : (ℕ ×ₗ String) ×ₗ (ℕ ×ₗ String) ×ₗ WithBot String ×ₗ
    WithBot (List String) ×ₗ WithBot String ×ₗ WithBot (List String) :=
  toLex (p.architecture.key, toLex (p.os.key, toLex (bottom p.osVersion,
    toLex (bottom p.osFeatures, toLex (bottom p.variant, bottom p.features)))))

theorem key_injective : key.Injective := by
  intro p q h
  simp only [key, EmbeddingLike.apply_eq_iff_eq, Prod.mk.injEq, bottom_injective.eq_iff,
    NativeArch.key_injective.eq_iff, NativeOs.key_injective.eq_iff] at h
  obtain ⟨harch, hos, hversion, hosFeatures, hvariant, hfeatures⟩ := h
  exact NativePlatform.ext harch hos hversion hosFeatures hvariant hfeatures

instance : LinearOrder NativePlatform :=
  linearOrderOfKey key key_injective (fun p q => compare p.key q.key) (fun _ _ => rfl)

instance : Std.TransCmp (compare : NativePlatform → NativePlatform → Ordering) := inferInstance

/-- The `unknown/unknown` placeholder of attestations. -/
def isUnknown (p : NativePlatform) : Bool :=
  p.os.text == "unknown" && p.architecture.text == "unknown"

end NativePlatform

/-! ### Conversions -/

/-- Sort the features and drop duplicates. -/
def normalizeOsFeatures (features : List String) : List String :=
  if features.length ≤ 1 then features else (features.insertionSort (· ≤ ·)).dedup

/-- Why a platform is refused. -/
inductive PlatformErrorKind
  /-- The text does not follow the platform grammar. -/
  | invalidFormat
  /-- The operating system is not supported. -/
  | unsupportedOs (os : String)
  /-- The architecture is not supported. -/
  | unsupportedArch (arch : String)
  | unsupportedPair (os : OperatingSystem) (arch : Architecture)
  /-- The platform object is not supported. -/
  | unsupported
deriving DecidableEq, Repr

/-- The operating system of the platform object. -/
def OperatingSystem.toNative : OperatingSystem → NativeOs
  | linux => .linux
  | darwin => .darwin
  | windows => .windows
  | wasip1 => .other "wasip1"
  | wasip2 => .other "wasip2"

/-- The architecture of the platform object. -/
def Architecture.toNative : Architecture → NativeArch
  | amd64 => .amd64
  | arm64 => .arm64
  | wasm => .wasm

/-- The supported operating system a platform object names. -/
def OperatingSystem.ofNative : NativeOs → Except PlatformErrorKind OperatingSystem
  | .linux => .ok linux
  | .darwin => .ok darwin
  | .windows => .ok windows
  | .other name =>
    if name = "wasip1" then .ok wasip1
    else if name = "wasip2" then .ok wasip2
    else .error (.unsupportedOs name)
  | .named name => .error (.unsupportedOs name)

/-- The supported architecture a platform object names. -/
def Architecture.ofNative : NativeArch → Except PlatformErrorKind Architecture
  | .amd64 => .ok amd64
  | .arm64 => .ok arm64
  | .wasm => .ok wasm
  | .other name => .error (.unsupportedArch name)
  | .named name => .error (.unsupportedArch name)

/-- Refuse a pair that is not supported. -/
def validatePair (os : OperatingSystem) (arch : Architecture) : Except PlatformErrorKind Unit :=
  if (os, arch) ∈ supportedPairs then .ok () else .error (.unsupportedPair os arch)

namespace Platform

/-- The features of a platform object, absent when there are none. -/
def nativeFeatures (features : List String) : Option (List String) :=
  if normalizeOsFeatures features = [] then none else some (normalizeOsFeatures features)

def toNative : Platform → NativePlatform
  | any => ⟨.other "any", .other "any", none, none, none, none⟩
  | specific os arch variant osFeatures =>
    ⟨arch.toNative, os.toNative, none, nativeFeatures osFeatures, variant, none⟩

/-- The platform a platform object describes. The reserved features and the version of the
operating system are dropped. -/
def ofNative (p : NativePlatform) : Except PlatformErrorKind Platform :=
  match p.os, p.architecture with
  | .other os, .other arch =>
    if os = "any" ∧ arch = "any" ∧ p.variant = none then .ok any else .error .unsupported
  | os, arch => do
    let os ← OperatingSystem.ofNative os
    let arch ← Architecture.ofNative arch
    validatePair os arch
    .ok (specific os arch p.variant (normalizeOsFeatures (p.osFeatures.getD [])))

@[simp] theorem isUnknown_toNative (p : Platform) : p.toNative.isUnknown = false := by
  rcases p with _ | ⟨os, arch, variant, features⟩
  · decide
  · cases os <;> cases arch <;> rfl

end Platform

end Ocx
