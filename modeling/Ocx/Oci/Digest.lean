import Ocx.Util.Order
import Ocx.Util.Text

/-!
# Content digests

A content digest names an algorithm and the hex digits of a hash.
-/

namespace Ocx

open List Option

/-- The supported digest algorithms. -/
inductive Algorithm
  | sha256
  | sha384
  | sha512
deriving DecidableEq, Repr

namespace Algorithm

/-- Every supported algorithm, in the order tags are matched. -/
def all : List Algorithm := [sha256, sha384, sha512]

/-- The name of the algorithm in digests and tags. -/
def name : Algorithm → String
  | sha256 => "sha256"
  | sha384 => "sha384"
  | sha512 => "sha512"

/-- The number of hex digits of a digest. -/
def hexLen : Algorithm → ℕ
  | sha256 => 64
  | sha384 => 96
  | sha512 => 128

end Algorithm

structure Digest where
  algorithm : Algorithm
  hex : String
deriving DecidableEq, Repr

/-- The written form `<algorithm>:<hex>`. -/
def Digest.toString (d : Digest) : String := d.algorithm.name ++ ":" ++ d.hex

/-- A hexadecimal digit of either case. -/
def isHexDigit (c : Char) : Bool :=
  c.isDigit || ('a' ≤ c && c ≤ 'f') || ('A' ≤ c && c ≤ 'F')

/-- The hex digits are as many as the algorithm gives, and are hexadecimal digits. -/
def Digest.WellFormed (d : Digest) : Prop :=
  d.hex.length = d.algorithm.hexLen ∧ d.hex.toList.all isHexDigit = true

instance (d : Digest) : Decidable d.WellFormed := inferInstanceAs (Decidable (_ ∧ _))

/-- Match a keep-tag body `<algorithm><separator><hex>`. -/
def parseKeep (value : List Char) (separator : Char) : Option (Algorithm × List Char) :=
  Algorithm.all.findSome? fun algorithm => do
    let rest ← stripFront algorithm.name.toList value
    let hex ← stripFront [separator] rest
    if hex.length = algorithm.hexLen ∧ hex.all isHexDigit then some (algorithm, hex) else none

theorem eq_of_parseKeep {value : List Char} {separator : Char} {algorithm : Algorithm}
    {hex : List Char} (h : parseKeep value separator = some (algorithm, hex)) :
    value = algorithm.name.toList ++ separator :: hex := by
  obtain ⟨a, -, h⟩ := exists_of_findSome?_eq_some h
  simp only [bind_eq_bind, bind_eq_some_iff] at h
  obtain ⟨rest, hrest, hex', hhex, h⟩ := h
  split_ifs at h
  obtain ⟨rfl, rfl⟩ := Prod.mk.inj (some.inj h)
  rw [stripFront_eq_some.1 hrest, stripFront_eq_some.1 hhex, singleton_append]

theorem isHexDigit_of_parseKeep {value : List Char} {separator : Char} {algorithm : Algorithm}
    {hex : List Char} (h : parseKeep value separator = some (algorithm, hex)) :
    ∀ c ∈ hex, isHexDigit c = true := by
  obtain ⟨a, -, h⟩ := exists_of_findSome?_eq_some h
  simp only [bind_eq_bind, bind_eq_some_iff] at h
  obtain ⟨rest, -, hex', -, h⟩ := h
  split_ifs at h with hhex
  obtain ⟨rfl, rfl⟩ := Prod.mk.inj (some.inj h)
  exact all_eq_true.1 hhex.2

/-- Read `<algorithm>:<hex>`, with the hex digits folded to lower case. -/
def Digest.tryFrom (value : String) : Option Digest :=
  (parseKeep value.toList ':').map fun (algorithm, hex) =>
    ⟨algorithm, String.ofList (hex.map Char.toLower)⟩

end Ocx
