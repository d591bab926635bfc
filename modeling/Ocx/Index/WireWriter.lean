import Ocx.Util.Text

/-!
# Strings of index documents

Index documents are written as Python writes them: a string has only printable ASCII characters, and
everything else is escaped by its UTF-16 code units.  The serializer cuts a string at the characters
JSON must escape; the formatter writes the fragments between them and the escapes.
-/

namespace Ocx

open List

/-! ### Writing -/

/-- Four hex digits. -/
def hex4 (n : ℕ) : List Char := [n / 4096 % 16, n / 256 % 16, n / 16 % 16, n % 16].map Nat.digitChar

/-- The escape of a code unit, which is below `0x10000`. -/
def unicodeEscape (unit : ℕ) : List Char := '\\' :: 'u' :: hex4 unit

/-- A fragment after the raw run `run`. -/
def writeStringFragment (run : List Char) : List Char → List Char
  | [] => run
  | c :: fragment =>
    let code := c.toNat
    if code < 0x7F then writeStringFragment (run ++ [c]) fragment
    else
      let rest := code - 0x10000
      run ++ (if code < 0x10000 then unicodeEscape code
        else unicodeEscape (0xD800 + (rest >>> 10)) ++ unicodeEscape (0xDC00 + (rest &&& 0x3FF))) ++
      writeStringFragment [] fragment

/-- The characters that the serializer hands off on their own. -/
inductive CharEscape
  | quote
  | reverseSolidus
  | solidus
  | backspace
  | formFeed
  | lineFeed
  | carriageReturn
  | tab
  | asciiControl (byte : ℕ)

def writeCharEscape : CharEscape → List Char
  | .quote => ['\\', '"']
  | .reverseSolidus => ['\\', '\\']
  | .solidus => ['/']
  | .backspace => ['\\', 'b']
  | .formFeed => ['\\', 'f']
  | .lineFeed => ['\\', 'n']
  | .carriageReturn => ['\\', 'r']
  | .tab => ['\\', 't']
  | .asciiControl byte => unicodeEscape byte

/-- The escape table of the serializer. -/
def escapeOf (c : Char) : Option CharEscape :=
  if c = '"' then some .quote
  else if c = '\\' then some .reverseSolidus
  else if c = '\x08' then some .backspace
  else if c = '\x0c' then some .formFeed
  else if c = '\n' then some .lineFeed
  else if c = '\r' then some .carriageReturn
  else if c = '\t' then some .tab
  else if c.toNat < 0x20 then some (.asciiControl c.toNat)
  else none

/-- The contents of a string after the open fragment `fragment`. -/
def writeContents (fragment : List Char) : List Char → List Char
  | [] => writeStringFragment [] fragment
  | c :: value =>
    match escapeOf c with
    | none => writeContents (fragment ++ [c]) value
    | some escape =>
      writeStringFragment [] fragment ++ writeCharEscape escape ++ writeContents [] value

/-- A string as it stands in a document. -/
def writeString (value : String) : List Char := '"' :: writeContents [] value.toList ++ ['"']

/-! ### Reading -/

/-- The value of a lower-case hex digit. -/
def lowerDigit (c : Char) : Option ℕ :=
  if c.isDigit then some (c.toNat - 48) else if 'a' ≤ c ∧ c ≤ 'f' then some (c.toNat - 87) else none

/-- A hex digit of JSON, of either case. -/
def jsonDigit (c : Char) : Option ℕ := lowerDigit c.toLower

/-- The code units of a character. -/
def utf16 (c : Char) : List ℕ :=
  if c.toNat < 0x10000 then [c.toNat]
  else [0xD800 + (c.toNat - 0x10000) / 0x400, 0xDC00 + (c.toNat - 0x10000) % 0x400]

def shortEscape : Char → Option ℕ
  | '"' => some 0x22
  | '\\' => some 0x5C
  | '/' => some 0x2F
  | 'b' => some 8
  | 'f' => some 12
  | 'n' => some 10
  | 'r' => some 13
  | 't' => some 9
  | _ => none

/-- The code units of the contents, up to the closing quote. -/
def readUnits (digit : Char → Option ℕ) : List Char → Option (List ℕ)
  | ['"'] => some []
  | '\\' :: 'u' :: a :: b :: c :: d :: text => do
    let units ← readUnits digit text
    some (((← digit a) * 4096 + (← digit b) * 256 + (← digit c) * 16 + (← digit d)) :: units)
  | '\\' :: c :: text => do
    let units ← readUnits digit text
    some ((← shortEscape c) :: units)
  | c :: text => do
    let units ← readUnits digit text
    if c = '"' ∨ c = '\\' ∨ c.toNat < 0x20 then none else some (utf16 c ++ units)
  | [] => none

def decodeUtf16 : List ℕ → Option (List Char)
  | [] => some []
  | [u] => if u < 0xD800 ∨ 0xE000 ≤ u then some [Char.ofNat u] else none
  | u :: v :: units =>
    if u < 0xD800 ∨ 0xE000 ≤ u then (Char.ofNat u :: ·) <$> decodeUtf16 (v :: units)
    else if u < 0xDC00 ∧ 0xDC00 ≤ v ∧ v < 0xE000 then
      (Char.ofNat (0x10000 + (u - 0xD800) * 0x400 + (v - 0xDC00)) :: ·) <$> decodeUtf16 units
    else none

/-- The string a JSON text stands for, with these hex digits. -/
def readString (digit : Char → Option ℕ) : List Char → Option String
  | '"' :: text => do String.ofList <$> decodeUtf16 (← readUnits digit text)
  | _ => none

/-! ### One character at a time -/

/-- The text of a character inside a fragment. -/
def plainText (c : Char) : List Char :=
  if c.toNat < 0x7F then [c] else (utf16 c).flatMap unicodeEscape

/-- The text of a character of a string. -/
def charText (c : Char) : List Char :=
  match escapeOf c with
  | none => plainText c
  | some escape => writeCharEscape escape

theorem writeStringFragment_eq (run fragment : List Char) :
    writeStringFragment run fragment = run ++ fragment.flatMap plainText := by
  induction fragment generalizing run with
  | nil => simp [writeStringFragment]
  | cons c fragment ih =>
    have hmask (n : ℕ) : n &&& 0x3FF = n % 0x400 := Nat.and_two_pow_sub_one_eq_mod n 10
    simp only [writeStringFragment, ih, plainText, flatMap_cons, utf16, hmask,
      Nat.shiftRight_eq_div_pow]
    split_ifs <;> simp

theorem writeContents_eq (fragment value : List Char) :
    writeContents fragment value = fragment.flatMap plainText ++ value.flatMap charText := by
  induction value generalizing fragment with
  | nil => simp [writeContents, writeStringFragment_eq]
  | cons c value ih =>
    cases h : escapeOf c <;>
      simp [writeContents, h, ih, charText, writeStringFragment_eq]

theorem digitChar_lower {d : ℕ} (hd : d < 16) :
    lowerDigit (Nat.digitChar d) = some d ∧ jsonDigit (Nat.digitChar d) = some d ∧
      0x20 ≤ (Nat.digitChar d).toNat ∧ (Nat.digitChar d).toNat ≤ 0x7E := by
  interval_cases d <;> decide

theorem scalar_cases (c : Char) :
    c.toNat < 0xD800 ∨ 0xE000 ≤ c.toNat ∧ c.toNat < 0x110000 := c.valid

variable {digit : Char → Option ℕ} (hdigit : ∀ d < 16, digit (Nat.digitChar d) = some d)
include hdigit

theorem readUnits_unicodeEscape {u : ℕ} (hu : u < 0x10000) (text : List Char) :
    readUnits digit (unicodeEscape u ++ text) = (u :: ·) <$> readUnits digit text := by
  have hd (n : ℕ) : digit (Nat.digitChar (n % 16)) = some (n % 16) := hdigit _ (by omega)
  have hvalue : u / 4096 % 16 * 4096 + u / 256 % 16 * 256 + u / 16 % 16 * 16 + u % 16 = u := by
    omega
  cases h : readUnits digit text <;> simp [unicodeEscape, hex4, readUnits, h, hd, hvalue]

theorem readUnits_plainText {c : Char} (hescape : escapeOf c = none) (text : List Char) :
    readUnits digit (plainText c ++ text) = (utf16 c ++ ·) <$> readUnits digit text := by
  have hvalid := scalar_cases c
  unfold plainText
  split_ifs with hraw
  · unfold escapeOf at hescape
    split_ifs at hescape with hquote hslash
    cases h : readUnits digit text <;> simp_all [readUnits, utf16]
  · unfold utf16
    split_ifs with hbasic
    · simp [readUnits_unicodeEscape hdigit hbasic]
    · simp only [flatMap_cons, flatMap_nil, append_nil, append_assoc]
      rw [readUnits_unicodeEscape hdigit (by omega), readUnits_unicodeEscape hdigit (by omega)]
      simp [Function.comp_def]

theorem readUnits_charText (c : Char) (text : List Char) :
    readUnits digit (charText c ++ text) = (utf16 c ++ ·) <$> readUnits digit text := by
  cases hescape : escapeOf c with
  | none =>
    rw [charText, hescape]
    exact readUnits_plainText hdigit hescape text
  | some escape =>
    simp only [charText, hescape]
    unfold escapeOf at hescape
    split_ifs at hescape with h₁ h₂ h₃ h₄ h₅ h₆ h₇ h₈ <;> cases hescape
    iterate 7
      · subst c
        cases h : readUnits digit text <;> simp [writeCharEscape, readUnits, h, shortEscape, utf16]
    · have hbasic : c.toNat < 0x10000 := by omega
      rw [writeCharEscape, readUnits_unicodeEscape hdigit hbasic]
      simp [utf16, hbasic]

omit hdigit in
theorem decodeUtf16_append (c : Char) (units : List ℕ) :
    decodeUtf16 (utf16 c ++ units) = (c :: ·) <$> decodeUtf16 units := by
  have hvalid := scalar_cases c
  unfold utf16
  split_ifs with hbasic
  · have hscalar : c.toNat < 0xD800 ∨ 0xE000 ≤ c.toNat := by omega
    cases units <;> simp [decodeUtf16, hscalar]
  · have hhigh : ¬(0xD800 + (c.toNat - 0x10000) / 0x400 < 0xD800 ∨
        0xE000 ≤ 0xD800 + (c.toNat - 0x10000) / 0x400) := by omega
    rw [cons_append, cons_append, nil_append, decodeUtf16, if_neg hhigh, if_pos (by omega)]
    have hcode : 0x10000 + (0xD800 + (c.toNat - 0x10000) / 0x400 - 0xD800) * 0x400 +
        (0xDC00 + (c.toNat - 0x10000) % 0x400 - 0xDC00) = c.toNat := by omega
    rw [hcode, Char.ofNat_toNat]

theorem readString_writeString (value : String) :
    readString digit (writeString value) = some value := by
  have hunits : readUnits digit (value.toList.flatMap charText ++ ['"']) =
      some (value.toList.flatMap utf16) := by
    induction value.toList with
    | nil => rfl
    | cons c rest ih => rw [flatMap_cons, append_assoc, readUnits_charText hdigit, ih]; rfl
  have hchars : decodeUtf16 (value.toList.flatMap utf16) = some value.toList := by
    induction value.toList with
    | nil => rfl
    | cons c rest ih => rw [flatMap_cons, decodeUtf16_append, ih]; rfl
  simp [writeString, writeContents_eq, readString, hunits, hchars]

omit hdigit

/-- A printable ASCII character. -/
def IsPrintable (c : Char) : Prop := 0x20 ≤ c.toNat ∧ c.toNat ≤ 0x7E

theorem printable_unicodeEscape (unit : ℕ) : ∀ x ∈ unicodeEscape unit, IsPrintable x := by
  have hd (n : ℕ) : IsPrintable (Nat.digitChar (n % 16)) := (digitChar_lower (by omega)).2.2
  have hs : IsPrintable '\\' ∧ IsPrintable 'u' := by simp [IsPrintable]
  simp [unicodeEscape, hex4, hd, hs]

theorem printable_charText (c : Char) : ∀ x ∈ charText c, IsPrintable x := by
  unfold charText
  split
  · next hescape =>
    unfold plainText
    split_ifs with hraw
    · unfold escapeOf at hescape
      split_ifs at hescape with _ _ _ _ _ _ _ hcontrol
      intro x hx
      rw [mem_singleton.1 hx]
      exact ⟨by omega, by omega⟩
    · intro x hx
      obtain ⟨unit, -, hx⟩ := mem_flatMap.1 hx
      exact printable_unicodeEscape unit x hx
  · next escape _ =>
    cases escape with
    | asciiControl byte => exact printable_unicodeEscape byte
    | _ => simp [writeCharEscape, IsPrintable]

/-- **Strings are written faithfully.** A written string is printable ASCII, reads back as JSON,
also when only lower-case hex digits are read, and no two strings are written alike. -/
theorem writeString_faithful (value : String) :
    (∀ c ∈ writeString value, IsPrintable c) ∧
      readString lowerDigit (writeString value) = some value ∧
      readString jsonDigit (writeString value) = some value ∧
      ∀ other, writeString other = writeString value → other = value := by
  have hread := readString_writeString fun d hd => (digitChar_lower hd).1
  refine ⟨?_, hread value, readString_writeString (fun d hd => (digitChar_lower hd).2.1) value, ?_⟩
  · have hquote : IsPrintable '"' := by simp [IsPrintable]
    simp only [writeString, writeContents_eq, flatMap_nil, nil_append, mem_cons, mem_append]
    rintro c ((rfl | hc) | rfl | hc)
    · exact hquote
    · obtain ⟨x, -, hc⟩ := mem_flatMap.1 hc
      exact printable_charText x c hc
    · exact hquote
    · simp at hc
  · intro other heq
    have hother := hread other
    rw [heq, hread value] at hother
    exact (Option.some.inj hother).symm

end Ocx
