import Mathlib

/-!
# Scanning text

Small facts about scanning a list of characters from the left: a scanner takes the longest run of
characters of a class, and a printed run is read back whenever what follows cannot continue it.
Decimal numbers are printed without leading zeros.
-/

namespace Ocx

open List

variable {p : Char → Bool} {s rest : List Char} {sep c : Char}

/-- The text `s` does not go on with a character of the class `p`. -/
def Stops (p : Char → Bool) (s : List Char) : Prop := ∀ c ∈ s.head?, p c = false

@[simp] theorem stops_nil (p : Char → Bool) : Stops p [] := by simp [Stops]

@[simp] theorem stops_cons {p : Char → Bool} {c : Char} {s : List Char} :
    Stops p (c :: s) ↔ p c = false := by simp [Stops]

theorem takeWhile_of_stops (h : Stops p s) :
    s.takeWhile p = [] := by
  cases s with
  | nil => rfl
  | cons c s => simp_all

theorem dropWhile_of_stops (h : Stops p s) :
    s.dropWhile p = s := by
  cases s with
  | nil => rfl
  | cons c s => simp_all

theorem takeWhile_append_of_stops {run : List Char}
    (hrun : ∀ c ∈ run, p c = true) (h : Stops p s) : (run ++ s).takeWhile p = run := by
  rw [takeWhile_append_of_pos hrun, takeWhile_of_stops h, append_nil]

theorem dropWhile_append_of_stops {run : List Char}
    (hrun : ∀ c ∈ run, p c = true) (h : Stops p s) : (run ++ s).dropWhile p = s := by
  rw [dropWhile_append_of_pos hrun, dropWhile_of_stops h]

/-- What follows `front` in `s`, when `s` starts with it. -/
def stripFront (front s : List Char) : Option (List Char) :=
  if front.isPrefixOf s then some (s.drop front.length) else none

theorem stripFront_eq_some {front : List Char} :
    stripFront front s = some rest ↔ s = front ++ rest := by
  rw [stripFront]
  split_ifs with h
  · obtain ⟨t, rfl⟩ := isPrefixOf_iff_prefix.1 h
    simp
  · refine iff_of_false (by simp) ?_
    rintro rfl
    exact h (by simp)

/-- The text before and after the first `sep`. -/
def splitOnce (sep : Char) : List Char → Option (List Char × List Char)
  | [] => none
  | c :: s => if c = sep then some ([], s) else (splitOnce sep s).map fun p => (c :: p.1, p.2)

theorem splitOnce_append (h : sep ∉ s) (rest : List Char) :
    splitOnce sep (s ++ sep :: rest) = some (s, rest) := by
  induction s with
  | nil => simp [splitOnce]
  | cons c s ih =>
    rw [mem_cons, not_or] at h
    rw [cons_append, splitOnce, if_neg (Ne.symm h.1), ih h.2]
    rfl

theorem splitOnce_eq_none (h : sep ∉ s) : splitOnce sep s = none := by
  induction s with
  | nil => rfl
  | cons c s ih =>
    rw [mem_cons, not_or] at h
    rw [splitOnce, if_neg (Ne.symm h.1), ih h.2]
    rfl

theorem splitOnce_eq_some {first : List Char} :
    splitOnce sep s = some (first, rest) ↔ s = first ++ sep :: rest ∧ sep ∉ first := by
  constructor
  · intro h
    by_cases hsep : sep ∈ s
    · obtain ⟨a, b, rfl, ha⟩ := eq_append_cons_of_mem hsep
      rw [splitOnce_append ha] at h
      cases h
      exact ⟨rfl, ha⟩
    · rw [splitOnce_eq_none hsep] at h
      cases h
  · rintro ⟨rfl, h⟩
    exact splitOnce_append h rest

/-- The text before and after the last `sep`. -/
def rsplitOnce (sep : Char) (s : List Char) : Option (List Char × List Char) :=
  (splitOnce sep s.reverse).map fun p => (p.2.reverse, p.1.reverse)

theorem rsplitOnce_eq_some {first : List Char} :
    rsplitOnce sep s = some (first, rest) ↔ s = first ++ sep :: rest ∧ sep ∉ rest := by
  rw [rsplitOnce, Option.map_eq_some_iff]
  constructor
  · rintro ⟨⟨a, b⟩, hsplit, heq⟩
    obtain ⟨hs, hfree⟩ := splitOnce_eq_some.1 hsplit
    cases heq
    exact ⟨by simpa using congrArg reverse hs, by simpa using hfree⟩
  · rintro ⟨rfl, hfree⟩
    exact ⟨(rest.reverse, first.reverse), splitOnce_eq_some.2 (by simpa using hfree), by simp⟩

theorem notMem_of_mem_splitOn {piece : List Char} (h : piece ∈ s.splitOn sep) :
    sep ∉ piece := by
  induction s generalizing piece with
  | nil => simp_all
  | cons c s ih =>
    rw [splitOn_cons_eq_if_modifyHead] at h
    split_ifs at h with hc
    · rcases mem_cons.1 h with rfl | h
      · exact not_mem_nil
      · exact ih h
    · -- the first piece grows by a character that is no separator
      cases hs : s.splitOn sep with
      | nil => exact absurd hs (splitOn_ne_nil sep s)
      | cons first rest =>
        rw [hs, modifyHead_cons, mem_cons] at h
        rcases h with rfl | h
        · rw [mem_cons, not_or]
          exact ⟨fun e => hc (by simp [e]), ih (by simp [hs])⟩
        · exact ih (by simp [hs, h])

theorem exists_mem_splitOn (h : c ∈ s) (hc : c ≠ sep) : ∃ piece ∈ s.splitOn sep, c ∈ piece := by
  induction s with
  | nil => simp at h
  | cons d s ih =>
    rw [splitOn_cons_eq_if_modifyHead]
    obtain ⟨first, pieces, hs⟩ := exists_cons_of_ne_nil (splitOn_ne_nil sep s)
    rw [hs] at ih ⊢
    split_ifs with hd
    · have hmem := (mem_cons.1 h).resolve_left fun e => hc (e.trans (by simpa using hd))
      obtain ⟨piece, hpiece, hin⟩ := ih hmem
      exact ⟨piece, mem_cons_of_mem _ hpiece, hin⟩
    · rcases mem_cons.1 h with rfl | hmem
      · exact ⟨_, mem_cons_self, mem_cons_self⟩
      · obtain ⟨piece, hpiece, hin⟩ := ih hmem
        rcases mem_cons.1 hpiece with rfl | hpiece
        · exact ⟨_, mem_cons_self, mem_cons_of_mem _ hin⟩
        · exact ⟨piece, mem_cons_of_mem _ hpiece, hin⟩

/-- What comes before `back` in `s`, when `s` ends with it. -/
def stripEnd (back s : List Char) : Option (List Char) :=
  if back.isSuffixOf s then some (s.take (s.length - back.length)) else none

theorem stripEnd_eq_some {back : List Char} :
    stripEnd back s = some rest ↔ s = rest ++ back := by
  rw [stripEnd]
  split_ifs with h
  · obtain ⟨t, rfl⟩ := isSuffixOf_iff_suffix.1 h
    simp
  · refine iff_of_false (by simp) ?_
    rintro rfl
    exact h (isSuffixOf_iff_suffix.2 (suffix_append _ _))

/-- A character with the Unicode property `White_Space`. -/
def isWhiteSpace (c : Char) : Bool :=
  let n := c.toNat
  (9 ≤ n && n ≤ 13) || n = 0x20 || n = 0x85 || n = 0xA0 || n = 0x1680 ||
    (0x2000 ≤ n && n ≤ 0x200A) || n = 0x2028 || n = 0x2029 || n = 0x202F || n = 0x205F ||
    n = 0x3000

/-- A text without the white space around it. -/
def trim (s : List Char) : List Char :=
  ((s.dropWhile isWhiteSpace).reverse.dropWhile isWhiteSpace).reverse

theorem eq_of_toLower {d : Char} (hd : d.toNat < 97) (h : c.toLower = d) : c = d := by
  unfold Char.toLower at h
  split_ifs at h with hc
  · have hval : (c.toNat + 32) % 4294967296 = d.toNat := by
      simpa [UInt32.toNat_add] using congrArg (fun d : Char => d.val.toNat) h
    have hlow : 65 ≤ c.toNat := UInt32.le_iff_toNat_le.1 hc.1
    have hhigh : c.toNat ≤ 90 := UInt32.le_iff_toNat_le.1 hc.2
    omega
  · exact h

/-! ### Decimal numbers -/

theorem isDigit_of_mem_toDigits {n : ℕ} (h : c ∈ Nat.toDigits 10 n) :
    c.isDigit = true :=
  Nat.isDigit_of_mem_toDigits (by omega) (by omega) h

theorem head_toDigits_ne_zero {n : ℕ} (hn : 0 < n)
    (h : Nat.toDigits 10 n = c :: s) : c ≠ '0' := by
  induction n using Nat.strong_induction_on generalizing c s with
  | _ n ih =>
    by_cases hlt : n < 10
    · rw [Nat.toDigits_of_lt_base hlt] at h
      obtain ⟨rfl, -⟩ := cons.inj h
      interval_cases n <;> decide
    · rw [Nat.toDigits_of_base_le (by omega) (by omega)] at h
      cases hq : Nat.toDigits 10 (n / 10) with
      | nil => exact absurd hq Nat.toDigits_ne_nil
      | cons d t =>
        rw [hq, cons_append] at h
        obtain ⟨rfl, -⟩ := cons.inj h
        exact ih (n / 10) (by omega) (by omega) hq

theorem toNat_of_isDigit (h : c.isDigit = true) :
    c.toNat - '0'.toNat < 10 ∧ Nat.digitChar (c.toNat - '0'.toNat) = c := by
  simp only [Char.isDigit, Bool.and_eq_true, decide_eq_true_eq, ge_iff_le,
    UInt32.le_iff_toNat_le] at h
  have hlow : 48 ≤ c.toNat := h.1
  have hhigh : c.toNat ≤ 57 := h.2
  have hlt : c.toNat - '0'.toNat < 10 := by
    have : '0'.toNat = 48 := rfl
    omega
  refine ⟨hlt, ?_⟩
  have hval : (Nat.digitChar (c.toNat - '0'.toNat)).toNat = c.toNat := by
    rw [Nat.toNat_digitChar_of_lt_ten hlt]
    have : '0'.toNat = 48 := rfl
    omega
  exact Char.toNat_inj.1 hval

/-- A run of digits without a leading zero is the printed form of the number it stands for. -/
theorem toDigits_ofDigitChars {ds : List Char} (hdigits : ∀ c ∈ ds, c.isDigit = true)
    (hne : ds ≠ []) (hlead : ds.head? = some '0' → ds = ['0']) :
    Nat.toDigits 10 (Nat.ofDigitChars 10 ds 0) = ds := by
  induction ds using reverseRecOn with
  | nil => exact absurd rfl hne
  | append_singleton front c ih =>
    obtain ⟨hlt, hchar⟩ := toNat_of_isDigit (hdigits c (by simp))
    rcases eq_or_ne front [] with rfl | hfront
    · rw [nil_append, Nat.ofDigitChars_cons, Nat.ofDigitChars_nil, Nat.mul_zero, Nat.zero_add,
        Nat.toDigits_of_lt_base hlt, hchar]
    · -- the front has no leading zero at all, so it stands for a positive number
      have hhead : front.head? ≠ some '0' := fun h0 => by
        have := hlead (by rw [head?_append_of_ne_nil _ hfront, h0])
        simpa [hfront] using congrArg length this
      have hprinted := ih (fun d hd => hdigits d (by simp [hd])) hfront (absurd · hhead)
      have hpos : 0 < Nat.ofDigitChars 10 front 0 := by
        refine Nat.pos_of_ne_zero fun h0 => hhead ?_
        rw [h0, Nat.toDigits_zero] at hprinted
        simp [← hprinted]
      rw [Nat.ofDigitChars_append, Nat.ofDigitChars_cons, Nat.ofDigitChars_nil,
        ← Nat.toDigits_append_toDigits (by omega) hpos hlt, hprinted,
        Nat.toDigits_of_lt_base hlt, hchar]

end Ocx
