import Mathlib

/-!
# Patterns of patch rules

A pattern is matched against a text byte by byte.  The matcher remembers the last star only: when a
byte does not match, it goes back to that star and gives it one byte more.  Nothing is lost by this:
a star that was met later can take whatever an earlier one would have taken.

The language of a pattern is given by reading it as a list of items (`globItems`).
-/

namespace Ocx

open List Option

/-! ### The matcher -/

def starByte : UInt8 := '*'.toUInt8

def anyByte : UInt8 := '?'.toUInt8

def openByte : UInt8 := '['.toUInt8

def closeByte : UInt8 := ']'.toUInt8

def negateByte : UInt8 := '!'.toUInt8

def rangeByte : UInt8 := '-'.toUInt8

/-- Read the set of a bracket: whether the byte is in it, and what is left at the closer. -/
def scanSet (ch : UInt8) : Bool → List UInt8 → Bool × List UInt8
  | found, [] => (found, [])
  | found, c :: d :: e :: rest =>
    if c = closeByte then (found, c :: d :: e :: rest)
    else if d = rangeByte ∧ e ≠ closeByte then scanSet ch (found || (c ≤ ch && ch ≤ e)) rest
    else scanSet ch (found || c == ch) (d :: e :: rest)
  | found, c :: rest =>
    if c = closeByte then (found, c :: rest) else scanSet ch (found || c == ch) rest

/-- The set of a bracket, with what follows it. -/
def bracketSet (rest : List UInt8) : List UInt8 :=
  if rest.head? = some negateByte then rest.tail else rest

/-- Match a byte against a bracket, given what follows its opener.  The result comes with the rest
of the pattern; a bracket that is not closed is an opener as it stands. -/
def matchBracket (rest : List UInt8) (ch : UInt8) : Bool × List UInt8 :=
  match scanSet ch false (bracketSet rest) with
  | (found, _ :: after) => (found != (rest.head? == some negateByte), after)
  | (_, []) => (openByte == ch, rest)

structure GlobState where
  /-- What is left of the pattern. -/
  pattern : List UInt8
  text : List UInt8
  /-- The pattern behind the last star, and the text from where its match begins. -/
  star : Option (List UInt8 × List UInt8)
  /-- The text is matched from there on. -/
  le : ∀ s ∈ star, text.length ≤ s.2.length

namespace GlobState

/-- Behind a star, before it has taken anything. -/
def afterStar (pattern text : List UInt8) : GlobState :=
  ⟨pattern, text, some (pattern, text), by rintro _ ⟨⟩; exact le_rfl⟩

/-- Give the last star one byte more. -/
def backtrack (s : GlobState) : Option GlobState :=
  s.star.map fun star => afterStar star.1 star.2.tail

/-- The first byte of the text is matched. -/
def accept (s : GlobState) (pattern : List UInt8) : GlobState where
  pattern := pattern
  text := s.text.tail
  star := s.star
  le t ht := (by simp : s.text.tail.length ≤ s.text.length).trans (s.le t ht)

/-- One turn of the loop, at a byte of the text. -/
def step (s : GlobState) (ch : UInt8) : Option GlobState :=
  match s.pattern with
  | [] => s.backtrack
  | c :: rest =>
    if c = starByte then some (afterStar rest s.text)
    else if c = anyByte then some (s.accept rest)
    else if c = openByte then
      if (matchBracket rest ch).1 then some (s.accept (matchBracket rest ch).2) else s.backtrack
    else if c = ch then some (s.accept rest)
    else s.backtrack

/-- How much of the text the last star can still take. -/
def slack (s : GlobState) : ℕ :=
  (s.star.map fun star => star.2.length).getD (s.text.length + 1)

def rank (s : GlobState) : ℕ ×ₗ ℕ ×ₗ ℕ :=
  toLex (s.slack, toLex (s.text.length, s.pattern.length))

variable {s next : GlobState} {c ch : UInt8} {pattern rest text text' : List UInt8}

theorem text_length_le_slack (s : GlobState) : s.text.length ≤ s.slack := by
  unfold slack
  cases hstar : s.star with
  | none => exact Nat.le_succ _
  | some star => exact s.le star hstar

theorem rank_backtrack_lt (htext : s.text = ch :: text) (h : s.backtrack = some next) :
    next.rank < s.rank := by
  obtain ⟨star, hstar, rfl⟩ := map_eq_some_iff.1 h
  have hle := s.le star hstar
  rw [htext, length_cons] at hle
  refine Prod.Lex.toLex_lt_toLex.2 (.inl ?_)
  simp only [slack, afterStar, hstar, length_tail, map_some, getD_some]
  omega

theorem rank_accept_lt (htext : s.text = ch :: text) (pattern : List UInt8) :
    (s.accept pattern).rank < s.rank := by
  have hslack : (s.accept pattern).slack ≤ s.slack := by
    show (s.star.map fun star => star.2.length).getD (s.text.tail.length + 1) ≤
      (s.star.map fun star => star.2.length).getD (s.text.length + 1)
    cases s.star <;> simp
  refine Prod.Lex.toLex_lt_toLex.2 (hslack.lt_or_eq.imp_right fun heq => ⟨heq, ?_⟩)
  exact Prod.Lex.toLex_lt_toLex.2 (.inl (by simp [accept, htext]))

/-- **The matcher terminates.** -/
theorem rank_step_lt (htext : s.text = ch :: text) (h : s.step ch = some next) :
    next.rank < s.rank := by
  unfold step at h
  split at h
  · exact rank_backtrack_lt htext h
  · rename_i c rest hpattern
    split_ifs at h
    · cases h
      refine Prod.Lex.toLex_lt_toLex.2
        (s.text_length_le_slack.lt_or_eq.imp_right fun heq => ⟨heq, ?_⟩)
      exact Prod.Lex.toLex_lt_toLex.2 (.inr ⟨rfl, by simp [hpattern, afterStar]⟩)
    all_goals first
      | exact rank_backtrack_lt htext h
      | exact some.inj h ▸ rank_accept_lt htext _

/-- The loop; at the end of the text only stars may be left. -/
def run (s : GlobState) : Bool :=
  match _htext : s.text with
  | [] => s.pattern.all (· = starByte)
  | ch :: _ =>
    match _hstep : s.step ch with
    | none => false
    | some next => next.run
termination_by s.rank
decreasing_by exact rank_step_lt _htext _hstep

end GlobState

/-- Match a text against a pattern, both as bytes. -/
def globMatch (pattern text : List UInt8) : Bool :=
  (⟨pattern, text, none, by simp⟩ : GlobState).run

/-! ### The language of a pattern -/

inductive GlobItem
  /-- Any run of bytes. -/
  | star
  /-- Any byte. -/
  | any
  /-- A byte in one of the ranges, or in none of them. -/
  | set (negated : Bool) (ranges : List (UInt8 × UInt8))
  | literal (c : UInt8)
deriving DecidableEq

def GlobItem.accepts : GlobItem → UInt8 → Bool
  | star, _ => false
  | any, _ => true
  | set negated ranges, ch => ranges.any (fun range => range.1 ≤ ch && ch ≤ range.2) != negated
  | literal c, ch => c == ch

/-- The ranges of a set; a byte that stands alone is a range. -/
def globRanges : List UInt8 → List (UInt8 × UInt8)
  | [] => []
  | c :: d :: e :: rest =>
    if d = rangeByte then (c, e) :: globRanges rest else (c, c) :: globRanges (d :: e :: rest)
  | c :: rest => (c, c) :: globRanges rest

/-- The item of a bracket, which the first closer behind its opener closes, and what follows it. -/
def bracketItem (rest : List UInt8) : GlobItem × List UInt8 :=
  match (bracketSet rest).dropWhile (· ≠ closeByte) with
  | _ :: after =>
    (.set (rest.head? == some negateByte)
      (globRanges ((bracketSet rest).takeWhile (· ≠ closeByte))), after)
  | [] => (.literal openByte, rest)

/-- The first item of a pattern, and what follows it. -/
def firstItem (c : UInt8) (rest : List UInt8) : GlobItem × List UInt8 :=
  if c = starByte then (.star, rest)
  else if c = anyByte then (.any, rest)
  else if c = openByte then bracketItem rest
  else (.literal c, rest)

theorem length_bracketItem (rest : List UInt8) : (bracketItem rest).2.length ≤ rest.length := by
  unfold bracketItem
  split
  · rename_i after hdrop
    have hset : (bracketSet rest).length ≤ rest.length := by
      unfold bracketSet
      split_ifs <;> simp
    have hlength := (dropWhile_suffix (· ≠ closeByte) (l := bracketSet rest)).length_le
    rw [hdrop, length_cons] at hlength
    exact (Nat.le_of_succ_le hlength).trans hset
  · exact le_rfl

theorem length_firstItem (c : UInt8) (rest : List UInt8) :
    (firstItem c rest).2.length ≤ rest.length := by
  unfold firstItem
  split_ifs
  exacts [le_rfl, le_rfl, length_bracketItem rest, le_rfl]

/-- A pattern, read from left to right. -/
def globItems : List UInt8 → List GlobItem
  | [] => []
  | c :: rest => (firstItem c rest).1 :: globItems (firstItem c rest).2
termination_by pattern => pattern.length
decreasing_by exact Nat.lt_succ_of_le (length_firstItem c rest)

/-- The items denote the text. -/
def Denotes : List GlobItem → List UInt8 → Prop
  | [], text => text = []
  | .star :: items, text => ∃ rest, rest <:+ text ∧ Denotes items rest
  | item :: items, text => ∃ ch rest,
    text = ch :: rest ∧ item.accepts ch = true ∧ Denotes items rest

variable {item : GlobItem} {items singles : List GlobItem} {s : GlobState} {c ch : UInt8}
  {pattern rest text text' : List UInt8}

theorem denotes_cons_iff (h : item ≠ .star) : Denotes (item :: items) text ↔
    ∃ ch rest, text = ch :: rest ∧ item.accepts ch = true ∧ Denotes items rest := by
  cases item <;> first | exact absurd rfl h | rfl

/-- Items other than stars take one byte each. -/
theorem denotes_drop (hsingles : ∀ item ∈ singles, item ≠ .star)
    (h : Denotes (singles ++ items) text) : Denotes items (text.drop singles.length) := by
  induction singles generalizing text with
  | nil => exact h
  | cons item singles ih =>
    obtain ⟨ch, rest, rfl, -, hrest⟩ := (denotes_cons_iff (hsingles item mem_cons_self)).1 h
    exact ih (fun item hitem => hsingles item (mem_cons_of_mem _ hitem)) hrest

theorem bracketItem_ne_star : (bracketItem rest).1 ≠ .star := by
  unfold bracketItem
  split <;> simp

theorem firstItem_eq_star_iff : (firstItem c rest).1 = .star ↔ c = starByte := by
  unfold firstItem
  split_ifs <;> simp_all [bracketItem_ne_star]

theorem denotes_nil_iff : Denotes (globItems pattern) [] ↔ pattern.all (· = starByte) = true := by
  induction pattern with
  | nil => simp [globItems, Denotes]
  | cons c rest ih =>
    rw [globItems]
    by_cases hstar : c = starByte
    · simp [firstItem, hstar, Denotes, ih]
    · rw [denotes_cons_iff (mt firstItem_eq_star_iff.1 hstar)]
      simp [hstar]

/-! ### Brackets -/

theorem le_and_le_iff (c ch : UInt8) : (decide (c ≤ ch) && decide (ch ≤ c)) = (c == ch) := by
  rw [Bool.eq_iff_iff]
  simpa using ⟨fun h => UInt8.le_antisymm h.1 h.2, fun h => h ▸ ⟨UInt8.le_refl c, UInt8.le_refl c⟩⟩

theorem scanSet_eq (ch : UInt8) (found : Bool) (set : List UInt8) :
    scanSet ch found set =
      (found || (globRanges (set.takeWhile (· ≠ closeByte))).any
        fun range => range.1 ≤ ch && ch ≤ range.2, set.dropWhile (· ≠ closeByte)) := by
  fun_induction scanSet ch found set with
  | case1 found => simp [globRanges]
  | case2 found d e rest => simp [globRanges]
  | case3 found c d e rest hc hrange ih =>
    obtain ⟨rfl, he⟩ := hrange
    have hd : rangeByte ≠ closeByte := by decide
    rw [ih]
    simp [globRanges, hc, hd, he, Bool.or_assoc]
  | case4 found c d e rest hc hrange ih =>
    by_cases hd : d = closeByte <;> by_cases he : e = closeByte <;>
      simp_all [globRanges, le_and_le_iff, Bool.or_assoc]
  | case5 found rest => simp [globRanges]
  | case6 found c rest hne hc ih =>
    rw [ih]
    rcases rest with _ | ⟨d, _ | ⟨e, rest⟩⟩
    · simp [globRanges, hc, le_and_le_iff]
    · by_cases hd : d = closeByte <;> simp [globRanges, hc, hd, le_and_le_iff, Bool.or_assoc]
    · exact (hne d e rest rfl).elim

theorem matchBracket_eq (rest : List UInt8) (ch : UInt8) :
    matchBracket rest ch = ((bracketItem rest).1.accepts ch, (bracketItem rest).2) := by
  unfold matchBracket bracketItem
  rw [scanSet_eq]
  cases (bracketSet rest).dropWhile (· ≠ closeByte) with
  | nil => rfl
  | cons _ after => simp [GlobItem.accepts]

/-! ### Backtracking -/

namespace GlobState

theorem step_cons (hpattern : s.pattern = c :: rest) (hstar : c ≠ starByte) :
    s.step ch = if (firstItem c rest).1.accepts ch then some (s.accept (firstItem c rest).2)
      else s.backtrack := by
  unfold step firstItem
  split_ifs <;> simp_all [GlobItem.accepts, matchBracket_eq]

/-- The text that is left matches, or the last star can take more of the text than it did. -/
def Accepts (s : GlobState) : Prop :=
  Denotes (globItems s.pattern) s.text ∨
    ∃ star ∈ s.star, ∃ rest, rest <:+ star.2.tail ∧ Denotes (globItems star.1) rest

/-- Since the last star, only items other than stars were matched. -/
def Reached (s : GlobState) : Prop :=
  ∀ star ∈ s.star, ∃ singles : List GlobItem, (∀ item ∈ singles, item ≠ .star) ∧
    globItems star.1 = singles ++ globItems s.pattern ∧ s.text = star.2.drop singles.length

/-- The loop goes on from where the last turn left it. -/
def Continues (s : GlobState) (turn : Option GlobState) : Prop :=
  (∀ next ∈ turn, next.Reached) ∧ ((∃ next ∈ turn, next.Accepts) ↔ s.Accepts)

theorem drop_suffix_drop (h : text' <:+ text) (n : ℕ) : text'.drop n <:+ text.drop n := by
  obtain ⟨before, rfl⟩ := h
  rw [drop_append]
  exact (drop_suffix_drop_left text' (Nat.sub_le n before.length)).trans
    (suffix_append _ _)

/-- A match in which the last star takes more ends with a match of what is left of the pattern,
further on in the text. -/
theorem Reached.exists_suffix (h : s.Reached) (haccepts : s.Accepts) :
    ∃ rest, rest <:+ s.text ∧ Denotes (globItems s.pattern) rest := by
  rcases haccepts with hdenotes | ⟨star, hstar, rest, hrest, hdenotes⟩
  · exact ⟨s.text, suffix_rfl, hdenotes⟩
  · obtain ⟨singles, hsingles, hitems, htext⟩ := h star hstar
    rw [hitems] at hdenotes
    refine ⟨_, ?_, denotes_drop hsingles hdenotes⟩
    rw [htext]
    exact drop_suffix_drop (hrest.trans (tail_suffix _)) singles.length

theorem accepts_nil_iff (h : s.Reached) (htext : s.text = []) :
    s.Accepts ↔ s.pattern.all (· = starByte) = true := by
  rw [← denotes_nil_iff]
  constructor
  · intro haccepts
    obtain ⟨rest, hrest, hdenotes⟩ := h.exists_suffix haccepts
    rw [htext, suffix_nil] at hrest
    rwa [hrest] at hdenotes
  · exact fun hdenotes => .inl (htext ▸ hdenotes)

theorem reached_afterStar (pattern text : List UInt8) : (afterStar pattern text).Reached := by
  rintro _ ⟨⟩
  exact ⟨[], by simp, rfl, rfl⟩

theorem accepts_afterStar_iff : (afterStar pattern text).Accepts ↔
    ∃ rest, rest <:+ text ∧ Denotes (globItems pattern) rest := by
  constructor
  · rintro (hdenotes | ⟨_, ⟨⟩, rest, hrest, hdenotes⟩)
    · exact ⟨text, suffix_rfl, hdenotes⟩
    · exact ⟨rest, hrest.trans (tail_suffix text), hdenotes⟩
  · rintro ⟨rest, hrest, hdenotes⟩
    rcases text with _ | ⟨ch, text⟩
    · exact .inl (suffix_nil.1 hrest ▸ hdenotes)
    · rcases suffix_cons_iff.1 hrest with rfl | hrest
      · exact .inl hdenotes
      · exact .inr ⟨_, rfl, rest, hrest, hdenotes⟩

/-- Going back is right when what is left does not match. -/
theorem continues_backtrack (h : ¬Denotes (globItems s.pattern) s.text) :
    s.Continues s.backtrack := by
  refine ⟨?_, ?_⟩
  · intro next hnext
    obtain ⟨star, -, rfl⟩ := map_eq_some_iff.1 hnext
    exact reached_afterStar _ _
  · refine Iff.trans ?_ (or_iff_right h).symm
    simp [backtrack, accepts_afterStar_iff]

theorem continues_accept (h : s.Reached) (htext : s.text = ch :: text)
    (hpattern : s.pattern = c :: rest) (hne : (firstItem c rest).1 ≠ .star)
    (haccepts : (firstItem c rest).1.accepts ch = true) :
    s.Continues (some (s.accept (firstItem c rest).2)) := by
  have hitems : globItems s.pattern = (firstItem c rest).1 :: globItems (firstItem c rest).2 := by
    rw [hpattern, globItems]
  constructor
  · rintro _ ⟨⟩ star hstar
    obtain ⟨singles, hsingles, hsplit, hdrop⟩ := h star hstar
    refine ⟨singles ++ [(firstItem c rest).1], ?_, ?_, ?_⟩
    · simpa [or_imp, forall_and] using ⟨hsingles, hne⟩
    · rw [hsplit, hitems, append_assoc]
      rfl
    · show s.text.tail = _
      rw [hdrop, tail_drop, length_append, length_singleton]
  · have hdenotes : Denotes (globItems (firstItem c rest).2) s.text.tail ↔
        Denotes (globItems s.pattern) s.text := by
      rw [hitems, denotes_cons_iff hne, htext]
      simp [haccepts]
    simp only [mem_some_iff, exists_eq_left']
    exact or_congr_left hdenotes

/-- **What a turn of the loop keeps.** At a star the star before is forgotten: what it could still
take, the new one can take. -/
theorem continues_step (h : s.Reached) (htext : s.text = ch :: text) : s.Continues (s.step ch) := by
  cases hpattern : s.pattern with
  | nil =>
    have hstep : s.step ch = s.backtrack := by rw [step, hpattern]
    rw [hstep]
    exact continues_backtrack (by simp [hpattern, globItems, Denotes, htext])
  | cons c rest =>
    by_cases hstar : c = starByte
    · have hstep : s.step ch = some (afterStar rest s.text) := by
        rw [step, hpattern]
        exact if_pos hstar
      have hitems : globItems s.pattern = .star :: globItems rest := by
        rw [hpattern, globItems, show firstItem c rest = (.star, rest) from if_pos hstar]
      rw [hstep]
      constructor
      · rintro _ ⟨⟩
        exact reached_afterStar _ _
      · simp only [mem_some_iff, exists_eq_left', accepts_afterStar_iff]
        constructor
        · refine fun hlater => .inl ?_
          rw [hitems]
          exact hlater
        · intro haccepts
          obtain ⟨text', htext', hdenotes⟩ := h.exists_suffix haccepts
          rw [hitems] at hdenotes
          obtain ⟨text'', htext'', hdenotes⟩ := hdenotes
          exact ⟨text'', htext''.trans htext', hdenotes⟩
    · have hne : (firstItem c rest).1 ≠ .star := mt firstItem_eq_star_iff.1 hstar
      rw [step_cons hpattern hstar]
      split_ifs with haccepts
      · exact continues_accept h htext hpattern hne haccepts
      · refine continues_backtrack fun hdenotes => haccepts ?_
        rw [hpattern, globItems, denotes_cons_iff hne, htext] at hdenotes
        obtain ⟨_, _, ⟨⟩, hmatch, -⟩ := hdenotes
        exact hmatch

theorem run_eq (htext : s.text = ch :: text) : s.run = (s.step ch).any run := by
  rw [run]
  split
  · rename_i hnil
    simp [htext] at hnil
  · rename_i hcons
    obtain ⟨rfl, rfl⟩ := cons.inj (hcons.symm.trans htext)
    split <;> simp [*]

theorem run_iff (h : s.Reached) : s.run = true ↔ s.Accepts := by
  induction s using run.induct with
  | case1 s htext =>
    rw [run]
    split
    · exact (accepts_nil_iff h htext).symm
    · simp_all
  | case2 s ch text htext hstep =>
    rw [run_eq htext, ← (continues_step h htext).2, hstep]
    simp
  | case3 s ch text htext next hstep ih =>
    obtain ⟨hreached, haccepts⟩ := continues_step h htext
    rw [run_eq htext, ← haccepts, hstep]
    simpa using ih (hreached next hstep)

end GlobState

/-- **The matcher decides the language of its pattern.** -/
theorem globMatch_iff (pattern text : List UInt8) :
    globMatch pattern text = true ↔ Denotes (globItems pattern) text := by
  unfold globMatch
  rw [GlobState.run_iff (by simp [GlobState.Reached])]
  simp [GlobState.Accepts]

end Ocx
