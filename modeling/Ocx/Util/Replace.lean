import Ocx.Util.Text

/-!
# Replacing occurrences of a text

Replacing every occurrence of a pattern from the left, without overlaps, and doing so again until
none is left. Any way of replacing occurrences one after the other is a path of the relation
`Replaces`, so what such paths keep holds of all of them.
-/

namespace Ocx

open List

variable {c : Char} {a b v : List Char} {elements : List (List Char)}

def hasOccurrence (pattern s : List Char) : Bool := s.tails.any pattern.isPrefixOf

/-- One pass from the left after `skip` characters that belong to the last occurrence. -/
def replaceFrom (pattern new : List Char) : ℕ → List Char → List Char
  | _, [] => []
  | skip + 1, _ :: s => replaceFrom pattern new skip s
  | 0, c :: s =>
    if pattern.isPrefixOf (c :: s) then new ++ replaceFrom pattern new (pattern.length - 1) s
    else c :: replaceFrom pattern new 0 s

/-- Replace every occurrence from the left, without overlaps. -/
def replaceAll (pattern new s : List Char) : List Char := replaceFrom pattern new 0 s

/-- Passes until no occurrence is left, at most `fuel` of them. -/
def replaceUntil (pattern new : List Char) : ℕ → List Char → List Char
  | 0, s => s
  | fuel + 1, s =>
    if hasOccurrence pattern s then replaceUntil pattern new fuel (replaceAll pattern new s) else s

variable {pattern new s : List Char}

theorem hasOccurrence_iff : hasOccurrence pattern s = true ↔ pattern <:+: s := by
  unfold hasOccurrence
  simp only [any_eq_true, mem_tails, isPrefixOf_iff_prefix]
  rw [infix_iff_prefix_suffix]
  exact ⟨fun ⟨t, h, h'⟩ => ⟨t, h', h⟩, fun ⟨t, h, h'⟩ => ⟨t, h', h⟩⟩

theorem replaceAll_cons_of_not_occurs (h : ¬pattern <+: c :: s) :
    replaceAll pattern new (c :: s) = c :: replaceAll pattern new s := by
  unfold replaceAll
  rw [replaceFrom, if_neg (by simpa using h)]

theorem replaceFrom_eq_drop (skip : ℕ) :
    replaceFrom pattern new skip s = replaceAll pattern new (s.drop skip) := by
  induction s generalizing skip with
  | nil => cases skip <;> simp [replaceAll, replaceFrom]
  | cons c s ih =>
    cases skip with
    | zero => rfl
    | succ skip => rw [replaceFrom, ih, drop_succ_cons]

/-- An occurrence at the front is replaced. -/
theorem replaceAll_append (hne : pattern ≠ []) :
    replaceAll pattern new (pattern ++ s) = new ++ replaceAll pattern new s := by
  obtain ⟨c, rest, rfl⟩ := exists_cons_of_ne_nil hne
  unfold replaceAll
  rw [cons_append, replaceFrom, if_pos]
  · rw [replaceFrom_eq_drop, length_cons, Nat.add_sub_cancel, drop_left, replaceAll]
  · simp

def Replaces (pattern new a b : List Char) : Prop :=
  ∃ l r, a = l ++ pattern ++ r ∧ b = l ++ new ++ r

/-- Occurrences are replaced, one after the other. -/
abbrev ReplacesTo (pattern new : List Char) : List Char → List Char → Prop :=
  Relation.ReflTransGen (Replaces pattern new)

theorem ReplacesTo.append_left (l : List Char) (h : ReplacesTo pattern new a b) :
    ReplacesTo pattern new (l ++ a) (l ++ b) := by
  refine h.lift (l ++ ·) ?_
  rintro a b ⟨l', r, rfl, rfl⟩
  exact ⟨l ++ l', r, by simp, by simp⟩

theorem Replaces.length_lt (hlt : new.length < pattern.length)
    (h : Replaces pattern new a b) : b.length < a.length := by
  obtain ⟨l, r, rfl, rfl⟩ := h
  simp only [length_append]
  omega

theorem ReplacesTo.length_le (hlt : new.length < pattern.length)
    (h : ReplacesTo pattern new a b) : b.length ≤ a.length := by
  induction h with
  | refl => rfl
  | tail _ hstep ih => exact (hstep.length_lt hlt).le.trans ih

theorem ReplacesTo.eq_of_irreducible (ha : ¬pattern <:+: a)
    (h : ReplacesTo pattern new a b) : b = a := by
  rcases Relation.ReflTransGen.cases_head h with rfl | ⟨c, ⟨l, r, rfl, -⟩, -⟩
  · rfl
  · exact absurd ⟨l, r, rfl⟩ ha

/-- A pass replaces occurrences, and at least one if there is one. -/
theorem replaceAll_spec (hlt : new.length < pattern.length) (s : List Char) :
    ReplacesTo pattern new s (replaceAll pattern new s) ∧
      (pattern <:+: s → (replaceAll pattern new s).length < s.length) := by
  have hne : pattern ≠ [] := by rintro rfl; exact Nat.not_lt_zero _ hlt
  induction h : s.length using Nat.strong_induction_on generalizing s with
  | _ n ih =>
    subst h
    by_cases hfront : pattern <+: s
    · obtain ⟨rest, rfl⟩ := hfront
      rw [replaceAll_append hne]
      obtain ⟨hrest, -⟩ := ih rest.length
        (by rw [length_append]; have := length_pos_iff.2 hne; omega) rest rfl
      have hhead : Replaces pattern new (pattern ++ rest) (new ++ rest) :=
        ⟨[], rest, by simp, by simp⟩
      have hlong := hrest.length_le hlt
      refine ⟨.head hhead (hrest.append_left new), fun _ => ?_⟩
      simp only [length_append]
      omega
    · cases s with
      | nil => exact ⟨.refl, fun hin => absurd (infix_nil.1 hin) hne⟩
      | cons c s =>
        rw [replaceAll_cons_of_not_occurs hfront]
        obtain ⟨hrest, hshort⟩ := ih s.length (by simp) s rfl
        refine ⟨hrest.append_left [c], fun hin => ?_⟩
        rw [infix_cons_iff] at hin
        have hlong := hshort (hin.resolve_left hfront)
        simp only [length_cons]
        omega

/-- Passes end with a text without occurrences. -/
theorem replaceUntil_spec (hlt : new.length < pattern.length) {fuel : ℕ}
    (hfuel : s.length ≤ fuel) :
    ReplacesTo pattern new s (replaceUntil pattern new fuel s) ∧
      ¬pattern <:+: replaceUntil pattern new fuel s := by
  induction fuel generalizing s with
  | zero =>
    rw [Nat.le_zero, length_eq_zero_iff] at hfuel
    subst hfuel
    refine ⟨.refl, fun hin => ?_⟩
    rw [replaceUntil, infix_nil] at hin
    simp [hin] at hlt
  | succ fuel ih =>
    rw [replaceUntil]
    obtain ⟨hpass, hshort⟩ := replaceAll_spec hlt s
    by_cases hocc : hasOccurrence pattern s = true
    · rw [if_pos hocc]
      have hlong := hshort (hasOccurrence_iff.1 hocc)
      obtain ⟨hrest, hend⟩ := ih (s := replaceAll pattern new s) (by omega)
      exact ⟨hpass.trans hrest, hend⟩
    · rw [if_neg hocc]
      exact ⟨.refl, fun hin => hocc (hasOccurrence_iff.2 hin)⟩

/-! ### Elements between separators -/

theorem splitOn_inj (h : a.splitOn c = b.splitOn c) : a = b := by
  simpa only [intercalate_splitOn] using congrArg [c].intercalate h

theorem splitOn_wrap (c : Char) (s : List Char) :
    (c :: s ++ [c]).splitOn c = [] :: (s.splitOn c ++ [[]]) := by
  have hwrap : c :: s ++ [c] = [] ++ c :: (s ++ c :: []) := by simp
  rw [hwrap, splitOn_append_cons_self, splitOn_append_cons_self]
  simp

theorem splitOn_flanked (hv : c ∉ v) (l r : List Char) :
    (l ++ (c :: v ++ [c]) ++ r).splitOn c = l.splitOn c ++ v :: r.splitOn c := by
  have hsplit : l ++ (c :: v ++ [c]) ++ r = l ++ c :: (v ++ c :: r) := by simp
  rw [hsplit, splitOn_append_cons_self, splitOn_append_cons_self,
    splitOn_eq_singleton hv]
  rfl

/-- An element with elements on both sides is a flanked occurrence. -/
theorem infix_of_splitOn {s : List Char} {x y : List (List Char)} (hx : x ≠ [])
    (hy : y ≠ []) (h : s.splitOn c = x ++ v :: y) : c :: v ++ [c] <:+: s := by
  have hfree : ∀ piece ∈ x ++ v :: y, c ∉ piece := fun piece hpiece =>
    notMem_of_mem_splitOn (h ▸ hpiece)
  refine ⟨[c].intercalate x, [c].intercalate y, splitOn_inj (c := c) ?_⟩
  rw [splitOn_flanked (hfree v (by simp)), h,
    splitOn_intercalate c (fun l hl => hfree l (by simp [hl])) hx,
    splitOn_intercalate c (fun l hl => hfree l (by simp [hl])) hy]

/-- The replacements between separators keep the outer separators and the other elements. -/
theorem ReplacesTo.splitOn
    (hv : c ∉ v) (h : ReplacesTo (c :: v ++ [c]) [c] a b)
    (ha : a.splitOn c = [] :: (elements ++ [[]])) :
    ∃ rest, b.splitOn c = [] :: (rest ++ [[]]) ∧
      rest.filter (· ≠ v) = elements.filter (· ≠ v) := by
  induction h with
  | refl => exact ⟨elements, ha, rfl⟩
  | tail _ hstep ih =>
    obtain ⟨rest, hrest, hfilter⟩ := ih
    obtain ⟨l, r, rfl, rfl⟩ := hstep
    rw [splitOn_flanked hv] at hrest
    rw [append_assoc, singleton_append, splitOn_append_cons_self]
    -- the element is neither the first nor the last one
    obtain ⟨x, hx⟩ : ∃ x, l.splitOn c = [] :: x := by
      cases hl : l.splitOn c with
      | nil => exact absurd hl (splitOn_ne_nil c l)
      | cons first x => rw [hl] at hrest; exact ⟨x, by rw [(cons.inj hrest).1]⟩
    obtain ⟨y, hy⟩ : ∃ y, r.splitOn c = y ++ [[]] := by
      obtain ⟨y, last, hr⟩ := eq_nil_or_concat' (r.splitOn c) |>.resolve_left
        (splitOn_ne_nil c r)
      rw [hr, ← cons_append, ← append_assoc, ← cons_append] at hrest
      exact ⟨y, by rw [hr, (append_inj' hrest rfl).2]⟩
    rw [hx, hy, cons_append, cons.injEq, ← cons_append, ← append_assoc,
      append_left_inj] at hrest
    refine ⟨x ++ y, by rw [hx, hy]; simp, ?_⟩
    rw [← hfilter, ← hrest.2]
    simp

/-- **What is left between the separators** when no occurrence of the element is left: the other
elements, in order. -/
theorem splitOn_of_irreducible
    (hv : c ∉ v) (h : ReplacesTo (c :: v ++ [c]) [c] a b) (hb : ¬c :: v ++ [c] <:+: b)
    (ha : a.splitOn c = [] :: (elements ++ [[]])) :
    b.splitOn c = [] :: (elements.filter (· ≠ v) ++ [[]]) := by
  obtain ⟨rest, hrest, hfilter⟩ := h.splitOn hv ha
  have hmem : v ∉ rest := by
    intro hmem
    obtain ⟨x, y, rfl⟩ := append_of_mem hmem
    refine hb (infix_of_splitOn (x := [] :: x) (y := y ++ [[]]) (by simp) (by simp) ?_)
    rw [hrest]
    simp
  have hself : rest.filter (· ≠ v) = rest :=
    filter_eq_self.2 fun e he => by simpa using ne_of_mem_of_not_mem he hmem
  rw [hrest, ← hfilter, hself]

/-- What follows the first separator. -/
theorem stripFront_of_splitOn {s : List Char}
    (h : s.splitOn c = [] :: (elements ++ [[]])) :
    stripFront [c] s = some (if elements = [] then [] else [c].intercalate elements ++ [c]) := by
  rw [stripFront_eq_some, singleton_append]
  refine splitOn_inj (c := c) (h.trans ?_)
  split_ifs with hnone
  · rw [hnone]
    exact (splitOn_append_cons_self [] []).symm
  · have hfree : ∀ l ∈ elements, c ∉ l := fun l hl =>
      notMem_of_mem_splitOn (s := s) (by rw [h]; simp [hl])
    exact ((splitOn_wrap c _).trans (by rw [splitOn_intercalate c hfree hnone])).symm

end Ocx
