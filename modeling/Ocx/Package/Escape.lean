import Ocx.Package.Template

/-!
# Escaping templates

A text is escaped by doubling the dollar of every opener, and scanning the result gives the text
back. A scanned template is written back by escaping its literals and keeping its tokens as they
were written.  What a scan makes of a template is compared by its outline, since a literal may come
in several pieces.

A literal that ends in a dollar is never followed by a token: the dollar and the opener of the token
would have been an escape.
-/

namespace Ocx

open List

variable {c : Char} {body input rest text : List Char} {segments : List Segment}

def opener : List Char := ['$', '{']

def escapedOpener : List Char := ['$', '$', '{']

def escapeText (input : List Char) : List Char := replaceAll opener escapedOpener input

/-- Rewrite a text so that a scan reproduces it. -/
def escape (input : String) : String := String.ofList (escapeText input.toList)

/-- A piece of a template as it is written. -/
def Segment.write : Segment → List Char
  | .literal text => escapeText text.toList
  | .token parsed => parsed.source.toList

def writeBack (segments : List Segment) : String := String.ofList (segments.flatMap Segment.write)

/-- The literal text up to the first token, and each token with the literal text behind it. -/
def outline : List Segment → String × List (Token × String)
  | [] => ("", [])
  | .literal text :: rest => (text ++ (outline rest).1, (outline rest).2)
  | .token token :: rest => ("", (token, (outline rest).1) :: (outline rest).2)

/-! ### Scanning with outlines -/

def prepend (text : List Char) (o : String × List (Token × String)) :
    String × List (Token × String) :=
  (String.ofList text ++ o.1, o.2)

/-- The outline of a template. -/
def scanOutline (input : List Char) : Except TemplateError (String × List (Token × String)) :=
  (scanFrom (.literal []) input).map outline

@[simp] theorem prepend_nil (o : String × List (Token × String)) : prepend [] o = o := by
  simp [prepend]

@[simp] theorem prepend_prepend (a b : List Char) (o : String × List (Token × String)) :
    prepend a (prepend b o) = prepend (a ++ b) o := by
  simp [prepend, String.append_assoc]

theorem map_prepend_prepend (x : Except TemplateError (String × List (Token × String)))
    (a b : List Char) : (x.map (prepend b)).map (prepend a) = x.map (prepend (a ++ b)) := by
  cases x <;> simp [Except.map]

theorem outline_pushLiteral :
    outline (pushLiteral text segments) = prepend text (outline segments) := by
  unfold pushLiteral
  split_ifs with h
  · simp [h]
  · rfl

theorem scanFrom_append {mode : ScanMode} (hmode : mode = .literal text) (before : List Char) :
    (scanFrom (.literal (before ++ text)) input).map outline =
      ((scanFrom mode input).map outline).map (prepend before) := by
  fun_induction scanFrom mode input generalizing text with
  | case1 text' =>
    cases hmode
    simp [scanFrom, Except.map, outline_pushLiteral]
  | case2 text' rest ih =>
    cases hmode
    rw [scanFrom]
    cases scanFrom (.literal []) rest <;>
      simp [Except.map, bind, Except.bind, outline_pushLiteral]
  | case3 text' rest hclosed ih =>
    cases hmode
    rw [scanFrom, if_pos hclosed]
    cases scanFrom (.body []) rest <;>
      simp [Except.map, bind, Except.bind, outline_pushLiteral]
  | case4 text' rest hclosed ih =>
    cases hmode
    rw [scanFrom, if_neg hclosed, append_assoc]
    exact ih rfl
  | case5 text' c rest hescape hopen ih =>
    cases hmode
    rw [scanFrom, append_assoc]
    · exact ih rfl
    · exact hescape
    · exact hopen
  | case6 | case7 | case8 => cases hmode

theorem scanFrom_literal (text input : List Char) :
    (scanFrom (.literal text) input).map outline = (scanOutline input).map (prepend text) := by
  have h : (scanFrom (.literal (text ++ [])) input).map outline = _ := scanFrom_append rfl text
  rwa [append_nil] at h

theorem scanOutline_escapedOpener (rest : List Char) :
    scanOutline (escapedOpener ++ rest) = (scanOutline rest).map (prepend opener) := by
  show (scanFrom (.literal []) ('$' :: '$' :: '{' :: rest)).map outline = _
  rw [scanFrom, scanOutline]
  cases scanFrom (.literal []) rest <;>
    simp [Except.map, bind, Except.bind, outline_pushLiteral, opener]

theorem scanOutline_cons (h : c = '$' → ¬['{'] <+: rest ∧ ¬opener <+: rest) :
    scanOutline (c :: rest) = (scanOutline rest).map (prepend [c]) := by
  rw [scanOutline, scanFrom]
  · exact scanFrom_literal [c] rest
  · rintro rest' rfl rfl
    exact (h rfl).2 ⟨rest', rfl⟩
  · rintro rest' rfl rfl
    exact (h rfl).1 ⟨rest', rfl⟩

theorem scanFrom_body (hbody : '}' ∉ body) (text : List Char) :
    scanFrom (.body text) (body ++ '}' :: rest) =
      scanFrom (.body (text ++ body)) ('}' :: rest) := by
  induction body generalizing text with
  | nil => simp
  | cons c body ih =>
    rw [mem_cons, not_or] at hbody
    calc scanFrom (.body text) (c :: (body ++ '}' :: rest))
        = scanFrom (.body (text ++ [c])) (body ++ '}' :: rest) := by
          rw [scanFrom]
          exact fun hc => hbody.1 hc.symm
      _ = scanFrom (.body (text ++ [c] ++ body)) ('}' :: rest) := ih hbody.2 _
      _ = scanFrom (.body (text ++ c :: body)) ('}' :: rest) := by rw [append_assoc]; rfl

theorem scanOutline_token (hbody : '}' ∉ body) :
    scanOutline (opener ++ (body ++ '}' :: rest)) =
      (parseToken (tokenSource body) body).bind fun token =>
        (scanOutline rest).map fun o => ("", (token, o.1) :: o.2) := by
  show (scanFrom (.literal []) ('$' :: '{' :: (body ++ '}' :: rest))).map outline = _
  rw [scanFrom, if_pos (by simp), scanFrom_body hbody, nil_append, scanFrom, scanOutline]
  cases parseToken (tokenSource body) body with
  | error fault => rfl
  | ok token => cases scanFrom (.literal []) rest <;> rfl

/-! ### Escaped text -/

@[simp] theorem escapeText_nil : escapeText [] = [] := rfl

theorem escapeText_opener (text : List Char) :
    escapeText (opener ++ text) = escapedOpener ++ escapeText text :=
  replaceAll_append (by decide)

theorem escapeText_cons (h : ¬opener <+: c :: text) :
    escapeText (c :: text) = c :: escapeText text :=
  replaceAll_cons_of_not_occurs h

theorem head?_escapeText (text : List Char) : (escapeText text).head? = text.head? := by
  by_cases h : opener <+: text
  · obtain ⟨rest, rfl⟩ := h
    rfl
  · cases text with
    | nil => rfl
    | cons c text => rw [escapeText_cons h, head?_cons, head?_cons]

theorem singleton_prefix_iff {l : List Char} : [c] <+: l ↔ l.head? = some c := by
  cases l <;> simp [eq_comm]

/-- An opener of an escaped text lies behind it. -/
theorem not_opener_isPrefix (htext : text ≠ []) (hrest : rest.head? ≠ some '{') :
    ¬opener <+: escapeText text ++ rest := by
  intro h
  by_cases hopener : opener <+: text
  · obtain ⟨text, rfl⟩ := hopener
    rw [escapeText_opener] at h
    simp [opener, escapedOpener] at h
  · obtain ⟨c, text, rfl⟩ := exists_cons_of_ne_nil htext
    rw [escapeText_cons hopener, cons_append, opener, cons_prefix_cons,
      singleton_prefix_iff, head?_append, head?_escapeText] at h
    obtain ⟨rfl, h⟩ := h
    cases text with
    | nil => exact hrest (by simpa using h)
    | cons d text =>
      obtain rfl : d = '{' := by simpa using h
      exact hopener (prefix_append opener text)

/-- What may follow an escaped text: nothing, an escape, or a token when the text does not end in a
dollar. -/
def Follows (text rest : List Char) : Prop :=
  rest = [] ∨ escapedOpener <+: rest ∨ (opener <+: rest ∧ text.getLast? ≠ some '$')

theorem Follows.head?_ne (h : Follows text rest) : rest.head? ≠ some '{' := by
  rcases h with rfl | ⟨_, rfl⟩ | ⟨⟨_, rfl⟩, -⟩ <;> simp [escapedOpener, opener]

theorem Follows.of_append {before : List Char} (h : Follows (before ++ text) rest) :
    Follows text rest := by
  refine h.imp_right (Or.imp_right (And.imp_right fun hlast heq => hlast ?_))
  rw [getLast?_append, heq, Option.some_or]

/-- **An escaped text is scanned as itself.** -/
theorem scanOutline_escapeText_append (h : Follows text rest) :
    scanOutline (escapeText text ++ rest) = (scanOutline rest).map (prepend text) := by
  induction hn : text.length using Nat.strong_induction_on generalizing text with
  | _ n ih =>
    by_cases hopener : opener <+: text
    · obtain ⟨text, rfl⟩ := hopener
      rw [escapeText_opener, append_assoc, scanOutline_escapedOpener,
        ih text.length (by simp [← hn, opener]) h.of_append rfl, map_prepend_prepend]
    · cases text with
      | nil => cases hscan : scanOutline rest <;> simp [hscan, Except.map]
      | cons c text =>
        have hnext : Follows text rest := Follows.of_append (show Follows ([c] ++ text) rest from h)
        rw [escapeText_cons hopener, cons_append, scanOutline_cons,
          ih text.length (by simp [← hn]) hnext rfl, map_prepend_prepend]
        · rfl
        · rintro rfl
          constructor
          · intro hbrace
            rw [singleton_prefix_iff, head?_append, head?_escapeText] at hbrace
            cases text with
            | nil => exact h.head?_ne (by simpa using hbrace)
            | cons d text =>
              obtain rfl : d = '{' := by simpa using hbrace
              exact hopener (prefix_append opener text)
          · cases text with
            | nil =>
              rcases h with rfl | ⟨_, rfl⟩ | ⟨-, hlast⟩
              · simp [opener]
              · simp [opener, escapedOpener]
              · exact absurd rfl hlast
            | cons d text => exact not_opener_isPrefix (by simp) h.head?_ne

/-! ### Writing back -/

theorem flatMap_write_pushLiteral :
    (pushLiteral text segments).flatMap Segment.write =
      escapeText text ++ segments.flatMap Segment.write := by
  unfold pushLiteral
  split_ifs with h
  · rw [h, escapeText_nil, nil_append]
  · simp [Segment.write]

theorem source_of_parseToken {source : String} {token : Token}
    (h : parseToken source body = .ok token) : token.source = source := by
  unfold parseToken at h
  split at h
  · obtain ⟨shape, -, h⟩ := bind_eq_ok_iff.1 h
    rw [← Except.ok.inj h]
  · obtain ⟨shape, -, h⟩ := bind_eq_ok_iff.1 h
    split_ifs at h
    obtain ⟨modifier, -, h⟩ := bind_eq_ok_iff.1 h
    rw [← Except.ok.inj h]

/-- A place in a template: a literal that ends in a dollar is not before an opener, and the body of
a token has no closer and comes to one. -/
def ScanMode.At (input : List Char) : ScanMode → Prop
  | .literal text => text.getLast? = some '$' → ¬opener <+: input
  | .body text => '}' ∉ text ∧ '}' ∈ input

theorem ScanMode.at_start (input : List Char) : At input (.literal []) := by simp [At]

def ScanMode.InBody : ScanMode → Prop
  | .literal _ => False
  | .body _ => True

/-- **The outline of what is written back**, from any place of a template; a token is written with
its opener. -/
theorem scanOutline_write {mode : ScanMode} (hat : mode.At input)
    (h : scanFrom mode input = .ok segments) :
    scanOutline (segments.flatMap Segment.write) = .ok (outline segments) ∧
      (mode.InBody → opener <+: segments.flatMap Segment.write) := by
  fun_induction scanFrom mode input generalizing segments with
  | case1 text =>
    rw [← Except.ok.inj h, flatMap_write_pushLiteral, flatMap_nil,
      scanOutline_escapeText_append (.inl rfl), outline_pushLiteral]
    exact ⟨rfl, False.elim⟩
  | case2 text rest ih =>
    obtain ⟨later, hlater, h⟩ := bind_eq_ok_iff.1 h
    rw [← Except.ok.inj h, flatMap_write_pushLiteral, flatMap_write_pushLiteral]
    have hescape : escapeText ['$', '{'] = escapedOpener := by decide
    rw [hescape, scanOutline_escapeText_append (.inr (.inl (prefix_append _ _))),
      scanOutline_escapedOpener, (ih (ScanMode.at_start _) hlater).1, outline_pushLiteral,
      outline_pushLiteral]
    exact ⟨rfl, False.elim⟩
  | case3 text rest hclosed ih =>
    obtain ⟨later, hlater, h⟩ := bind_eq_ok_iff.1 h
    obtain ⟨hscan, hopener⟩ := ih ⟨by simp, hclosed⟩ hlater
    have hfollows : Follows text (later.flatMap Segment.write) :=
      .inr (.inr ⟨hopener trivial, fun hlast => hat hlast (prefix_append opener rest)⟩)
    rw [← Except.ok.inj h, flatMap_write_pushLiteral, scanOutline_escapeText_append hfollows, hscan,
      outline_pushLiteral]
    exact ⟨rfl, False.elim⟩
  | case4 text rest hclosed ih =>
    exact ⟨(ih (fun _ => by simp [opener]) h).1, False.elim⟩
  | case5 text c rest hescape hopen ih =>
    refine ⟨(ih ?_ h).1, False.elim⟩
    rintro hlast ⟨rest', rfl⟩
    obtain rfl : c = '$' := by simpa using hlast
    exact hescape rest' rfl rfl
  | case6 => exact absurd hat.2 (by simp)
  | case7 text rest ih =>
    obtain ⟨token, hparse, h⟩ := bind_eq_ok_iff.1 h
    obtain ⟨later, hlater, h⟩ := bind_eq_ok_iff.1 h
    rw [← Except.ok.inj h]
    have hwrite : (Segment.token token :: later).flatMap Segment.write =
        opener ++ (text ++ '}' :: later.flatMap Segment.write) := by
      simp [Segment.write, source_of_parseToken hparse, tokenSource, opener]
    rw [hwrite, scanOutline_token hat.1, hparse]
    rw [(ih (ScanMode.at_start _) hlater).1]
    exact ⟨rfl, fun _ => prefix_append _ _⟩
  | case8 text c rest hc ih =>
    obtain ⟨htext, hinput⟩ := hat
    have hne : '}' ≠ c := fun heq => hc heq.symm
    obtain ⟨hscan, hopener⟩ := ih ⟨by simp [htext, hne], by simpa [hne] using hinput⟩ h
    exact ⟨hscan, hopener⟩

theorem exists_literals_of_outline {text : String} (h : outline segments = (text, [])) :
    ∃ texts : List String, segments = texts.map Segment.literal ∧
      texts.foldr (· ++ ·) "" = text := by
  induction segments generalizing text with
  | nil => exact ⟨[], rfl, congrArg Prod.fst h⟩
  | cons segment segments ih =>
    cases segment with
    | token token => simp [outline] at h
    | literal first =>
      rw [outline, Prod.mk.injEq] at h
      obtain ⟨texts, rfl, hjoin⟩ := ih (Prod.ext rfl h.2)
      exact ⟨first :: texts, rfl, by rw [foldr_cons, hjoin, h.1]⟩

/-- **Escaping inverts scanning.** An escaped text is scanned into literals whose concatenation is
the text.  A template that is scanned, written back and scanned again has the same outline: the same
tokens, with the same literal text between them. -/
theorem scan_escape (s : String) :
    (∃ texts : List String, scan (escape s) = .ok (texts.map Segment.literal) ∧
      texts.foldr (· ++ ·) "" = s) ∧
    ((scan s).bind fun segments => scan (writeBack segments)).map outline =
      (scan s).map outline := by
  constructor
  · have hscan : scanOutline (escapeText s.toList ++ []) = .ok (s, []) := by
      rw [scanOutline_escapeText_append (.inl rfl)]
      simp [scanOutline, scanFrom, pushLiteral, outline, Except.map, prepend]
    rw [append_nil, scanOutline] at hscan
    rw [scan, escape, String.toList_ofList]
    cases hsegments : scanFrom (.literal []) (escapeText s.toList) with
    | error fault => rw [hsegments] at hscan; cases hscan
    | ok segments =>
      rw [hsegments] at hscan
      obtain ⟨texts, rfl, hjoin⟩ := exists_literals_of_outline (Except.ok.inj hscan)
      exact ⟨texts, rfl, hjoin⟩
  · cases hscan : scan s with
    | error fault => rfl
    | ok segments =>
      show (scan (writeBack segments)).map outline = .ok (outline segments)
      rw [scan, writeBack, String.toList_ofList]
      exact (scanOutline_write (ScanMode.at_start _) hscan).1

end Ocx
