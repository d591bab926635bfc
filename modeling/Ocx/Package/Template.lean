import Ocx.Shell.Plan
import Ocx.Util.Outcome

/-!
# Interpolation templates

String fields of the metadata hold tokens: the install path of the package, the install path of a
dependency, or the value of a variable declared earlier.  A template is scanned once into literals
and tokens; resolving it replaces each token by its value and looks at no byte of a value again.
How a path is printed and whether it exists are properties of the machine.
-/

namespace Ocx

open List

/-! ### Tokens -/

/-- How the value of a token is printed. -/
inductive RenderModifier
  | native
  | posix
deriving DecidableEq, Repr

/-- The bodies a token may have. -/
inductive TokenShape
  /-- The content directory of the package. -/
  | installPath
  /-- The resolved value of a variable of the package that was declared earlier. -/
  | selfEnv (key : String)
  /-- The content directory of a declared dependency. -/
  | dep (name : String)
deriving DecidableEq, Repr

/-- A modifier is legal only where the value is known to be a path. -/
def TokenShape.takesModifier : TokenShape → Bool
  | installPath => true
  | dep _ => true
  | selfEnv _ => false

structure Token where
  /-- What it stands for. -/
  shape : TokenShape
  modifier : Option RenderModifier
  /-- The token as it was written. -/
  source : String
deriving DecidableEq, Repr

/-- A piece of a scanned template. -/
inductive Segment
  | literal (text : String)
  | token (token : Token)
deriving DecidableEq, Repr

/-- Publisher text as a refusal quotes it: what is shown of it, and whether it was cut. It is
printed with its control characters escaped. -/
structure Quoted where
  shown : String
  truncated : Bool
deriving DecidableEq

/-- Which guidance the refusal of a token carries. -/
inductive UnknownTokenHint
  /-- A likely typo of a recognised root. -/
  | suggestedRoot (root : String)
  /-- Likely the token of another tool. -/
  | escape
  | supportedBodies
deriving DecidableEq

/-- Why a template is refused. -/
inductive TemplateError
  | unknownToken (token : Quoted) (hint : UnknownTokenHint)
  | unknownField («namespace» field : String) (supported : List String)
  | unknownModifier (modifier : Quoted) (supported : List String)
  | modifierNotApplicable (modifier token : Quoted)
  | undefinedSelfEnvRef (key : String) (declaredBefore : List Quoted)
  | ambiguousSelfEnvRef (key : String)
  | disallowedToken (token : String)
  | resolvedValueTooLarge (limit : ℕ)
  | unknownDependencyRef (refName : String) (declared : List String)
  | ambiguousDependencyRef (refName : String) (first second : PinnedPackageRef)
  | dependencyNotInstalled (refName : String) (depIdentifier : PinnedPackageRef)
deriving DecidableEq

/-- The characters that fit into so many bytes. -/
def takeBytes : ℕ → List Char → List Char
  | _, [] => []
  | room, c :: text => if c.utf8Size ≤ room then c :: takeBytes (room - c.utf8Size) text else []

def maxEchoedBytes : ℕ := 120

/-- Quote publisher text in a refusal. -/
def forMessage (text : String) : Quoted :=
  let shown := takeBytes maxEchoedBytes text.toList
  ⟨String.ofList shown, shown ≠ text.toList⟩

/-- A character of the segments of a token. -/
def isBodyChar (c : Char) : Bool := c.isAlphanum || c = '_' || c = '-'

/-- A segment of the body of a token. -/
def isBodySegment (segment : List Char) : Bool := segment ≠ [] && segment.all isBodyChar

/-- How many edits lead from one text to the other; a swap of neighbours is one. -/
def osaDistance : List Char → List Char → ℕ
  | [], b => b.length
  | a, [] => a.length
  | x :: a, y :: b =>
    let edits := min (min (osaDistance a (y :: b)) (osaDistance (x :: a) b) + 1)
      (osaDistance a b + if x = y then 0 else 1)
    if b.head? = some x ∧ a.head? = some y then min edits (osaDistance a.tail b.tail + 1) else edits
termination_by a b => a.length + b.length

/-- The roots of the recognised bodies, in their order. -/
def recognisedRoots : List String := ["installPath", "self", "self", "deps"]

/-- The guidance for a body that is refused, by its root. -/
def unknownTokenHint (body : List Char) : UnknownTokenHint :=
  let root := body.takeWhile isBodyChar
  if String.ofList root ∈ recognisedRoots then .supportedBodies
  else
    let near := (recognisedRoots.map fun known => (osaDistance root known.toList, known)).filter
      fun candidate => candidate.1 ≤ max candidate.2.length 3 / 3
    (near.argmin Prod.fst).elim .escape fun candidate => .suggestedRoot candidate.2

/-- The refusal of a token; its body picks the guidance. -/
def unknownToken (source : String) (rejected : List Char) : TemplateError :=
  .unknownToken (forMessage source) (unknownTokenHint rejected)

/-- The render modifiers by name. -/
def modifiers : List (String × RenderModifier) := [("native", .native), ("posix", .posix)]

/-- Read a render modifier. -/
def parseModifier (suffix : String) : Except TemplateError RenderModifier :=
  match modifiers.lookup suffix with
  | some modifier => .ok modifier
  | none => .error (.unknownModifier (forMessage suffix) (modifiers.map Prod.fst))

/-- The body of a token, without its modifier. -/
def parseShape (source : String) (base : List Char) : Except TemplateError TokenShape :=
  let path := base.splitOn '.'
  if ¬path.all isBodySegment then .error (unknownToken source base)
  else match path.map String.ofList with
    | ["installPath"] => .ok .installPath
    | ["self", "installPath"] => .ok .installPath
    | ["self", "env", key] =>
      -- the grammar admits a leading digit and a dash, which no key that can be set has
      if isValidEnvKey key then .ok (.selfEnv key) else .error (unknownToken source base)
    | ["self", field] => .error (.unknownField "self" field ["installPath", "env.KEY"])
    | ["deps", name, field] =>
      if ¬isSlug name.toList then .error (unknownToken source base)
      else if field = "installPath" then .ok (.dep name)
      else .error (.unknownField ("deps." ++ name) field ["installPath"])
    | _ => .error (unknownToken source base)

/-- One token: the body up to the first colon, then the modifier. -/
def parseToken (source : String) (body : List Char) : Except TemplateError Token :=
  match splitOnce ':' body with
  | none => do
    let shape ← parseShape source body
    .ok ⟨shape, none, source⟩
  | some (base, suffix) => do
    let shape ← parseShape source base
    if ¬shape.takesModifier then
      .error (.modifierNotApplicable (forMessage (String.ofList suffix)) (forMessage source))
    else do
      let modifier ← parseModifier (String.ofList suffix)
      .ok ⟨shape, some modifier, source⟩

inductive ScanMode
  /-- In a literal, after this much of it. -/
  | literal (text : List Char)
  /-- In a token that is closed further on, after this much of its body. -/
  | body (text : List Char)

/-- Append a literal, unless it is empty. -/
def pushLiteral (text : List Char) (segments : List Segment) : List Segment :=
  if text = [] then segments else .literal (String.ofList text) :: segments

def tokenSource (body : List Char) : String := String.ofList ('$' :: '{' :: body ++ ['}'])

def scanFrom : ScanMode → List Char → Except TemplateError (List Segment)
  | .literal text, [] => .ok (pushLiteral text [])
  | .literal text, '$' :: '$' :: '{' :: rest => do
    let segments ← scanFrom (.literal []) rest
    .ok (pushLiteral text (pushLiteral ['$', '{'] segments))
  | .literal text, '$' :: '{' :: rest =>
    -- a token that is never closed stays literal
    if '}' ∈ rest then do
      let segments ← scanFrom (.body []) rest
      .ok (pushLiteral text segments)
    else scanFrom (.literal (text ++ ['$'])) ('{' :: rest)
  | .literal text, c :: rest => scanFrom (.literal (text ++ [c])) rest
  | .body _, [] => .ok []
  | .body text, '}' :: rest => do
    let token ← parseToken (tokenSource text) text
    let segments ← scanFrom (.literal []) rest
    .ok (.token token :: segments)
  | .body text, c :: rest => scanFrom (.body (text ++ [c])) rest

/-- Classify a template into literals and tokens. -/
def scan (input : String) : Except TemplateError (List Segment) :=
  scanFrom (.literal []) input.toList

example : scan "$\x7binstallPath\x7d/bin$$\x7bx" = .ok
    [.token ⟨.installPath, none, "$\x7binstallPath\x7d"⟩, .literal "/bin", .literal "$\x7b",
      .literal "x"] := by
  decide +kernel

variable {token : Token} {segments : List Segment}

/-- The token classes that a surface may carry. -/
structure AllowedTokens where
  deps : Bool
  /-- Variables of the package. -/
  selfEnv : Bool
deriving DecidableEq

/-- The surface interpolation serves. -/
inductive Usage
  | environment
  | entryPointArgs

def AllowedTokens.ofUsage : Usage → AllowedTokens
  | .environment => ⟨true, true⟩
  | .entryPointArgs => ⟨false, false⟩

/-- The token classes of an integrations payload. -/
def integrationTokens : AllowedTokens := ⟨true, false⟩

def AllowedTokens.permits (allowed : AllowedTokens) : TokenShape → Bool
  | .installPath => true
  | .dep _ => allowed.deps
  | .selfEnv _ => allowed.selfEnv

/-- The first token that a surface does not permit, as it was written. -/
def firstDisallowedToken (segments : List Segment) (allowed : AllowedTokens) : Option String :=
  segments.findSome? fun
    | .literal _ => none
    | .token token => if allowed.permits token.shape then none else some token.source

/-- A declaration that names a variable. -/
class DeclaredVar (α : Type) where
  declaredKey : α → String

instance : DeclaredVar Entry := ⟨Entry.key⟩

instance : DeclaredVar String := ⟨id⟩

open DeclaredVar in
/-- The index of a list of declarations: the position of the first one of a key and their number. -/
def keyIndex {α : Type} [DeclaredVar α] (declared : List α) (key : String) : Option (ℕ × ℕ) :=
  if key ∈ declared.map declaredKey then
    some (declared.findIdx fun d => declaredKey d = key,
      declared.countP fun d => declaredKey d = key)
  else none

/-- The variables declared before the one that is resolved, with an index by key. -/
structure SelfEnvScope (α : Type) [DeclaredVar α] where
  declared : List α
  /-- For each key the position of its first declaration and the number of its declarations. -/
  byKey : String → Option (ℕ × ℕ)
  indexed : byKey = keyIndex declared

namespace SelfEnvScope

open DeclaredVar

variable {α β : Type} [DeclaredVar α] [DeclaredVar β]

/-- Nothing is declared. -/
def new : SelfEnvScope α := ⟨[], fun _ => none, by funext key; simp [keyIndex]⟩

theorem keyIndex_push (declared : List α) (d : α) :
    keyIndex (declared ++ [d]) = Function.update (keyIndex declared) (declaredKey d)
      (match keyIndex declared (declaredKey d) with
        | some (first, count) => some (first, count + 1)
        | none => some (declared.length, 1)) := by
  funext key
  by_cases hkey : key = declaredKey d
  · subst hkey
    by_cases hmem : declaredKey d ∈ declared.map declaredKey
    · have hlt : declared.findIdx (fun x => decide (declaredKey x = declaredKey d)) <
          declared.length := by
        simpa using hmem
      simp [keyIndex, hmem, findIdx_append, hlt, countP_append]
    · have hidx : declared.findIdx (fun x => decide (declaredKey x = declaredKey d)) =
          declared.length := by
        simpa using hmem
      have hcount : declared.countP (fun x => decide (declaredKey x = declaredKey d)) = 0 := by
        rw [countP_eq_zero]
        simpa using hmem
      simp [keyIndex, hmem, findIdx_append, hidx, countP_append, hcount]
  · rw [Function.update_of_ne hkey]
    have hne : declaredKey d ≠ key := Ne.symm hkey
    by_cases hmem : key ∈ declared.map declaredKey
    · have hlt : declared.findIdx (fun x => decide (declaredKey x = key)) < declared.length := by
        simpa using hmem
      simp [keyIndex, hmem, findIdx_append, hlt, countP_append, hne]
    · simp [keyIndex, hmem, hkey]

/-- Declare one more variable. -/
def push (scope : SelfEnvScope α) (d : α) : SelfEnvScope α where
  declared := scope.declared ++ [d]
  byKey := Function.update scope.byKey (declaredKey d) (match scope.byKey (declaredKey d) with
    | some (first, count) => some (first, count + 1)
    | none => some (scope.declared.length, 1))
  indexed := by rw [scope.indexed, keyIndex_push]

/-- How many keys a refusal lists. -/
def maxListedDeclaredKeys : ℕ := 16

/-- The declared keys that a refusal lists. -/
def declaredKeysForMessage (scope : SelfEnvScope α) : List Quoted :=
  (scope.declared.take maxListedDeclaredKeys).map (forMessage <| declaredKey ·) ++
    if scope.declared.length > maxListedDeclaredKeys then [⟨"…", false⟩] else []

/-- The one declaration of a key. -/
def lookup (scope : SelfEnvScope α) (key : String) : Except TemplateError α :=
  match scope.byKey key with
  | none => .error (.undefinedSelfEnvRef key scope.declaredKeysForMessage)
  | some (first, count) =>
    if count > 1 then .error (.ambiguousSelfEnvRef key)
    else match scope.declared[first]? with
      | some d => .ok d
      | none => .error (.undefinedSelfEnvRef key scope.declaredKeysForMessage)

variable {scope : SelfEnvScope α} {key : String} {d : α}

end SelfEnvScope

/-! ### Resolution -/

/-- The host a path is printed for. -/
inductive Host
  | windows
  | unix
deriving DecidableEq

/-- What resolution asks the machine. -/
structure Machine where
  host : Host
  /-- A path without its verbatim front. -/
  simplified : String → String
  isRelative : String → Bool
  /-- A path below a directory. -/
  join : String → String → String
  pathExists : String → Bool

/-- Print the value of a token. -/
def render (value : String) (modifier : RenderModifier) (host : Host) : String :=
  match modifier, host with
  | .posix, .windows => String.ofList (value.toList.map fun c => if c = '\\' then '/' else c)
  | _, _ => value

/-- A direct dependency, as interpolation sees it. -/
structure DependencyContext where
  identifier : PinnedPackageRef
  /-- Its content directory. -/
  installPath : String

def maxResolvedValueBytes : ℕ := 64 * 1024

structure TemplateResolver where
  machine : Machine
  /-- The content directory of the package. -/
  installPath : String
  depContexts : Std.ExtTreeMap String DependencyContext
  allowed : AllowedTokens
  /-- The variables declared earlier. -/
  selfEnv : SelfEnvScope Entry

namespace TemplateResolver

variable (r : TemplateResolver)

/-- The value of a token before it is printed. -/
def substitute (shape : TokenShape) (checkExists : Bool) : Except TemplateError String :=
  match shape with
  | .installPath => .ok (r.machine.simplified r.installPath)
  | .dep name =>
    match r.depContexts[name]? with
    | none => .error (.unknownDependencyRef name r.depContexts.keys)
    | some context =>
      if checkExists ∧ r.machine.pathExists context.installPath = false then
        .error (.dependencyNotInstalled name context.identifier)
      else .ok (r.machine.simplified context.installPath)
  | .selfEnv key => (r.selfEnv.lookup key).map Entry.value

/-- What a segment contributes to the resolved value. -/
def piece (checkExists : Bool) : Segment → Except TemplateError String
  | .literal text => .ok text
  | .token token => do
    let value ← r.substitute token.shape checkExists
    .ok (render value (token.modifier.getD .native) r.machine.host)

/-- Append the segments, one by one; the size is checked after each of them. -/
def resolveSegments (checkExists : Bool) (resolved : String) :
    List Segment → Except TemplateError String
  | [] => .ok resolved
  | segment :: segments => do
    let text ← r.piece checkExists segment
    if (resolved ++ text).utf8ByteSize > maxResolvedValueBytes then
      .error (.resolvedValueTooLarge maxResolvedValueBytes)
    else resolveSegments checkExists (resolved ++ text) segments

def resolveInner (template : String) (checkExists : Bool) : Except TemplateError String := do
  let segments ← scan template
  match firstDisallowedToken segments r.allowed with
  | some token => .error (.disallowedToken token)
  | none => r.resolveSegments checkExists "" segments

/-- Resolve a template whose value is emitted. -/
def resolve (template : String) : Except TemplateError String := r.resolveInner template true

variable {r} {checkExists : Bool}

variable {fault : TemplateError}

theorem resolveSegments_eq_ok {resolved text : String}
    (h : r.resolveSegments checkExists resolved segments = .ok text) :
    ∃ pieces : List String, text = pieces.foldl (· ++ ·) resolved ∧
      List.Forall₂ (fun segment piece => r.piece checkExists segment = .ok piece)
        segments pieces := by
  induction segments generalizing resolved with
  | nil => exact ⟨[], (Except.ok.inj h).symm, .nil⟩
  | cons segment segments ih =>
    obtain ⟨first, hpiece, h⟩ := bind_eq_ok_iff.1 h
    split_ifs at h
    obtain ⟨pieces, htext, hpieces⟩ := ih h
    exact ⟨first :: pieces, htext, .cons hpiece hpieces⟩

/-- **A resolved template is the pieces of its segments, one after the other.** -/
theorem resolveInner_eq_ok {template text : String}
    (h : r.resolveInner template checkExists = .ok text) :
    ∃ segments, scan template = .ok segments ∧
      ∃ pieces : List String, text = pieces.foldl (· ++ ·) "" ∧
        List.Forall₂ (fun segment piece => r.piece checkExists segment = .ok piece)
          segments pieces := by
  obtain ⟨segments, hscan, h⟩ := bind_eq_ok_iff.1 h
  split at h
  · simp at h
  · exact ⟨segments, hscan, resolveSegments_eq_ok h⟩

end TemplateResolver

end Ocx
