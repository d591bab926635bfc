import Ocx.Package.Template

/-!
# Package metadata with its templates

The metadata of a package carries templates in three places: the values of its environment
variables, the arguments of its entry points and the string leaves of its integrations.  The publish
gate checks them before a package reaches a registry, the composer resolves them on the machine of a
consumer.  The two are separate traversals: the gate keeps the keys declared so far, the composer
the entries they were resolved to.
-/

namespace Ocx

/-! ### Metadata -/

/-- Why metadata is refused, or fails to resolve. -/
inductive PackageError
  | unknownEnvModifier (key typeName : String)
  | missingListSeparator (key : String)
  | invalidListSeparator (key separator : String)
  | separatorEdgedListValue (key separator value : String)
  | integrationNamespaceInvalid («namespace» reason : String)
  | integrationTooLarge («namespace» : String) (size max : ℕ)
  | integrationsTooLarge (size max : ℕ)
  | reservedEnvKey (key : String)
  | envVarInterpolation (varKey : String) (source : TemplateError)
  | entrypointArgInterpolation (entrypoint arg : String) (source : TemplateError)
  | integrationInterpolation («namespace» : String) (source : TemplateError)
  | requiredPathMissing (path : String)
deriving DecidableEq

/-- A value that starts or ends with its separator. -/
def isSeparatorEdged (value separator : String) : Bool :=
  separator.toList.isPrefixOf value.toList || separator.toList.isSuffixOf value.toList

/-- The dependencies by name: the last one of each name, and for a name that is shared the one
before it. -/
structure DependencyNames where
  nameMap : Std.ExtTreeMap String Dependency
  /-- The dependency that a later one of its name displaced. -/
  collisionMap : Std.ExtTreeMap String Dependency

def DependencyNames.insert (names : DependencyNames) (dep : Dependency) : DependencyNames where
  nameMap := names.nameMap.insert dep.interpolationName dep
  collisionMap := match names.nameMap[dep.interpolationName]? with
    | some previous => names.collisionMap.insert dep.interpolationName previous
    | none => names.collisionMap

mutual

/-- The string leaves of a payload, in document order. -/
def Json.stringLeaves : Json → List String
  | .string text => [text]
  | .array items => itemLeaves items
  | .object members => memberLeaves members
  | .null => []
  | .bool _ => []
  | .number _ => []

def itemLeaves : List Json → List String
  | [] => []
  | item :: items => item.stringLeaves ++ itemLeaves items

def memberLeaves : List (String × Json) → List String
  | [] => []
  | (_, member) :: members => member.stringLeaves ++ memberLeaves members

end

/-- Whether the package has a content tree on disk. -/
inductive ContentState
  | materialized
  | deferred
deriving DecidableEq

/-- Resolves the environment of a package. -/
structure EnvResolver where
  machine : Machine
  /-- The content directory. -/
  installPath : String
  depContexts : Std.ExtTreeMap String DependencyContext
  /-- Whether the content tree exists. -/
  contentState : ContentState

namespace EnvResolver

variable (r : EnvResolver)

/-- The resolver of the values, after some variables. -/
def templates (declaredBefore : SelfEnvScope Entry) : TemplateResolver :=
  ⟨r.machine, r.installPath, r.depContexts, .ofUsage .environment, declaredBefore⟩

/-- The path a value stands for: a relative one is below the content directory. -/
def pathOf (value : String) : String :=
  r.machine.simplified
    (if r.machine.isRelative value then r.machine.join r.installPath value else value)

/-- The entry of a variable from its resolved value. -/
def entryOf (var : EnvVar) (emitAssertions : Bool) (value : String) :
    Except PackageError (Option Entry) :=
  match var.modifier with
  | .path required _ =>
    if emitAssertions ∧ r.contentState = .materialized ∧ required ∧
        r.machine.pathExists (r.pathOf value) = false then
      .error (.requiredPathMissing (r.pathOf value))
    else .ok (some ⟨var.key, r.pathOf value, .path, none⟩)
  | .constant _ => .ok (some ⟨var.key, value, .constant, none⟩)
  | .list separator _ =>
    -- rechecked on the resolved bytes: an install path can edge a value no gate saw
    if emitAssertions ∧ isSeparatorEdged value (separator.getD defaultSeparator) then
      .error (.separatorEdgedListValue var.key (separator.getD defaultSeparator) value)
    else .ok (some ⟨var.key, value, .list, separator⟩)
  | .unknown _ => .ok none

/-- Resolve a variable; a value that nobody emits skips the assertions. -/
def resolveInner (var : EnvVar) (declaredBefore : SelfEnvScope Entry) (emitAssertions : Bool) :
    Except PackageError (Option Entry) :=
  match var.value with
  | none => .ok none
  | some template => do
    let value ← ((r.templates declaredBefore).resolveInner template emitAssertions).mapError
      (.envVarInterpolation var.key)
    r.entryOf var emitAssertions value

/-- The emission of a package while its variables are resolved. -/
structure EmitState where
  /-- The emitted entries, each with the position of its variable. -/
  entries : List (ℕ × Entry)
  /-- The entries of all variables so far, emitted or not. -/
  declaredBefore : SelfEnvScope Entry

def EmitState.record (st : EmitState) (index : ℕ) (crosses : Bool) (entry : Entry) : EmitState :=
  ⟨if crosses then st.entries ++ [(index, entry)] else st.entries, st.declaredBefore.push entry⟩

/-- Resolve every variable from one on, and emit those that cross. -/
def emitVars (crosses : Visibility → Bool) (index : ℕ) (st : EmitState) :
    List EnvVar → Except PackageError EmitState
  | [] => .ok st
  | var :: rest => do
    let resolved ← r.resolveInner var st.declaredBefore (crosses var.visibility)
    match resolved with
    | none => emitVars crosses (index + 1) st rest
    | some entry =>
      emitVars crosses (index + 1) (st.record index (crosses var.visibility) entry) rest

end EnvResolver

/-- Nothing is emitted yet. -/
def EnvResolver.EmitState.new : EnvResolver.EmitState := ⟨[], .new⟩

/-- Resolve the environment of a package and emit what crosses. -/
def emitPackageVars (b : Bundle) (r : EnvResolver) (crosses : Visibility → Bool) :
    Except PackageError (List (ℕ × Entry)) := do
  let st ← r.emitVars crosses 0 .new b.env
  .ok st.entries

mutual

/-- Resolve every string leaf of a payload; keys and scalars stay. -/
def Json.interpolate (r : TemplateResolver) : Json → Except TemplateError Json
  | .string text => do
    let resolved ← r.resolve text
    .ok (.string resolved)
  | .array items => do
    let resolved ← interpolateItems r items
    .ok (.array resolved)
  | .object members => do
    let resolved ← interpolateMembers r members
    .ok (.object resolved)
  | .null => .ok .null
  | .bool value => .ok (.bool value)
  | .number text => .ok (.number text)

def interpolateItems (r : TemplateResolver) : List Json → Except TemplateError (List Json)
  | [] => .ok []
  | item :: items => do
    let first ← item.interpolate r
    let later ← interpolateItems r items
    .ok (first :: later)

def interpolateMembers (r : TemplateResolver) :
    List (String × Json) → Except TemplateError (List (String × Json))
  | [] => .ok []
  | (key, member) :: members => do
    let first ← member.interpolate r
    let later ← interpolateMembers r members
    .ok ((key, first) :: later)

end

def integrationResolver (machine : Machine) (content : String)
    (depContexts : Std.ExtTreeMap String DependencyContext) : TemplateResolver :=
  ⟨machine, content, depContexts, integrationTokens, .new⟩

def resolveIntegrations (r : TemplateResolver) (integrations : List (String × Json)) :
    Except PackageError (List (String × Json)) :=
  integrations.mapM fun (name, payload) => do
    let resolved ← (payload.interpolate r).mapError (.integrationInterpolation name)
    .ok (name, resolved)

end Ocx
