/-
Name resolution: the scope tree of a program, and the program with every name
bound.

A function body or the top level first declares its `var` names, then the `let`,
`const` and function names that stand directly in it; a block declares its own
names on entry.  A function declares its parameters, the rest parameter and,
unless it is an arrow, the arguments collection before that, and a function
expression its own name after that if nothing hides it.  Only then are the
statements resolved, in the order of the text, so that every reference finds its
declaration wherever it stands.  Definitions are numbered in the same order.

Assignments are counted on the way.  A `var` with an initializer counts as an
assignment if it can run twice or is not the first of its name: it then
overwrites a slot that already has its value.
-/
import ClosureCache.Program.Declarations
import ClosureCache.Scope.Tree

namespace ClosureCache

/-- What is known of a definition before the program runs. -/
structure SiteInfo where
  site : SiteId
  name : Option String
  kind : FunctionKind
  flavor : FunctionFlavor
  memoized : Bool
  /-- The function's own scope. -/
  scope : ScopeId
  /-- The scope in which the definition stands. -/
  parentScope : ScopeId
  span : SourceSpan
deriving DecidableEq, Repr

/-- A program with its names bound, its scope tree, and its definitions by the
number of their site. -/
structure ResolvedProgram where
  program : Program
  tree : ScopeTree
  sites : Array SiteInfo

namespace ResolvedProgram

def siteNamed (r : ResolvedProgram) (name : String) : Option SiteId :=
  (r.sites.find? fun info => info.name == some name).map SiteInfo.site

end ResolvedProgram

inductive ResolveError where
  | scope (e : ScopeError)
  | assignToConstant (name : String) (binding : BindingId)
  | assignToFunctionName (name : String) (binding : BindingId)
  | missingDeclaration (name : String)
deriving DecidableEq, Repr

namespace ResolveError

def code : ResolveError → String
  | scope e => e.code
  | assignToConstant .. => "FE-MEMO-0201"
  | assignToFunctionName .. => "FE-MEMO-0202"
  | missingDeclaration .. => "FE-MEMO-0203"

def message : ResolveError → String
  | scope e => e.message
  | assignToConstant name _ => "TypeError: assignment to constant binding '" ++ name ++ "'"
  | assignToFunctionName name _ => "TypeError: assignment to function name '" ++ name ++ "'"
  | missingDeclaration name => "InternalError: declaration of '" ++ name ++ "' was not hoisted"

end ResolveError

/-! ## The state of resolution -/

/-- What resolution has built so far. -/
structure Scoping where
  tree : ScopeTree
  sites : Array SiteInfo
  /-- The `var` bindings with an initializer outside loops. -/
  initialized : List BindingId

abbrev ResolveM := StateT Scoping (Except ResolveError)

namespace ResolveM

def tree : ResolveM ScopeTree := do
  return (← get).tree

def ask {α : Type} (f : ScopeTree → Except ScopeError α) : ResolveM α := do
  match f (← tree) with
  | .ok a => return a
  | .error e => throw (.scope e)

def change {α : Type} (f : ScopeTree → Except ScopeError (α × ScopeTree)) : ResolveM α := do
  match f (← tree) with
  | .ok (a, t) =>
    modify fun s => { s with tree := t }
    return a
  | .error e => throw (.scope e)

def declare (scope : ScopeId) (d : Declared) : ResolveM BindingId :=
  change fun t => t.declare scope d.name d.kind d.storage

def declareAll (scope : ScopeId) : List Declared → ResolveM Unit
  | [] => return
  | d :: rest => do
    let _ ← declare scope d
    declareAll scope rest

def addScope (parent : ScopeId) (kind : ScopeKind) (arrow : Bool) (owner : Option SiteId) :
    ResolveM ScopeId :=
  change fun t => t.addScope parent kind arrow owner

def recordAssignment (b : BindingId) : ResolveM Unit :=
  change fun t => (t.recordAssignment b).map fun t => ((), t)

def localBinding (scope : ScopeId) (name : String) : ResolveM BindingId := do
  match (← tree).lookupLocal scope name with
  | some b => return b
  | none => throw (.missingDeclaration name)

def reference (scope : ScopeId) (name : String) : ResolveM Resolution := do
  match (← tree).resolve scope name with
  | some b => return .binding b
  | none => return .global

/-- Notes the initializer of a `var`, and counts it as an assignment where it
may overwrite an earlier value. -/
def noteInitializer (inLoop : Bool) (b : BindingId) : ResolveM Unit := do
  if inLoop || (← get).initialized.contains b then
    recordAssignment b
  else
    modify fun s => { s with initialized := b :: s.initialized }

/-- Counts an assignment to what a name refers to, if the program declares it
and lets it be assigned. -/
def noteAssignment (name : String) : Resolution → ResolveM Unit
  | .binding b => do
    match (← ask fun t => t.binding b).kind with
    | .constBinding => throw (.assignToConstant name b)
    | .functionName => throw (.assignToFunctionName name b)
    | _ => recordAssignment b
  | _ => return

/-- Opens the scope of a function and gives its definition the next number. -/
def enterFunction (parent : ScopeId) (node : FunctionNode) : ResolveM (SiteId × ScopeId) := do
  let site : SiteId := ⟨(← get).sites.size⟩
  let scope ← addScope parent .function node.isArrow (some site)
  change fun t => (t.recordSite parent site).map fun t => ((), t)
  let info : SiteInfo :=
    { site, name := node.name.map Identifier.name, kind := node.kind, flavor := node.flavor,
      memoized := node.memoized, scope, parentScope := parent, span := node.span }
  modify fun s => { s with sites := s.sites.push info }
  return (site, scope)

def declareParams (scope : ScopeId) : List Identifier → ResolveM (List Identifier)
  | [] => return []
  | p :: rest => do
    let b ← declare scope ⟨p.name, .parameter, .slot⟩
    return { p with resolution := .binding b } :: (← declareParams scope rest)

def declareRest (scope : ScopeId) : Option Identifier → ResolveM (Option Identifier)
  | none => return none
  | some r => do
    let b ← declare scope ⟨r.name, .rest, .slot⟩
    return some { r with resolution := .binding b }

/-- Declares the arguments collection of a function that is no arrow, unless a
parameter has its name. -/
def declareArguments (scope : ScopeId) (node : FunctionNode) : ResolveM (Option BindingId) := do
  if !node.isArrow && ((← tree).lookupLocal scope "arguments").isNone then
    return some (← declare scope ⟨"arguments", .arguments, .slot⟩)
  else
    return node.arguments

/-- The own name of a function.  Inside a function expression it is declared
unless a parameter or a declaration hides it. -/
def declareOwnName (scope : ScopeId) (kind : FunctionKind) :
    Option Identifier → ResolveM (Option Identifier)
  | none => return none
  | some name => do
    if kind = .expression then
      match (← tree).lookupLocal scope name.name with
      | some _ => return some { name with resolution := .unresolved }
      | none =>
        let b ← declare scope ⟨name.name, .functionName, .slot⟩
        return some { name with resolution := .binding b }
    else
      return some name

/-- The name of a function statement, bound in the scope of the statement. -/
def bindName (scope : ScopeId) : Option Identifier → ResolveM (Option Identifier)
  | none => return none
  | some name => do
    let b ← localBinding scope name.name
    return some { name with resolution := .binding b }

end ResolveM

open ResolveM

/-! ## Resolution -/

mutual

def Statement.resolve (scope : ScopeId) (inLoop : Bool) : Statement → ResolveM Statement
  | .declaration kind name init storage => do
    let init ← resolveOptional scope init
    let home ← if kind = .var then ask fun t => t.varScope scope else pure scope
    let b ← localBinding home name.name
    if kind = .var && init.isSome then
      noteInitializer inLoop b
    return .declaration kind { name with resolution := .binding b } init storage
  | .function node => do
    let name ← bindName scope node.name
    return .function (← node.resolve scope name)
  | .expression e => return .expression (← e.resolve scope)
  | .returning value => return .returning (← resolveOptional scope value)
  | .block b => return .block (← b.resolve scope inLoop)
  | .ifElse test consequent alternate => do
    let test ← test.resolve scope
    let consequent ← consequent.resolve scope inLoop
    return .ifElse test consequent (← resolveAlternate scope inLoop alternate)
  | .whileLoop test body => do
    let test ← test.resolve scope
    return .whileLoop test (← body.resolve scope true)

def resolveStatements (scope : ScopeId) (inLoop : Bool) :
    List Statement → ResolveM (List Statement)
  | [] => return []
  | s :: rest => do
    let s ← s.resolve scope inLoop
    return s :: (← resolveStatements scope inLoop rest)

def Block.resolve (parent : ScopeId) (inLoop : Bool) : Block → ResolveM Block
  | ⟨body, _⟩ => do
    let scope ← addScope parent .block false none
    declareAll scope (lexicals body)
    return ⟨← resolveStatements scope inLoop body, some scope⟩

def resolveAlternate (parent : ScopeId) (inLoop : Bool) : Option Block → ResolveM (Option Block)
  | none => return none
  | some b => return some (← b.resolve parent inLoop)

/-- Resolves a definition that stands in a scope.  Its name comes bound as the
place of the definition requires. -/
def FunctionNode.resolve (parent : ScopeId) (name : Option Identifier) :
    FunctionNode → ResolveM FunctionNode
  | node@{ body := body, .. } => do
    let (site, scope) ← enterFunction parent node
    let params ← declareParams scope node.params
    let rest ← declareRest scope node.rest
    let arguments ← declareArguments scope node
    declareAll scope (hoistedVars body)
    declareAll scope (lexicals body)
    let name ← declareOwnName scope node.kind name
    let body ← resolveStatements scope false body
    return { node with
      name, params, rest, body, site := some site, scope := some scope, arguments }

def Expression.resolve (scope : ScopeId) : Expression → ResolveM Expression
  | .literal l => return .literal l
  | .identifier i => do
    return .identifier { i with resolution := ← reference scope i.name }
  | .this _ => do
    return .this (some (← ask fun t => t.thisProvider scope))
  | .object properties => return .object (← resolveProperties scope properties)
  | .array elements => return .array (← resolveExpressions scope elements)
  | .member object property => return .member (← object.resolve scope) property
  | .setMember object property value => do
    let object ← object.resolve scope
    return .setMember object property (← value.resolve scope)
  | .call callee arguments => do
    let callee ← callee.resolve scope
    return .call callee (← resolveExpressions scope arguments)
  | .assign target value => do
    let value ← value.resolve scope
    let resolution ← reference scope target.name
    noteAssignment target.name resolution
    return .assign { target with resolution } value
  | .binary op left right => do
    let left ← left.resolve scope
    return .binary op left (← right.resolve scope)
  | .function node => return .function (← node.resolve scope node.name)
  | .dynamicEval source => return .dynamicEval source

def resolveOptional (scope : ScopeId) : Option Expression → ResolveM (Option Expression)
  | none => return none
  | some e => return some (← e.resolve scope)

def resolveExpressions (scope : ScopeId) : List Expression → ResolveM (List Expression)
  | [] => return []
  | e :: rest => do
    let e ← e.resolve scope
    return e :: (← resolveExpressions scope rest)

def resolveProperties (scope : ScopeId) :
    List (String × Expression) → ResolveM (List (String × Expression))
  | [] => return []
  | (key, e) :: rest => do
    let e ← e.resolve scope
    return (key, e) :: (← resolveProperties scope rest)

end

def resolveTopLevel (body : List Statement) : ResolveM (List Statement) := do
  declareAll ScopeTree.global (hoistedVars body)
  declareAll ScopeTree.global (lexicals body)
  resolveStatements ScopeTree.global false body

/-- Binds every name of a program. -/
def Program.resolve (p : Program) : Except ResolveError ResolvedProgram := do
  let (body, s) ← (resolveTopLevel p.body).run ⟨ScopeTree.initial, #[], []⟩
  return ⟨⟨body⟩, s.tree.finalizeMutability, s.sites⟩

end ClosureCache
