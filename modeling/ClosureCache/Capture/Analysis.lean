/-
Capture analysis: which outer bindings a shared definition depends on.

A definition captures every binding that its body refers to and that is declared
outside its own scope, once each, in the order of first use.  A captured binding
without a cell must never be assigned twice, for a key can hold its value only
if the value is final; a definition that captures such a binding is an error.
An arrow that refers to a `this` from outside captures it last.

A definition that is not marked for sharing, or whose body evaluates text at run
time, is left alone.
-/
import ClosureCache.Capture.References
import ClosureCache.Capture.Spec
import ClosureCache.Program.Functions
import ClosureCache.Program.Resolved
import ClosureCache.SortedMap

namespace ClosureCache

/-- Why the closures of a definition are not shared. -/
inductive UnmemoizedReason where
  | notMemoized
  | dynamicBody
deriving DecidableEq, Repr

def UnmemoizedReason.name : UnmemoizedReason → String
  | notMemoized => "not_memoized"
  | dynamicBody => "dynamic_body"

/-- What analysis says of a definition. -/
inductive SiteAnalysis where
  | memoized (spec : CaptureSpec)
  | unmemoized (reason : UnmemoizedReason)
deriving DecidableEq, Repr

def SiteAnalysis.spec? : SiteAnalysis → Option CaptureSpec
  | memoized spec => some spec
  | unmemoized _ => none

inductive AnalysisError where
  | mutableCapture (site : SiteId) (name : String) (binding : BindingId)
  | unresolved (name : String)
  | scope (e : ScopeError)
deriving DecidableEq, Repr

namespace AnalysisError

def code : AnalysisError → String
  | mutableCapture .. => "FE-MEMO-0301"
  | unresolved .. => "FE-MEMO-0302"
  | scope e => e.code

def message : AnalysisError → String
  | mutableCapture site name _ =>
    "mutable capture requires indirection: '" ++ name ++ "' captured by " ++ site.text
  | unresolved name => "function '" ++ name ++ "' has not been resolved"
  | scope e => e.message

end AnalysisError

/-- All errors of one program, in the order of its definitions. -/
structure AnalysisReport where
  errors : List AnalysisError
deriving DecidableEq, Repr

namespace AnalysisReport

/-- The code of the report: that of its first error. -/
def code (r : AnalysisReport) : String :=
  match r.errors with
  | [] => "FE-MEMO-0300"
  | e :: _ => e.code

def message (r : AnalysisReport) : String :=
  "capture analysis failed at " ++ r.errors.length.repr ++ " site(s)"

end AnalysisReport

/-- The analysis of every definition of a program. -/
abbrev AnalysisTable := SortedMap SiteId SiteAnalysis

namespace AnalysisTable

/-- The captures of a definition, if it is shared. -/
def spec? (t : AnalysisTable) (site : SiteId) : Option CaptureSpec :=
  (t.get? site).bind SiteAnalysis.spec?

def memoizedCount (t : AnalysisTable) : Nat := t.values.countP fun a => a.spec?.isSome

end AnalysisTable

/-! ## One definition -/

/-- The capture of one binding by the definition `site` with scope `own`; a
binding from inside is none. -/
def captureOf? (tree : ScopeTree) (site : SiteId) (own : ScopeId) (b : BindingId) :
    Except AnalysisError (Option Capture) :=
  match tree.binding b with
  | .error e => .error (.scope e)
  | .ok declared =>
    if tree.isWithin declared.scope own then .ok none
    else
      match declared.storage with
      | .cell => .ok (some ⟨some b, declared.name, .cell, declared.scope⟩)
      | .slot =>
        if declared.mutable then .error (.mutableCapture site declared.name b)
        else .ok (some ⟨some b, declared.name, .value, declared.scope⟩)

/-- The captures among bindings, up to the first error. -/
def capturesOf (tree : ScopeTree) (site : SiteId) (own : ScopeId) :
    List BindingId → Except AnalysisError (List Capture)
  | [] => .ok []
  | b :: rest => do
    let capture ← captureOf? tree site own b
    let others ← capturesOf tree site own rest
    return capture.toList ++ others

/-- The capture of `this` by an arrow: the first supplier outside its scope. -/
def thisCapture (tree : ScopeTree) (own : ScopeId) (providers : List ScopeId) : Option Capture :=
  (providers.find? fun p => !tree.isWithin p own).map fun p => ⟨none, "this", .thisValue, p⟩

def specOf (tree : ScopeTree) (site : SiteId) (own : ScopeId) (arrow : Bool)
    (references : List Reference) : Except AnalysisError CaptureSpec := do
  let bindings := (references.filterMap Reference.binding?).eraseDups
  let captures ← capturesOf tree site own bindings
  let inherited :=
    if arrow then thisCapture tree own (references.filterMap Reference.provider?) else none
  return ⟨site, captures ++ inherited.toList⟩

def analyzeSite (tree : ScopeTree) (f : FunctionNode) : Except AnalysisError SiteAnalysis :=
  match f.site, f.scope with
  | some site, some own =>
    if !f.memoized then .ok (.unmemoized .notMemoized)
    else
      let references := f.references
      if references.contains .dynamic then .ok (.unmemoized .dynamicBody)
      else (specOf tree site own f.isArrow references).map .memoized
  | _, _ => .error (.unresolved f.displayName)

/-! ## A whole program -/

/-- Analyses definitions one after the other, keeping results and errors
apart. -/
def analyzeSites (tree : ScopeTree) :
    List FunctionNode → AnalysisTable × List AnalysisError → AnalysisTable × List AnalysisError
  | [], acc => acc
  | f :: rest, (table, errors) =>
    match analyzeSite tree f with
    | .error e => analyzeSites tree rest (table, errors ++ [e])
    | .ok analysis =>
      match f.site with
      | some site => analyzeSites tree rest (table.insert site analysis, errors)
      | none => analyzeSites tree rest (table, errors)

/-- The analysis of a resolved program, or all errors together. -/
def ResolvedProgram.analyze (r : ResolvedProgram) : Except AnalysisReport AnalysisTable :=
  match analyzeSites r.tree r.program.functions (∅, []) with
  | (table, []) => .ok table
  | (_, errors) => .error ⟨errors⟩

end ClosureCache
