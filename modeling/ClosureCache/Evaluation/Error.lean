/-
Why a program cannot be loaded, and why running it stops.
-/
import ClosureCache.Cache.Trie
import ClosureCache.Capture.Analysis
import ClosureCache.Config
import ClosureCache.Key.Build

namespace ClosureCache

inductive EvalError where
  | reference (name : String)
  | uninitialized (name : String)
  | notCallable (detail : String)
  | notAnObject (detail : String)
  | wrongType (detail : String)
  | unknownSite (site : SiteId)
  | unannotated (what : String)
  | dynamicEvalUnsupported
  | immutableCapture (name : String)
  | alreadyRan
  | key (e : KeyError)
  | cache (e : CacheError)
  | heap (e : HeapError)
  | scope (e : ScopeError)
deriving DecidableEq, Repr

namespace EvalError

def code : EvalError → String
  | reference _ => "FE-MEMO-0701"
  | uninitialized _ => "FE-MEMO-0702"
  | notCallable _ => "FE-MEMO-0703"
  | notAnObject _ => "FE-MEMO-0704"
  | wrongType _ => "FE-MEMO-0705"
  | unknownSite _ => "FE-MEMO-0706"
  | unannotated _ => "FE-MEMO-0707"
  | dynamicEvalUnsupported => "FE-MEMO-0708"
  | immutableCapture _ => "FE-MEMO-0709"
  | alreadyRan => "FE-MEMO-0710"
  | key e => e.code
  | cache e => e.code
  | heap e => e.code
  | scope e => e.code

def message : EvalError → String
  | reference name => "ReferenceError: " ++ name ++ " is not defined"
  | uninitialized name => "ReferenceError: cannot access '" ++ name ++ "' before initialization"
  | notCallable detail => "TypeError: " ++ detail ++ " is not a function"
  | notAnObject detail => "TypeError: " ++ detail
  | wrongType detail => "TypeError: " ++ detail
  | unknownSite site => "unknown definition site " ++ site.text
  | unannotated what => what ++ " was not annotated by the resolver"
  | dynamicEvalUnsupported => "dynamic evaluation is not supported"
  | immutableCapture name => "captured binding '" ++ name ++ "' is not assignable"
  | alreadyRan => "program has already run"
  | key e => e.message
  | cache e => e.message
  | heap e => e.message
  | scope e => e.message

end EvalError

inductive LoadError where
  | config (e : ConfigError)
  | resolve (e : ResolveError)
  | analysis (report : AnalysisReport)
  | eval (e : EvalError)
deriving DecidableEq, Repr

namespace LoadError

def phase : LoadError → String
  | config _ => "config"
  | resolve _ => "resolve"
  | analysis _ => "analysis"
  | eval _ => "runtime"

def code : LoadError → String
  | config e => e.code
  | resolve e => e.code
  | analysis report => report.code
  | eval e => e.code

def message : LoadError → String
  | config e => e.message
  | resolve e => e.message
  | analysis report => report.message
  | eval e => e.message

end LoadError

end ClosureCache
