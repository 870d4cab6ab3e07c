/-
The JSON form of the numbers that stand for scopes, bindings, definitions and
objects: the bare number, of at most 32 bits, and for objects of at most 64.
-/
import ClosureCache.Identity
import ClosureCache.Json.Decode

namespace ClosureCache

def ScopeId.toJson (s : ScopeId) : Json := .nat s.index

def ScopeId.ofJson? (j : Json) : Option ScopeId := j.asIndex?.map mk

def BindingId.toJson (b : BindingId) : Json := .nat b.index

def BindingId.ofJson? (j : Json) : Option BindingId := j.asIndex?.map mk

def SiteId.toJson (s : SiteId) : Json := .nat s.index

def SiteId.ofJson? (j : Json) : Option SiteId := j.asIndex?.map mk

def ObjectId.toJson (o : ObjectId) : Json := .nat o.index

def ObjectId.ofJson? (j : Json) : Option ObjectId := j.asWord?.map mk

end ClosureCache
