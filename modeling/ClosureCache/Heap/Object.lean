/-
Heap objects and the objects they refer to.

`strongRefs` lists what an object keeps alive by itself.  A weak map keeps
nothing alive by itself: the value of an entry lives as long as the map and the
key of the entry do.
-/
import ClosureCache.SortedMap
import ClosureCache.Value

namespace ClosureCache

/-- What lies around an environment. -/
inductive Enclosure where
  | outermost
  /-- The environment of the enclosing scope. -/
  | environment (id : ObjectId)
  /-- The captures of the shared function whose activation the environment
  is. -/
  | captures (function : ObjectId)
deriving DecidableEq, Repr

structure Environment where
  scope : ScopeId
  outer : Enclosure
  /-- The contents by slot; a slot is empty until its declaration runs. -/
  slots : Array (Option Value)
  /-- The `this` of the activation, if its scope supplies one. -/
  this : Option Value
deriving DecidableEq, Repr

/-- Where a captured binding is read from. -/
inductive CapturedSlot where
  /-- The contents were final when the closure was made, and were copied. -/
  | value (contents : Option Value)
  /-- The binding is read from its environment, where it may still be
  written. -/
  | binding (environment : ObjectId) (index : Nat)
deriving DecidableEq, Repr

/-- How a function finds the bindings it closes over. -/
inductive Closure where
  /-- Through the environment it was made in. -/
  | chain (environment : ObjectId)
  /-- Through a table of its own that holds its captures and nothing else. -/
  | captured (bindings : List (BindingId × CapturedSlot)) (this : Option Value)
deriving DecidableEq, Repr

structure FunctionObject where
  site : SiteId
  closure : Closure
deriving DecidableEq, Repr

inductive Object where
  | ordinary (properties : SortedMap String Value)
  | array (elements : Array Value)
  /-- A box with an identity, empty until it is first written. -/
  | cell (contents : Option Value)
  | environment (e : Environment)
  | function (f : FunctionObject)
  /-- What a call of a generator or an async function makes. -/
  | suspended (callee : ObjectId) (arguments : Array Value)
  /-- A record of fixed length. -/
  | tuple (slots : Array Value)
  /-- A map from primitives. -/
  | strongMap (entries : SortedMap Primitive Value)
  /-- A map from objects, which it does not keep alive. -/
  | weakMap (entries : SortedMap ObjectId Value)
deriving DecidableEq, Repr

namespace Object

def kindName : Object → String
  | ordinary _ => "ordinary"
  | array _ => "array"
  | cell _ => "cell"
  | environment _ => "environment"
  | function _ => "function"
  | suspended .. => "suspended"
  | tuple _ => "tuple"
  | strongMap _ => "strong_map"
  | weakMap _ => "weak_map"

/-- The entries of a weak map, and none for every other object. -/
def weakEntries : Object → List (ObjectId × Value)
  | weakMap entries => entries.toList
  | _ => []

end Object

/-! ## References -/

def objectsOf (values : List Value) : List ObjectId := values.filterMap Value.object?

def objectOf (value : Option Value) : List ObjectId := objectsOf value.toList

def Enclosure.refs : Enclosure → List ObjectId
  | outermost => []
  | environment id => [id]
  | captures id => [id]

def Environment.refs (e : Environment) : List ObjectId :=
  e.outer.refs ++ e.slots.toList.flatMap objectOf ++ objectOf e.this

def CapturedSlot.refs : CapturedSlot → List ObjectId
  | value contents => objectOf contents
  | binding environment _ => [environment]

def Closure.refs : Closure → List ObjectId
  | chain environment => [environment]
  | captured bindings this => bindings.flatMap (fun b => b.2.refs) ++ objectOf this

/-- The objects that an object keeps alive by itself. -/
def Object.strongRefs : Object → List ObjectId
  | ordinary properties => objectsOf properties.values
  | array elements => objectsOf elements.toList
  | cell contents => objectOf contents
  | environment e => e.refs
  | function f => f.closure.refs
  | suspended callee arguments => callee :: objectsOf arguments.toList
  | tuple slots => objectsOf slots.toList
  | strongMap entries => objectsOf entries.values
  | weakMap _ => []

end ClosureCache
