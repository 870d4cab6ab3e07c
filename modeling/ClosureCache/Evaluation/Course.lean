/-
The course of an evaluation.

Evaluating a program is a succession of actions on a machine, in which each answer
decides what comes next.  `Course` is the tree of all such successions: an action,
and what follows on every answer that it may give.  `Course.run` carries it out.

The evaluator says which actions come when, and the actions say what happens to the
machine, so that either can be spoken of without the other.
-/
import ClosureCache.Evaluation.Machine

namespace ClosureCache

/-- What evaluation asks of a machine. -/
inductive Action where
  | readIdentifier (env : ObjectId) (i : Identifier)
  | readThis (env : ObjectId) (provider : Option ScopeId)
  | assign (env : ObjectId) (i : Identifier) (value : Value)
  | writeBinding (env : ObjectId) (b : BindingId) (name : String) (value : Value)
  | newEnvironment (scope : ScopeId) (outer : Enclosure) (this : Option Value)
  | allocate (object : Object)
  | getProperty (target : Value) (name : String)
  | setProperty (target : Value) (name : String) (value : Value)
  /-- Reaches a definition. -/
  | instantiate (node : FunctionNode) (env : ObjectId)
  /-- Finds the function object of a call. -/
  | callee (value : Value)
  /-- Finds the definition of a function object. -/
  | definition (f : FunctionObject)

namespace Action

/-- What an action is answered with. -/
def Answer : Action → Type
  | readIdentifier .. => Value
  | readThis .. => Value
  | assign .. => Unit
  | writeBinding .. => Unit
  | newEnvironment .. => ObjectId
  | allocate _ => ObjectId
  | getProperty .. => Value
  | setProperty .. => Unit
  | instantiate .. => Value
  | callee _ => ObjectId × FunctionObject
  | definition _ => FunctionNode

def perform : (a : Action) → EvalM a.Answer
  | readIdentifier env i => EvalM.readIdentifier env i
  | readThis env provider => EvalM.readThis env provider
  | assign env i value => EvalM.assign env i value
  | writeBinding env b name value => EvalM.writeBinding env b name value
  | newEnvironment scope outer this => EvalM.newEnvironment scope outer this
  | allocate object => EvalM.allocate object
  | getProperty target name => EvalM.ask fun _ h => h.getProperty target name
  | setProperty target name value => EvalM.onHeap (Heap.setProperty target name value)
  | instantiate node env => EvalM.instantiate node env
  | callee value => EvalM.callee value
  | definition f => EvalM.definition f

end Action

/-- A succession of actions, as it depends on their answers. -/
inductive Course (α : Type) where
  | done (value : α)
  | stop (reason : Stop EvalError)
  | act (action : Action) (next : action.Answer → Course α)

namespace Course

variable {α β : Type}

/-- One course after another. -/
def bind : Course α → (α → Course β) → Course β
  | done value, f => f value
  | stop reason, _ => stop reason
  | act action next, f => act action fun answer => (next answer).bind f

instance : Monad Course where
  pure := done
  bind := bind

/-- Carries out a course.  The first action that fails ends it. -/
def run : Course α → EvalM α
  | done value => return value
  | stop reason => throw reason
  | act action next => do
    let answer ← action.perform
    (next answer).run

def fail (e : EvalError) : Course α := stop (.error e)

def ofExcept : Except EvalError α → Course α
  | .ok a => done a
  | .error e => fail e

/-! ## Single actions -/

def readIdentifier (env : ObjectId) (i : Identifier) : Course Value :=
  act (.readIdentifier env i) done

def readThis (env : ObjectId) (provider : Option ScopeId) : Course Value :=
  act (.readThis env provider) done

def assign (env : ObjectId) (i : Identifier) (value : Value) : Course Unit :=
  act (.assign env i value) done

def writeBinding (env : ObjectId) (b : BindingId) (name : String) (value : Value) : Course Unit :=
  act (.writeBinding env b name value) done

def newEnvironment (scope : ScopeId) (outer : Enclosure) (this : Option Value) :
    Course ObjectId :=
  act (.newEnvironment scope outer this) done

def allocate (object : Object) : Course ObjectId := act (.allocate object) done

def getProperty (target : Value) (name : String) : Course Value :=
  act (.getProperty target name) done

def setProperty (target : Value) (name : String) (value : Value) : Course Unit :=
  act (.setProperty target name value) done

def instantiate (node : FunctionNode) (env : ObjectId) : Course Value :=
  act (.instantiate node env) done

def callee (value : Value) : Course (ObjectId × FunctionObject) := act (.callee value) done

def definition (f : FunctionObject) : Course FunctionNode := act (.definition f) done

end Course

end ClosureCache
