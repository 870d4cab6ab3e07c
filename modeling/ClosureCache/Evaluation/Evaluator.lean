/-
The evaluator: what statements do and what expressions give.

Programs may loop or recurse for ever, so evaluation is given a number of steps
to go down; with more steps a finished evaluation has the same result.
-/
import ClosureCache.Evaluation.Course

namespace ClosureCache

/-- How statements come to an end. -/
inductive Completion where
  | normal
  | returned (value : Value)
deriving DecidableEq, Repr

/-- The value of a body that ended so. -/
def Completion.value : Completion → Value
  | normal => .undefined
  | returned value => value

namespace Course

/-! ## Hoisting and activations -/

/-- Writes what an identifier is bound to; one without a binding is passed
over. -/
def writeBound (env : ObjectId) (i : Identifier) (value : Value) : Course Unit :=
  match i.binding? with
  | some b => writeBinding env b i.name value
  | none => return

/-- Makes the functions of the function statements in a body, and binds their
names. -/
def hoistFunctions (env : ObjectId) : List Statement → Course Unit
  | [] => return
  | .function node :: rest => do
    let value ← instantiate node env
    match node.name with
    | some name => writeBound env name value
    | none => pure ()
    hoistFunctions env rest
  | _ :: rest => hoistFunctions env rest

def newArray (elements : List Value) : Course Value := do
  return .object (← allocate (.array elements.toArray))

/-- Binds parameters to arguments; a parameter without one is undefined. -/
def bindParams (env : ObjectId) : List Identifier → List Value → Course Unit
  | [], _ => return
  | p :: params, arguments => do
    writeBound env p (arguments.headD .undefined)
    bindParams env params arguments.tail

def bindRest (env : ObjectId) (node : FunctionNode) (arguments : List Value) : Course Unit := do
  match node.rest with
  | none => return
  | some rest =>
    match rest.binding? with
    | none => return
    | some b => writeBinding env b rest.name (← newArray (arguments.drop node.params.length))

def bindArguments (env : ObjectId) (node : FunctionNode) (arguments : List Value) :
    Course Unit := do
  match node.arguments with
  | none => return
  | some b => writeBinding env b "arguments" (← newArray arguments)

def bindOwnName (env : ObjectId) (node : FunctionNode) (function : ObjectId) : Course Unit := do
  match node.kind, node.name with
  | .expression, some name => writeBound env name (.object function)
  | _, _ => return

/-- The environment of an activation, with parameters and the rest bound. -/
def enter (function : ObjectId) (closure : Closure) (node : FunctionNode) (this : Value)
    (arguments : List Value) : Course ObjectId := do
  match node.scope with
  | none => fail (.unannotated ("scope of '" ++ node.displayName ++ "'"))
  | some scope =>
    let outer := match closure with
      | .chain env => Enclosure.environment env
      | .captured .. => .captures function
    let env ← newEnvironment scope outer (if node.isArrow then none else some this)
    bindParams env node.params arguments
    bindRest env node arguments
    bindArguments env node arguments
    bindOwnName env node function
    return env

/-! ## Statements and expressions -/

mutual

def evaluate : Nat → ObjectId → Expression → Course Value
  | 0, _, _ => stop .endless
  | n + 1, env, e =>
    match e with
    | .literal l => return l.value
    | .identifier i => readIdentifier env i
    | .this provider => readThis env provider
    | .object properties => do
      let values ← evaluateProperties n env properties
      return .object (← allocate (.ordinary (.ofList values)))
    | .array elements => do newArray (← evaluateAll n env elements)
    | .member object property => do
      let target ← evaluate n env object
      getProperty target property
    | .setMember object property value => do
      let target ← evaluate n env object
      let value ← evaluate n env value
      setProperty target property value
      return value
    | .call callee arguments => do
      let (function, this) ← evaluateCallee n env callee
      let arguments ← evaluateAll n env arguments
      call n function this arguments
    | .assign target value => do
      let value ← evaluate n env value
      assign env target value
      return value
    | .binary op left right => do
      let left ← evaluate n env left
      let right ← evaluate n env right
      ofExcept (op.apply left right)
    | .function node => instantiate node env
    | .dynamicEval _ => fail .dynamicEvalUnsupported

def evaluateAll : Nat → ObjectId → List Expression → Course (List Value)
  | 0, _, _ => stop .endless
  | _ + 1, _, [] => return []
  | n + 1, env, e :: rest => do
    let value ← evaluate n env e
    return value :: (← evaluateAll n env rest)

def evaluateProperties : Nat → ObjectId → List (String × Expression) →
    Course (List (String × Value))
  | 0, _, _ => stop .endless
  | _ + 1, _, [] => return []
  | n + 1, env, (key, e) :: rest => do
    let value ← evaluate n env e
    return (key, value) :: (← evaluateProperties n env rest)

/-- The function of a call and its `this`: a function that is read from an
object has the object as its `this`. -/
def evaluateCallee : Nat → ObjectId → Expression → Course (Value × Value)
  | 0, _, _ => stop .endless
  | n + 1, env, .member object property => do
    let target ← evaluate n env object
    let function ← getProperty target property
    return (function, target)
  | n + 1, env, e => do
    return (← evaluate n env e, .undefined)

def call : Nat → Value → Value → List Value → Course Value
  | 0, _, _, _ => stop .endless
  | n + 1, function, this, arguments => do
    let (id, f) ← callee function
    let node ← definition f
    if node.flavor.isSuspending then
      return .object (← allocate (.suspended id arguments.toArray))
    else
      let env ← enter id f.closure node this arguments
      hoistFunctions env node.body
      return (← executeAll n env node.body).value

/-- Runs statements up to the first one that returns. -/
def executeAll : Nat → ObjectId → List Statement → Course Completion
  | 0, _, _ => stop .endless
  | _ + 1, _, [] => return .normal
  | n + 1, env, s :: rest => do
    match ← execute n env s with
    | .returned value => return .returned value
    | .normal => executeAll n env rest

def execute : Nat → ObjectId → Statement → Course Completion
  | 0, _, _ => stop .endless
  | n + 1, env, s =>
    match s with
    | .declaration kind name init _ => do
      let value ← match init with
        | none => pure none
        | some e => some <$> evaluate n env e
      match name.binding? with
      | none => fail (.unannotated ("declaration of '" ++ name.name ++ "'"))
      | some b =>
        if kind = .var && value.isNone then
          return .normal
        else
          writeBinding env b name.name (value.getD .undefined)
          return .normal
    | .function _ => return .normal
    | .expression e => do
      let _ ← evaluate n env e
      return .normal
    | .returning none => return .returned .undefined
    | .returning (some e) => return .returned (← evaluate n env e)
    | .block b => executeBlock n env b
    | .ifElse test consequent alternate => do
      if (← evaluate n env test).isTruthy then
        executeBlock n env consequent
      else
        match alternate with
        | none => return .normal
        | some b => executeBlock n env b
    | .whileLoop test body => executeLoop n env test body

/-- Runs a block in an environment of its own. -/
def executeBlock : Nat → ObjectId → Block → Course Completion
  | 0, _, _ => stop .endless
  | n + 1, env, b =>
    match b.scope with
    | none => fail (.unannotated "block")
    | some scope => do
      let inner ← newEnvironment scope (.environment env) none
      hoistFunctions inner b.body
      executeAll n inner b.body

/-- Runs a block as long as a test holds. -/
def executeLoop : Nat → ObjectId → Expression → Block → Course Completion
  | 0, _, _, _ => stop .endless
  | n + 1, env, test, body => do
    if (← evaluate n env test).isTruthy then
      match ← executeBlock n env body with
      | .returned value => return .returned value
      | .normal => executeLoop n env test body
    else
      return .normal

end

def program (steps : Nat) (env : ObjectId) (body : List Statement) : Course Value := do
  hoistFunctions env body
  return (← executeAll steps env body).value

end Course

def call (steps : Nat) (function this : Value) (arguments : List Value) : EvalM Value :=
  (Course.call steps function this arguments).run

end ClosureCache
