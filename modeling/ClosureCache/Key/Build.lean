/-
Building the key of a definition from the bindings that are live where control
reaches it.

Only the captured bindings are looked at, in the order of the captures, and of
an object or a cell only its identity.
-/
import ClosureCache.Capture.Spec
import ClosureCache.Key.Basic

namespace ClosureCache

inductive KeyError where
  | missingBinding (binding : BindingId)
  | notACell (name : String) (binding : BindingId)
  | missingCaptureBinding (name : String)
  | missingThis
deriving DecidableEq, Repr

namespace KeyError

def code : KeyError → String
  | missingBinding .. => "FE-MEMO-0401"
  | notACell .. => "FE-MEMO-0402"
  | missingCaptureBinding .. => "FE-MEMO-0403"
  | missingThis => "FE-MEMO-0404"

def message : KeyError → String
  | missingBinding b => "binding " ++ b.text ++ " is not visible from the reach point"
  | notACell name _ => "cell-mode capture '" ++ name ++ "' does not hold a cell"
  | missingCaptureBinding name => "capture '" ++ name ++ "' has no binding"
  | missingThis => "no `this` is visible from the reach point"

end KeyError

/-- The bindings that are live at one point of a run. -/
structure LiveScope where
  /-- What the slot of a binding holds: nothing while it is uninitialised. -/
  slot : BindingId → Except KeyError (Option Value)
  /-- The `this` that a scope supplies. -/
  thisValue : ScopeId → Except KeyError Value
  /-- Whether an object is a cell. -/
  isCell : ObjectId → Bool

/-- The component of a capture by value. -/
def componentOfSlot : Option Value → KeyComponent
  | some v => .ofValue v
  | none => .primitive .uninitialized

/-- The component of a capture by cell. -/
def componentOfCell (live : LiveScope) (name : String) (b : BindingId) :
    Option Value → Except KeyError KeyComponent
  | some (.object id) => if live.isCell id then .ok (.cellRef id) else .error (.notACell name b)
  | _ => .error (.notACell name b)

def Capture.component (live : LiveScope) (c : Capture) : Except KeyError KeyComponent :=
  match c.mode with
  | .thisValue => (live.thisValue c.source).map .ofValue
  | .value =>
    match c.binding with
    | none => .error (.missingCaptureBinding c.name)
    | some b => (live.slot b).map componentOfSlot
  | .cell =>
    match c.binding with
    | none => .error (.missingCaptureBinding c.name)
    | some b => (live.slot b).bind (componentOfCell live c.name b)

def CaptureSpec.buildKey (spec : CaptureSpec) (live : LiveScope) : Except KeyError Key :=
  (spec.captures.mapM (Capture.component live)).map Key.mk

end ClosureCache
