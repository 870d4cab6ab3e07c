/-
What a shared definition captures: the outer bindings its body uses, in order,
and how each one enters a cache key.

A spec has a canonical text, in which the site and every capture are spelt out,
and a fingerprint, which is the SHA-256 digest of that text.
-/
import ClosureCache.Identity
import ClosureCache.Digest.Sha256

namespace ClosureCache

/-- How a capture enters a cache key. -/
inductive CaptureMode where
  /-- By the value of the binding. -/
  | value
  /-- By the identity of the cell that holds the binding. -/
  | cell
  /-- By the `this` inherited from outside. -/
  | thisValue
deriving DecidableEq, Repr, Inhabited

def CaptureMode.text : CaptureMode → String
  | value => "value"
  | cell => "cell"
  | thisValue => "this"

structure Capture where
  /-- Absent for a capture of `this`. -/
  binding : Option BindingId
  name : String
  mode : CaptureMode
  /-- The scope that declares the binding or supplies `this`. -/
  source : ScopeId
deriving DecidableEq, Repr

/-- The captures of one definition, in order. -/
structure CaptureSpec where
  site : SiteId
  captures : List Capture
deriving DecidableEq, Repr

/-- The capture in the canonical text of its spec: mode, binding, scope and
name. -/
def Capture.text (c : Capture) : String :=
  let binding := match c.binding with
    | some b => b.index.repr
    | none => "-"
  "|" ++ c.mode.text ++ ":" ++ binding ++ ":" ++ c.source.index.repr ++ ":" ++ c.name

namespace CaptureSpec

def arity (s : CaptureSpec) : Nat := s.captures.length

def isEmpty (s : CaptureSpec) : Bool := s.captures.isEmpty

def capturesThis (s : CaptureSpec) : Bool := s.captures.any fun c => c.mode == .thisValue

def names (s : CaptureSpec) : List String := s.captures.map Capture.name

/-- The spec spelt out: the site, then every capture. -/
def canonicalText (s : CaptureSpec) : String :=
  "site=" ++ s.site.index.repr ++ String.join (s.captures.map Capture.text)

/-- The digest of the canonical text. -/
def fingerprint (s : CaptureSpec) : String :=
  "sha256:" ++ Sha256.hex (Sha256.digest s.canonicalText.toUTF8.toList)

end CaptureSpec

end ClosureCache
