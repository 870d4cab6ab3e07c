/-
The numbers by which scopes, bindings, definition sites, heap objects and weak
references are known.

Each is a type of its own over `Nat`, so that the index of a scope is never
taken for the index of a binding.  Definition sites and heap objects are also
keys of sorted maps, and are ordered by their number.
-/
namespace ClosureCache

/-- Position of a scope in its scope tree. -/
structure ScopeId where
  index : Nat
deriving DecidableEq, Repr, Inhabited

/-- Position of a binding in its scope tree. -/
structure BindingId where
  index : Nat
deriving DecidableEq, Repr, Inhabited

/-- Number of a function definition, counted in the order of the text. -/
structure SiteId where
  index : Nat
deriving DecidableEq, Repr, Inhabited

/-- Number of a heap object.  Numbers are given out once and never again. -/
structure ObjectId where
  index : Nat
deriving DecidableEq, Repr, Inhabited

/-- Number of a weak reference registered with a heap. -/
structure WeakHandle where
  index : Nat
deriving DecidableEq, Repr, Inhabited

/-! ## Written forms -/

def ScopeId.text (s : ScopeId) : String := "scope-" ++ s.index.repr

def BindingId.text (b : BindingId) : String := "binding-" ++ b.index.repr

def SiteId.text (s : SiteId) : String := "site-" ++ s.index.repr

def ObjectId.text (o : ObjectId) : String := "obj-" ++ o.index.repr

/-! ## Order by number -/

instance : Ord SiteId := ⟨compareOn SiteId.index⟩

instance : Std.TransOrd SiteId := inferInstanceAs (Std.TransCmp (compareOn SiteId.index))

instance : Std.LawfulEqOrd SiteId where
  compare_self := Std.ReflOrd.compare_self (α := Nat)
  eq_of_compare {a b} h := by
    cases a; cases b
    exact congrArg SiteId.mk (Std.LawfulEqOrd.eq_of_compare h)

instance : Ord ObjectId := ⟨compareOn ObjectId.index⟩

instance : Std.TransOrd ObjectId := inferInstanceAs (Std.TransCmp (compareOn ObjectId.index))

instance : Std.LawfulEqOrd ObjectId where
  compare_self := Std.ReflOrd.compare_self (α := Nat)
  eq_of_compare {a b} h := by
    cases a; cases b
    exact congrArg ObjectId.mk (Std.LawfulEqOrd.eq_of_compare h)

end ClosureCache
