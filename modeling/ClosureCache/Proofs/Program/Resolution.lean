/-
The steps of resolution, taken apart.

A computation of resolution that succeeds is one step after the other, and each step either
asks the scope tree or changes it.  Three inductions over the text rest on this: what
resolution does to its state (`Walk`), whether it succeeds and what comes out (`Acceptance`),
and that it reads no annotations (`Annotations`).  All else that is known of resolved programs
follows from these.
-/
import ClosureCache.Program.Functions
import ClosureCache.Program.Resolved

namespace ClosureCache

def functionsInOptional (e : Option Expression) : List FunctionNode :=
  e.elim [] Expression.functions

def functionsInAlternate (b : Option Block) : List FunctionNode := b.elim [] Block.functions

namespace ResolveM

variable {α β : Type} {st st' : Scoping}

theorem bind_eq_ok {x : ResolveM α} {f : α → ResolveM β} {r : β × Scoping} :
    (x >>= f) st = .ok r ↔ ∃ a st₁, x st = .ok (a, st₁) ∧ f a st₁ = .ok r := by
  show (x st >>= fun p => f p.1 p.2) = _ ↔ _
  cases x st with
  | error e =>
    refine ⟨fun h => ?_, fun ⟨a, st₁, h, _⟩ => ?_⟩
    · cases h
    · cases h
  | ok p =>
    refine ⟨fun h => ⟨p.1, p.2, rfl, h⟩, fun ⟨a, st₁, h, hf⟩ => ?_⟩
    obtain rfl := Except.ok.inj h
    exact hf

theorem pure_eq_ok {a b : α} : (pure a : ResolveM α) st = .ok (b, st') ↔ a = b ∧ st = st' :=
  ⟨fun h => Prod.mk.inj (Except.ok.inj h), fun ⟨ha, hst⟩ => by rw [ha, hst]; rfl⟩

theorem tree_eq_ok {t : ScopeTree} (h : tree st = .ok (t, st')) : st.tree = t ∧ st = st' :=
  Prod.mk.inj (Except.ok.inj h)

theorem ask_eq_ok {f : ScopeTree → Except ScopeError α} {a : α} :
    ask f st = .ok (a, st') ↔ f st.tree = .ok a ∧ st = st' := by
  rw [ask, bind_eq_ok]
  constructor
  · rintro ⟨t, st₁, htree, h⟩
    obtain ⟨rfl, rfl⟩ := tree_eq_ok htree
    cases hf : f st.tree with
    | error e =>
      rw [hf] at h
      cases h
    | ok b =>
      rw [hf] at h
      obtain ⟨rfl, rfl⟩ := pure_eq_ok.1 h
      exact ⟨rfl, rfl⟩
  · rintro ⟨hf, rfl⟩
    refine ⟨st.tree, st, rfl, ?_⟩
    rw [hf]
    rfl

theorem change_eq_ok {f : ScopeTree → Except ScopeError (α × ScopeTree)} {a : α}
    (h : change f st = .ok (a, st')) : ∃ t, f st.tree = .ok (a, t) ∧ st' = { st with
      tree := t } := by
  rw [change] at h
  obtain ⟨t, st₁, htree, h⟩ := bind_eq_ok.1 h
  obtain ⟨rfl, rfl⟩ := tree_eq_ok htree
  cases hf : f st.tree with
  | error e =>
    rw [hf] at h
    cases h
  | ok r =>
    obtain ⟨b, t⟩ := r
    rw [hf] at h
    obtain ⟨rfl, rfl⟩ := Prod.mk.inj (Except.ok.inj h)
    exact ⟨t, rfl, rfl⟩

/-- A change of the tree that gives no value. -/
theorem change_map_eq_ok {f : ScopeTree → Except ScopeError ScopeTree} {u : Unit}
    (h : change (fun t => (f t).map fun t => ((), t)) st = .ok (u, st')) :
    ∃ t, f st.tree = .ok t ∧ st' = { st with
      tree := t } := by
  obtain ⟨t, hf, rfl⟩ := change_eq_ok h
  cases hft : f st.tree with
  | error e =>
    rw [hft] at hf
    cases hf
  | ok t' =>
    rw [hft] at hf
    obtain rfl := (Prod.mk.inj (Except.ok.inj hf)).2
    exact ⟨t', rfl, rfl⟩

/-! ## Names -/

variable {scope : ScopeId}

theorem declareOwnName_name {kind : FunctionKind} {n n' : Option Identifier}
    (h : declareOwnName scope kind n st = .ok (n', st')) :
    n'.map Identifier.name = n.map Identifier.name := by
  cases n with
  | none =>
    obtain ⟨rfl, -⟩ := pure_eq_ok.1 h
    rfl
  | some i =>
    rw [declareOwnName] at h
    split at h
    · obtain ⟨t, st₁, htree, h⟩ := bind_eq_ok.1 h
      obtain ⟨rfl, rfl⟩ := tree_eq_ok htree
      cases hlookup : st.tree.lookupLocal scope i.name with
      | some _ =>
        rw [hlookup] at h
        obtain ⟨rfl, -⟩ := pure_eq_ok.1 h
        rfl
      | none =>
        rw [hlookup] at h
        obtain ⟨b, st₂, -, h⟩ := bind_eq_ok.1 h
        obtain ⟨rfl, -⟩ := pure_eq_ok.1 h
        rfl
    · obtain ⟨rfl, -⟩ := pure_eq_ok.1 h
      rfl

theorem bindName_name {n n' : Option Identifier} (h : bindName scope n st = .ok (n', st')) :
    n'.map Identifier.name = n.map Identifier.name := by
  cases n with
  | none =>
    obtain ⟨rfl, -⟩ := pure_eq_ok.1 h
    rfl
  | some i =>
    obtain ⟨b, st₁, -, h⟩ := bind_eq_ok.1 h
    obtain ⟨rfl, -⟩ := pure_eq_ok.1 h
    rfl

end ResolveM

/-- A program resolves just if its statements do at top level, from the empty tree. -/
theorem Program.resolve_eq_ok {p : Program} {r : ResolvedProgram} : p.resolve = .ok r ↔
    ∃ body st, resolveTopLevel p.body ⟨ScopeTree.initial, #[], []⟩ = .ok (body, st) ∧
      r = ⟨⟨body⟩, st.tree.finalizeMutability, st.sites⟩ := by
  rw [Program.resolve, StateT.run]
  cases resolveTopLevel p.body ⟨ScopeTree.initial, #[], []⟩ with
  | error e => exact ⟨fun h => (by cases h), fun ⟨_, _, h, _⟩ => (by cases h)⟩
  | ok result =>
    refine ⟨fun h => ⟨result.1, result.2, rfl, (Except.ok.inj h).symm⟩, ?_⟩
    rintro ⟨body, st, hrun, rfl⟩
    obtain rfl := Except.ok.inj hrun
    rfl

end ClosureCache
