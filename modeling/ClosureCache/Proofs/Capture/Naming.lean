/-
The names of captures.

Shadowing lets one name stand for many bindings in the body of a definition, but only for
one from outside of it.  Whatever the body refers to is what its name denotes in a scope
within that of the definition.  A search outwards from there that ends outside has passed
the scope of the definition, so a search from that scope ends at the same binding, and no
two captures share a name.
-/
import ClosureCache.Proofs.Capture.Specs
import ClosureCache.Proofs.Program.Definitions

namespace ClosureCache

/-! ## Names from outside -/

namespace ScopeTree

variable {t : ScopeTree} {s own : ScopeId} {b : BindingId} {d : Binding} {name : String}

/-- What a name denotes has that name. -/
theorem name_of_resolve (hb : t.resolve s name = some b) (hd : t.binding? b = some d) :
    d.name = name := by
  obtain ⟨a, -, hlookup⟩ := List.exists_of_findSome?_eq_some hb
  exact name_of_lookupLocal hlookup hd

/-- A name that denotes in a scope within `own` what is declared outside of `own` denotes
the same in `own`. -/
theorem Proper.resolve_own (ht : t.Proper) {a : ScopeId} {sc : Scope} (hs : t.scope? a = some sc)
    (ha : own ∈ t.outward a) (hb : t.resolve a name = some b) (hd : t.binding? b = some d)
    (hout : ¬t.Inside own d.scope) : t.resolve own name = some b := by
  have hnot : own ∉ t.outward d.scope := by
    obtain ⟨-, sc, hsc, -⟩ := ht.placed b d hd
    rwa [ht.inside_iff hsc] at hout
  refine ht.outward_induction (P := fun a => own ∈ t.outward a → t.resolve a name = some b →
    t.resolve own name = some b) (fun a sca hsca ih ha hb => ?_) hs ha hb
  rcases (ht.mem_outward hsca).1 ha with rfl | ⟨p, hp, hin⟩
  · exact hb
  · rw [ht.resolve_eq hsca, hp, Option.bind_some] at hb
    cases hlookup : t.lookupLocal a name with
    | none =>
      rw [hlookup, Option.none_or] at hb
      exact ih p hp hin hb
    | some found =>
      -- a declaration found here would not be outside
      rw [hlookup, Option.some_or] at hb
      obtain rfl := Option.some.inj hb
      obtain ⟨d', hd', rfl⟩ := ht.lookupLocal_spec hlookup
      obtain rfl := Option.some.inj (hd.symm.trans hd')
      exact absurd ha hnot

end ScopeTree

/-! ## Names of captures -/

/-- The captures of a spec have the names of their bindings, and those of different bindings
have different names. -/
structure CaptureSpec.WellNamed (t : ScopeTree) (spec : CaptureSpec) : Prop where
  declared : ∀ c ∈ spec.captures, ∀ b, c.binding = some b →
    ∃ d, t.binding? b = some d ∧ d.name = c.name
  distinct : ∀ c ∈ spec.captures, ∀ c' ∈ spec.captures, ∀ b b', c.binding = some b →
    c'.binding = some b' → b ≠ b' → c.name ≠ c'.name

namespace CaptureSpec.WellNamed

variable {t : ScopeTree} {spec : CaptureSpec} {c c' : Capture} {b b' : BindingId} {d d' : Binding}

theorem name_eq (hn : spec.WellNamed t) (hc : c ∈ spec.captures) (hb : c.binding = some b)
    (hd : t.binding? b = some d) : d.name = c.name := by
  obtain ⟨d', hd', hname⟩ := hn.declared c hc b hb
  rwa [Option.some.inj (hd.symm.trans hd')]

theorem binding_eq (hn : spec.WellNamed t) (hc : c ∈ spec.captures) (hc' : c' ∈ spec.captures)
    (hb : c.binding = some b) (hb' : c'.binding = some b') (hname : c.name = c'.name) : b = b' :=
  by_contra fun hne => hn.distinct c hc c' hc' b b' hb hb' hne hname

end CaptureSpec.WellNamed

section Captures

variable {p : Program} {r : ResolvedProgram} {g : FunctionNode} {own : ScopeId}
  {spec : CaptureSpec}

/-- A captured binding is what its name denotes in the scope of the definition. -/
theorem Program.resolve_capture (hresolve : p.resolve = .ok r) (hg : g ∈ r.program.functions)
    (hown : g.scope = some own) (hspec : analyzeSite r.tree g = .ok (.memoized spec)) {c : Capture}
    (hc : c ∈ spec.captures) {b : BindingId} (hb : c.binding = some b) :
    (∃ d, r.tree.binding? b = some d ∧ d.name = c.name) ∧
      r.tree.resolve own c.name = some b := by
  have hresolved := Program.resolved_of_resolve hresolve
  have ht := hresolved.proper
  obtain ⟨own', hsettled⟩ := (Program.settled_of_resolve (P := fun _ => True) hresolve
    fun _ _ _ _ => trivial).functions g hg
  obtain rfl := Option.some.inj (hown.symm.trans hsettled.scope)
  obtain ⟨-, bindings, this, hcaptures, hlist⟩ := hsettled.captures_of_memoized ht hspec
  rcases hcaptures.mem_cases (hlist ▸ hc) with ⟨path, b', d, hout, rfl⟩ | hthis
  · obtain rfl := Option.some.inj hb
    obtain ⟨g₀, -, helaborated⟩ := hresolved.definition hg
    obtain ⟨a, sc, hsc, ha, name, hname⟩ := helaborated.exists_place ht hown hout.occurs
    obtain rfl := ScopeTree.name_of_resolve hname hout.declared
    exact ⟨⟨d, hout.declared, rfl⟩, ht.resolve_own hsc ha hname hout.declared hout.outside⟩
  · obtain ⟨q, rfl, -⟩ := hcaptures.this_eq c hthis
    cases hb

/-- The captures of a definition that analysis shares are well named. -/
theorem Program.wellNamed_of_analyzeSite (hresolve : p.resolve = .ok r)
    (hg : g ∈ r.program.functions) (hspec : analyzeSite r.tree g = .ok (.memoized spec)) :
    spec.WellNamed r.tree := by
  obtain ⟨own, hsettled⟩ := (Program.settled_of_resolve (P := fun _ => True) hresolve
    fun _ _ _ _ => trivial).functions g hg
  have hcapture := fun {c b} (hc : c ∈ spec.captures) (hb : c.binding = some b) =>
    Program.resolve_capture hresolve hg hsettled.scope hspec hc hb
  refine ⟨fun c hc b hb => (hcapture hc hb).1, fun c hc c' hc' b b' hb hb' hne hname => hne ?_⟩
  -- one name denotes one binding in the scope of the definition
  have hresolved := (hcapture hc hb).2
  rw [hname, (hcapture hc' hb').2] at hresolved
  exact (Option.some.inj hresolved).symm

end Captures

end ClosureCache
