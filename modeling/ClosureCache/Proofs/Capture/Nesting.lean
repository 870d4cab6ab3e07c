/-
What a shared definition captures inside another one.

The body of a definition refers to whatever the definitions inside it refer to, at every
depth: `Covered` says so of the definitions in a piece of code, together with the fact that
those inside a definition are among them.  So where two shared definitions stand one inside
the other, a binding that the inner one captures is declared inside the outer one or
captured by it as well, and a `this` from outside is the one that the outer one inherits.
-/
import ClosureCache.Proofs.Capture.Specs
import ClosureCache.Proofs.Evaluation.Image
import ClosureCache.Proofs.Program.Registration

namespace ClosureCache

/-! ## Definitions in a piece of code -/

/-- The references of the definitions `l` are among `refs`, and the definitions inside them
are among `l`. -/
def Covered (l : List FunctionNode) (refs : List Reference) : Prop :=
  ∀ f ∈ l, (∀ r ∈ f.references, r ∈ refs) ∧ ∀ g ∈ functionsInStatements f.body, g ∈ l

namespace Covered

variable {l l' : List FunctionNode} {refs refs' : List Reference}

theorem nil (refs : List Reference) : Covered [] refs := fun _ hf => absurd hf List.not_mem_nil

theorem append (a : Covered l refs) (b : Covered l' refs') : Covered (l ++ l') (refs ++ refs') := by
  intro f hf
  rcases List.mem_append.1 hf with hf | hf
  · obtain ⟨hrefs, hin⟩ := a f hf
    exact ⟨fun r hr => List.mem_append_left _ (hrefs r hr),
      fun g hg => List.mem_append_left _ (hin g hg)⟩
  · obtain ⟨hrefs, hin⟩ := b f hf
    exact ⟨fun r hr => List.mem_append_right _ (hrefs r hr),
      fun g hg => List.mem_append_right _ (hin g hg)⟩

theorem cons {node : FunctionNode}
    (a : Covered (functionsInStatements node.body) node.references) :
    Covered (node :: functionsInStatements node.body) node.references := by
  intro f hf
  rcases List.mem_cons.1 hf with rfl | hf
  · exact ⟨fun r hr => hr, fun g hg => List.mem_cons_of_mem _ hg⟩
  · obtain ⟨hrefs, hin⟩ := a f hf
    exact ⟨hrefs, fun g hg => List.mem_cons_of_mem _ (hin g hg)⟩

theorem more (a : Covered l refs) (h : ∀ r ∈ refs, r ∈ refs') : Covered l refs' := fun f hf =>
  ⟨fun r hr => h r ((a f hf).1 r hr), (a f hf).2⟩

end Covered

mutual

theorem Statement.covered : ∀ stmt : Statement, Covered stmt.functions stmt.references
  | .declaration _ _ none _ => .nil _
  | .declaration _ _ (some init) _ => by
    rw [Statement.functions, Statement.references]
    exact Expression.covered init
  | .function node => by
    rw [Statement.functions, Statement.references]
    exact FunctionNode.covered node
  | .expression e => by
    rw [Statement.functions, Statement.references]
    exact Expression.covered e
  | .returning none => .nil _
  | .returning (some e) => by
    rw [Statement.functions, Statement.references]
    exact Expression.covered e
  | .block b => by
    rw [Statement.functions, Statement.references]
    exact Block.covered b
  | .ifElse test consequent none => by
    rw [Statement.functions, Statement.references]
    exact (Expression.covered test).append (Block.covered consequent)
  | .ifElse test consequent (some alternate) => by
    rw [Statement.functions, Statement.references]
    exact ((Expression.covered test).append (Block.covered consequent)).append
      (Block.covered alternate)
  | .whileLoop test body => by
    rw [Statement.functions, Statement.references]
    exact (Expression.covered test).append (Block.covered body)

theorem covered_statements :
    ∀ l : List Statement, Covered (functionsInStatements l) (referencesInStatements l)
  | [] => .nil _
  | stmt :: rest => by
    rw [functionsInStatements, referencesInStatements]
    exact (Statement.covered stmt).append (covered_statements rest)

theorem Block.covered : ∀ b : Block, Covered b.functions b.references
  | ⟨body, _⟩ => by
    rw [Block.functions, Block.references]
    exact covered_statements body

theorem FunctionNode.covered : ∀ node : FunctionNode, Covered node.functions node.references
  | ⟨_, _, _, _, _, _, body, _, _, _, _⟩ => by
    rw [FunctionNode.functions, FunctionNode.references]
    exact .cons (covered_statements body)

theorem Expression.covered : ∀ e : Expression, Covered e.functions e.references
  | .literal _ => .nil _
  | .identifier _ => .nil _
  | .this _ => .nil _
  | .object properties => by
    rw [Expression.functions, Expression.references]
    exact covered_properties properties
  | .array elements => by
    rw [Expression.functions, Expression.references]
    exact covered_expressions elements
  | .member object _ => by
    rw [Expression.functions, Expression.references]
    exact Expression.covered object
  | .setMember object _ value => by
    rw [Expression.functions, Expression.references]
    exact (Expression.covered object).append (Expression.covered value)
  | .call callee arguments => by
    rw [Expression.functions, Expression.references]
    exact (Expression.covered callee).append (covered_expressions arguments)
  | .assign target value => by
    rw [Expression.functions, Expression.references]
    exact (Expression.covered value).more fun r hr => List.mem_append_left _ hr
  | .binary _ left right => by
    rw [Expression.functions, Expression.references]
    exact (Expression.covered left).append (Expression.covered right)
  | .function node => by
    rw [Expression.functions, Expression.references]
    exact FunctionNode.covered node
  | .dynamicEval _ => .nil _

theorem covered_expressions :
    ∀ l : List Expression, Covered (functionsInExpressions l) (referencesInExpressions l)
  | [] => .nil _
  | e :: rest => by
    rw [functionsInExpressions, referencesInExpressions]
    exact (Expression.covered e).append (covered_expressions rest)

theorem covered_properties : ∀ l : List (String × Expression),
    Covered (functionsInProperties l) (referencesInProperties l)
  | [] => .nil _
  | (_, e) :: rest => by
    rw [functionsInProperties, referencesInProperties]
    exact (Expression.covered e).append (covered_properties rest)

end

theorem AnalysisTable.get?_of_spec? {table : AnalysisTable} {site : SiteId} {spec : CaptureSpec}
    (h : table.spec? site = some spec) : table.get? site = some (.memoized spec) := by
  obtain ⟨a, ha, hspec⟩ := Option.bind_eq_some_iff.1 h
  cases a with
  | memoized s => rw [ha, Option.some.inj hspec]
  | unmemoized reason => cases hspec

/-! ## One definition inside another -/

namespace FunctionNode

variable {t : ScopeTree} {own inner : ScopeId} {P : BindingId → Prop} {f g : FunctionNode}
  {bindings : List Capture} {this : Option Capture}

theorem Captures.eq_this (hg : g.Captures t own bindings this) (harrow : g.kind = .arrow)
    {path : List Nat} {p : ScopeId} (hp : (Code.definition g).TakesThis t own path p) :
    this = some ⟨none, "this", .thisValue, p⟩ := by
  obtain ⟨c, hc⟩ := Option.isSome_iff_exists.1 (hg.this_iff.2 ⟨harrow, path, p, hp⟩)
  obtain ⟨q, rfl, hunique⟩ := hg.this_eq c hc
  rw [hc, hunique path p hp]

theorem Captures.takesThis (hf : f.Captures t own bindings this) {c : Capture}
    (hc : this = some c) : ∃ path p, (Code.definition f).TakesThis t own path p ∧
      c = ⟨none, "this", .thisValue, p⟩ := by
  obtain ⟨-, path, p, hp⟩ := hf.this_iff.1 (hc ▸ rfl)
  obtain ⟨q, rfl, hunique⟩ := hf.this_eq c hc
  exact ⟨path, p, hp, by rw [hunique path p hp]⟩

/-- What a shared definition captures that stands inside another shared one. -/
theorem Settled.nested (hg : g.Settled P t own) (hf : f.Settled P t inner) (ht : t.Proper)
    (hrefs : ∀ r ∈ f.references, r ∈ g.references) {outerSpec innerSpec : CaptureSpec}
    (hspecg : ClosureCache.analyzeSite t g = .ok (.memoized outerSpec))
    (hspecf : ClosureCache.analyzeSite t f = .ok (.memoized innerSpec)) {c : Capture}
    (hc : c ∈ innerSpec.captures) :
    (∀ b, c.binding = some b →
      ∃ d, t.binding? b = some d ∧ (t.Inside own d.scope ∨ c ∈ outerSpec.captures)) ∧
    (c.mode = .thisValue → ¬ t.Inside own c.source →
      g.kind = .arrow ∧ c ∈ outerSpec.captures) := by
  obtain ⟨-, bindings, this, hgcaptures, hgspec⟩ := hg.captures_of_memoized ht hspecg
  obtain ⟨-, bindings', this', hfcaptures, hfspec⟩ := hf.captures_of_memoized ht hspecf
  -- a reference in the inner definition has a place in the outer one
  have hplace : ∀ {r path}, (Code.definition f).Occurs path r →
      r ∈ g.references ∧ ∃ path', (Code.definition g).Occurs path' r := fun hocc => by
    have hr := hrefs _ ((Code.enumerated_definition f).mem_iff.2 ⟨_, hocc⟩)
    exact ⟨hr, (Code.enumerated_definition g).mem_iff.1 hr⟩
  rw [hgspec]
  rcases hfcaptures.mem_cases (hfspec ▸ hc) with ⟨path, b, d, hout, rfl⟩ | hthis
  · refine ⟨fun b' hb => ?_, fun hmode => ?_⟩
    · obtain rfl := Option.some.inj hb
      refine ⟨d, hout.declared, or_iff_not_imp_left.2 fun houter => ?_⟩
      obtain ⟨-, path', hocc⟩ := hplace hout.occurs
      refine List.mem_append_left _ ((hgcaptures.mem_iff _).2 ⟨path', b, d, ?_, rfl⟩)
      exact ⟨hocc, hout.declared, houter⟩
    · rw [Capture.ofBinding] at hmode
      split at hmode <;> cases hmode
  · obtain ⟨path, p, htakes, rfl⟩ := hfcaptures.takesThis hthis
    refine ⟨fun b hb => (by cases hb), fun _ houter => ?_⟩
    obtain ⟨hr, path', hocc⟩ := hplace htakes.occurs
    obtain ⟨-, harrow⟩ := hg.nearest_supplier ht hr fun hin =>
      houter ((hg.inside_supplier ht hr).2 hin)
    have hkind : g.kind = .arrow := beq_iff_eq.1 harrow
    rw [hgcaptures.eq_this hkind ⟨hocc, houter⟩]
    exact ⟨hkind, List.mem_append_right _ List.mem_cons_self⟩

end FunctionNode

/-- Of two shared definitions, one inside the other at any depth: a binding that the inner one
captures is declared in the scope of the outer one or in a scope nested in that, or the outer one
captures it in the same mode; and if the inner one captures a `this` from outside of that scope,
the outer one is an arrow that captures the same `this`. -/
theorem Program.nested_captures {p : Program} {r : ResolvedProgram} {table : AnalysisTable}
    (hresolve : p.resolve = .ok r) (hanalyze : r.analyze = .ok table) {g f : FunctionNode}
    (hg : g ∈ r.program.functions) (hf : f ∈ functionsInStatements g.body)
    {outerSite innerSite : SiteId} {own : ScopeId} (hgsite : g.site = some outerSite)
    (hfsite : f.site = some innerSite) (hown : g.scope = some own)
    {outerSpec innerSpec : CaptureSpec} (hgspec : table.get? outerSite = some (.memoized outerSpec))
    (hfspec : table.get? innerSite = some (.memoized innerSpec)) :
    (∀ c ∈ innerSpec.captures, ∀ b, c.binding = some b → ∃ d, r.tree.binding? b = some d ∧
      (r.tree.Inside own d.scope ∨ c ∈ outerSpec.captures)) ∧
    (∀ c ∈ innerSpec.captures, c.mode = .thisValue → ¬ r.tree.Inside own c.source →
      g.kind = .arrow ∧ c ∈ outerSpec.captures) := by
  have hsettled := Program.settled_of_resolve (P := fun _ => True) hresolve fun _ _ _ _ => trivial
  have hin : f ∈ r.program.functions := (covered_statements r.program.body g hg).2 f hf
  have hrefs : ∀ x ∈ f.references, x ∈ g.references := by
    rw [g.references_eq]
    exact (covered_statements g.body f hf).1
  obtain ⟨own', hgsettled⟩ := hsettled.functions g hg
  obtain rfl := Option.some.inj (hgsettled.scope.symm.trans hown)
  obtain ⟨inner, hfsettled⟩ := hsettled.functions f hin
  have hanalyzed : ∀ {x site a}, x ∈ r.program.functions → x.site = some site →
      table.get? site = some a → analyzeSite r.tree x = .ok a := by
    intro x site a hx hsite ha
    obtain ⟨site', a', hsite', ha', hget⟩ := ResolvedProgram.analyze_spec
      (Program.numbered_of_resolve hresolve).distinctSites hanalyze x hx
    obtain rfl := Option.some.inj (hsite.symm.trans hsite')
    obtain rfl := Option.some.inj (ha.symm.trans hget)
    exact ha'
  have hnested := fun c => hgsettled.nested hfsettled hsettled.proper hrefs
    (hanalyzed hg hgsite hgspec) (hanalyzed hin hfsite hfspec) (c := c)
  exact ⟨fun c hc => (hnested c hc).1, fun c hc => (hnested c hc).2⟩

/-- A function with a shared arrow, in that a block with an arrow that is not shared, and in
that a shared arrow which uses names of all of them. -/
def nesting : Program where
  body :=
    let name (s : String) : Identifier := ⟨s, .unresolved⟩
    let span : SourceSpan := ⟨0, 0, 0, 0, 0, 0⟩
    let arrow (memoized : Bool) (params : List Identifier) (body : List Statement) : Expression :=
      .function ⟨none, .arrow, .plain, memoized, params, none, body, span, none, none, none⟩
    let inner := arrow true []
      [.expression (.assign (name "count")
          (.binary .add (.identifier (name "step")) (.identifier (name "by")))),
        .expression (.identifier (name "base")), .returning (some (.this none))]
    let outer := arrow true [name "by"]
      [.block ⟨[.declaration .constDeclaration (name "base") (some (.literal (.number 1))) .slot,
        .expression (arrow false [] [.returning (some inner)])], none⟩]
    [.function ⟨some (name "counter"), .declaration, .plain, false, [], none,
      [.declaration .letDeclaration (name "count") (some (.literal (.number 0))) .cell,
        .declaration .constDeclaration (name "step") (some (.literal (.number 1))) .slot,
        .returning (some outer)],
      span, none, none, none⟩]

theorem isSome_resolve_nesting : nesting.resolve.toOption.isSome = true := by
  decide +kernel

def nestingResolved : ResolvedProgram := nesting.resolve.toOption.get isSome_resolve_nesting

theorem isSome_analyze_nesting : nestingResolved.analyze.toOption.isSome = true := by
  decide +kernel

def nestingOuter : FunctionNode := nestingResolved.program.functions.get ⟨1, by decide +kernel⟩

def nestingInner : FunctionNode :=
  (functionsInStatements nestingOuter.body).get ⟨1, by decide +kernel⟩

def nestingTable : AnalysisTable := nestingResolved.analyze.toOption.get isSome_analyze_nesting

/-- The inner arrow captures two names of the outer one and, like the outer one, two names and
the `this` of the function around both. -/
theorem nested_captures_nesting : ∃ outerSpec innerSpec,
    nestingResolved.analyze = .ok nestingTable ∧
    nestingTable.get? ⟨1⟩ = some (.memoized outerSpec) ∧
    nestingTable.get? ⟨3⟩ = some (.memoized innerSpec) ∧
    innerSpec.names = ["step", "by", "count", "base", "this"] ∧
    ∀ c ∈ innerSpec.captures, c.source = ⟨1⟩ → c ∈ outerSpec.captures := by
  have hresolve : nesting.resolve = .ok nestingResolved :=
    Except.eq_ok_get isSome_resolve_nesting
  have hanalyze : nestingResolved.analyze = .ok nestingTable :=
    Except.eq_ok_get isSome_analyze_nesting
  obtain ⟨outerSpec, houter⟩ := Option.isSome_iff_exists.1
    (by decide +kernel : (nestingTable.spec? ⟨1⟩).isSome = true)
  obtain ⟨innerSpec, hinner⟩ := Option.isSome_iff_exists.1
    (by decide +kernel : (nestingTable.spec? ⟨3⟩).isSome = true)
  have hparts : innerSpec.names = ["step", "by", "count", "base", "this"] ∧
      ∀ c ∈ innerSpec.captures, (∀ b ∈ c.binding, ∀ d ∈ nestingResolved.tree.binding? b,
        d.scope = c.source) ∧ (c.binding = none → c.mode = .thisValue) := by
    have hall : ∀ spec ∈ nestingTable.spec? ⟨3⟩,
        spec.names = ["step", "by", "count", "base", "this"] ∧
          ∀ c ∈ spec.captures, (∀ b ∈ c.binding, ∀ d ∈ nestingResolved.tree.binding? b,
            d.scope = c.source) ∧ (c.binding = none → c.mode = .thisValue) := by
      decide +kernel
    exact hall _ hinner
  have hout : ¬ nestingResolved.tree.Inside ⟨2⟩ ⟨1⟩ := by
    have ht := (Program.settled_of_resolve (P := fun _ => True) hresolve
      fun _ _ _ _ => trivial).proper
    obtain ⟨sc, hsc⟩ := Option.isSome_iff_exists.1
      (by decide +kernel : (nestingResolved.tree.scope? ⟨1⟩).isSome = true)
    rw [ht.inside_iff hsc]
    decide +kernel
  have houter' := AnalysisTable.get?_of_spec? houter
  have hinner' := AnalysisTable.get?_of_spec? hinner
  have hown : nestingOuter.scope = some ⟨2⟩ := by decide +kernel
  obtain ⟨hbindings, hthis⟩ := Program.nested_captures hresolve hanalyze
    (g := nestingOuter) (f := nestingInner) (List.getElem_mem _) (List.getElem_mem _)
    (by decide +kernel) (by decide +kernel) hown houter' hinner'
  refine ⟨outerSpec, innerSpec, hanalyze, houter', hinner', hparts.1, fun c hc hsource => ?_⟩
  obtain ⟨hplaced, hmode⟩ := hparts.2 c hc
  cases hb : c.binding with
  | none => exact (hthis c hc (hmode hb) (hsource ▸ hout)).2
  | some b =>
    obtain ⟨d, hd, hcovered⟩ := hbindings c hc b hb
    have hscope : d.scope = ⟨1⟩ := (hplaced b hb d hd).trans hsource
    exact hcovered.resolve_left (hscope ▸ hout)

end ClosureCache
