/-
The outcome of a step of resolution.

`Decides` says both ways what a step does: it succeeds exactly when a condition on the
program is met, its result is then as stated, and where it fails the error is one about the
program.  The rules come first, then the single steps.  A step that declares in a scope is
decided by whether the declarations of the scope are compatible; all other steps succeed
where they are taken, but for the assignment.
-/
import ClosureCache.Proofs.Program.Elaboration
import ClosureCache.Proofs.Program.Resolution

namespace ClosureCache

/-- Whether an error says that resolution itself went wrong. -/
def ResolveError.isInternal : ResolveError → Bool
  | .scope (.unknownScope _) => true
  | .scope (.unknownBinding _) => true
  | .missingDeclaration _ => true
  | _ => false

/-- The step `x` from `st` succeeds exactly when `W` holds, with a result as `Q` says, and
does not fail for internal reasons. -/
def Decides {α : Type} (x : ResolveM α) (st : Scoping) (W : Prop) (Q : α → Scoping → Prop) :
    Prop :=
  match x st with
  | .ok (a, st') => W ∧ Q a st'
  | .error e => ¬W ∧ e.isInternal = false

namespace Decides

variable {α β : Type} {x : ResolveM α} {f : α → ResolveM β} {st : Scoping} {W V : Prop}
  {Q R : α → Scoping → Prop} {Q' : β → Scoping → Prop}

theorem of_ok {a : α} {st' : Scoping} (h : x st = .ok (a, st')) (hw : W) (hq : Q a st') :
    Decides x st W Q := by
  rw [Decides, h]
  exact ⟨hw, hq⟩

theorem of_error {e : ResolveError} (h : x st = .error e) (hw : ¬W) (he : e.isInternal = false) :
    Decides x st W Q := by
  rw [Decides, h]
  exact ⟨hw, he⟩

/-- The same outcome under an equivalent condition, with less said of the result. -/
theorem imp (h : Decides x st W Q) (hw : W ↔ V) (hq : ∀ a st', W → Q a st' → R a st') :
    Decides x st V R := by
  rw [Decides] at h ⊢
  cases hx : x st with
  | error e =>
    rw [hx] at h
    exact ⟨fun hw' => h.1 (hw.2 hw'), h.2⟩
  | ok p =>
    rw [hx] at h
    exact ⟨hw.1 h.1, hq _ _ h.1 h.2⟩

theorem bind (hx : Decides x st W Q) (hf : ∀ a st', W → Q a st' → Decides (f a) st' V Q') :
    Decides (x >>= f) st (W ∧ V) Q' := by
  rw [Decides] at hx ⊢
  have hbind : (x >>= f) st = x st >>= fun p => f p.1 p.2 := rfl
  rw [hbind]
  cases hr : x st with
  | error e =>
    rw [hr] at hx
    exact ⟨fun h => hx.1 h.1, hx.2⟩
  | ok p =>
    rw [hr] at hx
    have hnext := hf p.1 p.2 hx.1 hx.2
    rw [Decides] at hnext
    show match f p.1 p.2 with
      | .ok (a, st') => (W ∧ V) ∧ Q' a st'
      | .error e => ¬(W ∧ V) ∧ e.isInternal = false
    cases hs : f p.1 p.2 with
    | error e =>
      rw [hs] at hnext
      exact ⟨fun h => hnext.1 h.2, hnext.2⟩
    | ok q =>
      rw [hs] at hnext
      exact ⟨⟨hx.1, hnext.1⟩, hnext.2⟩

/-- A first step whose condition is part of the whole one. -/
theorem first (hx : Decides x st W Q) (hw : V → W)
    (hf : ∀ a st', W → Q a st' → Decides (f a) st' V Q') : Decides (x >>= f) st V Q' :=
  (hx.bind hf).imp ⟨And.right, fun h => ⟨hw h, h⟩⟩ fun _ _ _ h => h

/-- A last step, whose result is put into the whole. -/
theorem last {g : α → β} (hx : Decides x st W Q) (hq : ∀ a st', W → Q a st' → Q' (g a) st') :
    Decides (x >>= fun a => pure (g a)) st W Q' :=
  (hx.bind (V := True) fun a st' hw h => of_ok rfl trivial (hq a st' hw h)).imp
    (and_iff_left trivial) fun _ _ _ h => h

end Decides

/-! ## Stretches of resolution -/

/-- Scopes with the numbers from `k` on, as many as it takes to reach `k'`. -/
def OpenedFrom (k : Nat) (l : List (Option ScopeId)) (k' : Nat) : Prop :=
  l = (List.range' k l.length).map (fun i => some ⟨i⟩) ∧ k' = k + l.length

theorem openedFrom_nil (k : Nat) : OpenedFrom k [] k := ⟨rfl, rfl⟩

theorem OpenedFrom.append {k k₁ k₂ : Nat} {l l' : List (Option ScopeId)} (hl : OpenedFrom k l k₁)
    (hl' : OpenedFrom k₁ l' k₂) : OpenedFrom k (l ++ l') k₂ := by
  obtain ⟨hl, rfl⟩ := hl
  obtain ⟨hl', rfl⟩ := hl'
  refine ⟨?_, by rw [List.length_append]; omega⟩
  rw [List.length_append, ← List.range'_append_1, List.map_append, ← hl, ← hl']

theorem OpenedFrom.cons {k k' : Nat} {l : List (Option ScopeId)} (hl : OpenedFrom (k + 1) l k') :
    OpenedFrom k (some ⟨k⟩ :: l) k' := by
  have hfirst : OpenedFrom k [some ⟨k⟩] (k + 1) := ⟨rfl, rfl⟩
  exact hfirst.append hl

/-- What a stretch of resolution leaves that opens the given scopes and makes `B` true of
every tree in which nothing more is declared in the scopes there are. -/
structure Annotates (st st' : Scoping) (scopes : List (Option ScopeId)) (B : ScopeTree → Prop) :
    Prop where
  proper : st'.tree.Proper
  extended : st.tree.Extends st'.tree
  opened : OpenedFrom st.tree.scopes.size scopes st'.tree.scopes.size
  bound : ∀ t, st'.tree.Extends t → t.Proper → B t

namespace Annotates

variable {st st₁ st₂ : Scoping} {l l' : List (Option ScopeId)} {B C : ScopeTree → Prop}

theorem refl (ht : st.tree.Proper) (hB : ∀ t, st.tree.Extends t → t.Proper → B t) :
    Annotates st st [] B := ⟨ht, .refl _, openedFrom_nil _, hB⟩

theorem trans (a : Annotates st st₁ l B) (b : Annotates st₁ st₂ l' C) :
    Annotates st st₂ (l ++ l') fun t => B t ∧ C t where
  proper := b.proper
  extended := a.extended.trans b.extended
  opened := a.opened.append b.opened
  bound t he ht := ⟨a.bound t (b.extended.trans he) ht, b.bound t he ht⟩

theorem imp (a : Annotates st st₁ l B) (h : ∀ t, B t → C t) : Annotates st st₁ l C :=
  ⟨a.proper, a.extended, a.opened, fun t he ht => h t (a.bound t he ht)⟩

/-- A step after which no more scopes are open than before. -/
theorem andThen (a : Annotates st st₁ l B) (b : Annotates st₁ st₂ [] C) :
    Annotates st st₂ l fun t => B t ∧ C t := by
  have h := a.trans b
  rwa [List.append_nil] at h

end Annotates

/-! ## Where code stands -/

namespace ScopeTree

variable {t t' : ScopeTree} {s p : ScopeId} {sc : Scope} {name : String}
  {ctx : List (List Declared)} {ds vars lexs : List Declared}

/-- What a name denotes in a scope is a binding that is never assigned. -/
def Fixes (t : ScopeTree) (s : ScopeId) (name : String) : Prop :=
  ∃ b d, t.resolve s name = some b ∧ t.binding? b = some d ∧ d.kind.isImmutable = true

theorem Extends.fixes_iff (he : t.Extends t') (ht : t.Proper) (ht' : t'.Proper)
    (hs : t.scope? s = some sc) : t'.Fixes s name ↔ t.Fixes s name := by
  constructor
  · rintro ⟨b, d', hb, hd', hkind⟩
    rw [he.resolve_eq ht ht' hs] at hb
    obtain ⟨d, hd, -⟩ := ht.resolve_spec hb
    obtain ⟨d'', hd'', -, hsame⟩ := he.same b d hd
    obtain rfl := Option.some.inj (hd'.symm.trans hd'')
    exact ⟨b, d, hb, hd, hsame ▸ hkind⟩
  · rintro ⟨b, d, hb, hd, hkind⟩
    obtain ⟨d', hd', -, hsame⟩ := he.same b d hd
    exact ⟨b, d', by rw [he.resolve_eq ht ht' hs, hb], hd', hsame ▸ hkind⟩

theorem Extends.meaning_eq (he : t.Extends t') (ht : t.Proper) (ht' : t'.Proper)
    (hs : t.scope? s = some sc) : t'.meaning s name = t.meaning s name := by
  rw [meaning, meaning, he.resolve_eq ht ht' hs]

/-- Code may stand in the scope `s`, the scopes around which declare what `ctx` lists. -/
structure Stands (t : ScopeTree) (s : ScopeId) (ctx : List (List Declared)) : Prop where
  proper : t.Proper
  opened : ∃ sc, t.scope? s = some sc
  assignable : ∀ name, Assignable ctx name ↔ ¬t.Fixes s name

theorem Stands.later (hs : t.Stands s ctx) (he : t.Extends t') (ht' : t'.Proper) :
    t'.Stands s ctx := by
  obtain ⟨sc, hsc⟩ := hs.opened
  obtain ⟨sc', hsc', -⟩ := he.scope s sc hsc
  exact ⟨ht', ⟨sc', hsc'⟩, fun name =>
    (hs.assignable name).trans (not_congr (he.fixes_iff hs.proper ht' hsc).symm)⟩

theorem Stands.congr (hs : t.Stands s ctx) {ctx' : List (List Declared)}
    (h : ∀ name, Assignable ctx name ↔ Assignable ctx' name) : t.Stands s ctx' :=
  ⟨hs.proper, hs.opened, fun name => (h name).symm.trans (hs.assignable name)⟩

/-- A scope that has taken its declarations, inside of scopes that have. -/
theorem Takes.stands (h : t.Takes s ds) (hs : t.scope? s = some sc)
    (houter : ∀ name, Assignable ctx name ↔ ¬∃ p, sc.parent = some p ∧ t.Fixes p name) :
    t.Stands s (ds :: ctx) := by
  refine ⟨h.proper, h.opened, fun name => ?_⟩
  cases hlookup : t.lookupLocal s name with
  | some b =>
    obtain ⟨c, hc, d, hd, hname, hkind⟩ := h.holds.origin name b hlookup
    have hfixes : t.Fixes s name ↔ d.kind.isImmutable = true := by
      rw [← hkind]
      have hresolve : t.resolve s name = some b := by
        rw [h.proper.resolve_eq hs, hlookup, Option.some_or]
      constructor
      · rintro ⟨b', c', hb', hc', himmutable⟩
        obtain rfl := Option.some.inj (hresolve.symm.trans hb')
        obtain rfl := Option.some.inj (hc.symm.trans hc')
        exact himmutable
      · exact fun himmutable => ⟨b, c, hresolve, hc, himmutable⟩
    rw [assignable_of_declares ⟨d, hd, hname⟩, hfixes, Bool.not_eq_true,
      BindingKind.isImmutable_eq_false]
    refine ⟨fun hall => hall d hd hname, fun hne d' hd' hname' => ?_⟩
    by_cases heq : d' = d
    · exact heq ▸ hne
    · have hmeet := h.compatible.mayMeet hd' hd heq (hname'.trans hname.symm)
      have := ((BindingKind.mayMeet_iff _ _).1 hmeet).1
      cases hk : d'.kind <;> simp [hk, BindingKind.isRepeatable] at this <;> simp
  | none =>
    have hnot : ¬∃ d ∈ ds, d.name = name := by
      rintro ⟨d, hd, hname⟩
      exact h.holds.lookup_eq_none.1 hlookup d hd hname
    rw [assignable_of_not_declares hnot, houter]
    refine not_congr ⟨?_, ?_⟩
    · rintro ⟨p, hp, b, d, hb, hd⟩
      exact ⟨b, d, by rw [h.proper.resolve_eq hs, hlookup, hp]; exact hb, hd⟩
    · rintro ⟨b, d, hb, hd⟩
      rw [h.proper.resolve_eq hs, hlookup, Option.none_or] at hb
      obtain ⟨p, hp, hb⟩ := Option.bind_eq_some_iff.1 hb
      exact ⟨p, hp, b, d, hb, hd⟩

/-- What statements in the scope `s` declare is held: their `var` names by the scope to
which such names belong there, the others by `s`. -/
structure Offers (t : ScopeTree) (s : ScopeId) (vars lexs : List Declared) : Prop where
  vars : ∃ home, t.Nearest Scope.isVarScope s home ∧ ∀ d ∈ vars, t.Announces home d.name d.kind
  own : ∀ d ∈ lexs, t.Announces s d.name d.kind

theorem Offers.later (h : t.Offers s vars lexs) (he : t.Extends t') (ht : t.Proper) :
    t'.Offers s vars lexs := by
  have hk := he.keeps ht
  obtain ⟨home, hn, hheld⟩ := h.vars
  exact ⟨⟨home, he.toGrows.nearest (fun _ _ hkind _ => Scope.isVarScope_congr hkind) hn,
    fun d hd => hk.announces (hheld d hd)⟩, fun d hd => hk.announces (h.own d hd)⟩

theorem Offers.mono (h : t.Offers s vars lexs) {vars' lexs' : List Declared}
    (hvars : ∀ d ∈ vars', d ∈ vars) (hlexs : ∀ d ∈ lexs', d ∈ lexs) : t.Offers s vars' lexs' := by
  obtain ⟨home, hn, hheld⟩ := h.vars
  exact ⟨⟨home, hn, fun d hd => hheld d (hvars d hd)⟩, fun d hd => h.own d (hlexs d hd)⟩

end ScopeTree

/-! ## Single steps -/

namespace ResolveM

variable {α : Type} {st : Scoping} {scope s : ScopeId} {name : String} {b : BindingId}
  {ctx : List (List Declared)} {ds : List Declared}

theorem ask_decides {f : ScopeTree → Except ScopeError α} {a : α} (h : f st.tree = .ok a) :
    Decides (ask f) st True fun b st' => b = a ∧ st' = st :=
  .of_ok (ask_eq_ok.2 ⟨h, rfl⟩) trivial ⟨rfl, rfl⟩

theorem localBinding_decides (h : st.tree.lookupLocal scope name = some b) :
    Decides (localBinding scope name) st True fun c st' => c = b ∧ st' = st := by
  refine .of_ok (bind_eq_ok.2 ⟨st.tree, st, rfl, ?_⟩) trivial ⟨rfl, rfl⟩
  rw [h]
  rfl

theorem reference_decides : Decides (reference scope name) st True fun x st' =>
    x = st.tree.meaning scope name ∧ st' = st := by
  refine .of_ok (bind_eq_ok.2 ⟨st.tree, st, rfl, ?_⟩) trivial ⟨rfl, rfl⟩
  rw [ScopeTree.meaning]
  cases st.tree.resolve scope name <;> rfl

theorem bind_of_ok {β : Type} {x : ResolveM α} {f : α → ResolveM β} {a : α} {st₁ : Scoping}
    (h : x st = .ok (a, st₁)) : (x >>= f) st = f a st₁ := by
  show (x st >>= fun p => f p.1 p.2) = _
  rw [h]
  rfl

theorem change_of_ok {f : ScopeTree → Except ScopeError (α × ScopeTree)} {a : α} {t : ScopeTree}
    (h : f st.tree = .ok (a, t)) : change f st = .ok (a, { st with tree := t }) := by
  rw [change, bind_of_ok (show tree st = .ok (st.tree, st) from rfl), h]
  rfl

theorem change_of_error {f : ScopeTree → Except ScopeError (α × ScopeTree)} {e : ScopeError}
    (h : f st.tree = .error e) : change f st = .error (.scope e) := by
  rw [change, bind_of_ok (show tree st = .ok (st.tree, st) from rfl), h]
  rfl

/-- A change of the tree that opens no scope and keeps what the scopes declare. -/
theorem change_decides {f : ScopeTree → Except ScopeError (α × ScopeTree)} {a : α} {t : ScopeTree}
    {B : ScopeTree → Prop} (h : f st.tree = .ok (a, t)) (ht : t.Proper) (he : st.tree.Extends t)
    (hsize : t.scopes.size = st.tree.scopes.size) (hB : ∀ t', t.Extends t' → B t') :
    Decides (change f) st True fun _ st' => Annotates st st' [] B :=
  .of_ok (change_of_ok h) trivial ⟨ht, he, ⟨rfl, hsize⟩, fun t' he _ => hB t' he⟩

/-- An assignment that is counted is counted in every later tree. -/
theorem recordAssignment_decides {d : Binding} (ht : st.tree.Proper)
    (hd : st.tree.binding? b = some d) :
    Decides (recordAssignment b) st True fun _ st' => Annotates st st' [] fun t =>
      ∃ d', t.binding? b = some d' ∧ d'.kind.isImmutable = d.kind.isImmutable ∧
        0 < d'.assignments := by
  obtain ⟨t, hrecord⟩ : ∃ t, st.tree.recordAssignment b = .ok t := by
    rw [ScopeTree.recordAssignment, hd]
    exact ⟨_, rfl⟩
  obtain ⟨he, hsize⟩ := ScopeTree.recordAssignment_extends hrecord
  obtain ⟨hproper, -, d₁, hd₁, hpos⟩ := ScopeTree.recordAssignment_spec ht hrecord
  refine change_decides (by rw [hrecord]; rfl) hproper he hsize fun t' he' => ?_
  obtain ⟨d', hd', -, -, hkind, -⟩ := (he.trans he').binding b d hd
  obtain ⟨d'', hd'', -, -, -, hle⟩ := he'.binding b d₁ hd₁
  obtain rfl := Option.some.inj (hd'.symm.trans hd'')
  exact ⟨d', hd', hkind, Nat.lt_of_lt_of_le hpos hle⟩

theorem noteInitializer_decides {inLoop : Bool} {d : Binding} (ht : st.tree.Proper)
    (hd : st.tree.binding? b = some d) :
    Decides (noteInitializer inLoop b) st True fun _ st' =>
      Annotates st st' [] fun _ => True := by
  refine (Decides.bind (.of_ok rfl (W := True) trivial (Q := fun s st' => s = st ∧ st' = st)
    ⟨rfl, rfl⟩) fun s st' _ ⟨hs, hst⟩ => ?_).imp (and_self_iff) fun _ _ _ h => h
  subst hs hst
  split
  · exact (recordAssignment_decides ht hd).imp Iff.rfl fun _ _ _ h => h.imp fun _ _ => trivial
  · exact .of_ok rfl trivial ⟨ht, .refl _, openedFrom_nil _, fun _ _ _ => trivial⟩

/-- An assignment is accepted where its target may be assigned, and is counted then. -/
theorem noteAssignment_decides (hs : st.tree.Stands scope ctx) :
    Decides (noteAssignment name (st.tree.meaning scope name)) st (Assignable ctx name)
      fun _ st' => Annotates st st' [] fun t => (st.tree.meaning scope name).Assigned t := by
  have hassignable := hs.assignable name
  rw [ScopeTree.meaning]
  cases hb : st.tree.resolve scope name with
  | none =>
    refine .of_ok rfl (hassignable.2 ?_) (.refl hs.proper fun _ _ _ => trivial)
    rintro ⟨b, -, hb', -⟩
    rw [hb] at hb'
    cases hb'
  | some b =>
    obtain ⟨d, hd, -⟩ := hs.proper.resolve_spec hb
    have hfixes : st.tree.Fixes scope name ↔ d.kind.isImmutable = true := by
      refine ⟨?_, fun hkind => ⟨b, d, hb, hd, hkind⟩⟩
      rintro ⟨b', d', hb', hd', hkind⟩
      obtain rfl := Option.some.inj (hb.symm.trans hb')
      obtain rfl := Option.some.inj (hd.symm.trans hd')
      exact hkind
    rw [hfixes] at hassignable
    refine (Decides.bind (V := Assignable ctx name)
      (ask_decides (ScopeTree.binding_eq_ok.2 hd)) fun d' st' _ hasked => ?_).imp
        ⟨And.right, fun h => ⟨trivial, h⟩⟩ fun _ _ _ h => h
    obtain ⟨rfl, rfl⟩ := hasked
    have hrefuse : d'.kind.isImmutable = true → ¬Assignable ctx name :=
      fun hkind ha => hassignable.1 ha hkind
    have hrecord : d'.kind.isImmutable = false → Decides (recordAssignment b) st'
        (Assignable ctx name) fun _ st₁ => Annotates st' st₁ [] fun t =>
          (Resolution.binding b).Assigned t := by
      intro hkind
      refine (recordAssignment_decides hs.proper hd).imp
        ⟨fun _ => hassignable.2 (Bool.not_eq_true _ ▸ hkind), fun _ => trivial⟩ fun _ _ _ h =>
          h.imp fun t hcounted => ?_
      obtain ⟨c, hc, hsame, hpos⟩ := hcounted
      exact ⟨c, hc, hsame.trans hkind, hpos⟩
    cases hk : d'.kind with
    | constBinding => exact .of_error rfl (hrefuse (by rw [hk]; rfl)) rfl
    | functionName => exact .of_error rfl (hrefuse (by rw [hk]; rfl)) rfl
    | _ => exact hrecord (by rw [hk]; rfl)

end ResolveM
end ClosureCache
