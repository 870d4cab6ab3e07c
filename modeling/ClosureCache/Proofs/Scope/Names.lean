/-
Names in a growing scope tree.

All names of a scope are declared before any of them is looked up, and a name that was
found is found again in every later tree.  `Keeps` is growth that says so: a binding
keeps its name, its kind changes at most to that of a function declaration, and a scope
holds under a name what it held.
-/
import Mathlib.Data.List.Find
import ClosureCache.Proofs.Scope.Growth

namespace ClosureCache

/-! ## Kinds -/

namespace BindingKind

variable {k l m : BindingKind}

/-- A binding of the one kind may have the other later on. -/
def Becomes (k l : BindingKind) : Prop :=
  l = k ∨ k.isRepeatable = true ∧ l = functionDeclaration

/-- What is declared as the one kind may be a binding of the other.  A `let` or `const` is a
binding of its own, and a function declaration determines the kind. -/
def ShowsAs : BindingKind → BindingKind → Prop
  | functionDeclaration, l => l = functionDeclaration
  | k, l => l.isLexical = k.isLexical

theorem Becomes.trans (a : k.Becomes l) (b : l.Becomes m) : k.Becomes m := by
  rcases a with rfl | ⟨hk, rfl⟩
  · exact b
  · rcases b with rfl | ⟨-, rfl⟩ <;> exact .inr ⟨hk, rfl⟩

theorem Becomes.isLexical_eq (a : k.Becomes l) : l.isLexical = k.isLexical := by
  rcases a with rfl | ⟨hk, rfl⟩
  · rfl
  · cases k <;> first | rfl | cases hk

theorem showsAs_self (k : BindingKind) : k.ShowsAs k := by
  cases k <;> rfl

theorem ShowsAs.becomes (a : k.ShowsAs l) (b : l.Becomes m) : k.ShowsAs m := by
  cases k with
  | functionDeclaration =>
    obtain rfl : l = functionDeclaration := a
    rcases b with rfl | ⟨-, rfl⟩ <;> rfl
  | _ => exact b.isLexical_eq.trans a

theorem ShowsAs.isLexical_eq (a : k.ShowsAs l) : l.isLexical = k.isLexical := by
  cases k with
  | functionDeclaration =>
    obtain rfl : l = functionDeclaration := a
    rfl
  | _ => exact a

/-- A declaration that repeats another one leaves a kind as which it shows. -/
theorem showsAs_of_repeats (hk : k.mayRepeat = true) (hl : l.isRepeatable = true)
    (hne : k ≠ functionDeclaration) : k.ShowsAs l := by
  cases k with
  | var => cases l <;> first | rfl | cases hl
  | functionDeclaration => exact absurd rfl hne
  | _ => cases hk

end BindingKind

namespace ScopeTree

variable {t t₁ t' : ScopeTree} {s : ScopeId} {b : BindingId} {name : String}

/-- The binding holds a value from the start. -/
def Eager (t : ScopeTree) (b : BindingId) : Prop :=
  ∃ d, t.binding? b = some d ∧ d.kind.isLexical = false

/-- A scope holds under a name a binding as which a declaration of the kind shows. -/
def Announces (t : ScopeTree) (s : ScopeId) (name : String) (kind : BindingKind) : Prop :=
  ∃ b d, t.lookupLocal s name = some b ∧ t.binding? b = some d ∧ kind.ShowsAs d.kind

/-! ## Looking up -/

theorem lookupLocal_eq (t : ScopeTree) (s : ScopeId) (name : String) :
    t.lookupLocal s name = ((t.scope? s).map Scope.bindings).bind fun bindings =>
      bindings.find? fun b => ((t.binding? b).map Binding.name).any (· == name) := by
  rw [lookupLocal]
  cases t.scope? s with
  | none => rfl
  | some sc =>
    dsimp only [Option.map_some, Option.bind_some]
    congr 1
    funext b
    rw [Option.any_map]

/-- Lookups depend on the lists of bindings and on the names alone. -/
theorem lookupLocal_congr (hs : (t'.scope? s).map Scope.bindings = (t.scope? s).map Scope.bindings)
    (hb : ∀ b, (t'.binding? b).map Binding.name = (t.binding? b).map Binding.name) :
    t'.lookupLocal s name = t.lookupLocal s name := by
  rw [lookupLocal_eq, lookupLocal_eq, hs]
  simp only [hb]

/-- What is found under a name has that name. -/
theorem name_of_lookupLocal (h : t.lookupLocal s name = some b) {d : Binding}
    (hd : t.binding? b = some d) : d.name = name := by
  rw [lookupLocal_eq] at h
  obtain ⟨bindings, -, hfind⟩ := Option.bind_eq_some_iff.1 h
  have hname := Array.find?_some hfind
  rw [hd] at hname
  exact beq_iff_eq.1 hname

/-! ## Growth -/

structure Keeps (t t' : ScopeTree) : Prop extends Grows t t' where
  named : ∀ b d, t.binding? b = some d → ∃ d', t'.binding? b = some d' ∧ d'.name = d.name ∧
    d.kind.Becomes d'.kind
  lookup : ∀ s name b, t.lookupLocal s name = some b → t'.lookupLocal s name = some b

namespace Keeps

theorem refl (t : ScopeTree) : Keeps t t :=
  ⟨.refl t, fun _ d hb => ⟨d, hb, rfl, .inl rfl⟩, fun _ _ _ h => h⟩

theorem trans (a : Keeps t t₁) (b : Keeps t₁ t') : Keeps t t' where
  toGrows := a.toGrows.trans b.toGrows
  named x d hx := by
    obtain ⟨d₁, hx₁, hname₁, hkind₁⟩ := a.named x d hx
    obtain ⟨d₂, hx₂, hname₂, hkind₂⟩ := b.named x d₁ hx₁
    exact ⟨d₂, hx₂, hname₂.trans hname₁, hkind₁.trans hkind₂⟩
  lookup s name x hx := b.lookup s name x (a.lookup s name x hx)

theorem announces (hk : Keeps t t') {kind : BindingKind} (hn : t.Announces s name kind) :
    t'.Announces s name kind := by
  obtain ⟨b, d, hb, hd, hkind⟩ := hn
  obtain ⟨d', hd', -, hkind'⟩ := hk.named b d hd
  exact ⟨b, d', hk.lookup s name b hb, hd', hkind.becomes hkind'⟩

/-- A change in place that keeps names. -/
theorem of_recasts (hr : t.Recasts t')
    (hb : ∀ b, ∃ g : Binding → Binding, t'.binding? b = (t.binding? b).map g ∧
      ∀ d, t.binding? b = some d → (g d).name = d.name ∧ d.kind.Becomes (g d).kind) :
    Keeps t t' where
  toGrows := hr.grows
  named b d hd := by
    obtain ⟨g, hg, hkeep⟩ := hb b
    obtain ⟨hname, hkind⟩ := hkeep d hd
    exact ⟨g d, by rw [hg, hd, Option.map_some], hname, hkind⟩
  lookup s name b h := by
    rw [← h]
    refine lookupLocal_congr ?_ fun b => ?_
    · obtain ⟨f, hf, hkeep⟩ := hr.scope s
      rw [hf]
      cases t.scope? s with
      | none => rfl
      | some sc => exact congrArg some (hkeep sc).2.2.2.2
    · obtain ⟨g, hg, hkeep⟩ := hb b
      rw [hg]
      cases hd : t.binding? b with
      | none => rfl
      | some d => exact congrArg some (hkeep d hd).1

end Keeps

/-! ## Changes -/

/-- A change of one binding that keeps its name. -/
theorem keeps_modifyBinding {g : Binding → Binding} (hr : t.Recasts (t.modifyBinding b g))
    (hg : ∀ d, t.binding? b = some d → (g d).name = d.name ∧ d.kind.Becomes (g d).kind) :
    t.Keeps (t.modifyBinding b g) := by
  refine .of_recasts hr fun a => ⟨if a = b then g else id, ?_, fun d hd => ?_⟩
  · rw [binding?_modifyBinding]
    split
    · rfl
    · rw [Option.map_id]
      rfl
  · split
    · next hab => exact hg d (hab ▸ hd)
    · exact ⟨rfl, .inl rfl⟩

theorem lookupLocal_addBinding (ht : t.Proper) {sc : Scope} (hs : t.scope? s = some sc)
    (name : String) (kind : BindingKind) (storage : Storage) (a : ScopeId) (n : String) :
    (t.addBinding sc name kind storage).2.lookupLocal a n =
      (t.lookupLocal a n).or (if a = s ∧ n = name then some ⟨t.bindings.size⟩ else none) := by
  -- what a scope has listed keeps its name
  have hfind : ∀ {sca}, t.scope? a = some sca → (sca.bindings.find? fun b =>
      (((t.addBinding sc name kind storage).2.binding? b).map Binding.name).any (· == n)) =
        t.lookupLocal a n := by
    intro sca ha
    rw [lookupLocal_eq, ha, Option.map_some, Option.bind_some, ← Array.find?_toList,
      ← Array.find?_toList]
    refine List.find?_congr fun x hx => ?_
    obtain ⟨i, hi⟩ := Array.mem_iff_getElem?.1 (Array.mem_toList_iff.1 hx)
    obtain ⟨d, hd, -⟩ := ht.listed a sca i x ha hi
    rw [binding?_addBinding_of_some hd, hd]
  by_cases ha : a = s
  · subst ha
    rw [lookupLocal_eq, ht.scope?_addBinding_self hs, Option.map_some, Option.bind_some,
      Array.find?_push, hfind hs, binding?_addBinding, if_pos rfl, Option.map_some,
      Option.any_some]
    by_cases hn : n = name
    · rw [if_pos (beq_iff_eq.2 hn.symm), if_pos ⟨rfl, hn⟩]
    · rw [if_neg fun h => hn (beq_iff_eq.1 h).symm, if_neg fun h => hn h.2]
  · rw [if_neg fun h => ha h.1, Option.or_none, lookupLocal_eq, ht.scope?_addBinding_of_ne hs ha]
    cases hsa : t.scope? a with
    | none => rw [lookupLocal_eq, hsa]; rfl
    | some sca => exact hfind hsa

/-- Declaring a name makes the scope hold it. -/
theorem declare_keeps (ht : t.Proper) {kind : BindingKind} {storage : Storage}
    (hdeclare : t.declare s name kind storage = .ok (b, t')) :
    t.Keeps t' ∧ t'.lookupLocal s name = some b := by
  rcases declare_cases hdeclare with
    ⟨sc, hs, hnone, rfl, rfl⟩ | ⟨prior, hlookup, hprior, -, hr, rfl⟩
  · refine ⟨⟨ht.addBinding_grows hs,
      fun x d hx => ⟨d, binding?_addBinding_of_some hx, rfl, .inl rfl⟩, fun a n x hx => ?_⟩, ?_⟩
    · rw [lookupLocal_addBinding ht hs, hx, Option.some_or]
    · rw [lookupLocal_addBinding ht hs, hnone, if_pos ⟨rfl, rfl⟩, Option.none_or]
  · have hrecasts := recasts_of_repeated kind hprior hr
    have hk : t.Keeps (if kind = .functionDeclaration then
        t.modifyBinding b fun d => { d with kind } else t) := by
      split at hrecasts
      · next hkind =>
        rw [if_pos hkind]
        refine keeps_modifyBinding hrecasts fun d hd => ?_
        obtain rfl := Option.some.inj (hprior.symm.trans hd)
        exact ⟨rfl, .inr ⟨hr, hkind⟩⟩
      · next hkind =>
        rw [if_neg hkind]
        exact .refl t
    exact ⟨hk, hk.lookup _ _ _ hlookup⟩

end ScopeTree
end ClosureCache
