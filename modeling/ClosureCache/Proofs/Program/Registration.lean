/-
The table of sites that resolution makes.

Every definition gets the next number as it is entered, before those in its body, and an
entry in the table that says what it does.  So the table of a resolved program has the
definitions of the program in their order, each under the number of its place, whatever
annotations the program came with.
-/
import ClosureCache.Proofs.Program.Walk

namespace ClosureCache

/-- Definitions have the numbers of their places. -/
def Numbered (l : List FunctionNode) : Prop :=
  l.map FunctionNode.site = (List.range l.length).map fun i => some ⟨i⟩

theorem sites_eq_of_describes {infos : List SiteInfo} {fs : List FunctionNode}
    (hall : List.Forall₂ SiteInfo.Describes infos fs) :
    fs.map FunctionNode.site = (infos.map SiteInfo.site).map some := by
  induction hall with
  | nil => rfl
  | cons h _ ih => rw [List.map_cons, List.map_cons, List.map_cons, ih, h.site]

/-! ## The table along a walk -/

/-- The table has the entries that were noted, under the numbers of their places. -/
structure Scoping.Tabulated (n : Notes) (st : Scoping) : Prop where
  entries : st.sites.toList = n.entries
  numbers : n.entries.map SiteInfo.site = (List.range n.entries.length).map SiteId.mk

namespace Scoping

variable {st st' : Scoping} {k n : Notes}

theorem tabulated_initial : Tabulated ∅ ⟨ScopeTree.initial, #[], []⟩ := ⟨rfl, rfl⟩

/-- Only entering a function changes the table. -/
theorem Step.tabulated (h : Step st n st') (ht : Tabulated k st) : Tabulated (k ++ n) st' := by
  have hquiet : ∀ {ws : List Write} {st' : Scoping}, st'.sites = st.sites →
      Tabulated (k ++ ⟨ws, []⟩) st' := fun {ws st'} hsites => by
    have hentries : (k ++ ⟨ws, []⟩ : Notes).entries = k.entries := List.append_nil _
    refine ⟨?_, ?_⟩
    · rw [hentries, hsites, ht.entries]
    · rw [hentries, ht.numbers]
  cases h with
  | @enter info arrow t t' hsite =>
    have hsize : st.sites.size = k.entries.length := by
      rw [← Array.length_toList, ht.entries]
    refine ⟨?_, ?_⟩
    · show (st.sites.push info).toList = k.entries ++ [info]
      rw [Array.toList_push, ht.entries]
    · show (k.entries ++ [info]).map SiteInfo.site = _
      rw [List.map_append, ht.numbers, List.map_singleton, hsite, hsize]
      show _ = (List.range (k.entries ++ [info]).length).map SiteId.mk
      rw [List.length_append, List.length_singleton, List.range_succ, List.map_append,
        List.map_singleton]
  | _ => exact hquiet rfl

end Scoping

/-! ## Programs -/

/-- The table of a program that resolves has the definitions of the program in their order,
and under the numbers of their places. -/
theorem Program.registers_of_resolve {p : Program} {r : ResolvedProgram} (h : p.resolve = .ok r) :
    r.sites.toList.map SiteInfo.site = (List.range r.sites.size).map SiteId.mk ∧
      List.Forall₂ SiteInfo.Describes r.sites.toList r.program.functions := by
  obtain ⟨st, n, hwalk, hcover, -, hsites⟩ := Program.walk_of_resolve h
  have htable := hwalk.keeps Scoping.Step.tabulated Scoping.tabulated_initial
  have hentries : r.sites.toList = n.entries := by rw [hsites, htable.entries]; rfl
  rw [← Array.length_toList, hentries]
  exact ⟨htable.numbers, hcover.entries⟩

/-- The definitions of a program that resolves have the numbers of their places. -/
theorem Program.numbered_of_resolve {p : Program} {r : ResolvedProgram} (h : p.resolve = .ok r) :
    Numbered r.program.functions := by
  obtain ⟨hnumbers, hall⟩ := Program.registers_of_resolve h
  rw [Numbered, sites_eq_of_describes hall, hnumbers, List.map_map, ← hall.length_eq,
    Array.length_toList]
  rfl

end ClosureCache
