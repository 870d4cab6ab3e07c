/-
Keys and the paths they take.

A path forgets whether an identity is that of an object or of a cell.  The keys of
one definition do not need to remember it: at each position the mode of the capture
says which of the two it is, so the keys of a definition are equal when their paths
are.
-/
import Mathlib.Data.List.Forall2
import ClosureCache.Key.Build
import ClosureCache.Proofs.Cache.Shape

namespace ClosureCache

/-- Two components have one edge when they are equal or name one object, the one as
an object and the other as a cell. -/
theorem KeyComponent.edge_eq_iff {a b : KeyComponent} :
    a.edge = b.edge ↔ a = b ∨ a.isWeak = true ∧ a.object? = b.object? := by
  cases a <;> cases b <;>
    simp [KeyComponent.edge, KeyComponent.isWeak, KeyComponent.object?, eq_comm]

/-- Keys take one path when their components are the same one by one, where an object and
a cell are the same if their identity is. -/
theorem Key.path_eq_iff {k k' : Key} : k.path = k'.path ↔
    List.Forall₂ (fun a b => a = b ∨ a.isWeak = true ∧ a.object? = b.object?)
      k.components k'.components := by
  rw [Key.path, Key.path, ← List.forall₂_eq_eq_eq, List.forall₂_map_left_iff,
    List.forall₂_map_right_iff]
  simp only [KeyComponent.edge_eq_iff]

/-- The objects on the path of a key are the objects that the key names. -/
theorem Key.object_mem_path {k : Key} {id : ObjectId} :
    .object id ∈ k.path ↔ id ∈ k.weakObjects := by
  rw [Key.path, Key.weakObjects, List.mem_map, List.mem_filterMap]
  refine exists_congr fun c => and_congr_right fun _ => ?_
  cases c <;> simp [KeyComponent.edge, KeyComponent.object?]

theorem KeyComponent.ofValue_ne_cellRef (v : Value) (id : ObjectId) : ofValue v ≠ cellRef id := by
  cases v <;> simp [ofValue]

/-- Away from cells, a component is known by its edge. -/
theorem KeyComponent.eq_of_edge_eq {a b : KeyComponent} (h : a.edge = b.edge)
    (hcell : (∃ x y, a = cellRef x ∧ b = cellRef y) ∨ ∀ x, a ≠ cellRef x ∧ b ≠ cellRef x) :
    a = b := by
  rcases hcell with ⟨x, y, rfl, rfl⟩ | hcell
  · simpa [KeyComponent.edge] using h
  · cases a <;> cases b <;> simp_all [KeyComponent.edge]

/-! ## The component of a capture, mode by mode -/

section Component

variable {c : Capture} {live : LiveScope} {k : KeyComponent}

/-- A capture by value has the contents of its slot as its component. -/
theorem Capture.component_value (hmode : c.mode = .value) : c.component live = .ok k ↔
    ∃ b raw, c.binding = some b ∧ live.slot b = .ok raw ∧ k = componentOfSlot raw := by
  rw [Capture.component, hmode]
  cases c.binding with
  | none => simp
  | some b => cases hslot : live.slot b <;> simp [hslot, Except.map, eq_comm]

theorem componentOfCell_eq_ok {name : String} {b : BindingId} {raw : Option Value} :
    componentOfCell live name b raw = .ok k ↔
      ∃ x, raw = some (.object x) ∧ live.isCell x = true ∧ k = .cellRef x := by
  rw [componentOfCell.eq_def]
  split
  · next id =>
    split
    · next hcell =>
      refine ⟨fun h => ⟨id, rfl, hcell, (Except.ok.inj h).symm⟩, fun ⟨x, hx, _, hk⟩ => ?_⟩
      obtain rfl := Value.object.inj (Option.some.inj hx)
      rw [hk]
    · next hcell => simp [hcell]
  · next raw hraw => simpa using fun x hx => absurd hx (hraw x)

/-- A capture by cell has the cell in its slot as its component. -/
theorem Capture.component_cell (hmode : c.mode = .cell) : c.component live = .ok k ↔
    ∃ b x, c.binding = some b ∧ live.slot b = .ok (some (.object x)) ∧ live.isCell x = true ∧
      k = .cellRef x := by
  rw [Capture.component, hmode]
  cases c.binding with
  | none => simp
  | some b => cases hslot : live.slot b <;> simp [hslot, Except.bind, componentOfCell_eq_ok]

/-- A capture of `this` has the `this` of its source as its component. -/
theorem Capture.component_thisValue (hmode : c.mode = .thisValue) : c.component live = .ok k ↔
    ∃ v, live.thisValue c.source = .ok v ∧ k = .ofValue v := by
  rw [Capture.component, hmode]
  cases hthis : live.thisValue c.source <;> simp [Except.map, eq_comm]

end Component

theorem componentOfSlot_ne_cellRef (raw : Option Value) (id : ObjectId) :
    componentOfSlot raw ≠ .cellRef id := by
  cases raw with
  | none => simp [componentOfSlot]
  | some v => exact KeyComponent.ofValue_ne_cellRef v id

/-- The mode of a capture says whether its component is a cell. -/
theorem Capture.component_cases {c : Capture} {live : LiveScope} {k : KeyComponent}
    (hk : c.component live = .ok k) :
    c.mode = .cell ∧ (∃ x, k = .cellRef x) ∨ c.mode ≠ .cell ∧ ∀ x, k ≠ .cellRef x := by
  cases hmode : c.mode with
  | thisValue =>
    obtain ⟨v, -, rfl⟩ := (component_thisValue hmode).1 hk
    exact .inr ⟨by simp, KeyComponent.ofValue_ne_cellRef v⟩
  | value =>
    obtain ⟨b, raw, -, -, rfl⟩ := (component_value hmode).1 hk
    exact .inr ⟨by simp, componentOfSlot_ne_cellRef raw⟩
  | cell =>
    obtain ⟨b, x, -, -, -, rfl⟩ := (component_cell hmode).1 hk
    exact .inl ⟨rfl, x, rfl⟩

/-- Components of one capture with the same edge are the same. -/
theorem Capture.component_eq_of_edge_eq {c : Capture} {live live' : LiveScope}
    {k k' : KeyComponent} (hk : c.component live = .ok k) (hk' : c.component live' = .ok k')
    (h : k.edge = k'.edge) : k = k' := by
  refine KeyComponent.eq_of_edge_eq h ?_
  rcases component_cases hk with ⟨hmode, x, rfl⟩ | ⟨hmode, hx⟩ <;>
    rcases component_cases hk' with ⟨hmode', y, rfl⟩ | ⟨hmode', hy⟩
  · exact .inl ⟨x, y, rfl, rfl⟩
  · exact absurd hmode hmode'
  · exact absurd hmode' hmode
  · exact .inr fun x => ⟨hx x, hy x⟩

/-- A list of results is a result and a list of results. -/
theorem Except.mapM_cons_eq_ok {ε α β : Type} {f : α → Except ε β} {a : α} {l : List α}
    {r : List β} (h : (a :: l).mapM f = .ok r) :
    ∃ b bs, f a = .ok b ∧ l.mapM f = .ok bs ∧ r = b :: bs := by
  rw [List.mapM_cons] at h
  cases ha : f a with
  | error e => simp [ha, bind, Except.bind] at h
  | ok b =>
    cases hl : l.mapM f with
    | error e => simp [ha, hl, bind, Except.bind] at h
    | ok bs =>
      simp only [ha, hl, bind, Except.bind, pure, Except.pure, Except.ok.injEq] at h
      exact ⟨b, bs, rfl, rfl, h.symm⟩

theorem Except.length_of_mapM_eq_ok {ε α β : Type} {f : α → Except ε β} {l : List α} {r : List β}
    (h : l.mapM f = .ok r) : r.length = l.length := by
  induction l generalizing r with
  | nil =>
    obtain rfl := Except.ok.inj h
    rfl
  | cons a l ih =>
    obtain ⟨b, bs, -, hbs, rfl⟩ := Except.mapM_cons_eq_ok h
    rw [List.length_cons, List.length_cons, ih hbs]

/-- Each item of a list has its result at the same place. -/
theorem Except.getElem?_of_mapM_eq_ok {ε α β : Type} {f : α → Except ε β} {l : List α}
    {r : List β} (h : l.mapM f = .ok r) {i : Nat} {a : α} (hi : l[i]? = some a) :
    ∃ b, f a = .ok b ∧ r[i]? = some b := by
  induction l generalizing r i with
  | nil => cases hi
  | cons a' l ih =>
    obtain ⟨b, bs, hb, hbs, rfl⟩ := Except.mapM_cons_eq_ok h
    cases i with
    | zero =>
      obtain rfl := Option.some.inj hi
      exact ⟨b, hb, rfl⟩
    | succ i => exact ih hbs hi

/-- The components of a key are those of the captures, in order. -/
theorem CaptureSpec.components_of_buildKey {spec : CaptureSpec} {live : LiveScope} {k : Key}
    (hk : spec.buildKey live = .ok k) :
    spec.captures.mapM (Capture.component live) = .ok k.components := by
  rw [CaptureSpec.buildKey] at hk
  cases hm : spec.captures.mapM (Capture.component live) with
  | error e => simp [hm, Except.map] at hk
  | ok l =>
    simp only [hm, Except.map, Except.ok.injEq] at hk
    rw [← hk]

/-- The length of a key is the number of captures. -/
theorem CaptureSpec.arity_of_buildKey {spec : CaptureSpec} {live : LiveScope} {k : Key}
    (hk : spec.buildKey live = .ok k) : k.arity = spec.arity :=
  Except.length_of_mapM_eq_ok (components_of_buildKey hk)

/-- The keys of one definition are equal when their paths are. -/
theorem CaptureSpec.key_eq_of_path_eq {spec : CaptureSpec} {live live' : LiveScope} {k k' : Key}
    (hk : spec.buildKey live = .ok k) (hk' : spec.buildKey live' = .ok k') :
    k.path = k'.path ↔ k = k' := by
  refine ⟨fun hpath => ?_, fun e => e ▸ rfl⟩
  have hcomponents : k.components = k'.components := by
    have h := components_of_buildKey hk
    have h' := components_of_buildKey hk'
    rw [Key.path, Key.path] at hpath
    generalize k.components = l at h hpath
    generalize k'.components = l' at h' hpath
    generalize spec.captures = cs at h h'
    induction cs generalizing l l' with
    | nil =>
      obtain rfl := Except.ok.inj h
      obtain rfl := Except.ok.inj h'
      rfl
    | cons c cs ih =>
      obtain ⟨a, l, ha, hl, rfl⟩ := Except.mapM_cons_eq_ok h
      obtain ⟨a', l', ha', hl', rfl⟩ := Except.mapM_cons_eq_ok h'
      obtain ⟨hedge, hrest⟩ := List.cons.inj hpath
      rw [c.component_eq_of_edge_eq ha ha' hedge, ih l l' hrest hl hl']
  cases k; cases k'
  exact congrArg _ hcomponents

end ClosureCache
