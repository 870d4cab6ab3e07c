/-
Writing the elements of an array.

A text addresses an element if it is a numeral of 64 bits, and writing and reading agree on
which one.  A write that succeeds sets this element alone: an array that was too short grows
just enough to hold it, with `undefined` in the gap.  The size that the array would need is
itself a number of 64 bits, and the largest index asks for one more than there is.
-/
import ClosureCache.Evaluation.Property
import ClosureCache.Proofs.Cache.Change
import ClosureCache.Proofs.Cache.Shape

namespace ClosureCache

/-! ## The array after a write -/

@[simp] theorem size_writeElement (elements : Array Value) (index : Nat) (value : Value) :
    (writeElement elements index value).size = max elements.size (index + 1) := by
  simp only [writeElement, Array.size_setIfInBounds, Array.size_append, Array.size_replicate]
  omega

theorem getElem?_writeElement_self (elements : Array Value) (index : Nat) (value : Value) :
    (writeElement elements index value)[index]? = some value := by
  refine Array.getElem?_setIfInBounds_self_of_lt ?_
  simp only [Array.size_append, Array.size_replicate]
  omega

theorem getElem?_writeElement_of_ne {elements : Array Value} {index i : Nat} {value : Value}
    (hi : i ≠ index) : (writeElement elements index value)[i]? =
      if i < elements.size then elements[i]?
      else if i < index then some .undefined else none := by
  rw [writeElement, Array.getElem?_setIfInBounds_ne hi.symm, Array.getElem?_append,
    Array.getElem?_replicate]
  refine ite_congr rfl (fun _ => rfl) fun hsize => ?_
  exact ite_congr (propext (by omega)) (fun _ => rfl) fun _ => rfl

/-- An element of an array has been written and all others are as before.  Where the array had
to grow, the new elements below the one written are `undefined`. -/
structure ElementWritten (elements elements' : Array Value) (index : Nat) (value : Value) :
    Prop where
  size : elements'.size = max elements.size (index + 1)
  written : elements'[index]? = some value
  kept : ∀ i < elements.size, i ≠ index → elements'[i]? = elements[i]?
  gap : ∀ i, elements.size ≤ i → i < index → elements'[i]? = some .undefined

theorem elementWritten_writeElement (elements : Array Value) (index : Nat) (value : Value) :
    ElementWritten elements (writeElement elements index value) index value where
  size := size_writeElement elements index value
  written := getElem?_writeElement_self elements index value
  kept i hi hne := by rw [getElem?_writeElement_of_ne hne, if_pos hi]
  gap i hi hlt := by
    rw [getElem?_writeElement_of_ne (Nat.ne_of_lt hlt), if_neg (Nat.not_lt.2 hi), if_pos hlt]

/-! ## Reading under the text of a write -/

/-- The length of an array is no element. -/
theorem readWord?_length : Text.readWord? "length" = none := by decide +kernel

theorem Object.property_array_length (elements : Array Value) :
    (Object.array elements).property "length" = .number (Int64.ofNat elements.size) := rfl

/-- Under a numeral an array has the element at its index. -/
theorem Object.property_array_of_readWord? {name : String} {index : Nat}
    (hname : Text.readWord? name = some index) (elements : Array Value) :
    (Object.array elements).property name = elements[index]?.getD .undefined := by
  have hlength : name ≠ "length" := by
    rintro rfl
    rw [readWord?_length] at hname
    exact nomatch hname
  rw [Object.property, if_neg hlength, hname, Option.bind_some]

namespace Heap

variable {h : Heap} {id : ObjectId} {elements : Array Value}

theorem getProperty_object {o : Object} (ho : h.object id = .ok o) (name : String) :
    h.getProperty (.object id) name = .ok (o.property name) := by
  rw [getProperty, ho]

theorem getProperty_setObject {o : Object} (ho : h.object id = .ok o) (o' : Object)
    (name : String) : (h.setObject id o').getProperty (.object id) name = .ok (o'.property name) :=
  getProperty_object (object_setObject_self o' (contains_of_object ho)) name

/-- What a write to an array does, by what its text addresses. -/
theorem setProperty_array (ho : h.object id = .ok (.array elements)) (name : String)
    (value : Value) : setProperty (.object id) name value h =
      match Text.readWord? name with
      | none => (.error (.error (.wrongType ("'" ++ name ++ "' is not an array index"))), h)
      | some index =>
        if index + 1 < UInt64.size then
          (.ok (), h.setObject id (.array (writeElement elements index value)))
        else (.error .overflow, h) := by
  cases hindex : Text.readWord? name with
  | none => simp only [setProperty, Value.object?, ho, hindex]
  | some index => simp only [setProperty, Value.object?, ho, hindex]

/-- A write to an array is exact.  Either its text addresses no element, and it fails with a
type error and changes nothing; or it sets the element, the same text then reads the value, and
all other objects are as before. -/
inductive WritesExactly (h : Heap) (id : ObjectId) (elements : Array Value) (name : String)
    (value : Value) : Prop where
  | refused (detail : String) (hname : Text.readWord? name = none)
      (hset : setProperty (.object id) name value h = (.error (.error (.wrongType detail)), h))
  | written (h' : Heap) (index : Nat) (elements' : Array Value)
      (hname : Text.readWord? name = some index)
      (hset : setProperty (.object id) name value h = (.ok (), h'))
      (hread : h'.getProperty (.object id) name = .ok value)
      (hlength : h'.getProperty (.object id) "length" =
        .ok (.number (Int64.ofNat (max elements.size (index + 1)))))
      (harray : h'.object id = .ok (.array elements'))
      (helements : ElementWritten elements elements' index value)
      (hothers : ∀ y ≠ id, h'.object y = h.object y)

/-- The index one below the largest size that a number of 64 bits can state is the last that a
write can reach. -/
def lastWord : Nat := UInt64.size - 1

theorem writesExactly_of_ne (ho : h.object id = .ok (.array elements)) {name : String}
    (hname : Text.readWord? name ≠ some lastWord) (value : Value) :
    h.WritesExactly id elements name value := by
  have hset := setProperty_array ho name value
  cases hword : Text.readWord? name with
  | none =>
    rw [hword] at hset
    exact .refused _ hword hset
  | some index =>
    have hbound : index + 1 < UInt64.size := by
      have hlt := Text.lt_of_readWord? hword
      have hne : index ≠ lastWord := fun e => hname (e ▸ hword)
      unfold lastWord at hne
      omega
    simp only [hword, if_pos hbound] at hset
    refine .written _ index _ hword hset ?_ ?_ (object_setObject_self _ (contains_of_object ho))
      (elementWritten_writeElement elements index value) fun y hy => object_setObject_of_ne _ hy
    · rw [getProperty_setObject ho, Object.property_array_of_readWord? hword,
        getElem?_writeElement_self, Option.getD_some]
    · rw [getProperty_setObject ho, Object.property_array_length, size_writeElement]

theorem setProperty_lastWord (ho : h.object id = .ok (.array elements)) {name : String}
    (hname : Text.readWord? name = some lastWord) (value : Value) :
    setProperty (.object id) name value h = (.error .overflow, h) := by
  rw [setProperty_array ho, hname]
  exact if_neg (Nat.lt_irrefl _)

/-- Every write to an array is exact, but for those under a numeral of the largest number of 64
bits: the size that the array would need is no number of 64 bits, and each of these writes
overflows. -/
theorem setProperty_exact_unless_lastWord (ho : h.object id = .ok (.array elements))
    (name : String) (value : Value) :
    (h.WritesExactly id elements name value ↔ Text.readWord? name ≠ some lastWord) ∧
      (setProperty (.object id) name value h = (.error .overflow, h) ↔
        Text.readWord? name = some lastWord) := by
  have hne : h.WritesExactly id elements name value →
      setProperty (.object id) name value h ≠ (.error .overflow, h) := by
    rintro (⟨_, _, hset⟩ | ⟨_, _, _, _, hset⟩) <;> rw [hset] <;> exact nofun
  refine ⟨⟨fun hexact hword => ?_, fun hword => writesExactly_of_ne ho hword value⟩,
    fun hset => ?_, fun hword => setProperty_lastWord ho hword value⟩
  · exact hne hexact (setProperty_lastWord ho hword value)
  · exact Decidable.byContradiction fun hword => hne (writesExactly_of_ne ho hword value) hset

/-- A heap that holds one array, of two elements. -/
def twoElements : Heap := (empty.allocate (.array #[.number 1, .number 2])).2

theorem object_twoElements :
    twoElements.object ⟨0⟩ = .ok (.array #[.number 1, .number 2]) := object_allocate_self empty _

theorem setProperty_exact_unless_lastWord_two :
    twoElements.object ⟨0⟩ = .ok (.array #[.number 1, .number 2]) ∧
      twoElements.WritesExactly ⟨0⟩ #[.number 1, .number 2] "+04" (.bool true) :=
  ⟨object_twoElements,
    (setProperty_exact_unless_lastWord object_twoElements "+04" (.bool true)).1.2
      (by decide +kernel)⟩

/-- Not every write to an array is exact. -/
theorem not_setProperty_exact :
    ¬ ∀ (h : Heap) (id : ObjectId) (elements : Array Value), h.object id = .ok (.array elements) →
      ∀ name value, h.WritesExactly id elements name value := by
  intro hexact
  have hset : setProperty (.object ⟨0⟩) "18446744073709551615" .null twoElements =
      (.error .overflow, twoElements) :=
    setProperty_lastWord object_twoElements (by decide +kernel) .null
  obtain ⟨_, _, hset'⟩ | ⟨_, _, _, _, hset'⟩ :=
    hexact twoElements ⟨0⟩ _ object_twoElements "18446744073709551615" .null
  all_goals exact nomatch hset.symm.trans hset'

end Heap

end ClosureCache
