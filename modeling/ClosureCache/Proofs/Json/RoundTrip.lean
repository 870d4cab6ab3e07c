/-
Reading the compact text of a JSON value gives the value back.

`Spelt` says which values have a text of their own: those without decimals and
without strings that name halves of surrogate pairs.  `read?_render` is the round
trip.

A reader is handed more than the value it is to read, so each lemma is stated with a
text behind the value.  Digits run on into what follows them, so that text has to
close the value: it is empty or begins with a comma, a bracket or a brace.  The fuel
of the reader pays for every character of the value.
-/
import Mathlib.Data.Nat.Digits.Lemmas
import ClosureCache.Json.Reader

namespace ClosureCache
namespace Json

/-! ## Strings -/

/-- The hexadecimal escape of a control character is read back. -/
theorem hexUnit?_controlDigits {n : Nat} (hn : n < 0x20) :
    hexUnit? '0' '0' (Nat.digitChar (n / 16)) (Nat.digitChar (n % 16)) = some n := by
  revert n
  decide

/-- The escape of a character is read as its number. -/
theorem readUnits_escape (c : Char) (rest : List Char) :
    readUnits (escape c ++ rest) =
      (readUnits rest).map fun (units, rest) => (c.toNat :: units, rest) := by
  have hletter : ∀ d e : Char, unescape? d = some e → d ≠ 'u' →
      readUnits ('\\' :: d :: rest) =
        (readUnits rest).map fun (units, rest) => (e.toNat :: units, rest) := by
    intro d e hd hu
    rw [readUnits.eq_4 _ _ (fun a b c d' rest' heq => by simp_all), hd]
    cases readUnits rest <;> rfl
  unfold escape
  split
  · exact hletter '"' _ rfl (by decide)
  · exact hletter '\\' _ rfl (by decide)
  · exact hletter 'b' _ rfl (by decide)
  · exact hletter 't' _ rfl (by decide)
  · exact hletter 'n' _ rfl (by decide)
  · exact hletter 'f' _ rfl (by decide)
  · exact hletter 'r' _ rfl (by decide)
  next hquote hslash _ _ _ _ _ =>
    split
    · next hcontrol =>
      rw [controlDigits, List.cons_append, List.cons_append, List.cons_append, List.cons_append,
        List.cons_append, List.cons_append, List.nil_append, readUnits,
        hexUnit?_controlDigits hcontrol]
      cases readUnits rest <;> rfl
    · next hcontrol =>
      rw [List.singleton_append, readUnits.eq_5 _ _ hquote
        (fun a b c d rest' he => absurd he hslash) (fun d rest' he => absurd he hslash)]
      rw [if_neg (by simp [hcontrol]; exact hslash)]
      cases readUnits rest <;> rfl

theorem readUnits_escapes (s rest : List Char) :
    readUnits (s.flatMap escape ++ '"' :: rest) = some (s.map Char.toNat, rest) := by
  induction s with
  | nil => rfl
  | cons c s ih =>
    rw [List.flatMap_cons, List.append_assoc, readUnits_escape, ih]
    rfl

/-- No character is half of a surrogate pair. -/
theorem charOfUnit?_toNat (c : Char) :
    isHighHalf c.toNat = false ∧ charOfUnit? c.toNat = some c := by
  have hvalid : c.toNat < 0xD800 ∨ 0xDFFF < c.toNat ∧ c.toNat < 0x110000 := c.valid
  have hhigh : isHighHalf c.toNat = false := by simp [isHighHalf]; omega
  have hlow : isLowHalf c.toNat = false := by simp [isLowHalf]; omega
  exact ⟨hhigh, by rw [charOfUnit?, hhigh, hlow, Char.ofNat_toNat]; rfl⟩

theorem charsOfUnits?_toNat (s : List Char) : charsOfUnits? (s.map Char.toNat) = some s := by
  induction s with
  | nil => rfl
  | cons c s ih =>
    obtain ⟨hhigh, hchar⟩ := charOfUnit?_toNat c
    cases s with
    | nil => simp [charsOfUnits?, hchar]
    | cons d s =>
      rw [List.map_cons, List.map_cons, charsOfUnits?, hhigh, hchar, ← List.map_cons, ih]
      rfl

/-- A string is read back after its opening quotation mark. -/
theorem readText_escapes (s : String) (rest : List Char) :
    readText (s.toList.flatMap escape ++ '"' :: rest) = some (some s, rest) := by
  rw [readText, readUnits_escapes, Option.map_some]
  dsimp only
  rw [charsOfUnits?_toNat, Option.map_some, String.ofList_toList]

/-- The name of a member is read back with its colon. -/
theorem readName_quote (s : String) (rest : List Char) :
    readName (quote s.toList (':' :: rest)) = some (some s, rest) := by
  have hblank : skipBlanks (quote s.toList (':' :: rest)) = quote s.toList (':' :: rest) := rfl
  rw [readName, hblank, quote]
  simp only [readText_escapes]
  rfl

/-! ## Numbers -/

/-- A text that ends a value: digits do not run on into it. -/
def Closing (rest : List Char) : Prop :=
  ∀ c ∈ rest.head?, c = ',' ∨ c = ']' ∨ c = '\x7d'

theorem isDigit_of_mem_toDigits {n : Nat} {c : Char} (hc : c ∈ Nat.toDigits 10 n) :
    isDigit c = true := by
  have hdigit := Nat.isDigit_of_mem_toDigits (by decide) (by decide) hc
  simp only [Char.isDigit, Bool.and_eq_true, decide_eq_true_eq] at hdigit
  have hbounds : '0' ≤ c ∧ c ≤ '9' := hdigit
  rw [isDigit, Text.digit?, if_pos hbounds]
  rfl

theorem readDigits_append (acc : Nat) (s s' : List Char) :
    Text.readDigits acc (s ++ s') =
      (Text.readDigits acc s).bind fun n => Text.readDigits n s' := by
  induction s generalizing acc with
  | nil => rfl
  | cons c s ih =>
    rw [List.cons_append, Text.readDigits, Text.readDigits]
    cases Text.digit? c with
    | none => rfl
    | some d => exact ih _

theorem digit?_digitChar {n : Nat} (hn : n < 10) : Text.digit? n.digitChar = some n := by
  revert n
  decide

/-- The digits of a number are read as the number. -/
theorem readDigits_toDigits (n : Nat) : Text.readDigits 0 (Nat.toDigits 10 n) = some n := by
  induction n using Nat.strongRecOn with
  | ind n ih =>
    rw [Nat.toDigits_eq_if (by decide)]
    split
    · next hn => simp [Text.readDigits, digit?_digitChar hn]
    · next hn =>
      rw [readDigits_append, ih (n / 10) (by omega), Option.bind_some]
      simp only [Text.readDigits, digit?_digitChar (Nat.mod_lt n (by decide : 0 < 10))]
      congr 1
      omega

/-- Only the number zero begins with a zero. -/
theorem head?_toDigits {n : Nat} (hn : 0 < n) : (Nat.toDigits 10 n).head? ≠ some '0' := by
  induction n using Nat.strongRecOn with
  | ind n ih =>
    rw [Nat.toDigits_eq_if (by decide)]
    split
    · next hlt =>
      have hchar : ∀ n < 10, 0 < n → [n.digitChar].head? ≠ some '0' := by decide
      exact hchar n hlt hn
    · next hge =>
      have hhead := ih (n / 10) (by omega) (by omega)
      cases hs : Nat.toDigits 10 (n / 10) with
      | nil => exact absurd hs Nat.toDigits_ne_nil
      | cons c s =>
        rw [hs] at hhead
        exact hhead

theorem isWhole_toDigits (n : Nat) : isWhole (Nat.toDigits 10 n) = true := by
  rcases Nat.eq_zero_or_pos n with rfl | hn
  · rfl
  · have hhead := head?_toDigits hn
    cases hs : Nat.toDigits 10 n with
    | nil => exact absurd hs Nat.toDigits_ne_nil
    | cons c s =>
      have hc : c ≠ '0' := by simpa [hs] using hhead
      rw [isWhole]
      · simpa using hc
      · rintro rfl
        exact absurd rfl hc

section Digits

variable {rest : List Char}

/-- What closes a value begins neither with a digit nor with a fraction or an exponent. -/
theorem Closing.stops (hrest : Closing rest) :
    rest.takeWhile isDigit = [] ∧ rest.dropWhile isDigit = rest ∧
      readFraction rest = some ([], rest) ∧ readExponent rest = some ([], rest) := by
  cases rest with
  | nil => exact ⟨rfl, rfl, rfl, rfl⟩
  | cons c rest =>
    rcases hrest c rfl with rfl | rfl | rfl <;> exact ⟨rfl, rfl, rfl, rfl⟩

theorem readMagnitude_toDigits (hrest : Closing rest) (negative : Bool) (n : Nat) :
    readMagnitude negative (Nat.toDigits 10 n ++ rest) = some (integer negative n, rest) := by
  obtain ⟨htake, hdrop, hfraction, hexponent⟩ := hrest.stops
  have hdigits : ∀ c ∈ Nat.toDigits 10 n, isDigit c = true := fun c => isDigit_of_mem_toDigits
  rw [readMagnitude, List.takeWhile_append_of_pos hdigits, List.dropWhile_append_of_pos hdigits,
    htake, hdrop, List.append_nil, isWhole_toDigits, if_pos rfl]
  simp only [hfraction, hexponent, List.isEmpty_nil, Bool.and_self, if_true,
    readDigits_toDigits]
  rfl

/-- The text of a number begins with a digit or a sign. -/
theorem exists_toDigits_eq_cons (n : Nat) :
    ∃ c s, Nat.toDigits 10 n = c :: s ∧
      c ∈ ['0', '1', '2', '3', '4', '5', '6', '7', '8', '9'] := by
  cases hs : Nat.toDigits 10 n with
  | nil => exact absurd hs Nat.toDigits_ne_nil
  | cons c s =>
    refine ⟨c, s, rfl, ?_⟩
    have hc := Nat.isDigit_of_mem_toDigits (b := 10) (n := n) (c := c) (by decide) (by decide)
      (by rw [hs]; exact List.mem_cons_self)
    simp only [Char.isDigit, Bool.and_eq_true, decide_eq_true_eq] at hc
    have hlow : 48 ≤ c.toNat := UInt32.le_iff_toNat_le.1 hc.1
    have hhigh : c.toNat ≤ 57 := UInt32.le_iff_toNat_le.1 hc.2
    have hlist : ∀ n < 58, 48 ≤ n →
        Char.ofNat n ∈ ['0', '1', '2', '3', '4', '5', '6', '7', '8', '9'] := by decide
    simpa [Char.ofNat_toNat] using hlist c.toNat (by omega) hlow

theorem readValue_digits (hrest : Closing rest) (negative : Bool) (n fuel : Nat) :
    skipBlanks (digits negative n rest) = digits negative n rest ∧
      readValue (fuel + 1) (digits negative n rest) = some (integer negative n, rest) := by
  have hread := readMagnitude_toDigits hrest negative n
  cases negative with
  | true => exact ⟨rfl, hread⟩
  | false =>
    obtain ⟨c, s, hs, hc⟩ := exists_toDigits_eq_cons n
    simp only [digits, Bool.false_eq_true, if_false]
    rw [hs, List.cons_append] at hread ⊢
    simp only [List.mem_cons, List.not_mem_nil, or_false] at hc
    rcases hc with rfl | rfl | rfl | rfl | rfl | rfl | rfl | rfl | rfl | rfl <;>
      exact ⟨rfl, hread⟩

end Digits

/-! ## Values -/

mutual

/-- Whether a value has a text of its own: it holds no decimals, and every string and
every name has a text. -/
def Spelt : Json → Prop
  | decimal _ => False
  | string text => text.isSome
  | array items => SpeltItems items
  | object members => SpeltMembers members
  | _ => True

def SpeltItems : List Json → Prop
  | [] => True
  | item :: items => item.Spelt ∧ SpeltItems items

def SpeltMembers : List (Option String × Json) → Prop
  | [] => True
  | (name, value) :: members => name.isSome ∧ value.Spelt ∧ SpeltMembers members

end

theorem speltItems_iff {items : List Json} : SpeltItems items ↔ ∀ item ∈ items, item.Spelt := by
  induction items with
  | nil => simp [SpeltItems]
  | cons item items ih => rw [SpeltItems, ih, List.forall_mem_cons]

theorem spelt_array {items : List Json} : (array items).Spelt ↔ ∀ item ∈ items, item.Spelt :=
  speltItems_iff

theorem spelt_record {members : List (String × Json)} :
    (record members).Spelt ↔ ∀ m ∈ members, m.2.Spelt := by
  rw [record, Spelt]
  induction members with
  | nil => simp [SpeltMembers]
  | cons m members ih =>
    rw [List.map_cons, SpeltMembers, ih, List.forall_mem_cons]
    simp

theorem spelt_case {name : String} {contents : Json} :
    (case name contents).Spelt ↔ contents.Spelt := by
  rw [case, spelt_record]
  simp

theorem spelt_nullable {α : Type} {f : α → Json} {x : Option α} :
    (nullable f x).Spelt ↔ ∀ a ∈ x, (f a).Spelt := by
  cases x <;> simp [nullable, Spelt]

theorem length_le_quote (s rest : List Char) : rest.length + 2 ≤ (quote s rest).length := by
  simp only [quote, List.length_cons, List.length_append]
  omega

mutual

/-- A value has a text of at least one character. -/
theorem length_lt_spell : ∀ (j : Json) (rest : List Char), j.Spelt →
    rest.length < (j.spell rest).length
  | null, rest, _ => by simp only [spell, List.length_cons]; omega
  | bool true, rest, _ => by simp only [spell, List.length_cons]; omega
  | bool false, rest, _ => by simp only [spell, List.length_cons]; omega
  | integer negative n, rest, _ => by
    have hpos := Nat.length_toDigits_pos (b := 10) (n := n)
    simp only [spell, digits]
    split <;> simp only [List.length_cons, List.length_append] <;> omega
  | string text, rest, _ => by
    have := length_le_quote (text.getD "").toList rest
    rw [spell]
    omega
  | array [], rest, _ => by simp only [spell, List.length_cons]; omega
  | array (item :: items), rest, h => by
    have hitem := length_lt_spell item (spellMoreItems items rest) h.1
    have hitems := length_lt_spellMoreItems items rest h.2
    simp only [spell, List.length_cons]
    omega
  | object [], rest, _ => by simp only [spell, List.length_cons]; omega
  | object ((name, value) :: members), rest, h => by
    have hname := length_le_quote (name.getD "").toList
      (':' :: value.spell (spellMoreMembers members rest))
    have hvalue := length_lt_spell value (spellMoreMembers members rest) h.2.1
    have hmembers := length_lt_spellMoreMembers members rest h.2.2
    simp only [spell, List.length_cons] at hname ⊢
    omega

theorem length_lt_spellMoreItems : ∀ (items : List Json) (rest : List Char), SpeltItems items →
    rest.length < (spellMoreItems items rest).length
  | [], rest, _ => by simp only [spellMoreItems, List.length_cons]; omega
  | item :: items, rest, h => by
    have hitem := length_lt_spell item (spellMoreItems items rest) h.1
    have hitems := length_lt_spellMoreItems items rest h.2
    simp only [spellMoreItems, List.length_cons]
    omega

theorem length_lt_spellMoreMembers : ∀ (members : List (Option String × Json))
    (rest : List Char), SpeltMembers members →
      rest.length < (spellMoreMembers members rest).length
  | [], rest, _ => by simp only [spellMoreMembers, List.length_cons]; omega
  | (name, value) :: members, rest, h => by
    have hname := length_le_quote (name.getD "").toList
      (':' :: value.spell (spellMoreMembers members rest))
    have hvalue := length_lt_spell value (spellMoreMembers members rest) h.2.1
    have hmembers := length_lt_spellMoreMembers members rest h.2.2
    simp only [spellMoreMembers, List.length_cons] at hname ⊢
    omega

end

/-- More items or the end of an array close an item. -/
theorem closing_spellMoreItems (items : List Json) (rest : List Char) :
    Closing (spellMoreItems items rest) := by
  cases items <;> simp [Closing, spellMoreItems]

/-- More members or the end of an object close a member. -/
theorem closing_spellMoreMembers (members : List (Option String × Json)) (rest : List Char) :
    Closing (spellMoreMembers members rest) := by
  cases members <;> simp [Closing, spellMoreMembers]

/-- No blanks stand before a value, and a value begins neither like the end of an array
nor like the end of an object. -/
theorem skipBlanks_spell {j : Json} (hj : j.Spelt) (rest : List Char) :
    skipBlanks (j.spell rest) = j.spell rest ∧
      (∀ s, j.spell rest ≠ ']' :: s) ∧ ∀ s, j.spell rest ≠ '\x7d' :: s := by
  cases j with
  | null => exact ⟨rfl, by simp [spell], by simp [spell]⟩
  | bool b => cases b <;> exact ⟨rfl, by simp [spell], by simp [spell]⟩
  | decimal s => exact absurd hj (by simp [Spelt])
  | string text => exact ⟨rfl, by simp [spell, quote], by simp [spell, quote]⟩
  | array items => cases items <;> exact ⟨rfl, by simp [spell], by simp [spell]⟩
  | object members =>
    rcases members with - | ⟨⟨name, value⟩, members⟩ <;>
      exact ⟨rfl, by simp [spell], by simp [spell]⟩
  | integer negative n =>
    obtain ⟨c, s, hs, hc⟩ := exists_toDigits_eq_cons n
    cases negative with
    | true => exact ⟨rfl, by simp [spell, digits], by simp [spell, digits]⟩
    | false =>
      simp only [spell, digits, Bool.false_eq_true, if_false, hs, List.cons_append]
      simp only [List.mem_cons, List.not_mem_nil, or_false] at hc
      rcases hc with rfl | rfl | rfl | rfl | rfl | rfl | rfl | rfl | rfl | rfl <;>
        exact ⟨rfl, by simp, by simp⟩

section Steps

variable {fuel : Nat} {cs cs' rest : List Char} {item value : Json} {items : List Json}
  {name : String} {members : List (Option String × Json)}

/-- An array is its first item and the others. -/
theorem readValue_bracket (hblanks : skipBlanks cs = cs) (hclosed : ∀ s, cs ≠ ']' :: s)
    (hitem : readValue fuel cs = some (item, cs'))
    (hitems : readMoreItems fuel cs' = some (items, rest)) :
    readValue (fuel + 1) ('[' :: cs) = some (array (item :: items), rest) := by
  have hbracket : skipBlanks ('[' :: cs) = '[' :: cs := rfl
  simp only [readValue, hbracket]
  rw [hblanks]
  split
  · exact absurd rfl (hclosed _)
  · simp only [hitem, hitems, Option.map_some]

theorem readMoreItems_comma (hitem : readValue fuel cs = some (item, cs'))
    (hitems : readMoreItems fuel cs' = some (items, rest)) :
    readMoreItems (fuel + 1) (',' :: cs) = some (item :: items, rest) := by
  have hcomma : skipBlanks (',' :: cs) = ',' :: cs := rfl
  rw [readMoreItems, hcomma]
  simp only [hitem, hitems]
  rfl

/-- An object is its first member and the others. -/
theorem readValue_brace (hvalue : readValue fuel cs = some (value, cs'))
    (hmembers : readMoreMembers fuel cs' = some (members, rest)) :
    readValue (fuel + 1) ('\x7b' :: quote name.toList (':' :: cs)) =
      some (object ((some name, value) :: members), rest) := by
  have hbrace : skipBlanks ('\x7b' :: quote name.toList (':' :: cs)) =
      '\x7b' :: quote name.toList (':' :: cs) := rfl
  have hquote : skipBlanks (quote name.toList (':' :: cs)) = quote name.toList (':' :: cs) := rfl
  simp only [readValue, hbrace]
  rw [hquote]
  split
  · next hquoted => simp [quote] at hquoted
  · simp only [readName_quote, hvalue, hmembers, Option.map_some]

theorem readMoreMembers_comma (hvalue : readValue fuel cs = some (value, cs'))
    (hmembers : readMoreMembers fuel cs' = some (members, rest)) :
    readMoreMembers (fuel + 1) (',' :: quote name.toList (':' :: cs)) =
      some ((some name, value) :: members, rest) := by
  have hcomma : skipBlanks (',' :: quote name.toList (':' :: cs)) =
      ',' :: quote name.toList (':' :: cs) := rfl
  rw [readMoreMembers, hcomma]
  simp only [readName_quote, hvalue, hmembers]
  rfl

end Steps

mutual

/-- A value is read back, and what stands behind it is left. -/
theorem readValue_spell : ∀ (j : Json) (fuel : Nat) (rest : List Char), j.Spelt → Closing rest →
    (j.spell rest).length < fuel + rest.length → readValue fuel (j.spell rest) = some (j, rest)
  | j, 0, rest, hj, _, hfuel => by
    have := length_lt_spell j rest hj
    omega
  | null, fuel + 1, rest, _, _, _ => rfl
  | bool true, fuel + 1, rest, _, _, _ => rfl
  | bool false, fuel + 1, rest, _, _, _ => rfl
  | integer negative n, fuel + 1, rest, _, hrest, _ => (readValue_digits hrest negative n fuel).2
  | string none, fuel + 1, rest, hj, _, _ => absurd hj (by simp [Spelt])
  | string (some s), fuel + 1, rest, _, _, _ => by
    show (readText (s.toList.flatMap escape ++ '"' :: rest)).map _ = _
    rw [readText_escapes]
    rfl
  | array [], fuel + 1, rest, _, _, _ => rfl
  | array (item :: items), fuel + 1, rest, hj, _, hfuel => by
    have hlength := length_lt_spell item (spellMoreItems items rest) hj.1
    have hmore := length_lt_spellMoreItems items rest hj.2
    simp only [spell, List.length_cons] at hfuel
    obtain ⟨hblanks, hclosed, -⟩ := skipBlanks_spell hj.1 (spellMoreItems items rest)
    exact readValue_bracket hblanks hclosed
      (readValue_spell item fuel _ hj.1 (closing_spellMoreItems items rest) (by omega))
      (readMoreItems_spell items fuel rest hj.2 (by omega))
  | object [], fuel + 1, rest, _, _, _ => rfl
  | object ((none, value) :: members), fuel + 1, rest, hj, _, _ => absurd hj.1 (by simp)
  | object ((some name, value) :: members), fuel + 1, rest, hj, _, hfuel => by
    have hname := length_le_quote name.toList
      (':' :: value.spell (spellMoreMembers members rest))
    have hlength := length_lt_spell value (spellMoreMembers members rest) hj.2.1
    have hmore := length_lt_spellMoreMembers members rest hj.2.2
    simp only [spell, List.length_cons, Option.getD_some] at hfuel hname
    exact readValue_brace
      (readValue_spell value fuel _ hj.2.1 (closing_spellMoreMembers members rest) (by omega))
      (readMoreMembers_spell members fuel rest hj.2.2 (by omega))

theorem readMoreItems_spell : ∀ (items : List Json) (fuel : Nat) (rest : List Char),
    SpeltItems items → (spellMoreItems items rest).length < fuel + rest.length →
      readMoreItems fuel (spellMoreItems items rest) = some (items, rest)
  | items, 0, rest, hitems, hfuel => by
    have := length_lt_spellMoreItems items rest hitems
    omega
  | [], fuel + 1, rest, _, _ => rfl
  | item :: items, fuel + 1, rest, h, hfuel => by
    have hlength := length_lt_spell item (spellMoreItems items rest) h.1
    have hmore := length_lt_spellMoreItems items rest h.2
    simp only [spellMoreItems, List.length_cons] at hfuel
    exact readMoreItems_comma
      (readValue_spell item fuel _ h.1 (closing_spellMoreItems items rest) (by omega))
      (readMoreItems_spell items fuel rest h.2 (by omega))

theorem readMoreMembers_spell : ∀ (members : List (Option String × Json)) (fuel : Nat)
    (rest : List Char), SpeltMembers members →
      (spellMoreMembers members rest).length < fuel + rest.length →
        readMoreMembers fuel (spellMoreMembers members rest) = some (members, rest)
  | members, 0, rest, hmembers, hfuel => by
    have := length_lt_spellMoreMembers members rest hmembers
    omega
  | [], fuel + 1, rest, _, _ => rfl
  | (none, value) :: members, fuel + 1, rest, h, _ => absurd h.1 (by simp)
  | (some name, value) :: members, fuel + 1, rest, h, hfuel => by
    have hname := length_le_quote name.toList
      (':' :: value.spell (spellMoreMembers members rest))
    have hlength := length_lt_spell value (spellMoreMembers members rest) h.2.1
    have hmore := length_lt_spellMoreMembers members rest h.2.2
    simp only [spellMoreMembers, List.length_cons, Option.getD_some] at hfuel hname
    exact readMoreMembers_comma
      (readValue_spell value fuel _ h.2.1 (closing_spellMoreMembers members rest) (by omega))
      (readMoreMembers_spell members fuel rest h.2.2 (by omega))

end

/-- Reading the text of a value gives the value back. -/
theorem read?_render {j : Json} (hj : j.Spelt) : read? j.render = some j := by
  have hvalue := readValue_spell j ((j.spell []).length + 1) [] hj (fun c hc => by simp at hc)
    (by simp)
  rw [read?, render, String.toList_ofList]
  simp only [hvalue]
  rfl

end Json
end ClosureCache
