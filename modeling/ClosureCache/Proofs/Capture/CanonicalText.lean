/-
What the canonical text of a spec tells about the spec.

The text spells a capture as a heading, which gives mode, binding and scope, and the name.
Names are any text, and nothing marks where a name ends but the bar of the next heading.  So
a name that holds a heading reads as several captures.  `cut` cuts a text at every heading in
it, and two specs have one text just if they have one site and their captures are the same
once their names are cut.  Among specs whose names hold no heading the text names the spec.
-/
import ClosureCache.Capture.Analysis
import ClosureCache.Proofs.Json.RoundTrip

namespace ClosureCache

/-! ## Headings -/

/-- A capture but for its name. -/
structure Heading where
  mode : CaptureMode
  binding : Option BindingId
  source : ScopeId
deriving DecidableEq

def Capture.heading (c : Capture) : Heading := ⟨c.mode, c.binding, c.source⟩

def bindingChars : Option BindingId → List Char
  | some b => Nat.toDigits 10 b.index
  | none => ['-']

namespace Heading

def named (h : Heading) (name : List Char) : Capture :=
  ⟨h.binding, String.ofList name, h.mode, h.source⟩

def chars (h : Heading) : List Char :=
  '|' :: (h.mode.text.toList ++ ':' :: (bindingChars h.binding ++ ':' ::
    (Nat.toDigits 10 h.source.index ++ [':'])))

end Heading

def Capture.chars (c : Capture) : List Char := c.heading.chars ++ c.name.toList

theorem Capture.toList_text (c : Capture) : c.text.toList = c.chars := by
  obtain ⟨binding, name, mode, source⟩ := c
  cases binding <;>
    simp [text, chars, heading, Heading.chars, bindingChars, Nat.toList_repr]

theorem Heading.chars_named (h : Heading) (name : List Char) :
    (h.named name).chars = h.chars ++ name := by
  rw [Capture.chars, named, String.toList_ofList]
  rfl

theorem Capture.named_heading (c : Capture) : c.heading.named c.name.toList = c := by
  rw [Heading.named, String.ofList_toList]
  rfl

theorem CaptureSpec.toList_canonicalText (s : CaptureSpec) : s.canonicalText.toList =
    "site=".toList ++ (Nat.toDigits 10 s.site.index ++ s.captures.flatMap Capture.chars) := by
  have hjoin : (String.join (s.captures.map Capture.text)).toList =
      s.captures.flatMap Capture.chars := by
    induction s.captures with
    | nil => rfl
    | cons c cs ih =>
      rw [List.map_cons, String.join_cons, String.toList_append, ih, c.toList_text]
      rfl
  rw [canonicalText, String.toList_append, String.toList_append, hjoin, Nat.toList_repr,
    List.append_assoc]

/-! ## Reading headings -/

namespace Heading

/-- The text up to the first colon, and the text after it. -/
def field? : List Char → Option (List Char × List Char)
  | [] => none
  | c :: rest =>
    if c = ':' then some ([], rest)
    else (field? rest).map fun (field, rest) => (c :: field, rest)

def number? (l : List Char) : Option Nat :=
  (Text.readDigits 0 l).filter fun n => Nat.toDigits 10 n = l

def mode? (l : List Char) : Option CaptureMode :=
  [.value, .cell, .thisValue].find? fun m => m.text.toList = l

def binding? (l : List Char) : Option (Option BindingId) :=
  if l = ['-'] then some none else (number? l).map fun n => some ⟨n⟩

/-- The heading at the front of a text, and the text after it. -/
def read? : List Char → Option (Heading × List Char)
  | '|' :: rest => do
    let (mode, rest) ← field? rest
    let (binding, rest) ← field? rest
    let (source, rest) ← field? rest
    return (⟨← mode? mode, ← binding? binding, ⟨← number? source⟩⟩, rest)
  | _ => none

theorem field?_append {l : List Char} (hl : ':' ∉ l) (rest : List Char) :
    field? (l ++ ':' :: rest) = some (l, rest) := by
  induction l with
  | nil => rfl
  | cons c l ih =>
    rw [List.mem_cons, not_or] at hl
    obtain ⟨hc, hl⟩ := hl
    rw [List.cons_append, field?, if_neg (Ne.symm hc), ih hl]
    rfl

theorem eq_of_field? {l field rest : List Char} (h : field? l = some (field, rest)) :
    l = field ++ ':' :: rest := by
  induction l generalizing field with
  | nil => cases h
  | cons c l ih =>
    rw [field?] at h
    split at h
    · next hc =>
      obtain ⟨rfl, rfl⟩ := Prod.mk.inj (Option.some.inj h)
      rw [hc, List.nil_append]
    · obtain ⟨⟨field, rest⟩, hfield, heq⟩ := Option.map_eq_some_iff.1 h
      obtain ⟨rfl, rfl⟩ := Prod.mk.inj heq
      rw [ih hfield, List.cons_append]

theorem number?_eq_some {l : List Char} {n : Nat} : number? l = some n ↔ l = Nat.toDigits 10 n := by
  rw [number?, Option.filter_eq_some_iff, decide_eq_true_eq]
  constructor
  · exact fun h => h.2.symm
  · rintro rfl
    exact ⟨Json.readDigits_toDigits n, rfl⟩

theorem mode?_eq_some {l : List Char} {m : CaptureMode} : mode? l = some m ↔ l = m.text.toList := by
  constructor
  · intro h
    have htext := List.find?_some h
    rw [decide_eq_true_eq] at htext
    exact htext.symm
  · rintro rfl
    cases m <;> decide

theorem binding?_eq_some {l : List Char} {b : Option BindingId} :
    binding? l = some b ↔ l = bindingChars b := by
  have hdash : ∀ n, Nat.toDigits 10 n ≠ ['-'] := by
    intro n hn
    have hdigit := Json.isDigit_of_mem_toDigits (n := n) (hn ▸ List.mem_singleton_self '-')
    exact absurd hdigit (by decide)
  rw [binding?]
  cases b with
  | none =>
    split
    · next hl => exact ⟨fun _ => hl, fun _ => rfl⟩
    · next hl => simp [bindingChars, hl]
  | some b =>
    split
    · next hl =>
      rw [hl]
      exact ⟨fun h => (by cases h), fun h => absurd h.symm (hdash b.index)⟩
    · next hl =>
      rw [Option.map_eq_some_iff, bindingChars]
      constructor
      · rintro ⟨n, hn, heq⟩
        obtain rfl := Option.some.inj heq
        exact number?_eq_some.1 hn
      · exact fun h => ⟨b.index, number?_eq_some.2 h, rfl⟩

/-- No part of a heading has a bar or a colon. -/
theorem clean_of_digits {n : Nat} {c : Char} (hc : c ∈ Nat.toDigits 10 n) : c ≠ '|' ∧ c ≠ ':' := by
  have hdigit := Json.isDigit_of_mem_toDigits hc
  constructor <;> rintro rfl <;> exact absurd hdigit (by decide)

theorem clean_of_binding {b : Option BindingId} {c : Char} (hc : c ∈ bindingChars b) :
    c ≠ '|' ∧ c ≠ ':' := by
  cases b with
  | none =>
    obtain rfl := List.mem_singleton.1 hc
    decide
  | some b => exact clean_of_digits hc

theorem clean_of_mode {m : CaptureMode} {c : Char} (hc : c ∈ m.text.toList) :
    c ≠ '|' ∧ c ≠ ':' := by
  have hclean : m.text.toList.all fun c => c ≠ '|' ∧ c ≠ ':' := by cases m <;> decide
  simpa only [decide_eq_true_eq] using List.all_eq_true.1 hclean c hc

/-- A heading is read back, whatever follows it. -/
theorem read?_chars (h : Heading) (rest : List Char) :
    read? (h.chars ++ rest) = some (h, rest) := by
  have hmode : ':' ∉ h.mode.text.toList := fun hc => (clean_of_mode hc).2 rfl
  have hbinding : ':' ∉ bindingChars h.binding := fun hc => (clean_of_binding hc).2 rfl
  have hsource : ':' ∉ Nat.toDigits 10 h.source.index := fun hc => (clean_of_digits hc).2 rfl
  simp only [chars, List.cons_append, List.append_assoc, List.nil_append, read?,
    field?_append hmode, field?_append hbinding, field?_append hsource, Option.bind_eq_bind,
    Option.bind_some, mode?_eq_some.2 rfl, binding?_eq_some.2 rfl, number?_eq_some.2 rfl]
  rfl

/-- What is read as a heading is one. -/
theorem eq_of_read? {l rest : List Char} {h : Heading} (hl : read? l = some (h, rest)) :
    l = h.chars ++ rest := by
  rw [read?.eq_def] at hl
  split at hl
  · next l =>
    simp only [Option.bind_eq_bind, Option.bind_eq_some_iff, Prod.exists] at hl
    obtain ⟨mode, l₁, h₁, binding, l₂, h₂, source, l₃, h₃, m, hm, b, hb, n, hn, heq⟩ := hl
    obtain ⟨rfl, rfl⟩ := Prod.mk.inj (Option.some.inj heq)
    rw [eq_of_field? h₁, eq_of_field? h₂, eq_of_field? h₃, mode?_eq_some.1 hm,
      binding?_eq_some.1 hb, number?_eq_some.1 hn]
    simp [chars]
  · cases hl

end Heading

/-! ## Cutting texts -/

/-- A text cut at the headings in it: what stands before the first of them, and a capture for
each of them, named by what stands before the next. -/
def cut : List Char → List Char × List Capture
  | [] => ([], [])
  | c :: rest =>
    match Heading.read? (c :: (cut rest).1) with
    | some (heading, name) => ([], heading.named name :: (cut rest).2)
    | none => (c :: (cut rest).1, (cut rest).2)

/-- Nothing gets lost when a text is cut. -/
theorem chars_cut (l : List Char) : (cut l).1 ++ (cut l).2.flatMap Capture.chars = l := by
  induction l with
  | nil => rfl
  | cons c rest ih =>
    rw [cut]
    cases hread : Heading.read? (c :: (cut rest).1) with
    | none =>
      dsimp only
      rw [List.cons_append, ih]
    | some found =>
      obtain ⟨heading, name⟩ := found
      dsimp only
      rw [List.nil_append, List.flatMap_cons, heading.chars_named, ← Heading.eq_of_read? hread,
        List.cons_append, ih]

/-- A heading begins a new capture whatever stands before it. -/
theorem cut_append {x : List Char} (hx : (cut x).1 = []) (l : List Char) :
    cut (l ++ x) = ((cut l).1, (cut l).2 ++ (cut x).2) := by
  induction l with
  | nil =>
    rw [List.nil_append, cut, List.nil_append, ← hx]
  | cons c rest ih =>
    rw [List.cons_append, cut, cut, ih]
    dsimp only
    cases Heading.read? (c :: (cut rest).1) with
    | none => rfl
    | some found => rfl

/-- Text without a bar belongs to what follows it. -/
theorem cut_of_bar_not_mem {l : List Char} (hl : '|' ∉ l) (x : List Char) :
    cut (l ++ x) = (l ++ (cut x).1, (cut x).2) := by
  induction l with
  | nil => rfl
  | cons c rest ih =>
    rw [List.mem_cons, not_or] at hl
    obtain ⟨hc, hrest⟩ := hl
    have hread : ∀ l, Heading.read? (c :: l) = none := by
      intro l
      rw [Heading.read?]
      rintro rest heq
      exact hc (List.cons.inj heq).1.symm
    rw [List.cons_append, cut, hread, ih hrest]
    rfl

/-- A heading is cut off from the name that it gives. -/
theorem cut_heading (h : Heading) (name : List Char) :
    cut (h.chars ++ name) = ([], h.named (cut name).1 :: (cut name).2) := by
  obtain ⟨tail, htail, hchars⟩ : ∃ tail, '|' ∉ tail ∧ h.chars = '|' :: tail := by
    refine ⟨_, fun hmem => ?_, rfl⟩
    simp only [List.mem_append, List.mem_cons, List.not_mem_nil, or_false] at hmem
    rcases hmem with hmem | hmem | hmem | hmem | hmem | hmem
    · exact (Heading.clean_of_mode hmem).1 rfl
    · cases hmem
    · exact (Heading.clean_of_binding hmem).1 rfl
    · cases hmem
    · exact (Heading.clean_of_digits hmem).1 rfl
    · cases hmem
  have hread := Heading.read?_chars h (cut name).1
  rw [hchars, List.cons_append] at hread
  rw [hchars, List.cons_append, cut, cut_of_bar_not_mem htail, hread]

/-! ## Captures -/

/-- The captures that a capture reads as: the name is cut. -/
def Capture.unpacked (c : Capture) : List Capture :=
  c.heading.named (cut c.name.toList).1 :: (cut c.name.toList).2

def CaptureSpec.unpacked (s : CaptureSpec) : List Capture := s.captures.flatMap Capture.unpacked

def Capture.IsPlain (c : Capture) : Prop := ∀ h : Heading, ¬ h.chars <:+: c.name.toList

def CaptureSpec.IsPlain (s : CaptureSpec) : Prop := ∀ c ∈ s.captures, c.IsPlain

theorem Capture.cut_chars (c : Capture) : cut c.chars = ([], c.unpacked) := cut_heading ..

/-- A name without a bar holds no heading. -/
theorem Capture.isPlain_of_bar_not_mem {c : Capture} (hc : '|' ∉ c.name.toList) : c.IsPlain :=
  fun _ hin => hc (hin.subset List.mem_cons_self)

/-- A capture with a name without headings reads as itself. -/
theorem Capture.IsPlain.unpacked {c : Capture} (hc : c.IsPlain) : c.unpacked = [c] := by
  have hchars := chars_cut c.name.toList
  have hnone : (cut c.name.toList).2 = [] := by
    rw [List.eq_nil_iff_forall_not_mem]
    intro d hd
    refine hc d.heading ?_
    have hin : d.chars <:+: (cut c.name.toList).2.flatMap Capture.chars := by
      rw [List.flatMap_def]
      exact List.infix_of_mem_flatten (List.mem_map_of_mem hd)
    rw [← hchars]
    exact (List.prefix_append ..).isInfix.trans (hin.trans (List.suffix_append ..).isInfix)
  rw [hnone, List.flatMap_nil, List.append_nil] at hchars
  rw [Capture.unpacked, hnone, hchars, c.named_heading]

namespace CaptureSpec

variable {s t : CaptureSpec}

/-- The text of captures is cut into those that they read as. -/
theorem cut_captures (s : CaptureSpec) :
    cut (s.captures.flatMap Capture.chars) = ([], s.unpacked) := by
  rw [unpacked]
  induction s.captures with
  | nil => rfl
  | cons c cs ih =>
    rw [List.flatMap_cons, cut_append (by rw [ih]), c.cut_chars, ih]
    rfl

theorem IsPlain.unpacked (hs : s.IsPlain) : s.unpacked = s.captures := by
  have hplain : ∀ c ∈ s.captures, c.unpacked = [c] := fun c hc => (hs c hc).unpacked
  rw [CaptureSpec.unpacked, List.flatMap_congr hplain, List.flatMap_singleton']

/-- Behind the number of the site the text of a spec is cut into its captures. -/
theorem cut_digits (s : CaptureSpec) :
    cut (Nat.toDigits 10 s.site.index ++ s.captures.flatMap Capture.chars) =
      (Nat.toDigits 10 s.site.index, s.unpacked) := by
  rw [cut_of_bar_not_mem fun hc => (Heading.clean_of_digits hc).1 rfl, s.cut_captures,
    List.append_nil]

/-- Two specs have one text just if they have one site and read as the same captures. -/
theorem canonicalText_eq_iff :
    s.canonicalText = t.canonicalText ↔ s.site = t.site ∧ s.unpacked = t.unpacked := by
  rw [← String.toList_inj, toList_canonicalText, toList_canonicalText, List.append_cancel_left_eq]
  constructor
  · intro h
    have hcut := congrArg cut h
    rw [s.cut_digits, t.cut_digits] at hcut
    obtain ⟨hdigits, hunpacked⟩ := Prod.mk.inj hcut
    have hread := congrArg (Text.readDigits 0) hdigits
    rw [Json.readDigits_toDigits, Json.readDigits_toDigits] at hread
    exact ⟨congrArg SiteId.mk (Option.some.inj hread), hunpacked⟩
  · rintro ⟨hsite, hunpacked⟩
    have hchars : ∀ r : CaptureSpec,
        r.captures.flatMap Capture.chars = r.unpacked.flatMap Capture.chars := by
      intro r
      have hr := chars_cut (r.captures.flatMap Capture.chars)
      rw [r.cut_captures, List.nil_append] at hr
      exact hr.symm
    rw [hsite, hchars, hchars, hunpacked]

end CaptureSpec

/-! ## Fingerprints -/

/-- The bytes read out from some place on. -/
theorem toList_loop (bytes : ByteArray) (i : Nat) (read : List UInt8) :
    ByteArray.toList.loop bytes i read = read.reverse ++ bytes.data.toList.drop i := by
  fun_induction ByteArray.toList.loop bytes i read with
  | case1 i read h ih =>
    have hi : i < bytes.data.size := h
    have hget : bytes.get! i = bytes.data[i] := getElem!_pos bytes.data i hi
    rw [ih, List.reverse_cons, hget, List.append_assoc, List.singleton_append,
      List.drop_eq_getElem_cons (l := bytes.data.toList) hi, Array.getElem_toList]
  | case2 i read h =>
    have hi : bytes.data.toList.length ≤ i := Nat.le_of_not_lt h
    rw [List.drop_eq_nil_of_le hi, List.append_nil]

theorem toList_byteArray (bytes : ByteArray) : bytes.toList = bytes.data.toList := by
  rw [ByteArray.toList, toList_loop]
  rfl

/-- The bytes of a text tell the text. -/
theorem utf8_injective : Function.Injective fun s : String => s.toUTF8.toList := by
  intro s t h
  simp only [toList_byteArray] at h
  exact String.toByteArray_inj.1 (ByteArray.ext (Array.toList_inj.1 h))

namespace Sha256

theorem hexDigit_inj {m n : Nat} (hm : m < 16) (hn : n < 16) (h : hexDigit m = hexDigit n) :
    m = n := by
  have hall : ∀ m < 16, ∀ n < 16, hexDigit m = hexDigit n → m = n := by decide
  exact hall m hm n hn h

/-- The digits of bytes tell the bytes. -/
theorem hex_injective : Function.Injective hex := by
  intro l m h
  rw [hex, hex, String.ofList_inj] at h
  induction l generalizing m with
  | nil =>
    cases m with
    | nil => rfl
    | cons c m => cases h
  | cons b l ih =>
    cases m with
    | nil => cases h
    | cons c m =>
      obtain ⟨hhigh, h⟩ := List.cons.inj h
      obtain ⟨hlow, h⟩ := List.cons.inj h
      have hb := b.toNat_lt
      have hc := c.toNat_lt
      have hhigh := hexDigit_inj (by omega) (by omega) hhigh
      have hlow := hexDigit_inj (by omega) (by omega) hlow
      have hbyte : b.toNat = c.toNat := by omega
      rw [UInt8.toNat_inj.1 hbyte, ih h]

end Sha256

namespace CaptureSpec

variable {s t : CaptureSpec}

/-- If the digests of the texts of two specs collide only where the texts are one, then the
specs have one fingerprint just if they have one site and read as the same captures; and if
their names hold no heading, just if they are equal. -/
theorem fingerprint_eq_iff
    (hdigest : Sha256.digest s.canonicalText.toUTF8.toList =
      Sha256.digest t.canonicalText.toUTF8.toList →
        s.canonicalText.toUTF8.toList = t.canonicalText.toUTF8.toList) :
    (s.canonicalText = t.canonicalText ↔ s.site = t.site ∧ s.unpacked = t.unpacked) ∧
      (s.fingerprint = t.fingerprint ↔ s.site = t.site ∧ s.unpacked = t.unpacked) ∧
      (s.IsPlain → t.IsPlain →
        (s.fingerprint = t.fingerprint ↔ s.site = t.site ∧ s.captures = t.captures)) := by
  have htext : s.fingerprint = t.fingerprint ↔ s.canonicalText = t.canonicalText := by
    constructor
    · intro h
      rw [fingerprint, fingerprint, String.append_right_inj] at h
      exact utf8_injective (hdigest (Sha256.hex_injective h))
    · intro h
      rw [fingerprint, fingerprint, h]
  refine ⟨canonicalText_eq_iff, htext.trans canonicalText_eq_iff, fun hs ht => ?_⟩
  rw [htext, canonicalText_eq_iff, hs.unpacked, ht.unpacked]

end CaptureSpec

/-! ## Two definitions with one text -/

/-- An arrow with these parameters, and in it a shared arrow that uses every one of them. -/
def sharing (params : List String) : Program where
  body :=
    let name (s : String) : Identifier := ⟨s, .unresolved⟩
    let arrow (memoized : Bool) (params : List String) (body : List Statement) : Expression :=
      .function ⟨none, .arrow, .plain, memoized, params.map name, none, body,
        ⟨0, 0, 0, 0, 0, 0⟩, none, none, none⟩
    let inner := arrow true [] (params.map fun s => .expression (.identifier (name s)))
    [.declaration .constDeclaration (name "outer")
      (some (arrow false params [.returning (some inner)])) .slot]

/-- What analysis says the shared arrow captures. -/
def sharedSpec? (params : List String) : Option CaptureSpec := do
  let resolved ← (sharing params).resolve.toOption
  let table ← resolved.analyze.toOption
  table.spec? ⟨1⟩

def parameterSpec (params : List String) : CaptureSpec where
  site := ⟨1⟩
  captures := params.mapIdx fun i name => ⟨some ⟨i + 1⟩, name, .value, ⟨1⟩⟩

/-- One arrow captures a parameter whose name holds a heading, the other one captures two
parameters: the specs differ, and their text and fingerprint are one. -/
theorem one_text_sharing : ∃ s t, sharedSpec? ["x|value:2:1:y"] = some s ∧
    sharedSpec? ["x", "y"] = some t ∧ s.captures ≠ t.captures ∧
    s.canonicalText = t.canonicalText ∧ s.fingerprint = t.fingerprint := by
  have hs : sharedSpec? ["x|value:2:1:y"] = some (parameterSpec ["x|value:2:1:y"]) := by
    decide +kernel
  have ht : sharedSpec? ["x", "y"] = some (parameterSpec ["x", "y"]) := by decide +kernel
  have htext : (parameterSpec ["x|value:2:1:y"]).canonicalText =
      (parameterSpec ["x", "y"]).canonicalText := by decide +kernel
  refine ⟨_, _, hs, ht, by decide, htext, ?_⟩
  rw [CaptureSpec.fingerprint, htext, CaptureSpec.fingerprint]

/-- The order of two parameters makes a difference. -/
theorem fingerprint_ne_sharing : ∃ s t, sharedSpec? ["x", "y"] = some s ∧
    sharedSpec? ["y", "x"] = some t ∧ s.IsPlain ∧ t.IsPlain ∧ s.fingerprint ≠ t.fingerprint := by
  have hs : sharedSpec? ["x", "y"] = some (parameterSpec ["x", "y"]) := by decide +kernel
  have ht : sharedSpec? ["y", "x"] = some (parameterSpec ["y", "x"]) := by decide +kernel
  have hxy : (parameterSpec ["x", "y"]).IsPlain := fun c hc =>
    Capture.isPlain_of_bar_not_mem (by revert c; decide)
  have hyx : (parameterSpec ["y", "x"]).IsPlain := fun c hc =>
    Capture.isPlain_of_bar_not_mem (by revert c; decide)
  have hdigest : Sha256.digest (parameterSpec ["x", "y"]).canonicalText.toUTF8.toList ≠
      Sha256.digest (parameterSpec ["y", "x"]).canonicalText.toUTF8.toList := by
    rw [toList_byteArray, toList_byteArray]
    decide +kernel
  refine ⟨_, _, hs, ht, hxy, hyx, fun heq => ?_⟩
  obtain ⟨-, -, hplain⟩ := CaptureSpec.fingerprint_eq_iff fun h => absurd h hdigest
  have hcaptures := ((hplain hxy hyx).1 heq).2
  revert hcaptures
  decide

end ClosureCache
