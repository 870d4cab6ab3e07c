/-
The exported lines of a log tell the events that it holds.

The text of a JSON value has no control characters, whatever strings the value holds, for
these stand there as escapes.  So a line feed in the export of a log is the end of a line, and
cutting the export at its line feeds gives the lines.  A line is read back as the form of one
event, and different events have different forms.
-/
import Mathlib.Data.List.Basic
import ClosureCache.EventLog
import ClosureCache.Proofs.Json.RoundTrip

namespace ClosureCache

/-! ## Values without control characters -/

namespace Json

/-- Whether a character is no control character. -/
def isPrintable (c : Char) : Bool := 0x20 ≤ c.toNat

def Printable (cs : List Char) : Prop := ∀ c ∈ cs, isPrintable c = true

theorem Printable.nil : Printable [] := fun _ hc => absurd hc List.not_mem_nil

theorem Printable.cons {c : Char} {cs : List Char} (hc : isPrintable c = true)
    (hcs : Printable cs) : Printable (c :: cs) := List.forall_mem_cons.2 ⟨hc, hcs⟩

theorem Printable.append {cs ds : List Char} (hcs : Printable cs) (hds : Printable ds) :
    Printable (cs ++ ds) := fun c hc => (List.mem_append.1 hc).elim (hcs c) (hds c)

theorem printable_controlDigits {n : Nat} (hn : n < 0x20) :
    Printable [Nat.digitChar (n / 16), Nat.digitChar (n % 16)] := by
  have hdigit : ∀ d < 16, isPrintable (Nat.digitChar d) = true := by decide
  exact .cons (hdigit _ (by omega)) (.cons (hdigit _ (by omega)) .nil)

theorem printable_escape (c : Char) : Printable (escape c) := by
  unfold escape
  split
  case h_8 =>
    split
    · next hcontrol =>
      exact .cons rfl (.cons rfl (.cons rfl (.cons rfl (printable_controlDigits hcontrol))))
    · next hcontrol => exact .cons (decide_eq_true (Nat.not_lt.1 hcontrol)) .nil
  all_goals exact .cons rfl (.cons rfl .nil)

theorem printable_quote (s : List Char) {rest : List Char} (hrest : Printable rest) :
    Printable (quote s rest) := by
  refine .cons rfl (.append (fun d hd => ?_) (.cons rfl hrest))
  obtain ⟨c, -, hd⟩ := List.mem_flatMap.1 hd
  exact printable_escape c d hd

theorem printable_toDigits (n : Nat) : Printable (Nat.toDigits 10 n) := by
  intro c hc
  have hdigit := Nat.isDigit_of_mem_toDigits (by decide) (by decide) hc
  simp only [Char.isDigit, Bool.and_eq_true, decide_eq_true_eq] at hdigit
  have hlow : 48 ≤ c.toNat := UInt32.le_iff_toNat_le.1 hdigit.1
  exact decide_eq_true (Nat.le_trans (by decide) hlow)

theorem printable_digits (negative : Bool) (n : Nat) {rest : List Char} (hrest : Printable rest) :
    Printable (digits negative n rest) := by
  have hunsigned := (printable_toDigits n).append hrest
  cases negative with
  | true => exact .cons rfl hunsigned
  | false => exact hunsigned

mutual

/-- The text of a value is printable. -/
theorem printable_spell {rest : List Char} (hrest : Printable rest) :
    ∀ j : Json, j.Spelt → Printable (j.spell rest)
  | null, _ => .cons rfl (.cons rfl (.cons rfl (.cons rfl hrest)))
  | bool true, _ => .cons rfl (.cons rfl (.cons rfl (.cons rfl hrest)))
  | bool false, _ => .cons rfl (.cons rfl (.cons rfl (.cons rfl (.cons rfl hrest))))
  | integer negative n, _ => printable_digits negative n hrest
  | string _, _ => printable_quote _ hrest
  | array [], _ => .cons rfl (.cons rfl hrest)
  | array (item :: items), h =>
    .cons rfl (printable_spell (printable_spellMoreItems hrest items h.2) item h.1)
  | object [], _ => .cons rfl (.cons rfl hrest)
  | object ((_, value) :: members), h =>
    .cons rfl (printable_quote _ (.cons rfl
      (printable_spell (printable_spellMoreMembers hrest members h.2.2) value h.2.1)))

theorem printable_spellMoreItems {rest : List Char} (hrest : Printable rest) :
    ∀ items : List Json, SpeltItems items → Printable (spellMoreItems items rest)
  | [], _ => .cons rfl hrest
  | item :: items, h =>
    .cons rfl (printable_spell (printable_spellMoreItems hrest items h.2) item h.1)

theorem printable_spellMoreMembers {rest : List Char} (hrest : Printable rest) :
    ∀ members : List (Option String × Json), SpeltMembers members →
      Printable (spellMoreMembers members rest)
  | [], _ => .cons rfl hrest
  | (_, value) :: members, h =>
    .cons rfl (printable_quote _ (.cons rfl
      (printable_spell (printable_spellMoreMembers hrest members h.2.2) value h.2.1)))

end

/-- The text of a value is on one line. -/
theorem lineFeed_notMem_render {j : Json} (hj : j.Spelt) : '\n' ∉ j.render.toList := by
  rw [render, String.toList_ofList]
  exact fun hmem => absurd (printable_spell .nil j hj _ hmem) (by decide)

/-- Different values have different texts. -/
theorem render_inj {j k : Json} (hj : j.Spelt) (hk : k.Spelt) : j.render = k.render ↔ j = k := by
  refine ⟨fun h => ?_, congrArg render⟩
  have hread := read?_render hj
  rw [h, read?_render hk] at hread
  exact (Option.some.inj hread).symm

end Json

/-! ## Lines -/

/-- What texts on one line make, each with a line feed after it, gives the texts when it is cut
at its line feeds. -/
theorem List.splitOn_flatMap_lineFeed {lines : List (List Char)}
    (hlines : ∀ line ∈ lines, '\n' ∉ line) :
    (lines.flatMap fun line => line ++ ['\n']).splitOn '\n' = lines ++ [[]] := by
  induction lines with
  | nil => rfl
  | cons line rest ih =>
    rw [List.forall_mem_cons] at hlines
    rw [List.flatMap_cons, List.append_assoc, List.singleton_append,
      List.splitOn_append_cons_self_of_not_mem hlines.1, ih hlines.2, List.cons_append]

namespace Event

theorem spelt_toJson (e : Event) : e.toJson.Spelt := by
  rw [toJson, Json.spelt_record]
  simp [Json.str, Json.nat, Json.Spelt, Json.spelt_nullable, SiteId.toJson]

theorem toJson_injective {e e' : Event} (h : e.toJson = e'.toJson) : e = e' := by
  obtain ⟨seq, traceId, component, event, outcome, errorCode, site, detail⟩ := e
  obtain ⟨seq', traceId', component', event', outcome', errorCode', site', detail'⟩ := e'
  obtain _ | ⟨⟨index⟩⟩ := site <;> obtain _ | ⟨⟨index'⟩⟩ := site' <;>
    simp_all [toJson, Json.record, Json.nat, Json.str, Json.nullable, SiteId.toJson]

def line (e : Event) : List Char := e.toJson.render.toList

theorem lineFeed_notMem_line (e : Event) : '\n' ∉ e.line :=
  Json.lineFeed_notMem_render e.spelt_toJson

theorem line_inj {e e' : Event} : e.line = e'.line ↔ e = e' := by
  rw [line, line, String.toList_inj, Json.render_inj e.spelt_toJson e'.spelt_toJson]
  exact ⟨toJson_injective, congrArg toJson⟩

end Event

namespace EventLog

theorem toList_toJsonLines (log : EventLog) : log.toJsonLines.toList =
    (log.events.toList.map Event.line).flatMap fun line => line ++ ['\n'] := by
  rw [toJsonLines, String.toList_join, List.flatMap_map, List.flatMap_map]
  refine List.flatMap_congr fun e _ => ?_
  rw [String.toList_append]
  rfl

/-- Cut at its line feeds, the export of a log is the lines of its events and nothing after the
last line feed. -/
theorem splitOn_toJsonLines (log : EventLog) : log.toJsonLines.toList.splitOn '\n' =
    log.events.toList.map Event.line ++ [[]] := by
  rw [toList_toJsonLines, List.splitOn_flatMap_lineFeed]
  intro line hline
  obtain ⟨e, -, rfl⟩ := List.mem_map.1 hline
  exact e.lineFeed_notMem_line

/-- The export of a log has one line feed for each event, at the end of the line of the event.
Logs have the same export just if they hold the same events. -/
theorem toJsonLines_unambiguous (log log' : EventLog) :
    log.toJsonLines.toList.splitOn '\n' = log.events.toList.map Event.line ++ [[]] ∧
      log.toJsonLines.toList.count '\n' = log.events.size ∧
      (log.toJsonLines = log'.toJsonLines ↔ log.events = log'.events) := by
  refine ⟨log.splitOn_toJsonLines, ?_, fun h => ?_, fun h => ?_⟩
  · have hone : ∀ e : Event, (e.line ++ ['\n']).count '\n' = 1 := fun e => by
      rw [List.count_append, List.count_eq_zero.2 e.lineFeed_notMem_line]
      rfl
    rw [toList_toJsonLines, List.flatMap_map, List.count_flatMap]
    simp [Function.comp_def, hone]
  · have hlines : log.events.toList.map Event.line ++ [[]] =
        log'.events.toList.map Event.line ++ [[]] := by
      rw [← splitOn_toJsonLines, ← splitOn_toJsonLines, h]
    have hevents := List.map_injective_iff.2 (fun _ _ => Event.line_inj.1)
      (List.append_cancel_right hlines)
    exact Array.toList_inj.1 hevents
  · rw [toJsonLines, toJsonLines, h]

end EventLog

end ClosureCache
